import MaskedViews.Access.Snapshot
import MaskedViews.Store.Basic

/-!
# Access to fields

What a user may do with the fields of an entity in a view is what is stored for the user's role,
and the defaults of the view where nothing is. A user who is not active has the access of the role
all the same, and an unknown user has the defaults.
-/

namespace MaskedViews.Store

/-- What is stored about a field for the role of a user. -/
def rowFor? (s : Store) (user entity field : Text) : Option FieldPermission :=
  (s.user? user).bind fun u => s.fieldPermission? u.role entity field

/-- The access of a user to a field that the entity has. -/
def accessTo (s : Store) (user entity field : Text) (view : View) : FieldAccess :=
  let stored : Access :=
    match s.rowFor? user entity field with
    | some row => ⟨row.visibleIn view, row.editableIn view⟩
    | none => view.defaults
  ⟨field, stored.visible, !view.isReadOnly && stored.editable⟩

/-- The access of a user to every field of an entity, in the order of the fields. -/
def access (s : Store) (user entity : Text) (view : View) : List FieldAccess :=
  (s.fieldsOf entity).map fun f => s.accessTo user entity f.name view

/-- The fields that a user can see. -/
def visibleFields (s : Store) (user entity : Text) (view : View) : List Text :=
  ((s.access user entity view).filter FieldAccess.visible).map FieldAccess.field

/-- The fields that a user can edit. -/
def editableFields (s : Store) (user entity : Text) (view : View) : List Text :=
  ((s.access user entity view).filter FieldAccess.editable).map FieldAccess.field

/-- Whether a user can see a field; not if the entity does not have it. -/
def canSee (s : Store) (user entity field : Text) (view : View) : Bool :=
  ((s.access user entity view).find? fun a => a.field = field).any FieldAccess.visible

/-- Whether a user can edit a field; not if the entity does not have it. -/
def canEdit (s : Store) (user entity field : Text) (view : View) : Bool :=
  ((s.access user entity view).find? fun a => a.field = field).any FieldAccess.editable

/-- The fields that a user can see and edit. -/
def snapshot (s : Store) (user entity : Text) (view : View) : Snapshot :=
  Snapshot.ofAccess (s.access user entity view)

end MaskedViews.Store
