import MaskedViews.Access.View
import MaskedViews.Json.Basic
import MaskedViews.Text.Blank

/-!
# Stored rows

What a store holds: users and their roles, the fields of each entity, what a role may do with a
field and which actions it may take, and the templates of the views.
-/

namespace MaskedViews

/-- A user. -/
structure User where
  /-- Who it is. -/
  id : Text
  /-- The role that permissions are given to. -/
  role : Text
  /-- Whether the user may act at all. -/
  active : Bool := true
  deriving DecidableEq, Repr

/-- The role that may take every action. -/
def adminRole : Text := "admin".toList

/-- Whether a user has the role that may take every action. -/
def User.isAdmin (u : User) : Bool := u.role = adminRole

/-- A field of an entity. -/
structure Field where
  /-- The entity. -/
  entity : Text
  /-- The name, the same as the key in a record. -/
  name : Text
  /-- What the field is called on a screen. -/
  label : Text := []
  /-- The kind of data. -/
  dataType : Text := "text".toList
  /-- The place among the fields of the entity. -/
  order : Int32 := 0
  /-- Whether a record needs the field. -/
  required : Bool := false
  /-- The entity whose records the field refers to. -/
  lookupEntity : Option Text := none
  deriving DecidableEq, Repr

/-- What a role may do with a field in each view. Nothing says whether the form that shows a
record is editable, since it never is. -/
structure FieldPermission where
  /-- The role. -/
  role : Text
  /-- The entity. -/
  entity : Text
  /-- The name of the field. -/
  field : Text
  /-- Shown in the list. -/
  listVisible : Bool := View.list.defaults.visible
  /-- Editable in the list. -/
  listEditable : Bool := View.list.defaults.editable
  /-- Shown in the form for a new record. -/
  formCreateVisible : Bool := View.formCreate.defaults.visible
  /-- Editable in the form for a new record. -/
  formCreateEditable : Bool := View.formCreate.defaults.editable
  /-- Shown in the form that changes a record. -/
  formEditVisible : Bool := View.formEdit.defaults.visible
  /-- Editable in the form that changes a record. -/
  formEditEditable : Bool := View.formEdit.defaults.editable
  /-- Shown in the form that shows a record. -/
  formViewVisible : Bool := View.formView.defaults.visible
  deriving DecidableEq, Repr

namespace FieldPermission

/-- The row that says of every view what its defaults say. -/
def withDefaults (role entity field : Text) : FieldPermission :=
  { role := role, entity := entity, field := field }

/-- Whether the field is shown in a view. -/
def visibleIn (p : FieldPermission) : View → Bool
  | .list => p.listVisible
  | .formCreate => p.formCreateVisible
  | .formEdit => p.formEditVisible
  | .formView => p.formViewVisible

/-- Whether the field is editable in a view. -/
def editableIn (p : FieldPermission) : View → Bool
  | .list => p.listEditable
  | .formCreate => p.formCreateEditable
  | .formEdit => p.formEditEditable
  | .formView => false

/-- Whether the row is about a field for a role. -/
def isFor (p : FieldPermission) (role entity field : Text) : Bool :=
  p.role = role && p.entity = entity && p.field = field

theorem visibleIn_withDefaults (role entity field : Text) (v : View) :
    (withDefaults role entity field).visibleIn v = v.defaults.visible := by
  cases v <;> rfl

theorem editableIn_withDefaults (role entity field : Text) (v : View) :
    (withDefaults role entity field).editableIn v = v.defaults.editable := by
  cases v <;> rfl

end FieldPermission

/-- Whether a role may take an action on an entity. The rule is kept as it was stored, so that one
that makes no sense denies the action and does not spoil the store. -/
structure ActionPermission where
  /-- The role. -/
  role : Text
  /-- The entity. -/
  entity : Text
  /-- The action. -/
  action : Text
  /-- Whether the action is allowed at all. -/
  isAllowed : Bool
  /-- The rule that a record must meet. -/
  rule : Option Json := none

namespace ActionPermission

/-- Whether a stored rule asks for anything: null, an object without members and a text of blanks
do not. -/
def ruleAsks : Option Json → Bool
  | none => false
  | some .null => false
  | some (.object members) => !members.isEmpty
  | some (.string s) => !Text.allBlank s
  | some _ => true

/-- Whether the permission depends on a record. -/
def hasCondition (p : ActionPermission) : Bool := ruleAsks p.rule

/-- Whether the row is about an action for a role. -/
def isFor (p : ActionPermission) (role entity action : Text) : Bool :=
  p.role = role && p.entity = entity && p.action = action

end ActionPermission

/-- A template of a view. -/
structure TemplateRow where
  /-- The entity. -/
  entity : Text
  /-- The view. -/
  view : View
  /-- The template. -/
  body : Text
  /-- Whether the template is in use. -/
  active : Bool := true
  deriving DecidableEq, Repr

end MaskedViews
