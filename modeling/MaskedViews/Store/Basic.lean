import MaskedViews.Access.Rows

/-!
# Stores

A store holds rows of five kinds in the order in which they were declared. Of several rows that
answer the same question the first one counts, except for templates, where it is the last one in
use. The `with…` functions declare one row more.
-/

namespace MaskedViews

/-- Everything that is configured. -/
structure Store where
  /-- The users. -/
  users : List User := []
  /-- The fields of all entities. -/
  fields : List Field := []
  /-- What roles may do with fields. -/
  fieldPermissions : List FieldPermission := []
  /-- Which actions roles may take. -/
  actionPermissions : List ActionPermission := []
  /-- The templates of the views. -/
  templates : List TemplateRow := []

namespace Store

/-! ### Questions -/

/-- The user of an id. -/
def user? (s : Store) (id : Text) : Option User := s.users.find? fun u => u.id = id

/-- The fields of an entity by their order; those of the same order as they were declared. -/
def fieldsOf (s : Store) (entity : Text) : List Field :=
  (s.fields.filter fun f => f.entity = entity).mergeSort fun f g => f.order ≤ g.order

/-- What a role may do with a field. -/
def fieldPermission? (s : Store) (role entity field : Text) : Option FieldPermission :=
  s.fieldPermissions.find? fun p => p.isFor role entity field

/-- Whether a role may take an action. -/
def actionPermission? (s : Store) (role entity action : Text) : Option ActionPermission :=
  s.actionPermissions.find? fun p => p.isFor role entity action

/-- Every row about the actions of a role on an entity. -/
def actionPermissionsOf (s : Store) (role entity : Text) : List ActionPermission :=
  s.actionPermissions.filter fun p => p.role = role && p.entity = entity

/-- The actions of an entity that any role has a row for, each once. -/
def actionsOf (s : Store) (entity : Text) : List Text :=
  ((s.actionPermissions.filter fun p => p.entity = entity).map ActionPermission.action).eraseDups

/-- The template of a view: the last one in use. -/
def template? (s : Store) (entity : Text) (view : View) : Option Text :=
  (s.templates.findRev? fun t => t.active && t.entity = entity && t.view = view).map
    TemplateRow.body

/-! ### Declarations -/

/-- Declares a user. -/
def withUser (s : Store) (u : User) : Store := { s with users := s.users ++ [u] }

/-- Declares a field, labelled with its name; its order is the number of fields of its entity. -/
def withField (s : Store) (entity name : Text) : Store :=
  let count := (s.fields.filter fun f => f.entity = entity).length
  let field : Field :=
    { entity := entity, name := name, label := name, order := Int32.ofNat count }
  { s with fields := s.fields ++ [field] }

/-- Declares what a role may do with a field. -/
def withFieldPermission (s : Store) (p : FieldPermission) : Store :=
  { s with fieldPermissions := s.fieldPermissions ++ [p] }

/-- Declares whether a role may take an action. -/
def withActionPermission (s : Store) (p : ActionPermission) : Store :=
  { s with actionPermissions := s.actionPermissions ++ [p] }

/-- Declares a template in use. -/
def withTemplate (s : Store) (entity : Text) (view : View) (body : Text) : Store :=
  { s with templates := s.templates ++ [{ entity := entity, view := view, body := body }] }

/-! ### What a declaration changes -/

/-- A user who is known stays who they are. -/
theorem user?_withUser {s : Store} {u v : User} {id : Text} (h : s.user? id = some v) :
    (s.withUser u).user? id = some v := by
  simp only [user?, withUser, List.find?_append] at h ⊢
  simp [h]

/-- A permission that is there stays what it is. -/
theorem fieldPermission?_withFieldPermission {s : Store} {p q : FieldPermission}
    {role entity field : Text} (h : s.fieldPermission? role entity field = some q) :
    (s.withFieldPermission p).fieldPermission? role entity field = some q := by
  simp only [fieldPermission?, withFieldPermission, List.find?_append] at h ⊢
  simp [h]

/-- A permission that is there stays what it is. -/
theorem actionPermission?_withActionPermission {s : Store} {p q : ActionPermission}
    {role entity action : Text} (h : s.actionPermission? role entity action = some q) :
    (s.withActionPermission p).actionPermission? role entity action = some q := by
  simp only [actionPermission?, withActionPermission, List.find?_append] at h ⊢
  simp [h]

/-- A template takes the place of the one before. -/
theorem template?_withTemplate (s : Store) (entity : Text) (view : View) (body : Text) :
    (s.withTemplate entity view body).template? entity view = some body := by
  simp [template?, withTemplate]

end Store

end MaskedViews
