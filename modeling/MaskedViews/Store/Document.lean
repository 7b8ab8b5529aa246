import MaskedViews.Store.Basic

/-!
# Store documents

A store is written as a document: five lists of rows, each row a mapping. A document can have
several forms. `DocumentNode` says what every form has to offer, and the rows are read once for all
of them. Keys with a default may be left out, keys that mean nothing are passed over, and a value
of another kind than its key asks for makes the whole document unreadable.
-/

namespace MaskedViews

/-- What a node of a document can be read as. -/
class DocumentNode (α : Type) where
  /-- A text. -/
  text? : α → Option Text
  /-- A truth value. -/
  flag? : α → Option Bool
  /-- A whole number of 32 bits. -/
  int32? : α → Option Int32
  /-- A text that may be null. -/
  nullableText? : α → Option (Option Text)
  /-- Any value, null counting as none. -/
  nullableValue? : α → Option (Option Json)
  /-- The name of a view. -/
  viewName? : α → Option Text
  /-- A list. -/
  items? : α → Option (List α)
  /-- The nodes under given keys, each of which may be there once. -/
  entries? : (keys : List Text) → α → Option (List (Text × α))

namespace DocumentNode

/-- A whole number as one of 32 bits, if it is one. -/
def int32OfInt? (n : Int) : Option Int32 :=
  if -(twoTo 31 : Int) ≤ n ∧ n < (twoTo 31 : Int) then some (Int32.ofInt n) else none

variable {α β : Type}

/-- The node under a key, which must be there, read in some way. -/
def entry (entries : List (Text × α)) (key : String) (read : α → Option β) : Option β :=
  (entries.lookup key.toList).bind read

/-- The node under a key read in some way, a default if it is not there. -/
def entryOr (entries : List (Text × α)) (key : String) (read : α → Option β) (default : β) :
    Option β :=
  match entries.lookup key.toList with
  | some node => read node
  | none => some default

/-- A list of nodes read in some way. -/
def listOf [DocumentNode α] (read : α → Option β) (node : α) : Option (List β) :=
  (items? node).bind fun items => items.mapM read

end DocumentNode

open DocumentNode

variable {α : Type} [DocumentNode α]

/-- The keys of a user. -/
def User.keys : List Text := ["id", "role", "active"].map String.toList

/-- Reads a user. -/
def User.read? (node : α) : Option User := do
  let e ← entries? User.keys node
  let id ← entry e "id" text?
  let role ← entry e "role" text?
  let active ← entryOr e "active" flag? true
  return ⟨id, role, active⟩

/-- The keys of a field. -/
def Field.keys : List Text :=
  ["entity", "name", "label", "data_type", "order", "required", "lookup_entity"].map String.toList

/-- Reads a field. -/
def Field.read? (node : α) : Option Field := do
  let e ← entries? Field.keys node
  let entity ← entry e "entity" text?
  let name ← entry e "name" text?
  let label ← entryOr e "label" text? []
  let dataType ← entryOr e "data_type" text? "text".toList
  let order ← entryOr e "order" int32? 0
  let isRequired ← entryOr e "required" flag? false
  let lookupEntity ← entryOr e "lookup_entity" nullableText? none
  return ⟨entity, name, label, dataType, order, isRequired, lookupEntity⟩

/-- The keys of what a role may do with a field. -/
def FieldPermission.keys : List Text :=
  ["role", "entity", "field", "list_visible", "list_editable", "form_create_visible",
    "form_create_editable", "form_edit_visible", "form_edit_editable",
    "form_view_visible"].map String.toList

/-- Reads what a role may do with a field; each flag left out is that of the view's defaults. -/
def FieldPermission.read? (node : α) : Option FieldPermission := do
  let e ← entries? FieldPermission.keys node
  let role ← entry e "role" text?
  let entity ← entry e "entity" text?
  let field ← entry e "field" text?
  let listVisible ← entryOr e "list_visible" flag? View.list.defaults.visible
  let listEditable ← entryOr e "list_editable" flag? View.list.defaults.editable
  let createVisible ← entryOr e "form_create_visible" flag? View.formCreate.defaults.visible
  let createEditable ←
    entryOr e "form_create_editable" flag? View.formCreate.defaults.editable
  let editVisible ← entryOr e "form_edit_visible" flag? View.formEdit.defaults.visible
  let editEditable ← entryOr e "form_edit_editable" flag? View.formEdit.defaults.editable
  let viewVisible ← entryOr e "form_view_visible" flag? View.formView.defaults.visible
  return ⟨role, entity, field, listVisible, listEditable, createVisible, createEditable,
    editVisible, editEditable, viewVisible⟩

/-- The keys of whether a role may take an action. -/
def ActionPermission.keys : List Text :=
  ["role", "entity", "action", "is_allowed", "condition_rule"].map String.toList

/-- Reads whether a role may take an action. -/
def ActionPermission.read? (node : α) : Option ActionPermission := do
  let e ← entries? ActionPermission.keys node
  let role ← entry e "role" text?
  let entity ← entry e "entity" text?
  let action ← entry e "action" text?
  let isAllowed ← entry e "is_allowed" flag?
  let rule ← entryOr e "condition_rule" nullableValue? none
  return ⟨role, entity, action, isAllowed, rule⟩

/-- The keys of a template. -/
def TemplateRow.keys : List Text := ["entity", "view", "body", "active"].map String.toList

/-- Reads a template. -/
def TemplateRow.read? (node : α) : Option TemplateRow := do
  let e ← entries? TemplateRow.keys node
  let entity ← entry e "entity" text?
  let view ← entry e "view" fun v => (viewName? v).bind View.ofName?
  let body ← entry e "body" text?
  let active ← entryOr e "active" flag? true
  return ⟨entity, view, body, active⟩

/-- The keys of a store. -/
def Store.keys : List Text :=
  ["users", "fields", "field_permissions", "action_permissions", "templates"].map String.toList

/-- Reads a store; a list left out is empty. -/
def Store.read? (node : α) : Option Store := do
  let e ← entries? Store.keys node
  let users ← entryOr e "users" (listOf User.read?) []
  let fields ← entryOr e "fields" (listOf Field.read?) []
  let fieldPermissions ← entryOr e "field_permissions" (listOf FieldPermission.read?) []
  let actionPermissions ← entryOr e "action_permissions" (listOf ActionPermission.read?) []
  let templates ← entryOr e "templates" (listOf TemplateRow.read?) []
  return ⟨users, fields, fieldPermissions, actionPermissions, templates⟩

end MaskedViews
