import MaskedViews.Store.Document

/-!
# Stores as JSON

In the JSON form of a document texts are strings, flags are truth values and the order of a field
is an integer of 32 bits. A row may also be given as the list of its values in the order of the
keys, those at the end left out; and a view as an object with its name for the only key, under
which there is null.

`toJson` writes a store with every key, except those whose value is none.
-/

namespace MaskedViews

namespace Json

/-- An integer of 32 bits. -/
def int32? : Json → Option Int32
  | .number (.integer n) => DocumentNode.int32OfInt? n
  | _ => none

/-- The string that a value is. -/
def text? : Json → Option Text
  | .string s => some s
  | _ => none

/-- The truth value that a value is. -/
def flag? : Json → Option Bool
  | .bool b => some b
  | _ => none

/-- The string that a value is, or none for null. -/
def nullableText? : Json → Option (Option Text)
  | .null => some none
  | .string s => some (some s)
  | _ => none

/-- The value itself, or none for null. -/
def nullableValue? : Json → Option (Option Json)
  | .null => some none
  | v => some (some v)

/-- The name that stands for a choice. -/
def choice? : Json → Option Text
  | .string s => some s
  | .object [(s, .null)] => some s
  | _ => none

/-- The items of an array. -/
def items? : Json → Option (List Json)
  | .array items => some items
  | _ => none

/-- The values under the keys of a row. -/
def entries? (keys : List Text) : Json → Option (List (Text × Json))
  | .object members => some members
  | .array items => if items.length ≤ keys.length then some (keys.zip items) else none
  | _ => none

instance : DocumentNode Json where
  text? := text?
  flag? := flag?
  int32? := int32?
  nullableText? := nullableText?
  nullableValue? := nullableValue?
  viewName? := choice?
  items? := items?
  entries? := entries?

/-- An object under keys that are written as strings. -/
def row (members : List (String × Json)) : Json :=
  ofMembers (members.map fun (key, v) => (key.toList, v))

/-- A member that is left out if there is no value. -/
def optionalMember (key : String) : Option Json → List (String × Json)
  | some v => [(key, v)]
  | none => []

end Json

open Json

/-- A user as JSON. -/
def User.toJson (u : User) : Json :=
  row [("id", .string u.id), ("role", .string u.role), ("active", .bool u.active)]

/-- A field as JSON. -/
def Field.toJson (f : Field) : Json :=
  row ([("entity", .string f.entity), ("name", .string f.name), ("label", .string f.label),
    ("data_type", .string f.dataType), ("order", .number (.integer f.order.toInt)),
    ("required", .bool f.required)] ++
    optionalMember "lookup_entity" (f.lookupEntity.map .string))

/-- What a role may do with a field, as JSON. -/
def FieldPermission.toJson (p : FieldPermission) : Json :=
  row [("role", .string p.role), ("entity", .string p.entity), ("field", .string p.field),
    ("list_visible", .bool p.listVisible), ("list_editable", .bool p.listEditable),
    ("form_create_visible", .bool p.formCreateVisible),
    ("form_create_editable", .bool p.formCreateEditable),
    ("form_edit_visible", .bool p.formEditVisible),
    ("form_edit_editable", .bool p.formEditEditable),
    ("form_view_visible", .bool p.formViewVisible)]

/-- Whether a role may take an action, as JSON. -/
def ActionPermission.toJson (p : ActionPermission) : Json :=
  row ([("role", .string p.role), ("entity", .string p.entity), ("action", .string p.action),
    ("is_allowed", .bool p.isAllowed)] ++ optionalMember "condition_rule" p.rule)

/-- A template as JSON. -/
def TemplateRow.toJson (t : TemplateRow) : Json :=
  row [("entity", .string t.entity), ("view", .string t.view.name), ("body", .string t.body),
    ("active", .bool t.active)]

/-- A store as JSON. -/
def Store.toJson (s : Store) : Json :=
  row [("users", .array (s.users.map User.toJson)), ("fields", .array (s.fields.map Field.toJson)),
    ("field_permissions", .array (s.fieldPermissions.map FieldPermission.toJson)),
    ("action_permissions", .array (s.actionPermissions.map ActionPermission.toJson)),
    ("templates", .array (s.templates.map TemplateRow.toJson))]

/-- Reads the JSON form of a store. -/
def Store.ofJson? (v : Json) : Option Store := Store.read? v

end MaskedViews
