import MaskedViews.Access.Rule

/-!
# Errors

Why a request cannot be answered, and the message that says so. What is wrong inside a file or a
document is not told further than its kind.
-/

namespace MaskedViews

/-- Why something failed. -/
inductive Error where
  /-- A file cannot be read. -/
  | file (name : Text)
  /-- A store document cannot be loaded. -/
  | store
  /-- A text is not a JSON value. -/
  | data
  /-- There is no view of this name. -/
  | unknownView (name : Text)
  /-- A stored rule is not one. -/
  | rule (cause : RuleError)
  /-- A view of an entity has no template in use. -/
  | noTemplate (entity : Text) (view : View)

/-- A text between single quotes. -/
def inQuotes (s : Text) : Text := '\'' :: (s ++ ['\''])

/-- What is wrong with a stored rule, in words; nothing for causes with a message of their own. -/
def RuleError.reason : RuleError → Text
  | .unreadable => []
  | .textInText => "rule string does not contain an object".toList
  | .notAnObject found => "expected an object, found ".toList ++ found.compact
  | .missingField => "missing 'field'".toList
  | .missingOperator => "missing 'operator'".toList
  | .unknownOperator _ => []

namespace Error

/-- The message of an error. -/
def message : Error → Text
  | .file name => "I/O error: cannot read ".toList ++ inQuotes name
  | .store => "Configuration error: not a store".toList
  | .data => "JSON error: not a value".toList
  | .unknownView name =>
    "Unknown view type ".toList ++ inQuotes name ++
      ". Expected one of: list, form_create, form_edit, form_view".toList
  | .rule .unreadable => "JSON error: not a value".toList
  | .rule (.unknownOperator name) => "Unknown condition operator ".toList ++ inQuotes name
  | .rule cause => "Malformed condition rule: ".toList ++ cause.reason
  | .noTemplate entity view =>
    "No active template for entity ".toList ++ inQuotes entity ++ " in view ".toList ++
      inQuotes view.name

end Error

end MaskedViews
