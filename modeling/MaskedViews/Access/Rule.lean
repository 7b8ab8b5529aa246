import MaskedViews.Access.Rows
import MaskedViews.Json.Path
import MaskedViews.Json.Reader

/-!
# Rules

A rule compares the value at a path of a record with an expected value. The word `current_user`
stands for the user who acts. A rule is stored as an object, or as a text that holds one; null, an
empty object and a text of blanks are no rule.

Rules fail closed: without a record, or with an empty one, no rule holds, and neither does a
stored value that is not a rule.
-/

namespace MaskedViews

/-- The word that stands for the user who acts. -/
def currentUser : Text := "current_user".toList

/-- How a rule compares. -/
inductive Operator where
  /-- The texts are the same. -/
  | equals
  /-- The texts are not the same. -/
  | notEquals
  /-- The text is in the list. -/
  | isIn
  /-- The text is not in the list. -/
  | notIn
  /-- The number is greater. -/
  | greaterThan
  /-- The number is less. -/
  | lessThan
  /-- There is no value, or null. -/
  | isNull
  /-- There is a value other than null. -/
  | isNotNull
  deriving DecidableEq, Repr

namespace Operator

/-- Every operator. -/
def all : List Operator :=
  [.equals, .notEquals, .isIn, .notIn, .greaterThan, .lessThan, .isNull, .isNotNull]

/-- The name of an operator. -/
def name : Operator → Text
  | .equals => "equals".toList
  | .notEquals => "not_equals".toList
  | .isIn => "in".toList
  | .notIn => "not_in".toList
  | .greaterThan => "greater_than".toList
  | .lessThan => "less_than".toList
  | .isNull => "is_null".toList
  | .isNotNull => "is_not_null".toList

/-- The operator of a name. -/
def ofName? (s : Text) : Option Operator := all.find? fun op => op.name = s

theorem ofName?_name (op : Operator) : ofName? op.name = some op := by cases op <;> decide

end Operator

/-- A comparison of a field with a value. -/
structure Rule where
  /-- The path of the field. -/
  field : Text
  /-- How it is compared. -/
  operator : Operator
  /-- What it is compared with. -/
  value : Json

/-- What is wrong with a stored rule. -/
inductive RuleError where
  /-- The text is not a JSON value. -/
  | unreadable
  /-- The text holds another text. -/
  | textInText
  /-- The value is neither an object nor a text. -/
  | notAnObject (found : Json)
  /-- There is no field. -/
  | missingField
  /-- There is no operator. -/
  | missingOperator
  /-- There is no operator of this name. -/
  | unknownOperator (name : Text)

namespace Rule

/-! ### Reading -/

/-- Reads the members of a rule. -/
def ofMembers (members : List (Text × Json)) : Except RuleError Rule :=
  match Json.find? "field".toList members with
  | some (.string field) =>
    if field = [] then .error .missingField
    else
      match Json.find? "operator".toList members with
      | some (.string name) =>
        match Operator.ofName? name with
        | some op => .ok ⟨field, op, (Json.find? "value".toList members).getD .null⟩
        | none => .error (.unknownOperator name)
      | _ => .error .missingOperator
  | _ => .error .missingField

/-- Reads a value that is not a text. -/
def ofValue (v : Json) : Except RuleError (Option Rule) :=
  match v with
  | .null => .ok none
  | .object [] => .ok none
  | .object members => (ofMembers members).map some
  | v => .error (.notAnObject v)

/-- Reads a stored rule; there may be none. -/
def read (stored : Json) : Except RuleError (Option Rule) :=
  match stored with
  | .string s =>
    if Text.allBlank s then .ok none
    else
      match Json.read? s with
      | none => .error .unreadable
      | some (.string _) => .error .textInText
      | some v => ofValue v
  | v => ofValue v

/-! ### Deciding -/

/-- The value with the word `current_user` replaced by a user, in lists too. -/
def substituteUser (user : Text) : Json → Json
  | .string s => .string (if s = currentUser then user else s)
  | .array items => .array (substituteAll items)
  | v => v
where
  /-- The values of a list with the word replaced. -/
  substituteAll : List Json → List Json
    | [] => []
    | v :: vs => substituteUser user v :: substituteAll vs

/-- The members of a list written with commas. -/
def splitList (s : Text) : List Text := (s.splitOn ',').map Text.trim

/-- The members of an expected list: those of an array or of a text that is a JSON array, or of a
text with commas. Null is the empty list and any other value the list of itself. -/
def listed : Json → List Text
  | .null => []
  | .array items => items.map Json.toText
  | .string s =>
    if Text.startsWith ['['] (Text.trimStart s) then
      match Json.readArray? s with
      | some items => items.map Json.toText
      | none => splitList s
    else splitList s
  | v => [v.toText]

/-- The members of an expected list, a user in place of the word `current_user`. -/
def candidates (user : Text) (expected : Json) : List Text :=
  (listed expected).map fun s => if s = currentUser then user else s

/-- The number that a value is or writes. -/
def quantity? : Json → Option Quantity
  | .number n => some n.quantity
  | .string s => readQuantity? (Text.trim s)
  | _ => none

/-- Compares two values as numbers; false if one is none. -/
def compareNumbers (holds : Quantity → Quantity → Bool) (a b : Json) : Bool :=
  match quantity? a, quantity? b with
  | some x, some y => holds x y
  | _, _ => false

/-- Whether an operator holds of the value that is there, if any, and the one expected. -/
def compare (op : Operator) (actual : Option Json) (user : Text) (expected : Json) : Bool :=
  match op with
  | .equals => actual.any fun v => v.toText = expected.toText
  | .notEquals => actual.all fun v => v.toText ≠ expected.toText
  | .isIn => actual.any fun v => (candidates user expected).contains v.toText
  | .notIn => actual.all fun v => !(candidates user expected).contains v.toText
  | .greaterThan => actual.any fun v => compareNumbers (fun x y => y.blt x) v expected
  | .lessThan => actual.any fun v => compareNumbers (fun x y => x.blt y) v expected
  | .isNull => actual.isNone
  | .isNotNull => actual.isSome

/-- Whether there is nothing that a rule could be decided on: no record, null, or an object
without members. -/
def isMissing : Option Json → Bool
  | none => true
  | some .null => true
  | some (.object members) => members.isEmpty
  | some _ => false

/-- The value at a path of a record, null counting as none. -/
def actual? (record : Option Json) (path : Text) : Option Json :=
  (record.bind fun v => v.lookup path).filter fun v => !v.isNull

/-- Whether a rule holds of a record for a user. -/
def holds (rule : Rule) (record : Option Json) (user : Text) : Bool :=
  !isMissing record &&
    compare rule.operator (actual? record rule.field) user (substituteUser user rule.value)

/-- Whether a stored rule, if there is one, lets a user act on a record. -/
def allows (stored : Option Json) (record : Option Json) (user : Text) : Bool :=
  match stored with
  | none => true
  | some stored =>
    match read stored with
    | .ok none => true
    | .ok (some rule) => rule.holds record user
    | .error _ => false

end Rule

end MaskedViews
