import MaskedViews.Text.Basic

/-!
# Views

An entity is shown in four views: a list of records, and forms to create, to edit and to look at
one record. Each has a default access to fields, which counts where nothing is stored for a role.
The form to look at a record is never editable, whatever is stored.
-/

namespace MaskedViews

/-- The screen that a template is rendered for. -/
inductive View where
  /-- A list of records. -/
  | list
  /-- The form for a new record. -/
  | formCreate
  /-- The form that changes a record. -/
  | formEdit
  /-- The form that shows a record. -/
  | formView
  deriving DecidableEq, Repr

/-- Access to a field. -/
structure Access where
  /-- Whether the field is shown. -/
  visible : Bool
  /-- Whether its value can be changed. -/
  editable : Bool
  deriving DecidableEq, Repr

namespace View

/-- Every view. -/
def all : List View := [.list, .formCreate, .formEdit, .formView]

theorem mem_all (v : View) : v ∈ all := by cases v <;> simp [all]

/-- The name of a view. -/
def name : View → Text
  | .list => "list".toList
  | .formCreate => "form_create".toList
  | .formEdit => "form_edit".toList
  | .formView => "form_view".toList

/-- The view of a name. -/
def ofName? (s : Text) : Option View := all.find? fun v => v.name = s

/-- The access to fields for which nothing is stored. -/
def defaults : View → Access
  | .list => ⟨true, false⟩
  | .formCreate => ⟨true, true⟩
  | .formEdit => ⟨true, true⟩
  | .formView => ⟨true, false⟩

/-- Whether nothing can be changed in a view. -/
def isReadOnly : View → Bool
  | .formView => true
  | _ => false

/-- Whether a view is a form. -/
def isForm : View → Bool
  | .list => false
  | _ => true

theorem ofName?_name (v : View) : ofName? v.name = some v := by cases v <;> decide

theorem ofName?_eq_some_iff {s : Text} {v : View} : ofName? s = some v ↔ s = v.name := by
  constructor
  · intro h
    have := List.find?_some h
    simp only [decide_eq_true_eq] at this
    exact this.symm
  · rintro rfl
    exact ofName?_name v

end View

end MaskedViews
