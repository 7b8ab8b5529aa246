import MaskedViews.Access.View
import MaskedViews.Json.Path
import MaskedViews.Text.Names

/-!
# Snapshots

A snapshot says which fields a user may see and edit in one view of an entity. The two sets are
independent: a field may be editable without being visible, and then it is hidden all the same.

A snapshot may also know every field of the entity. Then it decides about these alone, and names
that belong to something else are left as they are; otherwise it decides about every name. A path
is covered by its own name or by its first key.
-/

namespace MaskedViews

/-- The access that was worked out for one field. -/
structure FieldAccess where
  /-- The name of the field. -/
  field : Text
  /-- Whether it is shown. -/
  visible : Bool
  /-- Whether it can be changed. -/
  editable : Bool
  deriving DecidableEq, Repr

/-- The fields that can be seen and edited. -/
structure Snapshot where
  /-- The visible fields. -/
  visible : Names
  /-- The editable fields. -/
  editable : Names
  /-- Every field that the snapshot decides about, if it is not to decide about all. -/
  defined : Option Names
  deriving DecidableEq

/-- Whether a set of fields has a path or its first key. -/
def Names.covers (names : Names) (path : Text) : Bool :=
  names.contains path || names.contains (fieldRoot path)

theorem Names.covers_iff {names : Names} {path : Text} :
    names.covers path = true ↔ path ∈ names ∨ fieldRoot path ∈ names := by
  simp [covers]

namespace Snapshot

/-- The snapshot that decides about every name. -/
def ofSets (visible editable : List Text) : Snapshot :=
  ⟨Names.ofList visible, Names.ofList editable, none⟩

/-- The snapshot of the fields of an entity. -/
def ofAccess (access : List FieldAccess) : Snapshot where
  visible := Names.ofList ((access.filter FieldAccess.visible).map FieldAccess.field)
  editable := Names.ofList ((access.filter FieldAccess.editable).map FieldAccess.field)
  defined := some (Names.ofList (access.map FieldAccess.field))

/-- Whether a path is visible. -/
def isVisible (s : Snapshot) (path : Text) : Bool := s.visible.covers path

/-- Whether a path is editable. -/
def isEditable (s : Snapshot) (path : Text) : Bool := s.editable.covers path

/-- Whether the snapshot decides about a path. -/
def governs (s : Snapshot) (path : Text) : Bool :=
  match s.defined with
  | none => true
  | some defined => defined.covers path

end Snapshot

end MaskedViews
