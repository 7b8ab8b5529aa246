import MaskedViews.Access.Snapshot
import MaskedViews.Markup.Edit
import MaskedViews.Markup.Retag
import MaskedViews.Markup.Whitespace
import MaskedViews.Mask.References

/-!
# Masks

A mask names the fields that must not appear in markup and those that may appear but not be
changed. Applying it is a sequence of edits, each of which has a name here:

* every element that carries a hidden field goes, cells of tables and containers of forms with all
  that is inside them, and form controls by their name; then the placeholders that are left;
* every form control of a read-only field is disabled, and its container is marked;
* the whitespace that is left is normalized.

Which elements can carry a field depends on the strategy: a list has cells, a form has containers.
-/

namespace MaskedViews

/-- Which elements carry the fields of a markup. -/
inductive Strategy where
  /-- The cells of tables. -/
  | table
  /-- The containers of forms. -/
  | form
  /-- Both. -/
  | all
  deriving DecidableEq, Repr

namespace Strategy

/-- The strategy of a view. -/
def ofView (v : View) : Strategy := if v.isForm then .form else .table

/-- Whether cells of tables carry fields. -/
def hasCells : Strategy → Bool
  | .form => false
  | _ => true

/-- Whether containers of forms carry fields. -/
def hasContainers : Strategy → Bool
  | .table => false
  | _ => true

end Strategy

/-- The fields that a markup must not show and those that it must not let change. -/
structure Mask where
  /-- The fields that are hidden. -/
  hidden : Names
  /-- The fields that are shown but not to be changed. -/
  readonly : Names
  deriving DecidableEq

namespace Mask

/-- The mask of no fields. -/
def empty : Mask := ⟨Names.empty, Names.empty⟩

/-- Whether a mask names no field. -/
def isEmpty (m : Mask) : Bool := m.hidden.isEmpty && m.readonly.isEmpty

/-! ### Planning -/

/-- The mask that a snapshot asks for: of the fields that the markup refers to and the snapshot
decides about, those not visible are hidden and the others not editable are read-only. -/
def plan (markup : Text) (s : Snapshot) : Mask :=
  let governed := (Markup.referencedFields markup).filter s.governs
  ⟨Names.ofList (governed.filter fun f => !s.isVisible f),
    Names.ofList (governed.filter fun f => s.isVisible f && !s.isEditable f)⟩

theorem mem_hidden_plan {markup field : Text} {s : Snapshot} :
    field ∈ (plan markup s).hidden ↔
      field ∈ Markup.referencedFields markup ∧ s.governs field = true ∧
        s.isVisible field = false := by
  simp only [plan, Names.mem_ofList, List.mem_filter, Bool.not_eq_true']
  grind

theorem mem_readonly_plan {markup field : Text} {s : Snapshot} :
    field ∈ (plan markup s).readonly ↔
      field ∈ Markup.referencedFields markup ∧ s.governs field = true ∧
        s.isVisible field = true ∧ s.isEditable field = false := by
  simp only [plan, Names.mem_ofList, List.mem_filter, Bool.and_eq_true, Bool.not_eq_true']
  grind

/-! ### What carries a field -/

/-- Whether an element is marked with one of some fields or has a reference to one inside it. -/
def carries (fields : Names) (v : Markup.Visit) : Bool :=
  v.tag.markedField?.any fields.contains || (Markup.referencedFields v.inner).any fields.contains

/-- Whether an element is a container that carries one of some fields. -/
def isCarryingContainer (fields : Names) (v : Markup.Visit) : Bool :=
  v.tag.hasClass Markup.containerClass && carries fields v

/-- Whether an element is a form control with the name of one of some fields. -/
def isControlOf (fields : Names) (v : Markup.Visit) : Bool :=
  v.tag.controlName?.any fields.contains

/-! ### The edits -/

/-- Removes the elements of given names that meet a condition. -/
def removeElements (names : List Text) (condition : Markup.Visit → Bool) (html : Text) : Text :=
  Markup.editElements names (fun v => if condition v then .remove else .keep) html

/-- Changes the start tags of the elements of given names that meet a condition. -/
def changeTags (names : List Text) (condition : Markup.Visit → Bool)
    (change : StartTag → Text) (html : Text) : Text :=
  Markup.editElements names
    (fun v => if condition v then .replaceTag (change v.tag) else .keep) html

/-- Removes the cells that carry one of some fields. -/
def removeCells (fields : Names) (html : Text) : Text :=
  removeElements Markup.cellNames (carries fields) html

/-- Removes the containers that carry one of some fields. -/
def removeContainers (fields : Names) (html : Text) : Text :=
  removeElements [Markup.containerName] (isCarryingContainer fields) html

/-- Removes the form controls of some fields. -/
def removeControls (fields : Names) (html : Text) : Text :=
  removeElements Markup.controlNames (isControlOf fields) html

/-- Removes the placeholders of some fields. -/
def removePlaceholders (fields : Names) (html : Text) : Text :=
  Token.strip fields.contains html

/-- The flags of a form control that cannot be changed. Only an input has the second one. -/
def disablingFlags (t : StartTag) : List Text :=
  if t.name = "input".toList then ["disabled".toList, "readonly".toList] else ["disabled".toList]

theorem disablingFlags_eq {t u : StartTag} (h : u.name = t.name) :
    disablingFlags u = disablingFlags t := by
  rw [disablingFlags, disablingFlags, h]

theorem forall_mem_disablingFlags {P : Text → Prop} (hdisabled : P "disabled".toList)
    (hreadonly : P "readonly".toList) (t : StartTag) : ∀ flag ∈ disablingFlags t, P flag := by
  unfold disablingFlags
  split
  · exact List.forall_mem_cons.2 ⟨hdisabled, List.forall_mem_singleton.2 hreadonly⟩
  · exact List.forall_mem_singleton.2 hdisabled

/-- Disables the form controls of some fields. -/
def disableControls (fields : Names) (html : Text) : Text :=
  changeTags Markup.controlNames (isControlOf fields)
    (fun t => t.withFlags (disablingFlags t)) html

/-- Marks the containers that carry one of some fields. -/
def markContainers (fields : Names) (html : Text) : Text :=
  changeTags [Markup.containerName] (isCarryingContainer fields)
    (fun t => t.withClass Markup.readonlyClass) html

/-- Takes some fields out of markup. -/
def hide (fields : Names) (strategy : Strategy) (html : Text) : Text :=
  if fields.isEmpty then html
  else
    let html := if strategy.hasCells then removeCells fields html else html
    let html := if strategy.hasContainers then removeContainers fields html else html
    removePlaceholders fields (removeControls fields html)

/-- Keeps some fields of markup from being changed. -/
def protect (fields : Names) (strategy : Strategy) (html : Text) : Text :=
  if fields.isEmpty then html
  else
    let html := disableControls fields html
    if strategy.hasContainers then markContainers fields html else html

/-- Applies a mask to markup. -/
def apply (m : Mask) (strategy : Strategy) (markup : Text) : Text :=
  Markup.normalizeWhitespace (protect m.readonly strategy (hide m.hidden strategy markup))

/-- The mask of no fields only normalizes the whitespace. -/
theorem apply_of_isEmpty {m : Mask} (h : m.isEmpty = true) (strategy : Strategy)
    (markup : Text) : m.apply strategy markup = Markup.normalizeWhitespace markup := by
  rw [isEmpty, Bool.and_eq_true] at h
  simp [apply, hide, protect, h.1, h.2]

end Mask

/-- Applies a snapshot to the markup of a view. -/
def applySnapshot (markup : Text) (s : Snapshot) (view : View) : Text :=
  (Mask.plan markup s).apply (Strategy.ofView view) markup

/-- Applies sets of visible and editable fields to markup, whatever kind of elements carry them. -/
def applyFields (markup : Text) (visible editable : List Text) : Text :=
  (Mask.plan markup (Snapshot.ofSets visible editable)).apply .all markup

end MaskedViews
