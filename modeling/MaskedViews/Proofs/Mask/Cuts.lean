import MaskedViews.Proofs.Markup.References
import MaskedViews.Proofs.Markup.TreeEditing
import MaskedViews.Proofs.Mask.Placeholders

/-!
# Cuts in a forest

A mask takes elements out of a forest in three prunings: first cells, then containers, then form
controls (`cut_source`). A later one does not undo what an earlier one has done: an element that has
lost some of what was inside it carries no field that it did not carry before, so none is left that
had to go (`not_isCut_of_mem_visits`). If only one of the first two prunings has anything to do, the
three are one, which decides by the elements as they stand in the whole (`cutForest_eq_prune`).
-/

namespace MaskedViews.Mask

open Markup (Forest Visit)

/-! ### The three prunings -/

/-- Whether an element is a cell that carries one of some fields, where cells do. -/
def isCutCell (fields : Names) (strategy : Strategy) (v : Visit) : Bool :=
  strategy.hasCells && (Markup.cellNames.contains v.tag.name && carries fields v)

/-- Whether an element is a container that carries one of some fields, where containers do. -/
def isCutContainer (fields : Names) (strategy : Strategy) (v : Visit) : Bool :=
  strategy.hasContainers &&
    ([Markup.containerName].contains v.tag.name && isCarryingContainer fields v)

/-- What is left of a forest when the elements that carry some fields are taken out. -/
def cutForest (fields : Names) (strategy : Strategy) (f : Forest) : Forest :=
  ((f.prune (isCutCell fields strategy)).prune (isCutContainer fields strategy)).prune
    (isControlOf fields)

variable {fields : Names} {strategy : Strategy} {f : Forest}

theorem isNested_cutForest (h : f.IsNested) : (cutForest fields strategy f).IsNested :=
  Forest.isNested_prune (Forest.isNested_prune (Forest.isNested_prune h))

theorem pieces_cutForest_subset : (cutForest fields strategy f).pieces ⊆ f.pieces :=
  ((Forest.sublist_prune _).trans ((Forest.sublist_prune _).trans (Forest.sublist_prune _))).subset

theorem isCut_of_isEmpty (strategy : Strategy) (h : fields.isEmpty = true) (v : Visit) :
    isCutCell fields strategy v = false ∧ isCutContainer fields strategy v = false ∧
      isControlOf fields v = false := by
  have hnone : fields.contains = fun _ => false := by
    funext field
    rw [← Bool.not_eq_true, Names.contains_eq_true_iff]
    exact Names.isEmpty_iff.1 h field
  have hcarries : carries fields v = false := by simp [carries, hnone]
  simp [isCutCell, isCutContainer, isCarryingContainer, isControlOf, hcarries, hnone]

/-- Only a form control has the name of one. -/
theorem contains_and_isControlOf (fields : Names) (v : Visit) :
    (Markup.controlNames.contains v.tag.name && isControlOf fields v) = isControlOf fields v := by
  rw [isControlOf, StartTag.controlName?]
  cases Markup.controlNames.contains v.tag.name with
  | false => rfl
  | true => rfl

/-- Elements that are taken out of a forest, if any are, are pruned. -/
theorem removeElements_source (names : List Text) (condition : Visit → Bool) (hnested : f.IsNested)
    (hfits : ∀ p ∈ f.pieces, p.Fits) (enabled : Bool) :
    (if enabled then removeElements names condition f.source else f.source) =
      (f.prune fun v => enabled && (names.contains v.tag.name && condition v)).source := by
  cases enabled with
  | false => rw [if_neg Bool.false_ne_true, Forest.prune_of_forall fun v _ => Bool.false_and _]
  | true =>
    rw [if_pos rfl]
    simp only [Bool.true_and]
    exact Forest.editElements_remove_source names condition hnested hfits

/-- **The cuts prune a forest.** -/
theorem cut_source (fields : Names) (strategy : Strategy) (hnested : f.IsNested)
    (hfits : ∀ p ∈ f.pieces, p.Fits) :
    cut fields strategy f.source = (cutForest fields strategy f).source := by
  rw [cut, cutForest]
  split
  · next hempty =>
    have hcut := isCut_of_isEmpty strategy hempty
    rw [Forest.prune_of_forall fun v _ => (hcut v).1, Forest.prune_of_forall fun v _ => (hcut v).2.1,
      Forest.prune_of_forall fun v _ => (hcut v).2.2]
  have hcells : (if strategy.hasCells then removeCells fields f.source else f.source) =
      (f.prune (isCutCell fields strategy)).source :=
    removeElements_source Markup.cellNames (carries fields) hnested hfits strategy.hasCells
  dsimp only
  rw [hcells]
  have hnested : (f.prune (isCutCell fields strategy)).IsNested := Forest.isNested_prune hnested
  have hfits := Forest.forall_mem_prune (isCutCell fields strategy) hfits
  generalize f.prune (isCutCell fields strategy) = g at *
  have hcontainers : (if strategy.hasContainers then removeContainers fields g.source else g.source) =
      (g.prune (isCutContainer fields strategy)).source :=
    removeElements_source [Markup.containerName] (isCarryingContainer fields) hnested hfits
      strategy.hasContainers
  rw [hcontainers]
  have hcontrols := Forest.editElements_remove_source Markup.controlNames (isControlOf fields)
    (Forest.isNested_prune hnested) (Forest.forall_mem_prune (isCutContainer fields strategy) hfits)
  simp only [contains_and_isControlOf] at hcontrols
  exact hcontrols

/-! ### What is left -/

/-- A condition that an element meets with more inside it, if it meets it. -/
def IsMonotone (condition : Visit → Bool) : Prop :=
  ∀ v w : Visit, v.tag = w.tag → (∀ fields, carries fields v = true → carries fields w = true) →
    condition v = true → condition w = true

theorem isMonotone_isCutCell : IsMonotone (isCutCell fields strategy) := by
  intro v w htag hcarries hv
  simp only [isCutCell, Bool.and_eq_true, htag] at hv ⊢
  exact ⟨hv.1, hv.2.1, hcarries fields hv.2.2⟩

theorem isMonotone_isCutContainer : IsMonotone (isCutContainer fields strategy) := by
  intro v w htag hcarries hv
  simp only [isCutContainer, isCarryingContainer, Bool.and_eq_true, htag] at hv ⊢
  exact ⟨hv.1, hv.2.1, hv.2.2.1, hcarries fields hv.2.2.2⟩

theorem isMonotone_isControlOf : IsMonotone (isControlOf fields) := by
  intro v w htag _ hv
  rwa [isControlOf, ← htag]

theorem carries_iff {v : Visit} :
    carries fields v = true ↔ (∃ field ∈ v.tag.markedField?, field ∈ fields) ∨
      ∃ field ∈ Markup.referencedFields v.inner, field ∈ fields := by
  simp [carries, Option.any_eq_true, Names.contains]

/-- An element that is left of regular pieces carried before what it carries now. -/
theorem exists_of_mem_visits_prune {gone : Visit → Bool} (h : ∀ p ∈ f.pieces, p.IsRegular) {v : Visit}
    (hv : v ∈ (f.prune gone).visits) :
    ∃ w ∈ f.visits, gone w = false ∧ v.tag = w.tag ∧
      ∀ fields, carries fields v = true → carries fields w = true := by
  obtain ⟨ps, qs, hmem, hgone, hinner, hqs, hps⟩ := Forest.isLeftOf_of_mem_visits_prune hv
  refine ⟨_, hmem, hgone, rfl, fun fields hcarries => ?_⟩
  have hsubset := Markup.referencedFields_subset (fun p hp => h p (hps.subset hp)) hqs.subset
  rw [carries_iff, hinner] at hcarries
  exact carries_iff.2 (hcarries.imp_right fun ⟨field, hfield, hmem⟩ => ⟨field, hsubset hfield, hmem⟩)

namespace IsMonotone

variable {condition gone : Visit → Bool} (hcondition : IsMonotone condition)
include hcondition

/-- A pruning leaves no element that had to go, -/
theorem not_of_prune (h : ∀ p ∈ f.pieces, p.IsRegular) :
    ∀ v ∈ (f.prune condition).visits, condition v = false := by
  intro v hv
  obtain ⟨w, -, hgone, htag, hcarries⟩ := exists_of_mem_visits_prune h hv
  rw [← Bool.not_eq_true] at hgone ⊢
  exact fun hc => hgone (hcondition v w htag hcarries hc)

/-- and brings none about. -/
theorem not_prune (h : ∀ p ∈ f.pieces, p.IsRegular) (hf : ∀ v ∈ f.visits, condition v = false) :
    ∀ v ∈ (f.prune gone).visits, condition v = false := by
  intro v hv
  obtain ⟨w, hw, -, htag, hcarries⟩ := exists_of_mem_visits_prune h hv
  have := hf w hw
  rw [← Bool.not_eq_true] at this ⊢
  exact fun hc => this (hcondition v w htag hcarries hc)

end IsMonotone

/-- **The cuts leave no element that has to go.** -/
theorem not_isCut_of_mem_visits (h : ∀ p ∈ f.pieces, p.IsRegular) {v : Visit}
    (hv : v ∈ (cutForest fields strategy f).visits) :
    isCutCell fields strategy v = false ∧ isCutContainer fields strategy v = false ∧
      isControlOf fields v = false := by
  have hcells := Forest.forall_mem_prune (isCutCell fields strategy) h
  have hcontainers := Forest.forall_mem_prune (isCutContainer fields strategy) hcells
  exact ⟨isMonotone_isCutCell.not_prune hcontainers
      (isMonotone_isCutCell.not_prune hcells (isMonotone_isCutCell.not_of_prune h)) v hv,
    isMonotone_isCutContainer.not_prune hcontainers
      (isMonotone_isCutContainer.not_of_prune hcells) v hv,
    isMonotone_isControlOf.not_of_prune hcontainers v hv⟩

/-! ### One pruning -/

/-- Whether a mask takes an element out, by the element as it stands in the whole. -/
def removes (fields : Names) (strategy : Strategy) (v : Visit) : Bool :=
  isCutCell fields strategy v || isCutContainer fields strategy v || isControlOf fields v

/-- **Where not both cells and containers carry fields, the cuts are one.** -/
theorem cutForest_eq_prune (h : strategy ≠ .all) (f : Forest) :
    cutForest fields strategy f = f.prune (removes fields strategy) := by
  have hcontrol (v w : Visit) (htag : v.tag = w.tag) :
      isControlOf fields v = isControlOf fields w := by
    rw [isControlOf, isControlOf, htag]
  have hone : (f.prune (isCutCell fields strategy)).prune (isCutContainer fields strategy) =
      f.prune fun v => isCutCell fields strategy v || isCutContainer fields strategy v := by
    cases strategy with
    | table =>
      have hnone : isCutContainer fields .table = fun _ => false := rfl
      simp only [hnone, Bool.or_false]
      exact Forest.prune_of_forall fun _ _ => rfl
    | form =>
      have hnone : isCutCell fields .form = fun _ => false := rfl
      simp only [hnone, Bool.false_or]
      rw [Forest.prune_of_forall (f := f) fun _ _ => rfl]
    | all => exact absurd rfl h
  rw [cutForest, hone, Forest.prune_prune hcontrol]
  rfl

/-! ### Hiding fewer fields -/

section Hiding

variable {fields fields' : Names} {strategy : Strategy} (hsub : ∀ field ∈ fields', field ∈ fields)
include hsub

theorem carries_mono {v : Visit} (h : carries fields' v = true) : carries fields v = true := by
  rw [carries_iff] at h ⊢
  exact h.imp (fun ⟨field, hfield, hmem⟩ => ⟨field, hfield, hsub field hmem⟩)
    fun ⟨field, hfield, hmem⟩ => ⟨field, hfield, hsub field hmem⟩

theorem isControlOf_mono {v : Visit} (h : isControlOf fields' v = true) :
    isControlOf fields v = true := by
  simp only [isControlOf, Option.any_eq_true, Names.contains_eq_true_iff] at h ⊢
  exact h.imp fun name hname => hname.imp_right (hsub name)

theorem isCarryingContainer_mono {v : Visit} (h : isCarryingContainer fields' v = true) :
    isCarryingContainer fields v = true := by
  rw [isCarryingContainer, Bool.and_eq_true] at h ⊢
  exact h.imp_right (carries_mono hsub)

/-- An element that goes for fewer fields goes for more. -/
theorem removes_mono {v : Visit} (h : removes fields' strategy v = true) :
    removes fields strategy v = true := by
  have hcell (h : isCutCell fields' strategy v = true) : isCutCell fields strategy v = true := by
    simp only [isCutCell, Bool.and_eq_true] at h ⊢
    exact ⟨h.1, h.2.1, carries_mono hsub h.2.2⟩
  have hcontainer (h : isCutContainer fields' strategy v = true) :
      isCutContainer fields strategy v = true := by
    simp only [isCutContainer, Bool.and_eq_true] at h ⊢
    exact ⟨h.1, h.2.1, isCarryingContainer_mono hsub h.2.2⟩
  simp only [removes, Bool.or_eq_true] at h ⊢
  exact h.imp (Or.imp hcell hcontainer) (isControlOf_mono hsub)

/-- More is left if fewer fields are hidden. -/
theorem sublist_cutForest (hstrategy : strategy ≠ .all) (f : Forest) :
    (cutForest fields strategy f).pieces.Sublist (cutForest fields' strategy f).pieces := by
  rw [cutForest_eq_prune hstrategy, cutForest_eq_prune hstrategy]
  exact Forest.sublist_prune_of_imp fun v _ => removes_mono hsub

end Hiding

end MaskedViews.Mask
