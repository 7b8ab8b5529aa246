import MaskedViews.Proofs.Markup.Elements
import Mathlib.Data.List.Forall2

/-!
# Where elements are among pieces

An element is found at a start tag, by the end tag that the search behind it comes to
(`exists_of_mem_visitsOf`, `mem_visitsOf_append`). That search only counts tags, so it ends at the
same place among pieces that are counted alike (`exists_of_extentPieces`).
-/

namespace MaskedViews.Markup

variable {ps qs : List Piece}

/-- An element is found at its start tag, -/
theorem exists_of_mem_visitsOf {names : List Text} {v : Visit} (h : v ∈ visitsOf names ps) :
    ∃ before rest inner after, ps = before ++ .startTag v.tag :: rest ∧
      extentPieces v.tag rest = some (inner, after) ∧ v.inner = printed inner := by
  induction ps with
  | nil => cases h
  | cons p ps ih =>
    have htail (h : v ∈ visitsOf names ps) : ∃ before rest inner after,
        p :: ps = before ++ .startTag v.tag :: rest ∧
          extentPieces v.tag rest = some (inner, after) ∧ v.inner = printed inner := by
      obtain ⟨before, rest, inner, after, rfl, hextent, hinner⟩ := ih h
      exact ⟨p :: before, rest, inner, after, rfl, hextent, hinner⟩
    cases p with
    | startTag t =>
      rcases List.mem_append.1 h with h | h
      · rw [Option.mem_toList, visit?] at h
        split at h
        · obtain ⟨⟨inner, after⟩, hextent, rfl⟩ := Option.map_eq_some_iff.1 h
          exact ⟨[], ps, inner, after, rfl, hextent, rfl⟩
        · cases h
      · exact htail h
    | text s => exact htail h
    | comment s => exact htail h
    | endTag s => exact htail h
    | stray s => exact htail h

/-- and wherever that is. -/
theorem mem_visitsOf_append {names : List Text} {t : StartTag}
    (hname : names.contains t.name = true) {rest inner after : List Piece}
    (hextent : extentPieces t rest = some (inner, after)) (before : List Piece) :
    ⟨t, printed inner⟩ ∈ visitsOf names (before ++ .startTag t :: rest) := by
  induction before with
  | nil =>
    refine List.mem_append_left _ ?_
    rw [visit?, if_pos hname, hextent]
    exact List.mem_singleton_self _
  | cons p before ih =>
    cases p with
    | startTag u => exact List.mem_append_right _ ih
    | text s => exact ih
    | comment s => exact ih
    | endTag s => exact ih
    | stray s => exact ih

/-- What is inside an element is among the pieces. -/
theorem mem_of_extentPieces {t : StartTag} {inner after : List Piece}
    (h : extentPieces t ps = some (inner, after)) {p : Piece} (hp : p ∈ inner) : p ∈ ps := by
  rw [extentPieces] at h
  split at h
  · cases h
    cases hp
  · obtain ⟨s, rfl⟩ := eq_of_splitPieces h
    exact List.mem_append_left _ hp

/-- An element is one with more pieces in front. -/
theorem visitsOf_subset_append {names : List Text} (before : List Piece) :
    visitsOf names ps ⊆ visitsOf names (before ++ ps) := by
  induction before with
  | nil => exact List.Subset.refl _
  | cons p before ih =>
    cases p with
    | startTag t => exact fun v hv => List.mem_append_right _ (ih hv)
    | text s => exact ih
    | comment s => exact ih
    | endTag s => exact ih
    | stray s => exact ih

/-- A search that counts the same at each piece ends at the same one. -/
theorem exists_of_splitPieces {T : Piece → Piece → Prop} {name : Text}
    (hT : ∀ p q, T p q → ∀ depth, depthAfter? name depth q = depthAfter? name depth p)
    {depth : Nat} {inner' after' : List Piece} (h : List.Forall₂ T ps qs)
    (hsplit : splitPieces name depth qs = some (inner', after')) :
    ∃ inner after, splitPieces name depth ps = some (inner, after) ∧ List.Forall₂ T inner inner' := by
  induction h generalizing depth inner' with
  | nil => cases hsplit
  | @cons p q ps qs hpq _ ih =>
    rw [splitPieces, hT p q hpq] at hsplit
    rw [splitPieces]
    cases hd : depthAfter? name depth p with
    | none =>
      rw [hd] at hsplit
      cases hsplit
      exact ⟨[], ps, rfl, .nil⟩
    | some d =>
      rw [hd] at hsplit
      obtain ⟨⟨i, a⟩, hs, hia⟩ := Option.map_eq_some_iff.1 hsplit
      cases hia
      obtain ⟨inner, after, hinner, hrel⟩ := ih hs
      exact ⟨p :: inner, after, by simp [hinner], .cons hpq hrel⟩

/-- So what is inside an element is in the place of what was. -/
theorem exists_of_extentPieces {T : Piece → Piece → Prop} {t u : StartTag}
    (hT : ∀ p q, T p q → ∀ depth, depthAfter? t.name depth q = depthAfter? t.name depth p)
    (hname : u.name = t.name) (hclosing : u.selfClosing = t.selfClosing)
    {inner' after' : List Piece} (h : List.Forall₂ T ps qs)
    (hextent : extentPieces u qs = some (inner', after')) :
    ∃ inner after, extentPieces t ps = some (inner, after) ∧ List.Forall₂ T inner inner' := by
  have hvoid : u.isVoid = t.isVoid := by
    rw [StartTag.isVoid, StartTag.isVoid, hclosing, hname]
  rw [extentPieces, hvoid, hname] at hextent
  rw [extentPieces]
  split at hextent
  · next hv =>
    cases hextent
    exact ⟨[], ps, by rw [if_pos hv], .nil⟩
  · next hv =>
    rw [if_neg hv]
    exact exists_of_splitPieces hT h hextent

end MaskedViews.Markup
