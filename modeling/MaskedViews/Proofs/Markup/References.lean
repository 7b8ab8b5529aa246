import MaskedViews.Mask.References
import MaskedViews.Proofs.Markup.Regular

/-!
# References in pieces

The fields that a regular template refers to are those of its pieces
(`mem_referencedFields_printed`), so that fewer pieces refer to no more.
-/

namespace MaskedViews

open Token (tags)

namespace Markup

variable {ps qs : List Piece}

/-- The fields that a piece refers to. -/
def Piece.RefersTo (field : Text) (p : Piece) : Prop :=
  (∃ x ∈ tags p.source, x.path? = some field) ∨
    ∃ t, p = .startTag t ∧ t.reference? = some field ∧ field ≠ []

theorem mem_tagReferences_printed {field : Text} (h : ∀ p ∈ ps, p.Fits) :
    field ∈ tagReferences (printed ps) ↔
      ∃ t, .startTag t ∈ ps ∧ t.reference? = some field ∧ field ≠ [] := by
  rw [tagReferences, startTags_printed ps h, List.mem_filter, List.mem_filterMap, decide_eq_true_eq]
  simp only [mem_startTagsOf]
  grind

/-- **A regular template refers to the fields that its pieces refer to.** -/
theorem mem_referencedFields_printed {field : Text} (h : ∀ p ∈ ps, p.IsRegular) :
    field ∈ referencedFields (printed ps) ↔ ∃ p ∈ ps, p.RefersTo field := by
  rw [mem_referencedFields, mem_tagReferences_printed fun p hp => (h p hp).fits,
    Template.mem_placeholders_parse, tags_printed h]
  simp only [Piece.RefersTo, List.mem_flatMap]
  grind

/-- Fewer pieces refer to no more fields. -/
theorem referencedFields_subset (h : ∀ p ∈ ps, p.IsRegular) (hqs : qs ⊆ ps) :
    referencedFields (printed qs) ⊆ referencedFields (printed ps) := by
  intro field hfield
  obtain ⟨p, hp, hrefers⟩ := (mem_referencedFields_printed fun q hq => h q (hqs hq)).1 hfield
  exact (mem_referencedFields_printed h).2 ⟨p, hqs hp, hrefers⟩

end Markup

end MaskedViews
