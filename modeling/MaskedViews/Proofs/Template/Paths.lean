import MaskedViews.Proofs.Markup.Settling
import MaskedViews.Proofs.Template.Parallel

/-!
# Paths in tags

A path holds no blank, no brace and neither `<` nor `>`, so trimming and settling leave it alone,
and a text that settles to a path is one.
-/

namespace MaskedViews

open Markup (settle isFirm)

namespace Token

theorem isPathChar_of_isBlank {c : Char} (h : Text.isBlank c = true) : isPathChar c = false := by
  have hcodes : ∀ n ∈ Text.blankCodes, isPathChar (Char.ofNat n) = false := by decide +kernel
  have := hcodes c.toNat (Text.toNat_mem_blankCodes h)
  rwa [Char.ofNat_toNat] at this

theorem isBrace_of_isPathChar {c : Char} (h : isPathChar c = true) : isBrace c = false := by
  rw [← Bool.not_eq_true]
  intro hc
  simp only [isBrace, Bool.or_eq_true, decide_eq_true_eq] at hc
  rcases hc with rfl | rfl
  · exact absurd h (by decide)
  · exact absurd h (by decide)

theorem isFirm_of_isPathChar {c : Char} (h : isPathChar c = true) : isFirm c = true := by
  refine Markup.isFirm_iff.2 ⟨?_, ?_, ?_⟩
  · rw [← Bool.not_eq_true]
    intro hb
    rw [isPathChar_of_isBlank hb] at h
    cases h
  · rintro rfl
    exact absurd h (by decide)
  · rintro rfl
    exact absurd h (by decide)

theorem isPathChar_of_isPath {s : Text} (h : isPath s = true) : ∀ c ∈ s, isPathChar c = true := by
  simp only [isPath, Bool.and_eq_true, List.all_eq_true] at h
  exact h.2

theorem braceless_of_isPath {s : Text} (h : isPath s = true) : Braceless s :=
  fun c hc => isBrace_of_isPathChar (isPathChar_of_isPath h c hc)

theorem isFirm_of_isBrace {c : Char} (h : isBrace c = true) : isFirm c = true := by
  simp only [isBrace, Bool.or_eq_true, decide_eq_true_eq] at h
  rcases h with rfl | rfl <;> decide

theorem braceless_of_blanks {b : Text} (hb : Text.Blanks b) : Braceless b := by
  intro c hc
  rw [← Bool.not_eq_true]
  intro h
  have hfirm := (Markup.isFirm_iff.1 (isFirm_of_isBrace h)).1
  rw [hb c hc] at hfirm
  cases hfirm

theorem braceless_of_isAsciiBlank {b : Text} (h : ∀ c ∈ b, Text.isAsciiBlank c = true) :
    Braceless b :=
  braceless_of_blanks fun c hc => Text.isBlank_of_isAsciiBlank (h c hc)

/-- A brace is no blank, so none is trimmed away. -/
theorem braceless_of_isPath_trim {s : Text} (h : isPath (Text.trim s) = true) : Braceless s := by
  intro c hc
  rw [← Bool.not_eq_true]
  intro hbrace
  have hblank := (Markup.isFirm_iff.1 (isFirm_of_isBrace hbrace)).1
  have := braceless_of_isPath h c ((Text.mem_trim hblank).2 hc)
  rw [hbrace] at this
  cases this

theorem settle_of_isPath {s : Text} (h : isPath s = true) : settle s = s :=
  Markup.settle_of_isFirm fun c hc => isFirm_of_isPathChar (isPathChar_of_isPath h c hc)

/-- A text that settles to a path is settled. -/
theorem settle_eq_of_isPath_settle {s : Text} (h : isPath (settle s) = true) : settle s = s :=
  Markup.settle_eq_self_of_isFirm_settle fun c hc =>
    isFirm_of_isPathChar (isPathChar_of_isPath h c hc)

@[simp] theorem isPath_settle (s : Text) : isPath (settle s) = isPath s := by
  rw [Bool.eq_iff_iff]
  constructor
  · intro h
    rwa [settle_eq_of_isPath_settle h] at h
  · intro h
    rwa [settle_of_isPath h]

end Token

end MaskedViews
