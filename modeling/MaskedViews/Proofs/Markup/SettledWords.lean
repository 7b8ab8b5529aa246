import MaskedViews.Proofs.Markup.Settling
import MaskedViews.Proofs.Text.Cutting
import Mathlib.Data.List.Induction

/-!
# The words of settled text

Settling joins two words where the space between them stands in a gap, so not every word of a settled
text was one before. A word of firm characters was: settling keeps what stands on either side of it
(`mem_words_settle`).
-/

namespace MaskedViews

namespace Text

/-- A text that is empty or ends in a blank. -/
def EndsInBlank (s : Text) : Prop := ∀ c ∈ s.getLast?, isBlank c = true

/-- A text that is empty or begins with a blank. -/
def BeginsInBlank (s : Text) : Prop := ∀ c ∈ s.head?, isBlank c = true

/-- Words split at a blank. -/
theorem words_append_cons {b : Char} (hb : isBlank b = true) (x y : Text) :
    words (x ++ b :: y) = words x ++ words y := by
  rw [words, List.splitOnP_append_cons x y hb, List.filter_append]
  rfl

@[simp] theorem words_nil : words [] = [] := by simp [words]

/-- A text without blanks is one word, or none if it is empty. -/
theorem words_of_not_isBlank {w : Text} (hw : ∀ c ∈ w, isBlank c = false) :
    words w = if w = [] then [] else [w] := by
  rw [words, List.splitOnP_eq_singleton hw]
  split <;> simp [*]

/-- What stands between blanks, or at an end, is a word. -/
theorem mem_words_append {x w y : Text} (hne : w ≠ []) (hw : ∀ c ∈ w, isBlank c = false)
    (hx : EndsInBlank x) (hy : BeginsInBlank y) : w ∈ words (x ++ (w ++ y)) := by
  have hmem : w ∈ words (w ++ y) := by
    cases y with
    | nil => simp [words_of_not_isBlank hw, hne]
    | cons b y =>
      rw [words_append_cons (hy b (by simp)), words_of_not_isBlank hw]
      simp [hne]
  cases x using List.reverseRecOn with
  | nil => exact hmem
  | append_singleton x b =>
    rw [List.append_assoc, List.singleton_append, words_append_cons (hx b (by simp))]
    exact List.mem_append_right _ hmem

/-- With a blank in front of a text that is empty or ends in a blank, the whole ends in a blank. -/
theorem EndsInBlank.append_cons {x : Text} (hx : EndsInBlank x) {b : Char} (hb : isBlank b = true)
    (s : Text) : EndsInBlank (s ++ b :: x) := by
  intro c hc
  cases x using List.reverseRecOn with
  | nil =>
    have hc : b = c := by simpa using hc
    rw [← hc, hb]
  | append_singleton x d =>
    rw [← List.cons_append, ← List.append_assoc, List.getLast?_concat] at hc
    exact hx c (by simpa using hc)

/-- A word stands between blanks, or at an end. -/
theorem mem_words_iff {s w : Text} (hne : w ≠ []) (hw : ∀ c ∈ w, isBlank c = false) :
    w ∈ words s ↔ ∃ x y, s = x ++ (w ++ y) ∧ EndsInBlank x ∧ BeginsInBlank y := by
  constructor
  · intro h
    -- what stands in front of the first blank is a word or nothing
    induction hn : s.length using Nat.strong_induction_on generalizing s with
    | _ n ih =>
      have hs := List.takeWhile_append_dropWhile (p := fun c => !isBlank c) (l := s)
      have hfront : ∀ c ∈ s.takeWhile fun c => !isBlank c, isBlank c = false := by
        intro c hc
        simpa using List.mem_takeWhile_imp hc
      cases hrest : s.dropWhile fun c => !isBlank c with
      | nil =>
        rw [hrest, List.append_nil] at hs
        rw [hs] at hfront
        rw [words_of_not_isBlank hfront] at h
        split at h
        · cases h
        · rw [List.mem_singleton.1 h]
          exact ⟨[], [], by simp, by simp [EndsInBlank], by simp [BeginsInBlank]⟩
      | cons b r =>
        have hb : isBlank b = true := by
          simpa using Text.heads_dropWhile (fun c => !isBlank c) s b (by rw [hrest]; rfl)
        rw [hrest] at hs
        rw [← hs, words_append_cons hb, words_of_not_isBlank hfront] at h
        rcases List.mem_append.1 h with h | h
        · split at h
          · cases h
          · rw [List.mem_singleton] at h
            refine ⟨[], b :: r, ?_, by simp [EndsInBlank], by simp [BeginsInBlank, hb]⟩
            rw [List.nil_append, h, hs]
        · have hlength : r.length < n := by
            rw [← hn, ← hs, List.length_append, List.length_cons]
            omega
          obtain ⟨x, y, rfl, hx, hy⟩ := ih r.length hlength h rfl
          exact ⟨s.takeWhile (fun c => !isBlank c) ++ b :: x, y, by simpa using hs.symm,
            hx.append_cons hb _, hy⟩
  · rintro ⟨x, y, rfl, hx, hy⟩
    exact mem_words_append hne hw hx hy

end Text

namespace Markup

theorem getLast?_foldr_push {c : Char} {z : Text} (hz : z.getLast? = some c) (s : Text) :
    (s.foldr push z).getLast? = some c := by
  induction s with
  | nil => exact hz
  | cons d s ih => exact getLast?_push ih d

theorem endsInBlank_settle {s : Text} : Text.EndsInBlank (settle s) ↔ Text.EndsInBlank s := by
  cases s using List.reverseRecOn with
  | nil => rfl
  | append_singleton s c =>
    cases hc : Text.isBlank c with
    | false =>
      simp [Text.EndsInBlank, getLast?_settle hc, hc]
    | true =>
      have hspace : (settle (s ++ [c])).getLast? = some ' ' := by
        rw [settle_append, settle_cons, push_of_isBlank hc]
        exact getLast?_foldr_push rfl s
      simp [Text.EndsInBlank, hspace, hc]
      decide

theorem beginsInBlank_settle {s : Text} : Text.BeginsInBlank (settle s) ↔ Text.BeginsInBlank s := by
  cases s with
  | nil => rfl
  | cons c s =>
    rw [Text.BeginsInBlank, Text.BeginsInBlank, head?_settle_cons]
    cases hc : Text.isBlank c with
    | true => simp [hc]; decide
    | false => simp [hc]

/-- What settles to firm characters and a rest is these characters and what settles to the rest. -/
theorem exists_eq_append_of_settle {s w y : Text} (hw : ∀ c ∈ w, isFirm c = true)
    (h : settle s = w ++ y) : ∃ y', s = w ++ y' ∧ settle y' = y := by
  induction w generalizing s with
  | nil => exact ⟨s, rfl, h⟩
  | cons c w ih =>
    obtain ⟨x, z, rfl, hx, hz⟩ := exists_eq_of_settle (x := []) (hw c (by simp)) h
    obtain rfl := settle_eq_nil_iff.1 hx
    obtain ⟨y', rfl, hy'⟩ := ih (fun d hd => hw d (List.mem_cons_of_mem c hd)) hz
    exact ⟨y', rfl, hy'⟩

/-- **A word of firm characters is in the settled text if it is in the text.** -/
theorem mem_words_settle {s w : Text} (hne : w ≠ []) (hw : ∀ c ∈ w, isFirm c = true) :
    w ∈ Text.words (settle s) ↔ w ∈ Text.words s := by
  have hblank : ∀ c ∈ w, Text.isBlank c = false := fun c hc => (isFirm_iff.1 (hw c hc)).1
  rw [Text.mem_words_iff hne hblank, Text.mem_words_iff hne hblank]
  constructor
  · rintro ⟨x, y, hs, hx, hy⟩
    obtain ⟨c, w', rfl⟩ := List.exists_cons_of_ne_nil hne
    obtain ⟨x', z, rfl, rfl, hz⟩ := exists_eq_of_settle (hw c (by simp)) hs
    obtain ⟨y', rfl, rfl⟩ :=
      exists_eq_append_of_settle (fun d hd => hw d (List.mem_cons_of_mem c hd)) hz
    exact ⟨x', y', rfl, endsInBlank_settle.1 hx, beginsInBlank_settle.1 hy⟩
  · rintro ⟨x, y, rfl, hx, hy⟩
    refine ⟨settle x, settle y, ?_, endsInBlank_settle.2 hx, beginsInBlank_settle.2 hy⟩
    obtain ⟨c, w', rfl⟩ := List.exists_cons_of_ne_nil hne
    rw [List.cons_append, settle_append_cons (hw c (by simp)),
      settle_append_of_isFirm fun d hd => hw d (List.mem_cons_of_mem c hd)]
    rfl

end Markup

end MaskedViews
