import MaskedViews.Text.Basic
import Mathlib.Data.List.TakeWhile

/-!
# Marks and classes of characters

Where a mark is found first in a text depends on what stands before it and not on what follows. The
longest beginning of a class of characters is known from the first character that follows it.
-/

namespace MaskedViews.Text

/-- What all characters of a text are is decided from these, not from all characters there are. -/
instance (priority := high) decidableForallMem (p : Char → Prop) [DecidablePred p] (s : Text) :
    Decidable (∀ c ∈ s, p c) :=
  List.decidableBAll p s

/-! ### Marks -/

/-- Whether a text begins with a mark is seen from as many characters as the mark has. -/
theorem rest?_append_of_length {mark x : Text} (h : mark.length ≤ x.length) (y : Text) :
    rest? mark (x ++ y) = (rest? mark x).map (· ++ y) := by
  induction mark generalizing x with
  | nil => rfl
  | cons p mark ih =>
    cases x with
    | nil => simp at h
    | cons c x =>
      rw [List.cons_append, rest?, rest?]
      split
      · exact ih (by simpa using h)
      · rfl

/-- The first occurrence of a mark is the first whatever follows it. -/
theorem cut?_append_mark {p : Char} {mark b r : Text}
    (h : cut? (p :: mark) (b ++ (p :: mark ++ r)) = some (b, r)) (r' : Text) :
    cut? (p :: mark) (b ++ (p :: mark ++ r')) = some (b, r') := by
  induction b with
  | nil =>
    rw [List.nil_append, List.cons_append, cut?, ← List.cons_append,
      rest?_eq_some_iff.2 rfl]
  | cons c b ih =>
    have hlength : (p :: mark).length ≤ (c :: (b ++ (p :: mark))).length := by
      simp only [List.length_cons, List.length_append]
      omega
    have hrest (y : Text) := rest?_append_of_length hlength y
    simp only [List.cons_append, List.append_assoc] at hrest h ih ⊢
    rw [cut?, hrest] at h ⊢
    cases hr : rest? (p :: mark) (c :: (b ++ p :: mark)) with
    | some x =>
      rw [hr] at h
      simp at h
    | none =>
      rw [hr] at h
      simp only [Option.map_none] at h ⊢
      obtain ⟨⟨b', r''⟩, hcut, heq⟩ := Option.map_eq_some_iff.1 h
      simp only [Prod.mk.injEq, List.cons.injEq, true_and] at heq
      obtain ⟨rfl, rfl⟩ := heq
      rw [ih hcut]
      rfl

/-- The first occurrence of a mark is at no other behind it. -/
theorem exists_cut? (p : Char) (mark x y : Text) :
    ∃ b r, cut? (p :: mark) (x ++ (p :: mark ++ y)) = some (b, r) ∧ b.length ≤ x.length := by
  induction x with
  | nil =>
    refine ⟨[], y, ?_, Nat.le_refl 0⟩
    rw [List.nil_append, List.cons_append, cut?, ← List.cons_append, rest?_eq_some_iff.2 rfl]
  | cons c x ih =>
    obtain ⟨b, r, hcut, hlength⟩ := ih
    rw [List.cons_append, cut?]
    cases hrest : rest? (p :: mark) (c :: (x ++ (p :: mark ++ y))) with
    | some r' => exact ⟨[], r', rfl, Nat.zero_le _⟩
    | none => exact ⟨c :: b, r, by rw [hcut]; rfl, Nat.succ_le_succ hlength⟩

theorem cut?_eq_none_of_append {mark x y : Text} (h : cut? mark (x ++ y) = none) :
    cut? mark y = none := by
  induction x with
  | nil => exact h
  | cons c x ih =>
    rw [List.cons_append, cut?] at h
    split at h
    · cases h
    · exact ih (Option.map_eq_none_iff.1 h)

theorem cut?_append_of_some {p : Char} {mark x b r : Text} (h : cut? (p :: mark) x = some (b, r))
    (y : Text) : cut? (p :: mark) (x ++ y) = some (b, r ++ y) := by
  have hx := eq_of_cut? h
  rw [hx] at h
  rw [hx, List.append_assoc, List.append_assoc]
  exact cut?_append_mark h (r ++ y)

theorem cut?_eq_none_of_append_left {p : Char} {mark x y : Text}
    (h : cut? (p :: mark) (x ++ y) = none) : cut? (p :: mark) x = none := by
  cases hx : cut? (p :: mark) x with
  | none => rfl
  | some z =>
    rw [cut?_append_of_some hx] at h
    cases h

/-- Whether a mark cannot stand across the place between two texts: what is on either side of it is
not both in the mark. -/
def Apart (mark x y : Text) : Prop :=
  ∀ c d, x.getLast? = some c → y.head? = some d → c ∈ mark → d ∉ mark

theorem rest?_append_of_apart {mark x y : Text} (h : Apart mark x y) (hx : x ≠ []) :
    rest? mark (x ++ y) = (rest? mark x).map (· ++ y) := by
  induction mark generalizing x with
  | nil => rfl
  | cons p mark ih =>
    obtain ⟨c, x, rfl⟩ := List.exists_cons_of_ne_nil hx
    rw [List.cons_append, rest?, rest?]
    split
    · next hc =>
      cases x with
      | nil =>
        cases mark with
        | nil => rfl
        | cons q mark =>
          cases y with
          | nil => rfl
          | cons d y =>
            have hd : q ≠ d := by
              rintro rfl
              exact h c q rfl rfl (by simp [hc]) (by simp)
            exact if_neg hd
      | cons e x =>
        refine ih (fun a d ha hd hmem hmem' => ?_) (by simp)
        exact h a d (by simpa using ha) hd (List.mem_cons_of_mem p hmem)
          (List.mem_cons_of_mem p hmem')
    · rfl

/-- A mark that cannot stand across the place between two texts is found in one of them. -/
theorem cut?_append_of_apart {p : Char} {mark x y : Text} (h : Apart (p :: mark) x y) :
    cut? (p :: mark) (x ++ y) =
      ((cut? (p :: mark) x).map fun (b, r) => (b, r ++ y)).or
        ((cut? (p :: mark) y).map fun (b, r) => (x ++ b, r)) := by
  induction x with
  | nil => simp [cut?]
  | cons c x ih =>
    have hrest := rest?_append_of_apart h (by simp)
    have hx : Apart (p :: mark) x y := by
      intro a d ha hd
      obtain ⟨x, rfl⟩ := List.getLast?_eq_some_iff.1 ha
      exact h a d (by rw [← List.cons_append, List.getLast?_concat]) hd
    rw [List.cons_append] at hrest
    rw [List.cons_append, cut?, cut?, hrest, ih hx]
    cases rest? (p :: mark) (c :: x) with
    | some r => rfl
    | none =>
      cases cut? (p :: mark) x with
      | some z => rfl
      | none => simp [Function.comp_def]

/-- The first of a character is the one that none stands before. -/
theorem cut?_singleton_eq_some_iff {c : Char} {s value r : Text} :
    cut? [c] s = some (value, r) ↔ s = value ++ c :: r ∧ c ∉ value := by
  induction s generalizing value with
  | nil => simp [cut?]
  | cons d s ih =>
    by_cases hd : c = d
    · subst hd
      have : rest? [c] (c :: s) = some s := rest?_eq_some_iff.2 rfl
      rw [cut?, this]
      cases value with
      | nil => simp [eq_comm]
      | cons e value =>
        simp only [Option.some.injEq, Prod.mk.injEq, List.cons_append, List.cons.injEq]
        constructor
        · rintro ⟨h, -⟩
          cases h
        · rintro ⟨⟨rfl, -⟩, h⟩
          exact absurd (List.mem_cons_self ..) h
    · have : rest? [c] (d :: s) = none := by rw [rest?, if_neg hd]
      rw [cut?, this]
      simp only [Option.map_eq_some_iff, Prod.exists, Prod.mk.injEq]
      cases value with
      | nil =>
        simp only [reduceCtorEq, false_and, and_false, exists_false, List.nil_append,
          List.cons.injEq, false_iff]
        rintro ⟨⟨rfl, -⟩, -⟩
        exact hd rfl
      | cons e value =>
        simp only [List.cons.injEq, List.cons_append, List.mem_cons, not_or]
        constructor
        · rintro ⟨v, r', h, ⟨rfl, rfl⟩, rfl⟩
          obtain ⟨rfl, hv⟩ := ih.1 h
          exact ⟨⟨rfl, rfl⟩, hd, hv⟩
        · rintro ⟨⟨rfl, rfl⟩, -, hv⟩
          exact ⟨value, r, ih.2 ⟨rfl, hv⟩, ⟨rfl, rfl⟩, rfl⟩

/-! ### Classes of characters -/

/-- Whether the first character of a text, if there is one, is of a class. -/
def Heads (p : Char → Bool) (s : Text) : Prop := ∀ c, s.head? = some c → p c = true

theorem heads_cons {p : Char → Bool} {c : Char} {s : Text} : Heads p (c :: s) ↔ p c = true := by
  simp [Heads]

theorem split_append_of_heads {p : Char → Bool} {s t : Text} (hs : ∀ c ∈ s, p c = true)
    (ht : Heads (!p ·) t) : (s ++ t).takeWhile p = s ∧ (s ++ t).dropWhile p = t := by
  rw [List.takeWhile_append_of_pos hs, List.dropWhile_append_of_pos hs]
  cases t with
  | nil => simp
  | cons c t =>
    have hc : p c = false := by simpa using heads_cons.1 ht
    simp [hc]

/-- A text is divided in one way only where a class of characters ends. -/
theorem eq_of_append_of_heads {p : Char → Bool} {s s' t t' : Text} (hs : ∀ c ∈ s, p c = true)
    (hs' : ∀ c ∈ s', p c = true) (ht : Heads (!p ·) t) (ht' : Heads (!p ·) t')
    (h : s ++ t = s' ++ t') : s = s' ∧ t = t' := by
  obtain ⟨htake, hdrop⟩ := split_append_of_heads hs ht
  obtain ⟨htake', hdrop'⟩ := split_append_of_heads hs' ht'
  exact ⟨by rw [← htake, h, htake'], by rw [← hdrop, h, hdrop']⟩

theorem heads_dropWhile (p : Char → Bool) (s : Text) : Heads (!p ·) (s.dropWhile p) := by
  intro c hc
  have := List.head?_dropWhile_not p s
  rw [hc] at this
  simpa using this

end MaskedViews.Text
