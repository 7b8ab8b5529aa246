/-!
# Texts

A text is the list of its characters, so that every function on text is a recursion on the
characters still to be read. What a reader has passed is never an index: functions give back the
part they took and the part that is left, and the lemmas here say that the two make up the whole.

Positions are reported in bytes of the UTF-8 form. `byteLength` measures a text in that unit and
`dropBytes` is the cut at such a position; no function decides anything by them.
-/

namespace MaskedViews

/-- A text: its characters, in order. -/
abbrev Text := List Char

namespace Text

/-! ### Length in bytes -/

/-- The number of bytes of the UTF-8 form. -/
def byteLength : Text → Nat
  | [] => 0
  | c :: s => c.utf8Size + byteLength s

@[simp] theorem byteLength_nil : byteLength [] = 0 := rfl

@[simp] theorem byteLength_cons (c : Char) (s : Text) :
    byteLength (c :: s) = c.utf8Size + byteLength s := rfl

@[simp] theorem byteLength_append (s t : Text) :
    byteLength (s ++ t) = byteLength s + byteLength t := by
  induction s with
  | nil => simp
  | cons c s ih => simp [ih, Nat.add_assoc]

/-- What is left after `n` bytes; a character that the cut would split is dropped whole. -/
def dropBytes : Nat → Text → Text
  | 0, s => s
  | _ + 1, [] => []
  | n + 1, c :: s => dropBytes (n + 1 - c.utf8Size) s

/-- The cut at a character boundary is the text that follows it. -/
theorem dropBytes_append (s t : Text) : dropBytes (byteLength s) (s ++ t) = t := by
  induction s with
  | nil => simp [dropBytes]
  | cons c s ih =>
    have pos := c.utf8Size_pos
    obtain ⟨n, hn⟩ : ∃ n, c.utf8Size + byteLength s = n + 1 :=
      ⟨c.utf8Size + byteLength s - 1, by omega⟩
    rw [List.cons_append, byteLength_cons, hn, dropBytes, ← hn, Nat.add_sub_cancel_left, ih]

/-! ### Beginnings and first occurrences -/

/-- What follows `start` in a text that begins with it. -/
def rest? : (start s : Text) → Option Text
  | [], s => some s
  | _ :: _, [] => none
  | p :: start, c :: s => if p = c then rest? start s else none

theorem rest?_eq_some_iff {start s r : Text} : rest? start s = some r ↔ s = start ++ r := by
  induction start generalizing s with
  | nil => simp [rest?]
  | cons p start ih =>
    cases s with
    | nil => simp [rest?]
    | cons c s =>
      by_cases h : p = c
      · simp [rest?, h, ih]
      · simp [rest?, h, Ne.symm h]

/-- Whether a text begins with `start`. -/
def startsWith (start s : Text) : Bool := (rest? start s).isSome

@[simp] theorem startsWith_singleton_iff {c : Char} {s : Text} :
    startsWith [c] s = true ↔ s.head? = some c := by
  cases s with
  | nil => simp [startsWith, rest?]
  | cons d s =>
    by_cases h : c = d
    · simp [startsWith, rest?, h]
    · simp [startsWith, rest?, h, Ne.symm h]

/-- What precedes and what follows the first occurrence of `mark`. -/
def cut? (mark : Text) : Text → Option (Text × Text)
  | [] => if mark = [] then some ([], []) else none
  | c :: s =>
    match rest? mark (c :: s) with
    | some r => some ([], r)
    | none => (cut? mark s).map fun (before, after) => (c :: before, after)

/-- A cut loses only the mark. -/
theorem eq_of_cut? {mark s before after : Text} (h : cut? mark s = some (before, after)) :
    s = before ++ (mark ++ after) := by
  induction s generalizing before with
  | nil =>
    simp only [cut?] at h
    split at h <;> simp_all
  | cons c s ih =>
    simp only [cut?] at h
    split at h
    · next r hr =>
      rw [rest?_eq_some_iff] at hr
      simp_all
    · obtain ⟨⟨b, a⟩, hb, heq⟩ := Option.map_eq_some_iff.1 h
      simp only [Prod.mk.injEq] at heq
      obtain ⟨rfl, rfl⟩ := heq
      rw [ih hb, List.cons_append]

/-- What follows a non-empty mark is shorter than the text. -/
theorem length_of_cut? {mark s before after : Text} (h : cut? mark s = some (before, after)) :
    after.length + mark.length ≤ s.length := by
  have := congrArg List.length (eq_of_cut? h)
  simp only [List.length_append] at this
  omega

/-! ### Ends -/

/-- A text without the characters of a class at its end. -/
def dropEndWhile (p : Char → Bool) (s : Text) : Text := (s.reverse.dropWhile p).reverse

/-- Only characters of the class are taken away. -/
theorem dropEndWhile_append (p : Char → Bool) (s : Text) :
    dropEndWhile p s ++ (s.reverse.takeWhile p).reverse = s := by
  rw [dropEndWhile, ← List.reverse_append, List.takeWhile_append_dropWhile, List.reverse_reverse]

/-! ### Letter case of the ASCII letters -/

/-- The text with its ASCII capitals made small; every other character stays. -/
def lower (s : Text) : Text := s.map Char.toLower

/-- What follows `start` in a text that begins with it up to the case of ASCII letters. -/
def restIgnoringCase? : (start s : Text) → Option Text
  | [], s => some s
  | _ :: _, [] => none
  | p :: start, c :: s =>
    if p.toLower = c.toLower then restIgnoringCase? start s else none

/-- The part passed agrees with `start` in small letters. -/
theorem restIgnoringCase?_eq_some_iff {start s r : Text} :
    restIgnoringCase? start s = some r ↔ ∃ t, s = t ++ r ∧ lower t = lower start := by
  induction start generalizing s with
  | nil => simp [restIgnoringCase?, lower]
  | cons p start ih =>
    cases s with
    | nil =>
      simp only [restIgnoringCase?, lower, List.map_cons, reduceCtorEq, false_iff]
      rintro ⟨t, ht, hl⟩
      have : t = [] := (List.append_eq_nil_iff.1 ht.symm).1
      simp [this] at hl
    | cons c s =>
      simp only [restIgnoringCase?]
      split
      · next hc =>
        rw [ih]
        constructor
        · rintro ⟨t, rfl, hl⟩
          exact ⟨c :: t, rfl, by simp_all [lower]⟩
        · rintro ⟨t, ht, hl⟩
          cases t with
          | nil => simp [lower] at hl
          | cons d t =>
            simp only [List.cons_append, List.cons.injEq] at ht
            exact ⟨t, ht.2, by simp_all [lower]⟩
      · next hc =>
        simp only [reduceCtorEq, false_iff]
        rintro ⟨t, ht, hl⟩
        cases t with
        | nil => simp [lower] at hl
        | cons d t =>
          simp only [List.cons_append, List.cons.injEq] at ht
          simp only [lower, List.map_cons, List.cons.injEq] at hl
          exact hc (by rw [ht.1, hl.1])

/-! ### Order -/

/-- Whether a text comes before another: at the first place where they differ it has the lower code
point or has ended. The bytes of the UTF-8 forms are in the same order. -/
def isBefore : Text → Text → Bool
  | _, [] => false
  | [], _ :: _ => true
  | a :: s, b :: t => a.toNat < b.toNat || (a = b && isBefore s t)

theorem isBefore_trans {s t u : Text} (hst : isBefore s t = true) (htu : isBefore t u = true) :
    isBefore s u = true := by
  induction s generalizing t u with
  | nil =>
    cases u with
    | nil => cases t <;> simp [isBefore] at htu
    | cons c u => rfl
  | cons a s ih =>
    cases t with
    | nil => simp [isBefore] at hst
    | cons b t =>
      cases u with
      | nil => simp [isBefore] at htu
      | cons c u =>
        simp only [isBefore, Bool.or_eq_true, decide_eq_true_eq, Bool.and_eq_true] at hst htu ⊢
        rcases hst with h1 | ⟨rfl, h1⟩
        · rcases htu with h2 | ⟨rfl, h2⟩
          · exact .inl (Nat.lt_trans h1 h2)
          · exact .inl h1
        · rcases htu with h2 | ⟨rfl, h2⟩
          · exact .inl h2
          · exact .inr ⟨rfl, ih h1 h2⟩

/-- Of two different texts one comes before the other. -/
theorem isBefore_or_isBefore {s t : Text} (h : s ≠ t) :
    isBefore s t = true ∨ isBefore t s = true := by
  induction s generalizing t with
  | nil =>
    cases t with
    | nil => exact absurd rfl h
    | cons b t => exact .inl rfl
  | cons a s ih =>
    cases t with
    | nil => exact .inr rfl
    | cons b t =>
      simp only [isBefore, Bool.or_eq_true, decide_eq_true_eq, Bool.and_eq_true]
      rcases Nat.lt_trichotomy a.toNat b.toNat with hab | hab | hab
      · exact .inl (.inl hab)
      · have hab : a = b := Char.toNat_inj.1 hab
        have hst : s ≠ t := fun e => h (by rw [hab, e])
        rcases ih hst with h1 | h1
        · exact .inl (.inr ⟨hab, h1⟩)
        · exact .inr (.inr ⟨hab.symm, h1⟩)
      · exact .inr (.inl hab)

end Text

end MaskedViews
