import MaskedViews.Text.Basic

/-!
# Slices

A slice of a text is named by two bytes of its UTF-8 form. It is there only if the bytes are in
order and inside the text and neither is inside a character (`slice?_eq_some_iff`), so that to have
a slice is to have asked for one that exists.

Spans of a text may be replaced. What is between them is sliced out and kept, in order, so the
replacement fails if a span begins before the one in front of it has ended
(`pairwise_of_replaceFrom?`).
-/

namespace MaskedViews.Text

/-! ### Cuts -/

/-- What stands before a byte, and what from it on. There is no cut behind the end of a text or
inside a character. -/
def splitAtByte? : Nat → Text → Option (Text × Text)
  | 0, s => some ([], s)
  | _ + 1, [] => none
  | n + 1, c :: s =>
    if c.utf8Size ≤ n + 1 then
      (splitAtByte? (n + 1 - c.utf8Size) s).map fun (before, after) => (c :: before, after)
    else none

theorem splitAtByte?_zero (s : Text) : splitAtByte? 0 s = some ([], s) := by
  rw [splitAtByte?]

/-- A character in front of the cut counts with all of its bytes. -/
theorem splitAtByte?_add (c : Char) (n : Nat) (s : Text) :
    splitAtByte? (c.utf8Size + n) (c :: s) =
      (splitAtByte? n s).map fun (before, after) => (c :: before, after) := by
  obtain ⟨k, hk⟩ := Nat.exists_eq_succ_of_ne_zero (Nat.ne_of_gt c.utf8Size_pos)
  have hsum : c.utf8Size + n = k + n + 1 := by omega
  rw [hsum, splitAtByte?, if_pos (by omega), show k + n + 1 - c.utf8Size = n by omega]

/-- **A cut is a place between two characters**, and its byte is the length of what stands before
it. -/
theorem splitAtByte?_eq_some_iff {n : Nat} {s before after : Text} :
    splitAtByte? n s = some (before, after) ↔ s = before ++ after ∧ byteLength before = n := by
  constructor
  · intro h
    induction s generalizing n before with
    | nil =>
      cases n with
      | zero =>
        cases h
        exact ⟨rfl, rfl⟩
      | succ n => cases h
    | cons c s ih =>
      cases n with
      | zero =>
        cases h
        exact ⟨rfl, rfl⟩
      | succ n =>
        rw [splitAtByte?] at h
        split at h
        · next hfits =>
          obtain ⟨⟨x, y⟩, hsplit, heq⟩ := Option.map_eq_some_iff.1 h
          cases heq
          obtain ⟨rfl, hx⟩ := ih hsplit
          exact ⟨rfl, by rw [byteLength_cons, hx]; omega⟩
        · cases h
  · rintro ⟨rfl, rfl⟩
    induction before with
    | nil => exact splitAtByte?_zero after
    | cons c before ih => rw [byteLength_cons, List.cons_append, splitAtByte?_add, ih]; rfl

/-- Whether a byte is a place of a text between two characters or at one of its ends. -/
def isBoundary (html : Text) (n : Nat) : Bool := (splitAtByte? n html).isSome

theorem isBoundary_iff {html : Text} {n : Nat} :
    html.isBoundary n = true ↔ ∃ before after, html = before ++ after ∧ byteLength before = n := by
  rw [isBoundary, Option.isSome_iff_exists]
  constructor
  · rintro ⟨⟨before, after⟩, h⟩
    exact ⟨before, after, splitAtByte?_eq_some_iff.1 h⟩
  · rintro ⟨before, after, h⟩
    exact ⟨(before, after), splitAtByte?_eq_some_iff.2 h⟩

theorem isBoundary_append (before after : Text) :
    isBoundary (before ++ after) (byteLength before) = true :=
  isBoundary_iff.2 ⟨before, after, rfl, rfl⟩

/-! ### Slices -/

/-- What stands between two bytes. -/
def slice? (html : Text) (start stop : Nat) : Option Text :=
  if start ≤ stop then
    (splitAtByte? start html).bind fun (_, s) => (splitAtByte? (stop - start) s).map Prod.fst
  else none

/-- **A slice has a place in the text**, and its bytes are the lengths of what stands before it and
of that with the slice. -/
theorem slice?_eq_some_iff {html s : Text} {start stop : Nat} :
    html.slice? start stop = some s ↔ ∃ before after, html = before ++ (s ++ after) ∧
      byteLength before = start ∧ byteLength (before ++ s) = stop := by
  rw [slice?]
  constructor
  · intro h
    split at h
    · next hle =>
      obtain ⟨⟨before, r⟩, hbefore, h⟩ := Option.bind_eq_some_iff.1 h
      obtain ⟨⟨x, after⟩, hx, h⟩ := Option.map_eq_some_iff.1 h
      cases h
      obtain ⟨rfl, rfl⟩ := splitAtByte?_eq_some_iff.1 hbefore
      obtain ⟨rfl, hlength⟩ := splitAtByte?_eq_some_iff.1 hx
      exact ⟨before, after, rfl, rfl, by rw [byteLength_append, hlength]; omega⟩
    · cases h
  · rintro ⟨before, after, rfl, rfl, rfl⟩
    have hbefore : splitAtByte? (byteLength before) (before ++ (s ++ after)) =
        some (before, s ++ after) := splitAtByte?_eq_some_iff.2 ⟨rfl, rfl⟩
    have hs : splitAtByte? (byteLength s) (s ++ after) = some (s, after) :=
      splitAtByte?_eq_some_iff.2 ⟨rfl, rfl⟩
    rw [byteLength_append, if_pos (Nat.le_add_right _ _), hbefore, Option.bind_some,
      Nat.add_sub_cancel_left]
    dsimp only
    rw [hs]
    rfl

example : slice? "aéb".toList 1 3 = some "é".toList ∧ slice? "aéb".toList 1 2 = none ∧
    slice? "aéb".toList 3 1 = none := by decide

theorem slice?_append (before s after : Text) :
    slice? (before ++ (s ++ after)) (byteLength before) (byteLength (before ++ s)) = some s :=
  slice?_eq_some_iff.2 ⟨before, after, rfl, rfl, rfl⟩

/-- The slice up to the end. -/
theorem slice?_append_right (before s : Text) :
    slice? (before ++ s) (byteLength before) (byteLength (before ++ s)) = some s := by
  have := slice?_append before s []
  rwa [List.append_nil] at this

/-- A slice is as long as its bytes are apart, and inside the text. -/
theorem bounds_of_slice? {html s : Text} {start stop : Nat} (h : html.slice? start stop = some s) :
    start + byteLength s = stop ∧ stop ≤ byteLength html := by
  obtain ⟨before, after, rfl, rfl, rfl⟩ := slice?_eq_some_iff.1 h
  rw [← List.append_assoc, byteLength_append _ after, byteLength_append]
  exact ⟨rfl, Nat.le_add_right _ _⟩

/-- A slice begins and ends between characters. -/
theorem isBoundary_of_slice? {html s : Text} {start stop : Nat}
    (h : html.slice? start stop = some s) :
    html.isBoundary start = true ∧ html.isBoundary stop = true := by
  obtain ⟨before, after, rfl, rfl, rfl⟩ := slice?_eq_some_iff.1 h
  refine ⟨isBoundary_append _ _, ?_⟩
  rw [← List.append_assoc]
  exact isBoundary_append _ _

/-- A slice of a slice. -/
theorem slice?_of_slice? {html x s y : Text} {start stop : Nat}
    (h : html.slice? start stop = some (x ++ (s ++ y))) :
    html.slice? (start + byteLength x) (start + byteLength (x ++ s)) = some s := by
  obtain ⟨before, after, rfl, rfl, -⟩ := slice?_eq_some_iff.1 h
  exact slice?_eq_some_iff.2 ⟨before ++ x, y ++ after, by simp, by simp, by simp⟩

/-! ### Replacing spans -/

/-- A text for the place of what stands between two bytes. -/
structure Replacement where
  /-- The byte at which the span begins. -/
  start : Nat
  /-- The byte at which it ends. -/
  stop : Nat
  /-- What is put there. -/
  written : Text
  deriving DecidableEq, Repr

/-- A text from a byte on with spans replaced: what stands before each span and behind the last is
sliced out and kept. -/
def replaceFrom? (html : Text) (cursor : Nat) : List Replacement → Option Text
  | [] => html.slice? cursor (byteLength html)
  | r :: rs =>
    (html.slice? cursor r.start).bind fun kept =>
      (replaceFrom? html r.stop rs).map fun rest => kept ++ (r.written ++ rest)

theorem replaceFrom?_cons_eq_some_iff {html s : Text} {cursor : Nat} {r : Replacement}
    {rs : List Replacement} :
    replaceFrom? html cursor (r :: rs) = some s ↔ ∃ kept rest,
      html.slice? cursor r.start = some kept ∧ replaceFrom? html r.stop rs = some rest ∧
        kept ++ (r.written ++ rest) = s := by
  simp only [replaceFrom?, Option.bind_eq_some_iff, Option.map_eq_some_iff]
  constructor
  · rintro ⟨kept, hkept, rest, hrest, rfl⟩
    exact ⟨kept, rest, hkept, hrest, rfl⟩
  · rintro ⟨kept, rest, hkept, hrest, rfl⟩
    exact ⟨kept, hkept, rest, hrest, rfl⟩

variable {html s : Text} {cursor : Nat} {rs : List Replacement}

/-- What is replaced stands behind the cursor. -/
theorem le_start_of_replaceFrom? (h : replaceFrom? html cursor rs = some s)
    (hrs : ∀ r ∈ rs, r.start ≤ r.stop) : ∀ r ∈ rs, cursor ≤ r.start := by
  induction rs generalizing cursor s with
  | nil => simp
  | cons r rs ih =>
    obtain ⟨kept, rest, hkept, hrest, -⟩ := replaceFrom?_cons_eq_some_iff.1 h
    have hcursor : cursor ≤ r.start := by
      have := (bounds_of_slice? hkept).1
      omega
    have hstop := hrs r (by simp)
    have ih := ih hrest fun r hr => hrs r (List.mem_cons_of_mem _ hr)
    intro r' hr'
    rcases List.mem_cons.1 hr' with rfl | hr'
    · exact hcursor
    · have := ih r' hr'
      omega

/-- **Spans that can be replaced are disjoint** and stand in the text in order. -/
theorem pairwise_of_replaceFrom? (h : replaceFrom? html cursor rs = some s)
    (hrs : ∀ r ∈ rs, r.start ≤ r.stop) : rs.Pairwise fun r r' => r.stop ≤ r'.start := by
  induction rs generalizing cursor s with
  | nil => exact .nil
  | cons r rs ih =>
    obtain ⟨kept, rest, -, hrest, -⟩ := replaceFrom?_cons_eq_some_iff.1 h
    have hlater : ∀ r ∈ rs, r.start ≤ r.stop := fun r hr => hrs r (List.mem_cons_of_mem _ hr)
    exact .cons (le_start_of_replaceFrom? hrest hlater) (ih hrest hlater)

end MaskedViews.Text
