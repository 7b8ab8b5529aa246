import MaskedViews.Json.Reader
import MaskedViews.Proofs.Text.Trimming

/-!
# Reading back what was written

A string that was written is read back as it was (`readString?_flatMap_escapeChar`), and so is a list
of strings (`read?_compact_strings`). A value that can be read begins with a character that is no
blank, and an array begins with its bracket.
-/

namespace MaskedViews.Json

/-! ### Where a value begins -/

theorem isBlank_of_isSpace {c : Char} (h : isSpace c = true) : Text.isBlank c = true := by
  simp only [isSpace, Bool.or_eq_true, decide_eq_true_eq] at h
  rcases h with ((rfl | rfl) | rfl) | rfl <;> decide

/-- Leading blanks of a value are blanks of a text: a value begins where the trimmed text does. -/
theorem trimStart_of_skipSpace {s r : Text} {c : Char} (h : skipSpace s = c :: r)
    (hc : Text.isBlank c = false) : Text.trimStart s = c :: r := by
  have hspaces : Text.Blanks (s.takeWhile isSpace) :=
    fun d hd => isBlank_of_isSpace (List.mem_takeWhile_imp hd)
  have hs : s = s.takeWhile isSpace ++ c :: r := by
    rw [← h, skipSpace, List.takeWhile_append_dropWhile]
  rw [hs, Text.trimStart_blanks_append hspaces, Text.trimStart_of_head hc]

theorem readWhole?_eq_none {s : Text} (h : ∀ c, s.head? = some c → c.isDigit = false) :
    readWhole? s = none := by
  unfold readWhole?
  split
  · cases h '0' rfl
  · cases s with
    | nil => simp [readDigits?]
    | cons c s => simp [readDigits?, h c rfl]

theorem readNumber?_eq_none {s : Text} (hsign : s.head? ≠ some '-') (h : readWhole? s = none) :
    readNumber? s = none := by
  unfold readNumber?
  split
  next negative r heq =>
    split at heq
    · exact absurd rfl hsign
    · obtain ⟨-, rfl⟩ := Prod.mk.inj heq
      rw [h, Option.bind_none]

/-- A number begins with a minus sign or a digit. -/
theorem head_of_readNumber? {s r : Text} {n : Number} (h : readNumber? s = some (n, r)) :
    ∃ c s', s = c :: s' ∧ (c = '-' ∨ c.isDigit = true) := by
  by_cases hsign : s.head? = some '-'
  · obtain ⟨s', rfl⟩ := List.head?_eq_some_iff.1 hsign
    exact ⟨'-', s', rfl, .inl rfl⟩
  by_cases hdigit : ∀ c, s.head? = some c → c.isDigit = false
  · rw [readNumber?_eq_none hsign (readWhole?_eq_none hdigit)] at h
    cases h
  · simp only [not_forall, Bool.not_eq_false] at hdigit
    obtain ⟨c, hhead, hc⟩ := hdigit
    obtain ⟨s', rfl⟩ := List.head?_eq_some_iff.1 hhead
    exact ⟨c, s', rfl, .inr hc⟩

theorem isBlank_eq_false_of_isDigit {c : Char} (h : c.isDigit = true) : Text.isBlank c = false := by
  rw [← Bool.not_eq_true]
  intro hblank
  have hcode := Text.toNat_mem_blankCodes hblank
  simp only [Char.isDigit, Bool.and_eq_true, decide_eq_true_eq, ge_iff_le,
    UInt32.le_iff_toNat_le] at h
  simp only [Text.blankCodes, List.mem_cons, List.not_mem_nil, or_false, Char.toNat] at hcode
  have h0 : ('0' : Char).val.toNat = 48 := rfl
  have h9 : ('9' : Char).val.toNat = 57 := rfl
  omega

/-- A value begins with a character that is no blank, an array with its bracket. -/
theorem head_of_readValue? {steps depth : Nat} {s r : Text} {v : Json}
    (h : readValue? steps depth s = some (v, r)) :
    ∃ c s', skipSpace s = c :: s' ∧ Text.isBlank c = false ∧
      (∀ items, v = .array items → c = '[') := by
  cases steps with
  | zero => cases h
  | succ steps =>
    unfold readValue? at h
    split at h
    · next heq =>
      obtain ⟨_, -, hv⟩ := Option.map_eq_some_iff.1 h
      refine ⟨_, _, heq, by decide, ?_⟩
      rintro items rfl
      cases hv
    · next heq => exact ⟨_, _, heq, by decide, fun _ _ => rfl⟩
    · next heq =>
      refine ⟨_, _, heq, by decide, ?_⟩
      rintro items rfl
      split at h
      · cases h
      · cases h
      · obtain ⟨_, -, hv⟩ := Option.map_eq_some_iff.1 h
        cases hv
    · next heq => exact ⟨_, _, heq, by decide, by rintro _ rfl; cases h⟩
    · next heq => exact ⟨_, _, heq, by decide, by rintro _ rfl; cases h⟩
    · next heq => exact ⟨_, _, heq, by decide, by rintro _ rfl; cases h⟩
    · obtain ⟨⟨n, r'⟩, hn, hv⟩ := Option.map_eq_some_iff.1 h
      obtain ⟨c, s', hs, hc⟩ := head_of_readNumber? hn
      refine ⟨c, s', hs, ?_, ?_⟩
      · rcases hc with rfl | hc
        · decide
        · exact isBlank_eq_false_of_isDigit hc
      · rintro items rfl
        cases hv

theorem exists_readValue?_of_read? {s : Text} {v : Json} (h : read? s = some v) :
    ∃ steps r, readValue? steps maxDepth s = some (v, r) := by
  unfold read? readWithin? at h
  split at h
  · next w r hread =>
    split at h
    · obtain rfl := Option.some.inj h
      exact ⟨_, r, hread⟩
    · cases h
  · cases h

/-- A text that holds an array begins with its bracket, blanks aside. -/
theorem head?_trimStart_of_read? {s : Text} {items : List Json}
    (h : read? s = some (.array items)) : (Text.trimStart s).head? = some '[' := by
  obtain ⟨steps, r, hread⟩ := exists_readValue?_of_read? h
  obtain ⟨c, s', hs, hc, harray⟩ := head_of_readValue? hread
  rw [trimStart_of_skipSpace hs hc, harray items rfl, List.head?_cons]

/-- A text of blanks holds no value. -/
theorem allBlank_eq_false_of_read? {s : Text} {v : Json} (h : read? s = some v) :
    Text.allBlank s = false := by
  obtain ⟨steps, r, hread⟩ := exists_readValue?_of_read? h
  obtain ⟨c, s', hs, hc, -⟩ := head_of_readValue? hread
  have hmem : c ∈ skipSpace s := hs ▸ List.mem_cons_self
  rw [← Bool.not_eq_true, Text.allBlank, List.all_eq_true]
  intro hblank
  rw [hblank c ((List.dropWhile_sublist isSpace).subset hmem)] at hc
  cases hc

/-! ### Strings -/

theorem hexValue?_hexDigit : ∀ n < 16, hexValue? (hexDigit n) = some n := by
  decide

theorem hexNumber?_of_lt {n : Nat} (h : n < 0x20) :
    hexNumber? ['0', '0', hexDigit (n / 16), hexDigit (n % 16)] = some n := by
  have hzero : hexValue? '0' = some 0 := by decide
  have hhigh := hexValue?_hexDigit (n / 16) (by omega)
  have hlow := hexValue?_hexDigit (n % 16) (by omega)
  simp only [hexNumber?, List.foldlM_cons, List.foldlM_nil, hzero, hhigh, hlow, Option.map_some,
    Option.bind_eq_bind, Option.bind_some, Option.pure_def]
  congr 1
  omega

/-- The piece that a character of a string is written as. -/
def pieceOf (c : Char) : Piece :=
  if c.toNat < 0x20 ∧ c ∉ ['\x08', '\t', '\n', '\x0c', '\r'] then .unit c.toNat else .char c

theorem readPieces?_short {e c : Char} (he : e ≠ 'u') (h : shortEscape? e = some c) (s : Text) :
    readPieces? ('\\' :: e :: s) = (readPieces? s).map fun (pieces, r) => (.char c :: pieces, r) := by
  rw [readPieces?.eq_def]
  simp [he, h]

theorem readPieces?_unit {a b c d : Char} {n : Nat} (h : hexNumber? [a, b, c, d] = some n) (s : Text) :
    readPieces? ('\\' :: 'u' :: a :: b :: c :: d :: s) =
      (readPieces? s).map fun (pieces, r) => (.unit n :: pieces, r) := by
  rw [readPieces?.eq_def]
  simp [h]

theorem readPieces?_char {c : Char} (hquote : c ≠ '"') (hslash : c ≠ '\\') (h : ¬ c.toNat < 0x20)
    (s : Text) :
    readPieces? (c :: s) = (readPieces? s).map fun (pieces, r) => (.char c :: pieces, r) := by
  rw [readPieces?.eq_def]
  simp [hquote, hslash, h]

/-- A character that was written is read as its piece. -/
theorem readPieces?_escapeChar (c : Char) (s : Text) :
    readPieces? (escapeChar c ++ s) =
      (readPieces? s).map fun (pieces, r) => (pieceOf c :: pieces, r) := by
  have hshort {e c : Char} (he : e ≠ 'u') (h : shortEscape? e = some c) (hpiece : pieceOf c = .char c) :
      readPieces? (['\\', e] ++ s) =
        (readPieces? s).map fun (pieces, r) => (pieceOf c :: pieces, r) := by
    rw [hpiece]
    exact readPieces?_short he h s
  unfold escapeChar
  split
  · subst_vars; exact hshort (by decide) rfl rfl
  split
  · subst_vars; exact hshort (by decide) rfl rfl
  split
  · subst_vars; exact hshort (by decide) rfl rfl
  split
  · subst_vars; exact hshort (by decide) rfl rfl
  split
  · subst_vars; exact hshort (by decide) rfl rfl
  split
  · subst_vars; exact hshort (by decide) rfl rfl
  split
  · subst_vars; exact hshort (by decide) rfl rfl
  split
  · next h =>
    have hpiece : pieceOf c = .unit c.toNat := by simp_all [pieceOf]
    rw [hpiece]
    exact readPieces?_unit (hexNumber?_of_lt h) s
  · next hquote hslash _ _ _ _ _ h =>
    have hpiece : pieceOf c = .char c := by simp [pieceOf, h]
    rw [hpiece]
    exact readPieces?_char hquote hslash h s

/-- The piece of a character stands for it. -/
theorem joinPieces?_pieceOf (c : Char) (pieces : List Piece) :
    joinPieces? (pieceOf c :: pieces) = (joinPieces? pieces).map (c :: ·) := by
  unfold pieceOf
  split
  · next h =>
    have hhigh : isHighSurrogate c.toNat = false := by
      simp only [isHighSurrogate, Bool.and_eq_false_iff, decide_eq_false_iff_not]
      omega
    have hcode : charOfCode? c.toNat = some c := by
      rw [charOfCode?, if_pos (show c.toNat.isValidChar from c.valid), Char.ofNat_toNat]
    rw [joinPieces?.eq_def]
    simp only [hhigh, hcode]
    rfl
  · rfl

/-- **A string that was written is read back.** -/
theorem readString?_flatMap_escapeChar (s r : Text) :
    readString? (s.flatMap escapeChar ++ '"' :: r) = some (s, r) := by
  have hpieces : readPieces? (s.flatMap escapeChar ++ '"' :: r) = some (s.map pieceOf, r) := by
    induction s with
    | nil => rw [List.flatMap_nil, List.nil_append, readPieces?.eq_def]; rfl
    | cons c s ih => rw [List.flatMap_cons, List.append_assoc, readPieces?_escapeChar, ih]; rfl
  have hjoin : joinPieces? (s.map pieceOf) = some s := by
    clear hpieces
    induction s with
    | nil => rfl
    | cons c s ih =>
      rw [List.map_cons, joinPieces?_pieceOf, ih]
      rfl
  rw [readString?, hpieces, Option.bind_some]
  simp only [hjoin]
  rfl

/-! ### Lists of strings -/

theorem readValue?_quote (steps depth : Nat) (s r : Text) :
    readValue? (steps + 1) depth (quote s ++ r) = some (.string s, r) := by
  have hskip : skipSpace (quote s ++ r) = '"' :: (s.flatMap escapeChar ++ '"' :: r) := by
    simp [skipSpace, quote, isSpace]
  rw [readValue?, hskip]
  simp only [readString?_flatMap_escapeChar]
  rfl

/-- The items of a list of strings that was written are read back, given a step for each and one
more. -/
theorem readItems?_compactItems {s : Text} {strings : List Text} {steps : Nat}
    (h : strings.length + 1 < steps) (depth : Nat) (r : Text) :
    readItems? steps depth (compactItems ((s :: strings).map string) ++ ']' :: r) =
      some ((s :: strings).map string, r) := by
  induction strings generalizing s steps with
  | nil =>
    obtain ⟨steps, rfl⟩ : ∃ n, steps = n + 2 := ⟨steps - 2, by simp at h; omega⟩
    rw [readItems?]
    simp only [List.map_cons, List.map_nil, compactItems, compact, readValue?_quote,
      Option.bind_some]
    rfl
  | cons t strings ih =>
    obtain ⟨steps, rfl⟩ : ∃ n, steps = n + 2 := ⟨steps - 2, by simp at h; omega⟩
    have hsteps : strings.length + 1 < steps + 1 := by simpa using h
    have hrest := ih (s := t) hsteps
    have hskip : skipSpace (',' :: (compactItems ((t :: strings).map string) ++ ']' :: r)) =
        ',' :: (compactItems ((t :: strings).map string) ++ ']' :: r) := by
      simp [skipSpace, isSpace]
    rw [readItems?]
    rw [List.map_cons, List.map_cons, compactItems, ← List.map_cons, compact, List.append_assoc,
      readValue?_quote, Option.bind_some, List.cons_append]
    simp only [hskip, hrest]
    rfl

/-- A list of strings is written in more characters than it takes steps to read. -/
theorem length_lt_compact (strings : List Text) :
    strings.length < (compact (.array (strings.map string))).length := by
  have hitems : strings.length ≤ (compactItems (strings.map string)).length := by
    induction strings with
    | nil => exact Nat.zero_le _
    | cons s strings ih =>
      cases strings with
      | nil => simp [compactItems, compact, quote]
      | cons t strings =>
        rw [List.map_cons, List.map_cons, compactItems, ← List.map_cons, List.length_append]
        simp only [List.length_cons] at ih ⊢
        omega
  rw [compact, List.length_cons, List.length_append]
  omega

/-- **A list of strings that was written is read back.** -/
theorem read?_compact_strings (strings : List Text) :
    read? (compact (.array (strings.map string))) = some (.array (strings.map string)) := by
  have hread {steps : Nat} (h : strings.length < steps) : readValue? (steps + 1) maxDepth
      (compact (.array (strings.map string))) = some (.array (strings.map string), []) := by
    have hopen (r : Text) : skipSpace ('[' :: r) = '[' :: r := by simp [skipSpace, isSpace]
    cases strings with
    | nil => rw [List.map_nil, compact, readValue?, hopen]; rfl
    | cons s strings =>
      have hitems := readItems?_compactItems (s := s) h 126 []
      obtain ⟨r, hr⟩ : ∃ r, compactItems ((s :: strings).map string) ++ [']'] = '"' :: r := by
        cases strings <;> exact ⟨_, rfl⟩
      have hquote : skipSpace ('"' :: r) = '"' :: r := by simp [skipSpace, isSpace]
      rw [compact, readValue?, hopen]
      simp only [maxDepth, hr, hquote] at hitems ⊢
      split
      · next heq => omega
      · next heq => cases heq
      · next depth heq _ =>
        obtain rfl : depth = 126 := by omega
        rw [hitems]
        rfl
  have hlength := length_lt_compact strings
  rw [read?, readWithin?, hread (by omega)]
  rfl

end MaskedViews.Json
