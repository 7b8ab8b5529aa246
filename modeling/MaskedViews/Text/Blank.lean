import MaskedViews.Text.Basic

/-!
# Blanks

Two classes of blank characters are in use. Between the words of a text, around the parts of a
template tag and in whitespace normalization a blank is a character with the Unicode property
White_Space. Inside the start tag of an element it is one of the five ASCII blanks.
-/

namespace MaskedViews.Text

/-- The characters with the Unicode property White_Space. -/
def isBlank (c : Char) : Bool :=
  c = ' ' || ('\t' ≤ c && c ≤ '\r') || c = '\u0085' || c = '\u00a0' || c = '\u1680'
    || ('\u2000' ≤ c && c ≤ '\u200a') || c = '\u2028' || c = '\u2029' || c = '\u202f'
    || c = '\u205f' || c = '\u3000'

/-- The blanks of a start tag: space, tab, line feed, form feed and carriage return. -/
def isAsciiBlank (c : Char) : Bool :=
  c = ' ' || c = '\t' || c = '\n' || c = '\x0c' || c = '\r'

theorem isBlank_of_isAsciiBlank {c : Char} (h : isAsciiBlank c = true) : isBlank c = true := by
  simp only [isAsciiBlank, Bool.or_eq_true, decide_eq_true_eq] at h
  rcases h with (((rfl | rfl) | rfl) | rfl) | rfl <;> decide

/-- The text without its leading blanks. -/
def trimStart (s : Text) : Text := s.dropWhile isBlank

/-- The text without its trailing blanks. -/
def trimEnd (s : Text) : Text := dropEndWhile isBlank s

/-- The text without the blanks at either end. -/
def trim (s : Text) : Text := trimEnd (trimStart s)

/-- Whether a text holds nothing but blanks. -/
def allBlank (s : Text) : Bool := s.all isBlank

/-- The words of a text: its longest stretches without a blank. -/
def words (s : Text) : List Text := (s.splitOnP isBlank).filter (· ≠ [])

theorem ne_nil_of_mem_words {s w : Text} (h : w ∈ words s) : w ≠ [] := by
  simpa using (List.mem_filter.1 h).2

end MaskedViews.Text
