import MaskedViews.Yaml.Cursor

/-!
# Block scalars

A block scalar is written on the lines below a `|` or a `>`, indented more than the block that it
is in. After `|` every line is kept as it is; after `>` a single line feed between two lines that do
not begin with a blank becomes a space. The break behind the last line is kept once, with `-` not at
all and with `+` together with the breaks of the empty lines after it.

The column of the lines is given by a digit behind the mark, or else by the first line that is not
just spaces. A line of spaces that goes beyond the column is a line with content, and so is one at
the end of the text that no break follows.
-/

namespace MaskedViews.Yaml

/-! ### The line of the mark -/

/-- What becomes of the breaks at the end. -/
inductive Chomping where
  /-- They go. -/
  | strip
  /-- One stays. -/
  | clip
  /-- All stay. -/
  | keep
  deriving DecidableEq, Repr

/-- What stands on the line of the mark. -/
structure BlockHeader where
  /-- What becomes of the breaks at the end. -/
  chomping : Chomping
  /-- How much further the lines are indented than the block, if it is said. -/
  increment : Option Nat

/-- The chomping of an indicator. -/
def chomping? : Char → Option Chomping
  | '-' => some .strip
  | '+' => some .keep
  | _ => none

/-- The increment of an indicator. -/
def increment? (c : Char) : Option Nat :=
  if '1' ≤ c ∧ c ≤ '9' then some (c.toNat - '0'.toNat) else none

/-- Reads the line behind a mark: a chomping and an increment in either order, and a comment. -/
def readHeader? (line : Text) : Option BlockHeader :=
  let word := line.takeWhile fun c => !isInlineBlank c && c ≠ '#'
  let r := (line.dropWhile fun c => !isInlineBlank c && c ≠ '#').dropWhile isInlineBlank
  if r ≠ [] ∧ r.head? ≠ some '#' then none
  else
    match word with
    | [] => some ⟨.clip, none⟩
    | [c] =>
      match chomping? c with
      | some chomping => some ⟨chomping, none⟩
      | none => (increment? c).map fun n => ⟨.clip, some n⟩
    | [c, d] =>
      match chomping? c, chomping? d with
      | some chomping, none => (increment? d).map fun n => ⟨chomping, some n⟩
      | none, some chomping => (increment? c).map fun n => ⟨chomping, some n⟩
      | _, _ => none
    | _ => none

/-! ### Lines -/

/-- A line of a text. -/
structure Line where
  /-- What stands on the line. -/
  content : Text
  /-- The break that ends it; none at the end of the text. -/
  ending : Text

/-- The text of a line. -/
def Line.source (line : Line) : Text := line.content ++ line.ending

/-- The lines of a text; the last one has no break. -/
def lines : Text → List Line
  | [] => [⟨[], []⟩]
  | c :: s =>
    if isBreak c then ⟨[], [c]⟩ :: lines s
    else
      match lines s with
      | [] => [⟨[c], []⟩]
      | line :: rest => { line with content := c :: line.content } :: rest

/-- The lines make up the text. -/
theorem source_lines (s : Text) : (lines s).flatMap Line.source = s := by
  induction s with
  | nil => rfl
  | cons c s ih =>
    simp only [lines]
    split
    · simp [Line.source, ih]
    · split
      · next h => simp [h] at ih; simp [Line.source, ← ih]
      · next line rest h =>
        rw [h] at ih
        simpa [Line.source] using ih

/-- The number of spaces that a line begins with. -/
def spaces (line : Text) : Nat := (line.takeWhile (· = ' ')).length

/-- Whether a line has nothing but spaces. -/
def isEmptyLine (line : Text) : Bool := line.all (· = ' ')

/-- The column of the lines, if it is not said: that of the first line that is not empty, or of a
longer empty line before it, and at least the column `least`. A tab may not stand where the column
would be found. -/
def autoIndent? (least : Nat) (ls : List Line) : Option Nat :=
  let empties := ls.takeWhile fun line => isEmptyLine line.content
  let first := ((ls.drop empties.length).head?.map Line.content).getD []
  if (first.drop (spaces first)).head? = some '\t' then none
  else some ((empties.map fun line => spaces line.content).foldl max (max (spaces first) least))

/-- A line of a block scalar. -/
inductive BlockLine where
  /-- A line without content, by its break. -/
  | empty (ending : Text)
  /-- A line with its content and its break. -/
  | content (s ending : Text)

/-- Reads the lines of a block scalar at the column `indent`, and gives back the text after them,
spaces left of the column passed. A tab left of the column makes the scalar unreadable. -/
def blockLines? (indent : Nat) : List Line → Option (List BlockLine × Text)
  | [] => some ([], [])
  | line :: ls =>
    let n := min (spaces line.content) indent
    match line.content.drop n with
    | [] =>
      if line.ending = [] then some ([], [])
      else (blockLines? indent ls).map fun (found, r) => (.empty line.ending :: found, r)
    | c :: s =>
      if n < indent then
        if c = '\t' then none else some ([], c :: (s ++ (line.ending ++ ls.flatMap Line.source)))
      else
        (blockLines? indent ls).map fun (found, r) => (.content (c :: s) line.ending :: found, r)

/-! ### Text -/

/-- What the last line of content has left behind. -/
structure BlockState where
  /-- Its break. -/
  ending : Text
  /-- Whether it began with a blank. -/
  blank : Bool
  /-- The breaks of the empty lines since. -/
  breaks : Text

/-- What stands between two lines of content in place of the break of the first one. -/
def BlockState.joint (st : BlockState) (folded blank : Bool) : Text :=
  if folded ∧ st.ending = ['\n'] ∧ !st.blank ∧ !blank then
    if st.breaks = [] then [' '] else []
  else st.ending

/-- The text of lines after a state. -/
def blockText (folded : Bool) (chomping : Chomping) (st : BlockState) : List BlockLine → Text
  | [] =>
    match chomping with
    | .strip => []
    | .clip => st.ending
    | .keep => st.ending ++ st.breaks
  | .empty ending :: ls =>
    blockText folded chomping { st with breaks := st.breaks ++ ending } ls
  | .content s ending :: ls =>
    let blank := s.head?.any isInlineBlank
    st.joint folded blank ++
      (st.breaks ++ (s ++ blockText folded chomping ⟨ending, blank, []⟩ ls))

/-- Reads a block scalar at its mark, in a block at the column `parent`, or in none. -/
def readBlock? (parent : Option Nat) (cur : Cursor) : Option (Text × Cursor) :=
  let s := cur.rest.drop 1
  (readHeader? (s.takeWhile fun c => !isBreak c)).bind fun header =>
    let ls := lines ((s.dropWhile fun c => !isBreak c).drop 1)
    let indent? :=
      match header.increment with
      | some n => some (parent.getD 0 + n)
      | none => autoIndent? (max 1 ((parent.map (· + 1)).getD 0)) ls
    indent?.bind fun indent =>
      (blockLines? indent ls).map fun (found, r) =>
        (blockText (cur.rest.head? = some '>') header.chomping ⟨[], false, []⟩ found, cur.moveTo r)

end MaskedViews.Yaml
