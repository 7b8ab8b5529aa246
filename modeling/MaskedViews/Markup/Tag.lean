import MaskedViews.Text.Blank

/-!
# Start tags

A start tag is read into the parts that it is written with, so a tag read from a text is the text
it was read from (`eq_of_read?`), and every position inside it is the length of what stands before.

The reader asks for no more than template markup needs. A tag is `<`, a name that begins with an
ASCII letter, and attributes up to `>` or `/>`. An attribute is a name with or without a value;
a value stands in quotes or runs to the next blank or `>`. Stray slashes between attributes are
passed over. A quote that is not closed, or a text that ends inside the tag, makes it no tag.
-/

namespace MaskedViews

/-! ### Attributes -/

/-- How the value of an attribute is delimited. -/
inductive Quoting where
  /-- No quotes. -/
  | bare
  /-- The same quote on both sides. -/
  | quoted (quote : Char)
  deriving DecidableEq, Repr

/-- The mark on either side of a value. -/
def Quoting.mark : Quoting → Text
  | .bare => []
  | .quoted quote => [quote]

/-- A value as it is assigned to an attribute. -/
structure Assignment where
  /-- The blanks before `=`. -/
  before : Text
  /-- The blanks after `=`. -/
  after : Text
  /-- How the value is delimited. -/
  quoting : Quoting
  /-- The value. -/
  value : Text
  deriving DecidableEq, Repr

/-- An attribute as it is written. -/
structure Attribute where
  /-- The blanks and stray slashes before the name. -/
  lead : Text
  /-- The name in its own letters. -/
  written : Text
  /-- The value, if one is assigned. -/
  assigned : Option Assignment
  deriving DecidableEq, Repr

/-- What stands before the value of an assignment. -/
def Assignment.head (a : Assignment) : Text := a.before ++ '=' :: (a.after ++ a.quoting.mark)

/-- The text of an assignment. -/
def Assignment.source (a : Assignment) : Text := a.head ++ (a.value ++ a.quoting.mark)

namespace Attribute

/-- The name in small letters. -/
def name (a : Attribute) : Text := Text.lower a.written

/-- The value, if one is assigned. -/
def value (a : Attribute) : Option Text := a.assigned.map Assignment.value

/-- The text of an attribute. -/
def source (a : Attribute) : Text :=
  a.lead ++ (a.written ++ (a.assigned.map Assignment.source).getD [])

/-- The bytes from the beginning of an attribute to its value, if it has one. -/
def valueOffset (a : Attribute) : Option Nat :=
  a.assigned.map fun v => Text.byteLength (a.lead ++ (a.written ++ v.head))

end Attribute

/-! ### Tags -/

/-- A start tag as it is written. -/
structure StartTag where
  /-- The name in its own letters. -/
  written : Text
  /-- The attributes in order. -/
  attributes : List Attribute
  /-- The blanks and stray slashes before the end. -/
  trail : Text
  /-- Whether the tag ends in `/>`. -/
  selfClosing : Bool
  deriving DecidableEq, Repr

namespace StartTag

/-- The name in small letters. -/
def name (t : StartTag) : Text := Text.lower t.written

/-- The end of the tag. -/
def ending (t : StartTag) : Text := if t.selfClosing then ['/', '>'] else ['>']

/-- The text of a tag. -/
def source (t : StartTag) : Text :=
  '<' :: (t.written ++ (t.attributes.flatMap Attribute.source ++ (t.trail ++ t.ending)))

/-- The names of the elements that never have an end tag. -/
def voidNames : List Text :=
  ["area", "base", "br", "col", "embed", "hr", "img", "input", "link", "meta", "source", "track",
    "wbr"].map String.toList

/-- Whether the element ends with its start tag. -/
def isVoid (t : StartTag) : Bool := t.selfClosing || voidNames.contains t.name

/-- The first attribute of a name. -/
def find? (t : StartTag) (name : Text) : Option Attribute :=
  t.attributes.find? fun a => a.name = name

/-- The value of the first attribute of a name; empty if it has none. -/
def value? (t : StartTag) (name : Text) : Option Text :=
  (t.find? name).map fun a => a.value.getD []

/-- Whether an attribute of a name is there. -/
def hasAttribute (t : StartTag) (name : Text) : Bool := t.attributes.any fun a => a.name = name

/-- Whether a class is in the list of classes. -/
def hasClass (t : StartTag) (className : Text) : Bool :=
  match t.value? "class".toList with
  | some classes => (Text.words classes).contains className
  | none => false

theorem hasAttribute_iff {t : StartTag} {name : Text} :
    t.hasAttribute name = true ↔ ∃ a ∈ t.attributes, a.name = name := by
  simp [hasAttribute]

/-! ### Reading -/

/-- The characters of a tag name. -/
def isNameChar (c : Char) : Bool := c.isAlphanum || c = '-'

/-- The characters of an attribute name. -/
def isAttributeChar (c : Char) : Bool :=
  !Text.isAsciiBlank c && c ≠ '=' && c ≠ '>' && c ≠ '/'

/-- The characters of a value without quotes. -/
def isBareChar (c : Char) : Bool := !Text.isAsciiBlank c && c ≠ '>'

/-- Whether a character can stand after a tag name. -/
def endsName (c : Char) : Bool := Text.isAsciiBlank c || c = '>' || c = '/'

/-- The blanks and stray slashes that a text begins with, and what follows; the slash of `/>` is
no stray one. -/
def splitLead : Text → Text × Text
  | [] => ([], [])
  | c :: s =>
    if Text.isAsciiBlank c || (c = '/' && s.head? ≠ some '>') then
      let split := splitLead s
      (c :: split.1, split.2)
    else ([], c :: s)

@[simp] theorem splitLead_append (s : Text) : (splitLead s).1 ++ (splitLead s).2 = s := by
  induction s with
  | nil => rfl
  | cons c s ih =>
    unfold splitLead
    split
    · simpa using ih
    · rfl

theorem length_splitLead (s : Text) : (splitLead s).2.length ≤ s.length := by
  have := congrArg List.length (splitLead_append s)
  rw [List.length_append] at this
  omega

/-- Reads the value after `=`, the blanks before it passed. -/
def readValue? : Text → Option (Quoting × Text × Text)
  | [] => none
  | c :: s =>
    if c = '"' ∨ c = '\'' then
      (Text.cut? [c] s).map fun (value, r) => (.quoted c, value, r)
    else some (.bare, (c :: s).takeWhile isBareChar, (c :: s).dropWhile isBareChar)

theorem eq_of_readValue? {s value r : Text} {q : Quoting} (h : readValue? s = some (q, value, r)) :
    s = q.mark ++ (value ++ (q.mark ++ r)) := by
  unfold readValue? at h
  split at h
  · cases h
  · next c s =>
    split at h
    · obtain ⟨⟨v, r'⟩, hv, h⟩ := Option.map_eq_some_iff.1 h
      simp only [Prod.mk.injEq] at h
      obtain ⟨rfl, rfl, rfl⟩ := h
      simp [Quoting.mark, Text.eq_of_cut? hv]
    · simp only [Option.some.injEq, Prod.mk.injEq] at h
      obtain ⟨rfl, rfl, rfl⟩ := h
      simp [Quoting.mark, List.takeWhile_append_dropWhile]

/-- Reads an attribute whose lead has been passed. It has a name or an `=`. -/
def readAttribute? (lead s : Text) : Option (Attribute × Text) :=
  let written := s.takeWhile isAttributeChar
  let r := s.dropWhile isAttributeChar
  match r.dropWhile Text.isAsciiBlank with
  | '=' :: afterEquals =>
    (readValue? (afterEquals.dropWhile Text.isAsciiBlank)).map fun (quoting, value, r') =>
      (⟨lead, written, some ⟨r.takeWhile Text.isAsciiBlank,
        afterEquals.takeWhile Text.isAsciiBlank, quoting, value⟩⟩, r')
  | _ => if written = [] then none else some (⟨lead, written, none⟩, r)

/-- An attribute is the text that it was read from, and there is some. -/
theorem eq_of_readAttribute? {lead s r : Text} {a : Attribute}
    (h : readAttribute? lead s = some (a, r)) :
    lead ++ s = a.source ++ r ∧ r.length < s.length := by
  have hs := List.takeWhile_append_dropWhile (p := isAttributeChar) (l := s)
  unfold readAttribute? at h
  dsimp only at h
  split at h
  · next afterEquals he =>
    obtain ⟨⟨q, value, r'⟩, hv, h⟩ := Option.map_eq_some_iff.1 h
    simp only [Prod.mk.injEq] at h
    obtain ⟨rfl, rfl⟩ := h
    have h1 := List.takeWhile_append_dropWhile (p := Text.isAsciiBlank)
      (l := s.dropWhile isAttributeChar)
    have h2 := List.takeWhile_append_dropWhile (p := Text.isAsciiBlank) (l := afterEquals)
    rw [eq_of_readValue? hv] at h2
    rw [he, ← h2] at h1
    rw [← h1] at hs
    constructor
    · conv => lhs; rw [← hs]
      simp [Attribute.source, Assignment.source, Assignment.head]
    · have := congrArg List.length hs
      simp only [List.length_append, List.length_cons] at this
      omega
  · split at h
    · cases h
    · next hw =>
      simp only [Option.some.injEq, Prod.mk.injEq] at h
      obtain ⟨rfl, rfl⟩ := h
      constructor
      · simp [Attribute.source, hs]
      · have := congrArg List.length hs
        have := List.length_pos_iff.2 hw
        simp only [List.length_append] at *
        omega

/-- What the attributes of a tag leave over: the trail, whether the tag closes itself, and the
text after the tag. -/
abbrev Ending := Text × Bool × Text

/-- Reads attributes up to the end of the tag. -/
def readAttributes? (s : Text) : Option (List Attribute × Ending) :=
  match _e : splitLead s with
  | (_, []) => none
  | (lead, '>' :: r) => some ([], lead, false, r)
  | (lead, '/' :: '>' :: r) => some ([], lead, true, r)
  | (lead, rest) =>
    match _h : readAttribute? lead rest with
    | none => none
    | some (a, r) => (readAttributes? r).map fun (attributes, e) => (a :: attributes, e)
termination_by s.length
decreasing_by
  have := (eq_of_readAttribute? _h).2
  have := length_splitLead s
  simp only [_e] at this
  omega

/-- The attributes and the ending are the text that they were read from. -/
theorem eq_of_readAttributes? {s trail r : Text} {attributes : List Attribute} {closing : Bool}
    (h : readAttributes? s = some (attributes, trail, closing, r)) :
    s = attributes.flatMap Attribute.source ++
      (trail ++ ((if closing then ['/', '>'] else ['>']) ++ r)) := by
  fun_induction readAttributes? s generalizing attributes with
  | case1 s => cases h
  | case2 s lead r' he =>
    simp only [Option.some.injEq, Prod.mk.injEq] at h
    obtain ⟨rfl, rfl, rfl, rfl⟩ := h
    simpa [he] using (splitLead_append s).symm
  | case3 s lead r' he =>
    simp only [Option.some.injEq, Prod.mk.injEq] at h
    obtain ⟨rfl, rfl, rfl, rfl⟩ := h
    simpa [he] using (splitLead_append s).symm
  | case4 s => cases h
  | case5 s lead rest _ _ _ he a r' ha ih =>
    obtain ⟨⟨as, e⟩, hr, h⟩ := Option.map_eq_some_iff.1 h
    simp only [Prod.mk.injEq] at h
    obtain ⟨rfl, rfl⟩ := h
    have hs := splitLead_append s
    rw [he] at hs
    rw [← hs, (eq_of_readAttribute? ha).1, ih hr]
    simp

/-- Reads a start tag off the front of a text. -/
def read? : Text → Option (StartTag × Text)
  | '<' :: s =>
    let written := s.takeWhile isNameChar
    let r := s.dropWhile isNameChar
    if (s.head?.any Char.isAlpha) && r.head?.any endsName then
      (readAttributes? r).map fun (attributes, trail, closing, r) =>
        (⟨written, attributes, trail, closing⟩, r)
    else none
  | _ => none

/-- A tag is the text that it was read from. -/
theorem eq_of_read? {s r : Text} {t : StartTag} (h : read? s = some (t, r)) :
    s = t.source ++ r := by
  unfold read? at h
  split at h
  · next s =>
    dsimp only at h
    split at h
    · obtain ⟨⟨attributes, trail, closing, r'⟩, hr, h⟩ := Option.map_eq_some_iff.1 h
      simp only [Prod.mk.injEq] at h
      obtain ⟨rfl, rfl⟩ := h
      have hs := List.takeWhile_append_dropWhile (p := isNameChar) (l := s)
      rw [eq_of_readAttributes? hr] at hs
      conv => lhs; rw [← hs]
      simp [source, ending]
    · cases h
  · cases h

/-- What follows a tag is shorter than the text that begins with it. -/
theorem length_of_read? {s r : Text} {t : StartTag} (h : read? s = some (t, r)) :
    r.length < s.length := by
  rw [eq_of_read? h, source, List.cons_append, List.length_cons, List.length_append]
  omega

/-! ### Positions -/

/-- The bytes from `start` to each value and to its end, for attributes that begin at `start`. -/
def valueSpansFrom (start : Nat) : List Attribute → List (Option (Nat × Nat))
  | [] => []
  | a :: attributes =>
    (a.valueOffset.map fun offset =>
      (start + offset, start + offset + Text.byteLength (a.value.getD []))) ::
      valueSpansFrom (start + Text.byteLength a.source) attributes

/-- The spans of the attribute values of a tag that begins at `start`, in bytes. -/
def valueSpans (t : StartTag) (start : Nat) : List (Option (Nat × Nat)) :=
  valueSpansFrom (start + Text.byteLength ('<' :: t.written)) t.attributes

end StartTag

end MaskedViews
