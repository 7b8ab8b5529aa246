import MaskedViews.Markup.Tag

/-!
# Changing a start tag

A start tag can be given further flags, which are attributes without a value, or one more class.
Both work on the tag as it is written: what is there keeps its letters and its place.

Flags and a new class attribute go to the end of the tag, in front of its `>` or `/>`, with the
blanks that stood there taken out. A slash right before `>` counts as part of the end even where it
belongs to a value without quotes.
-/

namespace MaskedViews.StartTag

/-- A tag up to its end, and the end: `/>` or `>`. -/
def splitEnding (source : Text) : Text × Text :=
  let s := Text.dropEndWhile (· = '>') source
  if s.getLast? = some '/' then (Text.trimEnd s.dropLast, ['/', '>']) else (Text.trimEnd s, ['>'])

/-- A tag with more text in front of its end. -/
def extended (t : StartTag) (added : Text) : Text :=
  (splitEnding t.source).1 ++ (added ++ (splitEnding t.source).2)

/-- The tag with the flags that it does not have yet. -/
def withFlags (t : StartTag) (flags : List Text) : Text :=
  t.extended ((flags.filter fun flag => !t.hasAttribute flag).flatMap fun flag => ' ' :: flag)

/-- A value with one more word. -/
def addWord (word value : Text) : Text :=
  if value = [] then word else value ++ ' ' :: word

/-- An attribute with one more word in its value, if it has one. -/
def withWord (word : Text) (a : Attribute) : Attribute :=
  { a with assigned := a.assigned.map fun v => { v with value := addWord word v.value } }

/-- Adds a class to the value of the first class attribute, if it has one. -/
def addToClasses (className : Text) : List Attribute → List Attribute
  | [] => []
  | a :: attributes =>
    if a.name = "class".toList then withWord className a :: attributes
    else a :: addToClasses className attributes

/-- Whether the first class attribute has a value. -/
def hasClassValue (t : StartTag) : Bool :=
  ((t.find? "class".toList).bind Attribute.value).isSome

/-- The tag with one more class: in its class attribute if that has a value, else in a new one. -/
def withClass (t : StartTag) (className : Text) : Text :=
  if t.hasClass className then t.source
  else if t.hasClassValue then
    source { t with attributes := addToClasses className t.attributes }
  else t.extended (" class=\"".toList ++ (className ++ ['"']))

/-- A tag that has the class stays as it is. -/
theorem withClass_of_hasClass {t : StartTag} {className : Text}
    (h : t.hasClass className = true) : t.withClass className = t.source := by
  simp [withClass, h]

end MaskedViews.StartTag
