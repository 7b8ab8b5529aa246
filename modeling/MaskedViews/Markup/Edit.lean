import MaskedViews.Markup.Scan

/-!
# Editing elements

An editor visits the elements of given names in document order and keeps each, removes it with its
content and its end tag, or puts another text in place of its start tag. The content of a kept
element is visited too, that of a removed one is not. An element whose end tag cannot be found is
left alone.

`edits` lists what happens to a document stretch by stretch. Their texts before are the document
(`before_edits`), their texts after are its edited form, and the visits among them are what the
editor was asked.
-/

namespace MaskedViews

namespace Markup

/-- What to do with an element. -/
inductive Edit where
  /-- Leave the start tag as it is. -/
  | keep
  /-- Take out the whole element. -/
  | remove
  /-- Put another text in place of the start tag. -/
  | replaceTag (written : Text)
  deriving DecidableEq, Repr

/-- An element as an editor sees it: its start tag and the text inside it. -/
structure Visit where
  /-- The start tag. -/
  tag : StartTag
  /-- The text between the start tag and the end tag. -/
  inner : Text

/-- A stretch of a document and what becomes of it. -/
structure Stretch where
  /-- The text that is there. -/
  before : Text
  /-- The text that takes its place. -/
  after : Text
  /-- The visit that decided so, if there was one. -/
  visit : Option Visit

/-- A stretch that stays, undecided by any visit. -/
def Stretch.same (s : Text) : Stretch := ⟨s, s, none⟩

/-- The content of the element that a start tag begins, and what follows the element. -/
def extent? (t : StartTag) (r : Text) : Option (Text × Text) :=
  if t.isVoid then some ([], r) else splitElement? t.name r

theorem length_of_extent? {t : StartTag} {r inner after : Text}
    (h : extent? t r = some (inner, after)) : after.length ≤ r.length := by
  unfold extent? at h
  split at h
  · simp_all
  · exact Nat.le_of_lt (length_of_splitElement? h)

/-- What follows an element is the end of what follows its start tag. -/
theorem eq_of_extent? {t : StartTag} {r inner after : Text}
    (h : extent? t r = some (inner, after)) : ∃ ending, r = inner ++ (ending ++ after) := by
  unfold extent? at h
  split at h
  · simp only [Option.some.injEq, Prod.mk.injEq] at h
    exact ⟨[], by simp [← h.1, h.2]⟩
  · obtain ⟨⟨x, rest⟩, hc, h⟩ := Option.bind_eq_some_iff.1 h
    obtain ⟨r', hr, h⟩ := Option.map_eq_some_iff.1 h
    simp only [Prod.mk.injEq] at h
    obtain ⟨rfl, rfl⟩ := h
    obtain ⟨written, blanks, _, rfl⟩ := eq_of_afterEndTag? hr
    exact ⟨'<' :: '/' :: (written ++ (blanks ++ ['>'])), by rw [(eq_of_close? hc).1]; simp⟩

/-- The stretches of a document under an editor of the elements with given names. -/
def edits (names : List Text) (decide : Visit → Edit) (s : Text) : List Stretch :=
  match _h : firstTag? s with
  | none => [.same s]
  | some (before, t, r) =>
    if names.contains t.name then
      match _he : extent? t r with
      | none => .same before :: .same t.source :: edits names decide r
      | some (inner, after) =>
        match decide ⟨t, inner⟩ with
        | .keep => .same before :: ⟨t.source, t.source, some ⟨t, inner⟩⟩ :: edits names decide r
        | .remove =>
          .same before :: ⟨t.source ++ passed r after, [], some ⟨t, inner⟩⟩ ::
            edits names decide after
        | .replaceTag written =>
          .same before :: ⟨t.source, written, some ⟨t, inner⟩⟩ :: edits names decide r
    else .same before :: .same t.source :: edits names decide r
termination_by s.length
decreasing_by
  all_goals have := length_of_firstTag? _h
  · exact this
  · exact this
  · have := length_of_extent? _he
    omega
  · exact this
  · exact this

/-- The document after all edits. -/
def editElements (names : List Text) (decide : Visit → Edit) (html : Text) : Text :=
  (edits names decide html).flatMap Stretch.after

/-- The elements that an editor is asked about, in order. -/
def visits (names : List Text) (decide : Visit → Edit) (html : Text) : List Visit :=
  (edits names decide html).filterMap Stretch.visit

/-- The stretches make up the document. -/
theorem before_edits (names : List Text) (decide : Visit → Edit) (s : Text) :
    (edits names decide s).flatMap Stretch.before = s := by
  fun_induction edits names decide s with
  | case1 s h => simp [Stretch.same]
  | case2 s before t r h hn he ih =>
    simp [Stretch.same, ih, eq_of_firstTag? h]
  | case3 s before t r h hn inner after he hd ih =>
    simp [Stretch.same, ih, eq_of_firstTag? h]
  | case4 s before t r h hn inner after he hd ih =>
    obtain ⟨ending, hr⟩ := eq_of_extent? he
    rw [eq_of_firstTag? h]
    rw [← List.append_assoc] at hr
    have := passed_append (inner ++ ending) after
    rw [← hr] at this
    simp only [List.flatMap_cons, Stretch.same, ih, this, List.append_assoc]
    rw [hr, List.append_assoc]
  | case5 s before t r h hn inner after he written hd ih =>
    simp [Stretch.same, ih, eq_of_firstTag? h]
  | case6 s before t r h hn ih =>
    simp [Stretch.same, ih, eq_of_firstTag? h]

end Markup

end MaskedViews
