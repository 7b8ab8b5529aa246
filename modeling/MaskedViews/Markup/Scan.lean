import MaskedViews.Markup.Tag

/-!
# Finding tags

Start tags are found from left to right: comments are passed over whole, a comment that does not
end hides the rest, and a `<` that begins no tag is text. The end tag of an element is found by
counting the elements of the same name that are opened on the way.

Each search gives the text that it passed, the tag and the text that is left, and the three make
up the text searched (`eq_of_firstTag?`, `eq_of_close?`).
-/

namespace MaskedViews

namespace Markup

/-- What a comment begins with. -/
def commentOpen : Text := ['<', '!', '-', '-']

/-- What a comment ends with. -/
def commentClose : Text := ['-', '-', '>']

/-- What follows the opening of a comment that a text begins with. -/
def afterCommentOpen? (s : Text) : Option Text := Text.rest? commentOpen s

/-! ### Start tags -/

/-- The first start tag of a text, with the text before it and what follows it. -/
def firstTag? (s : Text) : Option (Text × StartTag × Text) :=
  match s with
  | [] => none
  | c :: s' =>
    match _h : afterCommentOpen? (c :: s') with
    | some inside =>
      match _hc : Text.cut? commentClose inside with
      | none => none
      | some (comment, r) =>
        (firstTag? r).map fun (before, t, r) =>
          (commentOpen ++ (comment ++ (commentClose ++ before)), t, r)
    | none =>
      match StartTag.read? (c :: s') with
      | some (t, r) => some ([], t, r)
      | none => (firstTag? s').map fun (before, t, r) => (c :: before, t, r)
termination_by s.length
decreasing_by
  · have := congrArg List.length (Text.rest?_eq_some_iff.1 _h)
    have := Text.length_of_cut? _hc
    simp only [List.length_append, List.length_cons, commentOpen, commentClose,
      List.length_nil] at *
    omega
  · simp

/-- The first start tag is read where it stands. -/
theorem exists_read?_of_firstTag? {s before r : Text} {t : StartTag}
    (h : firstTag? s = some (before, t, r)) :
    ∃ x, s = before ++ x ∧ StartTag.read? x = some (t, r) := by
  fun_induction firstTag? s generalizing before with
  | case1 => cases h
  | case2 c s' inside hi hc => cases h
  | case3 c s' inside hi comment r' hc ih =>
    obtain ⟨⟨b, t', r''⟩, hr, h⟩ := Option.map_eq_some_iff.1 h
    simp only [Prod.mk.injEq] at h
    obtain ⟨rfl, rfl, rfl⟩ := h
    obtain ⟨x, hx, ht⟩ := ih hr
    refine ⟨x, ?_, ht⟩
    rw [Text.rest?_eq_some_iff.1 hi, Text.eq_of_cut? hc, hx]
    simp
  | case4 c s' hn t' r' ht =>
    simp only [Option.some.injEq, Prod.mk.injEq] at h
    obtain ⟨rfl, rfl, rfl⟩ := h
    exact ⟨c :: s', rfl, ht⟩
  | case5 c s' hn ht ih =>
    obtain ⟨⟨b, t', r''⟩, hr, h⟩ := Option.map_eq_some_iff.1 h
    simp only [Prod.mk.injEq] at h
    obtain ⟨rfl, rfl, rfl⟩ := h
    obtain ⟨x, hx, ht⟩ := ih hr
    exact ⟨x, by rw [hx, List.cons_append], ht⟩

/-- A search for a tag loses nothing. -/
theorem eq_of_firstTag? {s before r : Text} {t : StartTag}
    (h : firstTag? s = some (before, t, r)) : s = before ++ (t.source ++ r) := by
  obtain ⟨x, rfl, ht⟩ := exists_read?_of_firstTag? h
  rw [StartTag.eq_of_read? ht]

/-- What follows the first tag is shorter than the text. -/
theorem length_of_firstTag? {s before r : Text} {t : StartTag}
    (h : firstTag? s = some (before, t, r)) : r.length < s.length := by
  rw [eq_of_firstTag? h, StartTag.source]
  simp only [List.length_append, List.length_cons]
  omega

/-- A start tag and the byte at which it begins. -/
structure PlacedTag where
  /-- The offset of the `<`. -/
  start : Nat
  /-- The tag. -/
  tag : StartTag

namespace PlacedTag

/-- The offset just past the `>`. -/
def stop (p : PlacedTag) : Nat := p.start + Text.byteLength p.tag.source

/-- The offsets of the attribute values. -/
def valueSpans (p : PlacedTag) : List (Option (Nat × Nat)) := p.tag.valueSpans p.start

end PlacedTag

/-- The start tags of a text that begins at the byte `start`. -/
def tagsFrom (start : Nat) (s : Text) : List PlacedTag :=
  match _h : firstTag? s with
  | none => []
  | some (before, t, r) =>
    let p : PlacedTag := ⟨start + Text.byteLength before, t⟩
    p :: tagsFrom p.stop r
termination_by s.length
decreasing_by exact length_of_firstTag? _h

/-- Every start tag of a document with its place, in order. -/
def placedTags (html : Text) : List PlacedTag := tagsFrom 0 html

/-- Every start tag of a document, in order. -/
def startTags (html : Text) : List StartTag := (placedTags html).map PlacedTag.tag

/-- The first start tag at or after a byte. -/
def nextTag? (html : Text) (start : Nat) : Option PlacedTag :=
  (firstTag? (Text.dropBytes start html)).map fun (before, t, _) =>
    ⟨start + Text.byteLength before, t⟩

/-! ### End tags -/

/-- What follows the end tag of an element that a text begins with. -/
def afterEndTag? (name : Text) : Text → Option Text
  | '<' :: '/' :: s =>
    match (Text.restIgnoringCase? name s).map Text.trimStart with
    | some ('>' :: r) => some r
    | _ => none
  | _ => none

/-- An end tag has a text of its own. -/
theorem eq_of_afterEndTag? {name s r : Text} (h : afterEndTag? name s = some r) :
    ∃ written blanks, Text.lower written = Text.lower name ∧
      s = '<' :: '/' :: (written ++ (blanks ++ '>' :: r)) := by
  unfold afterEndTag? at h
  split at h
  · next s =>
    split at h
    · next r' hr =>
      simp only [Option.some.injEq] at h
      obtain ⟨tail, ht, htrim⟩ := Option.map_eq_some_iff.1 hr
      obtain ⟨written, rfl, hw⟩ := Text.restIgnoringCase?_eq_some_iff.1 ht
      refine ⟨written, tail.takeWhile Text.isBlank, hw, ?_⟩
      have := List.takeWhile_append_dropWhile (p := Text.isBlank) (l := tail)
      rw [show tail.dropWhile Text.isBlank = '>' :: r' from htrim, h] at this
      rw [this]
    · cases h
  · cases h

theorem length_of_afterEndTag? {name s r : Text} (h : afterEndTag? name s = some r) :
    r.length < s.length := by
  obtain ⟨written, blanks, _, rfl⟩ := eq_of_afterEndTag? h
  simp only [List.length_cons, List.length_append]
  omega

/-- The part of a text that precedes what is left of it. -/
def passed (s r : Text) : Text := s.take (s.length - r.length)

theorem passed_append (t r : Text) : passed (t ++ r) r = t := by
  simp [passed]

/-- Finds the end tag of an element by its content: the content, and the text from the end tag on.
`depth` elements of the same name are open inside the content. -/
def close? (name : Text) (depth : Nat) (s : Text) : Option (Text × Text) :=
  match s with
  | [] => none
  | c :: s' =>
    match _he : afterEndTag? name (c :: s') with
    | some r =>
      match depth with
      | 0 => some ([], c :: s')
      | depth + 1 =>
        (close? name depth r).map fun (content, rest) => (passed (c :: s') r ++ content, rest)
    | none =>
      match _h : afterCommentOpen? (c :: s') with
      | some inside =>
        match _hc : Text.cut? commentClose inside with
        | none => none
        | some (comment, r) =>
          (close? name depth r).map fun (content, rest) =>
            (commentOpen ++ (comment ++ (commentClose ++ content)), rest)
      | none =>
        match _ht : StartTag.read? (c :: s') with
        | some (t, r) =>
          (close? name (if t.name = name ∧ !t.selfClosing then depth + 1 else depth) r).map
            fun (content, rest) => (t.source ++ content, rest)
        | none => (close? name depth s').map fun (content, rest) => (c :: content, rest)
termination_by s.length
decreasing_by
  · exact length_of_afterEndTag? _he
  · have := congrArg List.length (Text.rest?_eq_some_iff.1 _h)
    have := Text.length_of_cut? _hc
    simp only [List.length_append, List.length_cons, commentOpen, commentClose,
      List.length_nil] at *
    omega
  · exact StartTag.length_of_read? _ht
  · simp

/-- The content and what begins with the end tag make up the text, and there is an end tag. -/
theorem eq_of_close? {name s content rest : Text} {depth : Nat}
    (h : close? name depth s = some (content, rest)) :
    s = content ++ rest ∧ (afterEndTag? name rest).isSome := by
  fun_induction close? name depth s generalizing content with
  | case1 => cases h
  | case2 c s' r he =>
    simp only [Option.some.injEq, Prod.mk.injEq] at h
    obtain ⟨rfl, rfl⟩ := h
    simp [he]
  | case3 c s' r he depth ih =>
    obtain ⟨⟨x, y⟩, hr, h⟩ := Option.map_eq_some_iff.1 h
    simp only [Prod.mk.injEq] at h
    obtain ⟨rfl, rfl⟩ := h
    obtain ⟨written, blanks, _, hs⟩ := eq_of_afterEndTag? he
    have hs' : c :: s' = ('<' :: '/' :: (written ++ (blanks ++ ['>']))) ++ r := by rw [hs]; simp
    have := passed_append ('<' :: '/' :: (written ++ (blanks ++ ['>']))) r
    rw [← hs'] at this
    rw [this, List.append_assoc, ← (ih hr).1]
    exact ⟨hs', (ih hr).2⟩
  | case4 => cases h
  | case5 depth c s' he inside hi comment r hc ih =>
    obtain ⟨⟨x, y⟩, hr, h⟩ := Option.map_eq_some_iff.1 h
    simp only [Prod.mk.injEq] at h
    obtain ⟨rfl, rfl⟩ := h
    rw [Text.rest?_eq_some_iff.1 hi, Text.eq_of_cut? hc, (ih hr).1]
    exact ⟨by simp, (ih hr).2⟩
  | case6 depth c s' he hi t r ht ih =>
    obtain ⟨⟨x, y⟩, hr, h⟩ := Option.map_eq_some_iff.1 h
    simp only [Prod.mk.injEq] at h
    obtain ⟨rfl, rfl⟩ := h
    rw [StartTag.eq_of_read? ht, (ih hr).1]
    exact ⟨by simp, (ih hr).2⟩
  | case7 depth c s' he hi ht ih =>
    obtain ⟨⟨x, y⟩, hr, h⟩ := Option.map_eq_some_iff.1 h
    simp only [Prod.mk.injEq] at h
    obtain ⟨rfl, rfl⟩ := h
    exact ⟨by rw [(ih hr).1]; simp, (ih hr).2⟩

/-- The content of an element whose start tag has been passed, and what follows its end tag. -/
def splitElement? (name s : Text) : Option (Text × Text) :=
  (close? name 0 s).bind fun (content, rest) =>
    (afterEndTag? name rest).map fun after => (content, after)

theorem length_of_splitElement? {name s content after : Text}
    (h : splitElement? name s = some (content, after)) : after.length < s.length := by
  obtain ⟨⟨x, rest⟩, hc, h⟩ := Option.bind_eq_some_iff.1 h
  obtain ⟨r, hr, h⟩ := Option.map_eq_some_iff.1 h
  simp only [Prod.mk.injEq] at h
  obtain ⟨rfl, rfl⟩ := h
  have := length_of_afterEndTag? hr
  rw [(eq_of_close? hc).1, List.length_append]
  omega

/-- The bytes at which the content and the end tag of an element end, the content beginning at the
byte `start`. -/
def closeSpan? (html name : Text) (start : Nat) : Option (Nat × Nat) :=
  let s := Text.dropBytes start html
  (splitElement? name s).map fun (content, after) =>
    (start + Text.byteLength content, start + (Text.byteLength s - Text.byteLength after))

end Markup

end MaskedViews
