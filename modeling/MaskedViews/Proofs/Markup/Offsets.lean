import MaskedViews.Proofs.Markup.Matching
import MaskedViews.Proofs.Markup.Reports
import MaskedViews.Proofs.Text.Slices
import Mathlib.Data.List.Forall2
import Mathlib.Data.List.ReduceOption

/-!
# Sound offsets

Tags are reported by offsets into the bytes of a document, and so are the values of attributes and
the end tag of an element. Whatever the document is, these offsets can be sliced at: they are
boundaries of characters, and what stands between them is the tag, the value or the end tag that
was reported (`soundIn_of_mem_placedTags`, `endTagAt_of_closeSpan?`). Nothing is reported twice: the
tags follow one another without overlap, and so do the values (`pairwise_tagsFrom`,
`pairwise_valueSpans`).
-/

namespace MaskedViews

open Text (byteLength)

/-- Where a text stands it can be sliced out. -/
theorem Text.StandsAt.slice? {html s : Text} {start stop : Nat}
    (h : html.StandsAt (start, stop) s) : html.slice? start stop = some s := by
  obtain ⟨before, after, rfl, hspan⟩ := h
  cases hspan
  exact slice?_append before s after

/-! ### Values -/

namespace StartTag

theorem length_valueSpansFrom (start : Nat) (attributes : List Attribute) :
    (valueSpansFrom start attributes).length = attributes.length := by
  induction attributes generalizing start with
  | nil => rfl
  | cons a attributes ih => rw [valueSpansFrom, List.length_cons, ih, List.length_cons]

/-- A value stands behind the beginning of its attribute and before its end. -/
theorem le_of_valueOffset {a : Attribute} {offset : Nat} (h : a.valueOffset = some offset) :
    offset + byteLength (a.value.getD []) ≤ byteLength a.source := by
  obtain ⟨v, hv, rfl⟩ := Option.map_eq_some_iff.1 h
  simp only [Attribute.value, Attribute.source, Assignment.source, hv, Option.map_some,
    Option.getD_some, Text.byteLength_append]
  omega

/-- The values of attributes stand among the attributes, -/
theorem bounds_of_mem_valueSpansFrom {start : Nat} {attributes : List Attribute} {v : Nat × Nat}
    (h : some v ∈ valueSpansFrom start attributes) :
    start ≤ v.1 ∧ v.1 ≤ v.2 ∧ v.2 ≤ start + byteLength (attributes.flatMap Attribute.source) := by
  induction attributes generalizing start with
  | nil => cases h
  | cons a attributes ih =>
    rw [List.flatMap_cons, Text.byteLength_append]
    rcases List.mem_cons.1 h with h | h
    · obtain ⟨offset, hoffset, rfl⟩ := Option.map_eq_some_iff.1 h.symm
      have := le_of_valueOffset hoffset
      dsimp only
      omega
    · have := ih h
      omega

/-- one behind the other. -/
theorem pairwise_valueSpansFrom (start : Nat) (attributes : List Attribute) :
    (valueSpansFrom start attributes).reduceOption.Pairwise fun v w => v.2 ≤ w.1 := by
  induction attributes generalizing start with
  | nil => exact .nil
  | cons a attributes ih =>
    rw [valueSpansFrom]
    cases hoffset : a.valueOffset with
    | none => exact ih _
    | some offset =>
      rw [Option.map_some, List.reduceOption_cons_of_some]
      refine .cons (fun v hv => ?_) (ih _)
      have := bounds_of_mem_valueSpansFrom (List.reduceOption_mem_iff.1 hv)
      have := le_of_valueOffset hoffset
      dsimp only
      omega

end StartTag

namespace Markup

/-! ### Tags -/

namespace PlacedTag

/-- All offsets that are reported of a tag. -/
def offsets (p : PlacedTag) : List Nat :=
  p.start :: p.stop :: p.valueSpans.reduceOption.flatMap fun v => [v.1, v.2]

/-- A tag whose offsets are sound in a document. -/
structure SoundIn (p : PlacedTag) (html : Text) : Prop where
  /-- The tag is something, and it is inside the document. -/
  bounds : p.start < p.stop ∧ p.stop ≤ byteLength html
  /-- It begins with `<` -/
  opening : html.slice? p.start (p.start + 1) = some ['<']
  /-- and ends with `>`. -/
  closing : html.slice? (p.stop - 1) p.stop = some ['>']
  /-- It is all that stands between its offsets. -/
  whole : html.slice? p.start p.stop = some p.tag.source
  /-- Of an attribute with a value a span is reported, in which the value is all that stands, and
  of one without a value none. -/
  values : List.Forall₂ (fun a span => Option.Rel (fun v value => html.slice? v.1 v.2 = some value)
    span a.value) p.tag.attributes p.valueSpans
  /-- The spans of values are inside the tag, -/
  inside : ∀ v ∈ p.valueSpans.reduceOption, p.start < v.1 ∧ v.1 ≤ v.2 ∧ v.2 < p.stop
  /-- one behind the other. -/
  apart : p.valueSpans.reduceOption.Pairwise fun v w => v.2 ≤ w.1
  /-- No offset is inside a character. -/
  boundaries : ∀ n ∈ p.offsets, html.isBoundary n = true

end PlacedTag

/-- Each value of a tag is what stands in its span. -/
theorem PlacedTag.StandsIn.values_slice? {p : PlacedTag} {html : Text} (h : p.StandsIn html) :
    List.Forall₂ (fun a span => Option.Rel (fun v value => html.slice? v.1 v.2 = some value) span
      a.value) p.tag.attributes p.valueSpans := by
  refine List.forall₂_iff_zip.2 ⟨(StartTag.length_valueSpansFrom _ _).symm, fun {a span} hmem => ?_⟩
  have hreport : ⟨a.name, a.value, span⟩ ∈ p.report.attributes := by
    rw [PlacedTag.report, ← List.map_uncurry_zip_eq_zipWith]
    exact List.mem_map.2 ⟨(a, span), hmem, rfl⟩
  have hrel : Option.Rel html.StandsAt span a.value := h.values _ hreport
  generalize a.value = value at hrel ⊢
  cases hrel with
  | none => exact .none
  | some hstands => exact .some hstands.slice?

/-- The values of a tag are inside it. -/
theorem PlacedTag.bounds_of_mem_valueSpans (p : PlacedTag) {v : Nat × Nat}
    (hv : v ∈ p.valueSpans.reduceOption) : p.start < v.1 ∧ v.1 ≤ v.2 ∧ v.2 < p.stop := by
  have hbounds := StartTag.bounds_of_mem_valueSpansFrom (List.reduceOption_mem_iff.1 hv)
  have hlt := Char.utf8Size_pos '<'
  have hending : 0 < byteLength p.tag.ending := by
    rw [StartTag.ending]
    split <;> decide
  rw [Text.byteLength_cons] at hbounds
  rw [PlacedTag.stop, StartTag.source, Text.byteLength_cons, Text.byteLength_append,
    Text.byteLength_append, Text.byteLength_append]
  omega

/-- A tag that stands where it is reported is reported by sound offsets. -/
theorem PlacedTag.StandsIn.soundIn {p : PlacedTag} {html : Text} (h : p.StandsIn html) :
    p.SoundIn html := by
  have hwhole := h.tag.slice?
  have hvalues := h.values_slice?
  obtain ⟨hlength, hstop⟩ := Text.bounds_of_slice? hwhole
  have hopening : html.slice? p.start (p.start + 1) = some ['<'] := by
    obtain ⟨body, hbody⟩ : ∃ body, p.tag.source = '<' :: body := ⟨_, rfl⟩
    rw [hbody] at hwhole
    exact Text.slice?_of_slice? (x := []) (s := ['<']) (y := body) hwhole
  obtain ⟨front, hfront⟩ := p.tag.exists_source_eq
  have hend : byteLength p.tag.source = byteLength front + 1 := by
    rw [hfront]
    exact Text.byteLength_append _ _
  have hclosing : html.slice? (p.stop - 1) p.stop = some ['>'] := by
    have := Text.slice?_of_slice? (x := front) (s := ['>']) (y := []) (hfront ▸ hwhole)
    rwa [← hfront, hlength, show p.start + byteLength front = p.stop - 1 by omega] at this
  have hboundaries : ∀ n ∈ p.offsets, html.isBoundary n = true := by
    intro n hn
    simp only [PlacedTag.offsets, List.mem_cons, List.mem_flatMap, List.not_mem_nil, or_false] at hn
    rcases hn with rfl | rfl | ⟨v, hv, hn⟩
    · exact (Text.isBoundary_of_slice? hwhole).1
    · exact (Text.isBoundary_of_slice? hwhole).2
    · obtain ⟨a, -, hrel⟩ := exists_of_mem_forall₂ hvalues (List.reduceOption_mem_iff.1 hv)
      generalize a.value = value at hrel
      cases hrel with
      | some hslice =>
        rcases hn with rfl | rfl
        · exact (Text.isBoundary_of_slice? hslice).1
        · exact (Text.isBoundary_of_slice? hslice).2
  exact {
    bounds := ⟨by omega, hstop⟩
    opening := hopening
    closing := hclosing
    whole := hwhole
    values := hvalues
    inside := fun v hv => p.bounds_of_mem_valueSpans hv
    apart := StartTag.pairwise_valueSpansFrom _ _
    boundaries := hboundaries
  }

/-- The first tag behind a boundary stands where it is reported. -/
theorem nextTag?_append (before s : Text) :
    nextTag? (before ++ s) (byteLength before) =
      (firstTag? s).map fun (x, t, _) => ⟨byteLength (before ++ x), t⟩ := by
  rw [nextTag?, Text.dropBytes_append]
  simp only [Text.byteLength_append]

theorem le_start_of_mem_tagsFrom {start : Nat} {s : Text} {p : PlacedTag}
    (hp : p ∈ tagsFrom start s) : start ≤ p.start := by
  fun_induction tagsFrom start s with
  | case1 => cases hp
  | case2 start s before t r h q ih =>
    have hq : start ≤ q.start := Nat.le_add_right _ _
    have hstop : q.start ≤ q.stop := Nat.le_add_right _ _
    rcases List.mem_cons.1 hp with rfl | hp
    · exact hq
    · exact hq.trans (hstop.trans (ih hp))

/-- The tags of a text do not overlap. -/
theorem pairwise_tagsFrom (start : Nat) (s : Text) :
    (tagsFrom start s).Pairwise fun p q => p.stop ≤ q.start := by
  fun_induction tagsFrom start s with
  | case1 => exact .nil
  | case2 start s before t r h q ih => exact .cons (fun p hp => le_start_of_mem_tagsFrom hp) ih

/-- **Tags are reported by sound offsets**, whatever the document is. -/
theorem soundIn_of_mem_placedTags {html : Text} {p : PlacedTag} (hp : p ∈ placedTags html) :
    p.SoundIn html := by
  have hp : p ∈ tagsFrom (byteLength []) html := hp
  exact (standsIn_of_mem_tagsFrom hp).soundIn

/-- The values of all tags of a document do not overlap. -/
theorem pairwise_valueSpans (html : Text) :
    ((placedTags html).flatMap fun p => p.valueSpans.reduceOption).Pairwise
      fun v w => v.2 ≤ w.1 := by
  refine List.pairwise_flatMap.2 ⟨fun p hp => (soundIn_of_mem_placedTags hp).apart, ?_⟩
  refine (pairwise_tagsFrom 0 html).imp fun {p q} hle v hv w hw => ?_
  have := p.bounds_of_mem_valueSpans hv
  have := q.bounds_of_mem_valueSpans hw
  omega

/-! ### End tags -/

/-- Whether an end tag stands between two bytes: it begins with `</` and the name, in small letters
or capitals, and ends with `>`. -/
def EndTagAt (html name : Text) (start stop : Nat) : Prop :=
  ∃ written between, Text.lower written = Text.lower name ∧
    html.slice? start stop = some ('<' :: '/' :: (written ++ (between ++ ['>'])))

/-- An element is divided in front of its end tag and behind it. -/
theorem exists_of_splitElement? {name s content after : Text}
    (h : splitElement? name s = some (content, after)) :
    ∃ written between, Text.lower written = Text.lower name ∧
      s = content ++ ('<' :: '/' :: (written ++ (between ++ ['>'])) ++ after) := by
  obtain ⟨⟨x, rest⟩, hclose, h⟩ := Option.bind_eq_some_iff.1 h
  obtain ⟨r, hr, heq⟩ := Option.map_eq_some_iff.1 h
  cases heq
  obtain ⟨written, between, hwritten, rfl⟩ := eq_of_afterEndTag? hr
  exact ⟨written, between, hwritten, by rw [(eq_of_close? hclose).1]; simp⟩

theorem closeSpan?_append (before s name : Text) :
    closeSpan? (before ++ s) name (byteLength before) =
      (splitElement? name s).map fun (content, after) =>
        (byteLength before + byteLength content,
          byteLength before + (byteLength s - byteLength after)) := by
  rw [closeSpan?, Text.dropBytes_append]

/-- **The end of an element is reported by sound offsets** if its content begins at a boundary: the
end tag is behind that and inside the document, and its bytes are boundaries. -/
theorem endTagAt_of_closeSpan? {html name : Text} {start a b : Nat}
    (hstart : html.isBoundary start = true) (h : closeSpan? html name start = some (a, b)) :
    start ≤ a ∧ a < b ∧ b ≤ byteLength html ∧ html.isBoundary a = true ∧
      html.isBoundary b = true ∧ EndTagAt html name a b := by
  obtain ⟨before, s, rfl, rfl⟩ := Text.isBoundary_iff.1 hstart
  rw [closeSpan?_append] at h
  obtain ⟨⟨content, after⟩, hsplit, heq⟩ := Option.map_eq_some_iff.1 h
  cases heq
  obtain ⟨written, between, hwritten, hs⟩ := exists_of_splitElement? hsplit
  generalize hend : '<' :: '/' :: (written ++ (between ++ ['>'])) = endTag at hs
  have hpos : 0 < byteLength endTag := by
    rw [← hend, Text.byteLength_cons]
    exact Nat.add_pos_left (Char.utf8Size_pos _) _
  have hslice : Text.slice? (before ++ s) (byteLength before + byteLength content)
      (byteLength before + (byteLength s - byteLength after)) = some endTag := by
    refine Text.slice?_eq_some_iff.2 ⟨before ++ content, after, ?_, ?_, ?_⟩
    · simp [hs]
    · simp
    · simp [hs]
      omega
  have hbounds := Text.bounds_of_slice? hslice
  have hboundaries := Text.isBoundary_of_slice? hslice
  exact ⟨Nat.le_add_right _ _, by omega, hbounds.2, hboundaries.1, hboundaries.2, written, between,
    hwritten, hend ▸ hslice⟩

end Markup

end MaskedViews
