import MaskedViews.Proofs.Markup.Elements
import MaskedViews.Proofs.Markup.WellFormed

/-!
# What is reported of written markup

A writer who puts down a tag knows where it stands, what it is called, and which bytes are the
values of its attributes: what has been written so far tells it. The reader is given nothing but
the text. `placedTags_printed` says that its reports are the same, whatever stands in the values
and around the tags, if the markup is written in well-formed pieces.
-/

namespace MaskedViews

/-- The bytes at which a text begins and ends that is written behind another. -/
def Text.spanBehind (before s : Text) : Nat × Nat := (byteLength before, byteLength (before ++ s))

/-- What stands between two bytes of a document. -/
def Text.StandsAt (html : Text) (span : Nat × Nat) (s : Text) : Prop :=
  ∃ before after, html = before ++ (s ++ after) ∧ span = spanBehind before s

/-- What is reported of an attribute. -/
structure AttributeReport where
  /-- The name in small letters. -/
  name : Text
  /-- The value, if one is assigned. -/
  value : Option Text
  /-- The bytes at which the value begins and ends. -/
  span : Option (Nat × Nat)
  deriving DecidableEq, Repr

/-- What is reported of a start tag. -/
structure TagReport where
  /-- The offset of the `<`. -/
  start : Nat
  /-- The offset just past the `>`. -/
  stop : Nat
  /-- The name in small letters. -/
  name : Text
  /-- The attributes in order. -/
  attributes : List AttributeReport
  /-- Whether the tag ends in `/>`. -/
  selfClosing : Bool
  deriving DecidableEq, Repr

/-- The report on a tag that has been read. -/
def Markup.PlacedTag.report (p : PlacedTag) : TagReport where
  start := p.start
  stop := p.stop
  name := p.tag.name
  attributes := p.tag.attributes.zipWith (fun a span => ⟨a.name, a.value, span⟩) p.valueSpans
  selfClosing := p.tag.selfClosing

/-- The reports on attributes that are written behind a text. -/
def Attribute.reportsBehind (before : Text) : List Attribute → List AttributeReport
  | [] => []
  | a :: attributes =>
    { name := Text.lower a.written
      value := a.assigned.map Assignment.value
      span := a.assigned.map fun v =>
        Text.spanBehind (before ++ (a.lead ++ (a.written ++ v.head))) v.value } ::
      reportsBehind (before ++ a.source) attributes

/-- The report on a start tag that is written behind a text. -/
def StartTag.reportBehind (before : Text) (t : StartTag) : TagReport where
  start := Text.byteLength before
  stop := Text.byteLength (before ++ t.source)
  name := Text.lower t.written
  attributes := Attribute.reportsBehind (before ++ '<' :: t.written) t.attributes
  selfClosing := t.selfClosing

/-- The reports on the start tags among pieces that are written behind a text. -/
def Markup.reportsBehind (before : Text) : List Piece → List TagReport
  | [] => []
  | p :: ps =>
    (p.startTag?.map (StartTag.reportBehind before)).toList ++ reportsBehind (before ++ p.source) ps

/-- The reader counts the bytes that it has passed and the writer those that it has written: both
come to the same spans. -/
theorem StartTag.zipWith_valueSpansFrom (before : Text) (attributes : List Attribute) :
    attributes.zipWith (fun a span => (⟨a.name, a.value, span⟩ : AttributeReport))
      (valueSpansFrom (Text.byteLength before) attributes) =
        Attribute.reportsBehind before attributes := by
  induction attributes generalizing before with
  | nil => rfl
  | cons a attributes ih =>
    have hspan : (a.valueOffset.map fun offset => (Text.byteLength before + offset,
        Text.byteLength before + offset + Text.byteLength (a.value.getD []))) =
        a.assigned.map fun v =>
          Text.spanBehind (before ++ (a.lead ++ (a.written ++ v.head))) v.value := by
      rw [Attribute.valueOffset, Attribute.value]
      cases a.assigned with
      | none => rfl
      | some v => simp [Text.spanBehind, Nat.add_assoc]
    rw [valueSpansFrom, List.zipWith_cons_cons, hspan, ← Text.byteLength_append, ih]
    rfl

/-- The reports on a tag agree if it was found where it was written. -/
theorem Markup.report_mk (before : Text) (t : StartTag) :
    (⟨Text.byteLength before, t⟩ : PlacedTag).report = t.reportBehind before := by
  rw [PlacedTag.report, StartTag.reportBehind, PlacedTag.valueSpans, StartTag.valueSpans,
    ← Text.byteLength_append, StartTag.zipWith_valueSpansFrom, PlacedTag.stop,
    Text.byteLength_append _ t.source]
  rfl

namespace Markup

/-- The tags are read and reported as they were written, behind any text. -/
theorem map_report_tagsFrom {ps : List Piece} (h : ∀ p ∈ ps, p.Fits) (before : Text) :
    (tagsFrom (Text.byteLength before) (printed ps)).map PlacedTag.report =
      reportsBehind before ps := by
  induction ps generalizing before with
  | nil =>
    rw [printed_nil, tagsFrom_of_none firstTag?_nil]
    rfl
  | cons p ps ih =>
    have hp := h p (by simp)
    have ih := ih (fun q hq => h q (List.mem_cons_of_mem p hq)) (before ++ p.source)
    rw [printed_cons, reportsBehind, ← ih, Text.byteLength_append]
    cases hkind : p.startTag? with
    | some t =>
      cases Piece.startTag?_eq_some_iff.1 hkind
      rw [Piece.source, tagsFrom_startTag_append hp, List.map_cons, report_mk]
      rfl
    | none =>
      rw [tagsFrom_source_append hp (Piece.startTag?_eq_none_iff.1 hkind)]
      rfl

end Markup

/-- The span of a written value is where the value stands. -/
theorem Attribute.standsAt_of_mem_reportsBehind {before : Text} {attributes : List Attribute}
    {r : AttributeReport} (hr : r ∈ reportsBehind before attributes) (after : Text) :
    Option.Rel (Text.StandsAt (before ++ (attributes.flatMap source ++ after))) r.span r.value := by
  induction attributes generalizing before with
  | nil => cases hr
  | cons a attributes ih =>
    rcases List.mem_cons.1 hr with rfl | hr
    · cases ha : a.assigned with
      | none => exact .none
      | some v =>
        refine .some ⟨before ++ (a.lead ++ (a.written ++ v.head)),
          v.quoting.mark ++ (attributes.flatMap source ++ after), ?_, rfl⟩
        simp [source, ha, Assignment.source]
    · rw [List.flatMap_cons, List.append_assoc, ← List.append_assoc before]
      exact ih hr

namespace Markup

/-- A tag that stands where it is reported in a document, and so do the values of its attributes. -/
structure PlacedTag.StandsIn (p : PlacedTag) (html : Text) : Prop where
  /-- The tag is all that stands from its start to its stop. -/
  tag : html.StandsAt (p.start, p.stop) p.tag.source
  /-- A value is all that stands in its span; where there is none there is no span. -/
  values : ∀ a ∈ p.report.attributes, Option.Rel html.StandsAt a.span a.value

/-- A tag is placed by the text that it stands behind. -/
theorem standsIn_mk (before : Text) (t : StartTag) (after : Text) :
    (⟨Text.byteLength before, t⟩ : PlacedTag).StandsIn (before ++ (t.source ++ after)) := by
  refine ⟨⟨before, after, rfl, ?_⟩, fun a ha => ?_⟩
  · rw [Text.spanBehind, Text.byteLength_append]
    rfl
  · rw [report_mk] at ha
    have := Attribute.standsAt_of_mem_reportsBehind ha (t.trail ++ t.ending ++ after)
    simpa [StartTag.source] using this

/-- Where a tag is reported, there it stands, in any document. -/
theorem standsIn_of_mem_tagsFrom {before s : Text} {p : PlacedTag}
    (hp : p ∈ tagsFrom (Text.byteLength before) s) : p.StandsIn (before ++ s) := by
  suffices h : ∀ start, p ∈ tagsFrom start s → ∀ before, Text.byteLength before = start →
      p.StandsIn (before ++ s) from h _ hp before rfl
  clear hp before
  intro start
  fun_induction tagsFrom start s with
  | case1 =>
    intro hp
    cases hp
  | case2 start s b t r h q ih =>
    intro hp before hstart
    -- the first tag stands behind what was passed here and what was searched before
    have hplace : q = ⟨Text.byteLength (before ++ b), t⟩ := by
      rw [Text.byteLength_append, hstart]
    have hs : before ++ s = before ++ b ++ (t.source ++ r) := by
      rw [eq_of_firstTag? h, List.append_assoc]
    rw [hs]
    rcases List.mem_cons.1 hp with rfl | hp
    · rw [hplace]
      exact standsIn_mk (before ++ b) t r
    · have hstop : Text.byteLength (before ++ b ++ t.source) = q.stop := by
        rw [Text.byteLength_append, hplace]
        rfl
      rw [← List.append_assoc]
      exact ih hp _ hstop

/-- **What is written is read back**: exactly the start tags among the pieces, in order, and of each
what its writer knows, its place and the names, values and places of its attributes. Where a tag or
a value is reported, there it stands. -/
theorem placedTags_printed {ps : List Piece} (h : ∀ p ∈ ps, p.WellFormed) :
    startTags (printed ps) = startTagsOf ps ∧
      (placedTags (printed ps)).map PlacedTag.report = reportsBehind [] ps ∧
      ∀ p ∈ placedTags (printed ps), p.StandsIn (printed ps) := by
  have hfits : ∀ p ∈ ps, p.Fits := fun p hp => (h p hp).fits
  refine ⟨startTags_printed ps hfits, map_report_tagsFrom hfits [], fun p hp => ?_⟩
  have hstart : p ∈ tagsFrom (Text.byteLength []) (printed ps) := hp
  exact standsIn_of_mem_tagsFrom hstart

/-- Pieces with tags in a comment and in values, in either letter case and with a character of two
bytes: `é<!-- <b> --></p ><Td A⏎b = '>{{x}}"' C=d/<!-- /><b>`. -/
def disguised : List Piece :=
  [.text ['é'], .comment " <b> ".toList, .endTag ['p', ' '],
    .startTag ⟨['T', 'd'],
      [⟨[' '], ['A'], none⟩,
        ⟨['\n'], ['b'], some ⟨[' '], [' '], .quoted '\'', ">\x7b\x7bx\x7d\x7d\"".toList⟩⟩,
        ⟨[' '], ['C'], some ⟨[], [], .bare, "d/<!--".toList⟩⟩], [' '], true⟩,
    .startTag ⟨['b'], [], [], false⟩]

theorem placedTags_printed_disguised :
    (∀ p ∈ disguised, p.WellFormed) ∧
      (placedTags (printed disguised)).map PlacedTag.report =
        [⟨19, 50, "td".toList, [⟨['a'], none, none⟩,
            ⟨['b'], some ">\x7b\x7bx\x7d\x7d\"".toList, some (30, 37)⟩,
            ⟨['c'], some "d/<!--".toList, some (41, 47)⟩], true⟩,
          ⟨50, 53, ['b'], [], false⟩] := by
  have h : ∀ p ∈ disguised, p.WellFormed := by decide
  exact ⟨h, (placedTags_printed h).2.1.trans (by decide)⟩

end Markup

end MaskedViews
