import MaskedViews.Proofs.Markup.Elements
import MaskedViews.Proofs.Markup.Flags
import MaskedViews.Proofs.Template.Woven

/-!
# Regular templates

A regular template is markup in pieces whose values stand in double quotes and whose template tags
lie inside one text or one value each. So no template tag reaches from one piece into the next: the
tags of the template are those of its pieces (`tags_printed`), and stripping it strips its pieces
(`strip_printed`), which leaves it regular.
-/

namespace MaskedViews

open Token (Braceless Woven isBrace strip tags)

/-- An attribute with double quotes around its value and template tags at most between them. -/
structure Attribute.IsRegular (a : Attribute) : Prop where
  /-- There are no braces in the name. -/
  written : Braceless a.written
  /-- The value is in double quotes. -/
  quoted : a.IsQuoted
  /-- The braces of the value are those of template tags. -/
  value : ∀ v ∈ a.assigned, Woven v.value

/-- A start tag with regular attributes. -/
def StartTag.IsRegular (t : StartTag) : Prop := ∀ a ∈ t.attributes, a.IsRegular

namespace Markup

/-- A piece of a regular template. A stray `<` is none of a tag because of what stands in front of
the first brace behind it. -/
def Piece.IsRegular : Piece → Prop
  | .text s => '<' ∉ s ∧ Woven s
  | .comment s => (Piece.comment s).Fits ∧ Braceless s
  | .startTag t => t.Legible ∧ t.IsRegular
  | .endTag s => (Piece.endTag s).Fits ∧ Braceless s
  | .stray s => '<' ∉ s ∧ ∃ h r, s = h ++ r ∧ Piece.Shut h ∧ Braceless h ∧ Woven r

/-- A template of regular pieces. Elements may be closed or not. -/
def IsRegular (template : Text) : Prop := ∃ ps : List Piece, (∀ p ∈ ps, p.IsRegular) ∧
  template = printed ps

/-- A regular piece is found where it stands. -/
theorem Piece.IsRegular.fits {p : Piece} (h : p.IsRegular) : p.Fits := by
  cases p with
  | text s => exact h.1
  | comment s => exact h.1
  | startTag t => exact h.1
  | endTag s => exact h.1
  | stray s =>
    obtain ⟨hlt, x, r, rfl, hshut, -, -⟩ := h
    exact ⟨hlt, hshut.append r⟩

end Markup

/-! ### Braces in regular pieces -/

namespace StartTag

theorem braceless_of_isLead {lead : Text} (h : IsLead lead) : Braceless lead := by
  intro c hc
  rcases h c hc with hblank | rfl
  · exact Token.braceless_of_isAsciiBlank (b := [c]) (by simpa using hblank) c (by simp)
  · decide

theorem braceless_of_isNameChar {w : Text} (h : ∀ c ∈ w, isNameChar c = true) : Braceless w := by
  intro c hc
  rw [← Bool.not_eq_true]
  intro hbrace
  simp only [isBrace, Bool.or_eq_true, decide_eq_true_eq] at hbrace
  have := h c hc
  rcases hbrace with rfl | rfl
  · exact absurd this (by decide)
  · exact absurd this (by decide)

theorem braceless_ending (t : StartTag) : Braceless t.ending := by
  rw [ending]
  split <;> decide

end StartTag

namespace Token

theorem strip_of_braceless {b : Text} (hb : Braceless b) (remove : Text → Bool) :
    strip remove b = b := by
  have := strip_inert_append hb.inert remove []
  rwa [strip_nil, List.append_nil] at this

theorem strip_braceless_append {b : Text} (hb : Braceless b) (remove : Text → Bool) (s : Text) :
    strip remove (b ++ s) = b ++ strip remove s :=
  strip_inert_append hb.inert remove s

/-- Stripping adds no character. -/
theorem mem_of_mem_strip {remove : Text → Bool} {s : Text} {c : Char} (h : c ∈ strip remove s) :
    c ∈ s := by
  obtain ⟨t, ht, hc⟩ := List.mem_flatMap.1 h
  rw [← source_tokenize s]
  exact List.mem_flatMap.2 ⟨t, (List.mem_filter.1 ht).1, hc⟩

theorem strip_flatMap {α : Type} {f : α → Text} {xs : List α} (h : ∀ x ∈ xs, Woven (f x))
    (remove : Text → Bool) :
    strip remove (xs.flatMap f) = xs.flatMap fun x => strip remove (f x) := by
  induction xs with
  | nil => exact strip_nil remove
  | cons x xs ih =>
    rw [List.flatMap_cons, strip_append (h x (by simp)), ih fun y hy => h y (List.mem_cons_of_mem x hy)]
    rfl

end Token

/-! ### Stripping regular pieces -/

/-- The attribute with its value stripped. -/
def Attribute.stripped (remove : Text → Bool) (a : Attribute) : Attribute :=
  { a with assigned := a.assigned.map fun v => { v with value := strip remove v.value } }

/-- The tag with the values of its attributes stripped. -/
def StartTag.stripped (remove : Text → Bool) (t : StartTag) : StartTag :=
  { t with attributes := t.attributes.map (Attribute.stripped remove) }

/-- The piece with its template tags stripped. -/
def Markup.Piece.stripped (remove : Text → Bool) : Markup.Piece → Markup.Piece
  | .text s => .text (strip remove s)
  | .startTag t => .startTag (t.stripped remove)
  | .stray s => .stray (strip remove s)
  | p => p

variable (remove : Text → Bool)

namespace Attribute

/-- The text of an attribute up to its value. -/
def front (a : Attribute) : Text := a.lead ++ (a.written ++ (a.assigned.map Assignment.head).getD [])

/-- The text of a regular attribute is its front, which has no braces, its value and a quote. -/
theorem source_of_isRegular {a : Attribute} {rest : Text} (hlead : StartTag.IsLead a.lead)
    (hfits : a.Fits rest) (h : a.IsRegular) :
    Braceless a.front ∧ (a.assigned = none ∧ a.source = a.front ∨
      ∃ v, a.assigned = some v ∧ Woven v.value ∧ '"' ∈ a.front ∧
        a.source = a.front ++ (v.value ++ ['"']) ∧
        (a.stripped remove).source = a.front ++ (strip remove v.value ++ ['"'])) := by
  obtain ⟨lead, written, assigned⟩ := a
  have hl := StartTag.braceless_of_isLead hlead
  cases assigned with
  | none =>
    refine ⟨Token.braceless_append.2 ⟨hl, Token.braceless_append.2 ⟨h.written, by simp⟩⟩,
      Or.inl ⟨rfl, ?_⟩⟩
    simp [source, front]
  | some v =>
    obtain ⟨before, after, q, value⟩ := v
    obtain rfl : q = .quoted '"' := h.quoted _ rfl
    have hv : Assignment.Fits written ⟨before, after, .quoted '"', value⟩ rest := hfits.assigned
    refine ⟨?_, Or.inr ⟨_, rfl, h.value _ rfl, ?_, ?_, ?_⟩⟩
    · refine Token.braceless_append.2 ⟨hl, Token.braceless_append.2 ⟨h.written, ?_⟩⟩
      refine Token.braceless_append.2 ⟨Token.braceless_of_isAsciiBlank hv.before, ?_⟩
      refine Token.braceless_cons.2 ⟨by decide, Token.braceless_append.2 ⟨?_, ?_⟩⟩
      · exact Token.braceless_of_isAsciiBlank hv.after
      · show Braceless ['"']
        decide
    · simp [front, Assignment.head, Quoting.mark]
    · simp [source, front, Assignment.source, Assignment.head, Quoting.mark]
    · simp [source, stripped, front, Assignment.source, Assignment.head, Quoting.mark]

end Attribute

namespace StartTag

theorem woven_source_of_isRegular {a : Attribute} {rest : Text} (hlead : IsLead a.lead)
    (hfits : a.Fits rest) (h : a.IsRegular) :
    Woven a.source ∧ strip remove a.source = (a.stripped remove).source := by
  have hquote : Braceless ['"'] := by decide
  obtain ⟨hfront, ⟨hnone, hsource⟩ | ⟨v, -, hv, -, hsource, hstripped⟩⟩ :=
    Attribute.source_of_isRegular remove hlead hfits h
  · have hsame : a.stripped remove = a := by
      rw [Attribute.stripped, hnone, Option.map_none, ← hnone]
    rw [hsame, hsource]
    exact ⟨.of_braceless hfront, Token.strip_of_braceless hfront remove⟩
  · rw [hsource, hstripped, Token.strip_braceless_append hfront, Token.strip_append hv,
      Token.strip_of_braceless hquote]
    exact ⟨(Woven.of_braceless hfront).append (hv.append (.of_braceless hquote)), rfl⟩

/-- Stripping a value does not change how what stands before it is read. -/
theorem sameStart_stripped {a : Attribute} {rest x y : Text} (hlead : IsLead a.lead)
    (hfits : a.Fits rest) (h : a.IsRegular) (hxy : SameStart x y) :
    SameStart (a.source ++ x) ((a.stripped remove).source ++ y) := by
  obtain ⟨-, ⟨hnone, -⟩ | ⟨v, -, -, hmem, hsource, hstripped⟩⟩ :=
    Attribute.source_of_isRegular remove hlead hfits h
  · have hsame : a.stripped remove = a := by
      rw [Attribute.stripped, hnone, Option.map_none, ← hnone]
    rw [hsame]
    exact hxy.append a.source
  · rw [hsource, hstripped, List.append_assoc, List.append_assoc a.front]
    exact sameStart_append ⟨'"', hmem, by decide⟩ _ _

/-- An attribute with its value stripped is read where the attribute was. -/
theorem fits_stripped {a : Attribute} {rest : Text} (hfits : a.Fits rest) (h : a.IsRegular) :
    (a.stripped remove).Fits rest := by
  obtain ⟨lead, written, assigned⟩ := a
  cases assigned with
  | none => exact hfits
  | some v =>
    obtain ⟨before, after, q, value⟩ := v
    obtain rfl : q = .quoted '"' := h.quoted _ rfl
    have hv : Assignment.Fits written ⟨before, after, .quoted '"', value⟩ rest := hfits.assigned
    refine ⟨hfits.written, hv.before, hv.before_eq_nil, hv.after, hv.value.1, fun hmem => ?_⟩
    exact hv.value.2 (Token.mem_of_mem_strip hmem)

theorem attributesFit_stripped {attributes : List Attribute} {rest : Text}
    (hfits : AttributesFit attributes rest) (h : ∀ a ∈ attributes, a.IsRegular) :
    AttributesFit (attributes.map (Attribute.stripped remove)) rest ∧
      SameStart (attributes.flatMap Attribute.source ++ rest)
        ((attributes.map (Attribute.stripped remove)).flatMap Attribute.source ++ rest) := by
  induction attributes with
  | nil => exact ⟨trivial, SameStart.refl rest⟩
  | cons a attributes ih =>
    obtain ⟨⟨hlead, ha⟩, hfits⟩ := hfits
    have hreg := h a (by simp)
    obtain ⟨ihfits, ihstart⟩ := ih hfits fun b hb => h b (List.mem_cons_of_mem a hb)
    constructor
    · refine ⟨⟨hlead, fits_stripped remove ?_ hreg⟩, ihfits⟩
      exact (fits_congr ihstart).1 ha
    · rw [List.map_cons, List.flatMap_cons, List.flatMap_cons, List.append_assoc, List.append_assoc]
      exact sameStart_stripped remove hlead ha hreg ihstart

/-- A regular tag is regular when its values are stripped. -/
theorem legible_stripped {t : StartTag} (ht : t.Legible) (h : t.IsRegular) :
    (t.stripped remove).Legible ∧ (t.stripped remove).IsRegular := by
  obtain ⟨hfits, hstart⟩ := attributesFit_stripped remove ht.attributes h
  refine ⟨⟨ht.letter, ht.written, (hstart.heads endsName_of_isAsciiBlank).1 ht.endsName, hfits, ht.trail⟩, ?_⟩
  intro b hb
  obtain ⟨a, ha, rfl⟩ := List.mem_map.1 hb
  refine ⟨(h a ha).written, fun v hv => ?_, fun v hv => ?_⟩
  · obtain ⟨w, hw, rfl⟩ := Option.map_eq_some_iff.1 hv
    exact (h a ha).quoted w hw
  · obtain ⟨w, hw, rfl⟩ := Option.map_eq_some_iff.1 hv
    exact ((h a ha).value w hw).strip remove

/-- A regular tag is woven, and stripping it strips its values. -/
theorem woven_source {t : StartTag} (ht : t.Legible) (h : t.IsRegular) :
    Woven t.source ∧ strip remove t.source = (t.stripped remove).source := by
  have hattribute (a : Attribute) (ha : a ∈ t.attributes) :=
    let ⟨hlead, _, hfits⟩ := fits_of_mem ht.attributes ha
    woven_source_of_isRegular remove hlead hfits (h a ha)
  have hattributes : Woven (t.attributes.flatMap Attribute.source) :=
    .flatMap fun a ha => (hattribute a ha).1
  have hname : Braceless ('<' :: t.written) :=
    Token.braceless_cons.2 ⟨by decide, braceless_of_isNameChar ht.written⟩
  have hend : Braceless (t.trail ++ t.ending) :=
    Token.braceless_append.2 ⟨braceless_of_isLead ht.trail.1, braceless_ending t⟩
  have hsource : t.source = ('<' :: t.written) ++ (t.attributes.flatMap Attribute.source ++
      (t.trail ++ t.ending)) := rfl
  rw [hsource]
  refine ⟨(Woven.of_braceless hname).append (hattributes.append (.of_braceless hend)), ?_⟩
  rw [Token.strip_braceless_append hname, Token.strip_append hattributes,
    Token.strip_of_braceless hend, Token.strip_flatMap fun a ha => (hattribute a ha).1,
    List.flatMap_congr fun a ha => (hattribute a ha).2]
  show _ = '<' :: (t.written ++
    ((t.attributes.map (Attribute.stripped remove)).flatMap Attribute.source ++ (t.trail ++ t.ending)))
  rw [List.flatMap_map, List.cons_append]

end StartTag

namespace Markup

theorem braceless_commentOpen : Braceless commentOpen := by decide

theorem braceless_commentClose : Braceless commentClose := by decide

/-- A regular piece is woven and stripped by itself, and what is left of it is regular. -/
theorem Piece.IsRegular.stripped {p : Piece} (h : p.IsRegular) :
    Woven p.source ∧ strip remove p.source = (p.stripped remove).source ∧
      (p.stripped remove).IsRegular := by
  cases p with
  | text s => exact ⟨h.2, rfl, fun hmem => h.1 (Token.mem_of_mem_strip hmem), h.2.strip remove⟩
  | comment s =>
    have hb : Braceless (Piece.comment s).source :=
      Token.braceless_append.2 ⟨braceless_commentOpen,
        Token.braceless_append.2 ⟨h.2, braceless_commentClose⟩⟩
    exact ⟨.of_braceless hb, Token.strip_of_braceless hb remove, h⟩
  | startTag t =>
    obtain ⟨hwoven, hstrip⟩ := StartTag.woven_source remove h.1 h.2
    exact ⟨hwoven, hstrip, StartTag.legible_stripped remove h.1 h.2⟩
  | endTag s =>
    have hb : Braceless (Piece.endTag s).source :=
      Token.braceless_cons.2 ⟨by decide, Token.braceless_cons.2 ⟨by decide,
        Token.braceless_append.2 ⟨h.2, by decide⟩⟩⟩
    exact ⟨.of_braceless hb, Token.strip_of_braceless hb remove, h⟩
  | stray s =>
    obtain ⟨hlt, x, r, rfl, hshut, hx, hr⟩ := h
    have hopen : Braceless ('<' :: x) := Token.braceless_cons.2 ⟨by decide, hx⟩
    have hstrip := Token.strip_braceless_append hx remove r
    refine ⟨(Woven.of_braceless hopen).append hr, ?_, fun hmem => hlt (Token.mem_of_mem_strip hmem),
      x, strip remove r, hstrip, hshut, hx, hr.strip remove⟩
    exact Token.strip_cons (by decide) remove (x ++ r)

/-- Stripping a regular template strips its pieces. -/
theorem strip_printed {ps : List Piece} (h : ∀ p ∈ ps, p.IsRegular) :
    strip remove (printed ps) = printed (ps.map (Piece.stripped remove)) ∧
      ∀ p ∈ ps.map (Piece.stripped remove), p.IsRegular := by
  constructor
  · rw [printed, Token.strip_flatMap (fun p hp => ((h p hp).stripped remove).1),
      List.flatMap_congr fun p hp => ((h p hp).stripped remove).2.1, printed, List.flatMap_map]
  · intro q hq
    obtain ⟨p, hp, rfl⟩ := List.mem_map.1 hq
    exact ((h p hp).stripped remove).2.2

/-- The tags of a regular template are those of its pieces. -/
theorem tags_printed {ps : List Piece} (h : ∀ p ∈ ps, p.IsRegular) :
    tags (printed ps) = ps.flatMap fun p => tags p.source :=
  Token.tags_flatMap fun p hp => ((h p hp).stripped fun _ => false).1

/-- A regular template is woven. -/
theorem woven_printed {ps : List Piece} (h : ∀ p ∈ ps, p.IsRegular) : Woven (printed ps) :=
  .flatMap fun p hp => ((h p hp).stripped fun _ => false).1

end Markup

end MaskedViews
