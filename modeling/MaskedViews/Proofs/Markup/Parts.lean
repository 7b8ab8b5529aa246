import MaskedViews.Proofs.Markup.Elements
import MaskedViews.Proofs.Markup.Refilled
import MaskedViews.Proofs.Template.Accounts
import MaskedViews.Proofs.Template.Parts
import MaskedViews.Proofs.Text.Escaping

/-!
# The parts of markup in pieces

The pieces of a template have parts in which placeholders may stand, the texts and the quoted
values, and parts that are fixed. If its tags keep to these parts (`KeepsToTexts`), what is read of
a start tag is a row of literals and placeholders, which render to the tag with other values in its
quotes (`exists_refilled_startTag`): escaped text holds no quote.
-/

namespace MaskedViews

namespace Markup

/-! ### Parts of pieces -/

/-- A part of a template in pieces. -/
inductive Part where
  /-- Markup in which no tag may stand. -/
  | fixed (s : Text)
  /-- Text between tags. -/
  | text (s : Text)
  /-- The value of an attribute. -/
  | value (s : Text)

namespace Part

/-- The text of a part. -/
def source : Part → Text
  | fixed s => s
  | text s => s
  | value s => s

/-- Whether a tag with a meaning may stand in a part: raw placeholders nowhere, and blocks only in
text. -/
def allows : Part → Mark → Bool
  | fixed _, _ => false
  | text _, .placeholder _ raw => !raw
  | text _, _ => true
  | value _, .placeholder _ raw => !raw
  | value _, _ => false

end Part

end Markup

/-- The parts of an attribute: its value, and what stands around it. -/
def Attribute.parts (a : Attribute) : List Markup.Part :=
  match a.assigned with
  | none => [.fixed a.source]
  | some v => [.fixed (a.lead ++ (a.written ++ v.head)), .value v.value, .fixed v.quoting.mark]

/-- The parts of a start tag. -/
def StartTag.parts (t : StartTag) : List Markup.Part :=
  .fixed ('<' :: t.written) ::
    (t.attributes.flatMap Attribute.parts ++ [.fixed (t.trail ++ t.ending)])

/-- The parts of a piece. -/
def Markup.Piece.parts : Markup.Piece → List Markup.Part
  | .text s => [.text s]
  | .startTag t => t.parts
  | p => [.fixed p.source]

theorem Attribute.source_parts (a : Attribute) : a.parts.flatMap Markup.Part.source = a.source := by
  unfold parts
  split
  · simp [Markup.Part.source]
  · next v hv => simp [Markup.Part.source, source, hv, Assignment.source]

theorem StartTag.source_parts (t : StartTag) : t.parts.flatMap Markup.Part.source = t.source := by
  have h : (t.attributes.flatMap Attribute.parts).flatMap Markup.Part.source =
      t.attributes.flatMap Attribute.source := by
    rw [List.flatMap_assoc]
    exact List.flatMap_congr fun a _ => a.source_parts
  rw [parts, List.flatMap_cons, List.flatMap_append, h]
  simp [Markup.Part.source, source]

/-- There is no text between tags in a tag. -/
theorem StartTag.ne_text_of_mem_parts (t : StartTag) :
    ∀ y ∈ t.parts, ∀ s, y ≠ Markup.Part.text s := by
  have hattribute (a : Attribute) : ∀ y ∈ a.parts, ∀ s, y ≠ Markup.Part.text s := by
    unfold Attribute.parts
    split <;> simp
  intro y hy s
  simp only [parts, List.mem_cons, List.mem_append, List.mem_flatMap, List.not_mem_nil,
    or_false] at hy
  rcases hy with rfl | ⟨a, -, ha⟩ | rfl
  · simp
  · exact hattribute a y ha s
  · simp

namespace Markup

theorem Piece.source_parts (p : Piece) : p.parts.flatMap Part.source = p.source := by
  cases p with
  | startTag t => exact t.source_parts
  | text s => simp [parts, Part.source, source]
  | comment s => simp [parts, Part.source]
  | endTag s => simp [parts, Part.source]
  | stray s => simp [parts, Part.source]

/-- The parts of a template are its text. -/
theorem source_parts (ps : List Piece) :
    (ps.flatMap Piece.parts).flatMap Part.source = printed ps := by
  rw [List.flatMap_assoc, printed]
  exact List.flatMap_congr fun p _ => p.source_parts

/-- Whether every tag of a template that means something lies inside one text or one quoted value,
blocks only in texts, and no placeholder is raw. -/
def KeepsToTexts (ps : List Piece) : Prop :=
  Token.Confined Part.source Part.allows 0 (ps.flatMap Piece.parts) (Token.tokenize (printed ps))

instance (ps : List Piece) : Decidable (KeepsToTexts ps) :=
  inferInstanceAs (Decidable (Token.Confined _ _ _ _ _))

end Markup

/-! ### Tokens without blocks -/

namespace Token

/-- Whether a token is read as text or as an escaped placeholder. -/
def IsFlat (t : Token) : Prop := t.mark = .text ∨ ∃ path, t.mark = .placeholder path false

theorem node_of_mark_text {t : Token} (h : t.mark = .text) : t.node = .literal t.source := by
  rw [node, h]

theorem foldl_of_isFlat {ts : List Token} (h : ∀ t ∈ ts, t.IsFlat) (r : Reading) :
    ts.foldl Reading.step r = r.add (ts.map node) := by
  induction ts generalizing r with
  | nil => exact (Reading.add_nil r).symm
  | cons t ts ih =>
    have hstep : r.step t = r.add [t.node] := by
      unfold Reading.step node
      rcases h t (by simp) with ht | ⟨path, ht⟩ <;> rw [ht]
    rw [List.foldl_cons, ih fun u hu => h u (List.mem_cons_of_mem t hu), hstep, Reading.add_add]
    rfl

variable (root scope : Json)

theorem renderAll_of_mark_text {ts : List Token} (h : ∀ t ∈ ts, t.mark = .text) :
    Node.renderAll root scope (ts.map node) = ts.flatMap source := by
  induction ts with
  | nil => simp
  | cons t ts ih =>
    rw [List.map_cons, Node.renderAll_cons, ih fun u hu => h u (List.mem_cons_of_mem t hu),
      node_of_mark_text (h t (by simp)), Node.render, List.flatMap_cons]

/-- What flat tokens render to comes from the template or from escaped text. -/
theorem mem_renderAll_of_isFlat {ts : List Token} (h : ∀ t ∈ ts, t.IsFlat) {c : Char}
    (hc : c ∈ Node.renderAll root scope (ts.map node)) :
    c ∈ ts.flatMap source ∨ ∃ s, c ∈ Text.escape s := by
  induction ts with
  | nil => simp at hc
  | cons t ts ih =>
    rw [List.map_cons, Node.renderAll_cons, List.mem_append] at hc
    rw [List.flatMap_cons, List.mem_append]
    rcases hc with hc | hc
    · rcases h t (by simp) with ht | ⟨path, ht⟩
      · rw [node_of_mark_text ht, Node.render] at hc
        exact .inl (.inl hc)
      · rw [node, ht] at hc
        simp only [Node.render] at hc
        exact .inr ⟨_, hc⟩
    · exact (ih (fun u hu => h u (List.mem_cons_of_mem t hu)) hc).imp_left .inr

end Token

/-! ### Reading parts -/

namespace Markup

/-- Whether tokens make up a part, and may all stand in it. -/
def Part.Holds (y : Part) (ts : List Token) : Prop :=
  ts.flatMap Token.source = y.source ∧ ∀ t ∈ ts, t.mark ≠ .text → y.allows t.mark = true

theorem Part.Holds.mark_text {s : Text} {ts : List Token} (h : (fixed s).Holds ts) :
    ∀ t ∈ ts, t.mark = .text := by
  intro t ht
  by_contra hmark
  exact absurd (h.2 t ht hmark) (by simp [allows])

theorem Part.Holds.ne_raw {s : Text} {ts : List Token} (h : (text s).Holds ts) :
    ∀ t ∈ ts, ∀ path, t.mark ≠ .placeholder path true := by
  intro t ht path hmark
  have := h.2 t ht (by simp [hmark])
  simp [hmark, allows] at this

theorem Part.Holds.isFlat {y : Part} {ts : List Token} (h : y.Holds ts) (hy : ∀ s, y ≠ .text s) :
    ∀ t ∈ ts, t.IsFlat := by
  intro t ht
  by_cases hmark : t.mark = .text
  · exact .inl hmark
  have hallows := h.2 t ht hmark
  cases y with
  | fixed s => simp [allows] at hallows
  | text s => exact absurd rfl (hy s)
  | value s =>
    cases hm : t.mark with
    | text => exact absurd hm hmark
    | placeholder path raw =>
      obtain rfl : raw = false := by simpa [hm, allows] using hallows
      exact .inr ⟨path, hm⟩
    | condOpen expr => simp [hm, allows] at hallows
    | condClose => simp [hm, allows] at hallows
    | eachOpen name => simp [hm, allows] at hallows
    | eachClose name => simp [hm, allows] at hallows

/-- What divides a row of parts divides its beginning. -/
theorem exists_of_holds_append {ys zs : List Part} {tss : List (List Token)}
    (h : List.Forall₂ Part.Holds (ys ++ zs) tss) : ∃ us vs, tss = us ++ vs ∧
      List.Forall₂ Part.Holds ys us ∧ List.Forall₂ Part.Holds zs vs := by
  induction ys generalizing tss with
  | nil => exact ⟨[], tss, rfl, .nil, h⟩
  | cons y ys ih =>
    cases h with
    | @cons _ ts _ tss hy h =>
      obtain ⟨us, vs, rfl, hus, hvs⟩ := ih h
      exact ⟨ts :: us, vs, rfl, .cons hy hus, hvs⟩

theorem isFlat_of_holds {ys : List Part} (hys : ∀ y ∈ ys, ∀ s, y ≠ .text s)
    {tss : List (List Token)} (h : List.Forall₂ Part.Holds ys tss) :
    ∀ t ∈ tss.flatten, t.IsFlat := by
  induction h with
  | nil => simp
  | @cons y ts ys tss hy _ ih =>
    rw [List.flatten_cons, List.forall_mem_append]
    exact ⟨hy.isFlat (hys y (by simp)), ih fun z hz => hys z (List.mem_cons_of_mem y hz)⟩

variable (root scope : Json)

/-- What is read of an attribute renders to it with another value. -/
theorem exists_refilled_attribute {a : Attribute} {rest : Text} (ha : a.Fits rest)
    (hquotes : a.HasQuotes) {tss : List (List Token)} (h : List.Forall₂ Part.Holds a.parts tss) :
    ∃ b, a.RefilledAs b ∧ Node.renderAll root scope (tss.flatten.map Token.node) = b.source := by
  unfold Attribute.parts at h
  split at h
  · next hnone =>
    match tss, h with
    | [ts], .cons hts .nil =>
    refine ⟨a, .flag hnone, ?_⟩
    rw [List.flatten_singleton, Token.renderAll_of_mark_text root scope hts.mark_text, hts.1]
    rfl
  · next v hv =>
    match tss, h with
    | [ts, us, vs], .cons hts (.cons hus (.cons hvs .nil)) =>
    have hassigned := ha.assigned
    rw [hv] at hassigned
    have hvalue : v.quoting.Fits v.value rest := hassigned.value
    cases hq : v.quoting with
    | bare => exact absurd hq (hquotes v hv)
    | quoted quote =>
      rw [hq] at hvalue
      have hflat := hus.isFlat (by simp)
      have hquote : quote ∉ Node.renderAll root scope (us.map Token.node) := by
        intro hmem
        rcases Token.mem_renderAll_of_isFlat root scope hflat hmem with hmem | ⟨s, hmem⟩
        · rw [hus.1] at hmem
          exact hvalue.2 hmem
        · exact Text.not_mem_escape (.inr (.inr (StartTag.isQuote_iff.1 hvalue.1))) s hmem
      refine ⟨_, .value hv hq hquote, ?_⟩
      simp only [List.flatten_cons, List.flatten_nil, List.append_nil, List.map_append,
        Node.renderAll_append, Token.renderAll_of_mark_text root scope hts.mark_text,
        Token.renderAll_of_mark_text root scope hvs.mark_text, hts.1, hvs.1, Part.source]
      simp [Attribute.source, Assignment.source, Assignment.head]

/-- What is read of attributes renders to them with other values. -/
theorem exists_refilled {attributes : List Attribute} {rest : Text}
    (hfits : StartTag.AttributesFit attributes rest)
    (hquotes : ∀ a ∈ attributes, a.HasQuotes) {tss : List (List Token)}
    (h : List.Forall₂ Part.Holds (attributes.flatMap Attribute.parts) tss) :
    ∃ refilled, List.Forall₂ Attribute.RefilledAs attributes refilled ∧
      Node.renderAll root scope (tss.flatten.map Token.node) =
        refilled.flatMap Attribute.source := by
  induction attributes generalizing tss with
  | nil =>
    cases h
    exact ⟨[], .nil, by simp⟩
  | cons a attributes ih =>
    rw [List.flatMap_cons] at h
    obtain ⟨us, vs, rfl, hus, hvs⟩ := exists_of_holds_append h
    obtain ⟨b, hb, hrender⟩ :=
      exists_refilled_attribute root scope hfits.1.2 (hquotes a (by simp)) hus
    obtain ⟨refilled, hrefilled, hrest⟩ :=
      ih hfits.2 (fun c hc => hquotes c (List.mem_cons_of_mem a hc)) hvs
    refine ⟨b :: refilled, .cons hb hrefilled, ?_⟩
    rw [List.flatten_append, List.map_append, Node.renderAll_append, hrender, hrest,
      List.flatMap_cons]

/-- What is read of a start tag renders to a start tag of its shape. -/
theorem exists_refilled_startTag (root scope : Json) {t : StartTag} (ht : t.Legible)
    (hquotes : t.HasQuotes) {tss : List (List Token)} (h : List.Forall₂ Part.Holds t.parts tss) :
    ∃ u : StartTag, u.Legible ∧ u.HasShapeOf t ∧
      Node.renderAll root scope (tss.flatten.map Token.node) = u.source := by
  match tss, h with
  | ts :: tss, .cons hname h =>
  obtain ⟨us, vs, rfl, hus, hvs⟩ := exists_of_holds_append h
  match vs, hvs with
  | [vs], .cons hend .nil =>
  obtain ⟨refilled, hrefilled, hrender⟩ := exists_refilled root scope ht.attributes hquotes hus
  obtain ⟨hlegible, hshape⟩ := StartTag.legible_refilled ht hrefilled
  refine ⟨{ t with attributes := refilled }, hlegible, hshape, ?_⟩
  simp only [List.flatten_cons, List.flatten_append, List.flatten_nil, List.append_nil,
    List.map_append, Node.renderAll_append, hrender,
    Token.renderAll_of_mark_text root scope hname.mark_text,
    Token.renderAll_of_mark_text root scope hend.mark_text, hname.1, hend.1, Part.source]
  simp [StartTag.source, StartTag.ending]

end Markup

end MaskedViews
