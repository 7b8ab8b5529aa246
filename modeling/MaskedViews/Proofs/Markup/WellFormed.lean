import MaskedViews.Proofs.Markup.Pieces

/-!
# Well-formed markup

A part of a tag is well-formed if it keeps to a few rules of its own: a name holds no character
that would end it, a value is free of its quote. None of the rules looks at what follows the part,
but for one: a slash is not taken for the end of a tag when it touches a value without quotes. So
well-formed parts can be put down one behind the other, and the reader finds each of them again
(`StartTag.WellFormed.legible`, `Markup.Piece.WellFormed.fits`).
-/

namespace MaskedViews

/-! ### Well-formed parts -/

/-- A value that can stand between its marks: in quotes it is free of the quote, and without quotes
it is there, free of blanks and of `>`, and begins with no quote. -/
def Quoting.Holds (value : Text) : Quoting → Prop
  | .bare => value ≠ [] ∧ (∀ c ∈ value, StartTag.isBareChar c = true) ∧
      value.head?.any isQuote = false
  | .quoted quote => isQuote quote = true ∧ quote ∉ value

instance Quoting.decidableHolds (value : Text) : DecidablePred (Quoting.Holds value)
  | .bare => inferInstanceAs (Decidable (value ≠ [] ∧
      (∀ c ∈ value, StartTag.isBareChar c = true) ∧ value.head?.any isQuote = false))
  | .quoted quote => inferInstanceAs (Decidable (isQuote quote = true ∧ quote ∉ value))

/-- An assignment that can be put down behind a name. -/
structure Assignment.WellFormed (v : Assignment) : Prop where
  /-- There are only blanks before `=`. -/
  before : ∀ c ∈ v.before, Text.isAsciiBlank c = true
  /-- There are only blanks after `=`. -/
  after : ∀ c ∈ v.after, Text.isAsciiBlank c = true
  /-- The value can stand as it is quoted. -/
  value : v.quoting.Holds v.value

instance Assignment.decidableWellFormed : DecidablePred Assignment.WellFormed := fun v =>
  decidable_of_iff ((∀ c ∈ v.before, Text.isAsciiBlank c = true) ∧
      (∀ c ∈ v.after, Text.isAsciiBlank c = true) ∧ v.quoting.Holds v.value)
    ⟨fun ⟨hbefore, hafter, hvalue⟩ => ⟨hbefore, hafter, hvalue⟩,
      fun ⟨hbefore, hafter, hvalue⟩ => ⟨hbefore, hafter, hvalue⟩⟩

/-- An attribute that can be put down behind a name or another attribute. -/
structure Attribute.WellFormed (a : Attribute) : Prop where
  /-- It is set off by blanks. -/
  lead : a.lead ≠ [] ∧ ∀ c ∈ a.lead, Text.isAsciiBlank c = true
  /-- The name is there and holds no character that would end it. -/
  written : a.written ≠ [] ∧ ∀ c ∈ a.written, StartTag.isAttributeChar c = true
  /-- What is assigned to it can be put down. -/
  assigned : ∀ v ∈ a.assigned, v.WellFormed

instance Attribute.decidableWellFormed : DecidablePred Attribute.WellFormed := fun a =>
  decidable_of_iff ((a.lead ≠ [] ∧ ∀ c ∈ a.lead, Text.isAsciiBlank c = true) ∧
      (a.written ≠ [] ∧ ∀ c ∈ a.written, StartTag.isAttributeChar c = true) ∧
      ∀ v ∈ a.assigned, v.WellFormed)
    ⟨fun ⟨hlead, hwritten, hassigned⟩ => ⟨hlead, hwritten, hassigned⟩,
      fun ⟨hlead, hwritten, hassigned⟩ => ⟨hlead, hwritten, hassigned⟩⟩

/-- Whether an attribute ends in a value without quotes. -/
def Attribute.EndsBare (a : Attribute) : Prop := ∃ v ∈ a.assigned, v.quoting = .bare

instance Attribute.decidableEndsBare : DecidablePred Attribute.EndsBare := fun a =>
  inferInstanceAs (Decidable (∃ v ∈ a.assigned, v.quoting = .bare))

/-- A start tag that can be put down anywhere. -/
structure StartTag.WellFormed (t : StartTag) : Prop where
  /-- The name begins with a letter. -/
  letter : t.written.head?.any Char.isAlpha = true
  /-- The name consists of letters, digits and `-`. -/
  written : ∀ c ∈ t.written, StartTag.isNameChar c = true
  /-- The attributes can be put down. -/
  attributes : ∀ a ∈ t.attributes, a.WellFormed
  /-- There are only blanks before the end. -/
  trail : ∀ c ∈ t.trail, Text.isAsciiBlank c = true
  /-- A value without quotes does not touch the slash of `/>`. -/
  slash : t.selfClosing = true → t.trail = [] → ∀ a ∈ t.attributes.getLast?, ¬ a.EndsBare

instance StartTag.decidableWellFormed : DecidablePred StartTag.WellFormed := fun t =>
  decidable_of_iff (t.written.head?.any Char.isAlpha = true ∧
      (∀ c ∈ t.written, StartTag.isNameChar c = true) ∧ (∀ a ∈ t.attributes, a.WellFormed) ∧
      (∀ c ∈ t.trail, Text.isAsciiBlank c = true) ∧
      (t.selfClosing = true → t.trail = [] → ∀ a ∈ t.attributes.getLast?, ¬ a.EndsBare))
    ⟨fun ⟨hletter, hwritten, hattributes, htrail, hslash⟩ =>
        ⟨hletter, hwritten, hattributes, htrail, hslash⟩,
      fun ⟨hletter, hwritten, hattributes, htrail, hslash⟩ =>
        ⟨hletter, hwritten, hattributes, htrail, hslash⟩⟩

/-- A piece of markup that can be put down anywhere. -/
def Markup.Piece.WellFormed : Markup.Piece → Prop
  | .text s => '<' ∉ s
  | .comment s => ¬ commentClose <:+: s
  | .startTag t => t.WellFormed
  | .endTag s => '<' ∉ s ∧ '>' ∉ s
  | .stray s => '<' ∉ s ∧ Shut s

instance Markup.Piece.decidableWellFormed : DecidablePred Markup.Piece.WellFormed
  | .text s => inferInstanceAs (Decidable ('<' ∉ s))
  | .comment s => inferInstanceAs (Decidable (¬ commentClose <:+: s))
  | .startTag t => inferInstanceAs (Decidable t.WellFormed)
  | .endTag s => inferInstanceAs (Decidable ('<' ∉ s ∧ '>' ∉ s))
  | .stray s => inferInstanceAs (Decidable ('<' ∉ s ∧ Shut s))

/-! ### Well-formed tags are legible -/

open Text (Heads)

/-- An assignment is read in front of a text that does not go on with its value. -/
theorem Assignment.WellFormed.fits {v : Assignment} {written rest : Text} (h : v.WellFormed)
    (hwritten : written ≠ []) (hrest : v.quoting = .bare → Heads (!StartTag.isBareChar ·) rest) :
    v.Fits written rest := by
  refine ⟨h.before, fun hnil => absurd hnil hwritten, h.after, ?_⟩
  have hvalue := h.value
  cases hq : v.quoting with
  | quoted quote =>
    rw [hq] at hvalue
    exact hvalue
  | bare =>
    rw [hq] at hvalue
    obtain ⟨hne, hchars, hquote⟩ := hvalue
    obtain ⟨c, s, hs⟩ := List.exists_cons_of_ne_nil hne
    have hc : StartTag.isBareChar c = true := hchars c (by simp [hs])
    rw [StartTag.isBareChar, Bool.and_eq_true, Bool.not_eq_true'] at hc
    exact ⟨hchars, hrest hq, c, by simp [hs], hc.1, by simpa [hs] using hquote⟩

namespace Attribute

variable {a : Attribute}

/-- An attribute is read in front of a text that goes on neither with its name nor with its
value. -/
theorem WellFormed.fits {rest : Text} (h : a.WellFormed) (hname : EndsFlag rest)
    (hvalue : a.EndsBare → Heads (!StartTag.isBareChar ·) rest) : a.Fits rest := by
  refine ⟨h.written.2, ?_⟩
  cases ha : a.assigned with
  | none => exact ⟨h.written.1, hname⟩
  | some v => exact (h.assigned v ha).fits h.written.1 fun hbare => hvalue ⟨v, ha, hbare⟩

/-- Blanks set an attribute off from what stands before it. -/
theorem WellFormed.heads {p : Char → Bool} (h : a.WellFormed)
    (hp : ∀ c, Text.isAsciiBlank c = true → p c = true) (r : Text) : Heads p (a.source ++ r) := by
  obtain ⟨c, s, hs⟩ := List.exists_cons_of_ne_nil h.lead.1
  rw [source_eq, hs, List.cons_append, List.cons_append, Text.heads_cons]
  exact hp c (h.lead.2 c (by simp [hs]))

/-- An attribute assigns nothing to what stands before it: behind its blanks comes its name. -/
theorem WellFormed.endsFlag (h : a.WellFormed) (r : Text) : EndsFlag (a.source ++ r) := by
  refine ⟨h.heads (fun c hc => by simp [StartTag.not_isAttributeChar_of_isAsciiBlank hc]) r, ?_⟩
  obtain ⟨c, s, hs⟩ := List.exists_cons_of_ne_nil h.written.1
  obtain ⟨hblank, hne, -, -⟩ := StartTag.isAttributeChar_iff.1 (h.written.2 c (by simp [hs]))
  have hbody : Heads (!Text.isAsciiBlank ·) (a.body ++ r) := by
    rw [body, hs, List.cons_append, List.cons_append, Text.heads_cons, hblank]
    rfl
  rw [source_eq, List.append_assoc, (Text.split_append_of_heads h.lead.2 hbody).2, body, hs]
  simpa using hne

end Attribute

namespace StartTag

theorem not_isAttributeChar_of_endsName {c : Char} (h : endsName c = true) :
    isAttributeChar c = false := by
  simp only [endsName, Bool.or_eq_true, decide_eq_true_eq] at h
  rcases h with (h | rfl) | rfl
  · exact not_isAttributeChar_of_isAsciiBlank h
  · rfl
  · rfl

/-- Attributes are read in front of a text that goes on with none of them. -/
theorem attributesFit_of_wellFormed {attributes : List Attribute} {rest : Text}
    (h : ∀ a ∈ attributes, a.WellFormed) (hname : Attribute.EndsFlag rest)
    (hvalue : ∀ a ∈ attributes.getLast?, a.EndsBare → Heads (!isBareChar ·) rest) :
    AttributesFit attributes rest := by
  induction attributes with
  | nil => trivial
  | cons a attributes ih =>
    have ha := h a (by simp)
    refine ⟨⟨fun c hc => Or.inl (ha.lead.2 c hc), ?_⟩, ?_⟩
    · cases attributes with
      | nil => exact ha.fits hname (hvalue a rfl)
      | cons b attributes =>
        have hb := h b (by simp)
        rw [List.flatMap_cons, List.append_assoc]
        exact ha.fits (hb.endsFlag _) fun _ =>
          hb.heads (fun c hc => by simp [isBareChar, hc]) _
    · refine ih (fun b hb => h b (List.mem_cons_of_mem a hb)) fun b hb => hvalue b ?_
      cases attributes with
      | nil => cases hb
      | cons c attributes => rwa [List.getLast?_cons_cons]

variable {t : StartTag}

/-- What stands behind the attributes of a tag could as well stand behind its name. -/
theorem WellFormed.heads_trail (h : t.WellFormed) : Heads endsName (t.trail ++ t.ending) := by
  cases htrail : t.trail with
  | nil =>
    obtain ⟨c, s, hs, hc⟩ := exists_ending_eq t.selfClosing
    rw [List.nil_append, ending_eq, hs, Text.heads_cons]
    rcases hc with rfl | rfl <;> rfl
  | cons c trail =>
    exact Text.heads_cons.2 (endsName_of_isAsciiBlank c (h.trail c (by simp [htrail])))

/-- It goes on with no name of an attribute. -/
theorem WellFormed.endsFlag (h : t.WellFormed) : Attribute.EndsFlag (t.trail ++ t.ending) := by
  refine ⟨fun c hc => by simp [not_isAttributeChar_of_endsName (h.heads_trail c hc)], ?_⟩
  obtain ⟨c, s, hs, hc⟩ := exists_ending_eq t.selfClosing
  have hfirm : Text.isAsciiBlank c = false ∧ c ≠ '=' := by rcases hc with rfl | rfl <;> decide
  have hheads : Heads (!Text.isAsciiBlank ·) (c :: s) := Text.heads_cons.2 (by simp [hfirm.1])
  rw [ending_eq, hs, (Text.split_append_of_heads h.trail hheads).2]
  simpa using hfirm.2

/-- It goes on with no value either, if there is one that it could go on with. -/
theorem WellFormed.heads_of_endsBare (h : t.WellFormed) {a : Attribute}
    (ha : a ∈ t.attributes.getLast?) (hbare : a.EndsBare) :
    Heads (!isBareChar ·) (t.trail ++ t.ending) := by
  cases htrail : t.trail with
  | nil =>
    have hclosing : t.selfClosing = false := by
      rw [← Bool.not_eq_true]
      exact fun hclosing => h.slash hclosing htrail a ha hbare
    rw [ending, hclosing]
    exact Text.heads_cons.2 rfl
  | cons c trail =>
    have hc := h.trail c (by simp [htrail])
    rw [List.cons_append, Text.heads_cons, isBareChar, hc]
    rfl

/-- **Well-formed tags are legible.** -/
theorem WellFormed.legible (h : t.WellFormed) : t.Legible := by
  refine ⟨h.letter, h.written, ?_, ?_, fun c hc => Or.inl (h.trail c hc), fun _ hlast => ?_⟩
  · cases hattributes : t.attributes with
    | nil => exact h.heads_trail
    | cons a attributes =>
      rw [List.flatMap_cons, List.append_assoc]
      exact (h.attributes a (by simp [hattributes])).heads endsName_of_isAsciiBlank _
  · exact attributesFit_of_wellFormed h.attributes h.endsFlag fun a ha => h.heads_of_endsBare ha
  · exact absurd (h.trail '/' (List.mem_of_getLast? hlast)) (by decide)

end StartTag

theorem Markup.Piece.WellFormed.fits {p : Piece} (h : p.WellFormed) : p.Fits := by
  cases p with
  | text s => exact h
  | comment s => exact Piece.fits_comment_iff.2 h
  | startTag t => exact StartTag.WellFormed.legible h
  | endTag s => exact h
  | stray s => exact h

end MaskedViews
