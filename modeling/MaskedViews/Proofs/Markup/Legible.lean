import MaskedViews.Markup.Tag
import MaskedViews.Proofs.Text.Cutting

/-!
# Legible tags

A tag is legible if its parts are such that the reader finds them again where they stand: the names
hold no character that would end them, a value is not taken to end too early, and so on. These are
conditions on each part and on the first characters of what follows it. Legible tags are what the
reader reads, and all of what it reads (`read?_eq_some_iff`).
-/

namespace MaskedViews

/-! ### Attributes -/

/-- Whether a character quotes a value. -/
def isQuote (c : Char) : Bool := c = '"' || c = '\''

/-- A value that is read as it stands in front of a text. -/
def Quoting.Fits (value rest : Text) : Quoting → Prop
  | .bare => (∀ c ∈ value, StartTag.isBareChar c = true) ∧
      Text.Heads (!StartTag.isBareChar ·) rest ∧
      ∃ c, (value ++ rest).head? = some c ∧ Text.isAsciiBlank c = false ∧ isQuote c = false
  | .quoted quote => isQuote quote = true ∧ quote ∉ value

/-- An assignment to a name that is read as it stands in front of a text. -/
structure Assignment.Fits (written : Text) (v : Assignment) (rest : Text) : Prop where
  /-- There are only blanks before `=`. -/
  before : ∀ c ∈ v.before, Text.isAsciiBlank c = true
  /-- Without a name there are not even those. -/
  before_eq_nil : written = [] → v.before = []
  /-- There are only blanks after `=`. -/
  after : ∀ c ∈ v.after, Text.isAsciiBlank c = true
  /-- The value is not cut short, nor does it go on. -/
  value : v.quoting.Fits v.value rest

namespace Attribute

/-- The text of an attribute behind its lead. -/
def body (a : Attribute) : Text := a.written ++ (a.assigned.map Assignment.source).getD []

theorem source_eq (a : Attribute) : a.source = a.lead ++ a.body := rfl

/-- A text that does not go on with a name, nor with an assignment to it. -/
def EndsFlag (rest : Text) : Prop :=
  Text.Heads (!StartTag.isAttributeChar ·) rest ∧ (rest.dropWhile Text.isAsciiBlank).head? ≠ some '='

/-- An attribute whose name and value are read as they stand in front of a text. -/
structure Fits (a : Attribute) (rest : Text) : Prop where
  /-- The name holds no character that would end it. -/
  written : ∀ c ∈ a.written, StartTag.isAttributeChar c = true
  /-- What is assigned is read; without an assignment there is a name, and it ends. -/
  assigned : match a.assigned with
    | some v => v.Fits a.written rest
    | none => a.written ≠ [] ∧ EndsFlag rest

end Attribute

namespace StartTag

open Text (Heads)

theorem isQuote_iff {c : Char} : isQuote c = true ↔ c = '"' ∨ c = '\'' := by
  simp [isQuote]

theorem readValue?_eq_some_iff {s value r : Text} {q : Quoting}
    (hs : Heads (!Text.isAsciiBlank ·) s) :
    readValue? s = some (q, value, r) ↔
      q.Fits value r ∧ s = q.mark ++ (value ++ (q.mark ++ r)) := by
  constructor
  · intro h
    refine ⟨?_, eq_of_readValue? h⟩
    unfold readValue? at h
    split at h
    · cases h
    next c s =>
    split at h
    · next hc =>
      obtain ⟨⟨v, r'⟩, hv, h⟩ := Option.map_eq_some_iff.1 h
      simp only [Prod.mk.injEq] at h
      obtain ⟨rfl, rfl, rfl⟩ := h
      exact ⟨isQuote_iff.2 hc, (Text.cut?_singleton_eq_some_iff.1 hv).2⟩
    · next hc =>
      simp only [Option.some.injEq, Prod.mk.injEq] at h
      obtain ⟨rfl, rfl, rfl⟩ := h
      refine ⟨fun d hd => List.mem_takeWhile_imp hd, Text.heads_dropWhile _ _, c, ?_, ?_, ?_⟩
      · rw [List.takeWhile_append_dropWhile, List.head?_cons]
      · simpa using Text.heads_cons.1 hs
      · rw [← Bool.not_eq_true, isQuote_iff]
        exact hc
  · rintro ⟨hq, rfl⟩
    cases q with
    | bare =>
      obtain ⟨hv, hr, c, hhead, -, hc⟩ := hq
      obtain ⟨htake, hdrop⟩ := Text.split_append_of_heads hv hr
      simp only [Quoting.mark, List.nil_append]
      obtain ⟨s, hs⟩ := List.head?_eq_some_iff.1 hhead
      rw [← Bool.not_eq_true, isQuote_iff] at hc
      rw [hs] at htake hdrop ⊢
      rw [readValue?, if_neg hc, htake, hdrop]
    | quoted quote =>
      obtain ⟨hquote, hv⟩ := hq
      simp only [Quoting.mark, List.singleton_append]
      rw [readValue?, if_pos (isQuote_iff.1 hquote), Text.cut?_singleton_eq_some_iff.2 ⟨rfl, hv⟩]
      rfl

theorem not_isAttributeChar_of_isAsciiBlank {c : Char} (h : Text.isAsciiBlank c = true) :
    isAttributeChar c = false := by
  simp [isAttributeChar, h]

theorem takeWhile_eq_nil_of_heads {p : Char → Bool} {s : Text} (h : Heads (!p ·) s) :
    s.takeWhile p = [] := by
  simpa using (Text.split_append_of_heads (s := []) (by simp) h).1

theorem fits_of_readAttribute? {lead s r : Text} {a : Attribute}
    (hs : Heads (!Text.isAsciiBlank ·) s) (h : readAttribute? lead s = some (a, r)) :
    a.lead = lead ∧ a.Fits r := by
  unfold readAttribute? at h
  dsimp only at h
  split at h
  · next afterEquals he =>
    obtain ⟨⟨q, value, r'⟩, hv, h⟩ := Option.map_eq_some_iff.1 h
    simp only [Prod.mk.injEq] at h
    obtain ⟨rfl, rfl⟩ := h
    have hvalue := (readValue?_eq_some_iff (Text.heads_dropWhile _ _)).1 hv
    refine ⟨rfl, fun c hc => List.mem_takeWhile_imp hc, ?_⟩
    refine ⟨fun c hc => List.mem_takeWhile_imp hc, fun hw => ?_,
      fun c hc => List.mem_takeWhile_imp hc, hvalue.1⟩
    have hsplit := List.takeWhile_append_dropWhile (p := isAttributeChar) (l := s)
    rw [show s.takeWhile isAttributeChar = [] from hw, List.nil_append] at hsplit
    rw [← hsplit] at hs
    exact takeWhile_eq_nil_of_heads hs
  · next hne =>
    split at h
    · cases h
    next hw =>
    simp only [Option.some.injEq, Prod.mk.injEq] at h
    obtain ⟨rfl, rfl⟩ := h
    refine ⟨rfl, fun c hc => List.mem_takeWhile_imp hc, hw, Text.heads_dropWhile _ _, ?_⟩
    intro hhead
    obtain ⟨x, hx⟩ := List.head?_eq_some_iff.1 hhead
    exact hne x hx

/-- A text that begins an attribute: the lead has been passed, so no blank stands there. -/
theorem readAttribute?_eq_some_iff {lead s r : Text} {a : Attribute}
    (hs : Heads (!Text.isAsciiBlank ·) s) :
    readAttribute? lead s = some (a, r) ↔ a.lead = lead ∧ a.Fits r ∧ s = a.body ++ r := by
  constructor
  · intro h
    have heq := (eq_of_readAttribute? h).1
    obtain ⟨hlead, hfits⟩ := fits_of_readAttribute? hs h
    rw [Attribute.source_eq, hlead, List.append_assoc] at heq
    exact ⟨hlead, hfits, List.append_cancel_left heq⟩
  · rintro ⟨rfl, ⟨hw, hassigned⟩, rfl⟩
    obtain ⟨lead, written, assigned⟩ := a
    cases assigned with
    | none =>
      obtain ⟨hne, hends, heq⟩ := hassigned
      obtain ⟨htake, hdrop⟩ := Text.split_append_of_heads hw hends
      simp only [Attribute.body, Option.map_none, Option.getD_none, List.append_nil]
      unfold readAttribute?
      simp only [htake, hdrop, if_neg hne]
      split
      · next x hx =>
        rw [hx] at heq
        exact absurd rfl heq
      · rfl
    | some v =>
      obtain ⟨before, after, q, value⟩ := v
      obtain ⟨hbefore, -, hafter, hvalue⟩ := hassigned
      have hhead : Heads (!isAttributeChar ·)
          (before ++ '=' :: (after ++ (q.mark ++ (value ++ (q.mark ++ r))))) := by
        cases before with
        | nil => exact Text.heads_cons.2 (by decide)
        | cons c before =>
          exact Text.heads_cons.2 (by
            rw [not_isAttributeChar_of_isAsciiBlank (hbefore c (by simp))]
            rfl)
      obtain ⟨htake, hdrop⟩ := Text.split_append_of_heads hw hhead
      obtain ⟨htake₁, hdrop₁⟩ := Text.split_append_of_heads (p := Text.isAsciiBlank)
        (t := '=' :: (after ++ (q.mark ++ (value ++ (q.mark ++ r))))) hbefore
        (Text.heads_cons.2 (by decide))
      have hheads : Heads (!Text.isAsciiBlank ·) (q.mark ++ (value ++ (q.mark ++ r))) := by
        cases q with
        | bare =>
          obtain ⟨-, -, c, hhead, hc, -⟩ := hvalue
          intro d hd
          simp only [Quoting.mark, List.nil_append] at hd
          rw [hhead, Option.some.injEq] at hd
          simp [← hd, hc]
        | quoted quote =>
          refine Text.heads_cons.2 ?_
          rcases isQuote_iff.1 hvalue.1 with rfl | rfl <;> decide
      obtain ⟨htake₂, hdrop₂⟩ := Text.split_append_of_heads hafter hheads
      have hread := (readValue?_eq_some_iff hheads).2 ⟨hvalue, rfl⟩
      simp only [Attribute.body, Option.map_some, Option.getD_some, Assignment.source,
        Assignment.head, List.append_assoc, List.cons_append]
      unfold readAttribute?
      simp only [htake, hdrop, htake₁, hdrop₁, htake₂, hdrop₂, hread, Option.map_some]

/-! ### Leads -/

/-- Nothing but blanks and slashes. -/
def IsLead (lead : Text) : Prop := ∀ c ∈ lead, Text.isAsciiBlank c = true ∨ c = '/'

/-- A text that no lead goes on into: the slash of `/>` is no stray one. -/
def StopsLead (rest : Text) : Prop :=
  ∀ c r, rest = c :: r → Text.isAsciiBlank c = false ∧ (c = '/' → r.head? = some '>')

/-- A lead that ends where a text goes on: a slash in front of `>` is no part of it. -/
structure LeadFits (lead rest : Text) : Prop where
  /-- It is a lead. -/
  isLead : IsLead lead
  /-- It is all of the lead. -/
  stops : StopsLead rest
  /-- It does not take the slash of `/>`. -/
  ending : rest.head? = some '>' → lead.getLast? ≠ some '/'

theorem leadFits_splitLead (s : Text) : LeadFits (splitLead s).1 (splitLead s).2 := by
  induction s with
  | nil => exact ⟨by simp [splitLead, IsLead], by simp [splitLead, StopsLead], by simp [splitLead]⟩
  | cons c s ih =>
    rw [splitLead]
    split
    · next hc =>
      simp only [Bool.or_eq_true, Bool.and_eq_true, decide_eq_true_eq] at hc
      dsimp only
      refine ⟨?_, ih.stops, fun hhead => ?_⟩
      · intro d hd
        rcases List.mem_cons.1 hd with rfl | hd
        · exact hc.imp_right And.left
        · exact ih.isLead d hd
      · have happend := splitLead_append s
        cases hlead : (splitLead s).1 with
        | cons d lead =>
          have := ih.ending hhead
          rw [hlead] at this
          simpa using this
        | nil =>
          rw [hlead, List.nil_append] at happend
          rw [happend] at hhead
          rw [List.getLast?_singleton, ne_eq, Option.some.injEq]
          rintro rfl
          rcases hc with hc | hc
          · exact absurd hc (by decide)
          · exact hc.2 hhead
    · next hc =>
      simp only [Bool.or_eq_true, Bool.and_eq_true, decide_eq_true_eq, not_or, not_and,
        Decidable.not_not, Bool.not_eq_true] at hc
      refine ⟨by simp [IsLead], ?_, by simp⟩
      rintro d r h
      simp only [List.cons.injEq] at h
      obtain ⟨rfl, rfl⟩ := h
      exact hc

theorem splitLead_append_of_fits {lead rest : Text} (h : LeadFits lead rest) :
    splitLead (lead ++ rest) = (lead, rest) := by
  obtain ⟨hlead, hstops, hending⟩ := h
  induction lead with
  | nil =>
    cases rest with
    | nil => rfl
    | cons c rest =>
      obtain ⟨hblank, hslash⟩ := hstops c rest rfl
      have hc : (Text.isAsciiBlank c || (c = '/' && rest.head? ≠ some '>')) = false := by
        by_cases hc : c = '/'
        · simp [hblank, hslash hc]
        · simp [hblank, hc]
      rw [List.nil_append, splitLead, hc]
      rfl
  | cons c lead ih =>
    have hih := ih (fun d hd => hlead d (List.mem_cons_of_mem c hd)) (fun hhead => by
      cases lead with
      | nil => simp
      | cons d lead => simpa using hending hhead)
    have hc : (Text.isAsciiBlank c || (c = '/' && (lead ++ rest).head? ≠ some '>')) = true := by
      rcases hlead c (by simp) with hc | rfl
      · simp [hc]
      · -- what follows the slash is more of the lead, or the rest behind the last of it
        have : (lead ++ rest).head? ≠ some '>' := by
          cases lead with
          | nil =>
            intro hhead
            exact hending hhead rfl
          | cons d lead =>
            rintro hhead
            simp only [List.cons_append, List.head?_cons, Option.some.injEq] at hhead
            subst hhead
            have := hlead '>' (by simp)
            revert this
            decide
        rw [Bool.or_eq_true, Bool.and_eq_true]
        exact Or.inr ⟨rfl, decide_eq_true this⟩
    rw [List.cons_append, splitLead, hc]
    simp [hih]

/-! ### The attributes of a tag -/

/-- What a tag ends in. -/
def endingOf (closing : Bool) : Text := if closing then ['/', '>'] else ['>']

theorem ending_eq (t : StartTag) : t.ending = endingOf t.selfClosing := rfl

/-- Attributes that are read as they stand in front of a text. -/
def AttributesFit : List Attribute → Text → Prop
  | [], _ => True
  | a :: attributes, rest =>
    (IsLead a.lead ∧ a.Fits (attributes.flatMap Attribute.source ++ rest)) ∧
      AttributesFit attributes rest

/-- Each of them is read as it stands in front of what follows it. -/
theorem fits_of_mem {attributes : List Attribute} {rest : Text} (h : AttributesFit attributes rest)
    {a : Attribute} (ha : a ∈ attributes) : IsLead a.lead ∧ ∃ r, a.Fits r := by
  induction attributes with
  | nil => cases ha
  | cons b attributes ih =>
    rcases List.mem_cons.1 ha with rfl | ha
    · exact ⟨h.1.1, _, h.1.2⟩
    · exact ih h.2 ha

/-- A trail that is read as it stands in front of an ending. -/
def TrailFits (trail : Text) (closing : Bool) : Prop :=
  IsLead trail ∧ (closing = false → trail.getLast? ≠ some '/')

theorem leadFits_of_trailFits {trail : Text} {closing : Bool} (h : TrailFits trail closing)
    (r : Text) : LeadFits trail (endingOf closing ++ r) := by
  refine ⟨h.1, ?_, ?_⟩
  · rintro c r' heq
    cases closing with
    | true =>
      simp only [endingOf, if_true, List.cons_append, List.cons.injEq] at heq
      obtain ⟨rfl, rfl⟩ := heq
      exact ⟨by decide, fun _ => rfl⟩
    | false =>
      simp only [endingOf, Bool.false_eq_true, if_false, List.cons_append, List.cons.injEq] at heq
      obtain ⟨rfl, rfl⟩ := heq
      exact ⟨by decide, fun h => absurd h (by decide)⟩
  · intro hhead
    cases closing with
    | true => simp [endingOf] at hhead
    | false => exact h.2 rfl

/-- An attribute begins with a character of its name, or with `=` if it has none. -/
theorem exists_body_eq {a : Attribute} {rest : Text} (h : a.Fits rest) :
    ∃ c s, a.body = c :: s ∧ (isAttributeChar c = true ∨ c = '=') := by
  obtain ⟨lead, written, assigned⟩ := a
  cases written with
  | cons c written => exact ⟨c, _, rfl, Or.inl (h.written c (by simp))⟩
  | nil =>
    cases assigned with
    | none => exact absurd rfl h.assigned.1
    | some v =>
      have hv : v.Fits [] rest := h.assigned
      refine ⟨'=', v.after ++ v.quoting.mark ++ (v.value ++ v.quoting.mark), ?_, Or.inr rfl⟩
      simp only [Attribute.body, Option.map_some, Option.getD_some, Assignment.source,
        Assignment.head, hv.before_eq_nil rfl, List.nil_append, List.cons_append]

theorem isAttributeChar_iff {c : Char} : isAttributeChar c = true ↔
    Text.isAsciiBlank c = false ∧ c ≠ '=' ∧ c ≠ '>' ∧ c ≠ '/' := by
  simp [isAttributeChar, and_assoc]

/-- An attribute is neither a lead nor the end of a tag. -/
theorem body_head {a : Attribute} {rest : Text} (h : a.Fits rest) :
    ∃ c s, a.body = c :: s ∧ Text.isAsciiBlank c = false ∧ c ≠ '>' ∧ c ≠ '/' := by
  obtain ⟨c, s, hbody, hc⟩ := exists_body_eq h
  refine ⟨c, s, hbody, ?_⟩
  rcases hc with hc | rfl
  · obtain ⟨hblank, -, hgt, hslash⟩ := isAttributeChar_iff.1 hc
    exact ⟨hblank, hgt, hslash⟩
  · decide

theorem fits_of_readAttributes? {s trail r : Text} {attributes : List Attribute} {closing : Bool}
    (h : readAttributes? s = some (attributes, trail, closing, r)) :
    AttributesFit attributes (trail ++ (endingOf closing ++ r)) ∧ TrailFits trail closing := by
  fun_induction readAttributes? s generalizing attributes with
  | case1 s => cases h
  | case2 s lead r' he =>
    have hlead := leadFits_splitLead s
    simp only [Option.some.injEq, Prod.mk.injEq] at h
    obtain ⟨rfl, rfl, rfl, rfl⟩ := h
    rw [he] at hlead
    exact ⟨trivial, hlead.isLead, fun _ => hlead.ending rfl⟩
  | case3 s lead r' he =>
    have hlead := leadFits_splitLead s
    simp only [Option.some.injEq, Prod.mk.injEq] at h
    obtain ⟨rfl, rfl, rfl, rfl⟩ := h
    rw [he] at hlead
    exact ⟨trivial, hlead.isLead, fun h => by cases h⟩
  | case4 s => cases h
  | case5 s lead rest _ _ _ he a r' ha ih =>
    have hlead := leadFits_splitLead s
    rw [he] at hlead
    obtain ⟨⟨as, e⟩, hr, h⟩ := Option.map_eq_some_iff.1 h
    simp only [Prod.mk.injEq] at h
    obtain ⟨rfl, rfl⟩ := h
    obtain ⟨has, htrail⟩ := ih hr
    have hheads : Heads (!Text.isAsciiBlank ·) rest := by
      intro c hc
      obtain ⟨x, rfl⟩ := List.head?_eq_some_iff.1 hc
      simpa using (hlead.stops c x rfl).1
    obtain ⟨rfl, hfits⟩ := fits_of_readAttribute? hheads ha
    rw [eq_of_readAttributes? hr] at hfits
    exact ⟨⟨⟨hlead.isLead, hfits⟩, has⟩, htrail⟩

theorem readAttributes?_of_end {s lead r : Text} {closing : Bool}
    (h : splitLead s = (lead, endingOf closing ++ r)) :
    readAttributes? s = some ([], lead, closing, r) := by
  rw [readAttributes?]
  split
  · next e =>
    rw [h] at e
    cases closing <;> simp [endingOf] at e
  · next e =>
    rw [h] at e
    cases closing <;> simp_all [endingOf]
  · next e =>
    rw [h] at e
    cases closing <;> simp_all [endingOf]
  · next hgt hslash e =>
    rw [h, Prod.mk.injEq] at e
    cases closing with
    | true => exact absurd e.2.symm (hslash r)
    | false => exact absurd e.2.symm (hgt r)

theorem readAttributes?_of_attribute {s lead rest r : Text} {c : Char} {a : Attribute}
    (h : splitLead s = (lead, c :: rest)) (hgt : c ≠ '>') (hslash : c ≠ '/')
    (ha : readAttribute? lead (c :: rest) = some (a, r)) :
    readAttributes? s = (readAttributes? r).map fun (attributes, e) => (a :: attributes, e) := by
  rw [readAttributes?]
  split
  · next e =>
    rw [h] at e
    simp at e
  · next e =>
    rw [h] at e
    simp only [Prod.mk.injEq, List.cons.injEq] at e
    exact absurd e.2.1 hgt
  · next e =>
    rw [h] at e
    simp only [Prod.mk.injEq, List.cons.injEq] at e
    exact absurd e.2.1 hslash
  · next e =>
    rw [h] at e
    simp only [Prod.mk.injEq] at e
    obtain ⟨rfl, rfl⟩ := e
    split
    · next hnone =>
      rw [ha] at hnone
      cases hnone
    · next hsome =>
      rw [ha, Option.some.injEq, Prod.mk.injEq] at hsome
      obtain ⟨rfl, rfl⟩ := hsome
      rfl

/-- An attribute is read off the front, whatever attributes follow it. -/
theorem readAttributes?_source_append {a : Attribute} {r : Text} (hlead : IsLead a.lead)
    (ha : a.Fits r) :
    readAttributes? (a.source ++ r) =
      (readAttributes? r).map fun (attributes, e) => (a :: attributes, e) := by
  obtain ⟨c, s, hbody, hblank, hgt, hslash⟩ := body_head ha
  have hread : readAttribute? a.lead (a.body ++ r) = some (a, r) :=
    (readAttribute?_eq_some_iff (by simpa [hbody, Heads] using hblank)).2 ⟨rfl, ha, rfl⟩
  rw [Attribute.source_eq, List.append_assoc]
  rw [hbody, List.cons_append] at hread ⊢
  have hsplit : splitLead (a.lead ++ c :: (s ++ r)) = (a.lead, c :: (s ++ r)) := by
    refine splitLead_append_of_fits ⟨hlead, ?_, fun hhead => ?_⟩
    · rintro d r' heq
      simp only [List.cons.injEq] at heq
      rw [← heq.1]
      exact ⟨hblank, fun h => absurd h hslash⟩
    · rw [List.head?_cons, Option.some.injEq] at hhead
      exact absurd hhead hgt
  exact readAttributes?_of_attribute hsplit hgt hslash hread

/-- Attributes are read as they stand, and then what follows them. -/
theorem readAttributes?_flatMap_append {attributes : List Attribute} {r : Text}
    (h : AttributesFit attributes r) :
    readAttributes? (attributes.flatMap Attribute.source ++ r) =
      (readAttributes? r).map fun (more, e) => (attributes ++ more, e) := by
  induction attributes with
  | nil => simp
  | cons a attributes ih =>
    rw [List.flatMap_cons, List.append_assoc, readAttributes?_source_append h.1.1 h.1.2, ih h.2,
      Option.map_map]
    rfl

theorem readAttributes?_of_fits {trail r : Text} {attributes : List Attribute} {closing : Bool}
    (hfits : AttributesFit attributes (trail ++ (endingOf closing ++ r)))
    (htrail : TrailFits trail closing) :
    readAttributes? (attributes.flatMap Attribute.source ++ (trail ++ (endingOf closing ++ r))) =
      some (attributes, trail, closing, r) := by
  rw [readAttributes?_flatMap_append hfits,
    readAttributes?_of_end (splitLead_append_of_fits (leadFits_of_trailFits htrail r))]
  simp

theorem readAttributes?_eq_some_iff {s trail r : Text} {attributes : List Attribute}
    {closing : Bool} :
    readAttributes? s = some (attributes, trail, closing, r) ↔
      AttributesFit attributes (trail ++ (endingOf closing ++ r)) ∧ TrailFits trail closing ∧
        s = attributes.flatMap Attribute.source ++ (trail ++ (endingOf closing ++ r)) := by
  constructor
  · intro h
    obtain ⟨hfits, htrail⟩ := fits_of_readAttributes? h
    exact ⟨hfits, htrail, eq_of_readAttributes? h⟩
  · rintro ⟨hfits, htrail, rfl⟩
    exact readAttributes?_of_fits hfits htrail

/-! ### Legible tags -/

/-- A tag that is read as it is written. -/
structure Legible (t : StartTag) : Prop where
  /-- The name begins with a letter. -/
  letter : t.written.head?.any Char.isAlpha = true
  /-- The name holds no character that would end it. -/
  written : ∀ c ∈ t.written, isNameChar c = true
  /-- The name ends where it does. -/
  endsName : Heads endsName (t.attributes.flatMap Attribute.source ++ (t.trail ++ t.ending))
  /-- The attributes are read as they stand. -/
  attributes : AttributesFit t.attributes (t.trail ++ t.ending)
  /-- The trail leaves the ending what it is. -/
  trail : TrailFits t.trail t.selfClosing

theorem exists_ending_eq (closing : Bool) : ∃ c s, endingOf closing = c :: s ∧
    (c = '/' ∨ c = '>') := by
  cases closing with
  | true => exact ⟨'/', ['>'], rfl, Or.inl rfl⟩
  | false => exact ⟨'>', [], rfl, Or.inr rfl⟩

/-- A text that begins with a blank. -/
def StartsBlank (s : Text) : Prop := ∃ c ∈ s.head?, Text.isAsciiBlank c = true

/-- Texts that attributes in front of them cannot tell apart. -/
structure SameStart (x y : Text) : Prop where
  /-- They begin alike, or with blanks both. -/
  head : x.head? = y.head? ∨ StartsBlank x ∧ StartsBlank y
  /-- They go on alike behind blanks. -/
  firm : (x.dropWhile Text.isAsciiBlank).head? = (y.dropWhile Text.isAsciiBlank).head?

namespace SameStart

theorem refl (x : Text) : SameStart x x := ⟨Or.inl rfl, rfl⟩

theorem symm {x y : Text} (h : SameStart x y) : SameStart y x :=
  ⟨h.head.imp Eq.symm And.symm, h.firm.symm⟩

theorem append {x y : Text} (h : SameStart x y) (s : Text) : SameStart (s ++ x) (s ++ y) := by
  constructor
  · cases s with
    | nil => exact h.head
    | cons c s => exact Or.inl rfl
  · rw [List.dropWhile_append, List.dropWhile_append]
    split
    · exact h.firm
    · next hs =>
      have hne : s.dropWhile Text.isAsciiBlank ≠ [] := fun hnil => hs (by rw [hnil]; rfl)
      obtain ⟨c, r, hr⟩ := List.exists_cons_of_ne_nil hne
      rw [hr]
      rfl

/-- A class that holds the blanks does not tell them apart. -/
theorem heads {p : Char → Bool} (hp : ∀ c, Text.isAsciiBlank c = true → p c = true) {x y : Text}
    (h : SameStart x y) : Heads p x ↔ Heads p y := by
  rcases h.head with hhead | ⟨⟨c, hc, hblank⟩, d, hd, hblank'⟩
  · rw [Heads, Heads, hhead]
  · rw [Heads, Heads, Option.mem_def.1 hc, Option.mem_def.1 hd]
    simp [hp c hblank, hp d hblank']

end SameStart

theorem endsName_of_isAsciiBlank (c : Char) (h : Text.isAsciiBlank c = true) :
    StartTag.endsName c = true := by
  simp [StartTag.endsName, h]

/-- What follows a character that is no blank makes no difference. -/
theorem sameStart_append {s : Text} (hs : ∃ c ∈ s, Text.isAsciiBlank c = false) (x y : Text) :
    SameStart (s ++ x) (s ++ y) := by
  obtain ⟨c, hc, hblank⟩ := hs
  have hne : s.dropWhile Text.isAsciiBlank ≠ [] := by
    intro hnil
    have := List.dropWhile_eq_nil_iff.1 hnil c hc
    rw [hblank] at this
    cases this
  constructor
  · obtain ⟨d, r, hr⟩ := List.exists_cons_of_ne_nil (List.ne_nil_of_mem hc)
    rw [hr]
    exact Or.inl rfl
  · rw [List.dropWhile_append, List.dropWhile_append, if_neg (by simpa using hne),
      if_neg (by simpa using hne)]
    obtain ⟨d, r, hr⟩ := List.exists_cons_of_ne_nil hne
    rw [hr]
    rfl

/-- How an attribute is read depends on the first character behind it and the first that is no
blank. -/
theorem fits_congr {a : Attribute} {x y : Text} (hxy : SameStart x y) : a.Fits x ↔ a.Fits y := by
  suffices h : ∀ {x y : Text}, SameStart x y → a.Fits x → a.Fits y from ⟨h hxy, h hxy.symm⟩
  rintro x y hxy ⟨hw, hassigned⟩
  refine ⟨hw, ?_⟩
  cases ha : a.assigned with
  | none =>
    rw [ha] at hassigned
    obtain ⟨hne, hends, hequals⟩ := hassigned
    refine ⟨hne, (hxy.heads fun c hc => ?_).1 hends, hxy.firm ▸ hequals⟩
    simp [isAttributeChar, hc]
  | some v =>
    rw [ha] at hassigned
    obtain ⟨hbefore, hnil, hafter, hvalue⟩ := hassigned
    refine ⟨hbefore, hnil, hafter, ?_⟩
    cases hq : v.quoting with
    | quoted quote =>
      rw [hq] at hvalue
      exact hvalue
    | bare =>
      rw [hq] at hvalue
      obtain ⟨hbare, hends, c, hc, hblank, hquote⟩ := hvalue
      refine ⟨hbare, (hxy.heads fun c hc => ?_).1 hends, c, ?_, hblank, hquote⟩
      · simp [isBareChar, hc]
      · rw [← hc, List.head?_append, List.head?_append]
        -- an empty value is followed by no blank
        cases hv : v.value with
        | cons d value => rfl
        | nil =>
          rw [hv, List.nil_append] at hc
          rcases hxy.head with hhead | ⟨⟨d, hd, hd'⟩, -⟩
          · rw [hhead]
          · rw [Option.mem_def.1 hd, Option.some.injEq] at hc
            rw [hc, hblank] at hd'
            cases hd'

/-- What follows the end of a tag has no part in how its attributes are read. -/
theorem fits_append_iff {a : Attribute} {x : Text} (hx : ∃ c ∈ x, Text.isAsciiBlank c = false)
    (r : Text) : a.Fits (x ++ r) ↔ a.Fits x := by
  have := fits_congr (a := a) (sameStart_append hx r [])
  rwa [List.append_nil] at this

theorem attributesFit_append_iff {attributes : List Attribute} {x : Text}
    (hx : ∃ c ∈ x, Text.isAsciiBlank c = false) (r : Text) :
    AttributesFit attributes (x ++ r) ↔ AttributesFit attributes x := by
  induction attributes with
  | nil => exact Iff.rfl
  | cons a attributes ih =>
    obtain ⟨c, hc, hblank⟩ := hx
    have hx' : ∃ c ∈ attributes.flatMap Attribute.source ++ x, Text.isAsciiBlank c = false :=
      ⟨c, List.mem_append_right _ hc, hblank⟩
    rw [AttributesFit, AttributesFit, ← List.append_assoc, fits_append_iff hx', ih]

theorem not_isNameChar_of_endsName {c : Char} (h : StartTag.endsName c = true) :
    isNameChar c = false := by
  simp only [StartTag.endsName, Text.isAsciiBlank, Bool.or_eq_true, decide_eq_true_eq] at h
  rcases h with (((((rfl | rfl) | rfl) | rfl) | rfl) | rfl) | rfl <;> decide

theorem isNameChar_of_isAlpha {c : Char} (h : c.isAlpha = true) : isNameChar c = true := by
  simp [isNameChar, Char.isAlphanum, h]

theorem exists_mem_ending (t : StartTag) : ∃ c ∈ t.trail ++ t.ending, Text.isAsciiBlank c = false := by
  refine ⟨'>', ?_, by decide⟩
  rw [ending]
  split <;> simp

/-- The text of a tag behind its name. -/
def afterName (t : StartTag) : Text := t.attributes.flatMap Attribute.source ++ (t.trail ++ t.ending)

theorem source_eq (t : StartTag) : t.source = '<' :: (t.written ++ t.afterName) := rfl

theorem exists_afterName_eq (t : StartTag) : ∃ c s, t.afterName = c :: s := by
  obtain ⟨c, hc, -⟩ := exists_mem_ending t
  exact List.exists_cons_of_ne_nil (List.ne_nil_of_mem (List.mem_append_right _ hc))

theorem exists_source_eq (t : StartTag) : ∃ s, t.source = s ++ ['>'] := by
  obtain ⟨s, hs⟩ : ∃ s, t.ending = s ++ ['>'] := by
    rw [ending]
    split
    · exact ⟨['/'], rfl⟩
    · exact ⟨[], rfl⟩
  exact ⟨'<' :: (t.written ++ (t.attributes.flatMap Attribute.source ++ (t.trail ++ s))),
    by simp [source, hs]⟩

theorem legible_of_read? {s r : Text} {t : StartTag} (h : read? s = some (t, r)) : t.Legible := by
  unfold read? at h
  split at h
  · next s =>
    dsimp only at h
    split at h
    · next hname =>
      rw [Bool.and_eq_true] at hname
      obtain ⟨hletter, hends⟩ := hname
      obtain ⟨⟨attributes, trail, closing, r'⟩, hr, h⟩ := Option.map_eq_some_iff.1 h
      simp only [Prod.mk.injEq] at h
      obtain ⟨rfl, rfl⟩ := h
      obtain ⟨hattributes, htrail, hafter⟩ := readAttributes?_eq_some_iff.1 hr
      refine ⟨?_, fun c hc => List.mem_takeWhile_imp hc, ?_, ?_, htrail⟩
      · cases s with
        | nil => simp at hletter
        | cons c s =>
          have hc : c.isAlpha = true := by simpa using hletter
          simp [isNameChar_of_isAlpha hc, hc]
      · obtain ⟨c, x, hx⟩ :=
          exists_afterName_eq ⟨s.takeWhile isNameChar, attributes, trail, closing⟩
        rw [afterName, ending_eq] at hx
        have hafter' : s.dropWhile isNameChar = c :: (x ++ r') := by
          rw [hafter, ← List.cons_append, ← hx]
          simp
        rw [hafter'] at hends
        rw [ending_eq, hx, Text.heads_cons]
        simpa using hends
      · rw [← List.append_assoc] at hattributes
        exact (attributesFit_append_iff
          (exists_mem_ending ⟨s.takeWhile isNameChar, attributes, trail, closing⟩) r').1 hattributes
    · cases h
  · cases h

theorem heads_not_isNameChar {s : Text} (h : Heads endsName s) : Heads (!isNameChar ·) s := by
  intro c hc
  simp [not_isNameChar_of_endsName (h c hc)]

/-- What stands behind the name is read as the attributes and the end. -/
theorem readAttributes?_afterName_append {t : StartTag} (h : t.Legible) (r : Text) :
    readAttributes? (t.afterName ++ r) = some (t.attributes, t.trail, t.selfClosing, r) := by
  have := readAttributes?_of_fits (r := r)
    (by
      rw [← List.append_assoc, ← ending_eq]
      exact (attributesFit_append_iff (exists_mem_ending t) r).2 h.attributes) h.trail
  rwa [← ending_eq, ← List.append_assoc t.trail, ← List.append_assoc] at this

theorem read?_source_append {t : StartTag} (h : t.Legible) (r : Text) :
    read? (t.source ++ r) = some (t, r) := by
  obtain ⟨c, x, hx⟩ := exists_afterName_eq t
  have hends : Heads endsName (t.afterName ++ r) := by
    have := h.endsName
    rw [← afterName, hx] at this
    rw [hx, List.cons_append]
    exact Text.heads_cons.2 (Text.heads_cons.1 this)
  have hc : StartTag.endsName c = true := by
    rw [hx, List.cons_append] at hends
    exact Text.heads_cons.1 hends
  obtain ⟨htake, hdrop⟩ := Text.split_append_of_heads h.written (heads_not_isNameChar hends)
  have hletter' : ((t.written ++ (t.afterName ++ r)).head?.any Char.isAlpha) = true := by
    have hletter := h.letter
    cases hw : t.written with
    | nil =>
      rw [hw] at hletter
      cases hletter
    | cons d w =>
      rw [hw] at hletter
      simpa using hletter
  rw [source_eq, List.cons_append, List.append_assoc, read?]
  simp only [htake, hdrop, hletter', readAttributes?_afterName_append h r]
  simp [hx, hc]

/-- Attributes that stand behind the name of a tag are the first ones that it has. -/
theorem exists_attributes_eq {t : StartTag} (h : t.Legible) {written z : Text}
    {attributes : List Attribute} (hwritten : ∀ c ∈ written, isNameChar c = true)
    (hends : Heads endsName (attributes.flatMap Attribute.source ++ z))
    (hfits : AttributesFit attributes z)
    (hs : t.source = '<' :: (written ++ (attributes.flatMap Attribute.source ++ z))) :
    ∃ more, t.attributes = attributes ++ more := by
  rw [source_eq, List.cons.injEq] at hs
  obtain ⟨-, hafter⟩ := Text.eq_of_append_of_heads h.written hwritten
    (heads_not_isNameChar h.endsName) (heads_not_isNameChar hends) hs.2
  have hread := readAttributes?_afterName_append h []
  rw [List.append_nil, show t.afterName = _ from hafter, readAttributes?_flatMap_append hfits] at hread
  obtain ⟨⟨more, e⟩, -, hmore⟩ := Option.map_eq_some_iff.1 hread
  simp only [Prod.mk.injEq] at hmore
  exact ⟨more, hmore.1.symm⟩

/-- **Legible tags are what is read**, and a tag is read whatever follows it. -/
theorem read?_eq_some_iff {s r : Text} {t : StartTag} :
    read? s = some (t, r) ↔ t.Legible ∧ s = t.source ++ r := by
  constructor
  · exact fun h => ⟨legible_of_read? h, eq_of_read? h⟩
  · rintro ⟨h, rfl⟩
    exact read?_source_append h r

/-- A tag is legible if it is read back. -/
instance decidableLegible (t : StartTag) : Decidable t.Legible :=
  decidable_of_iff (read? t.source = some (t, []))
    ⟨legible_of_read?, fun h => by simpa using read?_source_append h []⟩

end StartTag

end MaskedViews
