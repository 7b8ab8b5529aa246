import MaskedViews.Mask.References
import MaskedViews.Proofs.Markup.Flags
import MaskedViews.Proofs.Markup.Settling
import Mathlib.Data.List.Basic

/-!
# Plain tags

What is a blank to the whitespace of a document need not be one to the reader of tags. In a solid tag
names, and values without quotes, hold neither kind, and then the tag settles part by part
(`settle_source_append`) to a tag with the same names and settled values (`legible_settled`). A plain
tag is a solid one with names that hold no `<` either.
-/

namespace MaskedViews

open Markup (settle isFirm)
open StartTag (IsLead SameStart)

/-- An attribute that has a name, with firm characters only in the name and in a value without
quotes. -/
structure Attribute.IsPlain (a : Attribute) : Prop where
  /-- There is a name. -/
  named : a.written ≠ []
  /-- It settles to itself. -/
  written : ∀ c ∈ a.written, isFirm c = true
  /-- So does a value without quotes. -/
  value : ∀ v ∈ a.assigned, v.quoting = .bare → ∀ c ∈ v.value, isFirm c = true

/-- A tag with plain attributes. -/
def StartTag.IsPlain (t : StartTag) : Prop := ∀ a ∈ t.attributes, a.IsPlain

/-- An attribute that no blank divides to which only the whitespace of a document pays heed. -/
structure Attribute.IsSolid (a : Attribute) : Prop where
  /-- There are no blanks in the name. -/
  written : ∀ c ∈ a.written, Text.isBlank c = false
  /-- A value without quotes settles to itself. -/
  value : ∀ v ∈ a.assigned, v.quoting = .bare → ∀ c ∈ v.value, isFirm c = true

/-- A tag with solid attributes. -/
def StartTag.IsSolid (t : StartTag) : Prop := ∀ a ∈ t.attributes, a.IsSolid

theorem Attribute.IsPlain.solid {a : Attribute} (h : a.IsPlain) : a.IsSolid :=
  ⟨fun c hc => (Markup.isFirm_iff.1 (h.written c hc)).1, h.value⟩

theorem StartTag.IsPlain.solid {t : StartTag} (h : t.IsPlain) : t.IsSolid := fun a ha => (h a ha).solid

/-- The assignment with its blanks and its value settled. -/
def Assignment.settled (v : Assignment) : Assignment :=
  { v with before := settle v.before, after := settle v.after, value := settle v.value }

/-- The attribute with its blanks and its value settled. -/
def Attribute.settled (a : Attribute) : Attribute :=
  { a with lead := settle a.lead, assigned := a.assigned.map Assignment.settled }

/-- The tag with its blanks and its values settled. -/
def StartTag.settled (t : StartTag) : StartTag :=
  { t with attributes := t.attributes.map Attribute.settled, trail := settle t.trail }

/-! ### Settling a tag part by part -/

namespace Markup

/-- Firm characters keep what settles on either side of them apart. -/
theorem settle_append_firm {s : Text} (hs : s ≠ []) (h : ∀ c ∈ s, isFirm c = true) (x y : Text) :
    settle (x ++ (s ++ y)) = settle x ++ (s ++ settle y) := by
  obtain ⟨c, s, rfl⟩ := List.exists_cons_of_ne_nil hs
  rw [List.cons_append, settle_append_cons (h c (by simp)),
    settle_append_of_isFirm fun d hd => h d (List.mem_cons_of_mem c hd)]
  rfl

/-- A text without `>` keeps its blanks in front of what begins with none. -/
theorem foldr_push_cons {x : Text} (hx : '>' ∉ x) {c : Char} (hc : c ≠ ' ') (z : Text) :
    x.foldr push (c :: z) = settle x ++ c :: z := by
  induction x with
  | nil => rfl
  | cons d x ih =>
    rw [List.foldr_cons, ih fun h => hx (List.mem_cons_of_mem d h), settle_cons]
    cases hd : Text.isBlank d with
    | true =>
      rw [push_of_isBlank hd, push_of_isBlank hd]
      cases hs : settle x with
      | nil => rw [List.nil_append, spaced_of_ne_head (by simpa using hc)]; rfl
      | cons e s =>
        by_cases he : e = ' '
        · rw [he]
          rfl
        · rw [List.cons_append, spaced_of_ne_head (by simpa using he),
            spaced_of_ne_head (by simpa using he)]
          rfl
    | false =>
      have hgt : d ≠ '>' := fun h => hx (by simp [h])
      rw [push_of_not_isBlank hd, push_of_not_isBlank hd, abut_of_ne hgt, abut_of_ne hgt]
      rfl

/-- A text without blanks and without `>` settles to itself behind one without `>`, whatever
follows. -/
theorem settle_append_solid {x s : Text} (hx : '>' ∉ x) (hne : s ≠ [])
    (h : ∀ c ∈ s, Text.isBlank c = false ∧ c ≠ '>') (y : Text) :
    settle (x ++ (s ++ y)) = settle x ++ (s ++ settle y) := by
  have hs : settle (s ++ y) = s ++ settle y := by
    clear hne
    induction s with
    | nil => rfl
    | cons c s ih =>
      obtain ⟨hblank, hgt⟩ := h c (by simp)
      rw [List.cons_append, settle_cons, ih fun d hd => h d (List.mem_cons_of_mem c hd),
        push_of_not_isBlank hblank, abut_of_ne hgt]
      rfl
  obtain ⟨c, s, rfl⟩ := List.exists_cons_of_ne_nil hne
  have hc : c ≠ ' ' := by
    rintro rfl
    exact absurd (h ' ' (by simp)).1 (by decide)
  rw [settle_append, hs, List.cons_append, foldr_push_cons hx hc]

/-- What a text that settled behind `>` may lose: the space of a gap. -/
def afterGap : Text → Text
  | ' ' :: '<' :: s => '<' :: s
  | s => s

theorem abut_gt (s : Text) : abut '>' s = '>' :: afterGap s := by
  unfold abut afterGap
  split
  · rfl
  · next h =>
    split
    · exact absurd rfl (h _ rfl)
    · rfl

end Markup

namespace Attribute

theorem isFirm_of_isQuote {c : Char} (h : isQuote c = true) : isFirm c = true := by
  rcases StartTag.isQuote_iff.1 h with rfl | rfl <;> decide

theorem not_mem_of_isLead {lead : Text} (h : IsLead lead) : '>' ∉ lead := by
  intro hmem
  rcases h '>' hmem with hblank | hslash
  · exact absurd hblank (by decide)
  · exact absurd hslash (by decide)

/-- The name of an attribute settles to itself behind its lead, in front of what follows it there. -/
theorem settle_written_append {a : Attribute} {rest : Text} (hlead : IsLead a.lead) (ha : a.IsSolid)
    (hfits : a.Fits rest) {x : Text} (hx : a.written = [] → ∃ z, x = '=' :: z) :
    settle (a.lead ++ (a.written ++ x)) = settle a.lead ++ (a.written ++ settle x) := by
  by_cases hnil : a.written = []
  · obtain ⟨z, rfl⟩ := hx hnil
    rw [hnil, List.nil_append, List.nil_append, Markup.settle_append_cons (by decide),
      Markup.settle_cons_of_isFirm (by decide)]
  · refine Markup.settle_append_solid (not_mem_of_isLead hlead) hnil (fun c hc => ⟨ha.written c hc, ?_⟩) x
    exact (StartTag.isAttributeChar_iff.1 (hfits.written c hc)).2.2.1

/-- An attribute settles by itself in front of what follows it in its tag. -/
theorem settle_source_append {a : Attribute} {rest : Text} (hlead : IsLead a.lead) (ha : a.IsSolid)
    (hfits : a.Fits rest) (y : Text) :
    settle (a.source ++ (rest ++ y)) = a.settled.source ++ settle (rest ++ y) := by
  have hwritten {x : Text} (hx : a.written = [] → ∃ z, x = '=' :: z) :=
    settle_written_append hlead ha hfits hx
  obtain ⟨lead, written, assigned⟩ := a
  cases assigned with
  | none => simpa [source, settled] using hwritten fun hnil => absurd hnil hfits.assigned.1
  | some v =>
    obtain ⟨before, after, q, value⟩ := v
    have hv : Assignment.Fits written ⟨before, after, q, value⟩ rest := hfits.assigned
    have hvalue : settle (after ++ (q.mark ++ (value ++ (q.mark ++ (rest ++ y))))) =
        settle after ++ (q.mark ++ (settle value ++ (q.mark ++ settle (rest ++ y)))) := by
      cases q with
      | quoted quote =>
        have hquote := isFirm_of_isQuote hv.value.1
        rw [Quoting.mark, List.singleton_append, Markup.settle_append_cons hquote,
          List.singleton_append, Markup.settle_append_cons hquote]
        rfl
      | bare =>
        have hfirm : ∀ c ∈ value, isFirm c = true := ha.value _ rfl rfl
        simp only [Quoting.mark, List.nil_append]
        by_cases hnil : value = []
        · -- an empty value is followed by the end of the tag
          obtain ⟨hbare, hheads, c, hc, hblank, -⟩ := hv.value
          subst hnil
          obtain ⟨r, rfl⟩ := List.head?_eq_some_iff.1 hc
          have hgt : c = '>' := by
            have := Text.heads_cons.1 hheads
            simpa [StartTag.isBareChar, hblank] using this
          rw [hgt, List.nil_append, List.cons_append, Markup.settle_append_gt,
            Markup.settle_cons, Markup.push_of_not_isBlank (by decide)]
          rfl
        · rw [Markup.settle_append_firm hnil hfirm, Markup.settle_of_isFirm hfirm]
    have hbefore (x : Text) : settle (before ++ '=' :: x) = settle before ++ '=' :: settle x :=
      Markup.settle_append_cons (by decide) before x
    have := hwritten (x := before ++ '=' :: (after ++ (q.mark ++ (value ++ (q.mark ++ (rest ++ y))))))
      fun hnil => ⟨_, by rw [show before = [] from hv.before_eq_nil hnil, List.nil_append]⟩
    rw [hbefore, hvalue] at this
    simpa [source, settled, Assignment.source, Assignment.head, Assignment.settled] using this

end Attribute

namespace StartTag

theorem isFirm_of_isNameChar {c : Char} (h : isNameChar c = true) : isFirm c = true := by
  refine Markup.isFirm_iff.2 ⟨?_, ?_, ?_⟩
  · rw [← Bool.not_eq_true]
    intro hblank
    rw [not_isNameChar_of_isBlank hblank] at h
    cases h
  · rintro rfl
    exact absurd h (by decide)
  · rintro rfl
    exact absurd h (by decide)

theorem settle_attributes {attributes : List Attribute} {rest : Text}
    (h : ∀ a ∈ attributes, a.IsSolid) (hfits : AttributesFit attributes rest) (y : Text) :
    settle (attributes.flatMap Attribute.source ++ (rest ++ y)) =
      (attributes.map Attribute.settled).flatMap Attribute.source ++ settle (rest ++ y) := by
  induction attributes with
  | nil => rfl
  | cons a attributes ih =>
    have ih := ih (fun b hb => h b (List.mem_cons_of_mem a hb)) hfits.2
    have ha := Attribute.settle_source_append hfits.1.1 (h a (by simp)) hfits.1.2 y
    rw [List.append_assoc, ih] at ha
    rw [List.flatMap_cons, List.append_assoc, ha, List.map_cons, List.flatMap_cons, List.append_assoc]

theorem settle_trail (t : StartTag) (y : Text) :
    settle (t.trail ++ t.ending ++ y) =
      settle t.trail ++ t.ending ++ Markup.afterGap (settle y) := by
  have hgt (x : Text) : settle (x ++ '>' :: y) = settle x ++ '>' :: Markup.afterGap (settle y) := by
    rw [Markup.settle_append_gt, Markup.abut_gt]
  rw [ending]
  split
  · have hslash : settle (t.trail ++ ['/']) = settle t.trail ++ ['/'] :=
      Markup.settle_append_cons (by decide) t.trail []
    have := hgt (t.trail ++ ['/'])
    rw [hslash] at this
    simpa using this
  · simpa using hgt t.trail

/-- **A solid tag settles by itself**, but for the gap behind it. -/
theorem settle_source_append {t : StartTag} (h : t.IsSolid) (ht : t.Legible) (y : Text) :
    settle (t.source ++ y) = t.settled.source ++ Markup.afterGap (settle y) := by
  have hname : ∀ c ∈ t.written, isFirm c = true := fun c hc => isFirm_of_isNameChar (ht.written c hc)
  have hattributes := settle_attributes h ht.attributes y
  rw [settle_trail] at hattributes
  have hsource : t.source ++ y = '<' :: (t.written ++
      (t.attributes.flatMap Attribute.source ++ (t.trail ++ t.ending ++ y))) := by
    simp [source]
  have hsettled : t.settled.source = '<' :: (t.written ++
      ((t.attributes.map Attribute.settled).flatMap Attribute.source ++
        (settle t.trail ++ t.ending))) := rfl
  rw [hsource, Markup.settle_cons_lt, Markup.settle_append_of_isFirm hname, hattributes, hsettled]
  simp

/-! ### The settled tag -/

theorem isAsciiBlank_of_mem_settle {b : Text} (hb : ∀ c ∈ b, Text.isAsciiBlank c = true) {c : Char}
    (hc : c ∈ settle b) : Text.isAsciiBlank c = true := by
  rcases Markup.mem_settle hc with rfl | hc
  · decide
  · exact hb c hc

theorem isLead_settle {lead : Text} (h : IsLead lead) : IsLead (settle lead) := by
  intro c hc
  rcases Markup.mem_settle hc with rfl | hc
  · exact Or.inl (by decide)
  · exact h c hc

/-- A lead and its settled form begin alike. -/
theorem sameStart_settle {lead : Text} (h : IsLead lead) {c : Char}
    (hc : Text.isAsciiBlank c = false) (x y : Text) :
    SameStart (lead ++ c :: x) (settle lead ++ c :: y) := by
  constructor
  · cases lead with
    | nil => exact Or.inl rfl
    | cons d lead =>
      have hhead := Markup.head?_settle_cons d lead
      obtain ⟨s, hs⟩ := List.head?_eq_some_iff.1 hhead
      rw [hs]
      rcases h d (by simp) with hd | rfl
      · rw [if_pos (Text.isBlank_of_isAsciiBlank hd)]
        exact Or.inr ⟨⟨d, rfl, hd⟩, ' ', rfl, by decide⟩
      · exact Or.inl rfl
  · by_cases hslash : '/' ∈ lead
    · obtain ⟨b, r, rfl, hb⟩ := List.eq_append_cons_of_mem hslash
      have hblank : ∀ d ∈ b, Text.isAsciiBlank d = true := by
        intro d hd
        rcases h d (List.mem_append_left _ hd) with hd' | rfl
        · exact hd'
        · exact absurd hd hb
      rw [Markup.settle_append_cons (by decide), List.append_assoc, List.append_assoc,
        List.dropWhile_append_of_pos hblank,
        List.dropWhile_append_of_pos fun d hd => isAsciiBlank_of_mem_settle hblank hd]
      rfl
    · have hblank : ∀ d ∈ lead, Text.isAsciiBlank d = true := by
        intro d hd
        rcases h d hd with hd' | rfl
        · exact hd'
        · exact absurd hd hslash
      rw [List.dropWhile_append_of_pos hblank,
        List.dropWhile_append_of_pos fun d hd => isAsciiBlank_of_mem_settle hblank hd]
      simp [hc]

theorem fits_settled {a : Attribute} {rest : Text} (ha : a.IsSolid) (hfits : a.Fits rest) :
    a.settled.Fits rest := by
  obtain ⟨lead, written, assigned⟩ := a
  cases assigned with
  | none => exact ⟨hfits.written, hfits.assigned⟩
  | some v =>
    obtain ⟨before, after, q, value⟩ := v
    have hv : Assignment.Fits written ⟨before, after, q, value⟩ rest := hfits.assigned
    refine ⟨hfits.written, fun c hc => isAsciiBlank_of_mem_settle hv.before hc, fun hw => ?_,
      fun c hc => isAsciiBlank_of_mem_settle hv.after hc, ?_⟩
    · have hnil : before = [] := hv.before_eq_nil hw
      show settle before = []
      rw [hnil]
      rfl
    · cases q with
      | quoted quote =>
        refine ⟨hv.value.1, fun hmem => ?_⟩
        rcases Markup.mem_settle hmem with hspace | hmem
        · rw [hspace] at hv
          exact absurd hv.value.1 (by decide)
        · exact hv.value.2 hmem
      | bare =>
        have hvalue := hv.value
        have hfirm : ∀ c ∈ value, isFirm c = true := ha.value _ rfl rfl
        show Quoting.Fits (settle value) rest .bare
        rwa [Markup.settle_of_isFirm hfirm]

/-- An attribute and its settled form have the same character behind the lead. -/
theorem exists_body_settled {a : Attribute} {rest : Text} (hfits : a.Fits rest) :
    ∃ c x y, Text.isAsciiBlank c = false ∧ a.body = c :: x ∧ a.settled.body = c :: y := by
  obtain ⟨lead, written, assigned⟩ := a
  cases written with
  | cons c w => exact ⟨c, _, _, (isAttributeChar_iff.1 (hfits.written c (by simp))).1, rfl, rfl⟩
  | nil =>
    cases assigned with
    | none => exact absurd rfl hfits.assigned.1
    | some v =>
      obtain ⟨before, after, q, value⟩ := v
      have hv : Assignment.Fits [] ⟨before, after, q, value⟩ rest := hfits.assigned
      obtain rfl : before = [] := hv.before_eq_nil rfl
      exact ⟨'=', _, _, by decide, rfl, rfl⟩

theorem attributesFit_settled {attributes : List Attribute} {trail ending : Text} {c : Char}
    {r : Text} (h : ∀ a ∈ attributes, a.IsSolid) (htrail : IsLead trail)
    (hend : ending = c :: r) (hc : Text.isAsciiBlank c = false)
    (hfits : AttributesFit attributes (trail ++ ending)) :
    AttributesFit (attributes.map Attribute.settled) (settle trail ++ ending) ∧
      SameStart (attributes.flatMap Attribute.source ++ (trail ++ ending))
        ((attributes.map Attribute.settled).flatMap Attribute.source ++ (settle trail ++ ending)) := by
  induction attributes with
  | nil =>
    refine ⟨trivial, ?_⟩
    rw [hend]
    exact sameStart_settle htrail hc r r
  | cons a attributes ih =>
    have ha := h a (by simp)
    obtain ⟨⟨hlead, hafits⟩, hfits⟩ := hfits
    obtain ⟨ihfits, ihstart⟩ := ih (fun b hb => h b (List.mem_cons_of_mem a hb)) hfits
    refine ⟨⟨⟨isLead_settle hlead, (fits_congr ihstart).1 (fits_settled ha hafits)⟩, ihfits⟩, ?_⟩
    obtain ⟨d, x, y, hd, hx, hy⟩ := exists_body_settled hafits
    rw [List.map_cons, List.flatMap_cons, List.flatMap_cons, Attribute.source_eq, hx,
      Attribute.source_eq a.settled, hy]
    simp only [List.append_assoc, List.cons_append]
    exact sameStart_settle hlead hd _ _

theorem trailFits_settle {trail : Text} {closing : Bool} (h : TrailFits trail closing) :
    TrailFits (settle trail) closing := by
  refine ⟨isLead_settle h.1, fun hclosing hlast => h.2 hclosing ?_⟩
  obtain ⟨x, hx⟩ := List.getLast?_eq_some_iff.1 hlast
  obtain ⟨x', y', rfl, -, hy⟩ := Markup.exists_eq_of_settle (by decide) hx
  rw [Markup.settle_eq_nil_iff.1 hy]
  simp

/-- **The settled tag is a tag.** -/
theorem legible_settled {t : StartTag} (h : t.IsSolid) (ht : t.Legible) : t.settled.Legible := by
  obtain ⟨c, r, hr, hc⟩ := exists_ending_eq t.selfClosing
  have hblank : Text.isAsciiBlank c = false := by rcases hc with rfl | rfl <;> decide
  obtain ⟨hfits, hstart⟩ := attributesFit_settled h ht.trail.1 hr hblank ht.attributes
  exact ⟨ht.letter, ht.written, (hstart.heads endsName_of_isAsciiBlank).1 ht.endsName, hfits,
    trailFits_settle ht.trail⟩

@[simp] theorem name_settled (t : StartTag) : t.settled.name = t.name := rfl

theorem hasAttribute_settled (t : StartTag) (name : Text) :
    t.settled.hasAttribute name = t.hasAttribute name := by
  rw [hasAttribute, hasAttribute, settled, List.any_map]
  rfl

theorem value?_settled (t : StartTag) (name : Text) :
    t.settled.value? name = (t.value? name).map settle := by
  rw [value?, value?, find?, find?, settled, List.find?_map, Option.map_map, Option.map_map]
  congr 1
  funext a
  obtain ⟨lead, written, assigned⟩ := a
  cases assigned <;> rfl

/-- Settling settles the name of a form control. -/
theorem controlName?_settled (t : StartTag) :
    t.settled.controlName? = t.controlName?.map settle := by
  rw [controlName?, controlName?, name_settled]
  split
  · exact value?_settled t _
  · rfl

end StartTag

end MaskedViews
