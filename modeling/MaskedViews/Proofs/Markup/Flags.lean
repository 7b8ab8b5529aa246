import MaskedViews.Markup.Retag
import MaskedViews.Proofs.Markup.Legible
import MaskedViews.Proofs.Text.Trimming
import Mathlib.Data.List.Basic
import Mathlib.Data.List.Induction

/-!
# Tags with flags

A tag gets flags at its end, where the blanks are taken out first. That may take blanks from the
name of the last attribute, or the attribute with them, since a name may hold blanks that are none
to the reader of tags. What is left is read again up to there, and the flags behind it
(`exists_withFlags`).
-/

namespace MaskedViews

/-- An attribute whose value, if it has one, stands in double quotes. -/
def Attribute.IsQuoted (a : Attribute) : Prop := ∀ v ∈ a.assigned, v.quoting = .quoted '"'

namespace StartTag

open Text (Heads)

/-- A tag whose attributes have their values in double quotes. -/
def IsQuoted (t : StartTag) : Prop := ∀ a ∈ t.attributes, a.IsQuoted

/-! ### How attributes go on -/

theorem attributesFit_congr {attributes : List Attribute} {x y : Text} (hxy : SameStart x y)
    (h : AttributesFit attributes x) : AttributesFit attributes y := by
  induction attributes with
  | nil => trivial
  | cons a attributes ih =>
    have hstart := hxy.append (attributes.flatMap Attribute.source)
    exact ⟨⟨h.1.1, (fits_congr hstart).1 h.1.2⟩, ih h.2⟩

theorem attributesFit_append {xs ys : List Attribute} {rest : Text} :
    AttributesFit (xs ++ ys) rest ↔
      AttributesFit xs (ys.flatMap Attribute.source ++ rest) ∧ AttributesFit ys rest := by
  induction xs with
  | nil => exact ⟨fun h => ⟨trivial, h⟩, And.right⟩
  | cons a xs ih =>
    rw [List.cons_append, AttributesFit, AttributesFit, ih, List.flatMap_append, List.append_assoc]
    simp only [and_assoc]

/-! ### Attributes with double quotes -/

/-- The text of an attribute in double quotes, with the blanks at its end gone, is an attribute
again, if anything is left. -/
theorem exists_trimmed_body {a : Attribute} {rest : Text} (h : a.Fits rest) (hq : a.IsQuoted)
    (hne : Text.trimEnd a.body ≠ []) :
    ∃ a' : Attribute, a'.lead = a.lead ∧ a'.body = Text.trimEnd a.body ∧ a'.IsQuoted ∧
      ∀ y, Attribute.EndsFlag y → a'.Fits y := by
  obtain ⟨lead, written, assigned⟩ := a
  cases assigned with
  | none =>
    have hbody : Attribute.body ⟨lead, written, none⟩ = written := by simp [Attribute.body]
    rw [hbody] at hne ⊢
    refine ⟨⟨lead, Text.trimEnd written, none⟩, rfl, by simp [Attribute.body], hq, ?_⟩
    intro y hy
    refine ⟨fun c hc => h.written c ?_, hne, hy⟩
    obtain ⟨b, -, hb⟩ := Text.exists_eq_append_trimEnd written
    show c ∈ written
    rw [hb]
    exact List.mem_append_left b hc
  | some v =>
    obtain ⟨before, after, q, value⟩ := v
    obtain rfl : q = .quoted '"' := hq _ rfl
    have hbody : Attribute.body ⟨lead, written, some ⟨before, after, .quoted '"', value⟩⟩ =
        written ++ (before ++ '=' :: (after ++ '"' :: value)) ++ ['"'] := by
      simp [Attribute.body, Assignment.source, Assignment.head, Quoting.mark]
    refine ⟨_, rfl, ?_, hq, ?_⟩
    · rw [hbody, Text.trimEnd_of_last _ (by decide)]
    · intro y _
      have hv : Assignment.Fits written ⟨before, after, .quoted '"', value⟩ rest := h.assigned
      exact ⟨h.written, hv.before, hv.before_eq_nil, hv.after, hv.value⟩

theorem exists_firm_of_trimEnd {s : Text} (h : Text.trimEnd s ≠ []) :
    ∃ c ∈ Text.trimEnd s, Text.isAsciiBlank c = false := by
  rcases Text.trimEnd_eq_nil_or s with hnil | ⟨r, d, hd, hr⟩
  · exact absurd hnil h
  · refine ⟨d, by simp [hr], ?_⟩
    rw [← Bool.not_eq_true]
    intro hblank
    rw [Text.isBlank_of_isAsciiBlank hblank] at hd
    cases hd

theorem isLead_trimEnd {lead : Text} (h : IsLead lead) : IsLead (Text.trimEnd lead) := by
  obtain ⟨b, -, hb⟩ := Text.exists_eq_append_trimEnd lead
  intro c hc
  refine h c ?_
  rw [hb]
  exact List.mem_append_left b hc

/-- **Attributes in double quotes stay attributes when the blanks at their end go**, and are read as
they stand in front of anything that goes on neither with a name nor with `=`. -/
theorem exists_trimmed {attributes : List Attribute} {trail rest : Text}
    (h : AttributesFit attributes (trail ++ rest)) (hq : ∀ a ∈ attributes, a.IsQuoted)
    (htrail : IsLead trail) :
    ∃ (kept : List Attribute) (trail' : Text),
      Text.trimEnd (attributes.flatMap Attribute.source ++ trail) =
        kept.flatMap Attribute.source ++ trail' ∧
      IsLead trail' ∧ (∀ a ∈ kept, a.IsQuoted) ∧
      ∀ y, Attribute.EndsFlag y → AttributesFit kept (trail' ++ y) := by
  -- from the last attribute to the first, since an attribute may go with its blanks
  induction attributes using List.reverseRecOn generalizing trail rest with
  | nil => exact ⟨[], Text.trimEnd trail, rfl, isLead_trimEnd htrail, by simp, fun _ _ => trivial⟩
  | append_singleton attributes a ih =>
    obtain ⟨hbefore, ha, -⟩ := attributesFit_append.1 h
    by_cases ht : Text.trimEnd trail = []
    · rw [Text.trimEnd_append_blanks _ (Text.blanks_of_trimEnd ht), List.flatMap_append,
        List.flatMap_singleton, Attribute.source_eq, ← List.append_assoc]
      rw [List.flatMap_singleton, Attribute.source_eq, List.append_assoc] at hbefore
      by_cases hbody : Text.trimEnd a.body = []
      · rw [Text.trimEnd_append_blanks _ (Text.blanks_of_trimEnd hbody)]
        exact ih hbefore (fun b hb => hq b (List.mem_append_left _ hb)) ha.1
      · obtain ⟨a', hlead', hbody', hq', hfits⟩ := exists_trimmed_body ha.2 (hq a (by simp)) hbody
        obtain ⟨b, -, hb⟩ := Text.exists_eq_append_trimEnd a.body
        refine ⟨attributes ++ [a'], [], ?_, by simp [IsLead], ?_, fun y hy => ?_⟩
        · rw [Text.trimEnd_append_of_ne_nil _ hbody]
          simp [Attribute.source_eq, hlead', hbody']
        · intro c hc
          rcases List.mem_append.1 hc with hc | hc
          · exact hq c (List.mem_append_left _ hc)
          · rw [List.mem_singleton.1 hc]
            exact hq'
        · refine attributesFit_append.2 ⟨?_, ⟨hlead' ▸ ha.1, hfits y hy⟩, trivial⟩
          refine attributesFit_congr ?_ hbefore
          rw [List.flatMap_singleton, Attribute.source_eq, hlead', hbody']
          conv => arg 1; rw [hb]
          have hfirm := exists_firm_of_trimEnd hbody
          have := (sameStart_append hfirm (b ++ (trail ++ rest)) y).append a.lead
          simpa using this
    · refine ⟨attributes ++ [a], Text.trimEnd trail, Text.trimEnd_append_of_ne_nil _ ht,
        isLead_trimEnd htrail, hq, fun y _ => ?_⟩
      obtain ⟨b, -, hb⟩ := Text.exists_eq_append_trimEnd trail
      rw [hb, List.append_assoc] at h
      exact attributesFit_congr (sameStart_append (exists_firm_of_trimEnd ht) _ _) h

/-! ### The end of a tag -/

/-- A tag whose last value does not end in a slash if it stands without quotes. -/
def Unslashed (t : StartTag) : Prop :=
  ∀ a ∈ t.attributes.getLast?, ∀ v ∈ a.assigned, v.quoting = .bare → v.value.getLast? ≠ some '/'

theorem IsQuoted.unslashed {t : StartTag} (h : t.IsQuoted) : t.Unslashed := by
  intro a ha v hv hbare
  rw [h a (List.mem_of_mem_getLast? ha) v hv] at hbare
  cases hbare

/-- An attribute ends in a slash only with a value without quotes. -/
theorem exists_body_last {a : Attribute} {rest : Text} (h : a.Fits rest) :
    ∃ s c, a.body = s ++ [c] ∧ c ≠ '>' ∧
      (c = '/' → ∃ v ∈ a.assigned, v.quoting = .bare ∧ v.value.getLast? = some '/') := by
  obtain ⟨lead, written, assigned⟩ := a
  cases assigned with
  | none =>
    cases written using List.reverseRecOn with
    | nil => exact absurd rfl h.assigned.1
    | append_singleton s c =>
      obtain ⟨-, -, hgt, hslash⟩ := isAttributeChar_iff.1 (h.written c (by simp))
      exact ⟨s, c, by simp [Attribute.body], hgt, fun hc => absurd hc hslash⟩
  | some v =>
    obtain ⟨before, after, q, value⟩ := v
    have hv : Assignment.Fits written ⟨before, after, q, value⟩ rest := h.assigned
    cases q with
    | quoted quote =>
      have hquote : isQuote quote = true := hv.value.1
      refine ⟨written ++ (before ++ '=' :: (after ++ quote :: value)), quote, ?_, ?_, ?_⟩
      · simp [Attribute.body, Assignment.source, Assignment.head, Quoting.mark]
      · rcases isQuote_iff.1 hquote with rfl | rfl <;> decide
      · rintro rfl
        exact absurd hquote (by decide)
    | bare =>
      have hbody : Attribute.body ⟨lead, written, some ⟨before, after, .bare, value⟩⟩ =
          written ++ (before ++ '=' :: (after ++ value)) := by
        simp [Attribute.body, Assignment.source, Assignment.head, Quoting.mark]
      rw [hbody]
      cases value using List.reverseRecOn with
      | append_singleton value c =>
        have hc : isBareChar c = true := hv.value.1 c (by simp)
        refine ⟨written ++ (before ++ '=' :: (after ++ value)), c, by simp, ?_, ?_⟩
        · rintro rfl
          exact absurd hc (by decide)
        · rintro rfl
          exact ⟨_, rfl, rfl, by simp⟩
      | nil =>
        cases after using List.reverseRecOn with
        | nil => exact ⟨written ++ before, '=', by simp, by decide, fun h => absurd h (by decide)⟩
        | append_singleton after c =>
          have hc : Text.isAsciiBlank c = true := hv.after c (by simp)
          refine ⟨written ++ (before ++ '=' :: after), c, by simp, ?_, ?_⟩
          · rintro rfl
            exact absurd hc (by decide)
          · rintro rfl
            exact absurd hc (by decide)

/-- The text of a tag in front of its end. -/
def core (t : StartTag) : Text :=
  '<' :: (t.written ++ (t.attributes.flatMap Attribute.source ++ t.trail))

theorem source_eq_core (t : StartTag) : t.source = t.core ++ t.ending := by
  simp [source, core]

/-- A tag in front of its end does not end in `>`, and in a slash only with a value without quotes, if
it does not close itself. -/
theorem exists_core_last {t : StartTag} (ht : t.Legible) :
    ∃ s c, t.core = s ++ [c] ∧ c ≠ '>' ∧ (t.selfClosing = false → c = '/' →
      ∃ a ∈ t.attributes.getLast?, ∃ v ∈ a.assigned, v.quoting = .bare ∧ v.value.getLast? = some '/') := by
  obtain ⟨written, attributes, trail, closing⟩ := t
  cases trail using List.reverseRecOn with
  | append_singleton trail c =>
    refine ⟨'<' :: (written ++ (attributes.flatMap Attribute.source ++ trail)), c, by simp [core],
      ?_, ?_⟩
    · rintro rfl
      exact absurd (ht.trail.1 '>' (by simp)) (by decide)
    · rintro hclosing rfl
      exact absurd (by simp) (ht.trail.2 hclosing)
  | nil =>
    cases attributes using List.reverseRecOn with
    | nil =>
      cases written using List.reverseRecOn with
      | nil => exact absurd ht.letter (by simp)
      | append_singleton written c =>
        have hc : isNameChar c = true := ht.written c (by simp)
        refine ⟨'<' :: written, c, by simp [core], ?_, fun _ => ?_⟩
        · rintro rfl
          exact absurd hc (by decide)
        · rintro rfl
          exact absurd hc (by decide)
    | append_singleton attributes a =>
      obtain ⟨-, ha, -⟩ := attributesFit_append.1 ht.attributes
      obtain ⟨s, c, hbody, hgt, hslash⟩ := exists_body_last ha.2
      refine ⟨'<' :: (written ++ (attributes.flatMap Attribute.source ++ (a.lead ++ s))), c, ?_,
        hgt, fun _ hc => ⟨a, by simp, hslash hc⟩⟩
      simp [core, Attribute.source_eq, hbody]

/-- Whether a slash that belongs to the last value stands right in front of `>`. -/
def isSlashed (t : StartTag) : Bool := !t.selfClosing && t.core.getLast? = some '/'

/-- The text of a tag in front of what is taken for its end: `/>` also where the slash is not its
own. -/
def base (t : StartTag) : Text := if t.isSlashed then t.core.dropLast else t.core

/-- What is taken for the end of a tag. -/
def closer (t : StartTag) : Text := if t.isSlashed then ['/', '>'] else t.ending

theorem isSlashed_iff {t : StartTag} :
    t.isSlashed = true ↔ t.selfClosing = false ∧ t.core.getLast? = some '/' := by
  simp [isSlashed]

theorem base_append_closer (t : StartTag) : t.base ++ t.closer = t.source := by
  rw [base, closer, source_eq_core]
  split
  · next h =>
    obtain ⟨hclosing, hlast⟩ := isSlashed_iff.1 h
    obtain ⟨s, hs⟩ := List.getLast?_eq_some_iff.1 hlast
    simp [hs, ending, hclosing]
  · rfl

/-- What stands in front of the end of a tag, up to blanks. -/
theorem splitEnding_eq {t : StartTag} (ht : t.Legible) :
    splitEnding t.source = (Text.trimEnd t.base, t.closer) := by
  obtain ⟨s, c, hcore, hgt, -⟩ := exists_core_last ht
  have hlast : t.core.getLast? = some c := by simp [hcore]
  rw [source_eq_core, splitEnding, base, closer, ending]
  cases hclosing : t.selfClosing with
  | true =>
    have hdrop : Text.dropEndWhile (· = '>') (t.core ++ ['/', '>']) = t.core ++ ['/'] := by
      simp [Text.dropEndWhile]
    rw [if_pos rfl, hdrop, if_pos (by simp), List.dropLast_concat]
    simp [isSlashed, hclosing]
  | false =>
    have hdrop : Text.dropEndWhile (· = '>') (t.core ++ ['>']) = t.core := by
      rw [hcore]
      simp [Text.dropEndWhile, hgt]
    rw [if_neg Bool.false_ne_true, hdrop, hlast]
    by_cases hc : c = '/'
    · simp [isSlashed, hclosing, hlast, hc]
    · simp [isSlashed, hclosing, hlast, hc]

theorem isSlashed_of_unslashed {t : StartTag} (ht : t.Legible) (h : t.Unslashed) :
    t.isSlashed = false := by
  obtain ⟨s, c, hcore, -, hslash⟩ := exists_core_last ht
  rw [← Bool.not_eq_true, isSlashed_iff, hcore, List.getLast?_concat, Option.some.injEq]
  rintro ⟨hclosing, hc⟩
  obtain ⟨a, ha, v, hv, hbare, hlast⟩ := hslash hclosing hc
  exact h a ha v hv hbare hlast

theorem splitEnding_source {t : StartTag} (ht : t.Legible) (h : t.Unslashed) :
    splitEnding t.source = (Text.trimEnd t.core, t.ending) := by
  rw [splitEnding_eq ht, base, closer, isSlashed_of_unslashed ht h]
  rfl

/-! ### Flags -/

/-- A name that an attribute without a value can have. -/
def IsFlag (flag : Text) : Prop := flag ≠ [] ∧ ∀ c ∈ flag, isAttributeChar c = true

/-- A flag behind a lead. -/
def flagBehind (lead flag : Text) : Attribute := ⟨lead, flag, none⟩

theorem endsFlag_space_append {flag : Text} (h : IsFlag flag) (s : Text) :
    Attribute.EndsFlag (' ' :: (flag ++ s)) := by
  obtain ⟨c, r, rfl⟩ := List.exists_cons_of_ne_nil h.1
  obtain ⟨hblank, hequals, -⟩ := isAttributeChar_iff.1 (h.2 c (by simp))
  refine ⟨Text.heads_cons.2 (by decide), ?_⟩
  rw [List.dropWhile_cons, if_pos (by decide), List.cons_append, List.dropWhile_cons, hblank]
  simpa using hequals

theorem endsFlag_ending (closing : Bool) : Attribute.EndsFlag (endingOf closing) := by
  cases closing with
  | true => exact ⟨Text.heads_cons.2 (by decide), by decide⟩
  | false => exact ⟨Text.heads_cons.2 (by decide), by decide⟩

theorem flatMap_flagBehind (flags : List Text) :
    (flags.map (flagBehind [' '])).flatMap Attribute.source = flags.flatMap (' ' :: ·) := by
  rw [List.flatMap_map]
  exact List.flatMap_congr fun flag _ => by simp [flagBehind, Attribute.source]

theorem endsFlag_flags {flags : List Text} (h : ∀ flag ∈ flags, IsFlag flag) (closing : Bool) :
    Attribute.EndsFlag (flags.flatMap (' ' :: ·) ++ endingOf closing) := by
  cases flags with
  | nil => exact endsFlag_ending closing
  | cons flag flags =>
    rw [List.flatMap_cons, List.cons_append, List.cons_append, List.append_assoc]
    exact endsFlag_space_append (h flag (by simp)) _

theorem attributesFit_flags {flags : List Text} (h : ∀ flag ∈ flags, IsFlag flag) (closing : Bool) :
    AttributesFit (flags.map (flagBehind [' '])) (endingOf closing) := by
  induction flags with
  | nil => trivial
  | cons flag flags ih =>
    have hflags : ∀ f ∈ flags, IsFlag f := fun f hf => h f (List.mem_cons_of_mem flag hf)
    have hflag := h flag (by simp)
    refine ⟨⟨by simp [IsLead, flagBehind]; decide, hflag.2, hflag.1, ?_⟩, ih hflags⟩
    rw [flatMap_flagBehind]
    exact endsFlag_flags hflags closing

/-- Attributes and flags behind a name are read as a tag. Without any flags a slash at the end of
the trail closes the tag. -/
theorem exists_flagged {t : StartTag} (ht : t.Legible) {kept : List Attribute} {trail : Text}
    {flags : List Text} (hflags : ∀ flag ∈ flags, IsFlag flag) (htrail : IsLead trail)
    (hends : Heads endsName (kept.flatMap Attribute.source ++
      (trail ++ (flags.flatMap (' ' :: ·) ++ t.ending))))
    (hfits : AttributesFit kept (trail ++ (flags.flatMap (' ' :: ·) ++ t.ending))) :
    ∃ (u : StartTag) (extra : List Attribute),
      u.Legible ∧ u.written = t.written ∧ u.attributes = kept ++ extra ∧
      extra.map Attribute.written = flags ∧ (∀ a ∈ extra, a.assigned = none) ∧
      (flags ≠ [] ∨ trail.getLast? ≠ some '/' → u.selfClosing = t.selfClosing) ∧
      (u.trail = [] ∨ u.trail = trail ∨
        flags = [] ∧ t.selfClosing = false ∧ trail = u.trail ++ ['/']) ∧
      u.source = '<' :: (t.written ++ (kept.flatMap Attribute.source ++
        (trail ++ (flags.flatMap (' ' :: ·) ++ t.ending)))) := by
  cases flags with
  | nil =>
    rw [List.flatMap_nil, List.nil_append] at hends hfits ⊢
    by_cases hslash : t.selfClosing = false ∧ trail.getLast? = some '/'
    · obtain ⟨hclosing, hlast⟩ := hslash
      obtain ⟨s, rfl⟩ := List.getLast?_eq_some_iff.1 hlast
      have hend : s ++ ['/'] ++ t.ending = s ++ endingOf true := by
        rw [ending_eq, hclosing, List.append_assoc]
        rfl
      rw [hend] at hends hfits ⊢
      refine ⟨⟨t.written, kept, s, true⟩, [], ⟨ht.letter, ht.written, hends, hfits, ?_⟩, rfl,
        by simp, rfl, by simp, by simp, Or.inr (Or.inr ⟨rfl, hclosing, rfl⟩),
        by simp [source, ending_eq]⟩
      exact ⟨fun c hc => htrail c (by simp [hc]), by simp⟩
    · refine ⟨⟨t.written, kept, trail, t.selfClosing⟩, [],
        ⟨ht.letter, ht.written, hends, hfits, htrail, fun hclosing hlast => ?_⟩, rfl, by simp, rfl,
        by simp, by simp, Or.inr (Or.inl rfl), rfl⟩
      exact hslash ⟨hclosing, hlast⟩
  | cons flag flags =>
    have hflag := hflags flag (by simp)
    have hrest : ∀ f ∈ flags, IsFlag f := fun f hf => hflags f (List.mem_cons_of_mem flag hf)
    have hsource : (flagBehind (trail ++ [' ']) flag :: flags.map (flagBehind [' '])).flatMap
        Attribute.source ++ t.ending =
          trail ++ ((flag :: flags).flatMap (' ' :: ·) ++ t.ending) := by
      rw [List.flatMap_cons, flatMap_flagBehind, List.flatMap_cons]
      simp [flagBehind, Attribute.source]
    rw [← hsource] at hends hfits ⊢
    refine ⟨⟨t.written, kept ++ flagBehind (trail ++ [' ']) flag :: flags.map (flagBehind [' ']), [],
      t.selfClosing⟩, _, ⟨ht.letter, ht.written, ?_, ?_, by simp [TrailFits, IsLead]⟩, rfl, rfl,
      by simp [flagBehind, Function.comp_def], ?_, fun _ => rfl, Or.inl rfl, ?_⟩
    · show Heads endsName ((kept ++ _).flatMap Attribute.source ++ t.ending)
      rw [List.flatMap_append, List.append_assoc]
      exact hends
    · refine attributesFit_append.2 ⟨hfits, ⟨?_, hflag.2, hflag.1, ?_⟩, ?_⟩
      · intro c hc
        rcases List.mem_append.1 hc with hc | hc
        · exact htrail c hc
        · rw [List.mem_singleton.1 hc]
          exact Or.inl (by decide)
      · rw [flatMap_flagBehind]
        exact endsFlag_flags hrest t.selfClosing
      · exact attributesFit_flags hrest t.selfClosing
    · intro a ha
      rcases List.mem_cons.1 ha with rfl | ha
      · rfl
      · obtain ⟨f, -, rfl⟩ := List.mem_map.1 ha
        rfl
    · simp [source, ending_eq]

theorem not_isNameChar_of_isBlank {c : Char} (h : Text.isBlank c = true) :
    isNameChar c = false := by
  have hcodes : ∀ n ∈ Text.blankCodes, isNameChar (Char.ofNat n) = false := by decide +kernel
  have := hcodes c.toNat (Text.toNat_mem_blankCodes h)
  rwa [Char.ofNat_toNat] at this

/-- The blanks at the end of a tag leave its name alone. -/
theorem trimEnd_core {t : StartTag} (ht : t.Legible) : Text.trimEnd t.core =
    '<' :: (t.written ++ Text.trimEnd (t.attributes.flatMap Attribute.source ++ t.trail)) := by
  have hwritten := ht.written
  have hletter := ht.letter
  rw [core]
  generalize t.written = written at hwritten hletter ⊢
  cases written using List.reverseRecOn with
  | nil => exact absurd hletter (by simp)
  | append_singleton s c =>
    have hc : Text.isBlank c = false := by
      have hname := hwritten c (by simp)
      rw [← Bool.not_eq_true]
      intro hblank
      rw [not_isNameChar_of_isBlank hblank] at hname
      cases hname
    have := Text.trimEnd_append_of_last ('<' :: s) hc
      (t.attributes.flatMap Attribute.source ++ t.trail)
    simpa using this

/-- What follows the name of a tag still ends it when blanks at the end of the tag have given way to
flags. -/
theorem heads_trimEnd_append {t : StartTag} (ht : t.Legible) {flags : List Text}
    (hflags : ∀ flag ∈ flags, IsFlag flag) :
    Heads endsName (Text.trimEnd (t.attributes.flatMap Attribute.source ++ t.trail) ++
      (flags.flatMap (' ' :: ·) ++ t.ending)) := by
  have hends := ht.endsName
  rw [← List.append_assoc] at hends
  obtain ⟨b, -, hb⟩ := Text.exists_eq_append_trimEnd (t.attributes.flatMap Attribute.source ++ t.trail)
  cases hx : Text.trimEnd (t.attributes.flatMap Attribute.source ++ t.trail) with
  | cons c s =>
    rw [hb, hx] at hends
    exact Text.heads_cons.2 (Text.heads_cons.1 hends)
  | nil =>
    cases flags with
    | nil =>
      rw [List.flatMap_nil, List.nil_append, List.nil_append, ending_eq]
      obtain ⟨c, s, hs, hc⟩ := exists_ending_eq t.selfClosing
      rw [hs]
      rcases hc with rfl | rfl
      · exact Text.heads_cons.2 (by decide)
      · exact Text.heads_cons.2 (by decide)
    | cons flag flags => exact Text.heads_cons.2 (by decide)

/-- **A tag in double quotes is one with flags too.** -/
theorem exists_withFlags {t : StartTag} (ht : t.Legible) (hq : t.IsQuoted) {flags : List Text}
    (hflags : ∀ flag ∈ flags, IsFlag flag) :
    ∃ u : StartTag, u.Legible ∧ u.IsQuoted ∧ u.source = t.withFlags flags := by
  obtain ⟨kept, trail, htrim, htrail, hkept, hfits⟩ := exists_trimmed ht.attributes hq ht.trail.1
  have hmissing : ∀ flag ∈ flags.filter (!t.hasAttribute ·), IsFlag flag :=
    fun flag hflag => hflags flag (List.mem_filter.1 hflag).1
  have hends : Attribute.EndsFlag
      ((flags.filter (!t.hasAttribute ·)).flatMap (' ' :: ·) ++ t.ending) :=
    endsFlag_flags hmissing t.selfClosing
  have hname : Heads endsName (kept.flatMap Attribute.source ++
      (trail ++ ((flags.filter (!t.hasAttribute ·)).flatMap (' ' :: ·) ++ t.ending))) := by
    rw [← List.append_assoc, ← htrim]
    exact heads_trimEnd_append ht hmissing
  obtain ⟨u, extra, hu, -, hattributes, -, hextra, -, -, hsource⟩ :=
    exists_flagged ht hmissing htrail hname (hfits _ hends)
  refine ⟨u, hu, ?_, ?_⟩
  · intro a ha v hv
    rw [hattributes] at ha
    rcases List.mem_append.1 ha with ha | ha
    · exact hkept a ha v hv
    · rw [hextra a ha] at hv
      cases hv
  · rw [hsource, withFlags, extended, splitEnding_source ht hq.unslashed, trimEnd_core ht, htrim]
    simp

end StartTag

end MaskedViews
