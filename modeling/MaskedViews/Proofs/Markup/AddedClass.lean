import MaskedViews.Proofs.Markup.AddedFlags
import MaskedViews.Proofs.Markup.PlainClasses
import MaskedViews.Proofs.Markup.SettledWords

/-!
# A tag with one more class is read back

A tag with one more class is meant to be one tag that has the class and all that it had before
(`ClassedAs`). It is if the class goes into quotes, or into a value that is empty. A value without
quotes ends where the class begins, and behind a class attribute without a value a second one has no
part in the classes. A tag without a class attribute gets one, if it takes more attributes
(`exists_classedAs_iff`).
-/

namespace MaskedViews

namespace StartTag

open Text (Heads)

/-! ### The class attribute -/

/-- The first attribute of a name stands behind others with other names. -/
theorem exists_of_find? {t : StartTag} {name : Text} {a : Attribute} (h : t.find? name = some a) :
    ∃ front back, t.attributes = front ++ a :: back ∧ a.name = name ∧ ∀ b ∈ front, b.name ≠ name := by
  obtain ⟨hname, front, back, hattributes, hfront⟩ := List.find?_eq_some_iff_append.1 h
  exact ⟨front, back, hattributes, by simpa using hname, fun b hb => by simpa using hfront b hb⟩

theorem find?_of_front {t : StartTag} {front back : List Attribute} {a : Attribute} {name : Text}
    (hattributes : t.attributes = front ++ a :: back) (hname : a.name = name)
    (hfront : ∀ b ∈ front, b.name ≠ name) : t.find? name = some a := by
  refine List.find?_eq_some_iff_append.2 ⟨by simpa using hname, front, back, hattributes, fun b hb => ?_⟩
  simpa using hfront b hb

theorem name_ne_of_find? {t : StartTag} {name : Text} (h : t.find? name = none) :
    ∀ a ∈ t.attributes, a.name ≠ name := by
  intro a ha
  simpa using List.find?_eq_none.1 h a ha

theorem hasClass_of_find? {t : StartTag} {a : Attribute} (h : t.find? "class".toList = some a)
    (w : Text) : t.hasClass w = true ↔ w ∈ Text.words (a.value.getD []) := by
  rw [hasClass, value?, h]
  exact List.contains_iff_mem

theorem addToClasses_append {w : Text} {front back : List Attribute} {a : Attribute}
    (hname : a.name = "class".toList) (hfront : ∀ b ∈ front, b.name ≠ "class".toList) :
    addToClasses w (front ++ a :: back) = front ++ withWord w a :: back := by
  induction front with
  | nil => exact if_pos hname
  | cons b front ih =>
    rw [List.cons_append, addToClasses, if_neg (hfront b (by simp)),
      ih fun c hc => hfront c (List.mem_cons_of_mem b hc)]
    rfl

/-- A tag in which one attribute has another value is legible if that is read as it stands. -/
theorem legible_replaced {t : StartTag} (ht : t.Legible) {front back : List Attribute}
    {a b : Attribute} (hattributes : t.attributes = front ++ a :: back) (hlead : b.lead = a.lead)
    (hwritten : b.written = a.written)
    (hb : b.Fits (back.flatMap Attribute.source ++ (t.trail ++ t.ending))) :
    StartTag.Legible { t with attributes := front ++ b :: back } := by
  obtain ⟨hends, hfits⟩ := fits_replaced ht hattributes hlead hwritten hb
  have hback := ht.attributes
  rw [hattributes] at hback
  obtain ⟨hfront, hfit, -⟩ := attributesFit_append.1 hfits
  refine ⟨ht.letter, ht.written, ?_, attributesFit_append.2 ⟨?_, hfit, (attributesFit_append.1 hback).2.2⟩,
    ht.trail⟩
  · show Heads endsName ((front ++ b :: back).flatMap Attribute.source ++ (t.trail ++ t.ending))
    simpa using hends
  · show AttributesFit front ((b :: back).flatMap Attribute.source ++ (t.trail ++ t.ending))
    simpa using hfront

/-- The class attribute that a tag without one gets. -/
def classOf (w : Text) : Attribute := ⟨[' '], "class".toList, some ⟨[], [], .quoted '"', w⟩⟩

/-- What is read of a tag is one tag with the class. -/
structure ClassedAs (t : StartTag) (w : Text) (u : StartTag) : Prop where
  /-- It is the only tag of the text, -/
  placed : Markup.placedTags (t.withClass w) = [⟨0, u⟩]
  /-- and all of it. -/
  whole : u.source = t.withClass w
  /-- It has the name of the tag. -/
  name : u.name = t.name
  /-- It closes itself if the tag does. -/
  selfClosing : u.selfClosing = t.selfClosing
  /-- It has the class. -/
  hasClass : u.hasClass w = true
  /-- It has the classes of the tag. -/
  classes : ∀ k, t.hasClass k = true → u.hasClass k = true
  /-- It has the other attributes of the tag with their values. -/
  attributes : (u.attributes.filter fun a => a.name ≠ "class".toList).map Attribute.reading =
    (t.attributes.filter fun a => a.name ≠ "class".toList).map Attribute.reading
  /-- The same class once more changes nothing. -/
  again : u.withClass w = u.source

/-- Whether a class can be added to a tag: it has the class already, or its class attribute has a value
in quotes or an empty one, or it has none and takes more attributes. -/
def TakesClass (t : StartTag) (w : Text) : Prop :=
  t.hasClass w = true ∨ match t.find? "class".toList with
    | none => t.TakesMore
    | some a => ∃ v ∈ a.assigned, v.quoting = .bare → v.value = []

theorem classedAs_of_hasClass {t : StartTag} (ht : t.Legible) {w : Text} (h : t.hasClass w = true) :
    t.ClassedAs w t := by
  have hsame := withClass_of_hasClass h
  exact ⟨(Markup.placedTags_eq_iff.2 ⟨ht, hsame.symm⟩).1, hsame.symm, rfl, rfl, h, fun _ hk => hk, rfl,
    hsame⟩

/-! ### In a class attribute -/

theorem fits_withWord_of_nil {a : Attribute} {v : Assignment} {rest w : Text} (hfits : a.Fits rest)
    (hv : a.assigned = some v) (hbare : v.quoting = .bare) (hnil : v.value = []) (hw : IsLabel w) :
    (withWord w a).Fits rest := by
  have hassigned := hfits.assignment hv
  have hvalue := hfits.value_of_bare hv hbare
  refine ⟨hfits.written, ?_⟩
  rw [withWord, hv]
  refine ⟨hassigned.before, hassigned.before_eq_nil, hassigned.after, ?_⟩
  show Quoting.Fits (addWord w v.value) rest v.quoting
  rw [hbare, hnil, addWord, if_pos rfl]
  exact fits_label hw hvalue.2.1

/-- A class goes into the value of the class attribute. -/
theorem withClass_of_value {t : StartTag} {w : Text} (hnot : t.hasClass w ≠ true) {v : Assignment}
    {front back : List Attribute} {a : Attribute} (hattributes : t.attributes = front ++ a :: back)
    (hname : a.name = "class".toList) (hfront : ∀ b ∈ front, b.name ≠ "class".toList)
    (hv : a.assigned = some v) :
    t.withClass w = source { t with attributes := front ++ withWord w a :: back } := by
  have hvalue : t.hasClassValue = true := by
    rw [hasClassValue_of_find? (find?_of_front hattributes hname hfront), hv]
    rfl
  rw [withClass, if_neg hnot, if_pos hvalue, hattributes, addToClasses_append hname hfront]

/-- A value in quotes takes a class, and so does an empty one. -/
theorem exists_classedAs_of_value {t : StartTag} (ht : t.Legible) {w : Text} (hw : IsLabel w)
    (hnot : t.hasClass w ≠ true) {a : Attribute} {v : Assignment}
    (hfind : t.find? "class".toList = some a) (hv : a.assigned = some v)
    (h : v.quoting = .bare → v.value = []) : ∃ u, t.ClassedAs w u := by
  obtain ⟨front, back, hattributes, hname, hfront⟩ := exists_of_find? hfind
  have hfits := ht.fits hattributes
  have hb : (withWord w a).Fits (back.flatMap Attribute.source ++ (t.trail ++ t.ending)) := by
    cases hq : v.quoting with
    | quoted quote => exact fits_withWord hfits hv hq hw.not_isQuote
    | bare => exact fits_withWord_of_nil hfits hv hq (h hq) hw
  have hlegible := legible_replaced (b := withWord w a) ht hattributes rfl rfl hb
  have hsource := withClass_of_value hnot hattributes hname hfront hv
  have hnamew : (withWord w a).name = "class".toList := hname
  have hclass (k : Text) : StartTag.hasClass { t with attributes := front ++ withWord w a :: back } k =
      true ↔ t.hasClass k = true ∨ k = w := by
    rw [hasClass_of_find? hfind, hasClass_of_find? (find?_of_front rfl hnamew hfront)]
    simp [Attribute.value, withWord, hv, words_addWord hw]
  refine ⟨_, (Markup.placedTags_eq_iff.2 ⟨hlegible, hsource.symm⟩).1, hsource.symm, rfl, rfl,
    (hclass w).2 (Or.inr rfl), fun k hk => (hclass k).2 (Or.inl hk), ?_,
    withClass_of_hasClass ((hclass w).2 (Or.inr rfl))⟩
  rw [hattributes, List.filter_append, List.filter_append, List.filter_cons_of_neg (by simp [hnamew]),
    List.filter_cons_of_neg (by simp [hname])]

/-- Where the class attribute is read as it was a class is added to none. -/
theorem hasClass_of_kept {t u : StartTag} {front back more : List Attribute} {a : Attribute}
    (hattributes : t.attributes = front ++ a :: back) (hname : a.name = "class".toList)
    (hfront : ∀ b ∈ front, b.name ≠ "class".toList) (hmore : u.attributes = front ++ a :: more)
    (w : Text) : u.hasClass w = true ↔ t.hasClass w = true := by
  rw [hasClass_of_find? (find?_of_front hmore hname hfront),
    hasClass_of_find? (find?_of_front hattributes hname hfront)]

/-- A class behind a value without quotes is none. -/
theorem not_classedAs_of_bare {t u : StartTag} (ht : t.Legible) {w : Text} (hw : IsLabel w)
    (hnot : t.hasClass w ≠ true) {a : Attribute} {v : Assignment}
    (hfind : t.find? "class".toList = some a) (hv : a.assigned = some v) (hbare : v.quoting = .bare)
    (hne : v.value ≠ []) : ¬ t.ClassedAs w u := by
  intro h
  obtain ⟨hu, hsource⟩ := Markup.placedTags_eq_iff.1 ⟨h.placed, h.whole⟩
  obtain ⟨front, back, hattributes, hname, hfront⟩ := exists_of_find? hfind
  have hfits := ht.fits hattributes
  have hz := endsFlag_space_append hw.isFlag (back.flatMap Attribute.source ++ (t.trail ++ t.ending))
  have ha := fits_of_endsFlag hfits (fun x hx _ => by
    rw [hv, Option.mem_some_iff] at hx
    rwa [← hx]) hz fun _ _ _ => Text.heads_cons.2 (by decide)
  have hbody : (withWord w a).body = a.body ++ ' ' :: w := by
    simp [Attribute.body, withWord, hv, addWord, hne, Assignment.source, Assignment.head, hbare,
      Quoting.mark]
  obtain ⟨more, hmore⟩ := exists_attributes_of_replaced ht hu hattributes rfl rfl ha (by
    rw [hsource, withClass_of_value hnot hattributes hname hfront hv]
    simp [source, opening, Attribute.source_eq, hbody, show (withWord w a).lead = a.lead from rfl,
      ending])
  exact hnot ((hasClass_of_kept hattributes hname hfront hmore w).1 h.hasClass)

/-! ### In a class attribute of its own -/

theorem source_classOf (w : Text) :
    (classOf w).source = ' ' :: ("class".toList ++ '=' :: '"' :: (w ++ ['"'])) := by
  simp [classOf, Attribute.source, Assignment.source, Assignment.head, Quoting.mark]

theorem addable_classOf {w : Text} (hw : IsLabel w) : Addable [classOf w] := by
  constructor
  · exact ⟨'c', _, by rw [List.flatMap_singleton, source_classOf]; rfl, by decide, by decide⟩
  · exact ⟨' ' :: ("class".toList ++ '=' :: '"' :: w), '"', by simp [source_classOf], by decide, by decide⟩
  · intro closing
    refine ⟨⟨by simp [IsLead, classOf]; decide, by simp [classOf]; decide, ?_⟩, trivial⟩
    refine ⟨by simp, fun _ => rfl, by simp, by decide, fun hmem => ?_⟩
    have := hw.not_isQuote '"' hmem
    exact absurd this (by decide)
  · have hzero : Text.oddBlanks w = 0 :=
      Text.oddBlanks_eq_zero fun c hc => Text.isOddBlank_of_not_isBlank (hw.not_isBlank c hc)
    rw [List.flatMap_singleton, source_classOf]
    show Text.oddBlanks (" class=\"".toList ++ (w ++ ['"'])) = 0
    rw [Text.oddBlanks_append, Text.oddBlanks_append, hzero]
    decide

/-- A tag without a class attribute with a value gets the class in one of its own. -/
theorem withClass_of_none {t : StartTag} {w : Text} (hnot : t.hasClass w ≠ true)
    (h : t.hasClassValue = false) :
    t.withClass w = t.extended ([classOf w].flatMap Attribute.source) := by
  rw [withClass, if_neg hnot, h, if_neg Bool.false_ne_true, List.flatMap_singleton, source_classOf]
  rfl

theorem not_hasClass_of_none {t : StartTag} (h : t.find? "class".toList = none) (k : Text) :
    t.hasClass k ≠ true := by
  rw [hasClass, value?, h]
  exact Bool.false_ne_true

theorem filter_of_none {t : StartTag} (h : t.find? "class".toList = none) :
    (t.attributes.filter fun a => a.name ≠ "class".toList) = t.attributes :=
  List.filter_eq_self.2 fun a ha => decide_eq_true (name_ne_of_find? h a ha)

theorem hasClassValue_of_none {t : StartTag} (h : t.find? "class".toList = none) :
    t.hasClassValue = false := by
  rw [hasClassValue, h]
  rfl

theorem exists_classedAs_of_none {t : StartTag} (ht : t.Legible) {w : Text} (hw : IsLabel w)
    (hfind : t.find? "class".toList = none) (h : t.TakesMore) : ∃ u, t.ClassedAs w u := by
  have hnot := not_hasClass_of_none hfind
  have hvalue := hasClassValue_of_none hfind
  obtain ⟨hlegible, hsource⟩ := legible_withExtras ht h (addable_classOf hw)
  rw [← withClass_of_none (hnot w) hvalue] at hsource
  have hfront := name_ne_of_find? hfind
  have hclass : (t.withExtras [classOf w]).hasClass w = true := by
    rw [hasClass_of_find? (find?_of_front (t := t.withExtras [classOf w]) rfl rfl hfront)]
    have hwords := Text.words_of_not_isBlank hw.not_isBlank
    rw [if_neg hw.1] at hwords
    show w ∈ Text.words w
    rw [hwords]
    exact List.mem_singleton_self w
  refine ⟨_, (Markup.placedTags_eq_iff.2 ⟨hlegible, hsource⟩).1, hsource, rfl, rfl, hclass,
    fun k hk => absurd hk (hnot k), ?_, withClass_of_hasClass hclass⟩
  have hextra : (behind (Text.trimEnd t.trail) [classOf w]).filter (fun a => a.name ≠ "class".toList) =
      [] := List.filter_cons_of_neg (by simp [Attribute.name, classOf, Text.lower])
  rw [filter_of_none hfind, withExtras, List.filter_append, filter_of_none hfind, hextra,
    List.append_nil]

/-- A tag that keeps its attributes when it gets a class attribute takes more. -/
theorem takesMore_of_classedAs {t u : StartTag} (ht : t.Legible) {w : Text} (hw : IsLabel w)
    (hfind : t.find? "class".toList = none) (h : t.ClassedAs w u) : t.TakesMore := by
  obtain ⟨hu, hsource⟩ := Markup.placedTags_eq_iff.1 ⟨h.placed, h.whole⟩
  have hvalue := hasClassValue_of_none hfind
  rw [withClass_of_none (not_hasClass_of_none hfind w) hvalue] at hsource
  have hattributes := h.attributes
  rw [filter_of_none hfind] at hattributes
  refine takesMore_of_kept (p := fun name => name ≠ "class".toList) ht hu (addable_classOf hw) hsource
    (fun a ha => decide_eq_true (name_ne_of_find? hfind a ha)) ?_
  exact hattributes ▸ List.prefix_rfl

/-- What stands behind an attribute that does not end in a slash is no part of it to the end of the tag
either. -/
theorem exists_base_eq {t : StartTag} {front back : List Attribute} {a : Attribute} {s : Text} {c : Char}
    (hattributes : t.attributes = front ++ a :: back) (hbody : a.body = s ++ [c]) (hc : c ≠ '/') :
    ∃ y, t.base = t.opening front a ++ (a.body ++ y) ∧
      y ++ t.closer = back.flatMap Attribute.source ++ (t.trail ++ t.ending) := by
  have hcore : t.core = t.opening front a ++ (a.body ++ (back.flatMap Attribute.source ++ t.trail)) := by
    simp [core, opening, hattributes, Attribute.source_eq]
  cases hslashed : t.isSlashed with
  | false =>
    exact ⟨_, by rw [base_of_not_isSlashed hslashed, hcore],
      by rw [closer_of_not_isSlashed hslashed, List.append_assoc]⟩
  | true =>
    obtain ⟨hclosing, hlast⟩ := isSlashed_iff.1 hslashed
    rw [hcore] at hlast
    obtain ⟨y, d, hy⟩ := (List.eq_nil_or_concat (back.flatMap Attribute.source ++ t.trail)).resolve_left
      fun hnil => by
        rw [hnil, hbody] at hlast
        exact hc (by simpa using hlast)
    rw [List.concat_eq_append] at hy
    rw [hy] at hcore hlast
    obtain rfl : d = '/' := by simpa [← List.append_assoc] using hlast
    refine ⟨y, ?_, ?_⟩
    · rw [base, hslashed, if_pos rfl, hcore]
      simp [← List.append_assoc]
    · rw [closer, hslashed, if_pos rfl, ← List.append_assoc, hy, ending, hclosing]
      simp

/-- The last letter of a class attribute without a value. -/
theorem exists_written_eq {a : Attribute} (hname : a.name = "class".toList)
    (hchars : ∀ c ∈ a.written, isAttributeChar c = true) :
    ∃ s c, a.written = s ++ [c] ∧ Text.isBlank c = false ∧ c ≠ '/' := by
  have hlower : a.written.map Char.toLower = "clas".toList ++ ['s'] := hname
  obtain ⟨s, d, hs⟩ := (List.eq_nil_or_concat a.written).resolve_left fun hnil => by
    rw [hnil] at hlower
    cases hlower
  rw [List.concat_eq_append] at hs
  rw [hs, List.map_append] at hlower
  have hd : d.toLower = 's' := by
    have := congrArg List.getLast? hlower
    simpa using this
  obtain ⟨hascii, -, -, hslash⟩ := isAttributeChar_iff.1 (hchars d (by simp [hs]))
  have hodd : Text.isOddBlank d = false := by
    rw [← Text.isOddBlank_toLower, hd]
    decide
  exact ⟨s, d, hs, by simpa [Text.isOddBlank, hascii] using hodd, hslash⟩

/-- Behind a class attribute without a value a class in another one is none. -/
theorem not_classedAs_of_flag {t u : StartTag} (ht : t.Legible) {w : Text} {a : Attribute}
    (hnot : t.hasClass w ≠ true) (hfind : t.find? "class".toList = some a) (hv : a.assigned = none) :
    ¬ t.ClassedAs w u := by
  intro h
  obtain ⟨hu, hsource⟩ := Markup.placedTags_eq_iff.1 ⟨h.placed, h.whole⟩
  obtain ⟨front, back, hattributes, hname, hfront⟩ := exists_of_find? hfind
  have hfits := ht.fits hattributes
  have hvalue : t.hasClassValue = false := by
    rw [hasClassValue_of_find? hfind, hv]
    rfl
  rw [withClass_of_none hnot hvalue, extended_eq ht, List.flatMap_singleton, source_classOf] at hsource
  obtain ⟨s, c, hs, hblank, hslash⟩ := exists_written_eq hname hfits.written
  have hbody : a.body = s ++ [c] := by simp [Attribute.body, hv, hs]
  obtain ⟨y, hbase, hy⟩ := exists_base_eq hattributes hbody hslash
  have htrim : Text.trimEnd t.base = t.opening front a ++ (a.body ++ Text.trimEnd y) := by
    have := Text.trimEnd_append_of_last (t.opening front a ++ s) hblank y
    rw [hbase, hbody]
    simpa using this
  have ha : a.Fits (Text.trimEnd y ++
      ' ' :: ("class".toList ++ ('=' :: '"' :: (w ++ ['"']) ++ t.closer))) := by
    by_cases hnil : Text.trimEnd y = []
    · rw [hnil, List.nil_append]
      exact fits_of_endsFlag hfits (by simp [hv])
        (endsFlag_space_append ⟨by decide, by decide⟩ _) (by simp [hv])
    · obtain ⟨b, -, hb⟩ := Text.exists_eq_append_trimEnd y
      rw [← hy] at hfits
      refine (fits_congr ?_).1 hfits
      conv => arg 1; rw [hb]
      rw [List.append_assoc]
      exact sameStart_append (exists_firm_of_trimEnd hnil) _ _
  obtain ⟨more, hmore⟩ := exists_attributes_of_replaced ht hu hattributes rfl rfl ha (by
    rw [hsource, htrim]
    simp)
  exact hnot ((hasClass_of_kept hattributes hname hfront hmore w).1 h.hasClass)

/-! ### Reading back -/

/-- **A tag with one more class is read with the class, those that it had and its other attributes,
exactly if it takes the class.** -/
theorem exists_classedAs_iff {html : Text} {t : StartTag} {w : Text} (ht : t ∈ Markup.startTags html)
    (hw : IsLabel w) : (∃ u, t.ClassedAs w u) ↔ t.TakesClass w := by
  have hlegible := Markup.legible_of_mem_startTags ht
  by_cases hnot : t.hasClass w = true
  · exact ⟨fun _ => Or.inl hnot, fun _ => ⟨t, classedAs_of_hasClass hlegible hnot⟩⟩
  rw [TakesClass, or_iff_right hnot]
  cases hfind : t.find? "class".toList with
  | none =>
    exact ⟨fun ⟨_, hu⟩ => takesMore_of_classedAs hlegible hw hfind hu,
      exists_classedAs_of_none hlegible hw hfind⟩
  | some a =>
    dsimp only
    cases hv : a.assigned with
    | none =>
      refine iff_of_false ?_ (by simp)
      rintro ⟨u, hu⟩
      exact not_classedAs_of_flag hlegible hnot hfind hv hu
    | some v =>
      simp only [Option.mem_some_iff, exists_eq_left']
      constructor
      · rintro ⟨u, hu⟩ hbare
        by_contra hne
        exact not_classedAs_of_bare hlegible hw hnot hfind hv hbare hne hu
      · exact exists_classedAs_of_value hlegible hw hnot hfind hv

/-- The tag of a paragraph with a class. -/
def paragraphTag (q : Quoting) (classes : Text) : StartTag :=
  ⟨"p".toList, [⟨[' '], "class".toList, some ⟨[], [], q, classes⟩⟩], [], false⟩

/-- A class goes between single quotes. -/
theorem exists_classedAs_paragraphTag :
    paragraphTag (.quoted '\'') "big".toList ∈ Markup.startTags "<p class='big'>".toList ∧
      (paragraphTag (.quoted '\'') "big".toList).withClass "wide".toList =
        "<p class='big wide'>".toList ∧
      ∃ u, (paragraphTag (.quoted '\'') "big".toList).ClassedAs "wide".toList u := by
  have ht : paragraphTag (.quoted '\'') "big".toList ∈ Markup.startTags "<p class='big'>".toList :=
    Markup.mem_startTags_source (by decide +kernel)
  exact ⟨ht, by decide +kernel, (exists_classedAs_iff ht (by decide)).2
    (Or.inr ⟨_, rfl, fun hbare => nomatch hbare⟩)⟩

/-- A class behind a value without quotes is a flag. -/
theorem not_classedAs_paragraphTag :
    paragraphTag .bare "big".toList ∈ Markup.startTags "<p class=big>".toList ∧
      (paragraphTag .bare "big".toList).withClass "wide".toList = "<p class=big wide>".toList ∧
      ¬ ∃ u, (paragraphTag .bare "big".toList).ClassedAs "wide".toList u := by
  have hlegible : (paragraphTag .bare "big".toList).Legible := by decide +kernel
  refine ⟨Markup.mem_startTags_source hlegible, by decide +kernel, ?_⟩
  rintro ⟨u, hu⟩
  exact not_classedAs_of_bare hlegible (by decide) (by decide +kernel) rfl rfl rfl (by decide) hu

end StartTag

end MaskedViews
