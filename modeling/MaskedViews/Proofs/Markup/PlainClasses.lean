import MaskedViews.Proofs.Markup.PlainFlags
import MaskedViews.Proofs.Markup.SettledWords

/-!
# Plain tags with a class

A plain tag with one more class is a plain tag of the same element (`exists_classed_plain`). In a
value without quotes the class is no class: behind a blank it is read as a flag.
-/

namespace MaskedViews.StartTag

open Text (Heads)

/-- A value with one more word has the words that it had and that one. -/
theorem words_addWord {word : Text} (h : IsLabel word) (value : Text) :
    Text.words (addWord word value) = Text.words value ++ [word] := by
  have hword : Text.words word = [word] := by
    rw [Text.words_of_not_isBlank h.not_isBlank, if_neg h.1]
  rw [addWord]
  split
  · next hnil => rw [hnil, hword, Text.words_nil, List.nil_append]
  · rw [Text.words_append_cons (by decide), hword]

theorem hasClassValue_of_find? {t : StartTag} {a : Attribute} (h : t.find? "class".toList = some a) :
    t.hasClassValue = a.assigned.isSome := by
  rw [hasClassValue, h, Option.bind_some, Attribute.value, Option.isSome_map]

/-- A text that goes on with no `=` behind blanks. -/
def GoesOn (rest : Text) : Prop := (rest.dropWhile Text.isAsciiBlank).head? ≠ some '='

theorem goesOn_cons {c : Char} (hc : Text.isAsciiBlank c = false) (hne : c ≠ '=') (s : Text) :
    GoesOn (c :: s) := by
  simpa [GoesOn, hc] using hne

theorem goesOn_lead_append {lead rest : Text} (h : IsLead lead) (hrest : GoesOn rest) :
    GoesOn (lead ++ rest) := by
  induction lead with
  | nil => exact hrest
  | cons c lead ih =>
    rcases h c (by simp) with hc | rfl
    · rw [GoesOn, List.cons_append, List.dropWhile_cons, if_pos hc]
      exact ih fun d hd => h d (List.mem_cons_of_mem c hd)
    · exact goesOn_cons (by decide) (by decide) _

theorem goesOn_ending {t : StartTag} (ht : t.Legible) : GoesOn (t.trail ++ t.ending) := by
  refine goesOn_lead_append ht.trail.1 ?_
  obtain ⟨c, s, hs, hc⟩ := exists_ending_eq t.selfClosing
  rw [ending_eq, hs]
  rcases hc with rfl | rfl
  · exact goesOn_cons (by decide) (by decide) s
  · exact goesOn_cons (by decide) (by decide) s

/-- No attribute of a plain tag begins with `=`. -/
theorem goesOn_attributes {attributes : List Attribute} {rest : Text}
    (hp : ∀ a ∈ attributes, a.IsPlain) (h : AttributesFit attributes rest) (hrest : GoesOn rest) :
    GoesOn (attributes.flatMap Attribute.source ++ rest) := by
  cases attributes with
  | nil => exact hrest
  | cons a attributes =>
    obtain ⟨c, w, hw⟩ := List.exists_cons_of_ne_nil (hp a (by simp)).named
    have hc := isAttributeChar_iff.1 (h.1.2.written c (by simp [hw]))
    rw [List.flatMap_cons, Attribute.source, List.append_assoc, hw, List.append_assoc]
    exact goesOn_lead_append h.1.1 (goesOn_cons hc.1 hc.2.1 _)

/-- A value in quotes takes one more word without quotes in it. -/
theorem fits_withWord {a : Attribute} {v : Assignment} {quote : Char} {rest word : Text}
    (hfits : a.Fits rest) (hv : a.assigned = some v) (hq : v.quoting = .quoted quote)
    (hword : ∀ c ∈ word, isQuote c = false) : (withWord word a).Fits rest := by
  obtain ⟨lead, written, assigned⟩ := a
  obtain ⟨before, after, q, value⟩ := v
  obtain rfl : assigned = some ⟨before, after, q, value⟩ := hv
  obtain rfl : q = .quoted quote := hq
  have hassigned : Assignment.Fits written ⟨before, after, .quoted quote, value⟩ rest :=
    hfits.assigned
  refine ⟨hfits.written, hassigned.before, hassigned.before_eq_nil, hassigned.after,
    hassigned.value.1, ?_⟩
  show quote ∉ addWord word value
  have hnot : quote ∉ word := by
    intro hmem
    have hquote := hassigned.value.1
    rw [hword quote hmem] at hquote
    cases hquote
  have hspace : quote ≠ ' ' := by
    rcases isQuote_iff.1 hassigned.value.1 with rfl | rfl <;> decide
  rw [addWord]
  split
  · exact hnot
  · simp [hassigned.value.2, hnot, hspace]

/-- A value without quotes stays one when a word comes behind it, and the word is read as a flag. -/
theorem fits_append_word {a : Attribute} {v : Assignment} {rest word : Text} (hfits : a.Fits rest)
    (hv : a.assigned = some v) (hq : v.quoting = .bare) (hne : v.value ≠ []) (hword : IsWord word)
    (hrest : GoesOn rest) :
    a.Fits ((flagBehind [' '] word).source ++ rest) ∧ (flagBehind [' '] word).Fits rest := by
  have hassigned := hfits.assigned
  rw [hv] at hassigned
  have hvalue := hassigned.value
  rw [hq] at hvalue
  obtain ⟨hchars, hheads, c, hc, hfirm⟩ := hvalue
  constructor
  · refine ⟨hfits.written, ?_⟩
    rw [hv]
    refine ⟨hassigned.before, hassigned.before_eq_nil, hassigned.after, ?_⟩
    rw [hq]
    obtain ⟨d, value, hvalue⟩ := List.exists_cons_of_ne_nil hne
    refine ⟨hchars, Text.heads_cons.2 (by decide), c, ?_, hfirm⟩
    rw [hvalue] at hc ⊢
    exact hc
  · refine ⟨hword.isFlag.2, hword.1, fun d hd => ?_, hrest⟩
    -- what ends a value ends a name
    have hend := hheads d hd
    simp only [isBareChar, isAttributeChar, Bool.not_eq_true', Bool.and_eq_false_iff,
      Bool.not_eq_false', decide_eq_false_iff_not] at hend ⊢
    tauto

/-- The class of a plain tag with one more class is one attribute if its value is in quotes. If it is
bare there are two, since the word is read as a flag. -/
theorem exists_added_class {a : Attribute} {v : Assignment} {rest word : Text} (ha : a.IsPlain)
    (hlead : IsLead a.lead) (hfits : a.Fits rest) (hrest : GoesOn rest) (hword : IsWord word)
    (hv : a.assigned = some v) (hne : v.value ≠ []) :
    ∃ added : List Attribute, (∀ b ∈ added, b.IsPlain) ∧ AttributesFit added rest ∧
      added.flatMap Attribute.source = (withWord word a).source ∧
      SameStart (a.source ++ rest) (added.flatMap Attribute.source ++ rest) := by
  cases hq : v.quoting with
  | quoted quote =>
    have hplain : (withWord word a).IsPlain := by
      refine ⟨ha.named, ha.written, fun w hw hbare => ?_⟩
      rw [withWord, hv, Option.map_some, Option.mem_some_iff] at hw
      rw [← hw] at hbare
      rw [hq] at hbare
      cases hbare
    have hadded := fits_withWord hfits hv hq hword.isLabel.not_isQuote
    refine ⟨[withWord word a], List.forall_mem_singleton.2 hplain, ⟨⟨hlead, hadded⟩, trivial⟩,
      List.flatMap_singleton _ _, ?_⟩
    rw [List.flatMap_singleton]
    exact sameStart_source hfits hadded rfl rfl _ _
  | bare =>
    obtain ⟨hafits, hflag⟩ := fits_append_word hfits hv hq hne hword hrest
    have hlead' : IsLead (flagBehind [' '] word).lead := by
      intro c hc
      rw [List.mem_singleton.1 hc]
      exact Or.inl (by decide)
    have hsource : (withWord word a).source = a.source ++ (flagBehind [' '] word).source := by
      simp [withWord, Attribute.source, hv, addWord, hne, Assignment.source, Assignment.head, hq,
        Quoting.mark, flagBehind]
    refine ⟨[a, flagBehind [' '] word], ?_, ⟨⟨hlead, ?_⟩, ⟨hlead', hflag⟩, trivial⟩, ?_, ?_⟩
    · exact List.forall_mem_cons.2 ⟨ha, List.forall_mem_singleton.2 (isPlain_of_isWord hword rfl)⟩
    · rwa [List.flatMap_singleton]
    · rw [hsource, List.flatMap_cons, List.flatMap_singleton]
    · rw [List.flatMap_cons, List.append_assoc]
      exact sameStart_source hfits hfits rfl rfl _ _

/-- The attributes of a plain tag with one more class are those of a plain tag. -/
theorem exists_added {attributes : List Attribute} {rest word : Text}
    (hp : ∀ a ∈ attributes, a.IsPlain) (h : AttributesFit attributes rest) (hrest : GoesOn rest)
    (hword : IsWord word)
    (hclass : ∀ a ∈ attributes.find? (fun a => a.name = "class".toList),
      ∃ v, a.assigned = some v ∧ v.value ≠ []) :
    ∃ added : List Attribute, (∀ a ∈ added, a.IsPlain) ∧ AttributesFit added rest ∧
      added.flatMap Attribute.source = (addToClasses word attributes).flatMap Attribute.source ∧
      SameStart (attributes.flatMap Attribute.source ++ rest)
        (added.flatMap Attribute.source ++ rest) := by
  induction attributes with
  | nil => exact ⟨[], hp, h, rfl, .refl _⟩
  | cons a attributes ih =>
    obtain ⟨ha, hps⟩ := List.forall_mem_cons.1 hp
    obtain ⟨⟨hlead, hfits⟩, hfit⟩ := h
    rw [addToClasses]
    split
    · next hname =>
      have hfind : (a :: attributes).find? (fun a => a.name = "class".toList) = some a := by
        rw [List.find?_cons, decide_eq_true hname]
      obtain ⟨v, hv, hne⟩ := hclass a hfind
      obtain ⟨added, hadded, haddedfit, hsource, hstart⟩ :=
        exists_added_class ha hlead hfits (goesOn_attributes hps hfit hrest) hword hv hne
      refine ⟨added ++ attributes, List.forall_mem_append.2 ⟨hadded, hps⟩,
        attributesFit_append.2 ⟨haddedfit, hfit⟩, ?_, ?_⟩
      · rw [List.flatMap_append, List.flatMap_cons, hsource]
      · rwa [List.flatMap_append, List.flatMap_cons, List.append_assoc, List.append_assoc]
    · next hname =>
      rw [List.find?_cons, decide_eq_false hname] at hclass
      obtain ⟨added, hadded, haddedfit, hsource, hstart⟩ := ih hps hfit hclass
      refine ⟨a :: added, List.forall_mem_cons.2 ⟨ha, hadded⟩,
        ⟨⟨hlead, (fits_congr hstart).1 hfits⟩, haddedfit⟩, ?_, ?_⟩
      · rw [List.flatMap_cons, List.flatMap_cons, hsource]
      · rw [List.flatMap_cons, List.flatMap_cons, List.append_assoc, List.append_assoc]
        exact hstart.append a.source

/-- A tag that has a class has a value for it. -/
theorem exists_class_of_hasClass {t : StartTag} {className : Text} (h : t.hasClass className = true) :
    ∃ a v, t.find? "class".toList = some a ∧ a.assigned = some v ∧ v.value ≠ [] := by
  rw [hasClass, value?] at h
  cases hfind : t.find? "class".toList with
  | none =>
    rw [hfind] at h
    cases h
  | some a =>
    rw [hfind] at h
    have hmem : className ∈ Text.words (a.value.getD []) := by simpa using h
    cases hv : a.assigned with
    | none => simp [Attribute.value, hv, Text.words] at hmem
    | some v =>
      refine ⟨a, v, rfl, hv, ?_⟩
      rintro hnil
      simp [Attribute.value, hv, hnil, Text.words] at hmem

/-- **A plain tag with a class and one more is a plain tag of the same element.** -/
theorem exists_classed_plain {t : StartTag} {className word : Text} (ht : t.Legible) (hp : t.IsPlain)
    (hclass : t.hasClass className = true) (hword : IsWord word) :
    ∃ u : StartTag, u.Legible ∧ u.IsPlain ∧ u.name = t.name ∧ u.selfClosing = t.selfClosing ∧
      u.source = t.withClass word := by
  rw [withClass]
  split
  · exact ⟨t, ht, hp, rfl, rfl, rfl⟩
  obtain ⟨a, v, hfind, hv, hne⟩ := exists_class_of_hasClass hclass
  have hvalue : t.hasClassValue = true := by
    rw [hasClassValue_of_find? hfind, hv]
    rfl
  obtain ⟨added, hadded, hfit, hsource, hstart⟩ :=
    exists_added hp ht.attributes (goesOn_ending ht) hword fun b hb => by
      rw [show t.attributes.find? _ = some a from hfind, Option.mem_some_iff] at hb
      rw [← hb]
      exact ⟨v, hv, hne⟩
  rw [if_pos hvalue]
  refine ⟨{ t with attributes := added }, ⟨ht.letter, ht.written, ?_, hfit, ht.trail⟩, hadded, rfl, rfl,
    ?_⟩
  · exact (hstart.heads endsName_of_isAsciiBlank).1 ht.endsName
  · rw [source, source, hsource]
    rfl

end MaskedViews.StartTag
