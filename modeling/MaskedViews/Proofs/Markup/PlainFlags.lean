import MaskedViews.Proofs.Markup.Extending
import MaskedViews.Proofs.Markup.Plain

/-!
# Plain tags with flags

A plain tag gets its flags behind its last attribute, and they are read as flags there
(`exists_flagged_of_isClosed`). Only where the last attribute ends in `=` the first flag is read as
its value (`exists_flagged_of_isOpen`).
-/

namespace MaskedViews

open Markup (isFirm)

namespace StartTag

open Text (Heads)

/-- Whether the last attribute of a tag ends in `=`: its value is empty and has no quotes. -/
def isOpen (t : StartTag) : Bool :=
  t.attributes.getLast?.any fun a => a.assigned.any fun v => v.quoting = .bare ∧ v.value = []

/-- The flags that a tag does not have. -/
def missing (t : StartTag) (flags : List Text) : List Text := flags.filter (!t.hasAttribute ·)

/-- A tag whose end is not changed with the blanks in front of it: no value gives it a slash, and
where no flags come in between it gives none to a value and takes none from the trail. -/
structure KeepsEnd (t : StartTag) (flags : List Text) : Prop where
  /-- The last value ends in no slash if it has no quotes. -/
  unslashed : t.Unslashed
  /-- There is no slash in the trail that the end may take. -/
  trail : t.missing flags = [] → '/' ∉ t.trail
  /-- There is no slash in the end that the last value may take. -/
  value : t.missing flags = [] → ∀ a ∈ t.attributes.getLast?, ∀ v ∈ a.assigned, v.quoting = .bare →
    t.selfClosing = false

/-- A tag with double quotes around its values keeps its end if there is no slash in its trail. -/
theorem IsQuoted.keepsEnd {t : StartTag} (h : t.IsQuoted) (ht : '/' ∉ t.trail) (flags : List Text) :
    t.KeepsEnd flags := by
  refine ⟨h.unslashed, fun _ => ht, fun _ a ha v hv hbare => ?_⟩
  rw [h a (List.mem_of_mem_getLast? ha) v hv] at hbare
  cases hbare

/-- A flag that can be written without quotes and is one name. -/
def IsWord (flag : Text) : Prop := flag ≠ [] ∧ ∀ c ∈ flag, isNameChar c = true

theorem not_endsName_of_isNameChar {c : Char} (h : isNameChar c = true) : endsName c = false := by
  rw [← Bool.not_eq_true]
  intro hends
  rw [not_isNameChar_of_endsName hends] at h
  cases h

theorem IsWord.isLabel {flag : Text} (h : IsWord flag) : IsLabel flag := by
  refine ⟨h.1, fun c hc => ?_⟩
  have hname := h.2 c hc
  have hends := not_endsName_of_isNameChar hname
  simp only [endsName, Bool.or_eq_false_iff, decide_eq_false_iff_not] at hends
  obtain ⟨⟨hblank, hgt⟩, hslash⟩ := hends
  have hnot {p : Char → Bool} (hp : p c = true → isNameChar c = false) : p c = false := by
    rw [← Bool.not_eq_true]
    intro htrue
    rw [hp htrue] at hname
    cases hname
  refine isLabelChar_iff.2 ⟨isAttributeChar_iff.2 ⟨hblank, ?_, hgt, hslash⟩,
    hnot not_isNameChar_of_isBlank, hnot fun hquote => ?_⟩
  · rintro rfl
    exact absurd hname (by decide)
  · rcases isQuote_iff.1 hquote with rfl | rfl <;> decide

theorem IsWord.isFlag {flag : Text} (h : IsWord flag) : IsFlag flag := h.isLabel.isFlag

theorem isFlag_of_mem_missing {t : StartTag} {flags : List Text} (h : ∀ flag ∈ flags, IsWord flag) :
    ∀ flag ∈ t.missing flags, IsFlag flag :=
  fun flag hflag => (h flag (List.mem_filter.1 hflag).1).isFlag

/-! ### Behind a last attribute -/

/-- The last part of a solid attribute ends in no blank. -/
theorem exists_tail_firm {a : Attribute} {rest : Text} (ha : a.IsSolid) (hfits : a.Fits rest)
    (hclosed : ∀ v ∈ a.assigned, v.quoting = .bare → v.value ≠ []) :
    ∃ c ∈ a.tail.getLast?, Text.isBlank c = false := by
  obtain ⟨lead, written, assigned⟩ := a
  cases assigned with
  | none =>
    obtain ⟨s, c, hs⟩ := (List.eq_nil_or_concat written).resolve_left hfits.assigned.1
    rw [List.concat_eq_append] at hs
    exact ⟨c, by simp [Attribute.tail, hs], ha.written c (by simp [hs])⟩
  | some v =>
    obtain ⟨before, after, q, value⟩ := v
    have hv : Assignment.Fits written ⟨before, after, q, value⟩ rest := hfits.assigned
    cases q with
    | quoted quote =>
      refine ⟨quote, by simp [Attribute.tail, Quoting.mark], ?_⟩
      exact (Markup.isFirm_iff.1 (Attribute.isFirm_of_isQuote hv.value.1)).1
    | bare =>
      obtain ⟨s, c, hs⟩ := (List.eq_nil_or_concat value).resolve_left (hclosed _ rfl rfl)
      rw [List.concat_eq_append] at hs
      refine ⟨c, by simp [Attribute.tail, Quoting.mark, hs], ?_⟩
      exact (Markup.isFirm_iff.1 (ha.value _ rfl rfl c (by simp [hs]))).1

/-- The attributes of a solid tag are read as they stand when the blanks at its end give way to
flags. -/
theorem attributesFit_missing {t : StartTag} {flags : List Text} (ht : t.Legible) (hp : t.IsSolid)
    (hopen : t.isOpen = false)
    (hend : t.missing flags = [] → ∀ a ∈ t.attributes.getLast?, ∀ v ∈ a.assigned,
      v.quoting = .bare → t.selfClosing = false)
    (hflags : ∀ flag ∈ flags, IsWord flag) :
    Text.trimEnd (t.attributes.flatMap Attribute.source ++ t.trail) =
        t.attributes.flatMap Attribute.source ++ Text.trimEnd t.trail ∧
      AttributesFit t.attributes (Text.trimEnd t.trail ++
        ((t.missing flags).flatMap (' ' :: ·) ++ t.ending)) := by
  have hclosed : ∀ a ∈ t.attributes.getLast?, ∀ v ∈ a.assigned, v.quoting = .bare → v.value ≠ [] := by
    intro a ha v hv hbare hnil
    rw [Option.mem_def] at ha hv
    simp [isOpen, ha, hv, hbare, hnil] at hopen
  constructor
  · refine trimEnd_attributes fun _ a ha => ?_
    obtain ⟨-, r, hfits⟩ := fits_of_mem ht.attributes (List.mem_of_mem_getLast? ha)
    exact exists_tail_firm (hp a (List.mem_of_mem_getLast? ha)) hfits (hclosed a ha)
  · refine attributesFit_trimEnd ht fun _ a ha => ?_
    obtain ⟨-, r, hfits⟩ := fits_of_mem ht.attributes (List.mem_of_mem_getLast? ha)
    refine fits_of_endsFlag hfits (hclosed a ha)
      (endsFlag_flags (isFlag_of_mem_missing (t := t) hflags) t.selfClosing) fun v hv hbare => ?_
    cases hmissing : t.missing flags with
    | cons flag rest => exact Text.heads_cons.2 (by decide)
    | nil =>
      rw [ending_eq, hend hmissing a ha v hv hbare]
      exact Text.heads_cons.2 (by decide)

/-! ### The tag with flags -/

theorem isPlain_of_isWord {a : Attribute} (h : IsWord a.written) (ha : a.assigned = none) :
    a.IsPlain :=
  ⟨h.1, fun c hc => isFirm_of_isNameChar (h.2 c hc), by simp [ha]⟩

theorem source_withFlags {t : StartTag} {flags : List Text} (ht : t.Legible) (h : t.Unslashed) :
    t.withFlags flags = '<' :: (t.written ++
      (Text.trimEnd (t.attributes.flatMap Attribute.source ++ t.trail) ++
        ((t.missing flags).flatMap (' ' :: ·) ++ t.ending))) := by
  rw [withFlags, extended, splitEnding_source ht h, trimEnd_core ht]
  simp [missing]

/-- A solid tag that does not end in `=` gets the flags that it does not have as attributes. -/
theorem exists_missing {t : StartTag} {flags : List Text} (ht : t.Legible) (hp : t.IsSolid)
    (hopen : t.isOpen = false) (hunslashed : t.Unslashed)
    (hend : t.missing flags = [] → ∀ a ∈ t.attributes.getLast?, ∀ v ∈ a.assigned,
      v.quoting = .bare → t.selfClosing = false)
    (hflags : ∀ flag ∈ flags, IsWord flag) :
    ∃ (u : StartTag) (extra : List Attribute), u.Legible ∧ u.written = t.written ∧
      u.source = t.withFlags flags ∧ u.attributes = t.attributes ++ extra ∧
      extra.map Attribute.written = t.missing flags ∧
      (∀ a ∈ extra, IsWord a.written ∧ a.assigned = none) ∧
      ((t.missing flags = [] → '/' ∉ t.trail) → u.selfClosing = t.selfClosing) ∧
      (u.trail = [] ∨ u.trail = Text.trimEnd t.trail ∨ t.missing flags = [] ∧
        t.selfClosing = false ∧ Text.trimEnd t.trail = u.trail ++ ['/']) := by
  obtain ⟨htrim, hfits⟩ := attributesFit_missing ht hp hopen hend hflags
  have hheads := heads_trimEnd_append ht (isFlag_of_mem_missing (t := t) hflags)
  rw [htrim, List.append_assoc] at hheads
  obtain ⟨u, extra, hu, hwritten, hattributes, hextra, hnone, hclosing, hend, hsource⟩ :=
    exists_flagged ht (isFlag_of_mem_missing hflags) (isLead_trimEnd ht.trail.1) hheads hfits
  refine ⟨u, extra, hu, hwritten, ?_, hattributes, hextra, fun a ha => ⟨?_, hnone a ha⟩, fun htrail =>
    hclosing ?_, hend⟩
  · rw [hsource, source_withFlags ht hunslashed, htrim, List.append_assoc]
  · have hmem : a.written ∈ extra.map Attribute.written := List.mem_map_of_mem ha
    rw [hextra] at hmem
    exact hflags _ (List.mem_filter.1 hmem).1
  · by_cases hmissing : t.missing flags = []
    · refine Or.inr fun hlast => htrail hmissing ?_
      obtain ⟨b, -, hb⟩ := Text.exists_eq_append_trimEnd t.trail
      rw [hb]
      exact List.mem_append_left b (List.mem_of_getLast? hlast)
    · exact Or.inl hmissing

/-- A plain tag that does not end in `=` is plain with flags too. -/
theorem exists_flagged_of_isClosed {t : StartTag} {flags : List Text} (ht : t.Legible)
    (hp : t.IsPlain) (hopen : t.isOpen = false) (hend : t.KeepsEnd flags)
    (hflags : ∀ flag ∈ flags, IsWord flag) :
    ∃ (u : StartTag) (extra : List Attribute), u.Legible ∧ u.IsPlain ∧ u.written = t.written ∧
      u.selfClosing = t.selfClosing ∧ u.source = t.withFlags flags ∧
      u.attributes = t.attributes ++ extra ∧ extra.map Attribute.written = t.missing flags := by
  obtain ⟨u, extra, hu, hwritten, hsource, hattributes, hextra, hflag, hclosing, -⟩ :=
    exists_missing ht hp.solid hopen hend.unslashed hend.value hflags
  refine ⟨u, extra, hu, fun a ha => ?_, hwritten, hclosing hend.trail, hsource, hattributes, hextra⟩
  rw [hattributes] at ha
  rcases List.mem_append.1 ha with ha | ha
  · exact hp a ha
  · exact isPlain_of_isWord (hflag a ha).1 (hflag a ha).2

/-- A tag that ends in `=` has nothing behind that but blanks and its end. -/
theorem eq_of_isOpen {t : StartTag} (ht : t.Legible) (h : t.isOpen = true) :
    ∃ attributes a v, t.attributes = attributes ++ [a] ∧ a.assigned = some v ∧ v.quoting = .bare ∧
      v.value = [] ∧ t.trail = [] ∧ t.selfClosing = false := by
  obtain ⟨a, hlast, h⟩ := (Option.any_eq_true _ _).1 h
  obtain ⟨v, hv, h⟩ := (Option.any_eq_true _ _).1 h
  obtain ⟨hbare, hnil⟩ := of_decide_eq_true h
  obtain ⟨attributes, hattributes⟩ := List.getLast?_eq_some_iff.1 hlast
  exact ⟨attributes, a, v, hattributes, hv, hbare, hnil, (eq_of_bare_nil ht hattributes hv hbare hnil).2⟩

/-- A plain tag that ends in `=` is written up to there when it gets flags. -/
theorem trimEnd_of_isOpen {attributes : List Attribute} {a : Attribute} {before after : Text}
    (ha : a.assigned = some ⟨before, after, .bare, []⟩)
    (hafter : ∀ c ∈ after, Text.isAsciiBlank c = true) :
    Text.trimEnd ((attributes ++ [a]).flatMap Attribute.source) =
      attributes.flatMap Attribute.source ++ (a.lead ++ (a.written ++ (before ++ ['=']))) := by
  have hblanks : Text.trimEnd after = [] :=
    Text.trimEnd_of_blanks fun c hc => Text.isBlank_of_isAsciiBlank (hafter c hc)
  have := Text.trimEnd_append_of_last
    (attributes.flatMap Attribute.source ++ (a.lead ++ (a.written ++ before)))
    (show Text.isBlank '=' = false by decide) after
  rw [hblanks] at this
  simpa [Attribute.source, ha, Assignment.source, Assignment.head, Quoting.mark] using this

/-- A last attribute that ends in `=` and words behind it are an attribute with the first of the
words for its value, and the other words. -/
theorem exists_last_of_words {a : Attribute} {rest before after : Text} {words : List Text}
    (ha : a.IsPlain) (hv : a.assigned = some ⟨before, after, .bare, []⟩) (hfits : a.Fits rest)
    (hwords : ∀ word ∈ words, IsWord word) :
    ∃ b : Attribute, b.lead = a.lead ∧ b.written = a.written ∧ b.IsPlain ∧
      b.Fits (words.tail.flatMap (' ' :: ·) ++ ['>']) ∧
      b.source ++ words.tail.flatMap (' ' :: ·) =
        a.lead ++ (a.written ++ (before ++ '=' :: words.flatMap (' ' :: ·))) := by
  have hassigned := hfits.assignment hv
  cases words with
  | nil =>
    refine ⟨{ a with assigned := some ⟨before, [], .bare, []⟩ }, rfl, rfl,
      ⟨ha.named, ha.written, ?_⟩, ⟨hfits.written, ?_⟩, ?_⟩
    · intro v hv hbare c hc
      rw [Option.mem_def, Option.some.injEq] at hv
      rw [← hv] at hc
      cases hc
    · refine ⟨hassigned.before, hassigned.before_eq_nil, by simp, ?_⟩
      exact ⟨by simp, Text.heads_cons.2 (by decide), '>', rfl, by decide, by decide⟩
    · simp [Attribute.source, Assignment.source, Assignment.head, Quoting.mark]
  | cons word words =>
    have hword := hwords word (by simp)
    refine ⟨{ a with assigned := some ⟨before, [' '], .bare, word⟩ }, rfl, rfl,
      ⟨ha.named, ha.written, ?_⟩, ⟨hfits.written, ?_⟩, ?_⟩
    · intro v hv hbare c hc
      rw [Option.mem_def, Option.some.injEq] at hv
      rw [← hv] at hc
      exact isFirm_of_isNameChar (hword.2 c hc)
    · refine ⟨hassigned.before, hassigned.before_eq_nil, fun c hc => ?_, fits_label hword.isLabel ?_⟩
      · rw [List.mem_singleton.1 hc]
        decide
      · cases words with
        | nil => exact Text.heads_cons.2 (by decide)
        | cons word words => exact Text.heads_cons.2 (by decide)
    · simp [Attribute.source, Assignment.source, Assignment.head, Quoting.mark]

/-- Another last attribute of the same name, and flags behind it, make a plain tag. -/
theorem exists_tag_of_last {t : StartTag} {attributes : List Attribute} {a b : Attribute}
    {flags : List Text} (ht : t.Legible) (hp : t.IsPlain) (ha : t.attributes = attributes ++ [a])
    (hlead : b.lead = a.lead) (hwritten : b.written = a.written) (hb : b.IsPlain)
    (hfits : b.Fits (flags.flatMap (' ' :: ·) ++ t.ending)) (hflags : ∀ flag ∈ flags, IsWord flag) :
    ∃ (u : StartTag) (extra : List Attribute), u.Legible ∧ u.IsPlain ∧ u.written = t.written ∧
      u.selfClosing = t.selfClosing ∧ u.attributes = attributes ++ b :: extra ∧
      extra.map Attribute.written = flags ∧
      u.source = '<' :: (t.written ++ (attributes.flatMap Attribute.source ++
        (b.source ++ (flags.flatMap (' ' :: ·) ++ t.ending)))) := by
  have hfit := ht.attributes
  rw [ha] at hfit
  obtain ⟨hbefore, ⟨halead, hafits⟩, -⟩ := attributesFit_append.1 hfit
  have hstart := sameStart_source hafits hfits hlead hwritten
  refine ⟨⟨t.written, attributes ++ b :: flags.map (flagBehind [' ']), [], t.selfClosing⟩,
    flags.map (flagBehind [' ']), ⟨ht.letter, ht.written, ?_, ?_, by simp [TrailFits, IsLead]⟩, ?_, rfl,
    rfl, rfl, by simp [flagBehind, Function.comp_def], ?_⟩
  · have hends := ht.endsName
    rw [ha, List.flatMap_append, List.flatMap_singleton, List.append_assoc] at hends
    show Heads endsName ((attributes ++ b :: _).flatMap Attribute.source ++ ([] ++ t.ending))
    rw [List.flatMap_append, List.flatMap_cons, List.append_assoc, List.append_assoc]
    exact (((hstart _ _).append _).heads endsName_of_isAsciiBlank).1 hends
  · refine attributesFit_append.2 ⟨?_, ⟨hlead ▸ halead, ?_⟩, ?_⟩
    · rw [List.flatMap_singleton] at hbefore
      rw [List.flatMap_cons, List.append_assoc]
      exact attributesFit_congr (hstart _ _) hbefore
    · rw [flatMap_flagBehind]
      exact hfits
    · exact attributesFit_flags (fun flag hflag => (hflags flag hflag).isFlag) t.selfClosing
  · intro c hc
    rcases List.mem_append.1 hc with hc | hc
    · exact hp c (by simp [ha, hc])
    rcases List.mem_cons.1 hc with rfl | hc
    · exact hb
    · obtain ⟨flag, hflag, rfl⟩ := List.mem_map.1 hc
      exact isPlain_of_isWord (hflags flag hflag) rfl
  · simp [source, flatMap_flagBehind, ending_eq]

/-- A plain tag that ends in `=` takes the first of the flags that it does not have for the value
there. -/
theorem exists_flagged_of_isOpen {t : StartTag} {flags : List Text} (ht : t.Legible)
    (hp : t.IsPlain) (hopen : t.isOpen = true) (hflags : ∀ flag ∈ flags, IsWord flag) :
    ∃ (u : StartTag) (attributes : List Attribute) (a b : Attribute) (extra : List Attribute),
      u.Legible ∧ u.IsPlain ∧ u.written = t.written ∧ u.selfClosing = t.selfClosing ∧
      u.source = t.withFlags flags ∧ t.attributes = attributes ++ [a] ∧
      a.value = some [] ∧ b.written = a.written ∧ u.attributes = attributes ++ b :: extra ∧
      extra.map Attribute.written = (t.missing flags).tail := by
  obtain ⟨attributes, a, v, hattributes, hv, hbare, hnil, htrail, hclosing⟩ := eq_of_isOpen ht hopen
  obtain ⟨before, after, q, value⟩ := v
  obtain rfl : q = .bare := hbare
  obtain rfl : value = [] := hnil
  have ha : a.IsPlain := hp a (by simp [hattributes])
  have hfits := ht.fits hattributes
  have hassigned := hfits.assignment hv
  have hunslashed : t.Unslashed := by
    intro c hc w hw _
    rw [hattributes, List.getLast?_concat, Option.mem_some_iff] at hc
    subst hc
    rw [hv, Option.mem_some_iff] at hw
    simp [← hw]
  have hwords : ∀ flag ∈ t.missing flags, IsWord flag :=
    fun flag hflag => hflags flag (List.mem_filter.1 hflag).1
  have hsource : t.withFlags flags = _ := source_withFlags ht hunslashed
  rw [htrail, List.append_nil, hattributes, trimEnd_of_isOpen hv hassigned.after] at hsource
  obtain ⟨b, hlead, hwritten, hb, hbfits, hbsource⟩ := exists_last_of_words ha hv hfits hwords
  have hending : t.ending = ['>'] := by rw [ending_eq, hclosing]; rfl
  rw [← hending] at hbfits
  obtain ⟨u, extra, hu, hplain, huwritten, huclosing, huattributes, hextra, husource⟩ :=
    exists_tag_of_last ht hp hattributes hlead hwritten hb hbfits
      fun flag hflag => hwords flag (List.mem_of_mem_tail hflag)
  refine ⟨u, attributes, a, b, extra, hu, hplain, huwritten, huclosing, ?_, hattributes,
    by simp [Attribute.value, hv], hwritten, huattributes, hextra⟩
  rw [husource, hsource, ← List.append_assoc b.source, hbsource]
  simp

/-! ### What it has then -/

theorem hasAttribute_iff_mem {t : StartTag} {name : Text} :
    t.hasAttribute name = true ↔ name ∈ t.attributes.map Attribute.name := by
  rw [hasAttribute_iff, List.mem_map]

/-- Flags in small letters have the names that are written. -/
theorem map_name_of_written {extra : List Attribute} {flags : List Text}
    (h : extra.map Attribute.written = flags) (hlower : ∀ flag ∈ flags, Text.lower flag = flag) :
    extra.map Attribute.name = flags := by
  have hname : extra.map Attribute.name = (extra.map Attribute.written).map Text.lower := by
    rw [List.map_map]
    rfl
  rw [hname, h]
  conv => rhs; rw [← List.map_id flags]
  exact List.map_congr_left hlower

theorem find?_eq_none_of_names {extra : List Attribute} {flags : List Text} {name : Text}
    (h : ∀ n ∈ extra.map Attribute.name, n ∈ flags) (hname : name ∉ flags) :
    extra.find? (fun a => a.name = name) = none := by
  refine List.find?_eq_none.2 fun a ha heq => hname ?_
  rw [← of_decide_eq_true heq]
  exact h _ (List.mem_map_of_mem ha)

/-- A tag with the flags that were missing has all of them, and the values that it had. -/
theorem has_of_missing {t u : StartTag} {flags : List Text} {extra : List Attribute}
    (hattributes : u.attributes = t.attributes ++ extra)
    (hextra : extra.map Attribute.name = t.missing flags) :
    (∀ flag ∈ flags, u.hasAttribute flag = true) ∧
      ∀ name, name ∉ flags → u.value? name = t.value? name := by
  constructor
  · intro flag hflag
    rw [hasAttribute_iff_mem, hattributes, List.map_append, hextra, List.mem_append]
    by_cases hhas : t.hasAttribute flag = true
    · exact Or.inl (hasAttribute_iff_mem.1 hhas)
    · exact Or.inr (List.mem_filter.2 ⟨hflag, by simpa using hhas⟩)
  · intro name hname
    have hnone : extra.find? (fun a => a.name = name) = none := by
      refine find?_eq_none_of_names (fun n hn => ?_) hname
      rw [hextra] at hn
      exact (List.mem_filter.1 hn).1
    rw [value?, value?, find?, find?, hattributes, List.find?_append, hnone, Option.or_none]

/-- A tag that lost the first of the flags that were missing has all of them only if it had them. -/
theorem has_iff_of_tail {t u : StartTag} {flags : List Text} (hnodup : flags.Nodup)
    (h : u.attributes.map Attribute.name =
      t.attributes.map Attribute.name ++ (t.missing flags).tail) :
    (∀ flag ∈ flags, u.hasAttribute flag = true) ↔ ∀ flag ∈ flags, t.hasAttribute flag = true := by
  simp only [hasAttribute_iff_mem, h, List.mem_append]
  refine ⟨fun hall flag hflag => ?_, fun hall flag hflag => Or.inl (hall flag hflag)⟩
  by_contra hnot
  have hmem : flag ∈ t.missing flags := by
    refine List.mem_filter.2 ⟨hflag, ?_⟩
    rw [← hasAttribute_iff_mem] at hnot
    simpa using hnot
  obtain ⟨f, rest, hf⟩ := List.exists_cons_of_ne_nil (List.ne_nil_of_mem hmem)
  obtain ⟨hfmem, hfnot⟩ := List.mem_filter.1 (show f ∈ t.missing flags by simp [hf])
  have hmissing : (t.missing flags).Nodup := hnodup.filter _
  rw [hf] at hmissing
  rcases hall f hfmem with h | h
  · rw [hasAttribute_iff_mem.2 h] at hfnot
    cases hfnot
  · rw [hf] at h
    exact (List.nodup_cons.1 hmissing).1 h

/-- A last attribute with an empty value decides about no other value. -/
theorem value?_of_last {t u : StartTag} {attributes extra : List Attribute} {a b : Attribute}
    {name : Text} (ht : t.attributes = attributes ++ [a]) (hu : u.attributes = attributes ++ b :: extra)
    (ha : a.value = some []) (hb : b.name = a.name)
    (hextra : extra.find? (fun c => c.name = name) = none) (hname : t.value? name ≠ some []) :
    u.value? name = t.value? name := by
  rw [value?, find?, ht, List.find?_append] at hname
  rw [value?, value?, find?, find?, hu, ht, List.find?_append, List.find?_append]
  cases hfind : attributes.find? fun c => c.name = name with
  | some c => rfl
  | none =>
    rw [hfind] at hname
    by_cases hane : a.name = name
    · simp [hane, ha] at hname
    · simp [hb, hane, hextra]

/-- **A plain tag with flags.** It has all of them exactly if it did not end in `=` or had them
before, and the values that it had. -/
theorem exists_flagged_plain {t : StartTag} {flags : List Text} (ht : t.Legible) (hp : t.IsPlain)
    (hend : t.KeepsEnd flags) (hflags : ∀ flag ∈ flags, IsWord flag)
    (hlower : ∀ flag ∈ flags, Text.lower flag = flag) (hnodup : flags.Nodup) :
    ∃ u : StartTag, u.Legible ∧ u.IsPlain ∧ u.name = t.name ∧ u.selfClosing = t.selfClosing ∧
      u.source = t.withFlags flags ∧
      ((∀ flag ∈ flags, u.hasAttribute flag = true) ↔
        t.isOpen = false ∨ ∀ flag ∈ flags, t.hasAttribute flag = true) ∧
      ∀ name, name ∉ flags → t.value? name ≠ some [] → u.value? name = t.value? name := by
  have hmissing : ∀ flag ∈ t.missing flags, flag ∈ flags :=
    fun flag hflag => (List.mem_filter.1 hflag).1
  cases hopen : t.isOpen with
  | false =>
    obtain ⟨u, extra, hu, hplain, hwritten, hclosing, hsource, hattributes, hextra⟩ :=
      exists_flagged_of_isClosed ht hp hopen hend hflags
    have hextra := map_name_of_written hextra fun flag hflag => hlower flag (hmissing flag hflag)
    obtain ⟨hhas, hvalue⟩ := has_of_missing hattributes hextra
    exact ⟨u, hu, hplain, congrArg Text.lower hwritten, hclosing, hsource,
      ⟨fun _ => Or.inl rfl, fun _ => hhas⟩, fun name hname _ => hvalue name hname⟩
  | true =>
    obtain ⟨u, attributes, a, b, extra, hu, hplain, hwritten, hclosing, hsource, hattributes, ha, hb,
      huattributes, hextra⟩ := exists_flagged_of_isOpen ht hp hopen hflags
    have htail : ∀ flag ∈ (t.missing flags).tail, flag ∈ flags :=
      fun flag hflag => hmissing flag (List.mem_of_mem_tail hflag)
    have hextra := map_name_of_written hextra fun flag hflag => hlower flag (htail flag hflag)
    have hbname : b.name = a.name := congrArg Text.lower hb
    have hnames : u.attributes.map Attribute.name =
        t.attributes.map Attribute.name ++ (t.missing flags).tail := by
      simp [huattributes, hattributes, hextra, hbname]
    refine ⟨u, hu, hplain, congrArg Text.lower hwritten, hclosing, hsource, ?_, ?_⟩
    · rw [has_iff_of_tail hnodup hnames]
      simp
    · intro name hname hvalue
      have hnone : extra.find? (fun c => c.name = name) = none :=
        find?_eq_none_of_names (by rwa [hextra]) hname
      exact value?_of_last hattributes huattributes ha hbname hnone hvalue

end StartTag

end MaskedViews
