import MaskedViews.Proofs.Markup.PlainFlags

/-!
# A tag with flags is read back

A tag with flags is meant to be one tag with the attributes that it had and the flags behind them, and
to stay as it is when it is given the same flags once more (`FlaggedAs`). Where flags are added that is
so if the tag takes more; where none are added, and the text still goes through the end of the tag, if
the end stays whole (`StaysWhole`). Otherwise something is lost: a blank of a name, a value, or what
the end of the tag is (`exists_flaggedAs_iff`).
-/

namespace MaskedViews

namespace Text

theorem endsFirm_trimEnd (s : Text) : EndsFirm (trimEnd s) :=
  trimEnd_eq_self_iff.1 (trimEnd_trimEnd s)

theorem unslash_append {t : Text} (ht : t ≠ []) (s : Text) : unslash (s ++ t) = s ++ unslash t := by
  rw [unslash, unslash, List.getLast?_append_of_ne_nil s ht]
  split
  · exact List.dropLast_append_of_ne_nil ht
  · rfl

end Text

/-- An attribute without blanks between `=` and the value. -/
def Attribute.tight (a : Attribute) : Attribute :=
  { a with assigned := a.assigned.map fun v => { v with after := [] } }

/-- An attribute whose value goes on with a slash. -/
def Attribute.slashed (a : Attribute) : Attribute :=
  { a with assigned := a.assigned.map fun v => { v with value := v.value ++ ['/'] } }

/-! ### A tag by itself -/

namespace Markup

theorem legible_of_mem_tagsFrom {start : Nat} {s : Text} {p : PlacedTag} (h : p ∈ tagsFrom start s) :
    p.tag.Legible := by
  fun_induction tagsFrom start s with
  | case1 => cases h
  | case2 start s before t r hfirst q ih =>
    rcases List.mem_cons.1 h with rfl | h
    · exact legible_of_firstTag? hfirst
    · exact ih h

theorem legible_of_mem_startTags {s : Text} {t : StartTag} (h : t ∈ startTags s) : t.Legible := by
  obtain ⟨p, hp, rfl⟩ := List.mem_map.1 h
  exact legible_of_mem_tagsFrom hp

/-- A text is one tag from its beginning to its end exactly if the tag is legible. -/
theorem placedTags_eq_iff {s : Text} {u : StartTag} :
    placedTags s = [⟨0, u⟩] ∧ u.source = s ↔ u.Legible ∧ u.source = s := by
  refine and_congr_left fun hs => ?_
  constructor
  · intro h
    exact legible_of_mem_tagsFrom (s := s) (h ▸ List.mem_singleton_self (⟨0, u⟩ : PlacedTag))
  · intro hu
    have := tagsFrom_startTag_append hu 0 []
    rw [List.append_nil, tagsFrom_of_none firstTag?_nil] at this
    rw [placedTags, ← hs, this]

theorem mem_startTags_source {t : StartTag} (h : t.Legible) : t ∈ startTags t.source := by
  rw [startTags, (placedTags_eq_iff.2 ⟨h, rfl⟩).1]
  exact List.mem_singleton_self t

end Markup

namespace StartTag

open Text (Heads)

/-- A legible tag is told by its text. -/
theorem eq_of_source_eq {t u : StartTag} (ht : t.Legible) (hu : u.Legible)
    (h : t.source = u.source) : t = u := by
  have hread := read?_source_append ht []
  rw [h, read?_source_append hu []] at hread
  simpa using hread.symm

/-! ### The flags that are added -/

theorem addable_flags {flags : List Text} (hne : flags ≠ []) (h : ∀ flag ∈ flags, IsLabel flag) :
    Addable (flags.map (flagBehind [' '])) := by
  have hsource := flatMap_flagBehind flags
  constructor
  · obtain ⟨flag, rest, hflags⟩ := List.exists_cons_of_ne_nil hne
    have hflag := h flag (by simp [hflags])
    obtain ⟨c, s, hs⟩ := List.exists_cons_of_ne_nil hflag.1
    obtain ⟨hc, -, hquote⟩ := isLabelChar_iff.1 (hflag.2 c (by simp [hs]))
    exact ⟨c, s ++ rest.flatMap (' ' :: ·), by rw [hsource, hflags, hs]; simp, hc, hquote⟩
  · obtain ⟨init, flag, hflags⟩ := (List.eq_nil_or_concat flags).resolve_left hne
    rw [List.concat_eq_append] at hflags
    have hflag := h flag (by simp [hflags])
    obtain ⟨s, c, hs⟩ := (List.eq_nil_or_concat flag).resolve_left hflag.1
    rw [List.concat_eq_append] at hs
    obtain ⟨hc, hblank, -⟩ := isLabelChar_iff.1 (hflag.2 c (by simp [hs]))
    refine ⟨init.flatMap (' ' :: ·) ++ ' ' :: s, c, ?_, hblank, (isAttributeChar_iff.1 hc).2.2.2⟩
    rw [hsource, hflags, hs]
    simp
  · exact attributesFit_flags fun flag hflag => (h flag hflag).isFlag
  · rw [hsource]
    refine Text.oddBlanks_eq_zero fun c hc => ?_
    obtain ⟨flag, hflag, hc⟩ := List.mem_flatMap.1 hc
    rcases List.mem_cons.1 hc with rfl | hc
    · decide
    · exact Text.isOddBlank_of_not_isBlank ((h flag hflag).not_isBlank c hc)

theorem withFlags_eq {t : StartTag} (ht : t.Legible) (flags : List Text) :
    t.withFlags flags =
      Text.trimEnd t.base ++ ((t.missing flags).flatMap (' ' :: ·) ++ t.closer) :=
  extended_eq ht _

/-- Where no flag is missing only blanks in front of the end can go. -/
theorem withFlags_eq_source_iff {t : StartTag} (ht : t.Legible) {flags : List Text}
    (h : t.missing flags = []) : t.withFlags flags = t.source ↔ Text.EndsFirm t.base := by
  rw [withFlags_eq ht, h, ← base_append_closer, ← Text.trimEnd_eq_self_iff]
  exact List.append_left_inj t.closer

/-- A tag with the flags that were missing misses none of them. -/
theorem missing_eq_nil {t u : StartTag} {flags : List Text}
    (h : u.attributes.map Attribute.reading =
      t.attributes.map Attribute.reading ++ (t.missing flags).map fun flag => (flag, none)) :
    u.missing flags = [] := by
  have hnames : u.attributes.map Attribute.name = t.attributes.map Attribute.name ++ t.missing flags := by
    have := congrArg (List.map Prod.fst) h
    simpa [Attribute.reading, Function.comp_def] using this
  refine List.filter_eq_nil_iff.2 fun flag hflag => ?_
  have hmem : flag ∈ u.attributes.map Attribute.name := by
    rw [hnames, List.mem_append]
    by_cases hhas : t.hasAttribute flag = true
    · exact Or.inl (hasAttribute_iff_mem.1 hhas)
    · exact Or.inr (List.mem_filter.2 ⟨hflag, by simpa using hhas⟩)
  simp [hasAttribute_iff_mem.2 hmem]

theorem endsFirm_base_withExtras (t : StartTag) {extras : List Attribute} (h : Addable extras) :
    Text.EndsFirm (t.withExtras extras).base := by
  obtain ⟨s, c, hs, hblank, hslash⟩ := h.last
  obtain ⟨x, hx⟩ : ∃ x, (t.withExtras extras).core = x ++ [c] := by
    refine ⟨'<' :: (t.written ++ (t.attributes.flatMap Attribute.source ++
      (Text.trimEnd t.trail ++ s))), ?_⟩
    simp [core, withExtras, flatMap_behind _ h.ne_nil, hs]
  have hnot : (t.withExtras extras).isSlashed = false := by
    simp [isSlashed, hx, hslash]
  rw [base_of_not_isSlashed hnot, hx]
  intro d hd
  obtain rfl : c = d := by simpa using hd
  exact hblank

/-- What is read of a tag is one tag with the flags. -/
structure FlaggedAs (t : StartTag) (flags : List Text) (u : StartTag) : Prop where
  /-- It is the only tag of the text, -/
  placed : Markup.placedTags (t.withFlags flags) = [⟨0, u⟩]
  /-- and all of it. -/
  whole : u.source = t.withFlags flags
  /-- It has the name of the tag. -/
  name : u.name = t.name
  /-- It closes itself if the tag does. -/
  selfClosing : u.selfClosing = t.selfClosing
  /-- It has the attributes of the tag with their values, and the flags that were missing. -/
  attributes : u.attributes.map Attribute.reading =
    t.attributes.map Attribute.reading ++ (t.missing flags).map fun flag => (flag, none)
  /-- The same flags once more change nothing. -/
  again : u.withFlags flags = u.source

/-- Whether the end of a tag is found where it is and leaves the rest as it is. -/
def StaysWhole (t : StartTag) : Prop :=
  if t.selfClosing then
    '/' ∉ t.trail → ∀ a ∈ t.attributes.getLast?,
      (∀ v ∈ a.assigned, v.quoting ≠ .bare) ∧ Text.EndsFirm a.tail
  else
    '/' ∉ t.trail ∧ ∀ a ∈ t.attributes.getLast?,
      Text.EndsFirm (Text.unslash (if t.trail = [] then a.tail else a.body))

/-- Whether flags can be added to a tag: to put them at its end, or to leave its end as it is. -/
def TakesFlags (t : StartTag) (flags : List Text) : Prop :=
  if t.missing flags = [] then t.StaysWhole else t.TakesMore

instance : DecidablePred StaysWhole := fun t => by unfold StaysWhole; infer_instance

instance (t : StartTag) (flags : List Text) : Decidable (t.TakesFlags flags) := by
  unfold TakesFlags
  infer_instance

/-- A tag that takes more takes the flags that are missing. -/
theorem flaggedAs_of_takesMore {t : StartTag} (ht : t.Legible) {flags : List Text}
    (hflags : ∀ flag ∈ flags, IsLabel flag) (hlower : ∀ flag ∈ flags, Text.lower flag = flag)
    (hmissing : t.missing flags ≠ []) (h : t.TakesMore) :
    t.FlaggedAs flags (t.withExtras ((t.missing flags).map (flagBehind [' ']))) := by
  have hmem : ∀ flag ∈ t.missing flags, flag ∈ flags := fun flag hflag => (List.mem_filter.1 hflag).1
  have hextras := addable_flags hmissing fun flag hflag => hflags flag (hmem flag hflag)
  obtain ⟨hlegible, hsource⟩ := legible_withExtras ht h hextras
  rw [flatMap_flagBehind] at hsource
  have hattributes : (t.withExtras ((t.missing flags).map (flagBehind [' ']))).attributes.map
      Attribute.reading =
        t.attributes.map Attribute.reading ++ (t.missing flags).map fun flag => (flag, none) := by
    rw [withExtras, List.map_append, map_reading_behind, List.map_map]
    congr 1
    refine List.map_congr_left fun flag hflag => ?_
    exact Prod.ext (hlower flag (hmem flag hflag)) rfl
  obtain ⟨hplaced, -⟩ := Markup.placedTags_eq_iff.2 ⟨hlegible, hsource⟩
  exact ⟨hplaced, hsource, rfl, rfl, hattributes, (withFlags_eq_source_iff hlegible
    (missing_eq_nil hattributes)).2 (endsFirm_base_withExtras t hextras)⟩

/-! ### The end of a tag without more flags -/

/-- The tag without the blanks at its end. -/
def trimmed (t : StartTag) : StartTag := { t with trail := Text.trimEnd t.trail }

theorem legible_trimmed {t : StartTag} (ht : t.Legible) (hslash : t.selfClosing = false → '/' ∉ t.trail)
    (hlast : Text.trimEnd t.trail = [] → ∀ a ∈ t.attributes.getLast?, ∀ v ∈ a.assigned,
      v.quoting = .bare → v.value ≠ [] ∧ t.selfClosing = false) : t.trimmed.Legible := by
  refine ⟨ht.letter, ht.written, ?_, attributesFit_trimEnd ht fun hnil a ha => ?_,
    isLead_trimEnd ht.trail.1, fun hclosing hend => hslash hclosing ?_⟩
  · refine heads_endsName_trimEnd (x := t.ending) ht ?_
    obtain ⟨c, s, hs, hc⟩ := exists_ending_eq t.selfClosing
    rw [ending_eq, hs]
    rcases hc with rfl | rfl
    · exact Text.heads_cons.2 (by decide)
    · exact Text.heads_cons.2 (by decide)
  · obtain ⟨-, r, hfits⟩ := fits_of_mem ht.attributes (List.mem_of_mem_getLast? ha)
    refine fits_of_endsFlag hfits (fun v hv hbare => (hlast hnil a ha v hv hbare).1)
      (endsFlag_ending t.selfClosing) fun v hv hbare => ?_
    show Heads (!isBareChar ·) t.ending
    rw [ending_eq, (hlast hnil a ha v hv hbare).2]
    exact Text.heads_cons.2 (by decide)
  · obtain ⟨b, -, hb⟩ := Text.exists_eq_append_trimEnd t.trail
    rw [hb]
    exact List.mem_append_left b (List.mem_of_getLast? hend)

theorem core_trimmed {t : StartTag} (ht : t.Legible)
    (h : Text.trimEnd t.trail = [] → ∀ a ∈ t.attributes.getLast?,
      ∃ c ∈ a.tail.getLast?, Text.isBlank c = false) : t.trimmed.core = Text.trimEnd t.core := by
  rw [trimEnd_core ht, trimEnd_attributes h]
  rfl

/-- The slash of `/>` is no part of the last value of a tag that closes itself. -/
theorem isSlashed_of_selfClosing {t : StartTag} (h : t.selfClosing = true) : t.isSlashed = false := by
  simp [isSlashed, h]

/-- A tag that is read of what is left of another one, with the same attributes. -/
structure IsWhole (t u : StartTag) : Prop where
  /-- It is legible. -/
  legible : u.Legible
  /-- It is what is left. -/
  source : u.source = Text.trimEnd t.base ++ t.closer
  /-- It has the name of the tag. -/
  name : u.name = t.name
  /-- It closes itself if the tag does. -/
  selfClosing : u.selfClosing = t.selfClosing
  /-- It has the attributes of the tag with their values. -/
  attributes : u.attributes.map Attribute.reading = t.attributes.map Attribute.reading
  /-- No blanks stand in front of its end. -/
  base : Text.EndsFirm u.base

theorem exists_isWhole_of_selfClosing {t : StartTag} (ht : t.Legible) (hclosing : t.selfClosing = true)
    (h : '/' ∉ t.trail → ∀ a ∈ t.attributes.getLast?,
      (∀ v ∈ a.assigned, v.quoting ≠ .bare) ∧ Text.EndsFirm a.tail) : t.IsWhole t.trimmed := by
  have hblanks : Text.trimEnd t.trail = [] → '/' ∉ t.trail := by
    intro hnil hslash
    exact absurd (Text.blanks_of_trimEnd hnil '/' hslash) (by decide)
  have hcore : t.trimmed.core = Text.trimEnd t.core := by
    refine core_trimmed ht fun hnil a ha => ?_
    obtain ⟨hquoted, hfirm⟩ := h (hblanks hnil) a ha
    obtain ⟨-, r, hfits⟩ := fits_of_mem ht.attributes (List.mem_of_mem_getLast? ha)
    cases htail : a.tail.getLast? with
    | none =>
      obtain ⟨v, hv, hbare, -⟩ :=
        Attribute.exists_of_tail_eq_nil hfits (List.getLast?_eq_none_iff.1 htail)
      exact absurd hbare (hquoted v hv)
    | some c => exact ⟨c, rfl, hfirm c htail⟩
  have hbase := base_of_not_isSlashed (isSlashed_of_selfClosing hclosing)
  have hcloser := closer_of_not_isSlashed (isSlashed_of_selfClosing hclosing)
  refine ⟨legible_trimmed ht (fun hnot => ?_) fun hnil a ha v hv hbare => ?_, ?_, rfl, rfl, rfl, ?_⟩
  · rw [hclosing] at hnot
    cases hnot
  · exact absurd hbare ((h (hblanks hnil) a ha).1 v hv)
  · rw [hbase, hcloser, ← hcore]
    exact source_eq_core t.trimmed
  · rw [base_of_not_isSlashed (isSlashed_of_selfClosing (t := t.trimmed) hclosing), hcore]
    exact Text.endsFirm_trimEnd _

/-- With its blanks gone, a tag goes to its last attribute without a slash that it ends in. -/
theorem base_trimmed {t : StartTag} (h : t.trimmed.Legible) {front : List Attribute} {a : Attribute}
    (hlast : t.attributes = front ++ [a]) (htrail : Text.Blanks t.trail)
    (hclosing : t.selfClosing = false) (htail : a.tail ≠ []) :
    t.trimmed.base = t.opening front a ++ Text.unslash a.body := by
  rw [base_of_trail_nil h hlast (Text.trimEnd_of_blanks htrail) hclosing,
    Attribute.body_eq_stem_append_tail, Text.unslash_append htail]
  rfl

theorem unslash_body_ne_nil {a : Attribute} {rest : Text} (h : a.Fits rest) :
    Text.unslash a.body ≠ [] := by
  intro hnil
  obtain ⟨c, s, hbody, -, -, hslash⟩ := body_head h
  rcases Text.unslash_cases a.body with hcut | ⟨hsame, -⟩
  · rw [hnil, hbody, List.nil_append, List.cons.injEq] at hcut
    exact hslash hcut.1
  · rw [← hsame, hnil] at hbody
    cases hbody

/-- An attribute with blanks behind it has a last part. -/
theorem tail_ne_nil_of_trail {t : StartTag} (ht : t.Legible) {front : List Attribute} {a : Attribute}
    (hlast : t.attributes = front ++ [a]) (htrail : t.trail ≠ []) : a.tail ≠ [] := by
  intro hnil
  obtain ⟨-, r, hfits⟩ := fits_of_mem ht.attributes (show a ∈ t.attributes by simp [hlast])
  obtain ⟨v, hv, hbare, hempty⟩ := Attribute.exists_of_tail_eq_nil hfits hnil
  exact htrail (eq_of_bare_nil ht hlast hv hbare hempty).2.1

/-- Blanks behind a last attribute that ends in none can be taken out. -/
theorem legible_trimmed_of_firm {t : StartTag} (ht : t.Legible) (hclosing : t.selfClosing = false)
    (hslash : '/' ∉ t.trail)
    (htail : ∀ a ∈ t.attributes.getLast?, ∃ c ∈ a.tail.getLast?, Text.isBlank c = false) :
    t.trimmed.Legible := by
  refine legible_trimmed ht (fun _ => hslash) fun _ a ha v hv hbare => ⟨fun hnil => ?_, hclosing⟩
  obtain ⟨c, hc, -⟩ := htail a ha
  simp [Attribute.tail, Option.mem_def.1 hv, hbare, hnil, Quoting.mark] at hc

theorem isWhole_trimmed {t : StartTag} (ht : t.Legible) (hclosing : t.selfClosing = false)
    (hslash : '/' ∉ t.trail)
    (h : ∀ a ∈ t.attributes.getLast?, t.trail ≠ [] ∧ Text.EndsFirm (Text.unslash a.body)) :
    t.IsWhole t.trimmed := by
  have hblanks := blanks_of_isLead ht.trail.1 hslash
  have htail : ∀ a ∈ t.attributes.getLast?, ∃ c ∈ a.tail.getLast?, Text.isBlank c = false := by
    intro a ha
    obtain ⟨front, hlast⟩ := List.getLast?_eq_some_iff.1 ha
    obtain ⟨htrail, hfirm⟩ := h a ha
    have hne := tail_ne_nil_of_trail ht hlast htrail
    obtain ⟨s, c, hs⟩ := (List.eq_nil_or_concat a.tail).resolve_left hne
    rw [List.concat_eq_append] at hs
    have hbody : a.body.getLast? = some c := by
      rw [Attribute.body_eq_stem_append_tail, hs]
      simp
    refine ⟨c, by simp [hs], ?_⟩
    rcases Text.unslash_cases a.body with hcut | ⟨hsame, -⟩
    · rw [hcut, List.getLast?_concat, Option.some.injEq] at hbody
      rw [← hbody]
      decide
    · rw [hsame] at hfirm
      exact hfirm c hbody
  have hcore := core_trimmed ht fun _ => htail
  have hlegible := legible_trimmed_of_firm ht hclosing hslash htail
  have hnot : t.isSlashed = false := by
    rw [← Bool.not_eq_true]
    intro hslashed
    obtain ⟨front, a, hlast, -, htrail, -⟩ := exists_of_isSlashed ht hslashed
    exact (h a (by simp [hlast])).1 htrail
  refine ⟨hlegible, ?_, rfl, rfl, rfl, ?_⟩
  · rw [base_of_not_isSlashed hnot, closer_of_not_isSlashed hnot, ← hcore]
    exact source_eq_core t.trimmed
  · rcases List.eq_nil_or_concat t.attributes with hnil | ⟨front, a, hlast⟩
    · have hnot : t.trimmed.isSlashed = false := by
        rw [← Bool.not_eq_true]
        intro hslashed
        obtain ⟨front, a, hlast, -⟩ := exists_of_isSlashed hlegible hslashed
        rw [show t.trimmed.attributes = [] from hnil] at hlast
        simp at hlast
      rw [base_of_not_isSlashed hnot, hcore]
      exact Text.endsFirm_trimEnd _
    · rw [List.concat_eq_append] at hlast
      obtain ⟨htrail, hfirm⟩ := h a (by simp [hlast])
      obtain ⟨-, r, hfits⟩ := fits_of_mem ht.attributes (show a ∈ t.attributes by simp [hlast])
      rw [base_trimmed hlegible hlast hblanks hclosing (tail_ne_nil_of_trail ht hlast htrail),
        Text.endsFirm_append (unslash_body_ne_nil hfits)]
      exact hfirm

/-- A value without quotes that is empty or a slash may lose the blanks in front of it. -/
theorem exists_isWhole_of_unslash_nil {t : StartTag} (ht : t.Legible) {front : List Attribute}
    {a : Attribute} (hlast : t.attributes = front ++ [a]) (htrail : t.trail = [])
    (hclosing : t.selfClosing = false) (hnil : Text.unslash a.tail = []) : ∃ u, t.IsWhole u := by
  have hfits := ht.fits hlast
  rw [htrail, ending_eq, hclosing] at hfits
  obtain ⟨before, after, value, hv⟩ : ∃ before after value,
      a.assigned = some ⟨before, after, .bare, value⟩ := by
    have hbare : ∃ v, a.assigned = some v ∧ v.quoting = .bare := by
      rcases Text.unslash_cases a.tail with hcut | ⟨hsame, -⟩
      · obtain ⟨-, hslash⟩ := Attribute.getLast?_tail_of_fits hfits (c := '/') (by rw [hcut]; simp)
        obtain ⟨v, hv, hbare, -⟩ := hslash rfl
        exact ⟨v, hv, hbare⟩
      · obtain ⟨v, hv, hbare, -⟩ := Attribute.exists_of_tail_eq_nil hfits (hsame.symm.trans hnil)
        exact ⟨v, hv, hbare⟩
    obtain ⟨⟨before, after, q, value⟩, hv, rfl⟩ := hbare
    exact ⟨before, after, value, hv⟩
  have hassigned := hfits.assignment hv
  have hb : a.tight.Fits ['>'] := by
    refine ⟨hfits.written, ?_⟩
    rw [Attribute.tight, hv]
    exact ⟨hassigned.before, hassigned.before_eq_nil, by simp, hassigned.value⟩
  obtain ⟨hends, hbfit⟩ := fits_replaced (b := a.tight) ht hlast rfl rfl hb
  have hlegible : StartTag.Legible ⟨t.written, front ++ [a.tight], [], false⟩ :=
    ⟨ht.letter, ht.written, hends, hbfit, by simp [TrailFits, IsLead]⟩
  have hbase := base_of_trail_nil ht hlast htrail hclosing
  have htightbase := base_of_trail_nil hlegible rfl rfl rfl
  have htail : a.tight.tail = a.tail := by simp [Attribute.tight, Attribute.tail, hv]
  have hstem : a.stem = a.tight.stem ++ after := by
    simp [Attribute.tight, Attribute.stem, hv, Assignment.head, Quoting.mark]
  have hfirm : Text.EndsFirm (t.opening front a ++ a.tight.stem) := by
    have hequals : a.tight.stem = a.written ++ before ++ ['='] := by
      simp [Attribute.tight, Attribute.stem, hv, Assignment.head, Quoting.mark]
    rw [hequals, ← List.append_assoc, Text.endsFirm_concat]
    decide
  have hcloser : t.closer = a.tail ++ ['>'] := by
    have hsource := base_append_closer t
    rw [source_eq_core, core_eq_opening hlast, hbase, hnil, htrail, ending, hclosing] at hsource
    simpa using hsource
  refine ⟨_, hlegible, ?_, rfl, hclosing.symm, ?_, ?_⟩
  · rw [hbase, hnil, List.append_nil, hstem, ← List.append_assoc, Text.trimEnd_append_blanks _
      fun c hc => Text.isBlank_of_isAsciiBlank (hassigned.after c hc),
      Text.trimEnd_eq_self_iff.2 hfirm, hcloser, ← htail]
    simp [source, opening, Attribute.source_eq, Attribute.body_eq_stem_append_tail, ending,
      show a.tight.lead = a.lead from rfl]
  · have hreading : a.tight.reading = a.reading := by
      simp [Attribute.reading, Attribute.name, Attribute.value, Attribute.tight, hv]
    simp [hlast, hreading]
  · rw [htightbase, htail, hnil, List.append_nil]
    exact hfirm

theorem exists_isWhole {t : StartTag} (ht : t.Legible) (h : t.StaysWhole) : ∃ u, t.IsWhole u := by
  rw [StaysWhole] at h
  cases hclosing : t.selfClosing with
  | true =>
    rw [hclosing, if_pos rfl] at h
    exact ⟨_, exists_isWhole_of_selfClosing ht hclosing h⟩
  | false =>
    rw [hclosing, if_neg Bool.false_ne_true] at h
    obtain ⟨hslash, h⟩ := h
    by_cases htrail : t.trail = []
    · simp only [htrail, if_true] at h
      rcases List.eq_nil_or_concat t.attributes with hnil | ⟨front, a, hlast⟩
      · exact ⟨_, isWhole_trimmed ht hclosing hslash (by simp [hnil])⟩
      rw [List.concat_eq_append] at hlast
      by_cases hnil : Text.unslash a.tail = []
      · exact exists_isWhole_of_unslash_nil ht hlast htrail hclosing hnil
      · -- nothing is taken out
        have hfirm : Text.EndsFirm t.base := by
          rw [base_of_trail_nil ht hlast htrail hclosing, ← List.append_assoc, Text.endsFirm_append hnil]
          exact h a (by simp [hlast])
        refine ⟨t, ht, ?_, rfl, rfl, rfl, hfirm⟩
        rw [Text.trimEnd_eq_self_iff.2 hfirm, base_append_closer]
    · simp only [htrail, if_false] at h
      exact ⟨_, isWhole_trimmed ht hclosing hslash fun a ha => ⟨htrail, h a ha⟩⟩

/-! ### What the end of a tag takes with it -/

/-- A last value without quotes would take the slash of `/>`. -/
theorem not_bare_of_isWhole {t u : StartTag} (ht : t.Legible) (h : t.IsWhole u)
    (hclosing : t.selfClosing = true) {front : List Attribute} {a : Attribute}
    (hlast : t.attributes = front ++ [a]) (hslash : '/' ∉ t.trail) (hfirm : Text.EndsFirm a.tail) :
    ∀ v ∈ a.assigned, v.quoting ≠ .bare := by
  intro v hv hbare
  rw [Option.mem_def] at hv
  have hne : v.value ≠ [] := by
    intro hnil
    have := (eq_of_bare_nil ht hlast hv hbare hnil).2.2
    rw [hclosing] at this
    cases this
  have hnot := isSlashed_of_selfClosing hclosing
  have htail : a.tail = v.value := by simp [Attribute.tail, hv, hbare, Quoting.mark]
  have hstem : a.stem = a.written ++ v.head := by simp [Attribute.stem, hv]
  have hcore : Text.trimEnd t.core = t.opening front a ++ a.stem ++ a.tail := by
    rw [core_eq_opening hlast, ← List.append_assoc, ← List.append_assoc,
      Text.trimEnd_append_blanks _ (blanks_of_isLead ht.trail.1 hslash), Text.trimEnd_eq_self_iff,
      Text.endsFirm_append (htail ▸ hne)]
    exact hfirm
  -- the value with the slash
  have hfits := ht.fits hlast
  have hassigned := hfits.assignment hv
  have hvalue := hfits.value_of_bare hv hbare
  obtain ⟨hchars, -, d, hd, hfirst⟩ := hvalue
  have hb : a.slashed.Fits ['>'] := by
    refine ⟨hfits.written, ?_⟩
    rw [Attribute.slashed, hv]
    refine ⟨hassigned.before, hassigned.before_eq_nil, hassigned.after, ?_⟩
    show Quoting.Fits (v.value ++ ['/']) ['>'] v.quoting
    rw [hbare]
    refine ⟨fun c hc => ?_, Text.heads_cons.2 (by decide), d, ?_, hfirst⟩
    · rcases List.mem_append.1 hc with hc | hc
      · exact hchars c hc
      · rw [List.mem_singleton.1 hc]
        decide
    · obtain ⟨e, value, hcons⟩ := List.exists_cons_of_ne_nil hne
      rw [hcons] at hd ⊢
      exact hd
  have hsource : u.source = t.opening front a ++ (a.slashed.body ++ ['>']) := by
    rw [h.source, base_of_not_isSlashed hnot, closer_of_not_isSlashed hnot, hcore, htail, hstem,
      ending, hclosing]
    simp [Attribute.slashed, Attribute.body, Assignment.source, Assignment.head, hv, hbare,
      Quoting.mark]
  have hreading := reading_eq_of_kept (b := a.slashed) (p := fun _ => true) ht h.legible hlast rfl rfl
    hb hsource (by simp) (by simp [h.attributes])
  have hsame : a.slashed.value = a.value := congrArg Prod.snd hreading
  simp [Attribute.value, Attribute.slashed, hv] at hsame

/-- The blanks behind a stray slash would make it that of `/>`. -/
theorem not_mem_trail_of_isWhole {t u : StartTag} (ht : t.Legible) (h : t.IsWhole u)
    (hclosing : t.selfClosing = false) : '/' ∉ t.trail := by
  intro hslash
  rcases Text.trimEnd_eq_nil_or t.trail with hnil | ⟨r, d, hd, htrim⟩
  · exact absurd (Text.blanks_of_trimEnd hnil '/' hslash) (by decide)
  have hlead : IsLead (Text.trimEnd t.trail) := isLead_trimEnd ht.trail.1
  obtain rfl : d = '/' := by
    refine (hlead d (by simp [htrim])).resolve_left fun hblank => ?_
    rw [Text.isBlank_of_isAsciiBlank hblank] at hd
    cases hd
  have hne : Text.trimEnd t.trail ≠ [] := by simp [htrim]
  have hnot : t.isSlashed = false := by
    rw [← Bool.not_eq_true]
    intro hslashed
    obtain ⟨-, -, -, -, htrail, -⟩ := exists_of_isSlashed ht hslashed
    simp [htrail] at hslash
  have hends := heads_endsName_trimEnd (x := ['>']) ht (Text.heads_cons.2 (by decide))
  have hfit := attributesFit_trimEnd (x := ['>']) ht fun hnil => absurd hnil hne
  rw [htrim, List.append_assoc] at hends hfit
  have hlegible : StartTag.Legible ⟨t.written, t.attributes, r, true⟩ :=
    ⟨ht.letter, ht.written, hends, hfit, fun c hc => hlead c (by simp [htrim, hc]), by simp⟩
  have hu : u = ⟨t.written, t.attributes, r, true⟩ := by
    refine eq_of_source_eq h.legible hlegible ?_
    rw [h.source, base_of_not_isSlashed hnot, closer_of_not_isSlashed hnot, trimEnd_core ht,
      trimEnd_attributes fun hnil => absurd hnil hne, htrim, ending, hclosing]
    simp [source, ending]
  have := h.selfClosing
  rw [hu, hclosing] at this
  cases this

/-- **A tag of which the same tag is left stays whole.** -/
theorem staysWhole_of_isWhole {t u : StartTag} (ht : t.Legible) (h : t.IsWhole u) : t.StaysWhole := by
  have hsource : u.source = Text.trimEnd t.base ++ ([] ++ t.closer) := h.source
  have hkept : (t.attributes.map Attribute.reading).Sublist (u.attributes.map Attribute.reading) := by
    rw [h.attributes]
  rw [StaysWhole]
  cases hclosing : t.selfClosing with
  | true =>
    rw [if_pos rfl]
    intro hslash a ha
    obtain ⟨front, hlast⟩ := List.getLast?_eq_some_iff.1 ha
    have hfirm := endsFirm_tail_of_kept ht h.legible hlast hslash (isSlashed_of_selfClosing hclosing)
      hsource rfl hkept
    exact ⟨not_bare_of_isWhole ht h hclosing hlast hslash hfirm, hfirm⟩
  | false =>
    rw [if_neg Bool.false_ne_true]
    have hslash := not_mem_trail_of_isWhole ht h hclosing
    refine ⟨hslash, fun a ha => ?_⟩
    obtain ⟨front, hlast⟩ := List.getLast?_eq_some_iff.1 ha
    split
    · next htrail =>
      exact endsFirm_unslash_tail_of_kept ht h.legible hlast htrail hclosing hsource rfl hkept
    · next htrail =>
      have hnot : t.isSlashed = false := by
        rw [← Bool.not_eq_true, isSlashed_iff_tail ht hlast]
        exact fun h => htrail h.2.1
      have hfirm := endsFirm_tail_of_kept ht h.legible hlast hslash hnot hsource rfl hkept
      have hne := tail_ne_nil_of_trail ht hlast htrail
      have htail : ∀ b ∈ t.attributes.getLast?, ∃ c ∈ b.tail.getLast?, Text.isBlank c = false := by
        intro b hb
        obtain rfl : a = b := by simpa [hlast] using hb
        obtain ⟨s, c, hs⟩ := (List.eq_nil_or_concat a.tail).resolve_left hne
        exact ⟨c, by simp [hs], hfirm c (by simp [hs])⟩
      have hlegible := legible_trimmed_of_firm ht hclosing hslash htail
      have hu : u = t.trimmed := by
        refine eq_of_source_eq h.legible hlegible ?_
        rw [h.source, base_of_not_isSlashed hnot, closer_of_not_isSlashed hnot,
          ← core_trimmed ht fun _ => htail]
        exact (source_eq_core t.trimmed).symm
      have hbase := h.base
      obtain ⟨-, r, hfits⟩ := fits_of_mem ht.attributes (show a ∈ t.attributes by simp [hlast])
      rw [hu, base_trimmed hlegible hlast (blanks_of_isLead ht.trail.1 hslash) hclosing hne,
        Text.endsFirm_append (unslash_body_ne_nil hfits)] at hbase
      exact hbase

/-! ### Reading back -/

theorem takesFlags_of_flaggedAs {t u : StartTag} {flags : List Text} (ht : t.Legible)
    (hflags : ∀ flag ∈ flags, IsLabel flag) (h : t.FlaggedAs flags u) : t.TakesFlags flags := by
  obtain ⟨hu, -⟩ := Markup.placedTags_eq_iff.1 ⟨h.placed, h.whole⟩
  rw [TakesFlags]
  split
  · next hmissing =>
    have hattributes := h.attributes
    rw [hmissing, List.map_nil, List.append_nil] at hattributes
    have hsource := h.whole
    rw [withFlags_eq ht, hmissing] at hsource
    exact staysWhole_of_isWhole ht ⟨hu, hsource, h.name, h.selfClosing, hattributes,
      (withFlags_eq_source_iff hu (missing_eq_nil h.attributes)).1 h.again⟩
  · next hmissing =>
    have hextras := addable_flags hmissing fun flag hflag =>
      hflags flag (List.mem_filter.1 hflag).1
    refine takesMore_of_kept (p := fun _ => true) ht hu hextras ?_ (by simp) ?_
    · rw [flatMap_flagBehind]
      exact h.whole
    · simp [h.attributes]

theorem exists_flaggedAs {t : StartTag} {flags : List Text} (ht : t.Legible)
    (hflags : ∀ flag ∈ flags, IsLabel flag) (hlower : ∀ flag ∈ flags, Text.lower flag = flag)
    (h : t.TakesFlags flags) : ∃ u, t.FlaggedAs flags u := by
  rw [TakesFlags] at h
  split at h
  · next hmissing =>
    obtain ⟨u, hu⟩ := exists_isWhole ht h
    have hsource : u.source = t.withFlags flags := by
      rw [withFlags_eq ht, hmissing, hu.source]
      rfl
    have hattributes : u.attributes.map Attribute.reading =
        t.attributes.map Attribute.reading ++ (t.missing flags).map fun flag => (flag, none) := by
      rw [hmissing, hu.attributes]
      simp
    exact ⟨u, (Markup.placedTags_eq_iff.2 ⟨hu.legible, hsource⟩).1, hsource,
      hu.name, hu.selfClosing, hattributes,
      (withFlags_eq_source_iff hu.legible (missing_eq_nil hattributes)).2 hu.base⟩
  · next hmissing => exact ⟨_, flaggedAs_of_takesMore ht hflags hlower hmissing h⟩

/-- **A tag with flags is read with the attributes that it had and the flags that were missing,
exactly if it takes the flags.** -/
theorem exists_flaggedAs_iff {html : Text} {t : StartTag} {flags : List Text}
    (ht : t ∈ Markup.startTags html) (hflags : ∀ flag ∈ flags, IsLabel flag)
    (hlower : ∀ flag ∈ flags, Text.lower flag = flag) :
    (∃ u, t.FlaggedAs flags u) ↔ t.TakesFlags flags := by
  have hlegible := Markup.legible_of_mem_startTags ht
  constructor
  · rintro ⟨u, hu⟩
    exact takesFlags_of_flaggedAs hlegible hflags hu
  · exact exists_flaggedAs hlegible hflags hlower

/-- The tag of a link, with a value without quotes. -/
def linkTag (href trail : Text) : StartTag :=
  ⟨"a".toList, [⟨[' '], "href".toList, some ⟨[], [], .bare, href⟩⟩], trail, false⟩

/-- A value that ends in a slash is kept if a blank stands behind it. -/
theorem exists_flaggedAs_linkTag :
    linkTag "/b/".toList [' '] ∈ Markup.startTags "<a href=/b/ >".toList ∧
      (linkTag "/b/".toList [' ']).withFlags ["download".toList] = "<a href=/b/ download>".toList ∧
      ∃ u, (linkTag "/b/".toList [' ']).FlaggedAs ["download".toList] u := by
  have ht : linkTag "/b/".toList [' '] ∈ Markup.startTags "<a href=/b/ >".toList :=
    Markup.mem_startTags_source (by decide +kernel)
  exact ⟨ht, by decide +kernel, (exists_flaggedAs_iff ht (by decide) (by decide)).2 (by decide +kernel)⟩

/-- An empty value without quotes takes the first flag. -/
theorem not_flaggedAs_linkTag :
    linkTag [] [] ∈ Markup.startTags "<a href=>".toList ∧
      (linkTag [] []).withFlags ["download".toList] = "<a href= download>".toList ∧
      ¬ ∃ u, (linkTag [] []).FlaggedAs ["download".toList] u := by
  have hlegible : (linkTag [] []).Legible := by decide +kernel
  refine ⟨Markup.mem_startTags_source hlegible, by decide +kernel, ?_⟩
  rintro ⟨u, hu⟩
  have := takesFlags_of_flaggedAs hlegible (by decide) hu
  exact absurd this (by decide +kernel)

end StartTag

end MaskedViews
