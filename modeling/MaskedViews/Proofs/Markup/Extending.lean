import MaskedViews.Proofs.Markup.TagEnds
import Mathlib.Data.List.Flatten

/-!
# More at the end of a tag

Attributes that are put at the end of a tag, in the place of the blanks there, are read as its last
ones if the tag takes more (`legible_withExtras`): its last attribute ends in no blank, and in no slash
that would be taken for that of `/>`, or a stray slash stands behind it.

Where that fails a name or a value is not kept (`takesMore_of_kept`). What the reader of tags takes for
part of a name or a value is taken out with the blanks, so there are fewer of such blanks than before;
or the last value, empty or with a slash at its end, is another one in front of what is put there.
-/

namespace MaskedViews

namespace Text

/-- A text without the slash that it may end in. -/
def unslash (s : Text) : Text := if s.getLast? = some '/' then s.dropLast else s

theorem unslash_cases (s : Text) :
    s = unslash s ++ ['/'] ∨ unslash s = s ∧ s.getLast? ≠ some '/' := by
  rw [unslash]
  split
  · next h =>
    obtain ⟨r, rfl⟩ := List.getLast?_eq_some_iff.1 h
    exact Or.inl (by simp)
  · next h => exact Or.inr ⟨rfl, h⟩

end Text

namespace StartTag

open Text (Heads)

/-! ### Names without quotes -/

/-- The characters of a name that can be written anywhere in a tag. -/
def isLabelChar (c : Char) : Bool := isAttributeChar c && !Text.isBlank c && !isQuote c

/-- A name that can be written anywhere in a tag: as a flag, and as a value with or without quotes. -/
def IsLabel (s : Text) : Prop := s ≠ [] ∧ ∀ c ∈ s, isLabelChar c = true

instance : DecidablePred IsLabel := fun s => by unfold IsLabel; infer_instance

theorem isLabelChar_iff {c : Char} : isLabelChar c = true ↔
    isAttributeChar c = true ∧ Text.isBlank c = false ∧ isQuote c = false := by
  simp [isLabelChar, and_assoc]

theorem IsLabel.isFlag {s : Text} (h : IsLabel s) : IsFlag s :=
  ⟨h.1, fun c hc => (isLabelChar_iff.1 (h.2 c hc)).1⟩

theorem IsLabel.not_isBlank {s : Text} (h : IsLabel s) : ∀ c ∈ s, Text.isBlank c = false :=
  fun c hc => (isLabelChar_iff.1 (h.2 c hc)).2.1

theorem IsLabel.not_isQuote {s : Text} (h : IsLabel s) : ∀ c ∈ s, isQuote c = false :=
  fun c hc => (isLabelChar_iff.1 (h.2 c hc)).2.2

/-- Such a name is read as a value without quotes. -/
theorem fits_label {s rest : Text} (h : IsLabel s) (hrest : Heads (!isBareChar ·) rest) :
    Quoting.Fits s rest .bare := by
  have hchar : ∀ c ∈ s, Text.isAsciiBlank c = false ∧ c ≠ '>' := by
    intro c hc
    obtain ⟨hblank, -, hgt, -⟩ := isAttributeChar_iff.1 (h.isFlag.2 c hc)
    exact ⟨hblank, hgt⟩
  obtain ⟨c, r, rfl⟩ := List.exists_cons_of_ne_nil h.1
  exact ⟨fun d hd => by simp [isBareChar, hchar d hd], hrest, c, rfl, (hchar c (by simp)).1,
    h.not_isQuote c (by simp)⟩

/-! ### The last attribute -/

/-- An empty value without quotes is the last of a tag, and `>` stands right behind it. -/
theorem eq_of_bare_nil {t : StartTag} (ht : t.Legible) {front back : List Attribute} {a : Attribute}
    {v : Assignment} (hattributes : t.attributes = front ++ a :: back) (hv : a.assigned = some v)
    (hbare : v.quoting = .bare) (hnil : v.value = []) :
    back = [] ∧ t.trail = [] ∧ t.selfClosing = false := by
  have hfit := ht.attributes
  rw [hattributes] at hfit
  obtain ⟨-, ⟨-, hfits⟩, hback⟩ := attributesFit_append.1 hfit
  have hvalue := hfits.value_of_bare hv hbare
  rw [hnil] at hvalue
  obtain ⟨-, hheads, c, hc, hblank, -⟩ := hvalue
  -- what follows is no blank, and yet no part of the value
  have hgt : c = '>' := by
    have := hheads c hc
    simpa [isBareChar, hblank] using this
  rw [hgt, List.nil_append] at hc
  have hlead {lead x : Text} (h : IsLead lead) (hx : (lead ++ x).head? = some '>') : lead = [] := by
    cases lead with
    | nil => rfl
    | cons d lead =>
      obtain rfl : d = '>' := by simpa using hx
      exact absurd (h '>' (by simp)) (by decide)
  cases back with
  | cons b back =>
    rw [List.flatMap_cons, Attribute.source_eq, List.append_assoc, List.append_assoc] at hc
    obtain ⟨d, s, hbody, -, hne, -⟩ := body_head hback.1.2
    rw [hlead hback.1.1 hc, hbody] at hc
    exact absurd (by simpa using hc) hne
  | nil =>
    have htrail := hlead ht.trail.1 hc
    refine ⟨rfl, htrail, ?_⟩
    rw [htrail, ending] at hc
    split at hc
    · exact absurd hc (by decide)
    · next hclosing => simpa using hclosing

/-- A tag that closes itself does not do so right behind a value without quotes. -/
theorem selfClosing_of_bare {t : StartTag} (ht : t.Legible) {front : List Attribute} {a : Attribute}
    {v : Assignment} (hlast : t.attributes = front ++ [a]) (hv : a.assigned = some v)
    (hbare : v.quoting = .bare) (htrail : t.trail = []) : t.selfClosing = false := by
  have hfits := ht.fits hlast
  have hvalue := hfits.value_of_bare hv hbare
  rw [htrail] at hvalue
  cases hclosing : t.selfClosing with
  | false => rfl
  | true =>
    rw [ending_eq, hclosing] at hvalue
    exact absurd (hvalue.2.1 '/' rfl) (by decide)

/-- The text of a tag up to the name of an attribute that stands behind others. -/
def opening (t : StartTag) (front : List Attribute) (a : Attribute) : Text :=
  '<' :: (t.written ++ (front.flatMap Attribute.source ++ a.lead))

theorem core_eq_opening {t : StartTag} {front : List Attribute} {a : Attribute}
    (hlast : t.attributes = front ++ [a]) :
    t.core = t.opening front a ++ (a.stem ++ (a.tail ++ t.trail)) := by
  simp [core, opening, hlast, Attribute.source_eq, Attribute.body_eq_stem_append_tail]

/-- A slash that belongs to the last value is taken for that of `/>` if `>` stands right behind it. -/
theorem isSlashed_iff_tail {t : StartTag} (ht : t.Legible) {front : List Attribute} {a : Attribute}
    (hlast : t.attributes = front ++ [a]) :
    t.isSlashed = true ↔
      t.selfClosing = false ∧ t.trail = [] ∧ a.tail.getLast? = some '/' := by
  rw [isSlashed_iff]
  refine and_congr_right fun hclosing => ?_
  constructor
  · intro hcore
    obtain ⟨s, c, hs, -, hslash⟩ := exists_core_last ht
    have hc : c = '/' := by simpa [hs] using hcore
    obtain ⟨b, hb, v, hv, hbare, hvalue⟩ := hslash hclosing hc
    obtain rfl : a = b := by simpa [hlast] using hb
    refine ⟨?_, by simp [Attribute.tail, Option.mem_def.1 hv, hbare, Quoting.mark, hvalue]⟩
    by_contra htrail
    rw [core, ← List.cons_append, ← List.append_assoc, List.getLast?_append_of_ne_nil _ htrail] at hcore
    exact ht.trail.2 hclosing hcore
  · rintro ⟨htrail, htail⟩
    have hne : a.tail ≠ [] := fun hnil => by simp [hnil] at htail
    rw [core_eq_opening hlast, htrail, List.append_nil, ← List.append_assoc,
      List.getLast?_append_of_ne_nil _ hne, htail]

theorem exists_of_isSlashed {t : StartTag} (ht : t.Legible) (h : t.isSlashed = true) :
    ∃ front a, t.attributes = front ++ [a] ∧ t.selfClosing = false ∧ t.trail = [] ∧
      a.tail.getLast? = some '/' := by
  obtain ⟨hclosing, hcore⟩ := isSlashed_iff.1 h
  obtain ⟨s, c, hs, -, hslash⟩ := exists_core_last ht
  obtain ⟨a, ha, -⟩ := hslash hclosing (by simpa [hs] using hcore)
  obtain ⟨front, hlast⟩ := List.getLast?_eq_some_iff.1 ha
  exact ⟨front, a, hlast, (isSlashed_iff_tail ht hlast).1 h⟩

theorem base_of_not_isSlashed {t : StartTag} (h : t.isSlashed = false) : t.base = t.core := by
  rw [base, h]
  rfl

theorem closer_of_not_isSlashed {t : StartTag} (h : t.isSlashed = false) : t.closer = t.ending := by
  rw [closer, h]
  rfl

/-- Without blanks behind the last attribute a tag goes, in front of its end, to the last attribute
without a slash that it ends in. -/
theorem base_of_trail_nil {t : StartTag} (ht : t.Legible) {front : List Attribute} {a : Attribute}
    (hlast : t.attributes = front ++ [a]) (htrail : t.trail = []) (hclosing : t.selfClosing = false) :
    t.base = t.opening front a ++ (a.stem ++ Text.unslash a.tail) := by
  have hcore := core_eq_opening hlast
  have hslashed := isSlashed_iff_tail ht hlast
  rw [htrail, List.append_nil] at hcore
  rw [base, hcore, Text.unslash]
  by_cases htail : a.tail.getLast? = some '/'
  · have hne : a.tail ≠ [] := fun hnil => by simp [hnil] at htail
    rw [if_pos htail, if_pos (hslashed.2 ⟨hclosing, htrail, htail⟩), ← List.append_assoc,
      List.dropLast_append_of_ne_nil hne, List.append_assoc]
  · rw [if_neg htail, if_neg fun h => htail (hslashed.1 h).2.2]

theorem blanks_of_isLead {lead : Text} (h : IsLead lead) (hslash : '/' ∉ lead) : Text.Blanks lead := by
  intro c hc
  rcases h c hc with hblank | rfl
  · exact Text.isBlank_of_isAsciiBlank hblank
  · exact absurd hc hslash

/-! ### What is lost -/

/-- Where the names and values are kept no odd blank is taken out at the end. -/
theorem not_isOddBlank_of_kept {t u : StartTag} (ht : t.Legible) (hu : u.Legible)
    {more s b : Text} {c : Char} (hsource : u.source = Text.trimEnd t.base ++ (more ++ t.closer))
    (hmore : Text.oddBlanks more = 0)
    (hkept : (t.attributes.map Attribute.reading).Sublist (u.attributes.map Attribute.reading))
    (hbase : t.base = s ++ c :: b) (hb : Text.Blanks b) : Text.isOddBlank c = false := by
  rw [← Bool.not_eq_true]
  intro hodd
  have hlt := Text.oddBlanks_trimEnd_lt (s := s) hodd hb
  rw [← hbase] at hlt
  have hle : Text.oddBlanks ((t.attributes.map Attribute.reading).flatMap Attribute.letters) ≤
      Text.oddBlanks ((u.attributes.map Attribute.reading).flatMap Attribute.letters) :=
    (hkept.flatMap Attribute.letters).countP_le
  rw [← oddBlanks_source ht, ← oddBlanks_source hu, hsource, ← base_append_closer t,
    Text.oddBlanks_append, Text.oddBlanks_append, Text.oddBlanks_append, hmore] at hle
  omega

theorem not_isAsciiBlank_of_unslash {a : Attribute} {rest : Text} (h : a.Fits rest) {c : Char}
    (hc : c ∈ (Text.unslash a.tail).getLast?) : Text.isAsciiBlank c = false := by
  rcases Text.unslash_cases a.tail with hcut | ⟨hsame, -⟩
  · obtain ⟨-, hslash⟩ := Attribute.getLast?_tail_of_fits h (c := '/') (by rw [hcut]; simp)
    obtain ⟨v, hv, hbare, -⟩ := hslash rfl
    have hvalue := h.value_of_bare hv hbare
    have hmem : c ∈ v.value := by
      have htail : a.tail = v.value := by simp [Attribute.tail, hv, hbare, Quoting.mark]
      rw [← htail, hcut]
      exact List.mem_append_left _ (List.mem_of_getLast? hc)
    have hchar := hvalue.1 c hmem
    simp only [isBareChar, Bool.and_eq_true, Bool.not_eq_true'] at hchar
    exact hchar.1
  · rw [hsame] at hc
    exact (Attribute.getLast?_tail_of_fits h hc).1

/-- Where the names and values are kept the last attribute ends in no blank, but for a slash right in
front of `>` that is cut off. -/
theorem endsFirm_unslash_tail_of_kept {t u : StartTag} (ht : t.Legible) (hu : u.Legible)
    {front : List Attribute} {a : Attribute} {more : Text} (hlast : t.attributes = front ++ [a])
    (htrail : t.trail = []) (hclosing : t.selfClosing = false)
    (hsource : u.source = Text.trimEnd t.base ++ (more ++ t.closer))
    (hmore : Text.oddBlanks more = 0)
    (hkept : (t.attributes.map Attribute.reading).Sublist (u.attributes.map Attribute.reading)) :
    Text.EndsFirm (Text.unslash a.tail) := by
  intro c hc
  obtain ⟨s, hs⟩ := List.getLast?_eq_some_iff.1 hc
  have hbase : t.base = t.opening front a ++ (a.stem ++ s) ++ c :: [] := by
    rw [base_of_trail_nil ht hlast htrail hclosing, hs]
    simp
  have hodd := not_isOddBlank_of_kept ht hu hsource hmore hkept hbase Text.Blanks.nil
  obtain ⟨-, r, hfits⟩ := fits_of_mem ht.attributes (show a ∈ t.attributes by simp [hlast])
  simpa [Text.isOddBlank, not_isAsciiBlank_of_unslash hfits hc] using hodd

/-- Where the names and values are kept the last attribute ends in no blank. -/
theorem endsFirm_tail_of_kept {t u : StartTag} (ht : t.Legible) (hu : u.Legible)
    {front : List Attribute} {a : Attribute} {more : Text} (hlast : t.attributes = front ++ [a])
    (hslash : '/' ∉ t.trail) (hnot : t.isSlashed = false)
    (hsource : u.source = Text.trimEnd t.base ++ (more ++ t.closer))
    (hmore : Text.oddBlanks more = 0)
    (hkept : (t.attributes.map Attribute.reading).Sublist (u.attributes.map Attribute.reading)) :
    Text.EndsFirm a.tail := by
  intro c hc
  obtain ⟨s, hs⟩ := List.getLast?_eq_some_iff.1 hc
  have hbase : t.base = t.opening front a ++ (a.stem ++ s) ++ c :: t.trail := by
    rw [base_of_not_isSlashed hnot, core_eq_opening hlast, hs]
    simp
  have hodd := not_isOddBlank_of_kept ht hu hsource hmore hkept hbase
    (blanks_of_isLead ht.trail.1 hslash)
  obtain ⟨-, r, hfits⟩ := fits_of_mem ht.attributes (show a ∈ t.attributes by simp [hlast])
  simpa [Text.isOddBlank, (Attribute.getLast?_tail_of_fits hfits hc).1] using hodd

/-- Another value in the place of one is what is read there. -/
theorem exists_attributes_of_replaced {t u : StartTag} (ht : t.Legible) (hu : u.Legible)
    {front back : List Attribute} {a b : Attribute} {z : Text}
    (hattributes : t.attributes = front ++ a :: back) (hlead : b.lead = a.lead)
    (hwritten : b.written = a.written) (hb : b.Fits z)
    (hsource : u.source = t.opening front a ++ (b.body ++ z)) :
    ∃ more, u.attributes = front ++ b :: more := by
  obtain ⟨hends, hfits⟩ := fits_replaced ht hattributes hlead hwritten hb
  obtain ⟨more, hmore⟩ := exists_attributes_eq hu ht.written hends hfits (by
    rw [hsource]
    simp [opening, Attribute.source_eq, hlead])
  exact ⟨more, by simp [hmore]⟩

/-- Where the attributes that a tag has are read as they were, so is what stands in the place of the
last of them. The attributes that are meant are those with names of a class. -/
theorem reading_eq_of_kept {t u : StartTag} (ht : t.Legible) (hu : u.Legible)
    {front : List Attribute} {a b : Attribute} {z : Text} {p : Text → Bool}
    (hlast : t.attributes = front ++ [a]) (hlead : b.lead = a.lead)
    (hwritten : b.written = a.written) (hb : b.Fits z)
    (hsource : u.source = t.opening front a ++ (b.body ++ z))
    (hp : ∀ c ∈ t.attributes, p c.name = true)
    (hkept : t.attributes.map Attribute.reading <+:
      (u.attributes.filter fun c => p c.name).map Attribute.reading) : b.reading = a.reading := by
  obtain ⟨more, hmore⟩ := exists_attributes_of_replaced ht hu hlast hlead hwritten hb hsource
  have hpb : p b.name = true := by
    have hname : b.name = a.name := congrArg Text.lower hwritten
    rw [hname]
    exact hp a (by simp [hlast])
  have hfront : front.filter (fun c => p c.name) = front :=
    List.filter_eq_self.2 fun c hc => hp c (by simp [hlast, hc])
  rw [hmore, List.filter_append, List.filter_cons, if_pos hpb, hfront, hlast, List.map_append,
    List.map_append, List.prefix_append_right_inj] at hkept
  obtain ⟨rest, hrest⟩ := hkept
  simp only [List.map_cons, List.map_nil, List.singleton_append, List.cons.injEq] at hrest
  exact hrest.1.symm

/-- A beginning of a value without quotes, with a blank and a letter behind it, is read as the value,
and if it is empty the letter begins the value. -/
theorem exists_bare_read {a : Attribute} {v : Assignment} {rest y z s : Text} {c : Char}
    (ha : a.Fits rest) (hv : a.assigned = some v) (hbare : v.quoting = .bare)
    (hy : v.value = y ++ z) (hfirm : Text.EndsFirm y) (hc : isAttributeChar c = true)
    (hquote : isQuote c = false) (x : Text) :
    ∃ (b : Attribute) (r : Text), b.lead = a.lead ∧ b.written = a.written ∧ b.Fits r ∧
      (y ≠ [] ∧ b.value = some y ∨ y = [] ∧ ∃ w, b.value = some (c :: w)) ∧
      Text.trimEnd (x ++ (a.stem ++ y)) ++ ' ' :: c :: s = x ++ (b.body ++ r) := by
  obtain ⟨lead, written, assigned⟩ := a
  obtain ⟨before, after, q, value⟩ := v
  obtain rfl : assigned = some ⟨before, after, q, value⟩ := hv
  obtain rfl : q = .bare := hbare
  obtain rfl : value = y ++ z := hy
  have hassigned : Assignment.Fits written ⟨before, after, .bare, y ++ z⟩ rest := ha.assigned
  obtain ⟨hchars, -, d, hd, hfirst⟩ := hassigned.value
  have hcbare : isBareChar c = true := by
    obtain ⟨hblank, -, hgt, -⟩ := isAttributeChar_iff.1 hc
    simp [isBareChar, hblank, hgt]
  by_cases hnil : y = []
  · subst hnil
    refine ⟨⟨lead, written, some ⟨before, [' '], .bare, (c :: s).takeWhile isBareChar⟩⟩,
      (c :: s).dropWhile isBareChar, rfl, rfl, ⟨ha.written, ?_⟩, Or.inr ⟨rfl, ?_⟩, ?_⟩
    · refine ⟨hassigned.before, hassigned.before_eq_nil, fun e he => ?_,
        fun e he => List.mem_takeWhile_imp he, Text.heads_dropWhile _ _, c, ?_, ?_, hquote⟩
      · rw [List.mem_singleton.1 he]
        decide
      · rw [List.takeWhile_append_dropWhile, List.head?_cons]
      · exact (isAttributeChar_iff.1 hc).1
    · rw [Attribute.value, Option.map_some, List.takeWhile_cons, if_pos hcbare]
      exact ⟨_, rfl⟩
    · have hafter : Text.Blanks after := fun e he => Text.isBlank_of_isAsciiBlank (hassigned.after e he)
      have htrim : Text.trimEnd (x ++ (written ++ before) ++ ['='] ++ after) =
          x ++ (written ++ before) ++ ['='] := by
        rw [Text.trimEnd_append_blanks _ hafter, Text.trimEnd_of_last _ (by decide)]
      simp only [Attribute.stem, Attribute.body, Assignment.source, Assignment.head, Quoting.mark,
        Option.map_some, Option.getD_some, List.append_nil, List.append_assoc, List.cons_append,
        List.nil_append, List.takeWhile_append_dropWhile] at htrim ⊢
      simp [htrim]
  · refine ⟨⟨lead, written, some ⟨before, after, .bare, y⟩⟩, ' ' :: c :: s, rfl, rfl, ⟨ha.written, ?_⟩,
      Or.inl ⟨hnil, rfl⟩, ?_⟩
    · refine ⟨hassigned.before, hassigned.before_eq_nil, hassigned.after,
        fun e he => hchars e (List.mem_append_left z he), Text.heads_cons.2 (by decide), d, ?_, hfirst⟩
      obtain ⟨e, y, rfl⟩ := List.exists_cons_of_ne_nil hnil
      exact hd
    · rw [← List.append_assoc x, Text.trimEnd_eq_self_iff.2 ((Text.endsFirm_append hnil).2 hfirm)]
      simp [Attribute.stem, Attribute.body, Assignment.source, Assignment.head, Quoting.mark]

/-! ### Attributes put behind others -/

/-- Attributes that can be put at the end of a tag, with a blank in front of them. -/
structure Addable (extras : List Attribute) : Prop where
  /-- They begin with a blank and a letter that is part of a name or of a value without quotes. -/
  head : ∃ c s, extras.flatMap Attribute.source = ' ' :: c :: s ∧ isAttributeChar c = true ∧
    isQuote c = false
  /-- They end in no blank, nor in a slash. -/
  last : ∃ s c, extras.flatMap Attribute.source = s ++ [c] ∧ Text.isBlank c = false ∧ c ≠ '/'
  /-- They are read as they stand in front of either end. -/
  fits : ∀ closing, AttributesFit extras (endingOf closing)
  /-- They have no blanks but those between them. -/
  oddBlanks : Text.oddBlanks (extras.flatMap Attribute.source) = 0

/-- Attributes with more blanks and stray slashes in front of them. -/
def behind (lead : Text) : List Attribute → List Attribute
  | [] => []
  | a :: attributes => { a with lead := lead ++ a.lead } :: attributes

/-- The tag with more attributes behind its own, and none of the blanks that stood there. -/
def withExtras (t : StartTag) (extras : List Attribute) : StartTag :=
  { t with attributes := t.attributes ++ behind (Text.trimEnd t.trail) extras, trail := [] }

/-- Whether attributes can be put at the end of a tag: there is a stray slash behind the last
attribute, or else the last attribute ends in something that is no blank, and in no slash that would
be taken for that of `/>`. -/
def TakesMore (t : StartTag) : Prop :=
  '/' ∉ t.trail → ∀ a ∈ t.attributes.getLast?, ∃ c ∈ a.tail.getLast?,
    Text.isBlank c = false ∧ (c = '/' → t.trail ≠ [])

instance : DecidablePred TakesMore := fun t =>
  inferInstanceAs (Decidable ('/' ∉ t.trail → ∀ a ∈ t.attributes.getLast?, ∃ c ∈ a.tail.getLast?,
    Text.isBlank c = false ∧ (c = '/' → t.trail ≠ [])))

theorem map_reading_behind (lead : Text) (extras : List Attribute) :
    (behind lead extras).map Attribute.reading = extras.map Attribute.reading := by
  cases extras <;> rfl

theorem flatMap_behind (lead : Text) {extras : List Attribute} (h : extras ≠ []) :
    (behind lead extras).flatMap Attribute.source = lead ++ extras.flatMap Attribute.source := by
  cases extras with
  | nil => exact absurd rfl h
  | cons a extras => simp [behind, Attribute.source]

theorem attributesFit_behind {lead rest : Text} (hlead : IsLead lead) {extras : List Attribute}
    (h : AttributesFit extras rest) : AttributesFit (behind lead extras) rest := by
  cases extras with
  | nil => trivial
  | cons a extras =>
    obtain ⟨⟨halead, hfits⟩, hrest⟩ := h
    refine ⟨⟨fun c hc => ?_, hfits.written, hfits.assigned⟩, hrest⟩
    rcases List.mem_append.1 hc with hc | hc
    · exact hlead c hc
    · exact halead c hc

theorem Addable.ne_nil {extras : List Attribute} (h : Addable extras) : extras ≠ [] := by
  rintro rfl
  obtain ⟨c, s, hs, -⟩ := h.head
  cases hs

theorem extended_eq {t : StartTag} (ht : t.Legible) (added : Text) :
    t.extended added = Text.trimEnd t.base ++ (added ++ t.closer) := by
  rw [extended, splitEnding_eq ht]

/-! ### Where more is taken -/

theorem isSlashed_of_takesMore {t : StartTag} (ht : t.Legible) (h : t.TakesMore) :
    t.isSlashed = false := by
  rw [← Bool.not_eq_true]
  intro hslashed
  obtain ⟨front, a, hlast, -, htrail, htail⟩ := exists_of_isSlashed ht hslashed
  obtain ⟨c, hc, -, hne⟩ := h (by simp [htrail]) a (by simp [hlast])
  rw [htail, Option.mem_some_iff] at hc
  exact hne hc.symm htrail

/-- The last attribute is read as it stands in front of what ends a flag, and a value without quotes if
it has one. -/
theorem fits_of_endsFlag {a : Attribute} {rest x : Text} (hfits : a.Fits rest)
    (hclosed : ∀ v ∈ a.assigned, v.quoting = .bare → v.value ≠ []) (hx : Attribute.EndsFlag x)
    (hbare : ∀ v ∈ a.assigned, v.quoting = .bare → Heads (!isBareChar ·) x) : a.Fits x := by
  obtain ⟨lead, written, assigned⟩ := a
  refine ⟨hfits.written, ?_⟩
  cases assigned with
  | none => exact ⟨hfits.assigned.1, hx⟩
  | some v =>
    obtain ⟨before, after, q, value⟩ := v
    have hv : Assignment.Fits written ⟨before, after, q, value⟩ rest := hfits.assigned
    refine ⟨hv.before, hv.before_eq_nil, hv.after, ?_⟩
    cases q with
    | quoted quote => exact hv.value
    | bare =>
      obtain ⟨hchars, -, c, hc, hfirm⟩ := hv.value
      refine ⟨hchars, hbare _ rfl rfl, c, ?_, hfirm⟩
      obtain ⟨d, value, rfl⟩ := List.exists_cons_of_ne_nil (hclosed _ rfl rfl)
      exact hc

/-- Attributes are read as they stand when the blanks behind them give way to another text, if the
last of them is where nothing is left in between. -/
theorem attributesFit_trimEnd {t : StartTag} (ht : t.Legible) {x : Text}
    (h : Text.trimEnd t.trail = [] → ∀ a ∈ t.attributes.getLast?, a.Fits x) :
    AttributesFit t.attributes (Text.trimEnd t.trail ++ x) := by
  have hfit := ht.attributes
  by_cases htrail : Text.trimEnd t.trail = []
  · rw [htrail, List.nil_append]
    rcases List.eq_nil_or_concat t.attributes with hnil | ⟨front, a, hlast⟩
    · rw [hnil]
      trivial
    · rw [List.concat_eq_append] at hlast
      rw [hlast] at hfit ⊢
      obtain ⟨hfront, ⟨hlead, hfits⟩, -⟩ := attributesFit_append.1 hfit
      refine attributesFit_append.2 ⟨?_, ⟨hlead, h htrail a (by simp [hlast])⟩, trivial⟩
      rw [List.flatMap_singleton] at hfront ⊢
      obtain ⟨c, s, hbody, hblank, -⟩ := body_head hfits
      exact attributesFit_congr
        (sameStart_append ⟨c, by simp [Attribute.source_eq, hbody], hblank⟩ _ _) hfront
  · obtain ⟨b, -, hb⟩ := Text.exists_eq_append_trimEnd t.trail
    have hsame := sameStart_append (exists_firm_of_trimEnd htrail) (b ++ t.ending) x
    rw [← List.append_assoc, ← hb] at hsame
    exact attributesFit_congr hsame hfit

/-- Only blanks behind the last attribute are taken out, if that does not end in one. -/
theorem trimEnd_attributes {t : StartTag}
    (h : Text.trimEnd t.trail = [] → ∀ a ∈ t.attributes.getLast?,
      ∃ c ∈ a.tail.getLast?, Text.isBlank c = false) :
    Text.trimEnd (t.attributes.flatMap Attribute.source ++ t.trail) =
      t.attributes.flatMap Attribute.source ++ Text.trimEnd t.trail := by
  by_cases htrail : Text.trimEnd t.trail = []
  · rcases List.eq_nil_or_concat t.attributes with hnil | ⟨front, a, hlast⟩
    · rw [hnil]
      rfl
    · rw [List.concat_eq_append] at hlast
      obtain ⟨c, hc, hblank⟩ := h htrail a (by simp [hlast])
      obtain ⟨s, hs⟩ := List.getLast?_eq_some_iff.1 hc
      have := Text.trimEnd_append_of_last
        (front.flatMap Attribute.source ++ (a.lead ++ (a.stem ++ s))) hblank t.trail
      simpa [hlast, Attribute.source_eq, Attribute.body_eq_stem_append_tail, hs] using this
  · exact Text.trimEnd_append_of_ne_nil _ htrail

/-- What follows the name of a tag still ends it when the blanks at the end have given way to a text
that ends a name. -/
theorem heads_endsName_trimEnd {t : StartTag} (ht : t.Legible) {x : Text} (hx : Heads endsName x) :
    Heads endsName (t.attributes.flatMap Attribute.source ++ (Text.trimEnd t.trail ++ x)) := by
  have hends := ht.endsName
  obtain ⟨b, -, hb⟩ := Text.exists_eq_append_trimEnd t.trail
  rw [hb, List.append_assoc, ← List.append_assoc] at hends
  rw [← List.append_assoc]
  cases hnil : t.attributes.flatMap Attribute.source ++ Text.trimEnd t.trail with
  | nil => exact hx
  | cons c s =>
    rw [hnil] at hends
    exact Text.heads_cons.2 (Text.heads_cons.1 hends)

/-- **Attributes at the end of a tag are read as its last ones, if it takes more.** -/
theorem legible_withExtras {t : StartTag} (ht : t.Legible) (h : t.TakesMore) {extras : List Attribute}
    (hextras : Addable extras) :
    (t.withExtras extras).Legible ∧
      (t.withExtras extras).source = t.extended (extras.flatMap Attribute.source) := by
  obtain ⟨c, s, hs, hc, -⟩ := hextras.head
  have hblanks : Text.trimEnd t.trail = [] → '/' ∉ t.trail := by
    intro hnil hslash
    have := Text.blanks_of_trimEnd hnil '/' hslash
    exact absurd this (by decide)
  have hsource : (behind (Text.trimEnd t.trail) extras).flatMap Attribute.source ++ t.ending =
      Text.trimEnd t.trail ++ ' ' :: c :: (s ++ t.ending) := by
    rw [flatMap_behind _ hextras.ne_nil, hs]
    simp
  constructor
  · refine ⟨ht.letter, ht.written, ?_, ?_, by simp [withExtras, TrailFits, IsLead]⟩
    · show Heads endsName ((t.attributes ++ _).flatMap Attribute.source ++ ([] ++ t.ending))
      rw [List.nil_append, List.flatMap_append, List.append_assoc, hsource]
      exact heads_endsName_trimEnd ht (Text.heads_cons.2 (by decide))
    · refine attributesFit_append.2
        ⟨?_, attributesFit_behind (isLead_trimEnd ht.trail.1) (hextras.fits t.selfClosing)⟩
      show AttributesFit t.attributes (_ ++ ([] ++ t.ending))
      rw [List.nil_append, hsource]
      refine attributesFit_trimEnd ht fun hnil a ha => ?_
      obtain ⟨front, hlast⟩ := List.getLast?_eq_some_iff.1 ha
      obtain ⟨d, hd, -⟩ := h (hblanks hnil) a ha
      have hfits := ht.fits hlast
      refine fits_of_endsFlag hfits (fun v hv hbare hvalue => ?_) ⟨Text.heads_cons.2 (by decide), ?_⟩
        fun _ _ _ => Text.heads_cons.2 (by decide)
      · simp [Attribute.tail, Option.mem_def.1 hv, hbare, hvalue, Quoting.mark] at hd
      · obtain ⟨hblank, hequals, -⟩ := isAttributeChar_iff.1 hc
        rw [List.dropWhile_cons, if_pos (by decide), List.dropWhile_cons, hblank]
        simpa using hequals
  · have hslashed := isSlashed_of_takesMore ht h
    have htrim := trimEnd_attributes (t := t) fun hnil a ha => by
      obtain ⟨d, hd, hblank, -⟩ := h (hblanks hnil) a ha
      exact ⟨d, hd, hblank⟩
    rw [extended_eq ht, base_of_not_isSlashed hslashed, closer_of_not_isSlashed hslashed,
      trimEnd_core ht, htrim, hs]
    show '<' :: (t.written ++ ((t.attributes ++ _).flatMap Attribute.source ++ ([] ++ t.ending))) = _
    rw [List.nil_append, List.flatMap_append, List.append_assoc, hsource]
    simp

/-! ### Where it is not -/

/-- A last attribute keeps no value without quotes that is empty, or that ends in a slash right in
front of `>`: the value is cut there, or goes on in what is put behind it. -/
theorem not_kept_of_open {t u : StartTag} (ht : t.Legible) (hu : u.Legible) {front : List Attribute}
    {a : Attribute} {v : Assignment} {extras : List Attribute} (hextras : Addable extras)
    (hlast : t.attributes = front ++ [a]) (hv : a.assigned = some v) (hbare : v.quoting = .bare)
    (htrail : t.trail = []) (hopen : v.value = [] ∨ v.value.getLast? = some '/')
    (hsource : u.source = t.extended (extras.flatMap Attribute.source)) {p : Text → Bool}
    (hp : ∀ c ∈ t.attributes, p c.name = true) :
    ¬ t.attributes.map Attribute.reading <+:
      (u.attributes.filter fun c => p c.name).map Attribute.reading := by
  intro hkept
  rw [extended_eq ht] at hsource
  have hfits := ht.fits hlast
  have hvalue := hfits.value_of_bare hv hbare
  have htail : a.tail = v.value := by simp [Attribute.tail, hv, hbare, Quoting.mark]
  have hclosing := selfClosing_of_bare ht hlast hv hbare htrail
  have hbase := base_of_trail_nil ht hlast htrail hclosing
  rw [htail] at hbase
  -- what is left of the value
  obtain ⟨z, hz⟩ : ∃ z, v.value = Text.unslash v.value ++ z := by
    rcases Text.unslash_cases v.value with hcut | ⟨hsame, -⟩
    · exact ⟨['/'], hcut⟩
    · exact ⟨[], by rw [hsame, List.append_nil]⟩
  have hfirm := endsFirm_unslash_tail_of_kept ht hu hlast htrail hclosing hsource hextras.oddBlanks
    (hkept.sublist.trans (List.filter_sublist.map _))
  rw [htail] at hfirm
  obtain ⟨c, s, hs, hc, hquote⟩ := hextras.head
  obtain ⟨b, r, hlead, hwritten, hb, hread, htext⟩ := exists_bare_read (s := s ++ t.closer) hfits hv
    hbare hz hfirm hc hquote (t.opening front a)
  have hreading := reading_eq_of_kept ht hu hlast hlead hwritten hb
    (by rw [hsource, hbase, hs, ← htext]; simp) hp hkept
  have hvalue : b.value = some v.value := by
    rw [show b.value = a.value from congrArg Prod.snd hreading, Attribute.value, hv]
    rfl
  rcases hread with ⟨hne, hy⟩ | ⟨hnil, w, hw⟩
  · rw [hy, Option.some.injEq] at hvalue
    rcases hopen with hempty | hslash
    · exact hne (hvalue.trans hempty)
    · rcases Text.unslash_cases v.value with hcut | ⟨-, hnot⟩
      · have := congrArg List.length (hvalue.trans hcut)
        simp at this
      · exact hnot hslash
  · rw [hw, Option.some.injEq] at hvalue
    rcases hopen with hempty | hslash
    · rw [hempty] at hvalue
      cases hvalue
    · rcases Text.unslash_cases v.value with hcut | ⟨-, hnot⟩
      · rw [hnil, ← hvalue, List.nil_append, List.cons.injEq] at hcut
        exact (isAttributeChar_iff.1 hc).2.2.2 hcut.1
      · exact hnot hslash

/-- **A tag whose attributes are kept when more are put behind them takes more.** -/
theorem takesMore_of_kept {t u : StartTag} (ht : t.Legible) (hu : u.Legible)
    {extras : List Attribute} (hextras : Addable extras)
    (hsource : u.source = t.extended (extras.flatMap Attribute.source)) {p : Text → Bool}
    (hp : ∀ c ∈ t.attributes, p c.name = true)
    (hkept : t.attributes.map Attribute.reading <+:
      (u.attributes.filter fun c => p c.name).map Attribute.reading) : t.TakesMore := by
  intro hslash a ha
  obtain ⟨front, hlast⟩ := List.getLast?_eq_some_iff.1 ha
  have hfits := ht.fits hlast
  cases htail : a.tail.getLast? with
  | none =>
    obtain ⟨v, hv, hbare, hnil⟩ :=
      Attribute.exists_of_tail_eq_nil hfits (List.getLast?_eq_none_iff.1 htail)
    exact absurd hkept (not_kept_of_open ht hu hextras hlast hv hbare
      (eq_of_bare_nil ht hlast hv hbare hnil).2.1 (Or.inl hnil) hsource hp)
  | some c =>
    have hvalue := (Attribute.getLast?_tail_of_fits hfits htail).2
    refine ⟨c, rfl, ?_, ?_⟩
    · by_cases hc : c = '/'
      · rw [hc]
        decide
      · have hnot : t.isSlashed = false := by
          rw [← Bool.not_eq_true, isSlashed_iff_tail ht hlast, htail, Option.some.injEq]
          exact fun h => hc h.2.2
        rw [extended_eq ht] at hsource
        exact endsFirm_tail_of_kept ht hu hlast hslash hnot hsource hextras.oddBlanks
          (hkept.sublist.trans (List.filter_sublist.map _)) c htail
    · intro hc htrail
      obtain ⟨v, hv, hbare, hlastc⟩ := hvalue hc
      exact not_kept_of_open ht hu hextras hlast hv hbare htrail (Or.inr hlastc) hsource hp hkept

end StartTag

end MaskedViews
