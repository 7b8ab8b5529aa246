import MaskedViews.Proofs.Mask.Protection
import MaskedViews.Proofs.Mask.Regular

/-!
# Removal

Of a regular forest without blanks in the names of attributes, a mask leaves neither a placeholder of
a hidden field nor an element that carries one, and takes out no other elements than these
(`clears_apply`). After the cuts the elements stay where they are: stripping, disabling, marking and
settling change what is written in their tags, but not what these are known by
(`exists_matches_apply`).

A name of an attribute may hold a blank that the reader of tags does not take for one, such as a
no-break space. Then it comes apart when the whitespace is normalized, and the name of a control may
show only after that (`not_clears_apply_of_noBreakSpace`).
-/

namespace MaskedViews

open Markup (Forest Matches Piece printed settle startTags)
open StartTag (ChangesTo)
open Token (Braceless Woven strip)

/-! ### Regular forests -/

namespace Markup

/-- A forest that is a regular template, with plain texts for the names of fields and classes. -/
structure Forest.IsRegular (f : Forest) : Prop where
  /-- Its elements end. -/
  nested : f.IsNested
  /-- Its pieces are regular. -/
  regular : ∀ p ∈ f.pieces, p.IsRegular
  /-- There are no template tags in the names of fields and in classes. -/
  braceless : ∀ t ∈ f.tags, ∀ key ∈ ["data-field", "name", "class"].map String.toList,
    ∀ v ∈ t.value? key, Braceless v
  /-- There are no blanks in the names of fields. -/
  unbroken : ∀ t ∈ f.tags, ∀ key ∈ ["data-field", "name"].map String.toList,
    ∀ v ∈ t.value? key, ∀ c ∈ v, Text.isBlank c = false

/-- Whether there are no blanks in the names of attributes. -/
def Forest.HasSolidNames (f : Forest) : Prop :=
  ∀ t ∈ f.tags, ∀ a ∈ t.attributes, ∀ c ∈ a.written, Text.isBlank c = false

/-- There are no template tags in the names of fields of a regular forest. -/
theorem Forest.IsRegular.braceless_field {f : Forest} (h : f.IsRegular) {t : StartTag}
    (ht : t ∈ f.tags) {key v : Text} (hkey : key ∈ StartTag.fieldKeys) (hv : v ∈ t.value? key) :
    Braceless v := by
  have hsub : ∀ key ∈ StartTag.fieldKeys, key ∈ ["data-field", "name", "class"].map String.toList := by
    decide
  exact h.braceless t ht key (hsub key hkey) v hv

/-- Regular pieces of a forest without blanks in the names of attributes are tidy. -/
theorem Forest.isTidy_of_hasSolidNames {f : Forest} (h : ∀ p ∈ f.pieces, p.IsRegular)
    (hnames : f.HasSolidNames) : ∀ p ∈ f.pieces, p.IsTidy := by
  intro p hp
  have hregular := h p hp
  cases p with
  | startTag t => exact ⟨hregular.1, hregular.2, hnames t (Forest.mem_tags.2 hp)⟩
  | text s => exact hregular
  | comment s => exact hregular
  | endTag s => exact hregular
  | stray s => exact absurd hp (f.stray_not_mem_pieces s)

end Markup

namespace Mask

/-! ### Edits that leave the elements where they are -/

variable {f : Forest} {m : Mask} {strategy : Strategy} {ps qs : List Piece}

/-- Stripping leaves the fields of the tags of a regular forest. -/
theorem standsIn_of_strip (hf : f.IsRegular) {remove : Text → Bool} {t u : StartTag} (ht : t ∈ f.tags)
    (h : ChangesTo (strip remove) t u) : t.StandsIn u :=
  h.standsIn fun _ hkey _ hv => Token.strip_of_braceless (hf.braceless_field ht hkey hv) remove

/-- **What a mask does after its cuts**, before whitespace is normalized: it strips the pieces that are
left and changes start tags of these. The read-only fields are secured, if no control of one ends
loosely. -/
theorem exists_matches_stripped (hnested : f.IsNested) (hregular : ∀ p ∈ f.pieces, p.IsRegular)
    (hnames : f.HasSolidNames) (m : Mask) (strategy : Strategy) :
    let ps := (cutForest m.hidden strategy f).pieces.map (Piece.stripped m.hidden.contains)
    ∃ qs, (∀ q ∈ qs, q.IsTidy) ∧ Matches (ChangesTo id) ps qs ∧
      m.apply strategy f.source = Markup.normalizeWhitespace (printed qs) ∧
      ((∀ t, .startTag t ∈ ps → EndsFirmly m.readonly t) → Secured m.readonly strategy qs) := by
  intro ps
  have hcut := cut_source m.hidden strategy hnested fun p hp => (hregular p hp).fits
  have hsub : (cutForest m.hidden strategy f).pieces ⊆ f.pieces := pieces_cutForest_subset
  have hleft : ∀ p ∈ (cutForest m.hidden strategy f).pieces, p.IsRegular :=
    fun p hp => hregular p (hsub hp)
  have hclosed := Forest.closed_pieces (isNested_cutForest hnested)
    (Forest.legible_of_fits fun p hp => (hleft p hp).fits)
  have htidy := Forest.isTidy_of_hasSolidNames hregular hnames
  obtain ⟨qs, hqs, hprotected, hprotect, hsecured⟩ := exists_matches_protect m.readonly strategy
    (Markup.isTidy_stripped m.hidden.contains fun p hp => htidy p (hsub hp))
  refine ⟨qs, hqs, hprotected, ?_, hsecured (hclosed.stripped m.hidden.contains)⟩
  rw [apply, hide_eq, hcut, removePlaceholders, Forest.source,
    (Markup.strip_printed m.hidden.contains hleft).1, hprotect]

/-- **What a mask leaves after its cuts**, before whitespace is normalized: the same elements, with
stripped values. The read-only fields are secured, if no control of one ends loosely. -/
theorem exists_matches_hidden (hf : f.IsRegular) (hnames : f.HasSolidNames) (m : Mask)
    (strategy : Strategy) :
    ∃ qs, (∀ q ∈ qs, q.IsTidy) ∧
      Matches (ChangesTo (strip m.hidden.contains)) (cutForest m.hidden strategy f).pieces qs ∧
      m.apply strategy f.source = Markup.normalizeWhitespace (printed qs) ∧
      ((∀ t ∈ f.tags, EndsFirmly m.readonly t) → Secured m.readonly strategy qs) := by
  have hsub : (cutForest m.hidden strategy f).pieces ⊆ f.pieces := pieces_cutForest_subset
  have hstripped := Markup.matches_stripped
    (R := fun t u => ChangesTo (strip m.hidden.contains) t u ∧ t ∈ f.tags ∧
      u = t.stripped m.hidden.contains) (fun p hp => hf.regular p (hsub hp)) fun t ht => by
    have ht := Forest.mem_tags.2 (hsub ht)
    exact ⟨StartTag.changesTo_stripped _ (hf.braceless t ht _ (by decide)), ht, rfl⟩
  obtain ⟨qs, hqs, hprotected, happly, hsecured⟩ :=
    exists_matches_stripped hf.nested hf.regular hnames m strategy
  refine ⟨qs, hqs, (hstripped.imp fun _ _ h => h.1).comp hprotected, happly,
    fun hends => hsecured fun u hu => ?_⟩
  obtain ⟨t, -, hchanges, ht, rfl⟩ := hstripped.exists_startTag hu
  exact (hends t ht).stripped m.hidden.contains (standsIn_of_strip hf ht hchanges)

/-- **What a mask leaves after its cuts**: the same elements, with what their tags are known by up to
stripping and settling. -/
theorem exists_matches_apply (hf : f.IsRegular) (hnames : f.HasSolidNames) (m : Mask)
    (strategy : Strategy) :
    ∃ qs, (∀ q ∈ qs, q.IsTidy) ∧ Matches (ChangesTo (settle ∘ strip m.hidden.contains))
        (cutForest m.hidden strategy f).pieces qs ∧ m.apply strategy f.source = printed qs := by
  obtain ⟨qs, hqs, hmatches, happly, -⟩ := exists_matches_hidden hf hnames m strategy
  obtain ⟨rs, hrs, hnormal, hsettled⟩ := Markup.exists_normalized_matches hqs
  have hsettled : Matches (ChangesTo settle) qs rs := hsettled.imp fun t u hu => by
    rw [hu]
    exact StartTag.changesTo_settled t
  exact ⟨rs, hrs, hmatches.comp hsettled, happly.trans hnormal.symm⟩

/-! ### What is cleared -/

/-- Whether no tag of a kind is marked with one of some fields, and no element of the kind has a
reference to one inside it. -/
structure IsFreeOf (fields : Names) (names : List Text) (kind : StartTag → Bool) (html : Text) :
    Prop where
  /-- The marks of the tags. -/
  marks : ∀ t ∈ startTags html, names.contains t.name = true → kind t = true →
    ∀ field ∈ t.markedField?, field ∉ fields
  /-- The references inside the elements. -/
  insides : ∀ v ∈ Markup.visits names (fun _ => .keep) html, kind v.tag = true →
    ∀ field ∈ Markup.referencedFields v.inner, field ∉ fields

/-- Markup in which nothing is left of the fields that a mask hides. -/
structure Clears (m : Mask) (strategy : Strategy) (html : Text) : Prop where
  /-- No placeholder is that of a hidden field. -/
  placeholders : ∀ path ∈ (Template.parse html).placeholders, path ∉ m.hidden
  /-- No form control has the name of one. -/
  controls : ∀ t ∈ startTags html, ∀ name ∈ t.controlName?, name ∉ m.hidden
  /-- No cell carries one, where cells do. -/
  cells : strategy.hasCells = true → IsFreeOf m.hidden Markup.cellNames (fun _ => true) html
  /-- No container carries one, where containers do. -/
  containers : strategy.hasContainers = true →
    IsFreeOf m.hidden [Markup.containerName] (fun t => t.hasClass Markup.containerClass) html

/-- What a mask leaves of a start tag: an element of the same name, with the same names of fields, and
its other values stripped and settled, but for the attributes that the mask may add to. -/
structure LeftAs (m : Mask) (t u : StartTag) : Prop where
  /-- The name of the element. -/
  name : u.name = t.name
  /-- The field that it is marked with. -/
  markedField : u.markedField? = t.markedField?
  /-- The name of a form control. -/
  controlName : u.controlName? = t.controlName?
  /-- Whether it is a container. -/
  container : u.hasClass Markup.containerClass = t.hasClass Markup.containerClass
  /-- The values. -/
  value : ∀ key, key ∉ StartTag.changedKeys →
    u.value? key = (t.value? key).map (settle ∘ strip m.hidden.contains)

theorem settle_strip_of_unbroken (remove : Text → Bool) {v : Text} (hv : Braceless v)
    (h : ∀ c ∈ v, Text.isBlank c = false) : settle (strip remove v) = v := by
  exact (congrArg settle (Token.strip_of_braceless hv remove)).trans (Markup.settle_of_not_isBlank h)

/-- The tags of a regular forest are left as they should be. -/
theorem leftAs_of_changesTo {f : Forest} (h : f.IsRegular) {m : Mask} {t u : StartTag}
    (ht : t ∈ f.tags) (htu : ChangesTo (settle ∘ strip m.hidden.contains) t u) : m.LeftAs t u := by
  have hstands : t.StandsIn u := htu.standsIn fun key hkey v hv =>
    settle_strip_of_unbroken _ (h.braceless_field ht hkey hv) (h.unbroken t ht key hkey v hv)
  exact ⟨hstands.name, hstands.markedField, hstands.controlName, hstands.container, htu.value⟩

theorem LeftAs.reference {m : Mask} {t u : StartTag} (h : m.LeftAs t u) :
    u.reference? = t.reference? := by
  rw [StartTag.reference?, StartTag.reference?, h.markedField, h.controlName]

/-! ### The whole mask -/

section Apply

/-- The placeholders of masked regular markup are not hidden. -/
theorem not_mem_hidden_of_placeholder (hps : ∀ p ∈ ps, p.IsRegular) {path : Text}
    (hpath : path ∈ (Template.parse (m.apply strategy (printed ps))).placeholders) :
    path ∉ m.hidden := by
  intro hhidden
  obtain ⟨u, hu, hpath⟩ := Template.mem_placeholders_parse.1 hpath
  obtain ⟨t, -, rfl, -, hkept⟩ := exists_of_mem_tags_apply m strategy hps hu
  rw [Token.path?_settled] at hpath
  rw [Token.isStripped_eq, hpath, Option.any_some, Names.contains_eq_true_iff.2 hhidden] at hkept
  cases hkept

/-- What is free of hidden fields after the cuts stays so. -/
theorem IsFreeOf.of_matches {names : List Text} {kind : StartTag → Bool}
    (hfree : IsFreeOf m.hidden names kind (printed ps)) (hps : ∀ p ∈ ps, p.IsRegular)
    (hqs : ∀ q ∈ qs, q.IsTidy)
    (hmatches : Matches (ChangesTo (settle ∘ strip m.hidden.contains)) ps qs)
    (hleft : ∀ t u, .startTag t ∈ ps → ChangesTo (settle ∘ strip m.hidden.contains) t u →
      m.LeftAs t u)
    (hnames : ∀ name ∈ names, Markup.controlNames.contains name = false)
    (hkind : ∀ t u, m.LeftAs t u → kind u = kind t) :
    IsFreeOf m.hidden names kind (printed qs) := by
  have hpsfit : ∀ p ∈ ps, p.Fits := fun p hp => (hps p hp).fits
  have hqsfit : ∀ q ∈ qs, q.Fits := fun q hq => (hqs q hq).regular.fits
  constructor
  · intro u hu hname hk field hfield
    rw [Markup.startTags_printed qs hqsfit, Markup.mem_startTagsOf] at hu
    obtain ⟨t, ht, htu⟩ := hmatches.exists_startTag hu
    have hleft := hleft t u ht htu
    rw [hleft.name] at hname
    rw [hkind t u hleft] at hk
    rw [hleft.markedField] at hfield
    refine hfree.marks t ?_ hname hk field hfield
    rwa [Markup.startTags_printed ps hpsfit, Markup.mem_startTagsOf]
  · intro v hv hk field hfield
    rw [Markup.visits_printed names (by simp) qs hqsfit] at hv
    obtain ⟨t, inner, inner', hvisit, htv, hinner, hsub, hsub', hmatches'⟩ :=
      hmatches.exists_visit (StartTag.keepsElements_changesTo _) hnames (fun t ht => hpsfit _ ht) hv
    have hleft' := hleft t v.tag (Markup.mem_visitsOf names hvisit).1 htv
    rw [hinner] at hfield
    refine hfree.insides ⟨t, printed inner⟩ ?_ ((hkind t v.tag hleft').symm.trans hk) field
      (hmatches'.referencedFields_subset (fun t u ht htu => (hleft t u (hsub ht) htu).reference)
        (fun p hp => hps p (hsub hp)) (fun q hq => (hqs q (hsub' hq)).regular) hfield)
    rwa [Markup.visits_printed names (by simp) ps hpsfit]

/-- The elements that the cuts leave are free of hidden fields. -/
theorem isFreeOf_of_visits {fields : Names} {names : List Text} {kind : StartTag → Bool}
    (hnested : f.IsNested) (hfits : ∀ p ∈ f.pieces, p.Fits)
    (h : ∀ v ∈ f.visits, names.contains v.tag.name = true → kind v.tag = true →
      carries fields v = false) : IsFreeOf fields names kind f.source := by
  constructor
  · intro t ht hname hk field hfield hmem
    rw [Forest.source, Markup.startTags_printed _ hfits, Markup.mem_startTagsOf,
      ← Forest.mem_tags] at ht
    obtain ⟨v, hv, rfl⟩ := List.mem_map.1 ht
    exact absurd (carries_iff.2 (Or.inl ⟨field, hfield, hmem⟩)) (by simp [h v hv hname hk])
  · intro v hv hk field hfield hmem
    rw [Forest.visits_source names hnested hfits, List.mem_filter] at hv
    exact absurd (carries_iff.2 (Or.inr ⟨field, hfield, hmem⟩)) (by simp [h v hv.1 hv.2 hk])

/-- Nothing of the hidden fields is left in pieces that match those of a forest without an element that
has to go, if no placeholder is. -/
theorem clears_of_matches (hnested : f.IsNested) (hregular : ∀ p ∈ f.pieces, p.IsRegular)
    (hvisits : ∀ v ∈ f.visits, isCutCell m.hidden strategy v = false ∧
      isCutContainer m.hidden strategy v = false ∧ isControlOf m.hidden v = false)
    (hqs : ∀ q ∈ qs, q.IsTidy)
    (hmatches : Matches (ChangesTo (settle ∘ strip m.hidden.contains)) f.pieces qs)
    (hleft : ∀ t u, .startTag t ∈ f.pieces →
      ChangesTo (settle ∘ strip m.hidden.contains) t u → m.LeftAs t u)
    (hpaths : ∀ path ∈ (Template.parse (printed qs)).placeholders, path ∉ m.hidden) :
    m.Clears strategy (printed qs) := by
  have hfree {names : List Text} {kind : StartTag → Bool}
      (hnames : ∀ name ∈ names, Markup.controlNames.contains name = false)
      (hkind : ∀ t u, m.LeftAs t u → kind u = kind t)
      (h : ∀ v ∈ f.visits, names.contains v.tag.name = true → kind v.tag = true →
        carries m.hidden v = false) : IsFreeOf m.hidden names kind (printed qs) :=
    (isFreeOf_of_visits hnested (fun p hp => (hregular p hp).fits) h).of_matches hregular hqs hmatches
      hleft hnames hkind
  refine ⟨hpaths, fun u hu name hname hhidden => ?_, fun hcells => ?_, fun hcontainers => ?_⟩
  · rw [Markup.startTags_printed qs fun q hq => (hqs q hq).regular.fits, Markup.mem_startTagsOf] at hu
    obtain ⟨t, ht, htu⟩ := hmatches.exists_startTag hu
    rw [(hleft t u ht htu).controlName] at hname
    obtain ⟨v, hv, rfl⟩ := List.mem_map.1 (Forest.mem_tags.2 ht)
    exact absurd (isControlOf_iff.2 ⟨name, hname, hhidden⟩) (by simp [(hvisits v hv).2.2])
  · refine hfree (by decide) (fun _ _ _ => rfl) fun v hv hname _ => ?_
    have hcell := (hvisits v hv).1
    rwa [isCutCell, hcells, hname, Bool.true_and, Bool.true_and] at hcell
  · refine hfree (by decide) (fun t u htu => htu.container) fun v hv hname hclass => ?_
    have hcontainer := (hvisits v hv).2.1
    rwa [isCutContainer, isCarryingContainer, hcontainers, hname, hclass, Bool.true_and,
      Bool.true_and, Bool.true_and] at hcontainer

/-- What a mask leaves of a regular forest is cleared, and its start tags are left as they should be. -/
theorem cleared_apply (hf : f.IsRegular) (hnames : f.HasSolidNames) (m : Mask) (strategy : Strategy) :
    m.Clears strategy (m.apply strategy f.source) ∧
      List.Forall₂ m.LeftAs (cutForest m.hidden strategy f).tags
        (startTags (m.apply strategy f.source)) := by
  have hsub : (cutForest m.hidden strategy f).pieces ⊆ f.pieces := pieces_cutForest_subset
  obtain ⟨qs, hqs, hmatches, happly⟩ := exists_matches_apply hf hnames m strategy
  have hleft (t u : StartTag) (ht : .startTag t ∈ (cutForest m.hidden strategy f).pieces)
      (htu : ChangesTo (settle ∘ strip m.hidden.contains) t u) : m.LeftAs t u :=
    leftAs_of_changesTo hf (Forest.mem_tags.2 (hsub ht)) htu
  rw [happly]
  refine ⟨clears_of_matches (isNested_cutForest hf.nested) (fun p hp => hf.regular p (hsub hp))
    (fun v hv => not_isCut_of_mem_visits hf.regular hv) hqs hmatches hleft ?_, ?_⟩
  · rw [← happly]
    exact fun path => not_mem_hidden_of_placeholder hf.regular
  · rw [Markup.startTags_printed qs fun q hq => (hqs q hq).regular.fits]
    have htags := hmatches.startTagsOf
    rw [Forest.startTagsOf_pieces] at htags
    refine ((List.forall₂_and_left _ _).2 ⟨fun t ht => ht, htags⟩).imp fun t u htu => ?_
    exact hleft t u (Forest.mem_tags.1 htu.1) htu.2

/-- **A mask removes what it hides and nothing else.** Of a regular forest without blanks in the names
of attributes nothing is left of the hidden fields, and in a list or a form the start tags that are
left are those of the elements that do not carry one. -/
theorem clears_apply (hf : f.IsRegular) (hnames : f.HasSolidNames) (m : Mask) (strategy : Strategy) :
    m.Clears strategy (m.apply strategy f.source) ∧
      (strategy ≠ .all → List.Forall₂ m.LeftAs (f.prune (removes m.hidden strategy)).tags
        (startTags (m.apply strategy f.source))) := by
  obtain ⟨hclears, hleft⟩ := cleared_apply hf hnames m strategy
  refine ⟨hclears, fun hstrategy => ?_⟩
  rwa [← cutForest_eq_prune hstrategy f]

/-- A tag with braceless values in double quotes is regular where it is read. -/
theorem isRegular_of_braceless {t : StartTag} (hread : StartTag.read? t.source = some (t, []))
    (h : ∀ a ∈ t.attributes, Braceless a.written ∧
      ∀ v ∈ a.assigned, v.quoting = .quoted '"' ∧ Braceless v.value) :
    (Piece.startTag t).IsRegular :=
  ⟨StartTag.legible_of_read? hread, fun a ha => ⟨(h a ha).1, fun v hv => ((h a ha).2 v hv).1,
    fun v hv => .of_braceless ((h a ha).2 v hv).2⟩⟩

/-- So is a void element of its own, with no blanks in the names of its fields. -/
theorem isRegular_single {t : StartTag} (hvoid : t.isVoid = true)
    (hread : StartTag.read? t.source = some (t, []))
    (hquoted : ∀ a ∈ t.attributes, Braceless a.written ∧
      ∀ v ∈ a.assigned, v.quoting = .quoted '"' ∧ Braceless v.value)
    (hbraceless : ∀ key ∈ ["data-field", "name", "class"].map String.toList, ∀ v ∈ t.value? key,
      Braceless v)
    (hunbroken : ∀ key ∈ ["data-field", "name"].map String.toList, ∀ v ∈ t.value? key, ∀ c ∈ v,
      Text.isBlank c = false) : (Forest.single t .nil).IsRegular := by
  refine ⟨⟨hvoid, trivial⟩, fun p hp => ?_, fun u hu => ?_, fun u hu => ?_⟩
  · rw [List.mem_singleton.1 hp]
    exact isRegular_of_braceless hread hquoted
  · rw [List.mem_singleton.1 hu]
    exact hbraceless
  · rw [List.mem_singleton.1 hu]
    exact hunbroken

/-- A row of a table with two cells, one of them with a form control in it. -/
def row : Forest :=
  let quoted (name value : String) : Attribute :=
    ⟨[' '], name.toList, some ⟨[], [], .quoted '"', value.toList⟩⟩
  .element ⟨"tr".toList, [], [], false⟩
    (.element ⟨"td".toList, [quoted "data-field" "h"], [], false⟩ (.text ['1'] .nil) "td".toList
      (.element ⟨"td".toList, [quoted "title" "A  cell"], [], false⟩
        (.text (Token.tag "k".toList).source
          (.single ⟨"input".toList, [quoted "name" "k"], [], true⟩ .nil)) "td".toList .nil))
    "tr".toList .nil

theorem isRegular_row : row.IsRegular := by
  have hread : ∀ t ∈ row.tags, StartTag.read? t.source = some (t, []) := by decide +kernel
  have hbraceless : ∀ t ∈ row.tags, ∀ a ∈ t.attributes, Braceless a.written ∧
      ∀ v ∈ a.assigned, v.quoting = .quoted '"' ∧ Braceless v.value := by decide +kernel
  refine ⟨⟨by decide, by decide, ⟨by decide, by decide, trivial, by decide, by decide,
    ⟨by decide, trivial⟩, trivial⟩, trivial⟩, fun p hp => ?_, by decide +kernel, by decide +kernel⟩
  cases p with
  | startTag t =>
    have ht := Forest.mem_tags.2 hp
    exact isRegular_of_braceless (hread t ht) (hbraceless t ht)
  | text s =>
    have hs : s = ['1'] ∨ s = (Token.tag "k".toList).source := by simpa [row, Forest.pieces] using hp
    rcases hs with rfl | rfl
    · exact ⟨by decide, .of_braceless (by decide)⟩
    · have hclean : (Token.tag "k".toList).Clean := by
        unfold Token.Clean
        decide
      exact ⟨by decide, by simpa using Woven.tag hclean .nil⟩
  | comment s => simp [row, Forest.pieces] at hp
  | endTag s =>
    have hs : s = "td".toList ∨ s = "tr".toList := by simpa [row, Forest.pieces] using hp
    rcases hs with rfl | rfl
    · exact ⟨⟨by decide, by decide⟩, by decide⟩
    · exact ⟨⟨by decide, by decide⟩, by decide⟩
  | stray s => exact absurd hp (row.stray_not_mem_pieces s)

/-- Of the row the cell goes that is marked with the hidden field, and the rest stays. -/
theorem clears_apply_row :
    let m : Mask := ⟨Names.ofList ["h".toList], Names.ofList ["k".toList]⟩
    m.Clears .table (m.apply .table row.source) ∧
      List.Forall₂ m.LeftAs (row.prune (removes m.hidden .table)).tags
        (startTags (m.apply .table row.source)) := by
  intro m
  have hnames : row.HasSolidNames := by
    unfold Forest.HasSolidNames
    decide +kernel
  obtain ⟨hclears, hleft⟩ := clears_apply isRegular_row hnames m .table
  exact ⟨hclears, hleft (by decide)⟩

/-- An input whose attribute has a no-break space in its name, in front of `name`. -/
def brokenInput : StartTag :=
  ⟨"input".toList, [⟨[' '], "x\u00a0name".toList, some ⟨[], [], .quoted '"', "h".toList⟩⟩], [], false⟩

theorem isRegular_brokenInput : (Forest.single brokenInput .nil).IsRegular :=
  isRegular_single (by decide) (by decide +kernel) (by decide +kernel) (by decide +kernel)
    (by decide +kernel)

/-- The name of the input shows when the no-break space is made a space, after the hidden controls
have been taken out. -/
theorem not_clears_apply_of_noBreakSpace :
    let f : Forest := .single brokenInput .nil
    let m : Mask := ⟨Names.ofList ["h".toList], Names.empty⟩
    f.IsRegular ∧ ¬ m.Clears .table (m.apply .table f.source) := by
  intro f m
  refine ⟨isRegular_brokenInput, fun h => ?_⟩
  have hcontrols : ∀ t ∈ startTags (m.apply .table f.source), ∀ name ∈ t.controlName?,
      name ∉ m.hidden := h.controls
  exact absurd hcontrols (by decide +kernel)

end Apply

end Mask

end MaskedViews
