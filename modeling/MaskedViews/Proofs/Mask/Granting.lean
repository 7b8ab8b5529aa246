import MaskedViews.Proofs.Mask.Idempotence

/-!
# Granting visibility

A field that becomes visible moves from the hidden to the read-only fields, so a mask has less to take
out and may have more to disable. What it took out no longer is a part of what it took out before, and
disabling changes no name and no placeholder. So of a regular forest each placeholder and each name of a
form control that was left is left again (`applySnapshot_mono`).

The names are those of the forest only if there are no blanks in the names of attributes. Where such a
name comes apart when the whitespace is normalized, the value behind it shows as the name of a control,
with the placeholders in it that are not hidden: one more of these makes it another name
(`not_applySnapshot_mono_of_noBreakSpace`).
-/

namespace MaskedViews

open Markup (Forest Matches Piece Visit printed startTags)
open StartTag (ChangesTo)
open Token (Braceless Woven tags)

/-! ### Forests with plain names -/

namespace Markup

/-- A forest that is a regular template, with plain texts for the names of fields. -/
structure Forest.HasPlainFields (f : Forest) : Prop where
  /-- Its elements end. -/
  nested : f.IsNested
  /-- Its pieces are regular. -/
  regular : ∀ p ∈ f.pieces, p.IsRegular
  /-- There are no template tags in the names of fields. -/
  braceless : ∀ t ∈ f.tags, ∀ key ∈ StartTag.fieldKeys, ∀ v ∈ t.value? key, Braceless v
  /-- There are no blanks in the names of fields. -/
  unbroken : ∀ t ∈ f.tags, t.IsUnbroken

theorem Forest.IsRegular.hasPlainFields {f : Forest} (h : f.IsRegular) : f.HasPlainFields :=
  ⟨h.nested, h.regular, fun _ ht _ hkey _ hv => h.braceless_field ht hkey hv, h.unbroken⟩

/-- The names of the form controls of markup, in order. -/
def controlNamesIn (markup : Text) : List Text := (startTags markup).filterMap StartTag.controlName?

end Markup

namespace Mask

/-! ### What is left -/

variable {f : Forest} {m : Mask} {strategy : Strategy}

/-- The placeholders of a masked forest are those that the cuts leave and that are not hidden. -/
theorem mem_placeholders_apply_iff (hf : f.HasPlainFields) {path : Text} :
    path ∈ (Template.parse (m.apply strategy f.source)).placeholders ↔
      path ∉ m.hidden ∧ ∃ p ∈ (cutForest m.hidden strategy f).pieces, path ∈ Token.paths p.source := by
  have hsub : (cutForest m.hidden strategy f).pieces ⊆ f.pieces := pieces_cutForest_subset
  have hregular : ∀ p ∈ (cutForest m.hidden strategy f).pieces, p.IsRegular :=
    fun p hp => hf.regular p (hsub hp)
  have hcut := cut_source m.hidden strategy hf.nested fun p hp => (hf.regular p hp).fits
  rw [Template.mem_placeholders_parse, Forest.source, tags_apply_of_cut m strategy hregular hcut,
    Markup.tags_printed hregular]
  simp only [List.mem_map, List.mem_filter, List.mem_flatMap, Token.paths, List.mem_filterMap]
  constructor
  · rintro ⟨u, ⟨t, ⟨⟨p, hp, ht⟩, hkept⟩, rfl⟩, hpath⟩
    rw [Token.path?_settled] at hpath
    rw [Token.isStripped_eq, hpath, Option.any_some, Bool.not_eq_true',
      ← Bool.not_eq_true, Names.contains_eq_true_iff] at hkept
    exact ⟨hkept, p, hp, t, ht, hpath⟩
  · rintro ⟨hkept, p, hp, t, ht, hpath⟩
    refine ⟨t.settled, ⟨t, ⟨⟨p, hp, ht⟩, ?_⟩, rfl⟩, by rwa [Token.path?_settled]⟩
    rwa [Token.isStripped_eq, hpath, Option.any_some, Bool.not_eq_true', ← Bool.not_eq_true,
      Names.contains_eq_true_iff]

/-- A tag of an element of the same name that names the same fields. -/
structure NamesAs (t u : StartTag) : Prop where
  /-- It begins an element of the same name. -/
  name : u.name = t.name
  /-- It names the same fields. -/
  field : ∀ key ∈ StartTag.fieldKeys, u.value? key = t.value? key

theorem namesAs_of_standsIn {t u : StartTag} (h : t.StandsIn u) : NamesAs t u := ⟨h.name, h.field⟩

namespace NamesAs

variable {t u w : StartTag}

theorem trans (h : NamesAs t u) (h' : NamesAs u w) : NamesAs t w :=
  ⟨h'.name.trans h.name, fun key hkey => (h'.field key hkey).trans (h.field key hkey)⟩

theorem controlName (h : NamesAs t u) : u.controlName? = t.controlName? := by
  rw [StartTag.controlName?, StartTag.controlName?, h.name, h.field _ (by decide)]

theorem isUnbroken (h : NamesAs t u) (ht : t.IsUnbroken) : u.IsUnbroken := by
  intro key hkey v hv
  rw [h.field key hkey] at hv
  exact ht key hkey v hv

end NamesAs

/-- Stripping leaves plain names of fields as they are. -/
theorem namesAs_stripped (hf : f.HasPlainFields) {t : StartTag} (ht : t ∈ f.tags)
    (remove : Text → Bool) : NamesAs t (t.stripped remove) := by
  refine ⟨rfl, fun key hkey => ?_⟩
  rw [StartTag.value?_stripped]
  cases hv : t.value? key with
  | none => rfl
  | some v =>
    rw [Option.map_some, Token.strip_of_braceless (hf.braceless t ht key hkey v hv)]

/-- **The form controls of a masked forest** have the names that the cuts leave. -/
theorem controlNamesIn_apply (hf : f.HasPlainFields) (hnames : f.HasSolidNames) :
    Markup.controlNamesIn (m.apply strategy f.source) =
      (cutForest m.hidden strategy f).tags.filterMap StartTag.controlName? := by
  have hsub : (cutForest m.hidden strategy f).pieces ⊆ f.pieces := pieces_cutForest_subset
  have hstripped := Markup.matches_stripped (R := fun t u => t.IsUnbroken ∧ NamesAs t u)
    (fun p hp => hf.regular p (hsub hp)) fun t ht => by
    have ht := Forest.mem_tags.2 (hsub ht)
    exact ⟨hf.unbroken t ht, namesAs_stripped hf ht m.hidden.contains⟩
  obtain ⟨qs, hqs, hprotected, happly, -⟩ :=
    exists_matches_stripped hf.nested hf.regular hnames m strategy
  obtain ⟨rs, hrs, hnormal, hsettled⟩ := Markup.exists_normalized_matches hqs
  have hnamed : Matches (fun t u => t.IsUnbroken ∧ NamesAs t u)
      (cutForest m.hidden strategy f).pieces qs :=
    hstripped.trans (fun t u w ht huw => ⟨ht.1, ht.2.trans (namesAs_of_standsIn huw.standsIn_id)⟩)
      hprotected
  -- names without blanks stay when whitespace is normalized
  have hcontrols : Matches (fun t u => u.controlName? = t.controlName?)
      (cutForest m.hidden strategy f).pieces rs :=
    hnamed.trans (fun t u w ht huw => by
      rw [huw, (ht.2.isUnbroken ht.1).standsIn_settled.controlName, ht.2.controlName]) hsettled
  have hmap : (cutForest m.hidden strategy f).tags.map StartTag.controlName? =
      (Markup.startTagsOf rs).map StartTag.controlName? := by
    have htags := hcontrols.startTagsOf
    rw [Forest.startTagsOf_pieces] at htags
    rw [← List.forall₂_eq_eq_eq, List.forall₂_map_left_iff, List.forall₂_map_right_iff]
    exact htags.imp fun _ _ h => h.symm
  rw [Markup.controlNamesIn, happly, ← hnormal,
    Markup.startTags_printed rs fun r hr => (hrs r hr).regular.fits]
  simpa only [List.filterMap_map, Function.id_comp] using (congrArg (List.filterMap id) hmap).symm

end Mask

/-! ### Two snapshots -/

theorem Snapshot.isVisible_mono {s s' : Snapshot} (h : ∀ field ∈ s.visible, field ∈ s'.visible)
    {path : Text} (hpath : s.isVisible path = true) : s'.isVisible path = true := by
  rw [isVisible, Names.covers_iff] at hpath ⊢
  exact hpath.imp (h path) (h _)

/-- A snapshot that shows more hides less. -/
theorem Mask.hidden_plan_mono {s s' : Snapshot} (hvisible : ∀ field ∈ s.visible, field ∈ s'.visible)
    (hdefined : s.defined = s'.defined) (markup : Text) :
    ∀ field ∈ (plan markup s').hidden, field ∈ (plan markup s).hidden := by
  intro field hfield
  rw [mem_hidden_plan] at hfield ⊢
  obtain ⟨hreferenced, hgoverns, hhidden⟩ := hfield
  refine ⟨hreferenced, by rwa [Snapshot.governs, hdefined], ?_⟩
  rw [← Bool.not_eq_true] at hhidden ⊢
  exact fun h => hhidden (Snapshot.isVisible_mono hvisible h)

theorem Strategy.ofView_ne_all (view : View) : Strategy.ofView view ≠ .all := by
  cases view <;> decide

/-- **Granting visibility takes nothing away.** If a snapshot shows what another one shows and decides
about the same fields, then what it leaves of a regular forest has the placeholders that the other one
leaves; and so it is with the names of form controls, in their order, if there are no blanks in the
names of attributes. -/
theorem applySnapshot_mono {f : Forest} (hf : f.HasPlainFields) {s s' : Snapshot}
    (hvisible : ∀ field ∈ s.visible, field ∈ s'.visible) (hdefined : s.defined = s'.defined)
    (view : View) :
    (Template.parse (applySnapshot f.source s view)).placeholders ⊆
        (Template.parse (applySnapshot f.source s' view)).placeholders ∧
      (f.HasSolidNames → (Markup.controlNamesIn (applySnapshot f.source s view)).Sublist
        (Markup.controlNamesIn (applySnapshot f.source s' view))) := by
  have hhidden := Mask.hidden_plan_mono hvisible hdefined f.source
  have hleft := Mask.sublist_cutForest hhidden (Strategy.ofView_ne_all view) f
  refine ⟨fun path hpath => ?_, fun hnames => ?_⟩
  · rw [applySnapshot, Mask.mem_placeholders_apply_iff hf] at hpath ⊢
    obtain ⟨hkept, p, hp, hpaths⟩ := hpath
    exact ⟨fun h => hkept (hhidden path h), p, hleft.subset hp, hpaths⟩
  · rw [applySnapshot, applySnapshot, Mask.controlNamesIn_apply hf hnames,
      Mask.controlNamesIn_apply hf hnames, ← Forest.startTagsOf_pieces, ← Forest.startTagsOf_pieces]
    exact (hleft.filterMap _).filterMap _

/-- In the row a cell appears when its field becomes visible; the other cell and the input in it stay. -/
theorem applySnapshot_mono_row :
    let s := Snapshot.ofSets ["k".toList] []
    let s' := Snapshot.ofSets ["h".toList, "k".toList] []
    (Template.parse (applySnapshot Mask.row.source s .list)).placeholders ⊆
        (Template.parse (applySnapshot Mask.row.source s' .list)).placeholders ∧
      (Markup.controlNamesIn (applySnapshot Mask.row.source s .list)).Sublist
        (Markup.controlNamesIn (applySnapshot Mask.row.source s' .list)) := by
  intro s s'
  have hnames : Mask.row.HasSolidNames := by
    unfold Forest.HasSolidNames
    decide +kernel
  have hvisible : ∀ field ∈ s.visible.toList, field ∈ s'.visible.toList := by decide +kernel
  obtain ⟨hplaceholders, hcontrols⟩ :=
    applySnapshot_mono Mask.isRegular_row.hasPlainFields hvisible rfl .list
  exact ⟨hplaceholders, hcontrols hnames⟩

/-- An input whose attribute has a no-break space in its name, in front of `name`, and a placeholder in
its value. -/
def tornInput : StartTag :=
  ⟨"input".toList, [⟨[' '], "x\u00a0name".toList,
    some ⟨[], [], .quoted '"', 'v' :: (Token.tag "h".toList).source⟩⟩], [], false⟩

theorem hasPlainFields_tornInput : (Forest.single tornInput .nil).HasPlainFields := by
  have hregular : (Piece.startTag tornInput).IsRegular := by
    have hread : StartTag.read? tornInput.source = some (tornInput, []) := by decide +kernel
    have hclean : (Token.tag "h".toList).Clean := by
      unfold Token.Clean
      decide
    have hvalue : Woven ('v' :: (Token.tag "h".toList).source) :=
      .char (by decide) (by simpa using Woven.tag hclean .nil)
    refine ⟨StartTag.legible_of_read? hread, fun a ha => ?_⟩
    obtain rfl := List.mem_singleton.1 ha
    refine ⟨by decide +kernel, fun v hv => ?_, fun v hv => ?_⟩
    · rw [← Option.some.inj hv]
    · rw [← Option.some.inj hv]
      exact hvalue
  refine ⟨⟨by decide, trivial⟩, fun p hp => ?_, fun t ht => ?_, fun t ht => ?_⟩
  · rwa [List.mem_singleton.1 hp]
  · rw [List.mem_singleton.1 ht]
    decide +kernel
  · rw [List.mem_singleton.1 ht]
    unfold StartTag.IsUnbroken
    decide +kernel

/-- While the field is hidden the value behind the no-break space is stripped, and shows as the name of
the input when the no-break space is made a space. When the field is shown the placeholder stays, and
that name is gone. -/
theorem not_applySnapshot_mono_of_noBreakSpace :
    let f : Forest := .single tornInput .nil
    let s := Snapshot.ofSets [] []
    let s' := Snapshot.ofSets ["h".toList] []
    f.HasPlainFields ∧ (∀ field ∈ s.visible.toList, field ∈ s'.visible.toList) ∧
      s.editable = s'.editable ∧ s.defined = s'.defined ∧
      "v".toList ∈ Markup.controlNamesIn (applySnapshot f.source s .list) ∧
      "v".toList ∉ Markup.controlNamesIn (applySnapshot f.source s' .list) :=
  ⟨hasPlainFields_tornInput, by decide +kernel, rfl, rfl, by decide +kernel, by decide +kernel⟩

end MaskedViews
