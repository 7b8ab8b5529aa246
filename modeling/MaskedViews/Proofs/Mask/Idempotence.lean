import MaskedViews.Proofs.Markup.NormalForm
import MaskedViews.Proofs.Mask.Removal
import MaskedViews.Proofs.Template.StrippedNodes

/-!
# Masking twice

A mask leaves nothing to do for itself or for a mask of fewer fields: no element carries a hidden
field, every form control of a read-only field has its flags, every container of one has its class,
and the whitespace is normalized (`apply_apply_of_subset`). A plan made of masked markup names only
fields that the plan of the markup names, so masking a second time changes nothing
(`applySnapshot_applySnapshot`).

This is proved of regular forests without blanks in the names of attributes, in which no control that
has its flags already ends loosely. Where a name comes apart when the whitespace is normalized, the
second run finds a field that the first did not know of (`not_idempotent_of_noBreakSpace`). Where a
stray slash stands between blanks at the end of a tag, the first run makes it the slash of `/>`, and
the second takes out the blanks in front of it (`not_idempotent_of_stray_slash`).
-/

namespace MaskedViews

open Markup (Forest Piece Visit printed)

/-! ### Edits that find nothing to do -/

namespace Mask

theorem removeElements_eq_self {names : List Text} {condition : Visit → Bool} {html : Text}
    (h : ∀ v ∈ Markup.visits names (fun _ => .keep) html, condition v = false) :
    removeElements names condition html = html := by
  refine Markup.editElements_eq_self fun v hv => Or.inl ?_
  rw [h v hv]
  rfl

/-! ### Hiding again -/

section Hiding

variable {m m' : Mask} {strategy : Strategy} {html : Text}

theorem IsFreeOf.mono {fields fields' : Names} {names : List Text} {kind : StartTag → Bool}
    (h : IsFreeOf fields names kind html) (hsub : ∀ field ∈ fields', field ∈ fields) :
    IsFreeOf fields' names kind html :=
  ⟨fun t ht hname hkind field hfield hmem => h.marks t ht hname hkind field hfield (hsub field hmem),
    fun v hv hkind field hfield hmem => h.insides v hv hkind field hfield (hsub field hmem)⟩

theorem Clears.mono (h : m.Clears strategy html) (hsub : ∀ field ∈ m'.hidden, field ∈ m.hidden) :
    m'.Clears strategy html :=
  ⟨fun path hpath hmem => h.placeholders path hpath (hsub path hmem),
    fun t ht name hname hmem => h.controls t ht name hname (hsub name hmem),
    fun hcells => (h.cells hcells).mono hsub, fun hcontainers => (h.containers hcontainers).mono hsub⟩

theorem IsFreeOf.carries_eq_false {fields : Names} {names : List Text} {kind : StartTag → Bool}
    (h : IsFreeOf fields names kind html) {v : Visit}
    (hv : v ∈ Markup.visits names (fun _ => .keep) html) (hkind : kind v.tag = true) :
    carries fields v = false := by
  rw [← Bool.not_eq_true, carries_iff]
  rintro (⟨field, hmarked, hfield⟩ | ⟨field, hreferenced, hfield⟩)
  · obtain ⟨htag, hname⟩ := Markup.mem_startTags_of_mem_visits hv
    exact h.marks v.tag htag hname hkind field hmarked hfield
  · exact h.insides v hv hkind field hreferenced hfield

/-- **Where nothing is left of the hidden fields, hiding changes nothing.** -/
theorem hide_eq_self (h : m.Clears strategy html) : hide m.hidden strategy html = html := by
  have hcells : (if strategy.hasCells then removeCells m.hidden html else html) = html := by
    split
    · next hc => exact removeElements_eq_self fun v hv => (h.cells hc).carries_eq_false hv rfl
    · rfl
  have hcontainers :
      (if strategy.hasContainers then removeContainers m.hidden html else html) = html := by
    split
    · next hc =>
      refine removeElements_eq_self fun v hv => ?_
      cases hclass : v.tag.hasClass Markup.containerClass with
      | true => rw [isCarryingContainer, (h.containers hc).carries_eq_false hv hclass, Bool.and_false]
      | false => rw [isCarryingContainer, hclass, Bool.false_and]
    · rfl
  have hcontrols : removeControls m.hidden html = html := by
    refine removeElements_eq_self fun v hv => ?_
    rw [← Bool.not_eq_true, isControlOf_iff]
    rintro ⟨name, hname, hfield⟩
    exact h.controls v.tag (Markup.mem_startTags_of_mem_visits hv).1 name hname hfield
  have hplaceholders : removePlaceholders m.hidden html = html := by
    refine Token.strip_eq_self fun t ht => ?_
    rw [Token.isStripped_eq, ← Bool.not_eq_true, Option.any_eq_true]
    rintro ⟨path, hpath, hfield⟩
    exact h.placeholders path (Template.mem_placeholders_parse.2 ⟨t, ht, hpath⟩)
      (Names.contains_eq_true_iff.1 hfield)
  rw [hide]
  split
  · rfl
  · dsimp only
    rw [hcells, hcontainers, hcontrols, hplaceholders]

end Hiding

end Mask

/-! ### Names without blanks -/

namespace StartTag

variable {t u : StartTag}

/-- Whether there are no blanks in the names of the fields of a tag. -/
def IsUnbroken (t : StartTag) : Prop :=
  ∀ key ∈ fieldKeys, ∀ v ∈ t.value? key, ∀ c ∈ v, Text.isBlank c = false

theorem IsUnbroken.of_standsIn (ht : t.IsUnbroken) (h : t.StandsIn u) : u.IsUnbroken := by
  intro key hkey v hv
  rw [h.field key hkey] at hv
  exact ht key hkey v hv

/-- Names without blanks are settled. -/
theorem IsUnbroken.standsIn_settled (h : t.IsUnbroken) : t.StandsIn t.settled :=
  (changesTo_settled t).standsIn fun key hkey v hv => Markup.settle_of_not_isBlank (h key hkey v hv)

end StartTag

namespace Mask

variable {fields : Names} {strategy : Strategy} {ps : List Piece}

/-- Normalizing whitespace leaves secured fields secured, if there are no blanks in their names. -/
theorem exists_secured_normalized (h : ∀ p ∈ ps, p.IsTidy)
    (hunbroken : ∀ t, .startTag t ∈ ps → t.IsUnbroken) (hsecured : Secured fields strategy ps) :
    ∃ qs, (∀ q ∈ qs, q.IsTidy) ∧ Secured fields strategy qs ∧
      Markup.normalizeWhitespace (printed ps) = printed qs := by
  obtain ⟨qs, hqs, hnormal, hmatches⟩ := Markup.exists_normalized_matches h
  refine ⟨qs, hqs, ⟨fun u hu hcontrol => ?_, fun hc v hv hcarries => ?_⟩, hnormal.symm⟩
  · obtain ⟨t, ht, rfl⟩ := hmatches.exists_startTag hu
    have hstands := (hunbroken t ht).standsIn_settled
    rw [hstands.controlName] at hcontrol
    rw [disablingFlags_eq hstands.name]
    exact (hsecured.controls t ht hcontrol).settled
  · obtain ⟨t, inner, inner', hvisit, htag, hinner, hsub, hsub', hmatches⟩ :=
      hmatches.exists_visit (fun t u htu => by rw [htu]; exact ⟨rfl, fun _ => rfl⟩) (by decide)
        (fun t ht => (h _ ht).legible) hv
    have hstands := (hunbroken t (Markup.mem_visitsOf _ hvisit).1).standsIn_settled
    rw [← htag] at hstands
    rw [htag, StartTag.hasClass_settled (by decide) (by decide)]
    refine hsecured.containers hc _ hvisit (isCarryingContainer_of_standsIn hstands ?_ hcarries)
    rw [hinner]
    exact hmatches.referencedFields_subset
      (fun t u ht htu => by rw [htu, (hunbroken t (hsub ht)).standsIn_settled.reference])
      (fun p hp => (h p (hsub hp)).regular) fun q hq => (hqs q (hsub' hq)).regular

/-! ### The whole mask -/

section Apply

variable {f : Forest} {m m' : Mask}

/-- **What a mask leaves of a regular forest is secured.** -/
theorem exists_secured_apply (hf : f.IsRegular) (hnames : f.HasSolidNames) (strategy : Strategy)
    (hends : ∀ t ∈ f.tags, EndsFirmly m.readonly t) :
    ∃ qs, (∀ q ∈ qs, q.IsTidy) ∧ Secured m.readonly strategy qs ∧
      m.apply strategy f.source = printed qs := by
  obtain ⟨qs, hqs, hmatches, happly, hsecured⟩ := exists_matches_hidden hf hnames m strategy
  have hunbroken : ∀ u, .startTag u ∈ qs → u.IsUnbroken := by
    intro u hu
    obtain ⟨t, ht, htu⟩ := hmatches.exists_startTag hu
    have ht := Forest.mem_tags.2 (pieces_cutForest_subset ht)
    have hunbroken : t.IsUnbroken := hf.unbroken t ht
    exact hunbroken.of_standsIn (standsIn_of_strip hf ht htu)
  obtain ⟨rs, hrs, hsecured, hnormal⟩ := exists_secured_normalized hqs hunbroken (hsecured hends)
  exact ⟨rs, hrs, hsecured, happly.trans hnormal⟩

/-- **A mask of fewer fields leaves masked markup as it is.** -/
theorem apply_apply_of_subset (hf : f.IsRegular) (hnames : f.HasSolidNames) (strategy : Strategy)
    (hends : ∀ t ∈ f.tags, EndsFirmly m.readonly t)
    (hhidden : ∀ field ∈ m'.hidden, field ∈ m.hidden)
    (hreadonly : ∀ field ∈ m'.readonly, field ∈ m.readonly) :
    m'.apply strategy (m.apply strategy f.source) = m.apply strategy f.source := by
  have hclears := (cleared_apply hf hnames m strategy).1.mono hhidden
  obtain ⟨qs, hqs, hsecured, heq⟩ := exists_secured_apply hf hnames strategy hends
  have hprotect := protect_eq_self (hsecured.mono hreadonly) hqs
  rw [← heq] at hprotect
  have hnormal : Markup.normalizeWhitespace (m.apply strategy f.source) = m.apply strategy f.source :=
    Markup.normalizeWhitespace_normalizeWhitespace _
  calc m'.apply strategy (m.apply strategy f.source)
      = Markup.normalizeWhitespace
          (protect m'.readonly strategy (hide m'.hidden strategy (m.apply strategy f.source))) := rfl
    _ = Markup.normalizeWhitespace (protect m'.readonly strategy (m.apply strategy f.source)) := by
        rw [hide_eq_self hclears]
    _ = Markup.normalizeWhitespace (m.apply strategy f.source) := by rw [hprotect]
    _ = m.apply strategy f.source := hnormal

/-- Masked markup refers to no field that the markup did not refer to. -/
theorem referencedFields_apply_subset (hf : f.IsRegular) (hnames : f.HasSolidNames) (m : Mask)
    (strategy : Strategy) :
    Markup.referencedFields (m.apply strategy f.source) ⊆ Markup.referencedFields f.source := by
  have hsub : (cutForest m.hidden strategy f).pieces ⊆ f.pieces := pieces_cutForest_subset
  obtain ⟨qs, hqs, hmatches, happly⟩ := exists_matches_apply hf hnames m strategy
  have hleft := hmatches.referencedFields_subset
    (fun t u ht htu => (leftAs_of_changesTo hf (Forest.mem_tags.2 (hsub ht)) htu).reference)
    (fun p hp => hf.regular p (hsub hp)) fun q hq => (hqs q hq).regular
  rw [happly]
  exact List.Subset.trans hleft (Markup.referencedFields_subset hf.regular hsub)

/-- A plan of markup that refers to fewer fields names fewer. -/
theorem plan_mono {markup markup' : Text}
    (h : Markup.referencedFields markup' ⊆ Markup.referencedFields markup) (s : Snapshot) :
    (∀ field ∈ (plan markup' s).hidden, field ∈ (plan markup s).hidden) ∧
      ∀ field ∈ (plan markup' s).readonly, field ∈ (plan markup s).readonly := by
  refine ⟨fun field hfield => ?_, fun field hfield => ?_⟩
  · rw [mem_hidden_plan] at hfield ⊢
    exact hfield.imp_left fun hmem => h hmem
  · rw [mem_readonly_plan] at hfield ⊢
    exact hfield.imp_left fun hmem => h hmem

end Apply

end Mask

/-- **Masking twice is masking once**, on a regular forest without blanks in the names of attributes in
which no control of a read-only field that has its flags ends loosely. -/
theorem applySnapshot_applySnapshot {f : Forest} (hf : f.IsRegular) (hnames : f.HasSolidNames)
    {s : Snapshot} (hends : ∀ t ∈ f.tags, Mask.EndsFirmly (Mask.plan f.source s).readonly t)
    (view : View) :
    applySnapshot (applySnapshot f.source s view) s view = applySnapshot f.source s view := by
  have hsub := Mask.referencedFields_apply_subset hf hnames (Mask.plan f.source s)
    (Strategy.ofView view)
  obtain ⟨hhidden, hreadonly⟩ := Mask.plan_mono hsub s
  exact Mask.apply_apply_of_subset hf hnames (Strategy.ofView view) hends hhidden hreadonly

/-- In the row one field is hidden and the other one read-only; a second run changes nothing. -/
theorem applySnapshot_applySnapshot_row :
    let s := Snapshot.ofSets ["k".toList] []
    applySnapshot (applySnapshot Mask.row.source s .list) s .list =
      applySnapshot Mask.row.source s .list := by
  intro s
  have hnames : Mask.row.HasSolidNames := by
    unfold Forest.HasSolidNames
    decide +kernel
  have hends : ∀ t ∈ Mask.row.tags, Mask.EndsFirmly (Mask.plan Mask.row.source s).readonly t := by
    decide +kernel
  exact applySnapshot_applySnapshot Mask.isRegular_row hnames hends .list

/-- The first run knows of no field. It makes the no-break space a space, so that the second one finds
an input of a hidden field and takes it out. -/
theorem not_idempotent_of_noBreakSpace :
    let f : Forest := .single Mask.brokenInput .nil
    let s := Snapshot.ofSets [] []
    f.IsRegular ∧ (∀ t ∈ f.tags, (t.attributes.map Attribute.name).Nodup) ∧
      applySnapshot (applySnapshot f.source s .list) s .list ≠ applySnapshot f.source s .list :=
  ⟨Mask.isRegular_brokenInput, by decide +kernel, by decide +kernel⟩

/-- An input with its flags, and a slash between blanks at its end. -/
def slashedInput : StartTag :=
  ⟨"input".toList, [⟨[' '], "name".toList, some ⟨[], [], .quoted '"', "x".toList⟩⟩,
    ⟨[' '], "disabled".toList, none⟩, ⟨[' '], "readonly".toList, none⟩], " / ".toList, false⟩

/-- The first run leaves the slash right in front of `>`, the second takes out the blank in front of
`/>`. -/
theorem not_idempotent_of_stray_slash :
    let f : Forest := .single slashedInput .nil
    let s := Snapshot.ofSets ["x".toList] []
    f.IsRegular ∧ f.HasSolidNames ∧ (∀ t ∈ f.tags, (t.attributes.map Attribute.name).Nodup) ∧
      applySnapshot (applySnapshot f.source s .list) s .list ≠ applySnapshot f.source s .list := by
  intro f s
  have hregular : f.IsRegular := Mask.isRegular_single (by decide) (by decide +kernel)
    (by decide +kernel) (by decide +kernel) (by decide +kernel)
  have hnames : f.HasSolidNames := by
    unfold Forest.HasSolidNames
    decide +kernel
  exact ⟨hregular, hnames, by decide +kernel, by decide +kernel⟩

end MaskedViews
