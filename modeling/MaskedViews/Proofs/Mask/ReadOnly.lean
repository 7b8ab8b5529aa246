import MaskedViews.Mask.Basic
import MaskedViews.Proofs.Markup.PlainClasses
import MaskedViews.Proofs.Markup.SettledPieces

/-!
# Form controls of read-only fields

A form control of a read-only field is to have its flags in masked markup. The flags are written into
the tag and the markup is settled after that, so whether they are there is only seen when it is read
again. On plain markup a control has them exactly if it is named by the field before its name is
settled and does not end in `=`, or had them all along (`enforces_apply_iff`).
-/

namespace MaskedViews

open Markup (Piece printed settle)

namespace Markup

/-- A plain piece is found where it stands. -/
theorem Piece.IsPlain.fits {p : Piece} (h : p.IsPlain) : p.Fits := by
  cases p with
  | text s => exact h
  | comment s => exact h
  | startTag t => exact h.1
  | endTag s => exact h
  | stray s =>
    obtain ⟨hlt, x, r, rfl, hshut⟩ := h
    exact ⟨hlt, hshut.1.append r⟩

theorem fits_of_isPlain {ps : List Piece} (h : ∀ p ∈ ps, p.IsPlain) : ∀ p ∈ ps, p.Fits :=
  fun p hp => (h p hp).fits

/-- The tags of elements are those of the pieces that an editor is asked about. -/
theorem elements_printed (names : List Text) {ps : List Piece} (h : ∀ p ∈ ps, p.Fits) :
    elements names (printed ps) = (visitsOf names ps).map Visit.tag := by
  have hkeep : ∀ v : Visit, (fun _ : Visit => Edit.keep) v ≠ .remove := by simp
  rw [← tags_visits names hkeep, visits_printed names hkeep ps h]

end Markup

namespace Mask

/-- A mask is enforced in markup if every form control with the name of a field that is read-only and
not hidden has its flags. -/
def Enforces (m : Mask) (html : Text) : Prop :=
  ∀ t ∈ Markup.elements Markup.controlNames html, ∀ name ∈ t.controlName?,
    name ∈ m.readonly → name ∉ m.hidden → ∀ flag ∈ disablingFlags t, t.hasAttribute flag = true

instance (m : Mask) (html : Text) : Decidable (m.Enforces html) := by
  unfold Enforces
  infer_instance

/-- Pieces whose form controls can take flags: plain ones, in which the end of a control that gets
flags is kept apart from what is in front of it. -/
structure IsPlain (fields : Names) (ps : List Piece) : Prop where
  /-- Each piece is plain. -/
  plain : ∀ p ∈ ps, p.IsPlain
  /-- The controls of the fields keep their ends. -/
  ends : ∀ t, .startTag t ∈ ps → ∀ name ∈ t.controlName?, name ∈ fields →
    t.KeepsEnd (disablingFlags t)

/-! ### What becomes of a control -/

theorem isWord_disablingFlags (t : StartTag) : ∀ flag ∈ disablingFlags t, StartTag.IsWord flag :=
  forall_mem_disablingFlags ⟨by decide, by decide⟩ ⟨by decide, by decide⟩ t

theorem lower_disablingFlags (t : StartTag) : ∀ flag ∈ disablingFlags t, Text.lower flag = flag :=
  forall_mem_disablingFlags (by decide) (by decide) t

theorem nodup_disablingFlags (t : StartTag) : (disablingFlags t).Nodup := by
  unfold disablingFlags
  split
  · decide
  · decide

theorem name_not_mem_disablingFlags (t : StartTag) : "name".toList ∉ disablingFlags t :=
  fun hname => forall_mem_disablingFlags (P := (· ≠ "name".toList)) (by decide) (by decide) t _ hname rfl

/-- What the edits leave of a control: its element, its name, and the flags that it had or got. -/
structure Disabled (fields : Names) (t u : StartTag) : Prop where
  /-- It is a plain tag. -/
  plain : (Piece.startTag u).IsPlain
  /-- It is the control that it was. -/
  name : u.name = t.name
  /-- It ends as it did. -/
  selfClosing : u.selfClosing = t.selfClosing
  /-- It is the control of the field that it was. -/
  controlName : u.controlName? = t.controlName?
  /-- It has its flags if it took them or had them. -/
  flags : (∀ flag ∈ disablingFlags t, u.hasAttribute flag = true) ↔
    ((∃ name ∈ t.controlName?, name ∈ fields) ∧ t.isOpen = false) ∨
      ∀ flag ∈ disablingFlags t, t.hasAttribute flag = true

theorem isControlOf_iff {fields : Names} {v : Markup.Visit} :
    isControlOf fields v = true ↔ ∃ name ∈ v.tag.controlName?, name ∈ fields := by
  simp [isControlOf, Option.any_eq_true, Names.contains]

/-- A control that is left alone is what it was. -/
theorem Disabled.refl {fields : Names} {t : StartTag} (ht : (Piece.startTag t).IsPlain)
    (h : ¬∃ name ∈ t.controlName?, name ∈ fields) : Disabled fields t t :=
  ⟨ht, rfl, rfl, rfl, by rw [or_iff_right fun hcontrol => h hcontrol.1]⟩

/-- A control of a field gets the flags that it does not have. -/
theorem exists_disabled {fields : Names} {t : StartTag} (ht : (Piece.startTag t).IsPlain)
    (hend : t.KeepsEnd (disablingFlags t)) (hnil : [] ∉ fields)
    (h : ∃ name ∈ t.controlName?, name ∈ fields) :
    ∃ u, Disabled fields t u ∧ u.source = t.withFlags (disablingFlags t) := by
  obtain ⟨u, hu, hplain, hname, hclosing, hsource, hflags, hvalue⟩ :=
    StartTag.exists_flagged_plain ht.1 ht.2 hend (isWord_disablingFlags t) (lower_disablingFlags t)
      (nodup_disablingFlags t)
  refine ⟨u, ⟨⟨hu, hplain⟩, hname, hclosing, ?_, by simp only [hflags, h, true_and]⟩, hsource⟩
  obtain ⟨name, hcontrol, hfield⟩ := h
  rw [Option.mem_def, StartTag.controlName?] at hcontrol
  rw [StartTag.controlName?, StartTag.controlName?, hname]
  split at hcontrol
  · next hc =>
    rw [if_pos hc, if_pos hc]
    refine hvalue _ (name_not_mem_disablingFlags t) fun hempty => ?_
    -- no field has the empty name
    rw [hempty, Option.some.injEq] at hcontrol
    rw [← hcontrol] at hfield
    exact hnil hfield
  · cases hcontrol

/-! ### The edits on pieces -/

/-- Disabling controls changes the start tags of these. -/
theorem exists_pieces_of_disableControls {fields : Names} {ps : List Piece} (h : IsPlain fields ps)
    (hnil : [] ∉ fields) :
    ∃ (qs : List Piece) (change : Markup.Visit → StartTag), (∀ q ∈ qs, q.IsPlain) ∧
      disableControls fields (printed ps) = printed qs ∧
      (∀ v ∈ Markup.visitsOf Markup.controlNames ps, Disabled fields v.tag (change v)) ∧
      (Markup.visitsOf Markup.controlNames qs).map Markup.Visit.tag =
        (Markup.visitsOf Markup.controlNames ps).map change := by
  obtain ⟨change, hchange, heq⟩ := Markup.exists_retag Markup.controlNames (isControlOf fields)
    (fun t => t.withFlags (disablingFlags t)) (R := Disabled fields) (Markup.fits_of_isPlain h.plain)
    (fun v hv hcontrol => by
      obtain ⟨name, hname, hfield⟩ := isControlOf_iff.1 hcontrol
      have hmem := (Markup.mem_visitsOf _ hv).1
      exact exists_disabled (h.plain _ hmem) (h.ends _ hmem name hname hfield) hnil
        ⟨name, hname, hfield⟩)
    fun v hv hcontrol => by
      rw [← Bool.not_eq_true, isControlOf_iff] at hcontrol
      exact .refl (h.plain _ (Markup.mem_visitsOf _ hv).1) hcontrol
  refine ⟨Markup.retag Markup.controlNames change ps, change, fun q hq => ?_, heq, hchange, ?_⟩
  · rcases Markup.mem_retag _ hq with hq | ⟨v, hv, rfl⟩
    · exact h.plain q hq
    · exact (hchange v hv).plain
  · rw [Markup.tags_visitsOf_retag _ _ fun v hv => ⟨(hchange v hv).name, (hchange v hv).selfClosing⟩]
    refine List.map_congr_left fun v hv => ?_
    rw [if_pos (Markup.mem_visitsOf _ hv).2]

/-- Marking containers leaves the form controls alone. -/
theorem exists_pieces_of_markContainers (fields : Names) {ps : List Piece}
    (h : ∀ p ∈ ps, p.IsPlain) :
    ∃ qs : List Piece, (∀ q ∈ qs, q.IsPlain) ∧ markContainers fields (printed ps) = printed qs ∧
      (Markup.visitsOf Markup.controlNames qs).map Markup.Visit.tag =
        (Markup.visitsOf Markup.controlNames ps).map Markup.Visit.tag := by
  have hword : StartTag.IsWord Markup.readonlyClass := ⟨by decide, by decide⟩
  obtain ⟨change, hchange, heq⟩ := Markup.exists_retag [Markup.containerName]
    (isCarryingContainer fields) (fun t => t.withClass Markup.readonlyClass)
    (R := fun t u => (Piece.startTag u).IsPlain ∧ u.name = t.name ∧ u.selfClosing = t.selfClosing)
    (Markup.fits_of_isPlain h)
    (fun v hv hcontainer => by
      rw [isCarryingContainer, Bool.and_eq_true] at hcontainer
      obtain ⟨ht, hp⟩ := h _ (Markup.mem_visitsOf _ hv).1
      obtain ⟨u, hu, hplain, hname, hclosing, hsource⟩ :=
        StartTag.exists_classed_plain ht hp hcontainer.1 hword
      exact ⟨u, ⟨⟨hu, hplain⟩, hname, hclosing⟩, hsource⟩)
    fun v hv _ => ⟨h _ (Markup.mem_visitsOf _ hv).1, rfl, rfl⟩
  refine ⟨Markup.retag [Markup.containerName] change ps, fun q hq => ?_, heq, ?_⟩
  · rcases Markup.mem_retag _ hq with hq | ⟨v, hv, rfl⟩
    · exact h q hq
    · exact (hchange v hv).1
  · rw [Markup.tags_visitsOf_retag _ _ fun v hv => (hchange v hv).2]
    refine List.map_congr_left fun v hv => ?_
    have hcontrol := (Markup.mem_visitsOf _ hv).2
    rw [if_neg]
    -- no form control is a container
    rw [List.contains_eq_mem, decide_eq_true_eq, List.mem_singleton]
    rintro hcontainer
    rw [hcontainer] at hcontrol
    exact absurd hcontrol (by decide)

/-! ### The whole mask -/

/-- The form controls of masked plain markup are those that were there after hiding, each with what
the edits left of it, settled. -/
theorem elements_apply (m : Mask) (strategy : Strategy) {markup : Text} {ps : List Piece}
    (hhide : hide m.hidden strategy markup = printed ps) (h : IsPlain m.readonly ps)
    (hnil : [] ∉ m.readonly) :
    ∃ change : Markup.Visit → StartTag,
      (∀ v ∈ Markup.visitsOf Markup.controlNames ps, Disabled m.readonly v.tag (change v)) ∧
      Markup.elements Markup.controlNames (m.apply strategy markup) =
        (Markup.visitsOf Markup.controlNames ps).map fun v => (change v).settled := by
  obtain ⟨qs, change, hqs, hprotect, hchange, htags⟩ : ∃ (qs : List Piece)
      (change : Markup.Visit → StartTag), (∀ q ∈ qs, q.IsPlain) ∧
      protect m.readonly strategy (printed ps) = printed qs ∧
      (∀ v ∈ Markup.visitsOf Markup.controlNames ps, Disabled m.readonly v.tag (change v)) ∧
      (Markup.visitsOf Markup.controlNames qs).map Markup.Visit.tag =
        (Markup.visitsOf Markup.controlNames ps).map change := by
    obtain ⟨qs, change, hqs, hdisable, hchange, htags⟩ := exists_pieces_of_disableControls h hnil
    rw [protect]
    split
    · next hempty =>
      refine ⟨ps, Markup.Visit.tag, h.plain, rfl, fun v hv => ?_, rfl⟩
      refine .refl (h.plain _ (Markup.mem_visitsOf _ hv).1) ?_
      rintro ⟨name, -, hname⟩
      exact Names.isEmpty_iff.1 hempty name hname
    dsimp only
    rw [hdisable]
    split
    · obtain ⟨rs, hrs, hmark, htags'⟩ := exists_pieces_of_markContainers m.readonly hqs
      exact ⟨rs, change, hrs, hmark, hchange, htags'.trans htags⟩
    · exact ⟨qs, change, hqs, rfl, hchange, htags⟩
  obtain ⟨us, hus, hnormal, hsettles⟩ := Markup.exists_normalized fun q hq => (hqs q hq).solid
  refine ⟨change, hchange, ?_⟩
  rw [apply, hhide, hprotect, ← hnormal, Markup.elements_printed _ hus, hsettles.tags, htags,
    List.map_map]
  rfl

/-- **Read-only fields.** If what is left after hiding is plain, the masked markup has the flags of
every form control of a read-only field exactly if each control that will be one of such a field when
its name is settled is one already and does not end in `=`, or has its flags already. -/
theorem enforces_apply_iff {m : Mask} {strategy : Strategy} {markup : Text} {ps : List Piece}
    (hhide : hide m.hidden strategy markup = printed ps) (h : IsPlain m.readonly ps)
    (hnil : [] ∉ m.readonly) :
    m.Enforces (m.apply strategy markup) ↔
      ∀ t ∈ Markup.elements Markup.controlNames (hide m.hidden strategy markup),
        ∀ name ∈ t.controlName?, settle name ∈ m.readonly → settle name ∉ m.hidden →
          (name ∈ m.readonly ∧ t.isOpen = false) ∨
            ∀ flag ∈ disablingFlags t, t.hasAttribute flag = true := by
  obtain ⟨change, hchange, helements⟩ := elements_apply m strategy hhide h hnil
  rw [Enforces, helements, hhide, Markup.elements_printed _ (Markup.fits_of_isPlain h.plain),
    List.forall_mem_map, List.forall_mem_map]
  refine forall₂_congr fun v hv => ?_
  have hdisabled := hchange v hv
  have hflags : disablingFlags (change v).settled = disablingFlags v.tag :=
    disablingFlags_eq (by rw [StartTag.name_settled, hdisabled.name])
  have hname : (change v).settled.controlName? = v.tag.controlName?.map settle := by
    rw [StartTag.controlName?_settled, hdisabled.controlName]
  rw [hname, hflags]
  simp only [StartTag.hasAttribute_settled, hdisabled.flags]
  cases v.tag.controlName? with
  | none => simp
  | some name => simp

/-- An input whose value was hidden between quotes. -/
def quotedInput : StartTag :=
  ⟨"input".toList, [⟨[' '], "name".toList, some ⟨[], [], .quoted '"', "x".toList⟩⟩,
    ⟨[' '], "value".toList, some ⟨[], [], .quoted '"', []⟩⟩], [], true⟩

theorem isPlain_quotedInput (fields : Names) :
    IsPlain fields [.text "Name: ".toList, .startTag quotedInput, .text [' '], .stray " 3".toList] := by
  constructor
  · have hlegible : quotedInput.Legible :=
      StartTag.legible_of_read? (show StartTag.read? quotedInput.source = some (quotedInput, []) by
        decide +kernel)
    have hplain : quotedInput.IsPlain := by
      intro a ha
      simp only [quotedInput, List.mem_cons, List.not_mem_nil, or_false] at ha
      rcases ha with rfl | rfl
      · exact ⟨by decide, by decide, by simp⟩
      · exact ⟨by decide, by decide, by simp⟩
    have hshut : Piece.ShutsFirmly " 3".toList := by
      refine ⟨⟨' ', ['3'], rfl, by decide, fun h => absurd h (by decide),
        fun h => absurd h (by decide)⟩, Or.inr ⟨[' '], '3', rfl, by decide, ?_, by decide⟩⟩
      intro c hc
      rw [List.mem_singleton.1 hc]
      decide
    intro p hp
    simp only [List.mem_cons, List.not_mem_nil, or_false] at hp
    rcases hp with rfl | rfl | rfl | rfl
    · show '<' ∉ "Name: ".toList
      decide
    · exact ⟨hlegible, hplain⟩
    · show '<' ∉ [' ']
      decide
    · exact ⟨by decide, " 3".toList, [], rfl, hshut⟩
  · intro t ht name _ _
    simp only [List.mem_cons, List.not_mem_nil, or_false, reduceCtorEq, false_or,
      Piece.startTag.injEq] at ht
    subst ht
    refine StartTag.IsQuoted.keepsEnd (fun a ha v hv => ?_) (by decide) _
    simp only [quotedInput, List.mem_cons, List.not_mem_nil, or_false] at ha
    rcases ha with rfl | rfl
    · rw [← Option.mem_some_iff.1 hv]
    · rw [← Option.mem_some_iff.1 hv]

/-- With the hidden value in quotes the control gets its flags. -/
theorem enforces_apply_of_quoted :
    let m : Mask := ⟨Names.ofList ["h".toList], Names.ofList ["x".toList]⟩
    let markup := "Name: <input name=\"x\" value=\"".toList ++ (Token.tag "h".toList).source ++
      "\"/> < 3".toList
    m.Enforces (m.apply .form markup) := by
  intro m markup
  have hhide : hide m.hidden .form markup =
      printed [.text "Name: ".toList, .startTag quotedInput, .text [' '], .stray " 3".toList] := by
    decide +kernel
  refine (enforces_apply_iff hhide (isPlain_quotedInput _) (by decide)).2 ?_
  rw [hhide]
  decide +kernel

/-- With the hidden value out of quotes the first flag is read as the value. -/
theorem not_enforces_apply_of_open :
    let m : Mask := ⟨Names.ofList ["h".toList], Names.ofList ["x".toList]⟩
    let markup := "<input name=\"x\" value=".toList ++ (Token.tag "h".toList).source ++ ">".toList
    ¬ m.Enforces (m.apply .form markup) := by
  decide +kernel

end Mask

end MaskedViews
