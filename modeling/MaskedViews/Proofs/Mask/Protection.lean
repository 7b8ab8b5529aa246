import MaskedViews.Proofs.Markup.TidyPieces
import MaskedViews.Proofs.Mask.Cuts
import MaskedViews.Proofs.Mask.ReadOnly

/-!
# Protecting fields

Protecting fields changes start tags and nothing else: what it leaves of tidy pieces matches them. Then
the fields are secured, if no control of one that has its flags already ends loosely: each control of one
has its flags, and each container that carries one has its class (`exists_matches_protect`). On secured
pieces there is nothing left to do (`protect_eq_self`).
-/

namespace MaskedViews

open Markup (Closed Matches Piece Visit printed)
open StartTag (ChangesTo)
open Token (Braceless)

/-! ### Changes of tags -/

namespace StartTag

variable {t u : StartTag}

theorem ChangesTo.standsIn_id (h : ChangesTo id t u) : t.StandsIn u :=
  h.standsIn fun _ _ _ _ => rfl

theorem keepsElements_changesTo (f : Text → Text) : Markup.KeepsElements (ChangesTo f) :=
  fun _ _ h => ⟨h.name, h.selfClosing⟩

theorem contains_of_mem_controlName? {name : Text} (h : name ∈ t.controlName?) :
    Markup.controlNames.contains t.name = true := by
  rw [controlName?] at h
  split at h
  · assumption
  · cases h

/-- A tidy tag in the place of another, with the same values and placeholders. -/
structure TidiesTo (t u : StartTag) : Prop where
  /-- It is tidy. -/
  tidy : u.IsTidy
  /-- It has the values. -/
  changes : ChangesTo id t u
  /-- It has the placeholders. -/
  paths : Token.paths u.source = Token.paths t.source

theorem IsTidy.tidiesTo (h : t.IsTidy) : t.TidiesTo t := ⟨h, .refl t, rfl⟩

theorem TidiesTo.matches (h : t.TidiesTo u) :
    ChangesTo id t u ∧ Token.paths u.source ⊆ Token.paths t.source :=
  ⟨h.changes, fun _ hpath => h.paths ▸ hpath⟩

/-- Putting a class into quotes adds no placeholder. -/
theorem IsTidy.paths_withClass (h : t.IsTidy) {word : Text} (hword : Braceless word) :
    Token.paths (t.withClass word) = Token.paths t.source := by
  have hbraceless : t.BareClassBraceless := by
    intro v hv hbare
    obtain ⟨a, ha, hassigned⟩ := Option.bind_eq_some_iff.1 hv
    rw [h.isQuoted a (List.mem_of_find?_eq_some ha) v hassigned] at hbare
    cases hbare
  exact Token.paths_of_patched (parallel_withClass (by decide) h.legible hword
    (hasPatchableClass_of_bareClassBraceless h.legible hbraceless))

end StartTag

open StartTag (TidiesTo)

namespace Mask

variable {fields fields' : Names} {strategy : Strategy} {ps : List Piece}

/-- Tidy pieces with tidied tags are tidy pieces that match them. -/
theorem matches_of_tidiesTo (names : List Text) {change : Visit → StartTag}
    (h : ∀ p ∈ ps, p.IsTidy) (hchange : ∀ v ∈ Markup.visitsOf names ps, v.tag.TidiesTo (change v)) :
    (∀ q ∈ Markup.retag names change ps, q.IsTidy) ∧
      Matches (ChangesTo id) ps (Markup.retag names change ps) := by
  refine ⟨fun q hq => ?_,
    Markup.matches_retag names (fun t _ => .refl t) fun v hv => (hchange v hv).matches⟩
  rcases Markup.mem_retag names hq with hq | ⟨v, hv, rfl⟩
  · exact h q hq
  · exact (hchange v hv).tidy

/-! ### What is secured -/

/-- Whether the form controls of some fields have their flags, and no blanks at their ends. -/
def ControlsDisabled (fields : Names) (ps : List Piece) : Prop :=
  ∀ t, .startTag t ∈ ps → (∃ name ∈ t.controlName?, name ∈ fields) → t.IsFlagged (disablingFlags t)

/-- Whether the containers that carry one of some fields are marked. -/
def ContainersMarked (fields : Names) (ps : List Piece) : Prop :=
  ∀ v ∈ Markup.visitsOf [Markup.containerName] ps, isCarryingContainer fields v = true →
    v.tag.hasClass Markup.readonlyClass = true

/-- Pieces in which some fields are kept from being changed. -/
structure Secured (fields : Names) (strategy : Strategy) (ps : List Piece) : Prop where
  /-- The controls are disabled. -/
  controls : ControlsDisabled fields ps
  /-- The containers are marked, where they carry fields. -/
  containers : strategy.hasContainers = true → ContainersMarked fields ps

/-- A container carries what one carried that it stands in for, if that had as much inside it. -/
theorem isCarryingContainer_of_standsIn {v w : Visit} (h : w.tag.StandsIn v.tag)
    (hsub : Markup.referencedFields v.inner ⊆ Markup.referencedFields w.inner)
    (hv : isCarryingContainer fields v = true) : isCarryingContainer fields w = true := by
  rw [isCarryingContainer, Bool.and_eq_true, carries_iff] at hv ⊢
  rw [← h.container, ← h.markedField]
  obtain ⟨hclass, hmarked | ⟨field, hfield, hmem⟩⟩ := hv
  · exact ⟨hclass, .inl hmarked⟩
  · exact ⟨hclass, .inr ⟨field, hsub hfield, hmem⟩⟩

theorem Secured.mono (h : Secured fields strategy ps) (hsub : ∀ field ∈ fields', field ∈ fields) :
    Secured fields' strategy ps :=
  ⟨fun t ht ⟨name, hname, hmem⟩ => h.controls t ht ⟨name, hname, hsub name hmem⟩,
    fun hc v hv hcarries => h.containers hc v hv (isCarryingContainer_mono hsub hcarries)⟩

theorem secured_of_isEmpty (h : fields.isEmpty = true) : Secured fields strategy ps := by
  have hnone := Names.isEmpty_iff.1 h
  refine ⟨fun t _ ⟨name, _, hmem⟩ => absurd hmem (hnone name), fun _ v _ hcarries => ?_⟩
  rw [isCarryingContainer, Bool.and_eq_true, carries_iff] at hcarries
  rcases hcarries.2 with ⟨field, -, hmem⟩ | ⟨field, -, hmem⟩
  · exact absurd hmem (hnone field)
  · exact absurd hmem (hnone field)

/-! ### Disabling -/

theorem disablingFlags_subset (t : StartTag) :
    ∀ flag ∈ disablingFlags t, flag ∈ StartTag.changedKeys ∧ flag ≠ "class".toList :=
  forall_mem_disablingFlags (by decide) (by decide) t

/-- Whether a form control of one of some fields does not end loosely, if it has its flags. -/
def EndsFirmly (fields : Names) (t : StartTag) : Prop :=
  ∀ name ∈ t.controlName?, name ∈ fields → (∀ flag ∈ disablingFlags t, t.hasAttribute flag = true) →
    t.endsLoosely = false

instance (fields : Names) (t : StartTag) : Decidable (EndsFirmly fields t) := by
  unfold EndsFirmly
  infer_instance

theorem EndsFirmly.stripped {t : StartTag} (h : EndsFirmly fields t) (remove : Text → Bool)
    (hstands : t.StandsIn (t.stripped remove)) : EndsFirmly fields (t.stripped remove) := by
  intro name hname hfield hflags
  rw [hstands.controlName] at hname
  refine h name hname hfield fun flag hflag => ?_
  rw [← StartTag.hasAttribute_stripped remove]
  exact hflags flag (by rwa [disablingFlags_eq hstands.name])

/-- A tidy control stays tidy with its flags, and has them then. -/
theorem exists_disabled_of_isTidy {t : StartTag} (h : t.IsTidy)
    (hcontrol : ∃ name ∈ t.controlName?, name ∈ fields) :
    ∃ u, t.TidiesTo u ∧ (EndsFirmly fields t → u.IsFlagged (disablingFlags t)) ∧
      u.source = t.withFlags (disablingFlags t) := by
  obtain ⟨name, hname, hfield⟩ := hcontrol
  have hword := isWord_disablingFlags t
  obtain ⟨u, hu, hchanges, hsource, hflagged⟩ := h.exists_withFlags
    (StartTag.contains_of_mem_controlName? hname) hword (lower_disablingFlags t)
    (fun flag hflag => (disablingFlags_subset t flag hflag).1)
    fun hclass => (disablingFlags_subset t _ hclass).2 rfl
  have hpaths : Token.paths u.source = Token.paths t.source := by
    rw [hsource]
    exact Token.paths_of_patched (StartTag.parallel_withFlags (by decide) t fun flag hflag =>
      StartTag.braceless_of_isNameChar (hword flag hflag).2)
  exact ⟨u, ⟨hu, hchanges, hpaths⟩, fun hends => hflagged (hends name hname hfield), hsource⟩

/-- Disabling controls gives them their flags. -/
theorem exists_matches_disabled (fields : Names) (h : ∀ p ∈ ps, p.IsTidy) :
    ∃ qs, (∀ q ∈ qs, q.IsTidy) ∧ Matches (ChangesTo id) ps qs ∧
      disableControls fields (printed ps) = printed qs ∧
      (Closed ps → (∀ t, .startTag t ∈ ps → EndsFirmly fields t) → ControlsDisabled fields qs) := by
  obtain ⟨change, hchange, heq⟩ := Markup.exists_retag Markup.controlNames (isControlOf fields)
    (fun t => t.withFlags (disablingFlags t))
    (R := fun t u => t.TidiesTo u ∧ ((∃ name ∈ t.controlName?, name ∈ fields) →
      EndsFirmly fields t → u.IsFlagged (disablingFlags t)))
    (fun p hp => (h p hp).regular.fits)
    (fun v hv hcontrol => by
      obtain ⟨u, hu, hflagged, hsource⟩ :=
        exists_disabled_of_isTidy (h _ (Markup.mem_visitsOf _ hv).1) (isControlOf_iff.1 hcontrol)
      exact ⟨u, ⟨hu, fun _ => hflagged⟩, hsource⟩)
    fun v hv hcontrol => by
      rw [← Bool.not_eq_true, isControlOf_iff] at hcontrol
      have htidy : v.tag.IsTidy := h _ (Markup.mem_visitsOf _ hv).1
      exact ⟨htidy.tidiesTo, fun hc => absurd hc hcontrol⟩
  obtain ⟨hqs, hmatches⟩ := matches_of_tidiesTo Markup.controlNames h fun v hv => (hchange v hv).1
  refine ⟨_, hqs, hmatches, heq, fun hclosed hends u hu hcontrol => ?_⟩
  -- every control ends, so it is one that has been disabled
  obtain ⟨name, hname, hfield⟩ := hcontrol
  obtain ⟨v, hv, rfl⟩ :=
    hclosed.exists_of_mem_retag _ hu (StartTag.contains_of_mem_controlName? hname)
  obtain ⟨htidies, hflagged⟩ := hchange v hv
  have hstands := htidies.changes.standsIn_id
  rw [hstands.controlName] at hname
  rw [disablingFlags_eq hstands.name]
  exact hflagged ⟨name, hname, hfield⟩ (hends v.tag (Markup.mem_visitsOf _ hv).1)

/-! ### Marking -/

/-- A tidy container stays tidy with its class. -/
theorem exists_marked_of_isTidy {v : Visit} (h : v.tag.IsTidy)
    (hcarries : isCarryingContainer fields v = true) :
    ∃ u, (v.tag.TidiesTo u ∧ u.hasClass Markup.readonlyClass = true) ∧
      u.source = v.tag.withClass Markup.readonlyClass := by
  have hclass : v.tag.hasClass Markup.containerClass = true := by
    rw [isCarryingContainer, Bool.and_eq_true] at hcarries
    exact hcarries.1
  have hword : StartTag.IsWord Markup.readonlyClass := ⟨by decide, by decide⟩
  obtain ⟨u, hu, hchanges, hsource, hmark⟩ := h.exists_withClass hclass hword
  have hpaths : Token.paths u.source = Token.paths v.tag.source := by
    rw [hsource, h.paths_withClass (by decide)]
  exact ⟨u, ⟨⟨hu, hchanges, hpaths⟩, hmark⟩, hsource⟩

/-- Marking containers gives them their class, and leaves the form controls alone. -/
theorem exists_matches_marked (fields : Names) (h : ∀ p ∈ ps, p.IsTidy) :
    ∃ qs, (∀ q ∈ qs, q.IsTidy) ∧ Matches (ChangesTo id) ps qs ∧
      markContainers fields (printed ps) = printed qs ∧ ContainersMarked fields qs ∧
      (ControlsDisabled fields ps → ControlsDisabled fields qs) := by
  obtain ⟨change, hchange, heq⟩ := Markup.exists_retag_of_visits [Markup.containerName]
    (isCarryingContainer fields) (fun t => t.withClass Markup.readonlyClass)
    (R := fun v u => v.tag.TidiesTo u ∧
      (isCarryingContainer fields v = true → u.hasClass Markup.readonlyClass = true))
    (fun p hp => (h p hp).regular.fits)
    (fun v hv hcarries => by
      obtain ⟨u, ⟨hu, hmark⟩, hsource⟩ :=
        exists_marked_of_isTidy (h _ (Markup.mem_visitsOf _ hv).1) hcarries
      exact ⟨u, ⟨hu, fun _ => hmark⟩, hsource⟩)
    fun v hv hcarries => by
      have htidy : v.tag.IsTidy := h _ (Markup.mem_visitsOf _ hv).1
      exact ⟨htidy.tidiesTo, fun hc => absurd hc (by simp [hcarries])⟩
  obtain ⟨hqs, hmatches⟩ :=
    matches_of_tidiesTo [Markup.containerName] h fun v hv => (hchange v hv).1
  refine ⟨_, hqs, hmatches, heq, fun v hv hcarries => ?_, fun hcontrols u hu hcontrol => ?_⟩
  · obtain ⟨t, inner, inner', hvisit, htag, hinner, hsub, hsub', hmatches⟩ :=
      Markup.exists_visit_of_retag _ (StartTag.keepsElements_changesTo id) (by decide)
        (fun t ht => (h _ ht).legible) (fun t _ => .refl t) (fun v hv => (hchange v hv).1.matches) hv
    obtain ⟨htidies, hmark⟩ := hchange _ hvisit
    rw [← htag] at htidies hmark
    refine hmark (isCarryingContainer_of_standsIn htidies.changes.standsIn_id ?_ hcarries)
    rw [hinner]
    exact hmatches.referencedFields_subset (fun t u _ h => h.standsIn_id.reference)
      (fun p hp => (h p (hsub hp)).regular) fun q hq => (hqs q (hsub' hq)).regular
  · rcases Markup.mem_retag _ hu with hu | ⟨v, hv, heq⟩
    · exact hcontrols u hu hcontrol
    · -- no form control is a container
      rw [Piece.startTag.injEq] at heq
      obtain ⟨name, hname, -⟩ := hcontrol
      have hcontrol := StartTag.contains_of_mem_controlName? hname
      have hcontainer := (Markup.mem_visitsOf _ hv).2
      rw [heq, (hchange v hv).1.changes.name] at hcontrol
      rw [List.contains_eq_mem, decide_eq_true_eq, List.mem_singleton] at hcontainer
      rw [hcontainer] at hcontrol
      exact absurd hcontrol (by decide)

/-! ### Both -/

/-- **Protecting fields secures them**, and leaves everything else. -/
theorem exists_matches_protect (fields : Names) (strategy : Strategy) (h : ∀ p ∈ ps, p.IsTidy) :
    ∃ qs, (∀ q ∈ qs, q.IsTidy) ∧ Matches (ChangesTo id) ps qs ∧
      protect fields strategy (printed ps) = printed qs ∧
      (Closed ps → (∀ t, .startTag t ∈ ps → EndsFirmly fields t) → Secured fields strategy qs) := by
  rw [protect]
  split
  · next hempty =>
    exact ⟨ps, h, .refl fun t _ => .refl t, rfl, fun _ _ => secured_of_isEmpty hempty⟩
  obtain ⟨qs, hqs, hmatches, hdisable, hcontrols⟩ := exists_matches_disabled fields h
  dsimp only
  rw [hdisable]
  split
  · obtain ⟨rs, hrs, hmatches', hmark, hcontainers, hkept⟩ := exists_matches_marked fields hqs
    refine ⟨rs, hrs, hmatches.comp hmatches', hmark,
      fun hclosed hends => ⟨hkept (hcontrols hclosed hends), fun _ => hcontainers⟩⟩
  · next hc =>
    exact ⟨qs, hqs, hmatches, rfl, fun hclosed hends =>
      ⟨hcontrols hclosed hends, fun hcontainers => absurd hcontainers hc⟩⟩

theorem changeTags_eq_self {names : List Text} {condition : Visit → Bool}
    {change : StartTag → Text} {html : Text}
    (h : ∀ v ∈ Markup.visits names (fun _ => .keep) html, condition v = true →
      change v.tag = v.tag.source) : changeTags names condition change html = html := by
  refine Markup.editElements_eq_self fun v hv => ?_
  cases hc : condition v with
  | true => exact Or.inr (congrArg Markup.Edit.replaceTag (h v hv hc))
  | false => exact Or.inl rfl

/-- **Where the fields are secured, protecting them changes nothing.** -/
theorem protect_eq_self (h : Secured fields strategy ps) (hps : ∀ p ∈ ps, p.IsTidy) :
    protect fields strategy (printed ps) = printed ps := by
  have hvisits (names : List Text) : Markup.visits names (fun _ => .keep) (printed ps) =
      Markup.visitsOf names ps :=
    Markup.visits_printed names (by simp) ps fun p hp => (hps p hp).regular.fits
  have hdisable : disableControls fields (printed ps) = printed ps := by
    refine changeTags_eq_self fun v hv hcontrol => ?_
    rw [hvisits] at hv
    have hmem := (Markup.mem_visitsOf _ hv).1
    have htidy : v.tag.IsTidy := hps _ hmem
    exact htidy.withFlags_eq_source (isWord_disablingFlags v.tag)
      (h.controls v.tag hmem (isControlOf_iff.1 hcontrol))
  rw [protect]
  split
  · rfl
  dsimp only
  rw [hdisable]
  split
  · next hc =>
    refine changeTags_eq_self fun v hv hcarries => StartTag.withClass_of_hasClass ?_
    rw [hvisits] at hv
    exact h.containers hc v hv hcarries
  · rfl

end Mask

end MaskedViews
