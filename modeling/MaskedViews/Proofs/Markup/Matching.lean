import MaskedViews.Proofs.Markup.Extents
import MaskedViews.Proofs.Markup.Forest
import MaskedViews.Proofs.Markup.References

/-!
# Pieces that match

Some edits leave every piece in its place and only change what is written in it. The pieces that they
leave match those that were there, one by one (`Matches`), and refer to no other fields. So an element
after such an edit matches one that was there, and what is inside it refers to no field that was not
referred to inside that (`Matches.exists_visit`, `Matches.referencedFields_subset`).

Among the pieces of a forest every element ends (`closed_pieces`), so every start tag of given names is
one that an editor of these is asked about.
-/

namespace MaskedViews.Markup

/-! ### Matching -/

/-- A piece that begins and ends as much as another: a start tag that is related to it, an end tag that
ends the same elements, or no tag for no tag. -/
inductive Piece.StandsFor (R : StartTag → StartTag → Prop) : Piece → Piece → Prop where
  /-- A start tag. -/
  | startTag {t u : StartTag} (h : R t u) : StandsFor R (.startTag t) (.startTag u)
  /-- An end tag. -/
  | endTag {s r : Text} (h : ∀ name, IsFirmName name → closes name r = closes name s) :
    StandsFor R (.endTag s) (.endTag r)
  /-- No tag. -/
  | other {p q : Piece} (hp : p.isTag = false) (hq : q.isTag = false) : StandsFor R p q

/-- A piece that stands for another, with no placeholders but those that were there. -/
structure Piece.Matches (R : StartTag → StartTag → Prop) (p q : Piece) : Prop where
  /-- A tag stands for a tag. -/
  stands : p.StandsFor R q
  /-- The placeholders were there. -/
  paths : Token.paths q.source ⊆ Token.paths p.source

/-- The second pieces match the first, one by one. -/
def Matches (R : StartTag → StartTag → Prop) (ps qs : List Piece) : Prop :=
  List.Forall₂ (Piece.Matches R) ps qs

/-- Whether related start tags begin the same elements, form controls aside. -/
def KeepsElements (R : StartTag → StartTag → Prop) : Prop :=
  ∀ t u, R t u → u.name = t.name ∧
    (Markup.controlNames.contains t.name = false → u.selfClosing = t.selfClosing)

variable {R S T : StartTag → StartTag → Prop} {p q r : Piece} {ps qs rs : List Piece}

theorem Piece.StandsFor.refl (h : ∀ t, p = .startTag t → R t t) : p.StandsFor R p := by
  cases p with
  | startTag t => exact .startTag (h t rfl)
  | endTag s => exact .endTag fun _ _ => rfl
  | text s => exact .other rfl rfl
  | comment s => exact .other rfl rfl
  | stray s => exact .other rfl rfl

theorem Piece.StandsFor.imp (hRS : ∀ t u, R t u → S t u) (h : p.StandsFor R q) : p.StandsFor S q := by
  cases h with
  | startTag h => exact .startTag (hRS _ _ h)
  | endTag h => exact .endTag h
  | other hp hq => exact .other hp hq

theorem Piece.StandsFor.trans (hT : ∀ t u w, R t u → S u w → T t w) (h : p.StandsFor R q)
    (h' : q.StandsFor S r) : p.StandsFor T r := by
  cases h with
  | startTag h =>
    cases h' with
    | startTag h' => exact .startTag (hT _ _ _ h h')
    | other hq _ => cases hq
  | endTag h =>
    cases h' with
    | endTag h' => exact .endTag fun name hname => (h' name hname).trans (h name hname)
    | other hq _ => cases hq
  | other hp hq =>
    cases h' with
    | startTag _ => cases hq
    | endTag _ => cases hq
    | other _ hr => exact .other hp hr

/-- As many elements are open behind a piece as behind the one that it stands for. -/
theorem Piece.StandsFor.depthAfter? {name : Text} (hname : IsFirmName name)
    (hR : ∀ t u, R t u → u.name = t.name ∧ (t.name = name → u.selfClosing = t.selfClosing))
    (h : p.StandsFor R q) (depth : Nat) : depthAfter? name depth q = depthAfter? name depth p := by
  cases h with
  | @startTag t u h =>
    obtain ⟨hsame, hclosing⟩ := hR t u h
    by_cases htn : t.name = name
    · simp [Markup.depthAfter?, hsame, htn, hclosing htn]
    · simp [Markup.depthAfter?, hsame, htn]
  | endTag h => rw [Markup.depthAfter?, Markup.depthAfter?, h name hname]
  | other hp hq => rw [depthAfter?_of_not_isTag hp, depthAfter?_of_not_isTag hq]

/-- A piece matches itself, if it may as a start tag. -/
theorem Piece.Matches.refl (h : ∀ t, p = .startTag t → R t t) : p.Matches R p :=
  ⟨.refl h, List.Subset.refl _⟩

/-- What matches refers to no more fields. -/
theorem Piece.Matches.refersTo (h : p.Matches R q)
    (hR : ∀ t u, p = .startTag t → R t u → u.reference? = t.reference?) {field : Text}
    (hq : q.RefersTo field) : p.RefersTo field := by
  rcases hq with ⟨x, hx, hpath⟩ | ⟨u, rfl, hreference, hne⟩
  · have hmem : field ∈ Token.paths p.source := h.paths (List.mem_filterMap.2 ⟨x, hx, hpath⟩)
    exact Or.inl (List.mem_filterMap.1 hmem)
  · cases h.stands with
    | @startTag t u htu => exact Or.inr ⟨t, rfl, (hR t u rfl htu).symm.trans hreference, hne⟩
    | other _ hq => cases hq

theorem Matches.refl (h : ∀ t, .startTag t ∈ ps → R t t) : Matches R ps ps :=
  List.forall₂_same.2 fun _ hp => .refl fun t ht => h t (ht ▸ hp)

theorem Matches.imp (hRS : ∀ t u, R t u → S t u) (h : Matches R ps qs) : Matches S ps qs :=
  List.Forall₂.imp (fun _ _ hpq => ⟨hpq.stands.imp hRS, hpq.paths⟩) h

theorem Matches.trans (hT : ∀ t u w, R t u → S u w → T t w) (h : Matches R ps qs)
    (h' : Matches S qs rs) : Matches T ps rs := by
  induction h generalizing rs with
  | nil =>
    cases h'
    exact .nil
  | cons hpq _ ih =>
    cases h' with
    | cons hqr h' =>
      exact .cons ⟨hpq.stands.trans hT hqr.stands, List.Subset.trans hqr.paths hpq.paths⟩ (ih h')

/-- The start tags are related one by one. -/
theorem Matches.startTagsOf (h : Matches R ps qs) :
    List.Forall₂ R (startTagsOf ps) (startTagsOf qs) := by
  induction h with
  | nil => exact .nil
  | @cons p q ps qs hpq _ ih =>
    cases hpq.stands with
    | startTag h => exact .cons h ih
    | endTag h => exact ih
    | other hp hq =>
      have hnone {p : Piece} (hp : p.isTag = false) : p.startTag? = none := by
        cases p with
        | startTag t => cases hp
        | _ => rfl
      rwa [Markup.startTagsOf, List.filterMap_cons_none (hnone hp), Markup.startTagsOf,
        List.filterMap_cons_none (hnone hq)]

/-- In related lists, what is in the second stands for something in the first. -/
theorem exists_of_mem_forall₂ {α β : Type} {S : α → β → Prop} {xs : List α} {ys : List β}
    (h : List.Forall₂ S xs ys) {y : β} (hy : y ∈ ys) : ∃ x ∈ xs, S x y := by
  induction h with
  | nil => cases hy
  | @cons x y' xs ys hxy _ ih =>
    rcases List.mem_cons.1 hy with rfl | hy
    · exact ⟨x, List.mem_cons_self, hxy⟩
    · obtain ⟨x', hx', hS⟩ := ih hy
      exact ⟨x', List.mem_cons_of_mem x hx', hS⟩

theorem Matches.exists_startTag (h : Matches R ps qs) {u : StartTag} (hu : .startTag u ∈ qs) :
    ∃ t, .startTag t ∈ ps ∧ R t u := by
  obtain ⟨p, hp, hmatches⟩ := exists_of_mem_forall₂ h hu
  cases hmatches.stands with
  | startTag htu => exact ⟨_, hp, htu⟩
  | other _ hq => cases hq

/-- Regular pieces refer to no field that those they match do not refer to. -/
theorem Matches.referencedFields_subset (h : Matches R ps qs)
    (hR : ∀ t u, .startTag t ∈ ps → R t u → u.reference? = t.reference?)
    (hps : ∀ p ∈ ps, p.IsRegular) (hqs : ∀ q ∈ qs, q.IsRegular) :
    referencedFields (printed qs) ⊆ referencedFields (printed ps) := by
  intro field hfield
  obtain ⟨q, hq, hrefers⟩ := (mem_referencedFields_printed hqs).1 hfield
  obtain ⟨p, hp, hpq⟩ := exists_of_mem_forall₂ h hq
  exact (mem_referencedFields_printed hps).2
    ⟨p, hp, hpq.refersTo (fun t u ht => hR t u (ht ▸ hp)) hrefers⟩

/-- Where a start tag is, what is behind it matches what is behind the one it matches. -/
theorem Matches.exists_of_append {before' rest' : List Piece} {u : StartTag}
    (h : Matches R ps (before' ++ .startTag u :: rest')) :
    ∃ before t rest, ps = before ++ .startTag t :: rest ∧ R t u ∧ Matches R rest rest' := by
  have hdrop := List.forall₂_drop_append _ _ _ h
  have hps := List.take_append_drop before'.length ps
  generalize List.drop _ _ = ys at hdrop hps
  cases hdrop with
  | cons hp hrest =>
    cases hp.stands with
    | startTag htu => exact ⟨_, _, _, hps.symm, htu, hrest⟩
    | other _ hq => cases hq

/-- What is inside the element of a start tag matches what is inside that of the one it matches. -/
theorem Matches.exists_extentPieces (h : Matches R ps qs) (hR : KeepsElements R) {t u : StartTag}
    (ht : t.Legible) (hcontrol : Markup.controlNames.contains t.name = false) (htu : R t u)
    {inner' after' : List Piece} (hextent : extentPieces u qs = some (inner', after')) :
    ∃ inner after, extentPieces t ps = some (inner, after) ∧ Matches R inner inner' := by
  obtain ⟨hname, hclosing⟩ := hR t u htu
  refine exists_of_extentPieces (fun p q hpq => ?_) hname (hclosing hcontrol) h hextent
  refine hpq.stands.depthAfter? (isFirmName_of_legible ht) fun w w' hw => ?_
  exact ⟨(hR w w' hw).1, fun hwt => (hR w w' hw).2 (hwt ▸ hcontrol)⟩

/-- **An element matches one that was there**, if it is no form control. -/
theorem Matches.exists_visit (h : Matches R ps qs) (hR : KeepsElements R) {names : List Text}
    (hnames : ∀ name ∈ names, Markup.controlNames.contains name = false)
    (hlegible : ∀ t, .startTag t ∈ ps → t.Legible) {v : Visit} (hv : v ∈ visitsOf names qs) :
    ∃ t inner inner', ⟨t, printed inner⟩ ∈ visitsOf names ps ∧ R t v.tag ∧
      v.inner = printed inner' ∧ inner ⊆ ps ∧ inner' ⊆ qs ∧ Matches R inner inner' := by
  have hname : names.contains v.tag.name = true := (mem_visitsOf names hv).2
  obtain ⟨before', rest', inner', after', rfl, hextent', hinner'⟩ := exists_of_mem_visitsOf hv
  obtain ⟨before, t, rest, rfl, htv, hrest⟩ := h.exists_of_append
  rw [(hR t v.tag htv).1] at hname
  obtain ⟨inner, after, hextent, hinner⟩ := hrest.exists_extentPieces hR (hlegible t (by simp))
    (hnames t.name (by simpa using hname)) htv hextent'
  exact ⟨t, inner, inner', mem_visitsOf_append hname hextent before, htv, hinner',
    fun p hp => by simp [mem_of_extentPieces hextent hp],
    fun q hq => by simp [mem_of_extentPieces hextent' hq], hinner⟩

/-! ### Changed start tags -/

variable (names : List Text) {change : Visit → StartTag}

/-- Where a start tag is among changed pieces, it is what has become of the one that was there. -/
theorem exists_of_retag_eq_append {before' rest' : List Piece} {u : StartTag}
    (h : retag names change ps = before' ++ .startTag u :: rest') :
    ∃ before t rest, ps = before ++ .startTag t :: rest ∧
      u = ((visit? names t rest).map change).getD t ∧ rest' = retag names change rest := by
  induction ps generalizing before' with
  | nil => simp [retag] at h
  | cons p ps ih =>
    have htail {q : Piece} (hp : q.isStartTag = false)
        (h : q :: retag names change ps = before' ++ .startTag u :: rest') :
        ∃ before t rest, p :: ps = before ++ .startTag t :: rest ∧
          u = ((visit? names t rest).map change).getD t ∧ rest' = retag names change rest := by
      cases before' with
      | nil =>
        rw [List.nil_append, List.cons.injEq] at h
        rw [h.1] at hp
        cases hp
      | cons q before' =>
        rw [List.cons_append, List.cons.injEq] at h
        obtain ⟨before, t, rest, rfl, hu, hrest⟩ := ih h.2
        exact ⟨p :: before, t, rest, rfl, hu, hrest⟩
    cases p with
    | startTag t =>
      cases before' with
      | nil =>
        rw [retag, List.nil_append, List.cons.injEq, Piece.startTag.injEq] at h
        exact ⟨[], t, ps, rfl, h.1.symm, h.2.symm⟩
      | cons q before' =>
        rw [retag, List.cons_append, List.cons.injEq] at h
        obtain ⟨before, t', rest, rfl, hu, hrest⟩ := ih h.2
        exact ⟨.startTag t :: before, t', rest, rfl, hu, hrest⟩
    | text s => exact htail rfl h
    | comment s => exact htail rfl h
    | endTag s => exact htail rfl h
    | stray s => exact htail rfl h

/-- Changed pieces match those that were there. -/
theorem matches_retag (hps : ∀ t, .startTag t ∈ ps → R t t)
    (hchange : ∀ v ∈ visitsOf names ps, R v.tag (change v) ∧
      Token.paths (change v).source ⊆ Token.paths v.tag.source) :
    Matches R ps (retag names change ps) := by
  induction ps with
  | nil => exact .nil
  | cons p ps ih =>
    have ih := ih fun t ht => hps t (List.mem_cons_of_mem p ht)
    have hsame (h : ∀ v ∈ visitsOf names ps, R v.tag (change v) ∧
        Token.paths (change v).source ⊆ Token.paths v.tag.source) :
        Matches R (p :: ps) (p :: retag names change ps) :=
      .cons (.refl fun t ht => hps t (by simp [ht])) (ih h)
    cases p with
    | startTag t =>
      refine .cons ?_ (ih fun v hv => hchange v (List.mem_append_right _ hv))
      cases hv : visit? names t ps with
      | none => exact .refl fun u hu => hps u (by simp [hu])
      | some v =>
        have := hchange v (List.mem_append_left _ (by simp [hv]))
        rw [(eq_of_visit? names hv).1] at this
        exact ⟨.startTag this.1, this.2⟩
    | text s => exact hsame hchange
    | comment s => exact hsame hchange
    | endTag s => exact hsame hchange
    | stray s => exact hsame hchange

/-- **An element found where start tags have been changed is one that an editor was asked about**, and
what is inside it matches what was inside that. -/
theorem exists_visit_of_retag (hR : KeepsElements R)
    (hnames : ∀ name ∈ names, Markup.controlNames.contains name = false)
    (hlegible : ∀ t, .startTag t ∈ ps → t.Legible) (hps : ∀ t, .startTag t ∈ ps → R t t)
    (hchange : ∀ v ∈ visitsOf names ps, R v.tag (change v) ∧
      Token.paths (change v).source ⊆ Token.paths v.tag.source)
    {v : Visit} (hv : v ∈ visitsOf names (retag names change ps)) :
    ∃ t inner inner', ⟨t, printed inner⟩ ∈ visitsOf names ps ∧ v.tag = change ⟨t, printed inner⟩ ∧
      v.inner = printed inner' ∧ inner ⊆ ps ∧ inner' ⊆ retag names change ps ∧
        Matches R inner inner' := by
  have hname : names.contains v.tag.name = true := (mem_visitsOf names hv).2
  obtain ⟨before', rest', inner', after', heq, hextent', hinner'⟩ := exists_of_mem_visitsOf hv
  rw [heq]
  obtain ⟨before, t, rest, rfl, htag, rfl⟩ := exists_of_retag_eq_append names heq
  have hsub : visitsOf names (.startTag t :: rest) ⊆ visitsOf names (before ++ .startTag t :: rest) :=
    visitsOf_subset_append before
  have hrest : Matches R rest (retag names change rest) :=
    matches_retag names (fun u hu => hps u (by simp [hu])) fun w hw =>
      hchange w (hsub (List.mem_append_right _ hw))
  have htv : R t v.tag := by
    rw [htag]
    cases hvisit : visit? names t rest with
    | none => exact hps t (by simp)
    | some w =>
      have := (hchange w (hsub (List.mem_append_left _ (by simp [hvisit])))).1
      rwa [(eq_of_visit? names hvisit).1] at this
  rw [(hR t v.tag htv).1] at hname
  obtain ⟨inner, after, hextent, hinner⟩ := hrest.exists_extentPieces hR (hlegible t (by simp))
    (hnames t.name (by simpa using hname)) htv hextent'
  have hvisit : visit? names t rest = some ⟨t, printed inner⟩ := by
    rw [visit?, if_pos hname, hextent]
    rfl
  rw [hvisit] at htag
  exact ⟨t, inner, inner', mem_visitsOf_append hname hextent before, htag, hinner',
    fun p hp => by simp [mem_of_extentPieces hextent hp],
    fun q hq => by simp [mem_of_extentPieces hextent' hq], hinner⟩

/-! ### Elements that end -/

/-- Whether the element of every start tag ends. -/
def Closed : List Piece → Prop
  | [] => True
  | .startTag t :: ps => (extentPieces t ps).isSome = true ∧ Closed ps
  | _ :: ps => Closed ps

theorem Forest.closed_append {f : Forest} (hnested : f.IsNested) (hlegible : ∀ t ∈ f.tags, t.Legible)
    (h : Closed ps) : Closed (f.pieces ++ ps) := by
  induction f generalizing ps with
  | nil => exact h
  | text s rest ih => exact ih hnested hlegible h
  | comment s rest ih => exact ih hnested hlegible h
  | single t rest ih =>
    refine ⟨?_, ih hnested.2 (fun u hu => hlegible u (List.mem_cons_of_mem _ hu)) h⟩
    rw [extentPieces, if_pos hnested.1]
    rfl
  | element t inner ending rest ihinner ih =>
    obtain ⟨hopen, hcloses, hinner, hrest⟩ := hnested
    simp only [tags, visits, List.map_cons, List.map_append, List.mem_cons, List.mem_append]
      at hlegible
    have hl := fun u hu => hlegible u (.inr (.inl hu))
    have hbehind : Closed (.endTag ending :: (rest.pieces ++ ps)) :=
      ih hrest (fun u hu => hlegible u (.inr (.inr hu))) h
    rw [pieces, List.cons_append, List.append_assoc, List.cons_append]
    refine ⟨?_, ihinner hinner hl hbehind⟩
    rw [extentPieces_inner (hlegible t (.inl rfl)) hopen hcloses hinner hl]
    rfl

/-- **Every element of a forest ends.** -/
theorem Forest.closed_pieces {f : Forest} (hnested : f.IsNested)
    (hlegible : ∀ t ∈ f.tags, t.Legible) : Closed f.pieces := by
  have : Closed (f.pieces ++ []) := closed_append hnested hlegible trivial
  rwa [List.append_nil] at this

theorem isSome_extentPieces_stripped (remove : Text → Bool) {t : StartTag}
    (h : (extentPieces t ps).isSome = true) :
    (extentPieces (t.stripped remove) (ps.map (Piece.stripped remove))).isSome = true := by
  obtain ⟨⟨inner, after⟩, hextent⟩ := Option.isSome_iff_exists.1 h
  have hstripped : List.Forall₂ (fun p q => p = Piece.stripped remove q)
      (ps.map (Piece.stripped remove)) ps := by
    rw [List.forall₂_map_left_iff]
    exact List.forall₂_same.2 fun _ _ => rfl
  obtain ⟨inner', after', hextent', -⟩ := exists_of_extentPieces (t := t.stripped remove)
    (fun p q hpq depth => by rw [hpq]; cases q <;> rfl) rfl rfl hstripped hextent
  rw [hextent']
  rfl

/-- Stripping leaves the ends of elements. -/
theorem Closed.stripped (h : Closed ps) (remove : Text → Bool) :
    Closed (ps.map (Piece.stripped remove)) := by
  induction ps with
  | nil => trivial
  | cons p ps ih =>
    cases p with
    | startTag t => exact ⟨isSome_extentPieces_stripped remove h.1, ih h.2⟩
    | text s => exact ih h
    | comment s => exact ih h
    | endTag s => exact ih h
    | stray s => exact ih h

/-- Where every element ends, every start tag of the given names has been changed. -/
theorem Closed.exists_of_mem_retag (h : Closed ps) {u : StartTag}
    (hu : .startTag u ∈ retag names change ps) (hname : names.contains u.name = true) :
    ∃ v ∈ visitsOf names ps, u = change v := by
  induction ps with
  | nil => cases hu
  | cons p ps ih =>
    have htail {q : Piece} (hq : q.isStartTag = false) (h : Closed ps)
        (hu : .startTag u ∈ q :: retag names change ps) : ∃ v ∈ visitsOf names ps, u = change v := by
      rcases List.mem_cons.1 hu with rfl | hu
      · cases hq
      · exact ih h hu
    cases p with
    | startTag t =>
      obtain ⟨hextent, hps⟩ := h
      rcases List.mem_cons.1 hu with heq | hu
      · rw [Piece.startTag.injEq] at heq
        by_cases hcontains : names.contains t.name = true
        · obtain ⟨⟨inner, after⟩, hextent⟩ := Option.isSome_iff_exists.1 hextent
          have hvisit : visit? names t ps = some ⟨t, printed inner⟩ := by
            rw [visit?, if_pos hcontains, hextent]
            rfl
          rw [hvisit] at heq
          exact ⟨_, List.mem_append_left _ (by simp [hvisit]), heq⟩
        · have hvisit : visit? names t ps = none := if_neg hcontains
          rw [hvisit] at heq
          rw [heq] at hname
          exact absurd hname hcontains
      · obtain ⟨v, hv, heq⟩ := ih hps hu
        exact ⟨v, List.mem_append_right _ hv, heq⟩
    | text s => exact htail rfl h hu
    | comment s => exact htail rfl h hu
    | endTag s => exact htail rfl h hu
    | stray s => exact htail rfl h hu

end MaskedViews.Markup
