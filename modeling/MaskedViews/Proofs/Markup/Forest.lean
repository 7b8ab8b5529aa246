import MaskedViews.Proofs.Markup.SettledPieces

/-!
# Forests of elements

Markup whose elements are all closed is a forest: text, comments, tags that are elements by
themselves, and elements with a forest inside. The pieces of a forest are known to nest, so the end
tag that a search finds for an element is its own (`extentPieces_inner`), the elements visited in a
forest are those that are there (`visits_source`), and an editor that removes elements removes these
from the forest (`editElements_remove_source`).
-/

namespace MaskedViews.Markup

/-- Markup in which every element ends. -/
inductive Forest where
  /-- Nothing. -/
  | nil
  /-- Text, and what follows it. -/
  | text (s : Text) (rest : Forest)
  /-- A comment, and what follows it. -/
  | comment (s : Text) (rest : Forest)
  /-- A start tag that is an element by itself, and what follows it. -/
  | single (t : StartTag) (rest : Forest)
  /-- A start tag, the forest inside the element, what stands between `</` and `>` of its end tag,
  and what follows it. -/
  | element (t : StartTag) (inner : Forest) (ending : Text) (rest : Forest)

namespace Forest

/-- The pieces of a forest. -/
def pieces : Forest → List Piece
  | nil => []
  | text s rest => .text s :: rest.pieces
  | comment s rest => .comment s :: rest.pieces
  | single t rest => .startTag t :: rest.pieces
  | element t inner ending rest => .startTag t :: (inner.pieces ++ .endTag ending :: rest.pieces)

/-- The text of a forest. -/
def source (f : Forest) : Text := printed f.pieces

/-- The elements of a forest, in the order of their start tags. -/
def visits : Forest → List Visit
  | nil => []
  | text _ rest => rest.visits
  | comment _ rest => rest.visits
  | single t rest => ⟨t, []⟩ :: rest.visits
  | element t inner _ rest => ⟨t, inner.source⟩ :: (inner.visits ++ rest.visits)

/-- The start tags of a forest, in order. -/
def tags (f : Forest) : List StartTag := f.visits.map Visit.tag

/-- The forest without the elements that are to go. What is inside one of these goes with it, and
what is inside another is looked at as it stands in the whole. -/
def prune (gone : Visit → Bool) : Forest → Forest
  | nil => nil
  | text s rest => text s (rest.prune gone)
  | comment s rest => comment s (rest.prune gone)
  | single t rest => if gone ⟨t, []⟩ then rest.prune gone else single t (rest.prune gone)
  | element t inner ending rest =>
    if gone ⟨t, inner.source⟩ then rest.prune gone
    else element t (inner.prune gone) ending (rest.prune gone)

/-- Whether the start tags by themselves are those of elements that never have an end tag or close
themselves, and the others have end tags that end them. -/
def IsNested : Forest → Prop
  | nil => True
  | text _ rest => rest.IsNested
  | comment _ rest => rest.IsNested
  | single t rest => t.isVoid = true ∧ rest.IsNested
  | element t inner ending rest =>
    t.isVoid = false ∧ closes t.name ending = true ∧ inner.IsNested ∧ rest.IsNested

instance decidableIsNested : DecidablePred IsNested
  | .nil => isTrue trivial
  | .text _ rest => decidableIsNested rest
  | .comment _ rest => decidableIsNested rest
  | .single t rest =>
    have := decidableIsNested rest
    inferInstanceAs (Decidable (t.isVoid = true ∧ rest.IsNested))
  | .element t inner ending rest =>
    have := decidableIsNested inner
    have := decidableIsNested rest
    inferInstanceAs (Decidable (t.isVoid = false ∧ closes t.name ending = true ∧
      inner.IsNested ∧ rest.IsNested))

/-! ### The tags among the pieces -/

/-- The start tags of a forest are those among its pieces. -/
theorem startTagsOf_pieces (f : Forest) : startTagsOf f.pieces = f.tags := by
  induction f with
  | nil => rfl
  | text s rest ih => exact ih
  | comment s rest ih => exact ih
  | single t rest ih => exact congrArg (t :: ·) ih
  | element t inner ending rest ihinner ih =>
    have happend : startTagsOf (pieces (.element t inner ending rest)) =
        t :: (startTagsOf inner.pieces ++ startTagsOf rest.pieces) :=
      congrArg (t :: ·) List.filterMap_append
    rw [happend, ihinner, ih, tags, tags, tags, visits, List.map_cons, List.map_append]

theorem mem_tags {f : Forest} {t : StartTag} : t ∈ f.tags ↔ .startTag t ∈ f.pieces := by
  rw [← startTagsOf_pieces, mem_startTagsOf]

/-- There is no stray `<` in a forest. -/
theorem stray_not_mem_pieces (f : Forest) (s : Text) : .stray s ∉ f.pieces := by
  induction f with
  | nil => simp [pieces]
  | text x rest ih => simpa [pieces] using ih
  | comment x rest ih => simpa [pieces] using ih
  | single t rest ih => simpa [pieces] using ih
  | element t inner ending rest ihinner ih => simpa [pieces] using ⟨ihinner, ih⟩

theorem toLower_toLower (c : Char) : c.toLower.toLower = c.toLower := by
  by_cases hc : c.isUpper = true
  · have hcodes : ∀ n < 128, (Char.ofNat n).toLower.toLower = (Char.ofNat n).toLower := by
      decide +kernel
    have hlower := hcodes c.toNat (toNat_lt_of_isNameChar (isNameChar_of_isUpper hc))
    rwa [Char.ofNat_toNat] at hlower
  · rw [toLower_of_not_isUpper hc, toLower_of_not_isUpper hc]

/-- Two elements have the same name if one end tag ends both. -/
theorem name_eq_of_closes {t u : StartTag} (ht : t.Legible) (hu : u.Legible) {s : Text}
    (h : closes t.name s = true) (h' : closes u.name s = true) : t.name = u.name := by
  have hword {v : StartTag} (hv : v.Legible) (hs : closes v.name s = true) :
      Text.lower (s.takeWhile (!Text.isBlank ·)) = Text.lower v.name := by
    simp only [closes, Option.any_eq_true, Text.allBlank, List.all_eq_true] at hs
    obtain ⟨r, hr, hblank⟩ := hs
    obtain ⟨w, rfl, hw⟩ := Text.restIgnoringCase?_eq_some_iff.1 hr
    have hfirm : ∀ c ∈ w, (!Text.isBlank c) = true := by
      intro c hc
      have := isFirmName_of_legible hv c (hw ▸ List.mem_map_of_mem hc)
      simpa using (isFirm_iff.1 this).1
    have hheads : Text.Heads (!(fun c => !Text.isBlank c) ·) r := by
      intro c hc
      simpa using hblank c (List.mem_of_mem_head? hc)
    rw [(Text.split_append_of_heads hfirm hheads).1, hw]
  have hlower (v : StartTag) : Text.lower v.name = v.name := by
    rw [StartTag.name, Text.lower, Text.lower, List.map_map]
    exact List.map_congr_left fun c _ => toLower_toLower c
  rw [← hlower t, ← hlower u, ← hword ht h, ← hword hu h']

/-! ### End tags -/

theorem splitPieces_cons {name : Text} {depth d : Nat} {p : Piece}
    (h : depthAfter? name depth p = some d) (ps : List Piece) :
    splitPieces name depth (p :: ps) =
      (splitPieces name d ps).map fun (inner, after) => (p :: inner, after) := by
  rw [splitPieces, h]

/-- A search for an end tag passes over a forest. -/
theorem splitPieces_append {name : Text} (hname : StartTag.voidNames.contains name = false)
    {t : StartTag} (ht : t.Legible) (hn : t.name = name) {f : Forest} (hnested : f.IsNested)
    (hlegible : ∀ u ∈ f.tags, u.Legible) (depth : Nat) (ps : List Piece) :
    splitPieces name depth (f.pieces ++ ps) =
      (splitPieces name depth ps).map fun (inner, after) => (f.pieces ++ inner, after) := by
  induction f generalizing depth ps with
  | nil => simp [pieces]
  | text s rest ih =>
    rw [pieces, List.cons_append, splitPieces_cons rfl, ih hnested hlegible]
    simp [Function.comp_def]
  | comment s rest ih =>
    rw [pieces, List.cons_append, splitPieces_cons rfl, ih hnested hlegible]
    simp [Function.comp_def]
  | single u rest ih =>
    have hdepth : depthAfter? name depth (.startTag u) = some depth := by
      have : ¬(u.name = name ∧ (!u.selfClosing) = true) := by
        rintro ⟨rfl, hopen⟩
        have hvoid := hnested.1
        simp only [StartTag.isVoid, hname, Bool.or_false] at hvoid
        simp [hvoid] at hopen
      rw [depthAfter?, if_neg this]
    have ih := ih hnested.2 (fun v hv => hlegible v (List.mem_cons_of_mem _ hv)) depth ps
    rw [pieces, List.cons_append, splitPieces_cons hdepth, ih]
    simp [Function.comp_def]
  | element u inner ending rest ihinner ih =>
    obtain ⟨hopen, hcloses, hinner, hrest⟩ := hnested
    have hu : u.Legible := hlegible u (by simp [tags, visits])
    have ihinner := ihinner hinner fun v hv => hlegible v (by
      simp only [tags, visits, List.map_cons, List.map_append] at hv ⊢
      exact List.mem_cons_of_mem _ (List.mem_append_left _ hv))
    have ih := ih hrest fun v hv => hlegible v (by
      simp only [tags, visits, List.map_cons, List.map_append] at hv ⊢
      exact List.mem_cons_of_mem _ (List.mem_append_right _ hv))
    have hself : u.selfClosing = false := by
      simp only [StartTag.isVoid, Bool.or_eq_false_iff] at hopen
      exact hopen.1
    -- the end tag takes back what the start tag has opened
    have hdepth : ∃ d, depthAfter? name depth (.startTag u) = some d ∧
        depthAfter? name d (.endTag ending) = some depth := by
      by_cases hun : u.name = name
      · refine ⟨depth + 1, by simp [depthAfter?, hun, hself], ?_⟩
        rw [hun] at hcloses
        simp [depthAfter?, hcloses]
      · have hother : closes name ending = false := by
          rw [← Bool.not_eq_true, ← hn]
          exact fun h => hun ((name_eq_of_closes hu ht hcloses h).trans hn)
        exact ⟨depth, by simp [depthAfter?, hun], by simp [depthAfter?, hother]⟩
    obtain ⟨d, hstart, hend⟩ := hdepth
    rw [pieces, List.cons_append, List.append_assoc, List.cons_append, splitPieces_cons hstart,
      ihinner, splitPieces_cons hend, ih]
    simp [Function.comp_def]

/-- **The end tag found for an element of a forest is its own.** -/
theorem extentPieces_inner {t : StartTag} (ht : t.Legible) {inner : Forest} {ending : Text}
    (hopen : t.isVoid = false) (hcloses : closes t.name ending = true) (hnested : inner.IsNested)
    (hlegible : ∀ u ∈ inner.tags, u.Legible) (ps : List Piece) :
    extentPieces t (inner.pieces ++ .endTag ending :: ps) = some (inner.pieces, ps) := by
  have hname : StartTag.voidNames.contains t.name = false := by
    simp only [StartTag.isVoid, Bool.or_eq_false_iff] at hopen
    exact hopen.2
  rw [extentPieces, if_neg (by simp [hopen]), splitPieces_append hname ht rfl hnested hlegible]
  simp [splitPieces, depthAfter?, hcloses]

/-! ### Visits -/

theorem legible_of_fits {f : Forest} (h : ∀ p ∈ f.pieces, p.Fits) : ∀ t ∈ f.tags, t.Legible :=
  fun t ht => h (.startTag t) (mem_tags.1 ht)

/-- The elements found among pieces that begin with a forest. -/
theorem visitsOf_append (names : List Text) {f : Forest} (hnested : f.IsNested)
    (hlegible : ∀ t ∈ f.tags, t.Legible) (ps : List Piece) :
    visitsOf names (f.pieces ++ ps) =
      (f.visits.filter fun v => names.contains v.tag.name) ++ visitsOf names ps := by
  induction f generalizing ps with
  | nil => rfl
  | text s rest ih => exact ih hnested hlegible ps
  | comment s rest ih => exact ih hnested hlegible ps
  | single t rest ih =>
    have ih := ih hnested.2 (fun u hu => hlegible u (List.mem_cons_of_mem _ hu)) ps
    rw [pieces, List.cons_append, visitsOf, ih, visits, List.filter_cons, visit?, extentPieces,
      if_pos hnested.1]
    cases names.contains t.name <;> rfl
  | element t inner ending rest ihinner ih =>
    obtain ⟨hopen, hcloses, hinner, hrest⟩ := hnested
    simp only [tags, visits, List.map_cons, List.map_append, List.mem_cons, List.mem_append]
      at hlegible
    have hl := fun u hu => hlegible u (.inr (.inl hu))
    have hend : visitsOf names (.endTag ending :: (rest.pieces ++ ps)) =
        visitsOf names (rest.pieces ++ ps) := rfl
    rw [pieces, List.cons_append, visitsOf, List.append_assoc, ihinner hinner hl, List.cons_append,
      hend, ih hrest fun u hu => hlegible u (.inr (.inr hu)), visit?,
      extentPieces_inner (hlegible t (.inl rfl)) hopen hcloses hinner hl, visits, List.filter_cons,
      List.filter_append]
    cases names.contains t.name <;> simp [source]

/-- **The elements visited in a forest are those that are there.** -/
theorem visits_source (names : List Text) {f : Forest} (hnested : f.IsNested)
    (hfits : ∀ p ∈ f.pieces, p.Fits) :
    Markup.visits names (fun _ => .keep) f.source =
      f.visits.filter fun v => names.contains v.tag.name := by
  rw [source, visits_printed names (by simp) f.pieces hfits]
  have := visitsOf_append names hnested (legible_of_fits hfits) []
  rwa [List.append_nil, visitsOf, List.append_nil] at this

/-! ### What is left -/

variable {gone : Visit → Bool}

theorem isNested_prune {f : Forest} (h : f.IsNested) : (f.prune gone).IsNested := by
  induction f with
  | nil => trivial
  | text s rest ih => exact ih h
  | comment s rest ih => exact ih h
  | single t rest ih =>
    rw [prune]
    split
    · exact ih h.2
    · exact ⟨h.1, ih h.2⟩
  | element t inner ending rest ihinner ih =>
    obtain ⟨hopen, hcloses, hinner, hrest⟩ := h
    rw [prune]
    split
    · exact ih hrest
    · exact ⟨hopen, hcloses, ihinner hinner, ih hrest⟩

theorem sublist_prune (f : Forest) : (f.prune gone).pieces.Sublist f.pieces := by
  induction f with
  | nil => exact .slnil
  | text s rest ih => exact ih.cons_cons _
  | comment s rest ih => exact ih.cons_cons _
  | single t rest ih =>
    rw [prune]
    split
    · exact ih.cons _
    · exact ih.cons_cons _
  | element t inner ending rest ihinner ih =>
    rw [prune]
    split
    · exact ((ih.cons _).trans (List.sublist_append_right _ _)).cons _
    · exact (ihinner.append (ih.cons_cons _)).cons_cons _

/-- Fewer elements go if fewer have to. -/
theorem sublist_prune_of_imp {gone' : Visit → Bool} {f : Forest}
    (h : ∀ v ∈ f.visits, gone' v = true → gone v = true) :
    (f.prune gone).pieces.Sublist (f.prune gone').pieces := by
  induction f with
  | nil => exact .slnil
  | text s rest ih => exact (ih h).cons_cons _
  | comment s rest ih => exact (ih h).cons_cons _
  | single t rest ih =>
    obtain ⟨ht, hrest⟩ := List.forall_mem_cons.1 h
    have ih := ih hrest
    rw [prune, prune]
    cases hgone : gone ⟨t, []⟩ with
    | false =>
      have hgone' : gone' ⟨t, []⟩ = false := Bool.eq_false_iff.2 fun h => by simp [ht h] at hgone
      rw [hgone']
      exact ih.cons_cons _
    | true =>
      cases gone' ⟨t, []⟩ with
      | false => exact ih.cons _
      | true => exact ih
  | element t inner ending rest ihinner ih =>
    simp only [visits, List.mem_cons, List.mem_append, or_imp, forall_and, forall_eq] at h
    obtain ⟨ht, hinner, hrest⟩ := h
    have ih := ih hrest
    rw [prune, prune]
    cases hgone : gone ⟨t, inner.source⟩ with
    | false =>
      have hgone' : gone' ⟨t, inner.source⟩ = false :=
        Bool.eq_false_iff.2 fun h => by simp [ht h] at hgone
      rw [hgone']
      exact ((ihinner hinner).append (ih.cons_cons _)).cons_cons _
    | true =>
      cases gone' ⟨t, inner.source⟩ with
      | false => exact ((ih.cons _).trans (List.sublist_append_right _ _)).cons _
      | true => exact ih

/-- What all pieces have in common, those that are left have too. -/
theorem forall_mem_prune (gone : Visit → Bool) {P : Piece → Prop} {f : Forest}
    (h : ∀ p ∈ f.pieces, P p) : ∀ p ∈ (f.prune gone).pieces, P p :=
  fun p hp => h p ((sublist_prune f).subset hp)

/-- Nothing goes if nothing is to go. -/
theorem prune_of_forall {f : Forest} (h : ∀ v ∈ f.visits, gone v = false) : f.prune gone = f := by
  induction f with
  | nil => rfl
  | text s rest ih => rw [prune, ih h]
  | comment s rest ih => rw [prune, ih h]
  | single t rest ih =>
    obtain ⟨ht, hrest⟩ := List.forall_mem_cons.1 h
    rw [prune, if_neg (by simp [ht]), ih hrest]
  | element t inner ending rest ihinner ih =>
    simp only [visits, List.mem_cons, List.mem_append, or_imp, forall_and, forall_eq] at h
    rw [prune, if_neg (by simp [h.1]), ihinner h.2.1, ih h.2.2]

/-- Whether an element is what is left of one of a forest that did not have to go: it has the same start
tag, and no other pieces inside than that one had. -/
def IsLeftOf (gone : Visit → Bool) (f : Forest) (v : Visit) : Prop :=
  ∃ ps qs : List Piece, ⟨v.tag, printed ps⟩ ∈ f.visits ∧ gone ⟨v.tag, printed ps⟩ = false ∧
    v.inner = printed qs ∧ qs.Sublist ps ∧ ps.Sublist f.pieces

/-- A forest has the elements of the forests in it. -/
theorem IsLeftOf.mono {f g : Forest} {v : Visit} (h : IsLeftOf gone f v) (hvisits : f.visits ⊆ g.visits)
    (hpieces : f.pieces.Sublist g.pieces) : IsLeftOf gone g v := by
  obtain ⟨ps, qs, hmem, hgone, hinner, hqs, hps⟩ := h
  exact ⟨ps, qs, hvisits hmem, hgone, hinner, hqs, hps.trans hpieces⟩

/-- The elements of a pruned forest are left of those that were there. -/
theorem isLeftOf_of_mem_visits_prune {f : Forest} {v : Visit} (h : v ∈ (f.prune gone).visits) :
    IsLeftOf gone f v := by
  induction f with
  | nil => cases h
  | text s rest ih => exact (ih h).mono (List.Subset.refl _) (List.sublist_cons_self _ _)
  | comment s rest ih => exact (ih h).mono (List.Subset.refl _) (List.sublist_cons_self _ _)
  | single t rest ih =>
    have hrest (h : v ∈ (rest.prune gone).visits) : IsLeftOf gone (single t rest) v :=
      (ih h).mono (List.subset_cons_self _ _) (List.sublist_cons_self _ _)
    rw [prune] at h
    split at h
    · exact hrest h
    · next hgone =>
      rcases List.mem_cons.1 h with rfl | h
      · exact ⟨[], [], List.mem_cons_self, by simpa using hgone, rfl, .slnil, List.nil_sublist _⟩
      · exact hrest h
  | element t inner ending rest ihinner ih =>
    have hinner : inner.visits ⊆ (element t inner ending rest).visits :=
      List.Subset.trans (List.subset_append_left _ _) (List.subset_cons_self _ _)
    have hpieces : inner.pieces.Sublist (element t inner ending rest).pieces :=
      (List.sublist_append_left _ _).cons _
    have hrest (h : v ∈ (rest.prune gone).visits) : IsLeftOf gone (element t inner ending rest) v :=
      (ih h).mono (List.Subset.trans (List.subset_append_right _ _) (List.subset_cons_self _ _))
        (((List.sublist_cons_self _ _).trans (List.sublist_append_right _ _)).cons _)
    rw [prune] at h
    split at h
    · exact hrest h
    · next hgone =>
      rw [Bool.not_eq_true] at hgone
      rcases List.mem_cons.1 h with rfl | h
      · exact ⟨inner.pieces, (inner.prune gone).pieces, List.mem_cons_self, hgone, rfl,
          sublist_prune inner, hpieces⟩
      · rcases List.mem_append.1 h with h | h
        · exact (ihinner h).mono hinner hpieces
        · exact hrest h

/-- Two prunings are one, if the second is decided by start tags alone. -/
theorem prune_prune {gone' : Visit → Bool} (h : ∀ v w : Visit, v.tag = w.tag → gone' v = gone' w)
    (f : Forest) : (f.prune gone).prune gone' = f.prune fun v => gone v || gone' v := by
  induction f with
  | nil => rfl
  | text s rest ih => rw [prune, prune, prune, ih]
  | comment s rest ih => rw [prune, prune, prune, ih]
  | single t rest ih =>
    rw [prune, prune]
    cases hgone : gone ⟨t, []⟩ with
    | true => simpa using ih
    | false => simp [prune, ih]
  | element t inner ending rest ihinner ih =>
    rw [prune, prune]
    cases hgone : gone ⟨t, inner.source⟩ with
    | true => simpa using ih
    | false => simp [prune, ih, ihinner, h ⟨t, (inner.prune gone).source⟩ ⟨t, inner.source⟩ rfl]

end Forest

end MaskedViews.Markup
