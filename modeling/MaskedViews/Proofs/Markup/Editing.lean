import MaskedViews.Markup.Edit
import MaskedViews.Proofs.Markup.Legible

/-!
# What an editor does

An editor leaves the stretches alone that no visit decides, and does to the others what it decides
(`stretch_cases`). An editor that removes nothing is asked about the same elements whatever it
does with them (`visits_eq_of_not_remove`), and one that leaves each element as it is written changes
nothing (`editElements_eq_self`).
-/

namespace MaskedViews.Markup

theorem legible_of_firstTag? {s before r : Text} {t : StartTag}
    (h : firstTag? s = some (before, t, r)) : t.Legible := by
  obtain ⟨x, -, ht⟩ := exists_read?_of_firstTag? h
  exact StartTag.legible_of_read? ht

/-- Whether a stretch becomes what was decided about it. -/
def Stretch.Obeys (x : Stretch) (v : Visit) : Edit → Prop
  | .keep => x.before = v.tag.source ∧ x.after = v.tag.source
  | .remove => x.after = []
  | .replaceTag written => x.before = v.tag.source ∧ x.after = written

/-- A stretch stays as it is, or what was decided is done to it. -/
theorem stretch_cases {names : List Text} {decide : Visit → Edit} {s : Text} {x : Stretch}
    (h : x ∈ edits names decide s) :
    x = .same x.before ∨ ∃ v, x.visit = some v ∧ v.tag.Legible ∧ names.contains v.tag.name = true ∧
      x.Obeys v (decide v) := by
  fun_induction edits names decide s with
  | case1 s hs =>
    simp only [List.mem_singleton] at h
    exact Or.inl (by rw [h]; rfl)
  | case2 s before t r hs hn he ih =>
    simp only [List.mem_cons] at h
    rcases h with rfl | rfl | h
    · exact Or.inl rfl
    · exact Or.inl rfl
    · exact ih h
  | case3 s before t r hs hn inner after he hd ih =>
    simp only [List.mem_cons] at h
    rcases h with rfl | rfl | h
    · exact Or.inl rfl
    · exact Or.inr ⟨_, rfl, legible_of_firstTag? hs, hn, by rw [hd]; exact ⟨rfl, rfl⟩⟩
    · exact ih h
  | case4 s before t r hs hn inner after he hd ih =>
    simp only [List.mem_cons] at h
    rcases h with rfl | rfl | h
    · exact Or.inl rfl
    · exact Or.inr ⟨_, rfl, legible_of_firstTag? hs, hn, by rw [hd]; exact rfl⟩
    · exact ih h
  | case5 s before t r hs hn inner after he written hd ih =>
    simp only [List.mem_cons] at h
    rcases h with rfl | rfl | h
    · exact Or.inl rfl
    · exact Or.inr ⟨_, rfl, legible_of_firstTag? hs, hn, by rw [hd]; exact ⟨rfl, rfl⟩⟩
    · exact ih h
  | case6 s before t r hs hn ih =>
    simp only [List.mem_cons] at h
    rcases h with rfl | rfl | h
    · exact Or.inl rfl
    · exact Or.inl rfl
    · exact ih h

/-- The stretches that an editor is asked about are those of its visits. -/
theorem mem_visits {names : List Text} {decide : Visit → Edit} {s : Text} {v : Visit} :
    v ∈ visits names decide s ↔ ∃ x ∈ edits names decide s, x.visit = some v :=
  List.mem_filterMap

theorem edits_of_none {names : List Text} {decide : Visit → Edit} {s : Text}
    (h : firstTag? s = none) : edits names decide s = [.same s] := by
  rw [edits]
  split
  · rfl
  · next h' =>
    rw [h] at h'
    cases h'

/-- What becomes of a document from its first tag on. -/
theorem edits_of_some {names : List Text} {decide : Visit → Edit} {s before r : Text}
    {t : StartTag} (h : firstTag? s = some (before, t, r)) :
    edits names decide s = .same before ::
      if names.contains t.name then
        match extent? t r with
        | none => .same t.source :: edits names decide r
        | some (inner, after) =>
          match decide ⟨t, inner⟩ with
          | .keep => ⟨t.source, t.source, some ⟨t, inner⟩⟩ :: edits names decide r
          | .remove => ⟨t.source ++ passed r after, [], some ⟨t, inner⟩⟩ :: edits names decide after
          | .replaceTag written => ⟨t.source, written, some ⟨t, inner⟩⟩ :: edits names decide r
      else .same t.source :: edits names decide r := by
  rw [edits]
  split
  · next h' =>
    rw [h] at h'
    cases h'
  · next h' =>
    rw [h] at h'
    cases h'
    split
    · split
      · next he => rw [he]
      · next inner after he =>
        rw [he]
        dsimp only
        cases decide ⟨t, inner⟩ <;> rfl
    · rfl

theorem editElements_of_none {names : List Text} {decide : Visit → Edit} {s : Text}
    (h : firstTag? s = none) : editElements names decide s = s := by
  rw [editElements, edits_of_none h]
  simp [Stretch.same]

/-- What an editor leaves of a document from its first tag on. -/
theorem editElements_of_some {names : List Text} {decide : Visit → Edit} {s before r : Text}
    {t : StartTag} (h : firstTag? s = some (before, t, r)) :
    editElements names decide s = before ++
      if names.contains t.name then
        match extent? t r with
        | none => t.source ++ editElements names decide r
        | some (inner, after) =>
          match decide ⟨t, inner⟩ with
          | .keep => t.source ++ editElements names decide r
          | .remove => editElements names decide after
          | .replaceTag written => written ++ editElements names decide r
      else t.source ++ editElements names decide r := by
  rw [editElements, edits_of_some h]
  split
  · cases extent? t r with
    | none => simp [Stretch.same, editElements]
    | some x =>
      obtain ⟨inner, after⟩ := x
      dsimp only
      cases decide ⟨t, inner⟩ <;> simp [Stretch.same, editElements]
  · simp [Stretch.same, editElements]

/-- An editor that removes nothing is asked about every element. -/
theorem visits_eq_of_not_remove (names : List Text) {decide : Visit → Edit}
    (h : ∀ v, decide v ≠ .remove) (s : Text) :
    visits names decide s = visits names (fun _ => .keep) s := by
  unfold visits
  fun_induction edits names decide s with
  | case1 s hs => rw [edits_of_none hs]
  | case2 s before t r hs hn he ih =>
    rw [edits_of_some hs, if_pos hn, he]
    simpa [Stretch.same] using ih
  | case3 s before t r hs hn inner after he hd ih =>
    rw [edits_of_some hs, if_pos hn, he]
    simpa [Stretch.same] using ih
  | case4 s before t r hs hn inner after he hd ih => exact absurd hd (h _)
  | case5 s before t r hs hn inner after he written hd ih =>
    rw [edits_of_some hs, if_pos hn, he]
    simpa [Stretch.same] using ih
  | case6 s before t r hs hn ih =>
    rw [edits_of_some hs, if_neg hn]
    simpa [Stretch.same] using ih

/-- An editor that leaves every element as it is written changes nothing. -/
theorem editElements_eq_self {names : List Text} {decide : Visit → Edit} {s : Text}
    (h : ∀ v ∈ visits names (fun _ => .keep) s,
      decide v = .keep ∨ decide v = .replaceTag v.tag.source) : editElements names decide s = s := by
  unfold visits at h
  fun_induction edits names (fun _ => Edit.keep) s with
  | case1 s hs => exact editElements_of_none hs
  | case2 s before t r hs hn he ih =>
    rw [editElements_of_some hs, if_pos hn, he, ih fun v hv => h v (by simpa [Stretch.same] using hv)]
    exact (eq_of_firstTag? hs).symm
  | case3 s before t r hs hn inner after he hd ih =>
    rw [editElements_of_some hs, if_pos hn, he,
      ih fun v hv => h v (List.mem_cons_of_mem _ (by simpa using hv))]
    rw [eq_of_firstTag? hs]
    rcases h ⟨t, inner⟩ (by simp [Stretch.same]) with hkeep | hsame
    · simp only [hkeep]
    · simp only [hsame]
  | case4 s before t r hs hn inner after he hd ih => cases hd
  | case5 s before t r hs hn inner after he written hd ih => cases hd
  | case6 s before t r hs hn ih =>
    rw [editElements_of_some hs, if_neg hn, ih fun v hv => h v (by simpa [Stretch.same] using hv)]
    exact (eq_of_firstTag? hs).symm

/-! ### The tags of elements -/

/-- The start tags of a document, each with the text behind it. -/
def tagsWithRest (s : Text) : List (StartTag × Text) :=
  match _h : firstTag? s with
  | none => []
  | some (_, t, r) => (t, r) :: tagsWithRest r
termination_by s.length
decreasing_by exact length_of_firstTag? _h

/-- The start tags of the elements of given names: those that end with them or have an end tag. -/
def elements (names : List Text) (s : Text) : List StartTag :=
  ((tagsWithRest s).filter fun (t, r) => names.contains t.name && (extent? t r).isSome).map Prod.fst

theorem map_fst_tagsWithRest (s : Text) : (tagsWithRest s).map Prod.fst = startTags s := by
  suffices h : ∀ start, (tagsFrom start s).map PlacedTag.tag = (tagsWithRest s).map Prod.fst from
    (h 0).symm
  intro start
  fun_induction tagsFrom start s with
  | case1 start s h =>
    rw [tagsWithRest]
    split
    · rfl
    · next h' =>
      rw [h] at h'
      cases h'
  | case2 start s before t r h p ih =>
    rw [tagsWithRest]
    split
    · next h' =>
      rw [h] at h'
      cases h'
    · next h' =>
      rw [h] at h'
      cases h'
      exact congrArg (t :: ·) ih

/-- **An editor is asked about the elements.** -/
theorem tags_visits (names : List Text) {decide : Visit → Edit} (hdecide : ∀ v, decide v ≠ .remove)
    (s : Text) : (visits names decide s).map Visit.tag = elements names s := by
  rw [visits_eq_of_not_remove names hdecide, visits, elements]
  fun_induction tagsWithRest s with
  | case1 s h =>
    rw [edits_of_none h]
    rfl
  | case2 s before t r h ih =>
    rw [edits_of_some h, List.filter_cons]
    by_cases hname : t.name ∈ names
    · cases hextent : extent? t r with
      | none => simpa [Stretch.same, hname, hextent] using ih
      | some x => simpa [Stretch.same, hname, hextent] using ih
    · simpa [Stretch.same, hname] using ih

/-- The tag of an element is one of the start tags. -/
theorem mem_startTags_of_mem_visits {names : List Text} {s : Text} {v : Visit}
    (h : v ∈ visits names (fun _ => .keep) s) :
    v.tag ∈ startTags s ∧ names.contains v.tag.name = true := by
  have hkeep : ∀ w : Visit, (fun _ : Visit => Edit.keep) w ≠ .remove := by
    intro w
    simp
  have hmem : v.tag ∈ elements names s := by
    rw [← tags_visits names hkeep s]
    exact List.mem_map_of_mem h
  obtain ⟨⟨t, r⟩, hfilter, htag⟩ := List.mem_map.1 hmem
  obtain ⟨hrest, hname⟩ := List.mem_filter.1 hfilter
  have htag : t = v.tag := htag
  rw [Bool.and_eq_true, htag] at hname
  refine ⟨?_, hname.1⟩
  rw [← map_fst_tagsWithRest, ← htag]
  exact List.mem_map_of_mem hrest

end MaskedViews.Markup
