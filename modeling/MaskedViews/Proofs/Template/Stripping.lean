import MaskedViews.Proofs.Template.Placeholders
import MaskedViews.Proofs.Text.Cutting

/-!
# Tags of a stripped template

Taking tags out of a template brings the text on either side together, and yet no new tag comes
about and none that stays is changed (`tags_strip`). In front of a tag there is never an opening
brace that could join another behind it; and for three closing braces to come together where a tag
was taken out, the text behind it would have to begin with a brace, which would have stood behind
the two braces of the tag before.
-/

namespace MaskedViews

namespace Token

/-! ### In front of a tag -/

/-- What stands in front of a tag is inert. -/
theorem inert_of_cut? {s before after : Text} (h : Text.cut? openTag s = some (before, after)) :
    Inert before := by
  induction s generalizing before with
  | nil => cases h
  | cons c s ih =>
    rw [openTag, Text.cut?] at h
    split at h
    · simp only [Option.some.injEq, Prod.mk.injEq] at h
      rw [← h.1]
      exact Inert.nil
    · next hne =>
      obtain ⟨⟨b, a⟩, hcut, heq⟩ := Option.map_eq_some_iff.1 h
      simp only [Prod.mk.injEq] at heq
      obtain ⟨rfl, rfl⟩ := heq
      have hs := Text.eq_of_cut? hcut
      intro y
      -- the two characters at the front of `c :: b ++ y` are no mark
      have hc : Text.rest? openTag (c :: (b ++ y)) = none := by
        cases b with
        | nil =>
          have : '{' ≠ c := by
            rintro rfl
            rw [hs] at hne
            simp [Text.rest?] at hne
          simp [openTag, Text.rest?, this]
        | cons d b =>
          have hrest (z : Text) := Text.rest?_append_of_length
            (show openTag.length ≤ (c :: d :: b).length by simp [openTag]) z
          rw [hs] at hne
          simp only [List.cons_append] at hrest hne ⊢
          rw [← openTag, hrest, Option.map_eq_none_iff] at hne
          rw [hrest, hne]
          rfl
      rw [List.cons_append, openTag, Text.cut?, ← openTag, hc, ih hcut y]
      simp [Function.comp_def]

/-- An opening brace that may not be joined by another stands next to none. -/
theorem getLast?_ne_of_cut? {y : Text} (h : Text.cut? openTag (y ++ ['{']) = none) :
    y.getLast? ≠ some '{' := by
  intro hlast
  obtain ⟨z, rfl⟩ := List.getLast?_eq_some_iff.1 hlast
  obtain ⟨b, r, hsome, -⟩ := Text.exists_cut? '{' ['{'] z []
  rw [List.append_assoc] at h
  exact absurd (hsome.symm.trans h) (by simp)

/-- What an opening brace may not join does not end with one. -/
theorem Inert.getLast?_ne {x : Text} (h : Inert x) : x.getLast? ≠ some '{' :=
  getLast?_ne_of_cut? (h ['{'])

/-! ### Three closing braces -/

/-- Three closing braces are not found across a place behind which there is none. -/
theorem cut?_closeRaw_append {x y z : Text} (hx : Text.cut? closeRaw (x ++ z) = none)
    (hhead : y.head? ≠ some '}') (hy : Text.cut? closeRaw y = none) :
    Text.cut? closeRaw (x ++ y) = none := by
  have hapart : Text.Apart closeRaw x y := by
    rintro c d - hd - hmem
    have : d = '}' := by simpa [closeRaw] using hmem
    exact hhead (this ▸ hd)
  rw [closeRaw] at *
  rw [Text.cut?_append_of_apart hapart, Text.cut?_eq_none_of_append_left hx, hy]
  rfl

/-- Taking out a text that ends in two closing braces brings no three together. -/
theorem cut?_closeRaw_of_closeTag {x y z : Text}
    (h : Text.cut? closeRaw (x ++ (z ++ (closeTag ++ y))) = none) :
    Text.cut? closeRaw (x ++ y) = none := by
  have hclose : Text.cut? closeRaw (closeTag ++ y) = none :=
    Text.cut?_eq_none_of_append (Text.cut?_eq_none_of_append h)
  refine cut?_closeRaw_append h ?_ (Text.cut?_eq_none_of_append hclose)
  intro hhead
  obtain ⟨y, rfl⟩ := List.head?_eq_some_iff.1 hhead
  simp [closeTag, closeRaw, Text.cut?, Text.rest?] at hclose

/-! ### Stripping -/

theorem filter_ofText (remove : Text → Bool) (s : Text) :
    (ofText s).filter (fun t => !t.isStripped remove) = ofText s := by
  rw [List.filter_eq_self]
  intro t ht
  obtain ⟨-, rfl⟩ := mem_ofText.1 ht
  rfl

theorem strip_of_none {s : Text} (remove : Text → Bool) (h : firstTag? s = none) :
    strip remove s = s := by
  rw [strip, tokenize_of_none h, filter_ofText, flatMap_source_ofText]

theorem strip_of_some {s before r : Text} {t : Token} (remove : Text → Bool)
    (h : firstTag? s = some (before, t, r)) :
    strip remove s = before ++ ((if t.isStripped remove then [] else t.source) ++ strip remove r) := by
  rw [strip, tokenize_of_some h, List.filter_append, filter_ofText, List.flatMap_append,
    flatMap_source_ofText, List.filter_cons]
  by_cases ht : t.isStripped remove = true
  · simp [ht, strip]
  · simp [ht, strip]

/-- A tag ends in two closing braces. -/
theorem exists_source_eq {t : Token} (h : t.isTag = true) : ∃ z, t.source = z ++ closeTag := by
  cases t with
  | text s => cases h
  | tag content => exact ⟨openTag ++ content, by simp [source]⟩
  | rawTag content => exact ⟨openRaw ++ (content ++ ['}']), by simp [source, closeRaw, closeTag]⟩

/-- Three closing braces do not come together when tags are taken out. -/
theorem cut?_closeRaw_strip (remove : Text → Bool) {x s : Text}
    (h : Text.cut? closeRaw (x ++ s) = none) : Text.cut? closeRaw (x ++ strip remove s) = none := by
  fun_induction tokenize s generalizing x with
  | case1 s hs => rwa [strip_of_none remove hs]
  | case2 s before t r hs ih =>
    rw [strip_of_some remove hs]
    rw [eq_of_firstTag? hs] at h
    split
    · obtain ⟨z, hz⟩ := exists_source_eq (isTag_of_firstTag? hs)
      rw [hz] at h
      rw [List.nil_append, ← List.append_assoc]
      refine ih (cut?_closeRaw_of_closeTag (z := z) ?_)
      simpa only [List.append_assoc] using h
    · rw [← List.append_assoc, ← List.append_assoc]
      refine ih ?_
      simpa only [List.append_assoc] using h

theorem cut?_openTag_append (s : Text) : Text.cut? openTag (openTag ++ s) = some ([], s) := by
  simp [openTag, Text.cut?, Text.rest?]

theorem inert_of_firstTag? {s before r : Text} {t : Token} (h : firstTag? s = some (before, t, r)) :
    Inert before := by
  obtain ⟨after, hb, -⟩ := firstTag?_cases h
  exact inert_of_cut? hb

/-- A tag at the front of a text is read alike in front of another text, unless it begins with three
opening braces and that text has new closing ones. -/
theorem firstTag?_source_append {s before r r' : Text} {t : Token}
    (h : firstTag? s = some (before, t, r)) (hr : ∀ content, t = tag ('{' :: content) →
      ∀ z, Text.cut? closeRaw (z ++ r) = none → Text.cut? closeRaw (z ++ r') = none) :
    firstTag? (t.source ++ r') = some ([], t, r') := by
  obtain ⟨after, -, ⟨content, rfl, hraw⟩ | ⟨content, rfl, hraw, hclose⟩⟩ := firstTag?_cases h
  · have hafter := eq_of_rawTag? hraw
    rw [hafter] at hraw
    have hraw' : rawTag? ('{' :: (content ++ (closeRaw ++ r'))) = some (content, r') :=
      Text.cut?_append_mark hraw r'
    have hsource : (rawTag content).source ++ r' =
        openTag ++ '{' :: (content ++ (closeRaw ++ r')) := by
      simp [source, openRaw, openTag]
    rw [hsource]
    exact firstTag?_of_rawTag? (cut?_openTag_append _) hraw'
  · have hafter := Text.eq_of_cut? hclose
    rw [hafter] at hraw hclose
    have hraw' : rawTag? (content ++ (closeTag ++ r')) = none := by
      by_cases hc : content.head? = some '{'
      · obtain ⟨content, rfl⟩ := List.head?_eq_some_iff.1 hc
        have := hr content rfl (content ++ closeTag)
        simp only [List.append_assoc] at this
        exact this hraw
      · refine rawTag?_of_head ?_
        cases content with
        | nil => simp [closeTag]
        | cons c content => simpa using hc
    have hclose' : Text.cut? closeTag (content ++ (closeTag ++ r')) = some (content, r') :=
      Text.cut?_append_mark hclose r'
    have hsource : (tag content).source ++ r' = openTag ++ (content ++ (closeTag ++ r')) := by
      simp [source]
    rw [hsource]
    exact firstTag?_of_cut? (cut?_openTag_append _) hraw' hclose'

/-- **Stripping takes the stripped tags out and leaves the others as they are.** -/
theorem tags_strip (remove : Text → Bool) (s : Text) :
    tags (strip remove s) = (tags s).filter fun t => !t.isStripped remove := by
  -- what has been passed since the last tag that stays is inert
  suffices h : ∀ x, Inert x →
      tags (x ++ strip remove s) = (tags s).filter fun t => !t.isStripped remove from h [] Inert.nil
  fun_induction tokenize s with
  | case1 s hs =>
    intro x hx
    have hfirst : firstTag? (x ++ s) = none := by rw [firstTag?_inert_append hx, hs, Option.map_none]
    rw [strip_of_none remove hs, tags_of_none hs, tags_of_none hfirst, List.filter_nil]
  | case2 s before t r hs ih =>
    intro x hx
    have hbefore := inert_of_firstTag? hs
    rw [strip_of_some remove hs, tags_of_some hs, ← List.append_assoc]
    split
    · next ht =>
      rw [List.nil_append, List.filter_cons_of_neg (by simp [ht])]
      exact ih _ (hx.append hbefore)
    · next ht =>
      have hfirst := firstTag?_inert_append (hx.append hbefore) (t.source ++ strip remove r)
      rw [firstTag?_source_append hs fun _ _ z => cut?_closeRaw_strip remove, Option.map_some]
        at hfirst
      rw [tags_of_some hfirst, List.filter_cons_of_pos (by simpa using ht), ← ih [] Inert.nil,
        List.nil_append]

theorem paths_strip (remove : Text → Bool) (s : Text) :
    paths (strip remove s) = (paths s).filter fun path => !remove path := by
  rw [paths, tags_strip, paths, List.filterMap_filter, List.filter_filterMap]
  refine List.filterMap_congr fun t _ => ?_
  rw [isStripped_eq]
  cases t.path? with
  | none => simp
  | some path => cases h : remove path <;> simp [h, Option.filter]

end Token

end MaskedViews
