import MaskedViews.Text.Escape
import MaskedViews.Proofs.Text.Cutting

/-!
# Escaping in passes

Escaping goes through a text once. Going through it once for each of the five characters, and
replacing that character throughout, comes to the same (`escape_eq_foldl_passes`): the ampersand is
replaced first, and what a pass puts in holds no character that a later pass looks for, so each pass
leaves alone what the others put in (`foldl_replace_singleton`).

No entity begins another, nor is there one that begins with a character that stands for itself. So
escaped text is divided in one way only, and the text it came from can be told from it
(`escape_injective`).
-/

namespace MaskedViews.Text

/-- The text with every occurrence of a character replaced. -/
def replace (c : Char) (new s : Text) : Text := s.flatMap fun d => if d = c then new else [d]

/-- What is replaced by which entity, in the order of the passes. -/
def passes : List (Char × Text) :=
  [('&', "&amp;".toList), ('<', "&lt;".toList), ('>', "&gt;".toList), ('"', "&quot;".toList),
    ('\'', "&#39;".toList)]

/-! ### One pass after the other -/

theorem replace_append (c : Char) (new s t : Text) :
    replace c new (s ++ t) = replace c new s ++ replace c new t := by
  simp [replace]

theorem replace_of_not_mem {c : Char} {s : Text} (h : c ∉ s) (new : Text) : replace c new s = s := by
  induction s with
  | nil => rfl
  | cons d s ih =>
    have hd : d ≠ c := fun he => h (by simp [he])
    have hs := ih fun hc => h (List.mem_cons_of_mem d hc)
    simp only [replace] at hs
    simp [replace, hd, hs]

theorem foldl_replace_append (ps : List (Char × Text)) (s t : Text) :
    ps.foldl (fun s p => replace p.1 p.2 s) (s ++ t) =
      ps.foldl (fun s p => replace p.1 p.2 s) s ++ ps.foldl (fun s p => replace p.1 p.2 s) t := by
  induction ps generalizing s t with
  | nil => rfl
  | cons p ps ih => rw [List.foldl_cons, List.foldl_cons, List.foldl_cons, replace_append, ih]

theorem foldl_replace_of_not_mem {ps : List (Char × Text)} {s : Text} (h : ∀ p ∈ ps, p.1 ∉ s) :
    ps.foldl (fun s p => replace p.1 p.2 s) s = s := by
  induction ps with
  | nil => rfl
  | cons p ps ih =>
    rw [List.foldl_cons, replace_of_not_mem (h p (by simp)),
      ih fun q hq => h q (List.mem_cons_of_mem p hq)]

/-- Where no pass looks for what an earlier one put in, a character is replaced once at most. -/
theorem foldl_replace_singleton {ps : List (Char × Text)} (h : ps.Pairwise fun p q => q.1 ∉ p.2)
    (c : Char) :
    ps.foldl (fun s p => replace p.1 p.2 s) [c] = (ps.lookup c).getD [c] := by
  induction ps with
  | nil => rfl
  | cons p ps ih =>
    obtain ⟨hp, hps⟩ := List.pairwise_cons.1 h
    rw [List.foldl_cons, List.lookup_cons]
    by_cases hc : c = p.1
    · have hnew : replace p.1 p.2 [c] = p.2 := by simp [replace, hc]
      rw [hnew, foldl_replace_of_not_mem hp, hc, beq_self_eq_true]
      rfl
    · rw [replace_of_not_mem (by simpa using Ne.symm hc), ih hps, beq_eq_false_iff_ne.2 hc]

theorem entity_eq_lookup (c : Char) : entity c = (passes.lookup c).getD [c] := by
  unfold entity
  split
  · rfl
  · rfl
  · rfl
  · rfl
  · rfl
  · next hamp hlt hgt hdouble hsingle =>
    have hnone : passes.lookup c = none := by
      refine List.lookup_eq_none_iff.2 fun p hp => bne_iff_ne.2 ?_
      simp only [passes, List.mem_cons, List.not_mem_nil, or_false] at hp
      rcases hp with rfl | rfl | rfl | rfl | rfl
      · exact hamp
      · exact hlt
      · exact hgt
      · exact hdouble
      · exact hsingle
    rw [hnone]
    rfl

/-- **Escaping is to replace the five characters one after the other.** -/
theorem escape_eq_foldl_passes (s : Text) :
    escape s = passes.foldl (fun s p => replace p.1 p.2 s) s := by
  induction s with
  | nil => rfl
  | cons c s ih =>
    rw [escape_cons, ih, entity_eq_lookup, ← foldl_replace_singleton (by decide), ← foldl_replace_append]
    rfl

/-! ### What escaped text holds -/

/-- A character stands for itself, or it is one of the five and an entity stands for it. -/
theorem entity_cases (c : Char) :
    (entity c = [c] ∧ ∀ p ∈ passes, c ≠ p.1) ∨ (c, entity c) ∈ passes := by
  rw [entity_eq_lookup]
  cases h : passes.lookup c with
  | none => exact Or.inl ⟨rfl, fun p hp => bne_iff_ne.1 (List.lookup_eq_none_iff.1 h p hp)⟩
  | some e =>
    obtain ⟨x, y, hxy, -⟩ := List.lookup_eq_some_iff.1 h
    exact Or.inr (by rw [hxy]; simp)

/-- No significant character but the ampersand is left in escaped text. -/
theorem not_mem_escape {c : Char} (hc : c = '<' ∨ c = '>' ∨ c = '"' ∨ c = '\'') (s : Text) :
    c ∉ escape s := by
  intro h
  obtain ⟨d, -, hd⟩ := List.mem_flatMap.1 h
  rcases entity_cases d with ⟨hself, hne⟩ | hmem
  · obtain rfl : c = d := by simpa [hself] using hd
    rcases hc with rfl | rfl | rfl | rfl
    · exact hne ('<', "&lt;".toList) (by decide) rfl
    · exact hne ('>', "&gt;".toList) (by decide) rfl
    · exact hne ('"', "&quot;".toList) (by decide) rfl
    · exact hne ('\'', "&#39;".toList) (by decide) rfl
  · have hentities : ∀ p ∈ passes, ∀ e ∈ p.2, ¬(e = '<' ∨ e = '>' ∨ e = '"' ∨ e = '\'') := by decide
    exact hentities _ hmem c hd hc

/-- Every ampersand of escaped text begins an entity. -/
theorem exists_entity_of_escape {s x y : Text} (h : escape s = x ++ '&' :: y) :
    ∃ p ∈ passes, p.2 <+: '&' :: y := by
  induction s generalizing x with
  | nil => simp at h
  | cons c s ih =>
    rw [escape_cons] at h
    rcases entity_cases c with ⟨hself, hne⟩ | hmem
    · rw [hself] at h
      cases x with
      | nil =>
        have hc : c = '&' := (List.cons.inj h).1
        exact absurd hc (hne ('&', "&amp;".toList) (by decide))
      | cons d x => exact ih (List.cons.inj h).2
    · -- there is no ampersand in an entity but its first character
      have hentities : ∀ p ∈ passes, p.2.head? = some '&' ∧ '&' ∉ p.2.tail := by decide
      obtain ⟨hhead, htail⟩ := hentities _ hmem
      obtain ⟨t, ht⟩ := List.head?_eq_some_iff.1 hhead
      dsimp only at ht htail
      cases x with
      | nil => exact ⟨_, hmem, escape s, h⟩
      | cons d x =>
        rw [ht, List.tail_cons] at htail
        rw [ht, List.cons_append, List.cons_append, List.cons.injEq] at h
        rcases List.append_eq_append_iff.1 h.2 with ⟨x', rfl, hs⟩ | ⟨z, rfl, hz⟩
        · exact ih hs
        · cases z with
          | nil => exact ih (x := []) hz.symm
          | cons e z =>
            obtain rfl := (List.cons.inj hz).1
            exact absurd (by simp) htail

/-! ### Escaped text read back -/

/-- What stands for a character is told from what stands for another, whatever follows. -/
theorem entity_append_inj {c d : Char} {x y : Text} (h : entity c ++ x = entity d ++ y) : c = d := by
  have hpasses : ∀ p ∈ passes, p.2.head? = some '&' := by decide
  have hamp (e : Char) (he : ∀ p ∈ passes, e ≠ p.1) : e ≠ '&' := he ('&', "&amp;".toList) (by decide)
  have hhead {e : Char} (he : (e, entity e) ∈ passes) (z : Text) :
      (entity e ++ z).head? = some '&' := by
    rw [List.head?_append, hpasses _ he]
    rfl
  rcases entity_cases c with ⟨hc, hcne⟩ | hc
  · rcases entity_cases d with ⟨hd, -⟩ | hd
    · rw [hc, hd] at h
      exact (List.cons.inj h).1
    · have := hhead hd y
      rw [← h, hc] at this
      exact absurd (Option.some.inj this) (hamp c hcne)
  · rcases entity_cases d with ⟨hd, hdne⟩ | hd
    · have := hhead hc x
      rw [h, hd] at this
      exact absurd (Option.some.inj this) (hamp d hdne)
    · have hcode : ∀ p ∈ passes, ∀ q ∈ passes, p.2 <+: q.2 → p.1 = q.1 := by decide
      rcases List.prefix_or_prefix_of_prefix ⟨x, h⟩ (List.prefix_append (entity d) y) with hp | hp
      · exact hcode _ hc _ hd hp
      · exact (hcode _ hd _ hc hp).symm

theorem escape_injective : Function.Injective escape := by
  have hne (c : Char) : entity c ≠ [] := by
    have hpasses : ∀ p ∈ passes, p.2 ≠ [] := by decide
    rcases entity_cases c with ⟨hc, -⟩ | hc
    · simp [hc]
    · exact hpasses _ hc
  intro s t h
  induction s generalizing t with
  | nil =>
    cases t with
    | nil => rfl
    | cons d t => simp [hne d] at h
  | cons c s ih =>
    cases t with
    | nil => simp [hne c] at h
    | cons d t =>
      rw [escape_cons, escape_cons] at h
      obtain rfl := entity_append_inj h
      rw [ih (List.append_cancel_left h)]

/-- **Escaping in one pass is escaping in five**, it leaves none of the significant characters but
the ampersands of the entities, and no two texts become the same. -/
theorem escape_by_passes (s : Text) :
    escape s = replace '\'' "&#39;".toList (replace '"' "&quot;".toList (replace '>' "&gt;".toList
        (replace '<' "&lt;".toList (replace '&' "&amp;".toList s)))) ∧
      (∀ c ∈ ['<', '>', '"', '\''], c ∉ escape s) ∧
      (∀ x y, escape s = x ++ '&' :: y →
        ∃ e ∈ ["&amp;", "&lt;", "&gt;", "&quot;", "&#39;"], e.toList <+: '&' :: y) ∧
      ∀ t, escape s = escape t → s = t := by
  refine ⟨escape_eq_foldl_passes s, fun c hc => not_mem_escape (by simpa using hc) s, ?_,
    fun t h => escape_injective h⟩
  intro x y h
  obtain ⟨p, hp, hprefix⟩ := exists_entity_of_escape h
  have hstrings : ∀ p ∈ passes, p.2 ∈
      ["&amp;", "&lt;", "&gt;", "&quot;", "&#39;"].map String.toList := by decide
  obtain ⟨e, he, hep⟩ := List.mem_map.1 (hstrings p hp)
  exact ⟨e, he, hep ▸ hprefix⟩

/-- An ampersand that is there already is one of the text. -/
example : escape "<&lt;".toList = "&lt;&amp;lt;".toList := by decide

end MaskedViews.Text
