import MaskedViews.Proofs.Markup.Regular
import MaskedViews.Proofs.Mask.Placeholders
import MaskedViews.Proofs.Template.Woven

/-!
# Masking a regular template

On a regular template each edit of a mask works on whole pieces: the cuts leave some of the pieces,
stripping leaves less of them, and the changes of start tags are made where no template tag is. So
every tag that is left was there before, but for its blanks, and is no placeholder of a hidden field
(`exists_of_mem_tags_apply`).
-/

namespace MaskedViews

open Token (Parallel Patched isBarrier tags)
open Markup (Piece printed)

namespace Mask

/-! ### Cuts -/

theorem exists_sublist_of_removeElements (names : List Text) (condition : Markup.Visit → Bool)
    {ps : List Piece} (h : ∀ p ∈ ps, p.Fits) :
    ∃ qs, qs.Sublist ps ∧ removeElements names condition (printed ps) = printed qs := by
  refine Markup.exists_sublist_of_remove names (fun v => ?_) ps h
  split
  · exact Or.inr rfl
  · exact Or.inl rfl

/-- The cuts leave some of the pieces. -/
theorem exists_sublist_of_cut (fields : Names) (strategy : Strategy) {ps : List Piece}
    (h : ∀ p ∈ ps, p.Fits) :
    ∃ qs, qs.Sublist ps ∧ cut fields strategy (printed ps) = printed qs := by
  have hcells : ∃ qs, qs.Sublist ps ∧ (if strategy.hasCells then removeCells fields (printed ps)
      else printed ps) = printed qs := by
    split
    · exact exists_sublist_of_removeElements _ _ h
    · exact ⟨ps, List.Sublist.refl ps, rfl⟩
  rw [cut]
  split
  · exact ⟨ps, List.Sublist.refl ps, rfl⟩
  obtain ⟨qs, hqs, heq⟩ := hcells
  have hq : ∀ q ∈ qs, q.Fits := fun q hq => h q (hqs.subset hq)
  have hcontainers : ∃ rs, rs.Sublist qs ∧ (if strategy.hasContainers
      then removeContainers fields (printed qs) else printed qs) = printed rs := by
    split
    · exact exists_sublist_of_removeElements _ _ hq
    · exact ⟨qs, List.Sublist.refl qs, rfl⟩
  obtain ⟨rs, hrs, heq'⟩ := hcontainers
  have hr : ∀ r ∈ rs, r.Fits := fun r hr => hq r (hrs.subset hr)
  obtain ⟨us, hus, heq''⟩ := exists_sublist_of_removeElements Markup.controlNames
    (isControlOf fields) hr
  refine ⟨us, hus.trans (hrs.trans hqs), ?_⟩
  dsimp only
  rw [heq, heq', ← heq'']
  rfl

/-! ### Changes of start tags -/

/-- A piece that fits, with double quotes around all values if it is a start tag. -/
def IsQuotedPiece (p : Piece) : Prop := p.Fits ∧ ∀ t, p = .startTag t → t.IsQuoted

theorem isFlag_disablingFlags (t : StartTag) : ∀ flag ∈ disablingFlags t, StartTag.IsFlag flag :=
  forall_mem_disablingFlags ⟨by decide, by decide⟩ ⟨by decide, by decide⟩ t

/-- Disabling controls leaves pieces with double quotes. -/
theorem exists_quoted_of_disableControls (fields : Names) {ps : List Piece}
    (h : ∀ p ∈ ps, IsQuotedPiece p) :
    ∃ qs, (∀ q ∈ qs, IsQuotedPiece q) ∧ disableControls fields (printed ps) = printed qs := by
  have hquoted {v : Markup.Visit} (hv : v ∈ Markup.visitsOf Markup.controlNames ps) :
      v.tag.Legible ∧ v.tag.IsQuoted := by
    obtain ⟨ht, hq⟩ := h _ (Markup.mem_visitsOf _ hv).1
    exact ⟨ht, hq v.tag rfl⟩
  obtain ⟨change, hchange, heq⟩ := Markup.exists_retag Markup.controlNames (isControlOf fields)
    (fun t => t.withFlags (disablingFlags t)) (R := fun _ u => u.Legible ∧ u.IsQuoted)
    (fun p hp => (h p hp).1)
    (fun v hv _ => by
      obtain ⟨u, hu, huq, hsource⟩ := StartTag.exists_withFlags (hquoted hv).1 (hquoted hv).2
        (isFlag_disablingFlags v.tag)
      exact ⟨u, ⟨hu, huq⟩, hsource⟩)
    fun v hv _ => hquoted hv
  refine ⟨Markup.retag Markup.controlNames change ps, fun q hq => ?_, heq⟩
  rcases Markup.mem_retag _ hq with hq | ⟨v, hv, rfl⟩
  · exact h q hq
  · obtain ⟨hu, huq⟩ := hchange v hv
    refine ⟨hu, fun t ht => ?_⟩
    rw [Piece.startTag.injEq] at ht
    rwa [← ht]

/-- With double quotes around all values, protecting fields is a patch at barriers. -/
theorem tags_protect_printed (fields : Names) (strategy : Strategy) {ps : List Piece}
    (h : ∀ p ∈ ps, IsQuotedPiece p) (hclean : ∀ t ∈ tags (printed ps), t.Clean) :
    tags (protect fields strategy (printed ps)) = tags (printed ps) := by
  rw [protect]
  split
  · rfl
  have hdisable := Token.tags_of_patched
    (parallel_disableControls (p := isBarrier) (by decide) fields (printed ps)) hclean
  dsimp only
  split
  · obtain ⟨qs, hqs, heq⟩ := exists_quoted_of_disableControls fields h
    have hmark : Parallel (Patched isBarrier) (disableControls fields (printed ps))
        (markContainers fields (disableControls fields (printed ps))) := by
      refine parallel_markContainers (by decide) fun v hv _ _ a ha w hw => ?_
      rw [heq, Markup.visits_printed _ (by simp) qs fun q hq => (hqs q hq).1] at hv
      have hquoted := (hqs _ (Markup.mem_visitsOf _ hv).1).2 v.tag rfl
      rw [Assignment.IsPatchable, hquoted a (List.mem_of_find?_eq_some ha) w hw]
      show isBarrier '"' = true
      decide
    rw [Token.tags_of_patched hmark (by rwa [hdisable]), hdisable]
  · exact hdisable

/-! ### The whole mask -/

/-- **The tags of a masked regular template** are those that the cuts leave, without the placeholders
of hidden fields and but for their blanks. -/
theorem tags_apply_of_cut (m : Mask) (strategy : Strategy) {ps qs : List Piece}
    (hq : ∀ q ∈ qs, q.IsRegular) (hcut : cut m.hidden strategy (printed ps) = printed qs) :
    tags (m.apply strategy (printed ps)) =
      ((tags (printed qs)).filter fun t => !t.isStripped m.hidden.contains).map Token.settled := by
  obtain ⟨hstrip, hstripped⟩ := Markup.strip_printed m.hidden.contains hq
  have hquoted : ∀ p ∈ qs.map (Piece.stripped m.hidden.contains), IsQuotedPiece p := by
    intro p hp
    refine ⟨(hstripped p hp).fits, ?_⟩
    rintro t rfl a ha
    exact ((hstripped _ hp).2 a ha).quoted
  have hclean : ∀ t ∈ tags (printed (qs.map (Piece.stripped m.hidden.contains))), t.Clean :=
    fun t ht => (Markup.woven_printed hstripped).clean_of_mem_tags ht
  rw [apply, Token.tags_normalizeWhitespace, hide_eq, removePlaceholders, hcut, hstrip,
    tags_protect_printed m.readonly strategy hquoted hclean, ← hstrip, Token.tags_strip]

/-- **Every tag of a masked regular template was there before**, but for its blanks, and is no
placeholder of a hidden field. -/
theorem exists_of_mem_tags_apply (m : Mask) (strategy : Strategy) {ps : List Piece}
    (h : ∀ p ∈ ps, p.IsRegular) {u : Token} (hu : u ∈ tags (m.apply strategy (printed ps))) :
    ∃ t ∈ tags (printed ps), u = t.settled ∧ t.Clean ∧
      t.isStripped m.hidden.contains = false := by
  obtain ⟨qs, hqs, hcut⟩ := exists_sublist_of_cut m.hidden strategy fun p hp => (h p hp).fits
  have hq : ∀ q ∈ qs, q.IsRegular := fun q hq => h q (hqs.subset hq)
  rw [tags_apply_of_cut m strategy hq hcut] at hu
  obtain ⟨t, ht, rfl⟩ := List.mem_map.1 hu
  obtain ⟨ht, hkept⟩ := List.mem_filter.1 ht
  have hmem : t ∈ tags (printed ps) := by
    rw [Markup.tags_printed hq] at ht
    rw [Markup.tags_printed h]
    obtain ⟨p, hp, ht⟩ := List.mem_flatMap.1 ht
    exact List.mem_flatMap.2 ⟨p, hqs.subset hp, ht⟩
  exact ⟨t, hmem, rfl, (Markup.woven_printed h).clean_of_mem_tags hmem, by simpa using hkept⟩

end Mask

end MaskedViews
