import MaskedViews.Mask.Basic
import MaskedViews.Proofs.Markup.Patching
import MaskedViews.Proofs.Template.SettledTokens
import MaskedViews.Proofs.Template.Stripping

/-!
# Placeholders of masked markup

A mask makes its cuts first: it takes out the elements that carry hidden fields. From then on its
edits are known not to bring placeholders about: stripping takes the hidden ones out, the changes of
tags are patches, and whitespace is nothing to a placeholder (`paths_apply`).

The cuts themselves are made along elements, which need not respect the tags of the template. What
they leave over comes together, and two braces that were apart may make a tag. That this does not
happen is just what masked markup needs in order to have no placeholder that it must not have
(`placeholders_applySnapshot_iff`).
-/

namespace MaskedViews

open Token (Parallel Patched Braceless)

namespace Mask

/-! ### The cuts and what follows them -/

/-- What is left of markup when the elements that carry some fields are taken out. -/
def cut (fields : Names) (strategy : Strategy) (html : Text) : Text :=
  if fields.isEmpty then html
  else
    let html := if strategy.hasCells then removeCells fields html else html
    let html := if strategy.hasContainers then removeContainers fields html else html
    removeControls fields html

/-- Hiding makes the cuts and strips what is left of the placeholders. -/
theorem hide_eq (fields : Names) (strategy : Strategy) (html : Text) :
    hide fields strategy html = removePlaceholders fields (cut fields strategy html) := by
  rw [hide, cut]
  split
  · next h =>
    have : fields.contains = fun _ => false := by
      funext a
      rw [← Bool.not_eq_true, Names.contains_eq_true_iff]
      exact Names.isEmpty_iff.1 h a
    rw [removePlaceholders, this, Token.strip_false]
  · rfl

/-- Every container that is to be marked has braces in its classes only between quotes. -/
def ClassesFit (fields : Names) (html : Text) : Prop :=
  ∀ v ∈ Markup.visits [Markup.containerName] (fun _ => .keep) html,
    isCarryingContainer fields v = true → v.tag.BareClassBraceless

instance (fields : Names) (html : Text) : Decidable (ClassesFit fields html) :=
  inferInstanceAs (Decidable (∀ v ∈ Markup.visits [Markup.containerName] (fun _ => .keep) html,
    isCarryingContainer fields v = true → v.tag.BareClassBraceless))

variable {p : Char → Bool}

/-- A document is patched if every tag that changes is. -/
theorem parallel_changeTags {names : List Text} {condition : Markup.Visit → Bool}
    {change : StartTag → Text} {html : Text}
    (h : ∀ v ∈ Markup.visits names (fun _ => .keep) html, condition v = true → v.tag.Legible →
      Parallel (Patched p) v.tag.source (change v.tag)) :
    Parallel (Patched p) html (changeTags names condition change html) := by
  have hvisits : Markup.visits names
      (fun v => if condition v then .replaceTag (change v.tag) else .keep) html =
        Markup.visits names (fun _ => .keep) html := by
    refine Markup.visits_eq_of_not_remove names (fun v => ?_) html
    split <;> simp
  refine Markup.parallel_editElements fun x hx => ?_
  rcases Markup.stretch_cases hx with hsame | ⟨v, hv, ht, -, hobeys⟩
  · rw [hsame]
    exact Token.parallel_patched_refl p x.before
  · have hmem := hvisits ▸ Markup.mem_visits.2 ⟨x, hx, hv⟩
    by_cases hc : condition v = true
    · rw [if_pos hc] at hobeys
      rw [hobeys.1, hobeys.2]
      exact h v hmem hc ht
    · rw [if_neg hc] at hobeys
      rw [hobeys.1, hobeys.2]
      exact Token.parallel_patched_refl p v.tag.source

theorem parallel_disableControls (hp : p '>' = true) (fields : Names) (html : Text) :
    Parallel (Patched p) html (disableControls fields html) :=
  parallel_changeTags fun v _ _ _ => StartTag.parallel_withFlags hp v.tag
    (forall_mem_disablingFlags (by decide) (by decide) v.tag)

/-- Marking containers is a patch, if their classes can be patched. -/
theorem parallel_markContainers (hp : p '>' = true) {fields : Names} {html : Text}
    (h : ∀ v ∈ Markup.visits [Markup.containerName] (fun _ => .keep) html,
      isCarryingContainer fields v = true → v.tag.Legible → v.tag.HasPatchableClass p) :
    Parallel (Patched p) html (markContainers fields html) :=
  parallel_changeTags fun v hv hc ht => StartTag.parallel_withClass hp ht (by decide) (h v hv hc ht)

/-- Protecting fields brings no placeholder about and takes none away. -/
theorem paths_protect {fields : Names} {strategy : Strategy} {html : Text}
    (h : strategy.hasContainers = true → ClassesFit fields (disableControls fields html)) :
    Token.paths (protect fields strategy html) = Token.paths html := by
  rw [protect]
  split
  · rfl
  dsimp only
  split
  · next hc =>
    rw [Token.paths_of_patched (parallel_markContainers (by decide) fun v hv hcarries ht =>
        StartTag.hasPatchableClass_of_bareClassBraceless ht (h hc v hv hcarries)),
      Token.paths_of_patched (parallel_disableControls (by decide) fields html)]
  · exact Token.paths_of_patched (parallel_disableControls (by decide) fields html)

/-- **The placeholders of masked markup** are those that the cuts leave, but for the hidden ones. -/
theorem paths_apply {m : Mask} {strategy : Strategy} {markup : Text}
    (h : strategy.hasContainers = true → ClassesFit m.readonly
      (disableControls m.readonly (hide m.hidden strategy markup))) :
    Token.paths (m.apply strategy markup) =
      (Token.paths (cut m.hidden strategy markup)).filter fun path => !m.hidden.contains path := by
  rw [apply, Token.paths_normalizeWhitespace, paths_protect h, hide_eq, removePlaceholders,
    Token.paths_strip]

end Mask

/-- **When masked markup has no forbidden placeholder.** Every placeholder of it was there before
and is visible, or not decided about, just if the cuts bring none about that is not hidden. -/
theorem placeholders_applySnapshot_iff {markup : Text} {s : Snapshot} {view : View}
    (h : (Strategy.ofView view).hasContainers = true →
      Mask.ClassesFit (Mask.plan markup s).readonly (Mask.disableControls (Mask.plan markup s).readonly
        (Mask.hide (Mask.plan markup s).hidden (Strategy.ofView view) markup))) :
    (∀ path ∈ (Template.parse (applySnapshot markup s view)).placeholders,
        path ∈ (Template.parse markup).placeholders ∧
          (s.governs path = false ∨ s.isVisible path = true)) ↔
      ∀ path ∈ (Template.parse
          (Mask.cut (Mask.plan markup s).hidden (Strategy.ofView view) markup)).placeholders,
        path ∈ (Template.parse markup).placeholders ∨ path ∈ (Mask.plan markup s).hidden := by
  have hmem (path : Text) : path ∈ (Template.parse (applySnapshot markup s view)).placeholders ↔
      path ∈ (Template.parse
          (Mask.cut (Mask.plan markup s).hidden (Strategy.ofView view) markup)).placeholders ∧
        ¬ path ∈ (Mask.plan markup s).hidden := by
    rw [applySnapshot, ← Token.mem_paths, Mask.paths_apply h, List.mem_filter, Token.mem_paths,
      Bool.not_eq_true', ← Bool.not_eq_true, Names.contains_eq_true_iff]
  -- a placeholder of the markup is a reference, so the plan hides it if it must not be shown
  have hplan (path : Text) (hpath : path ∈ (Template.parse markup).placeholders)
      (hhidden : ¬ path ∈ (Mask.plan markup s).hidden) :
      s.governs path = false ∨ s.isVisible path = true := by
    by_cases hg : s.governs path = true
    · refine Or.inr ?_
      rw [← Bool.not_eq_false]
      intro hv
      exact hhidden (Mask.mem_hidden_plan.2
        ⟨Markup.mem_referencedFields.2 (Or.inl hpath), hg, hv⟩)
    · exact Or.inl (by simpa using hg)
  constructor
  · intro hall path hpath
    by_cases hhidden : path ∈ (Mask.plan markup s).hidden
    · exact Or.inr hhidden
    · exact Or.inl (hall path ((hmem path).2 ⟨hpath, hhidden⟩)).1
  · intro hall path hpath
    obtain ⟨hcut, hhidden⟩ := (hmem path).1 hpath
    have hmarkup := (hall path hcut).resolve_right hhidden
    exact ⟨hmarkup, hplan path hmarkup hhidden⟩

/-- A container and a placeholder beside it, with only the second field to be shown. -/
theorem placeholders_applySnapshot_container :
    let markup := "<div class=form-field>".toList ++ (Token.tag "a".toList).source ++ "</div>".toList ++
      "<div class=form-field>".toList ++ (Token.tag "b".toList).source ++ "</div>".toList
    let s := Snapshot.ofSets ["b".toList] []
    ∀ path ∈ (Template.parse (applySnapshot markup s .formEdit)).placeholders,
      path ∈ (Template.parse markup).placeholders ∧
        (s.governs path = false ∨ s.isVisible path = true) :=
  (placeholders_applySnapshot_iff (by decide +kernel)).2 (by decide +kernel)

/-- Two braces on either side of a cell make a tag when the cell goes. -/
theorem placeholders_applySnapshot_of_cut :
    let markup := ['\x7b'] ++ "<td>".toList ++ (Token.tag "a".toList).source ++ "</td>".toList ++
      (['\x7b'] ++ "b".toList ++ Token.closeTag)
    "b".toList ∈ (Template.parse (applySnapshot markup (Snapshot.ofSets [] []) .list)).placeholders ∧
      "b".toList ∉ (Template.parse markup).placeholders := by
  decide +kernel

/-- Between the braces of a class without quotes the added class becomes a placeholder. -/
theorem placeholders_applySnapshot_of_class :
    let markup := "<div class=form-field\u00a0".toList ++ Token.openTag ++ " ".toList ++
      Token.closeTag ++ ">".toList ++ (Token.tag "a".toList).source ++ "</div>".toList
    "readonly".toList ∈ (Template.parse
        (applySnapshot markup (Snapshot.ofSets ["a".toList] []) .formView)).placeholders ∧
      "readonly".toList ∉ (Template.parse markup).placeholders := by
  decide +kernel

end MaskedViews
