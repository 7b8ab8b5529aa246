import MaskedViews.Page
import MaskedViews.Proofs.Template.Ends
import MaskedViews.Proofs.Template.SettledNodes

/-!
# Masks of no fields

A mask of no fields still normalizes the whitespace of a template. What that does to the rendered
text is known exactly: up to whitespace it is the text of the template with the conditions settled
(`normalizeWhitespace_render_applySnapshot`). So rendering notices the mask only where a condition
comes out differently, as one does whose literal has two blanks in a row.
-/

namespace MaskedViews

open Markup (normalizeWhitespace settle)

namespace Node

mutual

/-- The conditions in a node, in order. -/
def conditions : Node → List Condition
  | .literal _ => []
  | .placeholder _ _ => []
  | .each _ body => conditionsOf body
  | .cond condition body => condition :: conditionsOf body

/-- The conditions in nodes, in order. -/
def conditionsOf : List Node → List Condition
  | [] => []
  | node :: nodes => node.conditions ++ conditionsOf nodes

end

mutual

/-- A node renders the same if its conditions are replaced by others that hold as they do. -/
theorem render_map (root scope : Json) (onCondition : Condition → Condition) (node : Node)
    (h : ∀ c ∈ node.conditions, (onCondition c).holds root = c.holds root) :
    (node.map id onCondition).render root scope = node.render root scope := by
  cases node with
  | literal s => rfl
  | placeholder path raw => rfl
  | each name body =>
    rw [conditions] at h
    simp only [map, render]
    split
    · exact List.flatMap_congr fun item _ => renderAll_mapAll root item onCondition body h
    · rfl
  | cond condition body =>
    simp only [conditions, List.mem_cons, forall_eq_or_imp] at h
    simp only [map, render, h.1, renderAll_mapAll root scope onCondition body h.2]

/-- Nodes render the same if their conditions are replaced by others that hold as they do. -/
theorem renderAll_mapAll (root scope : Json) (onCondition : Condition → Condition)
    (nodes : List Node)
    (h : ∀ c ∈ conditionsOf nodes, (onCondition c).holds root = c.holds root) :
    renderAll root scope (mapAll id onCondition nodes) = renderAll root scope nodes := by
  cases nodes with
  | nil => rw [mapAll_nil]
  | cons node nodes =>
    simp only [conditionsOf, List.mem_append] at h
    rw [mapAll_cons, renderAll_cons, renderAll_cons,
      render_map root scope onCondition node fun c hc => h c (Or.inl hc),
      renderAll_mapAll root scope onCondition nodes fun c hc => h c (Or.inr hc)]

end

end Node

/-- The conditions of a template. -/
def Template.conditions (t : Template) : List Condition := Node.conditionsOf t.nodes

/-- The text of a template for a record, with its conditions settled. -/
def Template.renderSettled (t : Template) (data : Json) : Text :=
  Node.renderAll data data (Node.withSettledConditions t.nodes)

theorem Template.renderSettled_parse (s : Text) (data : Json) :
    (Template.parse s).renderSettled data = Node.renderAll data data
      (Node.withSettledConditions (Template.ofTokens (Token.tokenize s))) := by
  rw [renderSettled, parse, Node.withSettledConditions, Node.mapAll_merge, Node.renderAll_merge]

/-- A template that settles renders like the template with its conditions settled. -/
theorem normalizeWhitespace_render_settle (template : Text) (data : Json) :
    normalizeWhitespace (render (settle template) data) =
      normalizeWhitespace ((Template.parse template).renderSettled data) := by
  rw [render_eq, Token.tokenize_settle, Template.ofTokens_settled, Template.renderSettled_parse]
  exact (Node.alike_renderAll_settled data data _).normalizeWhitespace_eq

/-- Blanks at the ends of a template make no difference to the normal form of its text. -/
theorem normalizeWhitespace_render_normalizeWhitespace (template : Text) (data : Json) :
    normalizeWhitespace (render (normalizeWhitespace template) data) =
      normalizeWhitespace ((Template.parse template).renderSettled data) := by
  obtain ⟨b₁, b₂, h₁, h₂, hs⟩ := Markup.exists_settle_eq template
  rw [← normalizeWhitespace_render_settle, hs, render_braceless_append (Token.braceless_of_blanks h₁),
    render_append_braceless (Token.braceless_of_blanks h₂),
    Markup.normalizeWhitespace_blanks_append h₁, Markup.normalizeWhitespace_append_blanks _ h₂]

/-- **What a mask of no fields does to the rendered text.** Up to whitespace it settles the
conditions; where no condition comes out differently for that, it does nothing. -/
theorem normalizeWhitespace_render_applySnapshot {template : Text} {s : Snapshot} (view : View)
    (data : Json) (h : (Mask.plan template s).isEmpty = true) :
    normalizeWhitespace (render (applySnapshot template s view) data) =
        normalizeWhitespace ((Template.parse template).renderSettled data) ∧
      ((∀ c ∈ (Template.parse template).conditions, c.settled.holds data = c.holds data) →
        normalizeWhitespace (render (applySnapshot template s view) data) =
          normalizeWhitespace (render template data)) := by
  have hsettled : normalizeWhitespace (render (applySnapshot template s view) data) =
      normalizeWhitespace ((Template.parse template).renderSettled data) := by
    rw [applySnapshot, Mask.apply_of_isEmpty h, normalizeWhitespace_render_normalizeWhitespace]
  refine ⟨hsettled, fun hconditions => ?_⟩
  rw [hsettled, Template.renderSettled, Node.renderAll_mapAll data data _ _ hconditions, render,
    Template.render]

/-- A template that shows a word if `s` is a literal. -/
def wordIf (literal : Text) : Text :=
  [Token.tag ("#if s == '".toList ++ (literal ++ ['\''])), .text " word ".toList,
    .tag "/if".toList].flatMap Token.source

/-- A record whose `s` is a text. -/
def recordOf (s : Text) : Json := .object [("s".toList, .string s)]

/-- A single blank in a literal does not matter. -/
theorem normalizeWhitespace_render_wordIf :
    (Mask.plan (wordIf "a b".toList) (Snapshot.ofSets [] [])).isEmpty = true ∧
      normalizeWhitespace (render (applySnapshot (wordIf "a b".toList) (Snapshot.ofSets [] []) .list)
          (recordOf "a b".toList)) =
        normalizeWhitespace (render (wordIf "a b".toList) (recordOf "a b".toList)) :=
  ⟨by decide +kernel, (normalizeWhitespace_render_applySnapshot .list _ (by decide +kernel)).2
    (by decide +kernel)⟩

/-- Two blanks in a row are lost, and the word with them. -/
theorem render_wordIf_of_two_blanks :
    (Mask.plan (wordIf "a  b".toList) (Snapshot.ofSets [] [])).isEmpty = true ∧
      normalizeWhitespace (render (applySnapshot (wordIf "a  b".toList) (Snapshot.ofSets [] []) .list)
          (recordOf "a  b".toList)) = [] ∧
      normalizeWhitespace (render (wordIf "a  b".toList) (recordOf "a  b".toList)) =
        "word".toList := by
  refine ⟨?_, ?_, ?_⟩ <;> decide +kernel

end MaskedViews
