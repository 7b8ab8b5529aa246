import MaskedViews.Template.Node
import MaskedViews.Text.Escape

/-!
# Rendering

Rendering puts the values of a record into a template. A placeholder is looked up in the scope,
which is the record or, inside a repeated block, the item at hand; a condition is always decided
on the whole record. A value that was put in is never read as template again.
-/

namespace MaskedViews

namespace Node

mutual

/-- The text of a node in a scope, with the conditions decided on `root`. -/
def render (root scope : Json) : Node → Text
  | .literal s => s
  | .placeholder path raw =>
    if raw then scope.resolve path else Text.escape (scope.resolve path)
  | .each name body =>
    match scope.lookup name with
    | some (.array items) => items.flatMap fun item => renderAll root item body
    | _ => []
  | .cond condition body => if condition.holds root then renderAll root scope body else []

/-- The text of nodes, one after the other. -/
def renderAll (root scope : Json) : List Node → Text
  | [] => []
  | node :: nodes => node.render root scope ++ renderAll root scope nodes

end

@[simp] theorem renderAll_nil (root scope : Json) : renderAll root scope [] = [] := by
  simp [renderAll]

@[simp] theorem renderAll_cons (root scope : Json) (node : Node) (nodes : List Node) :
    renderAll root scope (node :: nodes) =
      node.render root scope ++ renderAll root scope nodes := by
  simp [renderAll]

@[simp] theorem renderAll_append (root scope : Json) (xs ys : List Node) :
    renderAll root scope (xs ++ ys) = renderAll root scope xs ++ renderAll root scope ys := by
  induction xs with
  | nil => simp
  | cons x xs ih => simp [ih]

theorem renderAll_glue (root scope : Json) (node : Node) (nodes : List Node) :
    renderAll root scope (glue node nodes) =
      node.render root scope ++ renderAll root scope nodes := by
  unfold glue
  split
  · simp [render]
  · simp

mutual

/-- Merging literals keeps the text of a node. -/
theorem render_merged (root scope : Json) (node : Node) :
    node.merged.render root scope = node.render root scope := by
  cases node with
  | literal s => simp [merged]
  | placeholder path raw => simp [merged]
  | each name body =>
    simp only [merged, render]
    split
    · next items _ =>
      rw [List.flatMap_def, List.flatMap_def]
      exact congrArg List.flatten (List.map_congr_left fun item _ => renderAll_merge root item body)
    · rfl
  | cond condition body => simp [merged, render, renderAll_merge root scope body]

/-- Merging literals keeps the text of nodes. -/
theorem renderAll_merge (root scope : Json) (nodes : List Node) :
    renderAll root scope (merge nodes) = renderAll root scope nodes := by
  cases nodes with
  | nil => simp [merge]
  | cons node nodes =>
    rw [merge, renderAll_glue, render_merged root scope node, renderAll_merge root scope nodes,
      renderAll_cons]

end

end Node

namespace Template

/-- The text of a template for a record. -/
def render (t : Template) (data : Json) : Text := Node.renderAll data data t.nodes

end Template

/-- Reads a template and renders it for a record. -/
def render (template : Text) (data : Json) : Text := (Template.parse template).render data

/-- `render` where either may be missing: no template is the empty text, no record is null. -/
def renderOptional (template : Option Text) (data : Option Json) : Text :=
  match template with
  | some template => render template (data.getD .null)
  | none => []

end MaskedViews
