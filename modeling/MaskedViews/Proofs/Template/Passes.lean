import MaskedViews.Template.Render
import Mathlib.Data.List.Basic

/-!
# Rendering in passes

Rendering goes through a template once, with the record and the scope at hand. It can be done in
passes instead (`Node.passes`). The first pass decides every condition on the record, those inside
repeated blocks too, and leaves a tree without conditions (`Node.allDecided_decideAll`). The second
puts values in and replaces a repeated block by what the passes give for its body, once for each
item, with the item as the record. There is no scope apart from the record then: a body is a
template of its own.

Both ways give the same text (`render_eq_passes`). A body goes through the first pass again for each
item, but no condition is left in it that the item could decide.
-/

namespace MaskedViews

namespace Node

/-! ### The passes -/

mutual

/-- How many nodes there are in a node, itself counted. -/
def weight : Node → Nat
  | .literal _ => 1
  | .placeholder _ _ => 1
  | .each _ body => weightOf body + 1
  | .cond _ body => weightOf body + 1

/-- How many nodes there are in nodes, themselves counted. -/
def weightOf : List Node → Nat
  | [] => 0
  | node :: nodes => node.weight + weightOf nodes

end

@[simp] theorem weightOf_append (xs ys : List Node) :
    weightOf (xs ++ ys) = weightOf xs + weightOf ys := by
  induction xs with
  | nil => simp [weightOf]
  | cons x xs ih => simp [weightOf, ih, Nat.add_assoc]

mutual

/-- What stands for a node when the conditions in it are decided on a record: the body of a condition
that holds takes its place, and nothing that of one that does not. -/
def decided (record : Json) : Node → List Node
  | .literal s => [.literal s]
  | .placeholder path raw => [.placeholder path raw]
  | .each name body => [.each name (decideAll record body)]
  | .cond condition body => if condition.holds record then decideAll record body else []

/-- The first pass: nodes with all conditions in them, at any depth, decided on a record. -/
def decideAll (record : Json) : List Node → List Node
  | [] => []
  | node :: nodes => node.decided record ++ decideAll record nodes

end

mutual

theorem weightOf_decided_le (record : Json) (node : Node) :
    weightOf (node.decided record) ≤ node.weight := by
  cases node with
  | literal s => simp [decided, weightOf, weight]
  | placeholder path raw => simp [decided, weightOf, weight]
  | each name body =>
    simpa [decided, weightOf, weight] using weightOf_decideAll_le record body
  | cond condition body =>
    have := weightOf_decideAll_le record body
    rw [decided, weight]
    split
    · omega
    · exact Nat.zero_le _

/-- Deciding conditions adds no nodes. -/
theorem weightOf_decideAll_le (record : Json) (nodes : List Node) :
    weightOf (decideAll record nodes) ≤ weightOf nodes := by
  cases nodes with
  | nil => simp [decideAll]
  | cons node nodes =>
    have := weightOf_decided_le record node
    have := weightOf_decideAll_le record nodes
    rw [decideAll, weightOf_append, weightOf]
    omega

end

/-- The second pass, for nodes in which no condition is left: each repeated block is replaced by what
both passes give for its body with each item as the record. -/
def fill (record : Json) : List Node → Text
  | [] => []
  | .literal s :: nodes => s ++ fill record nodes
  | .placeholder path raw :: nodes =>
    (if raw then record.resolve path else Text.escape (record.resolve path)) ++ fill record nodes
  | .each name body :: nodes =>
    (match record.lookup name with
      | some (.array items) => items.flatMap fun item => fill item (decideAll item body)
      | _ => []) ++ fill record nodes
  | .cond _ _ :: nodes => fill record nodes
termination_by nodes => weightOf nodes
decreasing_by
  all_goals simp only [weightOf, weight]
  case _ => omega
  case _ => omega
  case _ =>
    have := weightOf_decideAll_le item body
    omega
  case _ => omega
  case _ => omega

/-- The text of nodes for a record by both passes, one after the other. -/
def passes (record : Json) (nodes : List Node) : Text := fill record (decideAll record nodes)

/-! ### The first pass -/

mutual

/-- Whether no condition is left in a node. -/
def isDecided : Node → Bool
  | .literal _ => true
  | .placeholder _ _ => true
  | .each _ body => allDecided body
  | .cond _ _ => false

/-- Whether no condition is left in nodes. -/
def allDecided : List Node → Bool
  | [] => true
  | node :: nodes => node.isDecided && allDecided nodes

end

theorem allDecided_append (xs ys : List Node) :
    allDecided (xs ++ ys) = (allDecided xs && allDecided ys) := by
  induction xs with
  | nil => simp [allDecided]
  | cons x xs ih => simp [allDecided, ih, Bool.and_assoc]

mutual

theorem allDecided_decided (record : Json) (node : Node) :
    allDecided (node.decided record) = true := by
  cases node with
  | literal s => rfl
  | placeholder path raw => rfl
  | each name body => simp [decided, allDecided, isDecided, allDecided_decideAll record body]
  | cond condition body =>
    rw [decided]
    split
    · exact allDecided_decideAll record body
    · rfl

/-- The first pass leaves no condition. -/
theorem allDecided_decideAll (record : Json) (nodes : List Node) :
    allDecided (decideAll record nodes) = true := by
  cases nodes with
  | nil => rfl
  | cons node nodes =>
    rw [decideAll, allDecided_append, allDecided_decided record node,
      allDecided_decideAll record nodes, Bool.and_self]

end

mutual

theorem decided_of_isDecided (record : Json) (node : Node) (h : node.isDecided = true) :
    node.decided record = [node] := by
  cases node with
  | literal s => rfl
  | placeholder path raw => rfl
  | each name body => rw [decided, decideAll_of_allDecided record body h]
  | cond condition body => cases h

/-- Where no condition is left there is nothing to decide. -/
theorem decideAll_of_allDecided (record : Json) (nodes : List Node) (h : allDecided nodes = true) :
    decideAll record nodes = nodes := by
  cases nodes with
  | nil => rfl
  | cons node nodes =>
    rw [allDecided, Bool.and_eq_true] at h
    rw [decideAll, decided_of_isDecided record node h.1, decideAll_of_allDecided record nodes h.2,
      List.singleton_append]

end

mutual

theorem renderAll_decided (root other scope : Json) (node : Node) :
    renderAll other scope (node.decided root) = node.render root scope := by
  cases node with
  | literal s => simp [decided, render]
  | placeholder path raw => simp [decided, render]
  | each name body =>
    rw [decided, renderAll_cons, renderAll_nil, List.append_nil, render, render]
    split
    · exact List.flatMap_congr fun item _ => renderAll_decideAll root other item body
    · rfl
  | cond condition body =>
    rw [decided, render]
    split
    · exact renderAll_decideAll root other scope body
    · exact renderAll_nil other scope

/-- Once the conditions are decided on a record, the visit of the nodes needs it no more. -/
theorem renderAll_decideAll (root other scope : Json) (nodes : List Node) :
    renderAll other scope (decideAll root nodes) = renderAll root scope nodes := by
  cases nodes with
  | nil => simp [decideAll]
  | cons node nodes =>
    rw [decideAll, renderAll_append, renderAll_decided root other scope node,
      renderAll_decideAll root other scope nodes, renderAll_cons]

end

/-! ### The second pass -/

/-- Where no condition is left, the visit of nodes in a scope gives what the second pass gives with
the scope as the record. -/
theorem fill_eq_renderAll (record other : Json) (nodes : List Node) (h : allDecided nodes = true) :
    fill record nodes = renderAll other record nodes := by
  fun_induction fill record nodes with
  | case1 record => simp
  | case2 record s nodes ih =>
    rw [ih h, renderAll_cons, render]
  | case3 record path raw nodes ih =>
    rw [ih h, renderAll_cons, render]
  | case4 record name body nodes ihbody ih =>
    rw [allDecided, Bool.and_eq_true] at h
    -- the first pass finds nothing to do in a body, whatever the item
    have hbody (item : Json) :
        fill item (decideAll item body) = renderAll other item body := by
      rw [ihbody item (allDecided_decideAll item body), decideAll_of_allDecided item body h.1]
    rw [ih h.2, renderAll_cons, render]
    refine congrArg (· ++ renderAll other record nodes) ?_
    rcases record.lookup name with _ | found
    · rfl
    · cases found with
      | array items => exact List.flatMap_congr fun item _ => hbody item
      | _ => rfl
  | case5 record condition body nodes ih => cases h

end Node

/-- **Rendering a template for a record gives what the passes give.** -/
theorem render_eq_passes (template : Text) (data : Json) :
    Node.allDecided (Node.decideAll data (Template.parse template).nodes) = true ∧
      render template data = Node.passes data (Template.parse template).nodes := by
  have hdecided := Node.allDecided_decideAll data (Template.parse template).nodes
  refine ⟨hdecided, ?_⟩
  rw [Node.passes, Node.fill_eq_renderAll data data _ hdecided, Node.renderAll_decideAll]
  rfl

end MaskedViews
