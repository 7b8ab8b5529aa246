import MaskedViews.Proofs.Template.Conditions
import MaskedViews.Proofs.Template.SettledTokens
import MaskedViews.Template.Render

/-!
# Trees of settled text

Reading goes from token to token, so reading the settled tokens gives the tree of the template with
its literals and conditions settled (`ofTokens_settled`). Settled literals make no difference to the
normal form of the rendered text; settled conditions may (`alike_renderAll_settled`).
-/

namespace MaskedViews

open Markup (settle Alike)

namespace Node

mutual

/-- The node with its literals and its conditions replaced, at every depth. -/
def map (onLiteral : Text → Text) (onCondition : Condition → Condition) : Node → Node
  | .literal s => .literal (onLiteral s)
  | .placeholder path raw => .placeholder path raw
  | .each name body => .each name (mapAll onLiteral onCondition body)
  | .cond condition body => .cond (onCondition condition) (mapAll onLiteral onCondition body)

/-- The nodes with their literals and their conditions replaced, at every depth. -/
def mapAll (onLiteral : Text → Text) (onCondition : Condition → Condition) : List Node → List Node
  | [] => []
  | node :: nodes => node.map onLiteral onCondition :: mapAll onLiteral onCondition nodes

end

variable {onLiteral : Text → Text} {onCondition : Condition → Condition}

@[simp] theorem mapAll_nil : mapAll onLiteral onCondition [] = [] := by
  simp [mapAll]

@[simp] theorem mapAll_cons (node : Node) (nodes : List Node) :
    mapAll onLiteral onCondition (node :: nodes) =
      node.map onLiteral onCondition :: mapAll onLiteral onCondition nodes := by
  simp [mapAll]

@[simp] theorem mapAll_append (xs ys : List Node) :
    mapAll onLiteral onCondition (xs ++ ys) =
      mapAll onLiteral onCondition xs ++ mapAll onLiteral onCondition ys := by
  induction xs with
  | nil => simp
  | cons x xs ih => simp [ih]

/-- The node with its literals and its conditions settled. -/
abbrev settled : Node → Node := map settle Condition.settled

/-- The nodes with their literals and their conditions settled. -/
abbrev settledAll : List Node → List Node := mapAll settle Condition.settled

/-- The nodes with their conditions settled, and only these. -/
abbrev withSettledConditions : List Node → List Node := mapAll id Condition.settled

theorem mapAll_glue (node : Node) (nodes : List Node) :
    mapAll id onCondition (glue node nodes) =
      glue (node.map id onCondition) (mapAll id onCondition nodes) := by
  cases node with
  | literal s =>
    cases nodes with
    | nil => simp [glue, map]
    | cons node nodes => cases node <;> simp [glue, map]
  | placeholder path raw => simp [glue, map]
  | each name body => simp [glue, map]
  | cond condition body => simp [glue, map]

mutual

/-- Replacing conditions and merging literals do not mind each other. -/
theorem map_merged (node : Node) :
    node.merged.map id onCondition = (node.map id onCondition).merged := by
  cases node with
  | literal s => simp [merged, map]
  | placeholder path raw => simp [merged, map]
  | each name body => simp [merged, map, mapAll_merge body]
  | cond condition body => simp [merged, map, mapAll_merge body]

/-- Replacing conditions and merging literals do not mind each other. -/
theorem mapAll_merge (nodes : List Node) :
    mapAll id onCondition (merge nodes) = merge (mapAll id onCondition nodes) := by
  cases nodes with
  | nil => simp [merge]
  | cons node nodes =>
    rw [merge, mapAll_glue, map_merged node, mapAll_merge nodes, mapAll_cons, merge]

end

/-! ### Rendering settled nodes -/

mutual

/-- A node renders alike whether its literals are settled or not. -/
theorem alike_render_settled (root scope : Json) (node : Node) :
    Alike (node.settled.render root scope) ((node.map id Condition.settled).render root scope) := by
  cases node with
  | literal s =>
    simp only [settled, map, render]
    exact Markup.alike_settle s
  | placeholder path raw =>
    simp only [settled, map]
    exact Alike.refl _
  | each name body =>
    simp only [settled, map, render]
    split
    · exact Alike.flatMap fun item _ => alike_renderAll_settled root item body
    · exact Alike.refl _
  | cond condition body =>
    simp only [settled, map, render]
    split
    · exact alike_renderAll_settled root scope body
    · exact Alike.refl _

/-- Nodes render alike whether their literals are settled or not. -/
theorem alike_renderAll_settled (root scope : Json) (nodes : List Node) :
    Alike (renderAll root scope (settledAll nodes))
      (renderAll root scope (withSettledConditions nodes)) := by
  cases nodes with
  | nil => exact Alike.refl _
  | cons node nodes =>
    simp only [settledAll, withSettledConditions, mapAll_cons, renderAll_cons]
    exact (alike_render_settled root scope node).append (alike_renderAll_settled root scope nodes)

end

end Node

/-! ### Reading settled tokens -/

/-- The block that a settled opening tag begins. -/
def Block.settled : Block → Block
  | .cond expr => .cond (settle expr)
  | .each name => .each name

/-- An open block with all its texts settled. -/
def OpenBlock.settled (b : OpenBlock) : OpenBlock :=
  ⟨b.block.settled, settle b.opening, Node.settledAll b.body⟩

/-- How far a template has been read, with all texts settled. -/
def Reading.settled (r : Reading) : Reading :=
  ⟨Node.settledAll r.nodes, r.blocks.map OpenBlock.settled⟩

theorem Block.closedBy_settled (b : Block) (mark : Mark) :
    b.settled.closedBy mark.settled = b.closedBy mark := by
  cases b <;> cases mark <;> rfl

theorem Block.isCond_settled (b : Block) : b.settled.isCond = b.isCond := by
  cases b <;> rfl

theorem Block.node_settled (b : Block) (body : List Node) :
    b.settled.node (Node.settledAll body) = (b.node body).settled := by
  cases b with
  | cond expr => simp [Block.settled, Block.node, Node.settled, Node.map, Condition.parse_settle]
  | each name => simp [Block.settled, Block.node, Node.settled, Node.map]

theorem OpenBlock.abandoned_settled (b : OpenBlock) :
    b.settled.abandoned = Node.settledAll b.abandoned := by
  simp [OpenBlock.settled, OpenBlock.abandoned, Node.map]

namespace Reading

theorem add_settled (added : List Node) (r : Reading) :
    r.settled.add (Node.settledAll added) = (r.add added).settled := by
  obtain ⟨nodes, blocks⟩ := r
  cases blocks with
  | nil => simp [add, settled]
  | cons b blocks => simp [add, settled, OpenBlock.settled]

theorem close_settled (mark : Mark) (nodes inner : List Node) (blocks : List OpenBlock) :
    close mark.settled (Node.settledAll nodes) (Node.settledAll inner)
        (blocks.map OpenBlock.settled) =
      (close mark nodes inner blocks).settled := by
  induction blocks generalizing inner with
  | nil => simp [close, settled]
  | cons b blocks ih =>
    rw [List.map_cons, close, close]
    have hclosed : b.settled.block.closedBy mark.settled = b.block.closedBy mark :=
      b.block.closedBy_settled mark
    rw [hclosed]
    split
    · have hnode : b.settled.block.node (b.settled.body ++ Node.settledAll inner) =
          (b.block.node (b.body ++ inner)).settled := by
        rw [← Block.node_settled]
        simp [OpenBlock.settled]
      rw [hnode]
      exact add_settled [b.block.node (b.body ++ inner)] ⟨nodes, blocks⟩
    · rw [OpenBlock.abandoned_settled, ← Node.mapAll_append]
      exact ih (b.abandoned ++ inner)

theorem any_settled (blocks : List OpenBlock) (p q : Block → Bool)
    (h : ∀ b : Block, q b.settled = p b) :
    (blocks.map OpenBlock.settled).any (q ·.block) = blocks.any (p ·.block) := by
  rw [List.any_map]
  exact congrArg (blocks.any ·) (funext fun b => h b.block)

theorem step_settled (r : Reading) (t : Token) : r.settled.step t.settled = (r.step t).settled := by
  have hliteral : r.settled.add [.literal t.settled.source] = (r.add [.literal t.source]).settled := by
    rw [Token.source_settled]
    simpa [Node.map] using add_settled [.literal t.source] r
  have henter (b : Block) :
      (⟨r.settled.nodes, ⟨b.settled, t.settled.source, []⟩ :: r.settled.blocks⟩ : Reading) =
        settled ⟨r.nodes, ⟨b, t.source, []⟩ :: r.blocks⟩ := by
    simp [settled, OpenBlock.settled, Token.source_settled]
  have hclose (mark : Mark) :
      (if r.settled.blocks.any (·.block.closedBy mark.settled) then
        close mark.settled r.settled.nodes [] r.settled.blocks
      else r.settled.add [.literal t.settled.source]) =
        (if r.blocks.any (·.block.closedBy mark) then close mark r.nodes [] r.blocks
        else r.add [.literal t.source]).settled := by
    have hany : r.settled.blocks.any (·.block.closedBy mark.settled) =
        r.blocks.any (·.block.closedBy mark) :=
      any_settled r.blocks (·.closedBy mark) (·.closedBy mark.settled)
        fun b => b.closedBy_settled mark
    rw [hany]
    split
    · exact close_settled mark r.nodes [] r.blocks
    · exact hliteral
  unfold step
  rw [Token.mark_settled]
  cases t.mark with
  | text => exact hliteral
  | placeholder path raw =>
    have : r.settled.add [.placeholder path raw] = (r.add [.placeholder path raw]).settled := by
      simpa [Node.map] using add_settled [.placeholder path raw] r
    exact this
  | condOpen expr =>
    have hany : r.settled.blocks.any (·.block.isCond) = r.blocks.any (·.block.isCond) :=
      any_settled r.blocks Block.isCond Block.isCond Block.isCond_settled
    simp only [Mark.settled, hany]
    split
    · exact hliteral
    · exact henter (.cond expr)
  | condClose => exact hclose .condClose
  | eachOpen name => exact henter (.each name)
  | eachClose name => exact hclose (.eachClose name)

theorem finish_settled (r : Reading) : r.settled.finish = Node.settledAll r.finish := by
  have h (blocks : List OpenBlock) : (blocks.map OpenBlock.settled).flatMap OpenBlock.abandoned =
      Node.settledAll (blocks.flatMap OpenBlock.abandoned) := by
    induction blocks with
    | nil => simp
    | cons b blocks ih => simp [OpenBlock.abandoned_settled, ih]
  rw [finish, finish, Node.settledAll, Node.mapAll_append, ← Node.settledAll, ← h,
    List.map_reverse]
  rfl

end Reading

namespace Template

/-- **The nodes of settled tokens are the settled nodes.** -/
theorem ofTokens_settled (tokens : List Token) :
    ofTokens (tokens.map Token.settled) = Node.settledAll (ofTokens tokens) := by
  have h (r : Reading) : (tokens.map Token.settled).foldl Reading.step r.settled =
      (tokens.foldl Reading.step r).settled := by
    induction tokens generalizing r with
    | nil => rfl
    | cons t tokens ih => rw [List.map_cons, List.foldl_cons, Reading.step_settled, ih, List.foldl_cons]
  have hstart : Reading.start.settled = Reading.start := by simp [Reading.start, Reading.settled]
  rw [ofTokens, ← hstart, h, Reading.finish_settled, ofTokens]

end Template

end MaskedViews
