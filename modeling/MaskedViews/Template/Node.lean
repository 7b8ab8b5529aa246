import MaskedViews.Template.Condition
import MaskedViews.Template.Token

/-!
# Template trees

A template is read into a list of nodes. Literals, placeholders and two kinds of blocks make up
the tree: a block with a condition is kept or dropped as a whole, a repeated block stands once for
every item of a list.

Reading goes through the tokens once and keeps the blocks that are open, innermost first. A
closing tag closes the innermost open block that it fits. The blocks opened inside that one and
not closed were no blocks after all: their opening tags become literals and their nodes go to the
block around them, and so do those of the blocks still open at the end. A closing tag that fits no
open block is a literal, and so is the opening tag of a condition inside a condition.
-/

namespace MaskedViews

/-- A node of a template. -/
inductive Node where
  /-- Text that is copied. -/
  | literal (s : Text)
  /-- The value at a path, escaped unless it is raw. -/
  | placeholder (path : Text) (raw : Bool)
  /-- Nodes that stand once for every item of the list at a path. -/
  | each (name : Text) (body : List Node)
  /-- Nodes that stand there if a condition holds. -/
  | cond (condition : Condition) (body : List Node)
  deriving Inhabited

namespace Node

/-! ### Adjacent literals -/

/-- Puts a node before others, as one literal if both it and the first of them are literals. -/
def glue : Node → List Node → List Node
  | .literal s, .literal t :: nodes => .literal (s ++ t) :: nodes
  | node, nodes => node :: nodes

mutual

/-- The node with the adjacent literals inside it made one. -/
def merged : Node → Node
  | .literal s => .literal s
  | .placeholder path raw => .placeholder path raw
  | .each name body => .each name (merge body)
  | .cond condition body => .cond condition (merge body)

/-- The nodes with adjacent literals made one, at every depth. -/
def merge : List Node → List Node
  | [] => []
  | node :: nodes => glue node.merged (merge nodes)

end

/-! ### Placeholders -/

mutual

/-- The paths of the placeholders in a node, in order. -/
def paths : Node → List Text
  | .literal _ => []
  | .placeholder path _ => [path]
  | .each _ body => pathsOf body
  | .cond _ body => pathsOf body

/-- The paths of the placeholders in nodes, in order. -/
def pathsOf : List Node → List Text
  | [] => []
  | node :: nodes => node.paths ++ pathsOf nodes

end

@[simp] theorem pathsOf_append (xs ys : List Node) :
    pathsOf (xs ++ ys) = pathsOf xs ++ pathsOf ys := by
  induction xs with
  | nil => simp [pathsOf]
  | cons x xs ih => simp [pathsOf, ih]

theorem pathsOf_glue (node : Node) (nodes : List Node) :
    pathsOf (glue node nodes) = node.paths ++ pathsOf nodes := by
  unfold glue
  split
  · simp [pathsOf, paths]
  · simp [pathsOf]

mutual

/-- Merging literals keeps the placeholders of a node. -/
theorem paths_merged (node : Node) : node.merged.paths = node.paths := by
  cases node with
  | literal s => simp [merged]
  | placeholder path raw => simp [merged]
  | each name body => simp [merged, paths, pathsOf_merge body]
  | cond condition body => simp [merged, paths, pathsOf_merge body]

/-- Merging literals keeps the placeholders of nodes. -/
theorem pathsOf_merge (nodes : List Node) : pathsOf (merge nodes) = pathsOf nodes := by
  cases nodes with
  | nil => simp [merge]
  | cons node nodes =>
    simp [merge, pathsOf_glue, pathsOf, paths_merged node, pathsOf_merge nodes]

end

end Node

/-! ### Open blocks -/

/-- A kind of block, with what its opening tag says. -/
inductive Block where
  /-- A block with a condition. -/
  | cond (expr : Text)
  /-- A repeated block. -/
  | each (name : Text)
  deriving DecidableEq, Repr

namespace Block

/-- Whether a tag ends a block: the name of a repeated block must be the same. -/
def closedBy : Block → Mark → Bool
  | .cond _, .condClose => true
  | .each name, .eachClose close => name = close
  | _, _ => false

/-- Whether a block has a condition. -/
def isCond : Block → Bool
  | .cond _ => true
  | .each _ => false

/-- The node of a closed block. -/
def node (body : List Node) : Block → Node
  | .cond expr => .cond (Condition.parse expr) body
  | .each name => .each name body

end Block

/-- A block that is open: its opening tag and what has been read inside it. -/
structure OpenBlock where
  /-- The kind of block. -/
  block : Block
  /-- The opening tag as it was written. -/
  opening : Text
  /-- The nodes read since. -/
  body : List Node

/-- The nodes of an open block that turns out to be none. -/
def OpenBlock.abandoned (b : OpenBlock) : List Node := .literal b.opening :: b.body

/-- How far a template has been read. -/
structure Reading where
  /-- The nodes read before the outermost open block. -/
  nodes : List Node
  /-- The open blocks, innermost first. -/
  blocks : List OpenBlock

namespace Reading

/-- Nothing read yet. -/
def start : Reading := ⟨[], []⟩

/-- Adds nodes to the innermost open block. -/
def add (added : List Node) : Reading → Reading
  | ⟨nodes, []⟩ => ⟨nodes ++ added, []⟩
  | ⟨nodes, b :: blocks⟩ => ⟨nodes, { b with body := b.body ++ added } :: blocks⟩

/-- Closes the innermost open block that a mark fits; `inner` are the nodes of the blocks opened
inside it. -/
def close (mark : Mark) (nodes : List Node) : (inner : List Node) → List OpenBlock → Reading
  | inner, [] => ⟨nodes ++ inner, []⟩
  | inner, b :: blocks =>
    if b.block.closedBy mark then add [b.block.node (b.body ++ inner)] ⟨nodes, blocks⟩
    else close mark nodes (b.abandoned ++ inner) blocks

/-- Reads one token. -/
def step (r : Reading) (token : Token) : Reading :=
  let asLiteral := r.add [.literal token.source]
  let enter (block : Block) : Reading := ⟨r.nodes, ⟨block, token.source, []⟩ :: r.blocks⟩
  match token.mark with
  | .text => asLiteral
  | .placeholder path raw => r.add [.placeholder path raw]
  | .condOpen expr => if r.blocks.any (·.block.isCond) then asLiteral else enter (.cond expr)
  | .eachOpen name => enter (.each name)
  | mark =>
    if r.blocks.any (·.block.closedBy mark) then close mark r.nodes [] r.blocks else asLiteral

/-- The nodes when there is nothing more to read: no open block is one. -/
def finish (r : Reading) : List Node :=
  r.nodes ++ (r.blocks.reverse.flatMap OpenBlock.abandoned)

end Reading

/-- A template that has been read. -/
structure Template where
  /-- The nodes, adjacent literals made one. -/
  nodes : List Node

namespace Template

/-- The nodes of tokens. -/
def ofTokens (tokens : List Token) : List Node := (tokens.foldl Reading.step Reading.start).finish

/-- Reads a template. Every text is one. -/
def parse (s : Text) : Template := ⟨Node.merge (ofTokens (Token.tokenize s))⟩

/-- The paths of the placeholders, each once, in order of first appearance. -/
def placeholders (t : Template) : List Text := (Node.pathsOf t.nodes).eraseDups

end Template

end MaskedViews
