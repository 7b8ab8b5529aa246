import MaskedViews.Proofs.Template.Passages
import MaskedViews.Proofs.Template.Spelling
import MaskedViews.Proofs.Template.Stripping
import Mathlib.Data.List.Chain

/-!
# The shape of a template

Every template is read as a tree of one shape (`Template.wellFormed_parse`). In each list of nodes,
at any depth, no literal is empty or stands beside another, and only the last node may be a literal
that ends with an opening brace; placeholders and repeated blocks are called by names; and a
condition has no condition inside it.
-/

namespace MaskedViews

/-! ### Nodes at every depth -/

namespace Node

mutual

/-- The lists of nodes inside a node, at any depth. -/
def bodies : Node → List (List Node)
  | .literal _ => []
  | .placeholder _ _ => []
  | .each _ body => body :: bodiesOf body
  | .cond _ body => body :: bodiesOf body

/-- The lists of nodes inside nodes, at any depth. -/
def bodiesOf : List Node → List (List Node)
  | [] => []
  | node :: nodes => node.bodies ++ bodiesOf nodes

end

/-- A list of nodes and the lists inside its nodes, at any depth. -/
def lists (nodes : List Node) : List (List Node) := nodes :: bodiesOf nodes

/-- A property of all nodes at every depth. -/
def Everywhere (P : Node → Prop) (nodes : List Node) : Prop :=
  ∀ inner ∈ lists nodes, ∀ node ∈ inner, P node

@[simp] theorem bodiesOf_append (xs ys : List Node) :
    bodiesOf (xs ++ ys) = bodiesOf xs ++ bodiesOf ys := by
  induction xs with
  | nil => simp [bodiesOf]
  | cons x xs ih => simp [bodiesOf, ih]

theorem bodies_node (b : Block) (body : List Node) : (b.node body).bodies = lists body := by
  cases b <;> simp [Block.node, bodies, lists]

theorem bodiesOf_glue (node : Node) (nodes : List Node) :
    bodiesOf (glue node nodes) = node.bodies ++ bodiesOf nodes := by
  unfold glue
  split <;> simp [bodiesOf, bodies]

mutual

/-- The lists inside a merged node are the lists inside the node, merged. -/
theorem bodies_merged (node : Node) : node.merged.bodies = node.bodies.map merge := by
  cases node with
  | literal s => simp [merged, bodies]
  | placeholder path raw => simp [merged, bodies]
  | each name body => simp [merged, bodies, bodiesOf_merge body]
  | cond condition body => simp [merged, bodies, bodiesOf_merge body]

/-- The lists inside merged nodes are the lists inside the nodes, merged. -/
theorem bodiesOf_merge (nodes : List Node) :
    bodiesOf (merge nodes) = (bodiesOf nodes).map merge := by
  cases nodes with
  | nil => simp [merge, bodiesOf]
  | cons node nodes =>
    simp [merge, bodiesOf_glue, bodiesOf, bodies_merged node, bodiesOf_merge nodes]

end

theorem lists_merge (nodes : List Node) : lists (merge nodes) = (lists nodes).map merge := by
  rw [lists, bodiesOf_merge, lists, List.map_cons]

variable {P : Node → Prop} {xs ys : List Node}

theorem everywhere_nil : Everywhere P [] := by
  simp [Everywhere, lists, bodiesOf]

theorem everywhere_append (hx : Everywhere P xs) (hy : Everywhere P ys) :
    Everywhere P (xs ++ ys) := by
  simp only [Everywhere, lists, bodiesOf_append, List.forall_mem_cons, List.forall_mem_append] at *
  exact ⟨⟨hx.1, hy.1⟩, hx.2, hy.2⟩

theorem everywhere_node (b : Block) (hnode : P (b.node xs)) (h : Everywhere P xs) :
    Everywhere P [b.node xs] := by
  simp only [Everywhere, lists, bodiesOf, bodies_node, List.forall_mem_cons, List.append_nil] at *
  exact ⟨⟨hnode, by simp⟩, h⟩

theorem everywhere_token {t : Token} (h : P t.node) : Everywhere P [t.node] := by
  have hbodies : t.node.bodies = [] := by
    unfold Token.node
    split <;> simp [bodies]
  simpa [Everywhere, lists, bodiesOf, hbodies] using h

/-! ### Shape -/

/-- A name of a value: letters, digits, `_`, `-` and dots, the first no dot. -/
structure IsName (s : Text) : Prop where
  /-- It has a character. -/
  ne_nil : s ≠ []
  /-- It does not begin with a dot. -/
  head : s.head? ≠ some '.'
  /-- It has only characters of these kinds. -/
  char : ∀ c ∈ s, Text.isAlphanumeric c = true ∨ c = '_' ∨ c = '-' ∨ c = '.'

/-- Whether a node is a condition. -/
def isCond : Node → Bool
  | .cond _ _ => true
  | _ => false

/-- What a node is like by itself: a literal has a text, a placeholder and a repeated block a name,
and a condition has no condition inside it. -/
def IsSound : Node → Prop
  | .literal s => s ≠ []
  | .placeholder path _ => IsName path
  | .each name _ => IsName name
  | .cond _ body => Everywhere (fun node => node.isCond = false) body

/-- Whether a node is a literal that ends with an opening brace. -/
def EndsOpen : Node → Prop
  | .literal s => s.getLast? = some '{'
  | _ => False

/-- The shape of a list of nodes. -/
structure WellFormed (nodes : List Node) : Prop where
  /-- Each node is sound by itself. -/
  sound : ∀ node ∈ nodes, node.IsSound
  /-- No literal stands beside another. -/
  apart : nodes.IsChain fun x y => ¬ (x.isLiteral = true ∧ y.isLiteral = true)
  /-- No literal that another node follows ends with an opening brace. -/
  shut : nodes.IsChain fun x _ => ¬ x.EndsOpen

/-! ### Merging makes the shape -/

theorem mem_glue {node : Node} {nodes : List Node} {x : Node} (h : x ∈ glue node nodes) :
    x.isLiteral = true ∨ x = node ∨ x ∈ nodes := by
  unfold glue at h
  split at h
  · rcases List.mem_cons.1 h with rfl | h
    · exact .inl rfl
    · exact .inr (.inr (List.mem_cons_of_mem _ h))
  · exact .inr (List.mem_cons.1 h)

theorem isCond_merged (node : Node) : node.merged.isCond = node.isCond := by
  cases node <;> simp [merged, isCond]

/-- Where there is no condition, none comes about. -/
theorem isCond_of_mem_merge (h : ∀ node ∈ xs, node.isCond = false) :
    ∀ node ∈ merge xs, node.isCond = false := by
  induction xs with
  | nil => simp [merge]
  | cons x xs ih =>
    obtain ⟨hx, hxs⟩ := List.forall_mem_cons.1 h
    intro node hnode
    rw [merge] at hnode
    rcases mem_glue hnode with hliteral | rfl | hnode
    · cases node <;> first | rfl | cases hliteral
    · rw [isCond_merged, hx]
    · exact ih hxs node hnode

theorem isSound_merged {node : Node} (h : node.IsSound) : node.merged.IsSound := by
  cases node with
  | literal s => exact h
  | placeholder path raw => exact h
  | each name body => exact h
  | cond condition body =>
    rw [merged, IsSound, Everywhere, lists_merge, List.forall_mem_map]
    exact fun inner hinner => isCond_of_mem_merge (h inner hinner)

theorem endsOpen_merged {node : Node} : node.merged.EndsOpen ↔ node.EndsOpen := by
  cases node <;> simp [merged, EndsOpen]

/-- A node in front of nodes of this shape, in one with the first of them if both are literals. -/
theorem WellFormed.glue {node : Node} {nodes : List Node} (h : WellFormed nodes)
    (hsound : node.IsSound) (hshut : nodes ≠ [] → ¬ node.EndsOpen) :
    WellFormed (glue node nodes) := by
  unfold Node.glue
  split
  · next s t nodes =>
    obtain ⟨ht, hnodes⟩ := List.forall_mem_cons.1 h.sound
    have hends : (literal (s ++ t)).EndsOpen ↔ (literal t).EndsOpen := by
      simp [EndsOpen, List.getLast?_append_of_ne_nil _ ht]
    obtain ⟨hapart, hapart'⟩ := List.isChain_cons.1 h.apart
    obtain ⟨hshut, hshut'⟩ := List.isChain_cons.1 h.shut
    refine ⟨List.forall_mem_cons.2 ⟨?_, hnodes⟩, List.isChain_cons.2 ⟨hapart, hapart'⟩,
      List.isChain_cons.2 ⟨fun y hy => ?_, hshut'⟩⟩
    · exact fun hnil => ht (List.append_eq_nil_iff.1 hnil).2
    · exact hends.not.2 (hshut y hy)
  · next hne =>
    have hopen : ∀ y ∈ nodes.head?, ¬ node.EndsOpen :=
      fun y hy => hshut (List.ne_nil_of_mem (List.mem_of_mem_head? hy))
    refine ⟨List.forall_mem_cons.2 ⟨hsound, h.sound⟩, List.isChain_cons.2 ⟨?_, h.apart⟩,
      List.isChain_cons.2 ⟨hopen, h.shut⟩⟩
    rintro y hy ⟨hx, hliteral⟩
    obtain ⟨nodes', rfl⟩ := List.head?_eq_some_iff.1 hy
    cases node <;> cases y <;> simp_all [isLiteral]

/-- Nodes that are sound, and of which only the last may end with an opening brace, have the shape
when adjacent literals are made one. -/
theorem wellFormed_merge (hsound : ∀ node ∈ xs, node.IsSound)
    (hshut : xs.IsChain fun x _ => ¬ x.EndsOpen) : WellFormed (merge xs) := by
  induction xs with
  | nil => exact ⟨by simp [merge], by simp [merge], by simp [merge]⟩
  | cons x xs ih =>
    obtain ⟨hx, hxs⟩ := List.forall_mem_cons.1 hsound
    obtain ⟨hhead, htail⟩ := List.isChain_cons.1 hshut
    refine (ih hxs htail).glue (isSound_merged hx) fun hne => endsOpen_merged.not.2 ?_
    cases xs with
    | nil => exact absurd (by simp [merge]) hne
    | cons y xs => exact hhead y rfl

end Node

/-! ### Tokens -/

namespace Token

/-- A token that has a text and does not end with an opening brace. -/
structure IsShut (t : Token) : Prop where
  /-- It has a text. -/
  ne_nil : t.source ≠ []
  /-- It does not end with an opening brace. -/
  last : t.source.getLast? ≠ some '{'

theorem isShut_of_mem_ofText {s : Text} (h : s.getLast? ≠ some '{') {t : Token}
    (ht : t ∈ ofText s) : t.IsShut := by
  obtain ⟨hs, rfl⟩ := mem_ofText.1 ht
  exact ⟨hs, h⟩

/-- Of the tokens of a template only a text at the end may end with an opening brace. -/
theorem exists_tokenize_eq (s : Text) :
    ∃ ts x, tokenize s = ts ++ ofText x ∧ ∀ t ∈ ts, t.IsShut := by
  fun_induction tokenize s with
  | case1 s h => exact ⟨[], s, rfl, by simp⟩
  | case2 s before t r h ih =>
    obtain ⟨ts, x, hts, hshut⟩ := ih
    obtain ⟨z, hz⟩ := exists_source_eq (isTag_of_firstTag? h)
    have ht : t.IsShut := ⟨source_ne_nil_of_firstTag? h, by simp [hz, closeTag]⟩
    refine ⟨ofText before ++ t :: ts, x, by simp [hts], ?_⟩
    rw [List.forall_mem_append, List.forall_mem_cons]
    exact ⟨fun u => isShut_of_mem_ofText (inert_of_firstTag? h).getLast?_ne, ht, hshut⟩

theorem isName_of_isPath {s : Text} (h : isPath s = true) : Node.IsName s := by
  simp only [isPath, isPathChar, Bool.and_eq_true, decide_eq_true_eq, List.all_eq_true,
    Bool.or_eq_true, or_assoc] at h
  exact ⟨h.1.1, h.1.2, h.2⟩

theorem isSound_node {t : Token} (h : t.IsShut) : t.node.IsSound ∧ ¬ t.node.EndsOpen := by
  unfold node
  split
  · next path raw hmark =>
    have hpath : t.path? = some path := by rw [path?, hmark]
    obtain ⟨content, -, hpath, -⟩ := path?_eq_some_iff.1 hpath
    exact ⟨isName_of_isPath hpath, id⟩
  · exact ⟨h.ne_nil, h.last⟩

theorem isCond_node (t : Token) : t.node.isCond = false := by
  unfold node
  split <;> rfl

end Token

/-! ### Reading makes the shape -/

namespace Node

/-- Nodes that are sound if the tokens they are read from are shut, with no condition inside one. -/
def SoundWithin (around : List Block) (nodes : List Node) (ts : List Token) : Prop :=
  (∀ t ∈ ts, t.IsShut) → Everywhere (fun node => node.IsSound ∧ ¬ node.EndsOpen) nodes ∧
    ((∃ b ∈ around, b.isCond = true) → Everywhere (fun node => node.isCond = false) nodes)

theorem isSound_block {b : Block} {opening : Token} {body : List Node}
    (hopen : opening.mark = b.openMark)
    (hbody : b.isCond = true → Everywhere (fun node => node.isCond = false) body) :
    (b.node body).IsSound ∧ ¬ (b.node body).EndsOpen := by
  cases b with
  | cond expr => exact ⟨hbody rfl, id⟩
  | each name => exact ⟨Token.isName_of_isPath (Token.isPath_of_eachOpen hopen), id⟩

theorem account_soundWithin : Account SoundWithin where
  nil around _ := ⟨everywhere_nil, fun _ => everywhere_nil⟩
  append h h' ht := by
    rw [List.forall_mem_append] at ht
    exact ⟨everywhere_append (h ht.1).1 (h' ht.2).1,
      fun hcond => everywhere_append ((h ht.1).2 hcond) ((h' ht.2).2 hcond)⟩
  single {_ t} _ ht :=
    ⟨everywhere_token (Token.isSound_node (ht t (List.mem_singleton_self t))),
      fun _ => everywhere_token (Token.isCond_node t)⟩
  outside {b _ _ _} h ht :=
    ⟨(h ht).1, fun ⟨c, hc, hcond⟩ => (h ht).2 ⟨c, List.mem_cons_of_mem b hc, hcond⟩⟩
  block {b around _ _ body _} hopen _ hcond h ht := by
    rw [List.forall_mem_cons, List.forall_mem_append] at ht
    obtain ⟨hsound, hwithin⟩ := h ht.2.1
    have hnode := isSound_block hopen fun hb => hwithin ⟨b, List.mem_cons_self, hb⟩
    refine ⟨everywhere_node b hnode hsound, fun ⟨c, hc, hcond'⟩ => ?_⟩
    -- a condition around the block leaves the block to be a repeated one
    have hb : (b.node body).isCond = false := by
      cases b with
      | cond expr => rw [hcond rfl c hc] at hcond'; cases hcond'
      | each name => rfl
    exact everywhere_node b hb (hwithin ⟨c, List.mem_cons_of_mem b hc, hcond'⟩)

end Node

namespace Node

variable {xs : List Node} (h : ∀ node ∈ xs, node.IsSound ∧ ¬ node.EndsOpen)

include h

theorem isChain_of_shut : xs.IsChain fun x _ => ¬ x.EndsOpen :=
  (List.pairwise_of_forall_mem_list fun y hy _ _ => (h y hy).2).isChain

theorem wellFormed_merge_of_shut : WellFormed (merge xs) :=
  wellFormed_merge (fun y hy => (h y hy).1) (isChain_of_shut h)

/-- A text behind nodes that do not end with an opening brace may end with one. -/
theorem wellFormed_merge_append {x : Text} (hx : x ≠ []) :
    WellFormed (merge (xs ++ [.literal x])) := by
  refine wellFormed_merge ?_ (List.isChain_append.2 ⟨isChain_of_shut h, List.isChain_singleton _,
    fun y hy _ _ => (h y (List.mem_of_getLast? hy)).2⟩)
  rw [List.forall_mem_append, List.forall_mem_singleton]
  exact ⟨fun y hy => (h y hy).1, hx⟩

end Node

/-- **The shape of every template.** In each list of nodes, at any depth, no literal is empty or
stands beside another, only the last node may be a literal that ends with an opening brace,
placeholders and repeated blocks are called by names, and a condition has no condition inside it. -/
theorem Template.wellFormed_parse (s : Text) :
    ∀ nodes ∈ Node.lists (parse s).nodes, Node.WellFormed nodes := by
  obtain ⟨ts, x, htokens, hshut⟩ := Token.exists_tokenize_eq s
  have hsound := (account_ofTokens Node.account_soundWithin ts hshut).1
  rw [parse, Node.lists_merge, List.forall_mem_map, htokens, Token.ofText]
  split
  · rw [List.append_nil]
    exact fun nodes hnodes => Node.wellFormed_merge_of_shut (hsound nodes hnodes)
  · next hx =>
    simp only [Node.Everywhere, Node.lists, List.forall_mem_cons] at hsound
    rw [ofTokens_append_text, Node.lists, Node.bodiesOf_append, List.forall_mem_cons]
    refine ⟨Node.wellFormed_merge_append hsound.1 hx, fun nodes hnodes => ?_⟩
    rw [Node.bodiesOf, Node.bodiesOf, Node.bodies, List.append_nil, List.append_nil] at hnodes
    exact Node.wellFormed_merge_of_shut (hsound.2 nodes hnodes)

/-- Inside a condition, inside a repeated block: the opening tag of a second condition has become a
part of the literal before it. -/
theorem Template.wellFormed_parse_nested :
    let each := Token.tag "#items".toList
    let first := Token.tag "#if a".toList
    let second := Token.tag "#if b".toList
    let closing := Token.tag "/if".toList
    let last := Token.tag "/items".toList
    let s : Text := [each, first, .text ['x'], second, closing, last].flatMap Token.source
    let inside : List Node := [.literal ('x' :: second.source)]
    inside ∈ Node.lists (parse s).nodes ∧ Node.WellFormed inside := by
  intro each first second closing last s inside
  have htokens : Token.tokenize s = [each, first, .text ['x'], second, closing, last] := by
    decide +kernel
  have heach : each.mark = .eachOpen "items".toList := by decide +kernel
  have hfirst : first.mark = .condOpen ['a'] := by decide +kernel
  have hsecond : second.mark = .condOpen ['b'] := by decide +kernel
  have hclosing : closing.mark = .condClose := by decide +kernel
  have hlast : last.mark = .eachClose "items".toList := by decide +kernel
  have hnodes : (parse s).nodes =
      [.each "items".toList [.cond (Condition.parse ['a']) inside]] := by
    have htext : (Token.text ['x']).mark = .text := rfl
    have hsource : (Token.text ['x']).source = ['x'] := rfl
    simp [parse, htokens, ofTokens, Reading.step, Reading.start, heach, hfirst, htext, hsource,
      hsecond, hclosing, hlast, Block.isCond, Block.closedBy, Reading.close, Reading.add,
      Reading.finish, Block.node, Node.merge, Node.merged, Node.glue, inside]
  have hinside : inside ∈ Node.lists (parse s).nodes := by
    simp [hnodes, Node.lists, Node.bodiesOf, Node.bodies]
  exact ⟨hinside, wellFormed_parse s inside hinside⟩

end MaskedViews
