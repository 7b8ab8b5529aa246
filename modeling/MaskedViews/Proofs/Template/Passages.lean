import MaskedViews.Proofs.Template.Accounts
import MaskedViews.Proofs.Template.Parts

/-!
# Passages of a template

A template is a row of passages, each a token by itself or a block between its tags, and the
passages say of every block that is read which tags are its own. Tokens and nodes determine them
(`Passage.eq_of_tokensOf`): a token stands for one node or is the tag of a block, and which of the
two it is can be seen from the nodes, even where adjacent literals have been made one.
-/

namespace MaskedViews

/-- A passage of a template. -/
inductive Passage where
  /-- A token by itself. -/
  | single (t : Token)
  /-- A block, its opening tag, its closing tag and what is inside. -/
  | block (b : Block) (opening closing : Token) (hopen : opening.mark = b.openMark)
    (hclose : closing.mark = b.closeMark) (inside : List Passage)

namespace Passage

mutual

/-- The tokens of a passage. -/
def tokens : Passage → List Token
  | .single t => [t]
  | .block _ opening closing _ _ inside => opening :: (tokensOf inside ++ [closing])

/-- The tokens of passages, in order. -/
def tokensOf : List Passage → List Token
  | [] => []
  | p :: ps => p.tokens ++ tokensOf ps

end

mutual

/-- The node that a passage is read as. -/
def node : Passage → Node
  | .single t => t.node
  | .block b _ _ _ _ inside => b.node (nodesOf inside)

/-- The nodes that passages are read as. -/
def nodesOf : List Passage → List Node
  | [] => []
  | p :: ps => p.node :: nodesOf ps

end

mutual

/-- The blocks in a passage, at any depth, each with what is inside. -/
def blocks : Passage → List (Block × List Passage)
  | .single _ => []
  | .block b _ _ _ _ inside => (b, inside) :: blocksOf inside

/-- The blocks in passages, at any depth, each with what is inside. -/
def blocksOf : List Passage → List (Block × List Passage)
  | [] => []
  | p :: ps => p.blocks ++ blocksOf ps

end

@[simp] theorem tokensOf_append (ps qs : List Passage) :
    tokensOf (ps ++ qs) = tokensOf ps ++ tokensOf qs := by
  induction ps with
  | nil => simp [tokensOf]
  | cons p ps ih => simp [tokensOf, ih]

@[simp] theorem nodesOf_append (ps qs : List Passage) :
    nodesOf (ps ++ qs) = nodesOf ps ++ nodesOf qs := by
  induction ps with
  | nil => simp [nodesOf]
  | cons p ps ih => simp [nodesOf, ih]

@[simp] theorem blocksOf_append (ps qs : List Passage) :
    blocksOf (ps ++ qs) = blocksOf ps ++ blocksOf qs := by
  induction ps with
  | nil => simp [blocksOf]
  | cons p ps ih => simp [blocksOf, ih]

/-- The passages that a template is read as: they have its tokens, and its nodes when adjacent
literals are made one. -/
structure AreOf (ps : List Passage) (template : Text) : Prop where
  /-- All tokens of the template are there, in order. -/
  tokens : tokensOf ps = Token.tokenize template
  /-- The nodes are those of the template. -/
  nodes : Node.merge (nodesOf ps) = (Template.parse template).nodes

end Passage

/-! ### Nodes that determine passages -/

theorem Token.merged_node (t : Token) : t.node.merged = t.node := by
  unfold Token.node
  split <;> rfl

theorem Block.openMark_inj {b c : Block} (h : b.openMark = c.openMark) : b = c := by
  cases b <;> cases c <;> simp_all [openMark]

namespace Node

theorem glue_ne_nil (node : Node) (nodes : List Node) : glue node nodes ≠ [] := by
  unfold glue
  split <;> simp

theorem merge_eq_nil {nodes : List Node} (h : merge nodes = []) : nodes = [] := by
  cases nodes with
  | nil => rfl
  | cons node nodes => exact absurd h (glue_ne_nil _ _)

theorem glue_node (b : Block) (body nodes : List Node) :
    glue (b.node body) nodes = b.node body :: nodes := by
  cases b <;> rfl

theorem node_inj {b : Block} {body body' : List Node} (h : b.node body = b.node body') :
    body = body' := by
  cases b with
  | cond expr => exact (Node.cond.inj h).2
  | each name => exact (Node.each.inj h).2

/-- What begins with no empty literal does not begin with one when literals are made one. -/
theorem merge_ne_literal_nil {nodes : List Node} (h : ∀ node ∈ nodes, node ≠ .literal [])
    (rest : List Node) : merge nodes ≠ .literal [] :: rest := by
  cases nodes with
  | nil => simp [merge]
  | cons node nodes =>
    have hnode := h node (by simp)
    rw [merge]
    cases node with
    | literal s =>
      have hs : s ≠ [] := fun e => hnode (by rw [e])
      unfold glue merged
      split
      · next s' t rest' heq _ =>
        obtain rfl := Node.literal.inj heq
        simp [hs]
      · simp [hs]
    | placeholder path raw => simp [merged, glue]
    | each name body => simp [merged, glue]
    | cond condition body => simp [merged, glue]

/-- A literal goes into the literal that follows it, if one does. -/
theorem glue_literal (s : Text) (nodes : List Node) :
    (∃ t rest, nodes = .literal t :: rest ∧ glue (.literal s) nodes = .literal (s ++ t) :: rest) ∨
      glue (.literal s) nodes = .literal s :: nodes := by
  cases nodes with
  | nil => exact .inr rfl
  | cons node nodes =>
    cases node with
    | literal t => exact .inl ⟨t, nodes, rfl, rfl⟩
    | placeholder path raw => exact .inr rfl
    | each name body => exact .inr rfl
    | cond condition body => exact .inr rfl

/-- What follows a literal can be told from both together, unless it begins with an empty literal. -/
theorem glue_literal_cancel {s : Text} {xs ys : List Node} (hx : ∀ rest, xs ≠ .literal [] :: rest)
    (hy : ∀ rest, ys ≠ .literal [] :: rest) (h : glue (.literal s) xs = glue (.literal s) ys) :
    xs = ys := by
  rcases glue_literal s xs with ⟨t, rest, rfl, hxs⟩ | hxs <;>
    rcases glue_literal s ys with ⟨u, rest', rfl, hys⟩ | hys <;>
    rw [hxs, hys, List.cons.injEq, Node.literal.injEq] at h
  · rw [List.append_cancel_left h.1, h.2]
  · exact absurd (by rw [List.append_right_eq_self.1 h.1]) (hx rest)
  · exact absurd (by rw [List.self_eq_append_right.1 h.1]) (hy rest')
  · exact h.2

end Node

namespace Passage

open Token (Solid)

theorem node_ne_literal_nil {p : Passage} (h : Solid p.tokens) : p.node ≠ .literal [] := by
  cases p with
  | single t =>
    have ht : t.source ≠ [] := h t (by simp [tokens])
    rw [node, Token.node]
    split
    · simp
    · simpa using ht
  | block b opening closing hopen hclose inside =>
    rw [node]
    cases b <;> simp [Block.node]

theorem ne_literal_nil_of_mem_nodesOf {ps : List Passage} (h : Solid (tokensOf ps)) :
    ∀ node ∈ nodesOf ps, node ≠ .literal [] := by
  induction ps with
  | nil => simp [nodesOf]
  | cons p ps ih =>
    obtain ⟨hp, hps⟩ := Token.solid_append.1 h
    rw [nodesOf, List.forall_mem_cons]
    exact ⟨node_ne_literal_nil hp, ih hps⟩

theorem ne_literal_nil_of_merge {ps : List Passage} (h : Solid (tokensOf ps)) (rest : List Node) :
    Node.merge (nodesOf ps) ≠ .literal [] :: rest :=
  Node.merge_ne_literal_nil (ne_literal_nil_of_mem_nodesOf h) rest

/-- What follows a token that is read by itself can be told from the nodes of both. -/
theorem merge_eq_of_glue_single {t : Token} {ps qs : List Passage} (hps : Solid (tokensOf ps))
    (hqs : Solid (tokensOf qs))
    (h : Node.glue t.node (Node.merge (nodesOf ps)) = Node.glue t.node (Node.merge (nodesOf qs))) :
    Node.merge (nodesOf ps) = Node.merge (nodesOf qs) := by
  unfold Token.node at h
  split at h
  · exact (List.cons.inj h).2
  · exact Node.glue_literal_cancel (ne_literal_nil_of_merge hps) (ne_literal_nil_of_merge hqs) h

/-- The opening tag of a block is not read by itself where the block is read. -/
theorem glue_node_ne_glue_single {b : Block} {t : Token} {body xs ys : List Node}
    (ht : t.mark = b.openMark) : Node.glue (b.node body) xs ≠ Node.glue t.node ys := by
  rw [Node.glue_node, Token.node_of_openMark ht]
  intro h
  rcases Node.glue_literal t.source ys with ⟨u, rest, -, hys⟩ | hys <;>
    rw [hys, List.cons.injEq] at h <;> cases b <;> cases h.1

/-- **Tokens and nodes determine passages**, even if other tokens follow that are not known to be the
same. -/
theorem eq_of_tokensOf {ps qs : List Passage} {ts us : List Token} (hps : Solid (tokensOf ps))
    (hqs : Solid (tokensOf qs)) (htokens : tokensOf ps ++ ts = tokensOf qs ++ us)
    (hnodes : Node.merge (nodesOf ps) = Node.merge (nodesOf qs)) : ps = qs := by
  cases ps with
  | nil =>
    cases qs with
    | nil => rfl
    | cons q qs => cases Node.merge_eq_nil hnodes.symm
  | cons p ps =>
    cases qs with
    | nil => cases Node.merge_eq_nil hnodes
    | cons q qs =>
      obtain ⟨hp, hps'⟩ := Token.solid_append.1 hps
      obtain ⟨hq, hqs'⟩ := Token.solid_append.1 hqs
      rw [tokensOf, tokensOf, List.append_assoc, List.append_assoc] at htokens
      rw [nodesOf, nodesOf, Node.merge, Node.merge] at hnodes
      cases p with
      | single t =>
        cases q with
        | single u =>
          obtain ⟨rfl, hrest⟩ := List.cons.inj htokens
          rw [node, Token.merged_node] at hnodes
          rw [eq_of_tokensOf hps' hqs' hrest (merge_eq_of_glue_single hps' hqs' hnodes)]
        | block b opening closing hopen hclose inside =>
          obtain ⟨rfl, -⟩ := List.cons.inj htokens
          rw [node, node, Token.merged_node, Node.merged_node] at hnodes
          exact absurd hnodes.symm (glue_node_ne_glue_single hopen)
      | block b opening closing hopen hclose inside =>
        cases q with
        | single u =>
          obtain ⟨rfl, -⟩ := List.cons.inj htokens
          rw [node, node, Token.merged_node, Node.merged_node] at hnodes
          exact absurd hnodes (glue_node_ne_glue_single hopen)
        | block c opening' closing' hopen' hclose' inside' =>
          rw [tokens, tokens, List.cons_append, List.cons_append, List.append_assoc,
            List.append_assoc] at htokens
          obtain ⟨rfl, hrest⟩ := List.cons.inj htokens
          obtain rfl := Block.openMark_inj (hopen.symm.trans hopen')
          rw [node, node, Node.merged_node, Node.merged_node, Node.glue_node, Node.glue_node,
            List.cons.injEq] at hnodes
          rw [tokens, Token.solid_cons, Token.solid_append] at hp hq
          obtain rfl := eq_of_tokensOf hp.2.1 hq.2.1 hrest (Node.node_inj hnodes.1)
          obtain ⟨rfl, hlast⟩ := List.cons.inj (List.append_cancel_left hrest)
          rw [eq_of_tokensOf hps' hqs' hlast hnodes.2]
termination_by sizeOf ps

end Passage

end MaskedViews
