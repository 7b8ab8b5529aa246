import MaskedViews.Proofs.Template.Lifting
import MaskedViews.Proofs.Template.Placeholders

/-!
# What nodes are read from

Reading a template loses nothing of it. The template may be divided into consecutive pieces that go
with its nodes in document order: a literal goes with a stretch that is its text, a placeholder with
one tag, and a block with its opening tag, the pieces of its body and its closing tag
(`exists_spells_parse`). That holds however often a block turns out to be none, since its opening tag
and all that was read inside it are still there, in order, when it is given up.
-/

namespace MaskedViews

namespace Token

/-- Whether a tag ends at the first closing braces behind its opening ones. -/
def IsWhole : Token → Prop
  | text _ => True
  | tag content => Text.cut? closeTag (content ++ closeTag) = some (content, [])
  | rawTag content => Text.cut? closeRaw (content ++ closeRaw) = some (content, [])

theorem isWhole_of_firstTag? {s before r : Text} {t : Token}
    (h : firstTag? s = some (before, t, r)) : t.IsWhole := by
  obtain ⟨after, -, ⟨content, rfl, hraw⟩ | ⟨content, rfl, -, hclose⟩⟩ := firstTag?_cases h
  · rw [eq_of_rawTag? hraw] at hraw
    have := Text.cut?_append_mark hraw []
    rwa [List.append_nil] at this
  · rw [Text.eq_of_cut? hclose] at hclose
    have := Text.cut?_append_mark hclose []
    rwa [List.append_nil] at this

/-- The tags that a template is cut into are whole. -/
theorem isWhole_of_mem_tokenize {s : Text} {t : Token} (h : t ∈ tokenize s) : t.IsWhole := by
  have htext {s : Text} (h : t ∈ ofText s) : t.IsWhole := by
    obtain ⟨-, rfl⟩ := mem_ofText.1 h
    trivial
  fun_induction tokenize s with
  | case1 s _ => exact htext h
  | case2 s before x r hs ih =>
    rcases List.mem_append.1 h with h | h
    · exact htext h
    · rcases List.mem_cons.1 h with rfl | h
      · exact isWhole_of_firstTag? hs
      · exact ih h

/-- A text that is one tag. -/
def Writes (t : Token) (s : Text) : Prop := s = t.source ∧ t.IsWhole

/-- Whether the content of a tag, without blanks at its ends, says what the tag means. -/
def Says (content : Text) : Mark → Prop
  | .text => True
  | .placeholder path raw => content = path ∧ raw = false
  | .condOpen expr => ∃ b w, content = "#if".toList ++ b :: w ∧ Text.isBlank b = true ∧
      Text.trim (b :: w) = expr
  | .condClose => content = "/if".toList
  | .eachOpen name => ∃ w, content = '#' :: w ∧ Text.trim w = name
  | .eachClose name => ∃ w, content = '/' :: w ∧ Text.trim w = name

end Token

namespace Block

/-- A tag that begins a block: `#` and its name, or `#if`, a blank and its condition. -/
def OpenedBy (s : Text) (b : Block) : Prop :=
  ∃ content, (Token.tag content).Writes s ∧ Token.Says (Text.trim content) b.openMark

/-- A tag that ends a block: a slash and its name, or `/if`. -/
def EndedBy (s : Text) (b : Block) : Prop :=
  ∃ content, (Token.tag content).Writes s ∧ Token.Says (Text.trim content) b.closeMark

end Block

/-- Consecutive pieces of a template that go with nodes in document order. -/
inductive Spells : List Text → List Node → Prop where
  /-- Nothing. -/
  | nil : Spells [] []
  /-- A literal goes with its text. -/
  | literal (s : Text) {pieces : List Text} {nodes : List Node} (h : Spells pieces nodes) :
    Spells (s :: pieces) (.literal s :: nodes)
  /-- A placeholder goes with a tag between double braces that says its path, blanks aside. -/
  | placeholder {s content path : Text} {pieces : List Text} {nodes : List Node}
    (hs : (Token.tag content).Writes s) (hpath : Text.trim content = path)
    (h : Spells pieces nodes) : Spells (s :: pieces) (.placeholder path false :: nodes)
  /-- A raw placeholder goes with a tag between triple braces that says its path, blanks aside. -/
  | rawPlaceholder {s content path : Text} {pieces : List Text} {nodes : List Node}
    (hs : (Token.rawTag content).Writes s) (hpath : Text.trim content = path)
    (h : Spells pieces nodes) : Spells (s :: pieces) (.placeholder path true :: nodes)
  /-- A block goes with its opening tag, the pieces of its body and its closing tag. -/
  | block {b : Block} {opening closing : Text} {inner pieces : List Text} {body nodes : List Node}
    (hopen : b.OpenedBy opening) (hbody : Spells inner body) (hend : b.EndedBy closing)
    (h : Spells pieces nodes) :
    Spells (opening :: (inner ++ closing :: pieces)) (b.node body :: nodes)

/-! ### Texts that nodes are read from -/

/-- A text that may be divided into pieces that go with nodes. -/
def Spelled (nodes : List Node) (s : Text) : Prop :=
  ∃ pieces : List Text, pieces.flatten = s ∧ Spells pieces nodes

theorem Spells.append {xs ys : List Text} {nodes more : List Node} (h : Spells xs nodes)
    (h' : Spells ys more) : Spells (xs ++ ys) (nodes ++ more) := by
  induction h with
  | nil => exact h'
  | literal s _ ih => exact .literal s ih
  | placeholder hs hpath _ ih => exact .placeholder hs hpath ih
  | rawPlaceholder hs hpath _ ih => exact .rawPlaceholder hs hpath ih
  | block hopen hbody hend _ _ ih =>
    rw [List.cons_append, List.append_assoc, List.cons_append]
    exact .block hopen hbody hend ih

namespace Spelled

theorem nil : Spelled [] [] := ⟨[], rfl, .nil⟩

theorem append {nodes more : List Node} {s t : Text} (h : Spelled nodes s) (h' : Spelled more t) :
    Spelled (nodes ++ more) (s ++ t) := by
  obtain ⟨xs, rfl, hxs⟩ := h
  obtain ⟨ys, rfl, hys⟩ := h'
  exact ⟨xs ++ ys, List.flatten_append, hxs.append hys⟩

theorem literal (s : Text) : Spelled [.literal s] s := ⟨[s], by simp, .literal s .nil⟩

theorem block {b : Block} {opening closing s : Text} {body : List Node} (hopen : b.OpenedBy opening)
    (hbody : Spelled body s) (hend : b.EndedBy closing) :
    Spelled [b.node body] (opening ++ (s ++ closing)) := by
  obtain ⟨pieces, rfl, hpieces⟩ := hbody
  exact ⟨opening :: (pieces ++ [closing]), by simp, .block hopen hpieces hend .nil⟩

end Spelled

/-! ### Adjacent literals -/

/-- A literal goes with the first of the pieces. -/
theorem Spells.of_literal_cons {pieces : List Text} {s : Text} {nodes : List Node}
    (h : Spells pieces (.literal s :: nodes)) : ∃ rest, pieces = s :: rest ∧ Spells rest nodes := by
  generalize hnodes : Node.literal s :: nodes = all at h
  cases h with
  | nil => cases hnodes
  | literal t h =>
    obtain ⟨hs, rfl⟩ := List.cons.inj hnodes
    obtain rfl := Node.literal.inj hs
    exact ⟨_, rfl, h⟩
  | placeholder => cases hnodes
  | rawPlaceholder => cases hnodes
  | @block b =>
    obtain ⟨hs, -⟩ := List.cons.inj hnodes
    cases b <;> cases hs

/-- A node that is glued to others goes with the same text. -/
theorem Spelled.glue {node : Node} {nodes : List Node} {s : Text}
    (h : Spelled (node :: nodes) s) : Spelled (node.glue nodes) s := by
  unfold Node.glue
  split
  · next x t nodes =>
    obtain ⟨pieces, rfl, hpieces⟩ := h
    obtain ⟨pieces', rfl, hpieces'⟩ := hpieces.of_literal_cons
    obtain ⟨rest, rfl, hrest⟩ := hpieces'.of_literal_cons
    exact ⟨(x ++ t) :: rest, by simp, .literal _ hrest⟩
  · exact h

/-- Merged nodes go with the same text. -/
theorem Spells.merge {pieces : List Text} {nodes : List Node} (h : Spells pieces nodes) :
    Spelled (Node.merge nodes) pieces.flatten := by
  induction h with
  | nil => simpa [Node.merge] using Spelled.nil
  | literal s _ ih =>
    rw [Node.merge, Node.merged, List.flatten_cons]
    exact ((Spelled.literal s).append ih).glue
  | placeholder hs hpath _ ih =>
    rw [Node.merge, Node.merged, List.flatten_cons]
    exact (Spelled.append ⟨[_], by simp, .placeholder hs hpath .nil⟩ ih).glue
  | rawPlaceholder hs hpath _ ih =>
    rw [Node.merge, Node.merged, List.flatten_cons]
    exact (Spelled.append ⟨[_], by simp, .rawPlaceholder hs hpath .nil⟩ ih).glue
  | block hopen _ hend _ ihbody ih =>
    rw [Node.merge, Node.merged_node, List.flatten_cons, List.flatten_append, List.flatten_cons]
    simpa using ((Spelled.block hopen ihbody hend).append ih).glue

/-! ### Tags by what they mean -/

namespace Token

theorem says_markOfContent (content : Text) : Says content (markOfContent content) := by
  obtain ⟨b, w, hcontent, hb, hm⟩ | ⟨hcontent, hm⟩ | ⟨w, hcontent, -, hm⟩ | ⟨w, hcontent, -, hm⟩ |
    ⟨-, hm⟩ | hm := markOfContent_cases content
  · exact hm ▸ ⟨b, w, hcontent, hb, rfl⟩
  · exact hm ▸ hcontent
  · exact hm ▸ ⟨w, hcontent, rfl⟩
  · exact hm ▸ ⟨w, hcontent, rfl⟩
  · exact hm ▸ ⟨rfl, rfl⟩
  · exact hm ▸ trivial

variable {t : Token}

theorem says_of_mark {content : Text} {m : Mark} (h : (tag content).mark = m) :
    Says (Text.trim content) m :=
  h ▸ says_markOfContent (Text.trim content)

theorem spelled_of_placeholder {path : Text} {raw : Bool} (ht : t.IsWhole)
    (h : t.mark = .placeholder path raw) : Spelled [.placeholder path raw] t.source := by
  cases t with
  | text s => cases h
  | tag content =>
    obtain ⟨hpath, rfl⟩ := says_of_mark h
    exact ⟨[_], by simp, .placeholder ⟨rfl, ht⟩ hpath .nil⟩
  | rawTag content =>
    rw [mark] at h
    split at h
    · obtain ⟨hpath, rfl⟩ := Mark.placeholder.inj h
      exact ⟨[_], by simp, .rawPlaceholder ⟨rfl, ht⟩ hpath .nil⟩
    · cases h

theorem openedBy_of_mark {b : Block} (ht : t.IsWhole) (h : t.mark = b.openMark) :
    b.OpenedBy t.source := by
  obtain ⟨content, rfl⟩ := exists_tag_of_mark (t := t) (by cases b <;> simp [h, Block.openMark])
    (by cases b <;> simp [h, Block.openMark])
  exact ⟨content, ⟨rfl, ht⟩, says_of_mark h⟩

theorem endedBy_of_mark {b : Block} (ht : t.IsWhole) (h : t.mark = b.closeMark) :
    b.EndedBy t.source := by
  obtain ⟨content, rfl⟩ := exists_tag_of_mark (t := t) (by cases b <;> simp [h, Block.closeMark])
    (by cases b <;> simp [h, Block.closeMark])
  exact ⟨content, ⟨rfl, ht⟩, says_of_mark h⟩

end Token

/-! ### From tokens to nodes -/

theorem Token.spelled_node {t : Token} (ht : t.IsWhole) : Spelled [t.node] t.source := by
  unfold node
  split
  · next path raw hmark => exact spelled_of_placeholder ht hmark
  · exact .literal t.source

/-- Nodes go with the text of the tokens that they are read from. -/
theorem Node.account_spelled :
    Account fun _ nodes ts => (∀ t ∈ ts, t.IsWhole) → Spelled nodes (ts.flatMap Token.source) where
  nil _ _ := .nil
  append h h' ht := by
    rw [List.forall_mem_append] at ht
    rw [List.flatMap_append]
    exact (h ht.1).append (h' ht.2)
  single {_ t} _ ht := by simpa using Token.spelled_node (ht t (List.mem_singleton_self t))
  outside h := h
  block hopen hclose _ h ht := by
    rw [List.forall_mem_cons, List.forall_mem_append, List.forall_mem_singleton] at ht
    have hblock := Spelled.block (Token.openedBy_of_mark ht.1 hopen) (h ht.2.1)
      (Token.endedBy_of_mark ht.2.2 hclose)
    simpa using hblock

/-- The nodes of a template go with the whole of it. -/
theorem Template.spelled_parse (s : Text) : Spelled (parse s).nodes s := by
  have hread := account_ofTokens Node.account_spelled (Token.tokenize s)
    fun t ht => Token.isWhole_of_mem_tokenize ht
  rw [Token.source_tokenize] at hread
  obtain ⟨pieces, rfl, hpieces⟩ := hread
  exact hpieces.merge

/-- Whether a node is a literal. -/
def Node.isLiteral : Node → Bool
  | .literal _ => true
  | _ => false

/-- Literals render to what they go with. -/
theorem renderAll_of_literals {nodes : List Node} {s : Text} (h : Spelled nodes s)
    (hliteral : ∀ node ∈ nodes, node.isLiteral = true) (root scope : Json) :
    Node.renderAll root scope nodes = s := by
  obtain ⟨pieces, rfl, hpieces⟩ := h
  induction nodes generalizing pieces with
  | nil =>
    cases hpieces
    simp
  | cons node nodes ih =>
    obtain ⟨hnode, hnodes⟩ := List.forall_mem_cons.1 hliteral
    cases node with
    | literal x =>
      obtain ⟨rest, rfl, hrest⟩ := hpieces.of_literal_cons
      rw [Node.renderAll_cons, ih hnodes rest hrest, List.flatten_cons, Node.render]
    | placeholder path raw => cases hnode
    | each name body => cases hnode
    | cond condition body => cases hnode

/-- **Reading a template loses nothing.** It may be divided into consecutive pieces that go with its
nodes in document order, and no tag that is a placeholder goes unread; so a template that is read
as nothing but literals renders to itself. -/
theorem Template.exists_spells_parse (s : Text) :
    (∃ pieces : List Text, pieces.flatten = s ∧ Spells pieces (parse s).nodes) ∧
      Node.pathsOf (parse s).nodes = (Token.tokenize s).filterMap Token.path? ∧
      ((∀ node ∈ (parse s).nodes, node.isLiteral = true) →
        ∀ data, MaskedViews.render s data = s) := by
  refine ⟨spelled_parse s, ?_, fun hliteral data => ?_⟩
  · rw [parse, Node.pathsOf_merge, pathsOf_ofTokens]
  · exact renderAll_of_literals (spelled_parse s) hliteral data data

/-- A block that is not closed, and a condition inside it that the end tag of a block of another kind
does not close: all of it is literal. -/
theorem Template.render_of_unclosed :
    let s : Text := [Token.tag "#items".toList, .text ['a'], .tag "#if b".toList,
      .tag "> c".toList, .tag "/ if".toList].flatMap Token.source
    (∀ node ∈ (parse s).nodes, node.isLiteral = true) ∧
      ∀ data, MaskedViews.render s data = s := by
  intro s
  have hliteral : ∀ node ∈ (parse s).nodes, node.isLiteral = true := by decide +kernel
  exact ⟨hliteral, (exists_spells_parse s).2.2 hliteral⟩

end MaskedViews
