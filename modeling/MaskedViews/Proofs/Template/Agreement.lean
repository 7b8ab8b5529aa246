import MaskedViews.Proofs.Template.Accounts
import MaskedViews.Proofs.Template.Conditions

/-!
# What rendering reads

Rendering reads a record through the paths of placeholders, the names of repeated blocks and the
paths of conditions, and in no other way. Two records on which these lead to the same values are
rendered alike (`render_eq_of_agree`), whatever else they hold. That goes by the tags of the
template, whether or not they turn out to be part of a block.
-/

namespace MaskedViews

/-! ### Keys -/

/-- A path leads on from its first key. -/
theorem exists_pathKeys_eq (path : Text) : ∃ keys, pathKeys path = fieldRoot path :: keys := by
  induction path with
  | nil => exact ⟨[], rfl⟩
  | cons c path ih =>
    obtain ⟨keys, hkeys⟩ := ih
    by_cases hc : c = '.'
    · subst hc
      refine ⟨pathKeys path, ?_⟩
      simp [pathKeys, List.splitOn, List.splitOnP_cons_eq_if_modifyHead, fieldRoot]
    · refine ⟨keys, ?_⟩
      rw [pathKeys, List.splitOn] at hkeys
      simp [pathKeys, List.splitOn, List.splitOnP_cons_eq_if_modifyHead, fieldRoot, hc, hkeys]

/-- What a path leads to depends on the value under its first key. -/
theorem Json.lookup_eq_of_member? {v w : Json} {path : Text}
    (h : v.member? (fieldRoot path) = w.member? (fieldRoot path)) : v.lookup path = w.lookup path := by
  rw [lookup, lookup]
  split
  · rfl
  · obtain ⟨keys, hkeys⟩ := exists_pathKeys_eq path
    rw [hkeys, follow, follow, h]

/-! ### What tags and nodes read -/

/-- Whether a tag reads only paths of some kind. -/
def Mark.Reads (P : Text → Prop) : Mark → Prop
  | .placeholder path _ => P path
  | .eachOpen name => P name
  | .condOpen expr => ∀ path ∈ (Condition.parse expr).path?, P path
  | _ => True

namespace Node

mutual

/-- Whether a node reads only paths of some kind. -/
def Reads (P : Text → Prop) : Node → Prop
  | .literal _ => True
  | .placeholder path _ => P path
  | .each name body => P name ∧ AllRead P body
  | .cond condition body => (∀ path ∈ condition.path?, P path) ∧ AllRead P body

/-- Whether nodes read only paths of some kind. -/
def AllRead (P : Text → Prop) : List Node → Prop
  | [] => True
  | node :: nodes => node.Reads P ∧ AllRead P nodes

end

variable {P : Text → Prop}

@[simp] theorem allRead_nil : AllRead P [] ↔ True := by
  simp [AllRead]

@[simp] theorem allRead_cons {node : Node} {nodes : List Node} :
    AllRead P (node :: nodes) ↔ node.Reads P ∧ AllRead P nodes := by
  simp [AllRead]

@[simp] theorem allRead_append {xs ys : List Node} :
    AllRead P (xs ++ ys) ↔ AllRead P xs ∧ AllRead P ys := by
  induction xs with
  | nil => simp
  | cons x xs ih => simp [ih, and_assoc]

/-- Two values in which the paths of some kind lead to the same. -/
def Agree (P : Text → Prop) (v w : Json) : Prop := ∀ path, P path → v.lookup path = w.lookup path

theorem Agree.refl (v : Json) : Agree P v v := fun _ _ => rfl

theorem Agree.resolve_eq {v w : Json} (h : Agree P v w) {path : Text} (hpath : P path) :
    v.resolve path = w.resolve path := by
  rw [Json.resolve, Json.resolve, h path hpath]

theorem Agree.holds_eq {v w : Json} (h : Agree P v w) {c : Condition}
    (hc : ∀ path ∈ c.path?, P path) : c.holds v = c.holds w := by
  cases c with
  | equals path literal => simp only [Condition.holds, h.resolve_eq (hc path rfl)]
  | notEquals path literal => simp only [Condition.holds, h.resolve_eq (hc path rfl)]
  | truthy path => simp only [Condition.holds, h.resolve_eq (hc path rfl)]
  | invalid expr => rfl

mutual

/-- A node that reads only what two records agree on renders alike for both. -/
theorem render_eq_of_agree {v w s t : Json} (hroot : Agree P v w) (hscope : Agree P s t)
    (node : Node) (h : node.Reads P) : node.render v s = node.render w t := by
  cases node with
  | literal text => rfl
  | placeholder path raw =>
    rw [Reads] at h
    simp only [render, hscope.resolve_eq h]
  | each name body =>
    rw [Reads] at h
    simp only [render, hscope name h.1]
    split
    · -- the items are the same values, so the scope is one and the same from here on
      exact List.flatMap_congr fun item _ =>
        renderAll_eq_of_agree hroot (Agree.refl item) body h.2
    · rfl
  | cond condition body =>
    rw [Reads] at h
    simp only [render, hroot.holds_eq h.1, renderAll_eq_of_agree hroot hscope body h.2]

/-- Nodes that read only what two records agree on render alike for both. -/
theorem renderAll_eq_of_agree {v w s t : Json} (hroot : Agree P v w) (hscope : Agree P s t)
    (nodes : List Node) (h : AllRead P nodes) : renderAll v s nodes = renderAll w t nodes := by
  cases nodes with
  | nil => simp
  | cons node nodes =>
    rw [allRead_cons] at h
    rw [renderAll_cons, renderAll_cons, render_eq_of_agree hroot hscope node h.1,
      renderAll_eq_of_agree hroot hscope nodes h.2]

end

end Node

/-! ### From tags to nodes -/

section Tags

variable {P : Text → Prop}

theorem Token.reads_node {t : Token} (h : t.mark.Reads P) : t.node.Reads P := by
  unfold node
  split
  · next path raw hmark => rwa [hmark] at h
  · trivial

/-- A block reads what its opening tag reads and what the nodes inside it read. -/
theorem Block.reads_node {b : Block} {body : List Node} :
    (b.node body).Reads P ↔ b.openMark.Reads P ∧ Node.AllRead P body := by
  cases b <;> simp [Block.node, Node.Reads, Block.openMark, Mark.Reads]

/-- Nodes read what the tags do that they are read from. -/
theorem Node.account_allRead :
    Account fun _ nodes ts => (∀ t ∈ ts, t.mark.Reads P) → AllRead P nodes where
  nil _ _ := allRead_nil.2 trivial
  append h h' ht := by
    rw [List.forall_mem_append] at ht
    exact allRead_append.2 ⟨h ht.1, h' ht.2⟩
  single {_ t} _ ht :=
    allRead_cons.2 ⟨Token.reads_node (ht t (List.mem_singleton_self t)), allRead_nil.2 trivial⟩
  outside h := h
  block hopen _ _ h ht := by
    rw [List.forall_mem_cons, List.forall_mem_append] at ht
    exact allRead_cons.2
      ⟨Block.reads_node.2 ⟨hopen ▸ ht.1, h ht.2.1⟩, allRead_nil.2 trivial⟩

theorem Template.allRead_ofTokens {ts : List Token} (h : ∀ t ∈ ts, t.mark.Reads P) :
    Node.AllRead P (ofTokens ts) :=
  account_ofTokens Node.account_allRead ts h

end Tags

/-- **A template whose tags read only what two records agree on renders alike for both.** -/
theorem render_eq_of_agree {P : Text → Prop} {template : Text} {v w : Json}
    (h : ∀ t ∈ Token.tokenize template, t.mark.Reads P) (hagree : Node.Agree P v w) :
    render template v = render template w := by
  rw [render_eq, render_eq]
  exact Node.renderAll_eq_of_agree hagree hagree _ (Template.allRead_ofTokens h)

end MaskedViews
