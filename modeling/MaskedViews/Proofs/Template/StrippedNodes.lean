import MaskedViews.Proofs.Template.Lifting
import MaskedViews.Proofs.Template.Woven

/-!
# The tree of a stripped template

Stripping a template and taking the stripped placeholders out of its tree come to the same
(`parse_strip`). The tokens of the stripped template are those that stay, but for text that has come
together, which is read alike (`readAlike_strip`); and a placeholder opens and closes no block, so
without it every block is what it was (`without_ofTokens`).
-/

namespace MaskedViews

namespace Node

variable (remove : Text → Bool)

mutual

/-- What is left of a node without the placeholders to be removed. -/
def left : Node → List Node
  | .literal s => [.literal s]
  | .placeholder path raw => if remove path then [] else [.placeholder path raw]
  | .each name body => [.each name (without body)]
  | .cond condition body => [.cond condition (without body)]

/-- Nodes without the placeholders to be removed, at every depth. -/
def without : List Node → List Node
  | [] => []
  | node :: nodes => node.left ++ without nodes

end

@[simp] theorem without_nil : without remove [] = [] := by
  simp [without]

@[simp] theorem without_append (xs ys : List Node) :
    without remove (xs ++ ys) = without remove xs ++ without remove ys := by
  induction xs with
  | nil => simp
  | cons x xs ih => simp [without, ih]

theorem left_node (b : Block) (body : List Node) :
    (b.node body).left remove = [b.node (without remove body)] := by
  cases b <;> simp [Block.node, left]

mutual

/-- The paths that are left in a node are those that are not to be removed. -/
theorem pathsOf_left (node : Node) :
    pathsOf (node.left remove) = node.paths.filter (!remove ·) := by
  cases node with
  | literal s => simp [left, pathsOf, paths]
  | placeholder path raw => cases h : remove path <;> simp [left, pathsOf, paths, h]
  | each name body => simp [left, pathsOf, paths, pathsOf_without body]
  | cond condition body => simp [left, pathsOf, paths, pathsOf_without body]

/-- The paths that are left are those that are not to be removed. -/
theorem pathsOf_without (nodes : List Node) :
    pathsOf (without remove nodes) = (pathsOf nodes).filter (!remove ·) := by
  cases nodes with
  | nil => simp [pathsOf]
  | cons node nodes =>
    rw [without, pathsOf_append, pathsOf_left node, pathsOf_without nodes, pathsOf,
      List.filter_append]

end

/-! ### Removing and merging -/

theorem sameMerged_without_glue (node : Node) (nodes : List Node) :
    SameMerged (without remove (glue node nodes)) (node.left remove ++ without remove nodes) := by
  unfold glue
  split
  · next s t nodes => simp [SameMerged, without, left, merge, merged, glue_glue]
  · exact SameMerged.refl _

mutual

/-- Whether the literals inside a node are merged before makes no difference. -/
theorem sameMerged_left_merged (node : Node) :
    SameMerged (node.merged.left remove) (node.left remove) := by
  cases node with
  | literal s => simp [SameMerged, merged]
  | placeholder path raw => simp [SameMerged, merged]
  | each name body =>
    have := sameMerged_without_merge body
    simp only [SameMerged, merged, left, merge] at this ⊢
    rw [this]
  | cond condition body =>
    have := sameMerged_without_merge body
    simp only [SameMerged, merged, left, merge] at this ⊢
    rw [this]

/-- Whether literals are merged before makes no difference. -/
theorem sameMerged_without_merge (nodes : List Node) :
    SameMerged (without remove (merge nodes)) (without remove nodes) := by
  cases nodes with
  | nil => simp [SameMerged, merge]
  | cons node nodes =>
    rw [merge, without]
    exact sameMerged_trans _ _ _ (sameMerged_without_glue remove _ _)
      ((sameMerged_left_merged node).append (sameMerged_without_merge nodes))

end

/-- Nodes of which the others are left. -/
def Leaves (xs ys : List Node) : Prop := without remove xs = ys

theorem congruence_leaves : Congruence (fun _ => True) (Leaves remove) where
  nil := without_nil remove
  append {xs xs' ys ys'} h h' := by
    rw [Leaves, without_append, show without remove xs = xs' from h,
      show without remove ys = ys' from h']
  literal _ := by simp [Leaves, without, left]
  node b body body' h := by
    rw [Leaves, without, left_node, without_nil, show without remove body = body' from h]
    rfl

end Node

/-! ### From tokens to nodes -/

theorem Token.exists_of_isStripped {remove : Text → Bool} {t : Token} (h : t.isStripped remove = true) :
    ∃ path raw, t.mark = .placeholder path raw ∧ remove path = true := by
  unfold isStripped at h
  split at h
  · next path raw hmark => exact ⟨path, raw, hmark, h⟩
  · cases h

namespace Template

open Reading (Related)
open Node (Leaves congruence_leaves)

/-- **Removing placeholders from the tokens removes them from the nodes**, and nothing else. -/
theorem without_ofTokens (remove : Text → Bool) (ts : List Token) :
    Node.without remove (ofTokens ts) = ofTokens (ts.filter fun t => !t.isStripped remove) := by
  have hfold (r r' : Reading) (hr : Related (fun _ => True) (Leaves remove) r r') :
      Related (fun _ => True) (Leaves remove) (ts.foldl Reading.step r)
        ((ts.filter fun t => !t.isStripped remove).foldl Reading.step r') := by
    induction ts generalizing r r' with
    | nil => exact hr
    | cons t ts ih =>
      rw [List.foldl_cons]
      cases ht : t.isStripped remove with
      | true =>
        obtain ⟨path, raw, hmark, hpath⟩ := Token.exists_of_isStripped ht
        rw [List.filter_cons_of_neg (by simp [ht])]
        refine ih _ _ ?_
        have hgone : Leaves remove [.placeholder path raw] [] := by
          simp [Leaves, Node.without, Node.left, hpath]
        have hstep : r.step t = r.add [.placeholder path raw] := by
          unfold Reading.step
          rw [hmark]
        rw [hstep, ← Reading.add_nil r']
        exact hr.add (congruence_leaves remove) hgone
      | false =>
        rw [List.filter_cons_of_pos (by simp [ht]), List.foldl_cons]
        refine ih _ _ (hr.step (congruence_leaves remove) trivial fun path raw hmark => ?_)
        have hpath : remove path = false := by
          rw [Token.isStripped, hmark] at ht
          exact ht
        simp [Leaves, Node.without, Node.left, hpath]
  exact (hfold _ _ (Reading.related_start (congruence_leaves remove))).finish
    (congruence_leaves remove)

end Template

/-! ### Tokens of the stripped template -/

namespace Token

open Template

/-- The tokens of a stripped template are read like those that stay. -/
theorem readAlike_strip (remove : Text → Bool) (s : Text) :
    ReadAlike (tokenize (strip remove s)) ((tokenize s).filter fun t => !t.isStripped remove) := by
  -- what has been passed since the last tag that stays is inert
  suffices h : ∀ x, Inert x → ReadAlike (tokenize (x ++ strip remove s))
      (ofText x ++ (tokenize s).filter fun t => !t.isStripped remove) from h [] Inert.nil
  fun_induction tokenize s with
  | case1 s hs =>
    intro x hx
    have hfirst : firstTag? (x ++ s) = none := by rw [firstTag?_inert_append hx, hs, Option.map_none]
    rw [strip_of_none remove hs, tokenize_of_none hfirst, filter_ofText]
    exact ReadAlike.ofText_append x s
  | case2 s before t r hs ih =>
    intro x hx
    have hbefore := inert_of_firstTag? hs
    rw [strip_of_some remove hs, ← List.append_assoc, List.filter_append, filter_ofText,
      ← List.append_assoc (ofText x)]
    split
    · next ht =>
      rw [List.nil_append, List.filter_cons_of_neg (by simp [ht])]
      exact (ih _ (hx.append hbefore)).trans
        ((ReadAlike.ofText_append x before).append (ReadAlike.refl _))
    · next ht =>
      have hfirst := firstTag?_inert_append (hx.append hbefore) (t.source ++ strip remove r)
      rw [firstTag?_source_append hs fun _ _ z => cut?_closeRaw_strip remove, Option.map_some]
        at hfirst
      rw [tokenize_of_some hfirst, List.append_nil, List.filter_cons_of_pos (by simpa using ht)]
      exact (ReadAlike.ofText_append x before).append (ReadAlike.cons t (ih [] Inert.nil))

/-- A template without placeholders to be removed stays as it is. -/
theorem strip_eq_self {remove : Text → Bool} {s : Text}
    (h : ∀ t ∈ tags s, t.isStripped remove = false) : strip remove s = s := by
  rw [strip, List.filter_eq_self.2, source_tokenize]
  intro t ht
  cases htag : t.isTag with
  | true => simp [h t (List.mem_filter.2 ⟨ht, htag⟩)]
  | false => simp [isStripped_eq, path?_of_not_isTag htag]

/-- Stripping a second time changes nothing. -/
theorem strip_strip (remove : Text → Bool) (s : Text) :
    strip remove (strip remove s) = strip remove s := by
  refine strip_eq_self fun t ht => ?_
  rw [tags_strip] at ht
  simpa using (List.mem_filter.1 ht).2

end Token

/-- **Stripping a template is removing placeholders from its tree.** Blocks, literals and the other
placeholders are what they were, but for literals that have come together; so of the placeholders
just those to be removed are gone, and stripping again changes nothing. -/
theorem Template.parse_strip (remove : Text → Bool) (s : Text) :
    (parse (Token.strip remove s)).nodes = Node.merge (Node.without remove (parse s).nodes) ∧
      Node.pathsOf (parse (Token.strip remove s)).nodes =
        (Node.pathsOf (parse s).nodes).filter (!remove ·) ∧
      Token.strip remove (Token.strip remove s) = Token.strip remove s := by
  have hnodes : (parse (Token.strip remove s)).nodes =
      Node.merge (Node.without remove (parse s).nodes) := by
    rw [parse, (Token.readAlike_strip remove s).merge_ofTokens, ← without_ofTokens]
    exact (Node.sameMerged_without_merge remove (ofTokens (Token.tokenize s))).symm
  refine ⟨hnodes, ?_, Token.strip_strip remove s⟩
  rw [hnodes, Node.pathsOf_merge, Node.pathsOf_without]

end MaskedViews
