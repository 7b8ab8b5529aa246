import MaskedViews.Proofs.Template.Ends

/-!
# Readings side by side

A relation of nodes that goes along with putting nodes one after the other and with putting them
into a block goes along with reading: two readings whose open blocks are the same, with related
nodes in them, are so related after every token (`Related.step`), and so are the nodes in the end.
It may hold of some literals only; then the tokens that are read must be of that kind. For the
relation of having the same merged form this says that a stretch of text may be read in one token or
in several (`ReadAlike.ofText_append`).
-/

namespace MaskedViews

/-! ### Merging in parts -/

namespace Node

theorem glue_glue (s t : Text) (nodes : List Node) :
    glue (.literal s) (glue (.literal t) nodes) = glue (.literal (s ++ t)) nodes := by
  cases nodes with
  | nil => rfl
  | cons node nodes => cases node <;> simp [glue]

theorem merge_glue_append (node : Node) (xs ys : List Node) :
    merge (glue node xs ++ ys) = glue node.merged (merge (xs ++ ys)) := by
  unfold glue
  split
  · next s t xs =>
    simp only [List.cons_append, merge, merged]
    exact (glue_glue s t _).symm
  · rw [List.cons_append, merge]
    rfl

mutual

/-- There is nothing left to merge in a merged node. -/
theorem merged_merged (node : Node) : node.merged.merged = node.merged := by
  cases node with
  | literal s => simp [merged]
  | placeholder path raw => simp [merged]
  | each name body => simp [merged, merge_merge body]
  | cond condition body => simp [merged, merge_merge body]

/-- There is nothing left to merge in merged nodes. -/
theorem merge_merge (nodes : List Node) : merge (merge nodes) = merge nodes := by
  cases nodes with
  | nil => simp [merge]
  | cons node nodes =>
    have := merge_glue_append node.merged (merge nodes) []
    rw [List.append_nil, List.append_nil] at this
    rw [merge, this, merged_merged node, merge_merge nodes]

end

theorem merge_merge_append (xs ys : List Node) : merge (merge xs ++ ys) = merge (xs ++ ys) := by
  induction xs with
  | nil => simp [merge]
  | cons x xs ih => rw [merge, merge_glue_append, merged_merged, ih, List.cons_append, merge]

theorem merge_append_merge (xs ys : List Node) : merge (xs ++ merge ys) = merge (xs ++ ys) := by
  induction xs with
  | nil => exact merge_merge ys
  | cons x xs ih => rw [List.cons_append, merge, ih, List.cons_append, merge]

theorem merged_node (b : Block) (body : List Node) : (b.node body).merged = b.node (merge body) := by
  cases b <;> simp [Block.node, merged]

/-! ### Relations that go along with reading -/

/-- A relation of nodes that goes along with what a reader does with them, if the literals are of a
kind. -/
structure Congruence (L : Text → Prop) (R : List Node → List Node → Prop) : Prop where
  /-- There is nothing to tell apart in nothing. -/
  nil : R [] []
  /-- It goes along with putting nodes one after the other. -/
  append {xs xs' ys ys' : List Node} (h : R xs xs') (h' : R ys ys') : R (xs ++ ys) (xs' ++ ys')
  /-- A literal of the kind is what it is. -/
  literal {s : Text} (h : L s) : R [.literal s] [.literal s]
  /-- It goes along with putting nodes into a block. -/
  node (b : Block) {body body' : List Node} (h : R body body') : R [b.node body] [b.node body']

/-- Nodes that differ only in how their literals are divided. -/
def SameMerged (xs ys : List Node) : Prop := merge xs = merge ys

theorem SameMerged.refl (xs : List Node) : SameMerged xs xs := rfl

theorem sameMerged_trans (xs ys zs : List Node) (h : SameMerged xs ys) (h' : SameMerged ys zs) :
    SameMerged xs zs :=
  Eq.trans h h'

theorem SameMerged.append {xs xs' ys ys' : List Node} (h : SameMerged xs xs')
    (h' : SameMerged ys ys') : SameMerged (xs ++ ys) (xs' ++ ys') := by
  rw [SameMerged, ← merge_merge_append, h, merge_merge_append, ← merge_append_merge, h',
    merge_append_merge]

theorem congruence_sameMerged : Congruence (fun _ => True) SameMerged where
  nil := rfl
  append := SameMerged.append
  literal _ := rfl
  node b body body' h := by
    simp only [SameMerged, merge, merged_node]
    rw [show merge body = merge body' from h]

end Node

namespace Reading

open Node (Congruence SameMerged)

variable {L : Text → Prop} {R : List Node → List Node → Prop}

/-- The same block, open, with related nodes in it. -/
structure RelatedBlocks (L : Text → Prop) (R : List Node → List Node → Prop) (b b' : OpenBlock) :
    Prop where
  /-- It is the same block. -/
  block : b.block = b'.block
  /-- It has the same opening tag. -/
  opening : b.opening = b'.opening
  /-- It may become a literal. -/
  written : L b.opening
  /-- What has been read inside it is related. -/
  body : R b.body b'.body

/-- Readings with the same open blocks and related nodes. -/
structure Related (L : Text → Prop) (R : List Node → List Node → Prop) (r r' : Reading) : Prop where
  /-- The nodes before the outermost open block are related. -/
  nodes : R r.nodes r'.nodes
  /-- The same blocks are open. -/
  blocks : List.Forall₂ (RelatedBlocks L R) r.blocks r'.blocks

theorem related_refl (hL : ∀ s, L s) (hR : ∀ xs, R xs xs) (r : Reading) : Related L R r r :=
  ⟨hR _, List.forall₂_same.2 fun b _ => ⟨rfl, rfl, hL _, hR b.body⟩⟩

theorem Related.trans (hR : ∀ xs ys zs, R xs ys → R ys zs → R xs zs) {r₁ r₂ r₃ : Reading}
    (h : Related L R r₁ r₂) (h' : Related L R r₂ r₃) : Related L R r₁ r₃ := by
  have hblocks {xs ys zs : List OpenBlock} (hxy : List.Forall₂ (RelatedBlocks L R) xs ys)
      (hyz : List.Forall₂ (RelatedBlocks L R) ys zs) : List.Forall₂ (RelatedBlocks L R) xs zs := by
    induction hxy generalizing zs with
    | nil =>
      cases hyz
      exact .nil
    | cons hb _ ih =>
      obtain ⟨c, zs, hc, hzs, rfl⟩ := List.forall₂_cons_left_iff.1 hyz
      exact .cons ⟨hb.block.trans hc.block, hb.opening.trans hc.opening, hb.written,
        hR _ _ _ hb.body hc.body⟩ (ih hzs)
  exact ⟨hR _ _ _ h.nodes h'.nodes, hblocks h.blocks h'.blocks⟩

theorem related_start (hR : Congruence L R) : Related L R start start := ⟨hR.nil, .nil⟩

theorem add_nil (r : Reading) : r.add [] = r := by
  obtain ⟨nodes, blocks⟩ := r
  cases blocks <;> simp [add]

theorem add_add (r : Reading) (xs ys : List Node) : (r.add xs).add ys = r.add (xs ++ ys) := by
  obtain ⟨nodes, blocks⟩ := r
  cases blocks <;> simp [add]

theorem Related.add (hR : Congruence L R) {r r' : Reading} (h : Related L R r r') {xs ys : List Node}
    (hxs : R xs ys) : Related L R (r.add xs) (r'.add ys) := by
  obtain ⟨nodes, blocks⟩ := r
  obtain ⟨nodes', blocks'⟩ := r'
  obtain ⟨hnodes, hblocks⟩ := h
  cases hblocks with
  | nil => exact ⟨hR.append hnodes hxs, .nil⟩
  | cons hb hblocks =>
    exact ⟨hnodes, .cons ⟨hb.block, hb.opening, hb.written, hR.append hb.body hxs⟩ hblocks⟩

theorem related_abandoned (hR : Congruence L R) {b b' : OpenBlock} (h : RelatedBlocks L R b b') :
    R b.abandoned b'.abandoned := by
  rw [OpenBlock.abandoned, OpenBlock.abandoned, ← h.opening]
  exact hR.append (hR.literal h.written) h.body

/-- Whether an open block is of some kind is the same on both sides. -/
theorem any_related {blocks blocks' : List OpenBlock}
    (h : List.Forall₂ (RelatedBlocks L R) blocks blocks') (p : Block → Bool) :
    blocks.any (p ·.block) = blocks'.any (p ·.block) := by
  induction h with
  | nil => rfl
  | cons hb _ ih => rw [List.any_cons, List.any_cons, hb.block, ih]

theorem related_close (hR : Congruence L R) (mark : Mark) {nodes nodes' inner inner' : List Node}
    {blocks blocks' : List OpenBlock} (hnodes : R nodes nodes') (hinner : R inner inner')
    (h : List.Forall₂ (RelatedBlocks L R) blocks blocks') :
    Related L R (close mark nodes inner blocks) (close mark nodes' inner' blocks') := by
  induction h generalizing inner inner' with
  | nil => exact ⟨hR.append hnodes hinner, .nil⟩
  | @cons b b' blocks blocks' hb hblocks ih =>
    rw [close, close, hb.block]
    split
    · have hrest : Related L R ⟨nodes, blocks⟩ ⟨nodes', blocks'⟩ := ⟨hnodes, hblocks⟩
      exact hrest.add hR (hR.node b'.block (hR.append hb.body hinner))
    · exact ih (hR.append (related_abandoned hR hb) hinner)

/-- Related readings are related after a token that may be a literal, if it is no placeholder or one
that is related to itself. -/
theorem Related.step (hR : Congruence L R) {r r' : Reading} (h : Related L R r r') {t : Token}
    (hs : L t.source) (ht : ∀ path raw, t.mark = .placeholder path raw →
      R [.placeholder path raw] [.placeholder path raw]) :
    Related L R (r.step t) (r'.step t) := by
  have hliteral : Related L R (r.add [.literal t.source]) (r'.add [.literal t.source]) :=
    h.add hR (hR.literal hs)
  have henter (b : Block) :
      Related L R ⟨r.nodes, ⟨b, t.source, []⟩ :: r.blocks⟩
        ⟨r'.nodes, ⟨b, t.source, []⟩ :: r'.blocks⟩ :=
    ⟨h.nodes, .cons ⟨rfl, rfl, hs, hR.nil⟩ h.blocks⟩
  have hclose (mark : Mark) : Related L R
      (if r.blocks.any (·.block.closedBy mark) then close mark r.nodes [] r.blocks
        else r.add [.literal t.source])
      (if r'.blocks.any (·.block.closedBy mark) then close mark r'.nodes [] r'.blocks
        else r'.add [.literal t.source]) := by
    rw [any_related h.blocks (·.closedBy mark)]
    split
    · exact related_close hR mark h.nodes hR.nil h.blocks
    · exact hliteral
  unfold Reading.step
  cases hmark : t.mark with
  | text => exact hliteral
  | placeholder path raw => exact h.add hR (ht path raw hmark)
  | condOpen expr =>
    simp only [any_related h.blocks Block.isCond]
    split
    · exact hliteral
    · exact henter (.cond expr)
  | condClose => exact hclose .condClose
  | eachOpen name => exact henter (.each name)
  | eachClose name => exact hclose (.eachClose name)

theorem Related.finish (hR : Congruence L R) {r r' : Reading} (h : Related L R r r') :
    R r.finish r'.finish := by
  have hblocks {blocks blocks' : List OpenBlock}
      (h : List.Forall₂ (RelatedBlocks L R) blocks blocks') :
      R (blocks.flatMap OpenBlock.abandoned) (blocks'.flatMap OpenBlock.abandoned) := by
    induction h with
    | nil => exact hR.nil
    | cons hb _ ih => exact hR.append (related_abandoned hR hb) ih
  exact hR.append h.nodes (hblocks (List.rel_reverse h.blocks))

end Reading

/-! ### Tokens that are read alike -/

namespace Token

open Node (SameMerged congruence_sameMerged)
open Reading (Related)

/-- Tokens after which related readings have the same merged form. -/
def ReadAlike (ts us : List Token) : Prop :=
  ∀ r r' : Reading, Related (fun _ => True) SameMerged r r' →
    Related (fun _ => True) SameMerged (ts.foldl Reading.step r) (us.foldl Reading.step r')

namespace ReadAlike

theorem refl (ts : List Token) : ReadAlike ts ts := by
  induction ts with
  | nil => exact fun r r' h => h
  | cons t ts ih =>
    exact fun r r' h => ih _ _ (h.step congruence_sameMerged trivial fun _ _ _ => rfl)

theorem append {ts us ts' us' : List Token} (h : ReadAlike ts us) (h' : ReadAlike ts' us') :
    ReadAlike (ts ++ ts') (us ++ us') := by
  intro r r' hr
  rw [List.foldl_append, List.foldl_append]
  exact h' _ _ (h r r' hr)

theorem cons {ts us : List Token} (t : Token) (h : ReadAlike ts us) :
    ReadAlike (t :: ts) (t :: us) :=
  show ReadAlike ([t] ++ ts) ([t] ++ us) from append (refl [t]) h

theorem trans {ts us vs : List Token} (h : ReadAlike ts us) (h' : ReadAlike us vs) :
    ReadAlike ts vs := by
  intro r r' hr
  have hr' : Related (fun _ => True) SameMerged r' r' :=
    Reading.related_refl (fun _ => trivial) SameMerged.refl r'
  exact Related.trans Node.sameMerged_trans (h r r' hr) (h' r' r' hr')

theorem foldl_ofText (r : Reading) {s : Text} (hs : s ≠ []) :
    (ofText s).foldl Reading.step r = r.add [.literal s] := by
  rw [ofText, if_neg hs]
  rfl

/-- Text is read alike in one token and in two. -/
theorem ofText_append (x y : Text) : ReadAlike (ofText (x ++ y)) (ofText x ++ ofText y) := by
  by_cases hx : x = []
  · rw [hx]
    exact refl (ofText y)
  by_cases hy : y = []
  · rw [hy, List.append_nil, show ofText [] = [] from rfl, List.append_nil]
    exact refl (ofText x)
  intro r r' hr
  have hxy : x ++ y ≠ [] := fun h => hx (List.append_eq_nil_iff.1 h).1
  rw [List.foldl_append, foldl_ofText r hxy, foldl_ofText r' hx, foldl_ofText _ hy, Reading.add_add]
  exact hr.add congruence_sameMerged rfl

/-- A tag that means nothing is read as text. -/
theorem of_mark_text {t : Token} (ht : t.mark = .text) (hs : t.source ≠ []) :
    ReadAlike [t] (ofText t.source) := by
  intro r r' hr
  have hstep : r.step t = r.add [.literal t.source] := by
    unfold Reading.step
    rw [ht]
  rw [foldl_ofText r' hs, List.foldl_cons, List.foldl_nil, hstep]
  exact hr.add congruence_sameMerged rfl

/-- Tokens that are read alike have the same merged nodes. -/
theorem merge_ofTokens {ts us : List Token} (h : ReadAlike ts us) :
    Node.merge (Template.ofTokens ts) = Node.merge (Template.ofTokens us) := by
  have hstart := Reading.related_start congruence_sameMerged
  exact (h _ _ hstart).finish congruence_sameMerged

end ReadAlike

end Token

/-- A template may be rendered by any tokens that are read like its own. -/
theorem render_eq_of_readAlike {s : Text} {ts : List Token} (h : Token.ReadAlike (Token.tokenize s) ts)
    (data : Json) : render s data = Node.renderAll data data (Template.ofTokens ts) := by
  rw [render_eq, ← Node.renderAll_merge, h.merge_ofTokens, Node.renderAll_merge]

end MaskedViews
