import MaskedViews.Proofs.Template.Ends

/-!
# What is read, and from which tokens

An account says of nodes that they are read from tokens, between the tags of the blocks that are
open around them. If it goes along with what a reader does (`Node.Account`), it holds of a template
as a whole (`Template.account_ofTokens`): a token is read by itself unless it closes an open block, a
block is read from its opening tag, what is inside and its closing tag, and when a block is given up
what is inside it becomes a part of what is around it.
-/

namespace MaskedViews

/-- The node of a token that is read by itself. -/
def Token.node (t : Token) : Node :=
  match t.mark with
  | .placeholder path raw => .placeholder path raw
  | _ => .literal t.source

namespace Block

/-- What the opening tag of a block means. -/
def openMark : Block → Mark
  | .cond expr => .condOpen expr
  | .each name => .eachOpen name

/-- What the closing tag of a block means. -/
def closeMark : Block → Mark
  | .cond _ => .condClose
  | .each name => .eachClose name

theorem closedBy_iff {b : Block} {mark : Mark} : b.closedBy mark = true ↔ mark = b.closeMark := by
  cases b <;> cases mark <;> simp [closedBy, closeMark, eq_comm]

/-- An opening tag closes nothing. -/
theorem closedBy_openMark (b c : Block) : b.closedBy c.openMark = false := by
  cases b <;> cases c <;> rfl

end Block

theorem Token.node_of_openMark {t : Token} {b : Block} (h : t.mark = b.openMark) :
    t.node = .literal t.source := by
  cases b <;> simp [node, h, Block.openMark]

namespace Node

/-- An account of nodes and the tokens that they are read from, between the tags of open blocks,
innermost first, that goes along with what a reader does. -/
structure Account (A : List Block → List Node → List Token → Prop) : Prop where
  /-- From no token no node is read. -/
  nil (around : List Block) : A around [] []
  /-- Tokens one after the other are read as nodes one after the other. -/
  append {around : List Block} {xs ys : List Node} {ts us : List Token} (h : A around xs ts)
    (h' : A around ys us) : A around (xs ++ ys) (ts ++ us)
  /-- A token that closes no open block is read by itself. -/
  single {around : List Block} {t : Token} (h : ∀ b ∈ around, b.closedBy t.mark = false) :
    A around [t.node] [t]
  /-- What is inside a block that is given up is a part of what is around it. -/
  outside {b : Block} {around : List Block} {xs : List Node} {ts : List Token}
    (h : A (b :: around) xs ts) : A around xs ts
  /-- A block is read from its opening tag, what is inside and its closing tag. A condition stands
  inside no condition. -/
  block {b : Block} {around : List Block} {opening closing : Token} {body : List Node}
    {ts : List Token} (hopen : opening.mark = b.openMark) (hclose : closing.mark = b.closeMark)
    (hcond : b.isCond = true → ∀ c ∈ around, c.isCond = false) (h : A (b :: around) body ts) :
    A around [b.node body] (opening :: (ts ++ [closing]))

theorem Account.outermost {A : List Block → List Node → List Token → Prop} (hA : Account A)
    {around : List Block} {xs : List Node} {ts : List Token} (h : A around xs ts) : A [] xs ts := by
  induction around with
  | nil => exact h
  | cons b around ih => exact ih (hA.outside h)

end Node

namespace Reading

variable {A : List Block → List Node → List Token → Prop}

/-- An account of nodes and of blocks that stand open behind them. -/
def AccountFrom (A : List Block → List Node → List Token → Prop) (nodes : List Node) :
    List OpenBlock → List Token → Prop
  | [], ts => A [] nodes ts
  | b :: blocks, ts => ∃ before opening inside, ts = before ++ opening :: inside ∧
      AccountFrom A nodes blocks before ∧ opening.mark = b.block.openMark ∧
      opening.source = b.opening ∧ (b.block.isCond = true → ∀ c ∈ blocks, c.block.isCond = false) ∧
      A ((b :: blocks).map OpenBlock.block) b.body inside

/-- An account of a reading. -/
def IsReadFrom (A : List Block → List Node → List Token → Prop) (r : Reading) (ts : List Token) :
    Prop :=
  AccountFrom A r.nodes r.blocks ts

variable (hA : Node.Account A) {r : Reading} {ts us : List Token}

include hA

theorem IsReadFrom.add (h : r.IsReadFrom A ts) {added : List Node}
    (hadded : A (r.blocks.map OpenBlock.block) added us) :
    (r.add added).IsReadFrom A (ts ++ us) := by
  obtain ⟨nodes, blocks⟩ := r
  cases blocks with
  | nil => exact hA.append h hadded
  | cons b blocks =>
    obtain ⟨before, opening, inside, rfl, hbefore, hopen, hsource, hcond, hbody⟩ := h
    exact ⟨before, opening, inside ++ us, by simp, hbefore, hopen, hsource, hcond,
      hA.append hbody hadded⟩

/-- A block that is given up is read from its opening tag and what follows it. -/
theorem account_abandoned {b : OpenBlock} {around : List Block} {opening : Token}
    (hopen : opening.mark = b.block.openMark) (hsource : opening.source = b.opening)
    (hbody : A (b.block :: around) b.body ts) : A around b.abandoned (opening :: ts) := by
  have hopening : A around [opening.node] [opening] :=
    hA.single fun c _ => hopen ▸ Block.closedBy_openMark c b.block
  rw [Token.node_of_openMark hopen, hsource] at hopening
  exact hA.append hopening (hA.outside hbody)

theorem isReadFrom_close {mark : Mark} {nodes inner : List Node} {blocks : List OpenBlock}
    {closing : Token} (h : AccountFrom A nodes blocks ts)
    (hinner : A (blocks.map OpenBlock.block) inner us) (hmark : closing.mark = mark)
    (hclosed : blocks.any (·.block.closedBy mark) = true) :
    (close mark nodes inner blocks).IsReadFrom A (ts ++ (us ++ [closing])) := by
  induction blocks generalizing ts us inner with
  | nil => cases hclosed
  | cons b blocks ih =>
    obtain ⟨before, opening, inside, rfl, hbefore, hopen, hsource, hcond, hbody⟩ := h
    rw [close]
    split
    · next hb =>
      have hblock := hA.block hopen (hmark.trans (Block.closedBy_iff.1 hb))
        (fun hc c hmem => by
          obtain ⟨d, hd, rfl⟩ := List.mem_map.1 hmem
          exact hcond hc d hd) (hA.append hbody hinner)
      have := IsReadFrom.add hA (r := ⟨nodes, blocks⟩) hbefore hblock
      simpa using this
    · next hb =>
      rw [List.any_cons, Bool.or_eq_true] at hclosed
      have habandoned := account_abandoned hA hopen hsource hbody
      have := ih hbefore (hA.append habandoned (hA.outside hinner)) (hclosed.resolve_left hb)
      simpa using this

/-- Reading a token adds the token to the account. -/
theorem IsReadFrom.step (h : r.IsReadFrom A ts) (t : Token) :
    (r.step t).IsReadFrom A (ts ++ [t]) := by
  have hsingle (hopen : ∀ b ∈ r.blocks, b.block.closedBy t.mark = false) :
      (r.add [t.node]).IsReadFrom A (ts ++ [t]) := by
    refine h.add hA (hA.single fun b hb => ?_)
    obtain ⟨c, hc, rfl⟩ := List.mem_map.1 hb
    exact hopen c hc
  have hliteral (hnode : t.node = .literal t.source)
      (hopen : ∀ b ∈ r.blocks, b.block.closedBy t.mark = false) :
      (r.add [.literal t.source]).IsReadFrom A (ts ++ [t]) :=
    hnode ▸ hsingle hopen
  have henter {b : Block} (hopen : t.mark = b.openMark)
      (hcond : b.isCond = true → ∀ c ∈ r.blocks, c.block.isCond = false) :
      IsReadFrom A ⟨r.nodes, ⟨b, t.source, []⟩ :: r.blocks⟩ (ts ++ [t]) :=
    ⟨ts, t, [], rfl, h, hopen, rfl, hcond, hA.nil _⟩
  have hclose {mark : Mark} (hmark : t.mark = mark) (hnode : t.node = .literal t.source) :
      (if r.blocks.any (·.block.closedBy mark) then close mark r.nodes [] r.blocks
        else r.add [.literal t.source]).IsReadFrom A (ts ++ [t]) := by
    split
    · next hclosed => exact isReadFrom_close hA h (hA.nil _) hmark hclosed
    · next hclosed =>
      refine hliteral hnode fun b hb => ?_
      rw [List.any_eq_true, not_exists] at hclosed
      simpa [hb, hmark] using hclosed b
  have hnone {b : Block} (hopen : t.mark = b.openMark) :
      ∀ c ∈ r.blocks, c.block.closedBy t.mark = false :=
    fun c _ => hopen ▸ Block.closedBy_openMark c.block b
  unfold Reading.step
  cases hmark : t.mark with
  | text => exact hliteral (by rw [Token.node, hmark]) fun b _ => by rw [hmark]; cases b.block <;> rfl
  | placeholder path raw =>
    have hnode : t.node = .placeholder path raw := by rw [Token.node, hmark]
    show (r.add [.placeholder path raw]).IsReadFrom A (ts ++ [t])
    rw [← hnode]
    exact hsingle fun b _ => by rw [hmark]; cases b.block <;> rfl
  | condOpen expr =>
    simp only
    split
    · exact hliteral (by rw [Token.node, hmark]) (hnone (b := .cond expr) hmark)
    · next hcond =>
      refine henter (b := .cond expr) hmark fun _ c hc => ?_
      rw [List.any_eq_true, not_exists] at hcond
      simpa [hc] using hcond c
  | condClose => exact hclose hmark (by rw [Token.node, hmark])
  | eachOpen name => exact henter (b := .each name) hmark fun hcond => by cases hcond
  | eachClose name => exact hclose hmark (by rw [Token.node, hmark])

theorem IsReadFrom.foldl (h : r.IsReadFrom A ts) (us : List Token) :
    (us.foldl Reading.step r).IsReadFrom A (ts ++ us) := by
  induction us generalizing r ts with
  | nil => simpa using h
  | cons u us ih => simpa using ih (h.step hA u)

/-- With no block left open, the account is one of all the nodes. -/
theorem IsReadFrom.finish (h : r.IsReadFrom A ts) : A [] r.finish ts := by
  obtain ⟨nodes, blocks⟩ := r
  induction blocks generalizing ts with
  | nil => simpa [Reading.finish] using (show A [] nodes ts from h)
  | cons b blocks ih =>
    obtain ⟨before, opening, inside, rfl, hbefore, hopen, hsource, -, hbody⟩ := h
    rw [finish_cons]
    exact hA.append (ih hbefore) (hA.outermost (account_abandoned hA hopen hsource hbody))

end Reading

/-- **An account that goes along with reading holds of what is read.** -/
theorem Template.account_ofTokens {A : List Block → List Node → List Token → Prop}
    (hA : Node.Account A) (ts : List Token) : A [] (ofTokens ts) ts := by
  have hstart : Reading.start.IsReadFrom A [] := hA.nil []
  have := ((hstart.foldl hA ts).finish hA)
  rwa [List.nil_append] at this

end MaskedViews
