import MaskedViews.Proofs.Template.Passages

/-!
# Where blocks close

A template is read as passages in just one way, and those say where each block closes
(`Template.closesFirst_iff`). A closing tag that fits a block and stands inside it is the closing tag
of another block there, so a block closes at the first closing tag that no block inside takes. A
condition stands inside no condition and closes at the first closing tag behind its opening tag.
Repeated blocks of one name may stand inside each other, and then the outer one does not
(`Template.not_closesFirst_of_nested`).
-/

namespace MaskedViews

theorem Block.openMark_ne_closeMark (b c : Block) : b.openMark ≠ c.closeMark := by
  cases b <;> cases c <;> simp [openMark, closeMark]

theorem Block.closeMark_inj_of_each {b c : Block} (hb : b.isCond = false)
    (h : c.closeMark = b.closeMark) : c = b := by
  cases b <;> cases c <;> simp_all [closeMark, isCond]

theorem Block.isCond_of_closeMark {b c : Block} (hb : b.isCond = true)
    (h : c.closeMark = b.closeMark) : c.isCond = true := by
  cases b <;> cases c <;> simp_all [closeMark, isCond]

namespace Passage

mutual

/-- The tokens in a passage that are read by themselves, at any depth. -/
def lone : Passage → List Token
  | .single t => [t]
  | .block _ _ _ _ _ inside => loneOf inside

/-- The tokens in passages that are read by themselves, at any depth. -/
def loneOf : List Passage → List Token
  | [] => []
  | p :: ps => p.lone ++ loneOf ps

end

@[simp] theorem loneOf_append (ps qs : List Passage) :
    loneOf (ps ++ qs) = loneOf ps ++ loneOf qs := by
  induction ps with
  | nil => simp [loneOf]
  | cons p ps ih => simp [loneOf, ih]

/-! ### The tags among the tokens -/

mutual

/-- A token that closes blocks is read by itself or is the closing tag of a block. -/
theorem exists_closing_tokens (c : Block) (p : Passage) :
    (∃ t ∈ p.tokens, t.mark = c.closeMark) ↔
      (∃ t ∈ p.lone, t.mark = c.closeMark) ∨ ∃ x ∈ p.blocks, x.1.closeMark = c.closeMark := by
  cases p with
  | single t => simp [tokens, lone, blocks]
  | block b opening closing hopen hclose inside =>
    have hopening : opening.mark ≠ c.closeMark := hopen ▸ b.openMark_ne_closeMark c
    simp only [tokens, lone, blocks, List.mem_cons, List.mem_append, List.not_mem_nil, or_false,
      hopening, false_or, or_and_right, exists_or, exists_eq_left,
      exists_closing_tokensOf c inside, hclose]
    rw [or_assoc, or_comm (a := ∃ x ∈ blocksOf inside, _)]

/-- A token that closes blocks is read by itself or is the closing tag of a block. -/
theorem exists_closing_tokensOf (c : Block) (ps : List Passage) :
    (∃ t ∈ tokensOf ps, t.mark = c.closeMark) ↔
      (∃ t ∈ loneOf ps, t.mark = c.closeMark) ∨ ∃ x ∈ blocksOf ps, x.1.closeMark = c.closeMark := by
  cases ps with
  | nil => simp [tokensOf, loneOf, blocksOf]
  | cons p ps =>
    simp only [tokensOf, loneOf, blocksOf, List.mem_append, or_and_right, exists_or,
      exists_closing_tokens c p, exists_closing_tokensOf c ps]
    exact or_or_or_comm

end

/-! ### Blocks that stay open -/

/-- What is inside a block leaves it open: no token there closes it by itself, and if the block has a
condition, none inside has. -/
structure LeavesOpen (b : Block) (inside : List Passage) : Prop where
  /-- A token that fits the block is the closing tag of a block inside. -/
  lone : ∀ t ∈ loneOf inside, t.mark ≠ b.closeMark
  /-- A condition stands inside no condition. -/
  cond : b.isCond = true → ∀ x ∈ blocksOf inside, x.1.isCond = false

/-- Passages leave open the blocks around them, and what is inside their blocks leaves those open. -/
structure Nested (around : List Block) (ps : List Passage) : Prop where
  /-- The blocks around the passages stay open. -/
  around : ∀ b ∈ around, LeavesOpen b ps
  /-- A block stays open up to its closing tag. -/
  inside : ∀ x ∈ blocksOf ps, LeavesOpen x.1 x.2

theorem LeavesOpen.nil (b : Block) : LeavesOpen b [] :=
  ⟨by simp [loneOf], by simp [blocksOf]⟩

theorem LeavesOpen.append {b : Block} {ps qs : List Passage} (hp : LeavesOpen b ps)
    (hq : LeavesOpen b qs) : LeavesOpen b (ps ++ qs) where
  lone := by
    rw [loneOf_append, List.forall_mem_append]
    exact ⟨hp.lone, hq.lone⟩
  cond hb := by
    rw [blocksOf_append, List.forall_mem_append]
    exact ⟨hp.cond hb, hq.cond hb⟩

theorem LeavesOpen.single {b : Block} {t : Token} (h : b.closedBy t.mark = false) :
    LeavesOpen b [.single t] where
  lone u hu hmark := by
    obtain rfl : u = t := by simpa [loneOf, Passage.lone] using hu
    rw [Block.closedBy_iff.2 hmark] at h
    cases h
  cond := by simp [blocksOf, blocks]

/-- A block that closes leaves open what its inside leaves open, unless both are conditions. -/
theorem LeavesOpen.block {b c : Block} {opening closing : Token} {inside : List Passage}
    (hopen : opening.mark = b.openMark) (hclose : closing.mark = b.closeMark)
    (hcond : c.isCond = true → b.isCond = false) (h : LeavesOpen c inside) :
    LeavesOpen c [.block b opening closing hopen hclose inside] where
  lone := by simpa [loneOf, Passage.lone] using h.lone
  cond hc := by
    simp only [blocksOf, blocks, List.append_nil, List.forall_mem_cons]
    exact ⟨hcond hc, h.cond hc⟩

/-- Nodes are read from the tokens of passages whose blocks stay open up to their closing tags. -/
theorem account_nested :
    Node.Account fun around nodes ts =>
      ∃ ps, tokensOf ps = ts ∧ nodesOf ps = nodes ∧ Nested around ps where
  nil around := ⟨[], rfl, rfl, fun b _ => .nil b, by simp [blocksOf]⟩
  append := by
    rintro around - - - - ⟨ps, rfl, rfl, hp⟩ ⟨qs, rfl, rfl, hq⟩
    refine ⟨ps ++ qs, by simp, by simp, fun b hb => (hp.around b hb).append (hq.around b hb), ?_⟩
    rw [blocksOf_append, List.forall_mem_append]
    exact ⟨hp.inside, hq.inside⟩
  single {around t} h :=
    ⟨[.single t], rfl, rfl, fun b hb => .single (h b hb), by simp [blocksOf, blocks]⟩
  outside := by
    rintro b around - - ⟨ps, rfl, rfl, hp⟩
    exact ⟨ps, rfl, rfl, fun c hc => hp.around c (List.mem_cons_of_mem b hc), hp.inside⟩
  block := by
    rintro b around opening closing - - hopen hclose hcond ⟨ps, rfl, rfl, hp⟩
    obtain ⟨hb, haround⟩ := List.forall_mem_cons.1 hp.around
    refine ⟨[.block b opening closing hopen hclose ps], by simp [tokensOf, tokens],
      by simp [nodesOf, node], fun c hc => .block hopen hclose (fun h => ?_) (haround c hc), ?_⟩
    · by_contra hne
      rw [hcond (by simpa using hne) c hc] at h
      cases h
    · simp only [blocksOf, blocks, List.append_nil, List.forall_mem_cons]
      exact ⟨hb, hp.inside⟩

/-- A block closes at the first closing tag behind its opening tag: none stands inside it. -/
def ClosesFirst (b : Block) (inside : List Passage) : Prop :=
  ∀ t ∈ tokensOf inside, t.mark ≠ b.closeMark

theorem closesFirst_iff_of_leavesOpen {b : Block} {inside : List Passage} (h : LeavesOpen b inside) :
    ClosesFirst b inside ↔ b.isCond = true ∨ ∀ x ∈ blocksOf inside, x.1 ≠ b := by
  have hblocks : ClosesFirst b inside ↔ ∀ x ∈ blocksOf inside, x.1.closeMark ≠ b.closeMark := by
    have htags := exists_closing_tokensOf b inside
    rw [or_iff_right (by simpa using h.lone), ← not_iff_not] at htags
    simpa [ClosesFirst] using htags
  rw [hblocks]
  cases hb : b.isCond with
  | true =>
    simp only [true_or, iff_true]
    intro x hx hmark
    have hx' := Block.isCond_of_closeMark hb hmark
    rw [h.cond hb x hx] at hx'
    cases hx'
  | false =>
    simp only [Bool.false_eq_true, false_or]
    exact forall₂_congr fun x _ =>
      not_congr ⟨Block.closeMark_inj_of_each hb, fun hx => by rw [hx]⟩

end Passage

namespace Template

open Passage

theorem exists_areOf (template : Text) : ∃ ps, AreOf ps template ∧ Nested [] ps := by
  obtain ⟨ps, htokens, hnodes, hnested⟩ := account_ofTokens account_nested (Token.tokenize template)
  exact ⟨ps, ⟨htokens, by rw [hnodes]; rfl⟩, hnested⟩

theorem areOf_unique {ps qs : List Passage} {template : Text} (hp : AreOf ps template)
    (hq : AreOf qs template) : ps = qs := by
  have hsolid := Token.solid_tokenize template
  have htokens : tokensOf ps ++ [] = tokensOf qs ++ [] := by rw [hp.tokens, hq.tokens]
  exact eq_of_tokensOf (hp.tokens ▸ hsolid) (hq.tokens ▸ hsolid) htokens
    (hp.nodes.trans hq.nodes.symm)

/-- **A template is read as passages in just one way. A closing tag inside a block that it fits is
the closing tag of a block there. A block closes at the first closing tag behind its opening tag just
if it has a condition or no block of its name stands inside it.** -/
theorem closesFirst_iff (template : Text) :
    (∃! ps, AreOf ps template) ∧
      ∀ ps, AreOf ps template → ∀ x ∈ blocksOf ps,
        (∀ t ∈ loneOf x.2, t.mark ≠ x.1.closeMark) ∧
          (ClosesFirst x.1 x.2 ↔ x.1.isCond = true ∨ ∀ y ∈ blocksOf x.2, y.1 ≠ x.1) := by
  obtain ⟨ps, hps, hnested⟩ := exists_areOf template
  refine ⟨⟨ps, hps, fun qs hqs => areOf_unique hqs hps⟩, fun qs hqs x hx => ?_⟩
  obtain rfl := areOf_unique hps hqs
  have hopen := hnested.inside x hx
  exact ⟨hopen.lone, closesFirst_iff_of_leavesOpen hopen⟩

/-- Of two repeated blocks of one name, the outer one closes at the second closing tag. -/
theorem not_closesFirst_of_nested :
    let opening := Token.tag "#a".toList
    let closing := Token.tag "/a".toList
    ∃ ps, AreOf ps ([opening, opening, closing, closing].flatMap Token.source) ∧
      ∃ x ∈ blocksOf ps, ¬ ClosesFirst x.1 x.2 := by
  intro opening closing
  have hopen : opening.mark = (Block.each "a".toList).openMark := by decide +kernel
  have hclose : closing.mark = (Block.each "a".toList).closeMark := by decide +kernel
  have htokens : Token.tokenize ([opening, opening, closing, closing].flatMap Token.source) =
      [opening, opening, closing, closing] := by decide +kernel
  let inner : Passage := .block (.each "a".toList) opening closing hopen hclose []
  refine ⟨[.block (.each "a".toList) opening closing hopen hclose [inner]],
    ⟨htokens.symm, by rw [parse, htokens]; rfl⟩, (.each "a".toList, [inner]),
    List.mem_cons_self, fun h => h closing (by simp [inner, tokensOf, tokens]) hclose⟩

end Template

end MaskedViews
