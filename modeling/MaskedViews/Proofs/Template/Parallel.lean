import MaskedViews.Proofs.Text.Cutting
import MaskedViews.Template.Token
import Mathlib.Data.List.Forall2

/-!
# Parallel texts

How a text is cut into tokens is decided by its braces and by nothing else. Two texts are *parallel*
when they have the same braces in the same order and the stretches between the braces correspond;
their tokens then correspond one by one (`tokenize_parallel`). What the correspondence of stretches
is does not matter, but for one point: the empty stretch corresponds to itself alone.
-/

namespace MaskedViews

namespace Token

/-- Whether a character is a brace. -/
def isBrace (c : Char) : Bool := c = '{' || c = '}'

/-- A text without braces. -/
def Braceless (s : Text) : Prop := ∀ c ∈ s, isBrace c = false

instance (s : Text) : Decidable (Braceless s) :=
  inferInstanceAs (Decidable (∀ c ∈ s, isBrace c = false))

@[simp] theorem Braceless.nil : Braceless [] := fun _ h => absurd h List.not_mem_nil

theorem braceless_cons {c : Char} {s : Text} :
    Braceless (c :: s) ↔ isBrace c = false ∧ Braceless s := by
  simp [Braceless]

theorem braceless_append {s t : Text} : Braceless (s ++ t) ↔ Braceless s ∧ Braceless t := by
  simp only [Braceless, List.mem_append]
  exact ⟨fun h => ⟨fun c hc => h c (Or.inl hc), fun c hc => h c (Or.inr hc)⟩,
    fun h c hc => hc.elim (h.1 c) (h.2 c)⟩

/-- A text is without braces, or it has a first one. -/
theorem braceless_or (s : Text) :
    Braceless s ∨ ∃ b c r, s = b ++ c :: r ∧ Braceless b ∧ isBrace c = true := by
  induction s with
  | nil => exact Or.inl Braceless.nil
  | cons d s ih =>
    by_cases hd : isBrace d = true
    · exact Or.inr ⟨[], d, s, rfl, Braceless.nil, hd⟩
    rw [Bool.not_eq_true] at hd
    rcases ih with h | ⟨b, c, r, rfl, hb, hc⟩
    · exact Or.inl (braceless_cons.2 ⟨hd, h⟩)
    · exact Or.inr ⟨d :: b, c, r, rfl, braceless_cons.2 ⟨hd, hb⟩, hc⟩

/-! ### Marks of braces -/

/-- A text that begins with a mark of braces does not begin with another character. -/
theorem rest?_of_not_isBrace {p c : Char} {mark s : Text} (hp : isBrace p = true)
    (hc : isBrace c = false) : Text.rest? (p :: mark) (c :: s) = none := by
  have hne : p ≠ c := by
    rintro rfl
    rw [hp] at hc
    cases hc
  rw [Text.rest?, if_neg hne]

/-- A mark of braces is looked for behind what has none. -/
theorem cut?_braceless_append {p : Char} {mark b : Text} (hp : isBrace p = true)
    (hb : Braceless b) (s : Text) :
    Text.cut? (p :: mark) (b ++ s) =
      (Text.cut? (p :: mark) s).map fun (before, after) => (b ++ before, after) := by
  induction b with
  | nil => simp
  | cons c b ih =>
    obtain ⟨hc, hb⟩ := braceless_cons.1 hb
    rw [List.cons_append, Text.cut?, rest?_of_not_isBrace hp hc]
    dsimp only
    rw [ih hb, Option.map_map]
    rfl

theorem cut?_of_braceless {p : Char} {mark b : Text} (hp : isBrace p = true) (hb : Braceless b) :
    Text.cut? (p :: mark) b = none := by
  simpa [Text.cut?] using cut?_braceless_append hp hb []

theorem mem_ofText {s : Text} {t : Token} : t ∈ ofText s ↔ s ≠ [] ∧ t = text s := by
  by_cases hs : s = [] <;> simp [ofText, hs]

theorem tokenize_of_none {s : Text} (h : firstTag? s = none) : tokenize s = ofText s := by
  rw [tokenize]
  split
  · rfl
  · next h' =>
    rw [h] at h'
    cases h'

theorem tokenize_of_some {s before r : Text} {t : Token} (h : firstTag? s = some (before, t, r)) :
    tokenize s = ofText before ++ t :: tokenize r := by
  rw [tokenize]
  split
  · next h' =>
    rw [h] at h'
    cases h'
  · next h' =>
    rw [h] at h'
    cases h'
    rfl

@[simp] theorem tokenize_nil : tokenize [] = [] := tokenize_of_none rfl

theorem rawTag?_of_head {s : Text} (h : s.head? ≠ some '{') : rawTag? s = none := by
  unfold rawTag?
  split
  · exact absurd rfl h
  · rfl

theorem firstTag?_of_rawTag? {s before after content r : Text}
    (h : Text.cut? openTag s = some (before, after)) (hraw : rawTag? after = some (content, r)) :
    firstTag? s = some (before, rawTag content, r) := by
  simp [firstTag?, h, hraw]

theorem firstTag?_of_cut? {s before after content r : Text}
    (h : Text.cut? openTag s = some (before, after)) (hraw : rawTag? after = none)
    (hclose : Text.cut? closeTag after = some (content, r)) :
    firstTag? s = some (before, tag content, r) := by
  simp [firstTag?, h, hraw, hclose]

/-! ### Parallel texts -/

/-- Texts with the same braces, between which the stretches correspond. -/
inductive Parallel (R : Text → Text → Prop) : Text → Text → Prop where
  /-- A stretch without braces. -/
  | stretch {s t : Text} (hs : Braceless s) (ht : Braceless t) (h : R s t) : Parallel R s t
  /-- A stretch, a brace and what follows it. -/
  | brace {s t s' t' : Text} {c : Char} (hs : Braceless s) (ht : Braceless t) (h : R s t)
      (hc : isBrace c = true) (h' : Parallel R s' t') : Parallel R (s ++ c :: s') (t ++ c :: t')

/-- Tokens of the same kind with parallel texts. -/
inductive Matches (R : Text → Text → Prop) : Token → Token → Prop where
  /-- Text outside tags. -/
  | text {s t : Text} (h : Parallel R s t) : Matches R (.text s) (.text t)
  /-- Tags between double braces. -/
  | tag {s t : Text} (h : Parallel R s t) : Matches R (.tag s) (.tag t)
  /-- Tags between triple braces. -/
  | rawTag {s t : Text} (h : Parallel R s t) : Matches R (.rawTag s) (.rawTag t)

/-- A correspondence of stretches in which the empty one corresponds to itself alone. -/
structure Matching (R : Text → Text → Prop) : Prop where
  /-- The empty stretches correspond. -/
  nil : R [] []
  /-- None other is empty on one side. -/
  empty_iff {s t : Text} (h : R s t) : s = [] ↔ t = []

namespace Parallel

variable {R : Text → Text → Prop} {s t : Text}

theorem eq_nil_iff (hR : Matching R) (h : Parallel R s t) : s = [] ↔ t = [] := by
  cases h with
  | stretch _ _ h => exact hR.empty_iff h
  | brace => simp

theorem refl (hrefl : ∀ s, R s s) (s : Text) : Parallel R s s := by
  rcases braceless_or s with h | ⟨b, c, r, hs, hb, hc⟩
  · exact stretch h h (hrefl s)
  · rw [hs]
    exact brace hb hb (hrefl b) hc (refl hrefl r)
termination_by s.length
decreasing_by
  rw [hs, List.length_append, List.length_cons]
  omega

theorem symm (hR : ∀ {s t}, R s t → R t s) (h : Parallel R s t) : Parallel R t s := by
  induction h with
  | stretch hs ht h => exact stretch ht hs (hR h)
  | brace hs ht h hc _ ih => exact brace ht hs (hR h) hc ih

/-- Text without braces in front of parallel texts. -/
theorem braceless_append (happ : ∀ {s t s' t'}, R s t → R s' t' → R (s ++ s') (t ++ t'))
    {b b' : Text} (hb : Braceless b) (hb' : Braceless b') (hR : R b b') (h : Parallel R s t) :
    Parallel R (b ++ s) (b' ++ t) := by
  cases h with
  | stretch hs ht h =>
    exact stretch (Token.braceless_append.2 ⟨hb, hs⟩) (Token.braceless_append.2 ⟨hb', ht⟩)
      (happ hR h)
  | brace hs ht h hc h' =>
    rw [← List.append_assoc, ← List.append_assoc]
    exact brace (Token.braceless_append.2 ⟨hb, hs⟩) (Token.braceless_append.2 ⟨hb', ht⟩)
      (happ hR h) hc h'

/-- Parallel texts one after the other are parallel. -/
theorem append (happ : ∀ {s t s' t'}, R s t → R s' t' → R (s ++ s') (t ++ t')) {s' t' : Text}
    (h : Parallel R s t) (h' : Parallel R s' t') : Parallel R (s ++ s') (t ++ t') := by
  induction h with
  | stretch hs ht h => exact braceless_append happ hs ht h h'
  | brace hs ht h hc _ ih =>
    rw [List.append_assoc, List.append_assoc]
    exact brace hs ht h hc ih

/-- A brace at the front stands in front of parallel texts. -/
theorem cons (hR : Matching R) {c : Char} (hc : isBrace c = true) (h : Parallel R s t) :
    Parallel R (c :: s) (c :: t) :=
  brace Braceless.nil Braceless.nil hR.nil hc h

/-- A text that has no braces is parallel only to another that has none. -/
theorem of_braceless (h : Parallel R s t) (hs : Braceless s) : Braceless t ∧ R s t := by
  cases h with
  | stretch _ ht h => exact ⟨ht, h⟩
  | @brace x y x' y' c _ _ _ hc _ =>
    have := hs c (by simp)
    rw [hc] at this
    cases this

/-- A mark of braces stands at the front of both texts or of neither. -/
theorem rest? (hR : Matching R) (mark : Text) (hm : ∀ c ∈ mark, isBrace c = true)
    (h : Parallel R s t) : Option.Rel (Parallel R) (Text.rest? mark s) (Text.rest? mark t) := by
  induction mark generalizing s t with
  | nil => exact .some h
  | cons p mark ih =>
    have hp := hm p (by simp)
    cases h with
    | @stretch s t hs ht h =>
      have hst := hR.empty_iff h
      cases s with
      | nil =>
        rw [hst.1 rfl]
        exact .none
      | cons c s =>
        cases t with
        | nil => simp at hst
        | cons d t =>
          rw [rest?_of_not_isBrace hp (braceless_cons.1 hs).1,
            rest?_of_not_isBrace hp (braceless_cons.1 ht).1]
          exact .none
    | @brace s t s' t' c hs ht h hc h' =>
      have hst := hR.empty_iff h
      cases s with
      | nil =>
        rw [hst.1 rfl, List.nil_append, List.nil_append, Text.rest?, Text.rest?]
        split
        · exact ih (fun c hc => hm c (List.mem_cons_of_mem p hc)) h'
        · exact .none
      | cons d s =>
        cases t with
        | nil => simp at hst
        | cons e t =>
          rw [List.cons_append, List.cons_append, rest?_of_not_isBrace hp (braceless_cons.1 hs).1,
            rest?_of_not_isBrace hp (braceless_cons.1 ht).1]
          exact .none

/-- The first occurrence of a mark of braces divides parallel texts into parallel parts. -/
theorem cut? (hR : Matching R) (p : Char) (mark : Text)
    (hm : ∀ c ∈ p :: mark, isBrace c = true) (h : Parallel R s t) :
    Option.Rel (fun x y => Parallel R x.1 y.1 ∧ Parallel R x.2 y.2)
      (Text.cut? (p :: mark) s) (Text.cut? (p :: mark) t) := by
  have hp := hm p (by simp)
  induction h with
  | stretch hs ht h =>
    rw [cut?_of_braceless hp hs, cut?_of_braceless hp ht]
    exact .none
  | @brace s t s' t' c hs ht h hc h' ih =>
    rw [cut?_braceless_append hp hs, cut?_braceless_append hp ht, Text.cut?, Text.cut?]
    have hrest := rest? hR (p :: mark) hm (cons hR hc h')
    generalize Text.rest? (p :: mark) (c :: s') = x at hrest
    generalize Text.rest? (p :: mark) (c :: t') = y at hrest
    cases hrest with
    | some hr => exact .some ⟨by simpa using stretch hs ht h, hr⟩
    | none =>
      generalize Text.cut? (p :: mark) s' = x at ih
      generalize Text.cut? (p :: mark) t' = y at ih
      cases ih with
      | some hx => exact .some ⟨brace hs ht h hc hx.1, hx.2⟩
      | none => exact .none

theorem rawTag? (hR : Matching R) (h : Parallel R s t) :
    Option.Rel (fun x y => Parallel R x.1 y.1 ∧ Parallel R x.2 y.2)
      (Token.rawTag? s) (Token.rawTag? t) := by
  have heq (s : Text) : Token.rawTag? s = (Text.rest? ['{'] s).bind (Text.cut? closeRaw) := by
    unfold Token.rawTag?
    split
    · rfl
    · next hne =>
      cases s with
      | nil => rfl
      | cons c s =>
        have : '{' ≠ c := by
          rintro rfl
          exact hne s rfl
        rw [Text.rest?, if_neg this]
        rfl
  rw [heq, heq]
  have hrest := rest? hR ['{'] (by decide) h
  generalize Text.rest? ['{'] s = x at hrest
  generalize Text.rest? ['{'] t = y at hrest
  cases hrest with
  | some hr => exact cut? hR '}' ['}', '}'] (by decide) hr
  | none => exact .none

/-- The first tags of parallel texts stand at the same place. -/
theorem firstTag? (hR : Matching R) (h : Parallel R s t) :
    Option.Rel (fun x y => Parallel R x.1 y.1 ∧ Matches R x.2.1 y.2.1 ∧ Parallel R x.2.2 y.2.2)
      (Token.firstTag? s) (Token.firstTag? t) := by
  rw [Token.firstTag?, Token.firstTag?]
  have hcut := cut? hR '{' ['{'] (by decide) h
  rw [← openTag] at hcut
  generalize Text.cut? openTag s = x at hcut
  generalize Text.cut? openTag t = y at hcut
  cases hcut with
  | none => exact .none
  | @some x y hxy =>
    obtain ⟨before, after⟩ := x
    obtain ⟨before', after'⟩ := y
    obtain ⟨hb, ha⟩ := hxy
    dsimp only [Option.bind_some]
    have hraw := rawTag? hR ha
    generalize Token.rawTag? after = x at hraw
    generalize Token.rawTag? after' = y at hraw
    cases hraw with
    | some hr => exact .some ⟨hb, .rawTag hr.1, hr.2⟩
    | none =>
      have hclose := cut? hR '}' ['}'] (by decide) ha
      rw [← closeTag] at hclose
      dsimp only
      generalize Text.cut? closeTag after = x at hclose
      generalize Text.cut? closeTag after' = y at hclose
      cases hclose with
      | some hr => exact .some ⟨hb, .tag hr.1, hr.2⟩
      | none => exact .none

end Parallel

theorem ofText_parallel {R : Text → Text → Prop} {s t : Text} (hR : Matching R)
    (h : Parallel R s t) : List.Forall₂ (Matches R) (ofText s) (ofText t) := by
  have hst := h.eq_nil_iff hR
  by_cases hs : s = []
  · simp [ofText, hs, hst.1 hs]
  · have ht : t ≠ [] := fun e => hs (hst.2 e)
    simpa [ofText, hs, ht] using Matches.text h

/-- **Parallel texts have parallel tokens.** -/
theorem tokenize_parallel {R : Text → Text → Prop} {s t : Text} (hR : Matching R)
    (h : Parallel R s t) : List.Forall₂ (Matches R) (tokenize s) (tokenize t) := by
  fun_induction tokenize s generalizing t with
  | case1 s hs =>
    have hfirst := h.firstTag? hR
    rw [hs] at hfirst
    cases ht : firstTag? t with
    | none =>
      rw [tokenize_of_none ht]
      exact ofText_parallel hR h
    | some y =>
      rw [ht] at hfirst
      cases hfirst
  | case2 s before x r hs ih =>
    have hfirst := h.firstTag? hR
    rw [hs] at hfirst
    cases ht : firstTag? t with
    | none =>
      rw [ht] at hfirst
      cases hfirst
    | some y =>
      rw [ht] at hfirst
      cases hfirst with
      | some hxy =>
        rw [tokenize_of_some ht]
        exact List.rel_append (ofText_parallel hR hxy.1) (.cons hxy.2.1 (ih hxy.2.2))

end Token

end MaskedViews
