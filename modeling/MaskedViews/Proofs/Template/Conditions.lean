import MaskedViews.Proofs.Markup.Settling
import MaskedViews.Template.Condition

/-!
# Conditions in settled text

Blanks around the operator and at the ends of a condition mean nothing, so settling an expression
changes none of them in a way that matters, and a path has no blanks. The literal is another
matter: it keeps its blanks, and settling changes them. Hence the condition of a settled expression
is the condition of the expression with its literal settled (`parse_settle`). What is no condition
may become one only where a gap between `>` and `<` closes; without a `<` the path that is looked at
stays the same (`path?_parse_settle`).
-/

namespace MaskedViews.Condition

open Markup (settle)

/-- The condition that is left of one when its expression is settled. -/
def settled : Condition → Condition
  | equals path literal => equals path (settle literal)
  | notEquals path literal => notEquals path (settle literal)
  | truthy path => truthy path
  | invalid expr => parse (settle expr)

theorem not_isBlank_of_isPathChar {c : Char} (h : isPathChar c = true) : Text.isBlank c = false := by
  simp only [isPathChar, Bool.and_eq_true, Bool.not_eq_true'] at h
  exact h.1.1.1.1.1

/-! ### The written form of a condition -/

theorem readLiteral?_eq_some_iff {s l : Text} :
    readLiteral? s = some l ↔ s = '\'' :: (l ++ ['\'']) ∧ '\'' ∉ l := by
  constructor
  · intro h
    unfold readLiteral? at h
    split at h
    · next s =>
      split at h
      · next hd =>
        rw [Option.some.injEq] at h
        subst h
        refine ⟨?_, fun hmem => ?_⟩
        · rw [← hd, List.takeWhile_append_dropWhile]
        · simpa using List.mem_takeWhile_imp hmem
      · cases h
    · cases h
  · rintro ⟨rfl, hl⟩
    have hpos : ∀ c ∈ l, (decide (c ≠ '\'')) = true := by
      intro c hc
      rw [decide_eq_true_eq]
      rintro rfl
      exact hl hc
    simp only [readLiteral?, List.takeWhile_append_of_pos hpos, List.dropWhile_append_of_pos hpos]
    simp

/-- What may follow a path: an operator and a literal, with blanks before each. -/
theorem readComparison?_eq_some_iff {path s : Text} {c : Condition} :
    readComparison? path s = some c ↔
      ∃ b d l, Text.Blanks b ∧ Text.Blanks d ∧ '\'' ∉ l ∧
        (s = b ++ '=' :: '=' :: (d ++ '\'' :: (l ++ ['\''])) ∧ c = equals path l ∨
          s = b ++ '!' :: '=' :: (d ++ '\'' :: (l ++ ['\''])) ∧ c = notEquals path l) := by
  constructor
  · intro h
    obtain ⟨b, hb, hs⟩ := Text.exists_eq_append_trimStart s
    unfold readComparison? at h
    split at h
    · next r hr =>
      obtain ⟨l, hl, rfl⟩ := Option.map_eq_some_iff.1 h
      obtain ⟨d, hd, hr'⟩ := Text.exists_eq_append_trimStart r
      obtain ⟨heq, hq⟩ := readLiteral?_eq_some_iff.1 hl
      exact ⟨b, d, l, hb, hd, hq, Or.inl ⟨by rw [hs, hr, hr', heq], rfl⟩⟩
    · next r hr =>
      obtain ⟨l, hl, rfl⟩ := Option.map_eq_some_iff.1 h
      obtain ⟨d, hd, hr'⟩ := Text.exists_eq_append_trimStart r
      obtain ⟨heq, hq⟩ := readLiteral?_eq_some_iff.1 hl
      exact ⟨b, d, l, hb, hd, hq, Or.inr ⟨by rw [hs, hr, hr', heq], rfl⟩⟩
    · cases h
  · rintro ⟨b, d, l, hb, hd, hl, ⟨rfl, rfl⟩ | ⟨rfl, rfl⟩⟩
    · rw [readComparison?, Text.trimStart_blanks_append hb, Text.trimStart_of_head (by decide)]
      simp only
      rw [Text.trimStart_blanks_append hd, Text.trimStart_of_head (by decide),
        readLiteral?_eq_some_iff.2 ⟨rfl, hl⟩]
      rfl
    · rw [readComparison?, Text.trimStart_blanks_append hb, Text.trimStart_of_head (by decide)]
      simp only
      rw [Text.trimStart_blanks_append hd, Text.trimStart_of_head (by decide),
        readLiteral?_eq_some_iff.2 ⟨rfl, hl⟩]
      rfl

/-! ### Settling an expression -/

theorem not_mem_settle {c : Char} (hc : c ≠ ' ') {s : Text} (h : c ∉ s) : c ∉ settle s :=
  fun hmem => (Markup.mem_settle hmem).elim hc h

theorem blanks_settle {b : Text} (hb : Text.Blanks b) : Text.Blanks (settle b) := by
  rcases Markup.settle_blanks hb with h | h
  · rw [h]
    exact Text.Blanks.nil
  · rw [h]
    simp [Text.Blanks]
    decide

theorem readComparison?_settle {path s : Text} {c : Condition}
    (h : readComparison? path s = some c) : readComparison? path (settle s) = some c.settled := by
  obtain ⟨b, d, l, hb, hd, hl, hc⟩ := readComparison?_eq_some_iff.1 h
  have hafter : settle (d ++ '\'' :: (l ++ ['\''])) = settle d ++ '\'' :: (settle l ++ ['\'']) := by
    rw [Markup.settle_append_cons (by decide), Markup.settle_append_cons (by decide)]
    rfl
  refine readComparison?_eq_some_iff.2 ⟨settle b, settle d, settle l, blanks_settle hb,
    blanks_settle hd, not_mem_settle (by decide) hl, ?_⟩
  rcases hc with ⟨rfl, rfl⟩ | ⟨rfl, rfl⟩
  · refine Or.inl ⟨?_, rfl⟩
    rw [Markup.settle_append_cons (by decide), Markup.settle_cons_of_isFirm (by decide), hafter]
  · refine Or.inr ⟨?_, rfl⟩
    rw [Markup.settle_append_cons (by decide), Markup.settle_cons_of_isFirm (by decide), hafter]

/-- A comparison begins with an operator, blanks aside. -/
theorem exists_operator_of_readComparison? {path s : Text} {c : Condition}
    (h : readComparison? path s = some c) :
    ∃ b e r, Text.Blanks b ∧ (e = '=' ∨ e = '!') ∧ s = b ++ e :: r := by
  obtain ⟨b, d, l, hb, -, -, ⟨hs, -⟩ | ⟨hs, -⟩⟩ := readComparison?_eq_some_iff.1 h
  · exact ⟨b, '=', _, hb, Or.inl rfl, hs⟩
  · exact ⟨b, '!', _, hb, Or.inr rfl, hs⟩

/-- A comparison does not go on with the path. -/
theorem takeWhile_of_readComparison? {path s : Text} {c : Condition}
    (h : readComparison? path s = some c) : s.takeWhile isPathChar = [] := by
  obtain ⟨b, e, r, hb, he, rfl⟩ := exists_operator_of_readComparison? h
  cases b with
  | nil => rcases he with rfl | rfl <;> rfl
  | cons f b =>
    have hf : isPathChar f = false := by simp [isPathChar, hb f (by simp)]
    simp [hf]

theorem ne_gap_of_readComparison? {path s : Text} {c : Condition}
    (h : readComparison? path s = some c) (r : Text) : s ≠ ' ' :: '<' :: r := by
  obtain ⟨b, e, r', hb, he, rfl⟩ := exists_operator_of_readComparison? h
  intro hs
  match b with
  | [] =>
    rw [List.nil_append, List.cons.injEq] at hs
    rcases he with rfl | rfl <;> exact absurd hs.1 (by decide)
  | [f] =>
    rw [List.singleton_append, List.cons.injEq, List.cons.injEq] at hs
    rcases he with rfl | rfl <;> exact absurd hs.2.1 (by decide)
  | f :: g :: b =>
    have hg := hb g (by simp)
    simp only [List.cons_append, List.cons.injEq] at hs
    rw [hs.2.1] at hg
    revert hg
    decide

/-- An expression is a path and what follows it. -/
theorem readTrimmed_append {p r : Text} (hp : p ≠ []) (hpath : ∀ c ∈ p, isPathChar c = true)
    (hr : r.takeWhile isPathChar = []) : readTrimmed (p ++ r) =
      if r = [] then truthy p else (readComparison? p r).getD (invalid (p ++ r)) := by
  have hdrop : r.dropWhile isPathChar = r := by
    conv => rhs; rw [← List.takeWhile_append_dropWhile (p := isPathChar) (l := r)]
    rw [hr, List.nil_append]
  rw [readTrimmed, List.takeWhile_append_of_pos hpath, List.dropWhile_append_of_pos hpath, hr,
    hdrop, List.append_nil, if_neg hp]

theorem readTrimmed_settle {e : Text} (he : Text.trim e = e) :
    readTrimmed (settle e) = (readTrimmed e).settled := by
  have hinvalid : readTrimmed (settle e) = (invalid e).settled := by
    have : Text.trim (settle e) = settle e := by
      rw [← Markup.normalizeWhitespace_eq, ← Markup.settle_trim, he]
    rw [settled, parse, this]
  have hsplit := List.takeWhile_append_dropWhile (p := isPathChar) (l := e)
  have hpath : ∀ c ∈ e.takeWhile isPathChar, isPathChar c = true :=
    fun c hc => List.mem_takeWhile_imp hc
  have hfirm : ∀ c ∈ e.takeWhile isPathChar, Text.isBlank c = false :=
    fun c hc => not_isBlank_of_isPathChar (hpath c hc)
  rw [readTrimmed.eq_def e]
  dsimp only
  generalize e.takeWhile isPathChar = p at *
  generalize e.dropWhile isPathChar = r at *
  split
  · exact hinvalid
  next hp =>
  split
  · next hr =>
    subst hr hsplit
    have hsettle : settle p = p := by
      simpa using Markup.settle_append_of_not_isBlank (t := []) hfirm (by simp)
    have := readTrimmed_append (r := []) hp hpath rfl
    rw [List.append_nil] at this
    rw [List.append_nil, hsettle, this]
    rfl
  · cases hc : readComparison? p r with
    | none => exact hinvalid
    | some c =>
      have hc' := readComparison?_settle hc
      rw [← hsplit, Markup.settle_append_of_not_isBlank hfirm (ne_gap_of_readComparison? hc'),
        readTrimmed_append hp hpath (takeWhile_of_readComparison? hc'), hc', if_neg]
      · rfl
      · rintro h
        obtain ⟨b, f, r', -, -, hs⟩ := exists_operator_of_readComparison? hc'
        rw [h] at hs
        simp at hs

/-- **The condition of a settled expression is the settled condition.** -/
theorem parse_settle (e : Text) : parse (settle e) = (parse e).settled := by
  rw [parse, ← Markup.normalizeWhitespace_eq, ← Markup.settle_trim,
    readTrimmed_settle (Text.trim_trim e), parse]

/-! ### The path of a settled expression -/

/-- The path that a condition looks at. -/
def path? : Condition → Option Text
  | equals path _ => some path
  | notEquals path _ => some path
  | truthy path => some path
  | invalid _ => none

theorem blanks_of_settle {s : Text} (h : Text.Blanks (settle s)) : Text.Blanks s := by
  intro c hc
  rw [← Bool.not_eq_false]
  intro hblank
  rw [h c (Markup.mem_settle_of_mem hblank hc)] at hblank
  cases hblank

/-- A comparison in settled text was one before. -/
theorem exists_readComparison?_of_settle {path s : Text} {c : Condition}
    (h : readComparison? path (settle s) = some c) : ∃ d, readComparison? path s = some d := by
  obtain ⟨b, d, l, hb, hd, hl, hc⟩ := readComparison?_eq_some_iff.1 h
  -- the same three characters in a row, whichever the operator is
  have hoperator (e : Char) (he : Markup.isFirm e = true)
      (heq : settle s = b ++ e :: '=' :: (d ++ '\'' :: (l ++ ['\'']))) :
      ∃ b' d' l', Text.Blanks b' ∧ Text.Blanks d' ∧ '\'' ∉ l' ∧
        s = b' ++ e :: '=' :: (d' ++ '\'' :: (l' ++ ['\''])) := by
    obtain ⟨b', s₁, rfl, hb', h₁⟩ := Markup.exists_eq_of_settle he heq
    obtain ⟨n, s₂, rfl, hn, h₂⟩ := Markup.exists_eq_of_settle (x := []) (by decide) h₁
    obtain rfl := Markup.settle_eq_nil_iff.1 hn
    obtain ⟨d', s₃, rfl, hd', h₃⟩ := Markup.exists_eq_of_settle (by decide) h₂
    obtain ⟨l', s₄, rfl, hl', h₄⟩ := Markup.exists_eq_of_settle (by decide) h₃
    obtain rfl := Markup.settle_eq_nil_iff.1 h₄
    refine ⟨b', d', l', blanks_of_settle (hb' ▸ hb), blanks_of_settle (hd' ▸ hd), fun hmem => ?_, rfl⟩
    exact hl (hl' ▸ Markup.mem_settle_of_mem (by decide) hmem)
  rcases hc with ⟨heq, -⟩ | ⟨heq, -⟩
  · obtain ⟨b', d', l', hb', hd', hl', rfl⟩ := hoperator '=' (by decide) heq
    exact ⟨_, readComparison?_eq_some_iff.2 ⟨b', d', l', hb', hd', hl', Or.inl ⟨rfl, rfl⟩⟩⟩
  · obtain ⟨b', d', l', hb', hd', hl', rfl⟩ := hoperator '!' (by decide) heq
    exact ⟨_, readComparison?_eq_some_iff.2 ⟨b', d', l', hb', hd', hl', Or.inr ⟨rfl, rfl⟩⟩⟩

theorem takeWhile_settle {r : Text} (hr : r.takeWhile isPathChar = []) :
    (settle r).takeWhile isPathChar = [] := by
  cases r with
  | nil => rfl
  | cons c r =>
    have hc : isPathChar c = false := by
      rw [← Bool.not_eq_true]
      intro hc
      rw [List.takeWhile_cons, if_pos hc] at hr
      cases hr
    have hhead := Markup.head?_settle_cons c r
    cases hs : settle (c :: r) with
    | nil => rfl
    | cons d s =>
      rw [hs, List.head?_cons, Option.some.injEq] at hhead
      have hd : isPathChar d = false := by
        rw [hhead]
        split
        · decide
        · exact hc
      rw [List.takeWhile_cons, if_neg (by rw [hd]; exact Bool.false_ne_true)]

theorem path?_readTrimmed_settle {e : Text} (hlt : '<' ∉ e) :
    (readTrimmed (settle e)).path? = (readTrimmed e).path? := by
  have hsplit := List.takeWhile_append_dropWhile (p := isPathChar) (l := e)
  have hpath : ∀ c ∈ e.takeWhile isPathChar, isPathChar c = true :=
    fun c hc => List.mem_takeWhile_imp hc
  have hrest : (e.dropWhile isPathChar).takeWhile isPathChar = [] := by
    have hhead := List.head?_dropWhile_not isPathChar e
    cases hr : e.dropWhile isPathChar with
    | nil => rfl
    | cons c r =>
      rw [hr] at hhead
      rw [List.takeWhile_cons, if_neg (by simpa using hhead)]
  generalize e.takeWhile isPathChar = p at *
  generalize e.dropWhile isPathChar = r at *
  subst hsplit
  simp only [List.mem_append, not_or] at hlt
  by_cases hp : p = []
  · subst hp
    have hnone {x : Text} (hx : x.takeWhile isPathChar = []) : (readTrimmed x).path? = none := by
      rw [readTrimmed, hx, if_pos rfl]
      rfl
    rw [List.nil_append, hnone (takeWhile_settle hrest), hnone hrest]
  · have hsettle : settle (p ++ r) = p ++ settle r := by
      refine Markup.settle_append_of_not_isBlank (fun c hc => not_isBlank_of_isPathChar (hpath c hc))
        fun r' hr' => ?_
      exact not_mem_settle (by decide) hlt.2 (hr' ▸ by simp)
    rw [hsettle, readTrimmed_append hp hpath (takeWhile_settle hrest),
      readTrimmed_append hp hpath hrest]
    by_cases hr : r = []
    · rw [hr, Markup.settle_nil]
    · rw [if_neg hr, if_neg fun h => hr (Markup.settle_eq_nil_iff.1 h)]
      cases hc : readComparison? p r with
      | some c =>
        rw [readComparison?_settle hc]
        obtain ⟨-, -, -, -, -, -, ⟨-, rfl⟩ | ⟨-, rfl⟩⟩ := readComparison?_eq_some_iff.1 hc
        · rfl
        · rfl
      | none =>
        cases hc' : readComparison? p (settle r) with
        | none => rfl
        | some c =>
          obtain ⟨d, hd⟩ := exists_readComparison?_of_settle hc'
          rw [hc] at hd
          cases hd

/-- **The path of a condition outlives settling**, where there is no gap to close. -/
theorem path?_parse_settle {e : Text} (hlt : '<' ∉ e) :
    (parse (settle e)).path? = (parse e).path? := by
  rw [parse, ← Markup.normalizeWhitespace_eq, ← Markup.settle_trim, parse]
  exact path?_readTrimmed_settle fun h => hlt (Text.mem_of_mem_trim h)

end MaskedViews.Condition
