import MaskedViews.Proofs.Template.Conditions
import MaskedViews.Proofs.Text.Cutting

/-!
# The written form of a condition

A condition is written as a path, or as a comparison: a path, an operator and a literal in single
quotes, with blanks around the operator. What an expression is read as is just what it is the written
form of, blanks at its ends aside, and whatever is no written form is no condition
(`Condition.parse_eq_iff_written`). A comparison has one written form only up to the blanks
(`Condition.eq_of_source`), and around its operator there may be any (`Condition.parse_operator_iff`).
-/

namespace MaskedViews

/-- The parts that a comparison is written with. -/
structure Comparison where
  /-- The path. -/
  path : Text
  /-- The blanks in front of the operator. -/
  before : Text
  /-- Whether the text at the path is not to be the literal. -/
  negated : Bool
  /-- The blanks behind the operator. -/
  after : Text
  /-- What stands between the quotes. -/
  literal : Text

namespace Condition

/-! ### Written forms -/

/-- The characters other than blanks that do not stand in a path. -/
def pathEnds : Text := ['=', '!', '\'', '{', '}']

/-- Whether a text is a path of a condition. -/
def IsPath (s : Text) : Prop := s ≠ [] ∧ ∀ c ∈ s, Text.isBlank c = false ∧ c ∉ pathEnds

instance : DecidablePred IsPath := fun s =>
  inferInstanceAs (Decidable (s ≠ [] ∧ ∀ c ∈ s, Text.isBlank c = false ∧ c ∉ pathEnds))

theorem isPathChar_iff {c : Char} : isPathChar c = true ↔ Text.isBlank c = false ∧ c ∉ pathEnds := by
  simp [isPathChar, pathEnds, and_assoc]

/-- The operator that stands between a path and a literal. -/
def operator (negated : Bool) : Text := [if negated then '!' else '=', '=']

/-- The comparison that an operator makes. -/
def comparing (negated : Bool) (path literal : Text) : Condition :=
  if negated then notEquals path literal else equals path literal

/-- A literal in its quotes. -/
def quoted (literal : Text) : Text := '\'' :: (literal ++ ['\''])

end Condition

namespace Comparison

open Condition

/-- The text that a comparison is written as. -/
def source (w : Comparison) : Text :=
  w.path ++ (w.before ++ (operator w.negated ++ (w.after ++ quoted w.literal)))

/-- The condition that is written. -/
def condition (w : Comparison) : Condition := comparing w.negated w.path w.literal

/-- Whether the parts are what they are to be. -/
structure IsProper (w : Comparison) : Prop where
  /-- The path is one. -/
  path : IsPath w.path
  /-- There are only blanks in front of the operator. -/
  before : Text.Blanks w.before
  /-- There are only blanks behind it. -/
  after : Text.Blanks w.after
  /-- No quote stands in the literal. -/
  literal : '\'' ∉ w.literal

end Comparison

namespace Condition

variable {w w' : Comparison} {e : Text}

theorem exists_operator_eq (negated : Bool) :
    ∃ c, operator negated = [c, '='] ∧ (c = '=' ∨ c = '!') := by
  cases negated
  · exact ⟨'=', rfl, .inl rfl⟩
  · exact ⟨'!', rfl, .inr rfl⟩

theorem operator_inj {m n : Bool} {s t : Text} (h : operator m ++ s = operator n ++ t) :
    m = n ∧ s = t := by
  cases m <;> cases n <;> simp_all [operator]

/-- A path ends where a blank or an operator stands. -/
theorem heads_operator {b s : Text} {negated : Bool} (hb : Text.Blanks b) :
    Text.Heads (!isPathChar ·) (b ++ (operator negated ++ s)) := by
  cases b with
  | nil =>
    obtain ⟨c, hop, rfl | rfl⟩ := exists_operator_eq negated
    · rw [hop]
      exact Text.heads_cons.2 (by decide)
    · rw [hop]
      exact Text.heads_cons.2 (by decide)
  | cons c b =>
    refine Text.heads_cons.2 ?_
    simp [isPathChar, hb c List.mem_cons_self]

theorem readComparison?_source (hw : w.IsProper) :
    readComparison? w.path (w.before ++ (operator w.negated ++ (w.after ++ quoted w.literal))) =
      some w.condition := by
  refine readComparison?_eq_some_iff.2
    ⟨w.before, w.after, w.literal, hw.before, hw.after, hw.literal, ?_⟩
  rw [Comparison.condition]
  cases w.negated
  · exact .inl ⟨rfl, rfl⟩
  · exact .inr ⟨rfl, rfl⟩

/-- What follows a path is read as a comparison only if it is the rest of one. -/
theorem exists_source_of_readComparison? {path s : Text} {c : Condition} (hpath : IsPath path)
    (h : readComparison? path s = some c) :
    ∃ w : Comparison, w.IsProper ∧ w.source = path ++ s ∧ w.condition = c := by
  obtain ⟨b, d, l, hb, hd, hl, ⟨rfl, rfl⟩ | ⟨rfl, rfl⟩⟩ := readComparison?_eq_some_iff.1 h
  · exact ⟨⟨path, b, false, d, l⟩, ⟨hpath, hb, hd, hl⟩, rfl, rfl⟩
  · exact ⟨⟨path, b, true, d, l⟩, ⟨hpath, hb, hd, hl⟩, rfl, rfl⟩

/-! ### Reading what is written -/

theorem readTrimmed_of_isPath (h : IsPath e) : readTrimmed e = truthy e := by
  have hread := readTrimmed_append (r := []) h.1 (fun c hc => isPathChar_iff.2 (h.2 c hc)) rfl
  rwa [List.append_nil, if_pos rfl] at hread

theorem readTrimmed_source (hw : w.IsProper) : readTrimmed w.source = w.condition := by
  have hread := readComparison?_source hw
  have hne : w.before ++ (operator w.negated ++ (w.after ++ quoted w.literal)) ≠ [] := by
    simp [operator]
  rw [Comparison.source, readTrimmed_append hw.path.1
    (fun c hc => isPathChar_iff.2 (hw.path.2 c hc)) (takeWhile_of_readComparison? hread),
    if_neg hne, hread, Option.getD_some]

/-- An expression is read as a path, as a comparison or as no condition. -/
theorem readTrimmed_cases (e : Text) :
    (IsPath e ∧ readTrimmed e = truthy e) ∨
      (∃ w : Comparison, w.IsProper ∧ w.source = e ∧ readTrimmed e = w.condition) ∨
        readTrimmed e = invalid e := by
  have hsplit := List.takeWhile_append_dropWhile (p := isPathChar) (l := e)
  have hpath : ∀ c ∈ e.takeWhile isPathChar, isPathChar c = true :=
    fun c hc => List.mem_takeWhile_imp hc
  rw [readTrimmed.eq_def e]
  dsimp only
  generalize e.takeWhile isPathChar = p at *
  generalize e.dropWhile isPathChar = r at *
  split
  · exact .inr (.inr rfl)
  next hp =>
  have hp : IsPath p := ⟨hp, fun c hc => isPathChar_iff.1 (hpath c hc)⟩
  split
  · next hr =>
    rw [hr, List.append_nil] at hsplit
    exact .inl ⟨hsplit ▸ hp, by rw [hsplit]⟩
  · cases hc : readComparison? p r with
    | none => exact .inr (.inr rfl)
    | some c =>
      obtain ⟨w, hw, hsource, hcondition⟩ := exists_source_of_readComparison? hp hc
      exact .inr (.inl ⟨w, hw, hsource.trans hsplit, hcondition.symm⟩)

theorem comparing_ne_truthy {n : Bool} {path literal p : Text} :
    comparing n path literal ≠ truthy p := by
  cases n <;> nofun

theorem comparing_ne_invalid {n : Bool} {path literal x : Text} :
    comparing n path literal ≠ invalid x := by
  cases n <;> nofun

theorem comparing_inj {m n : Bool} {p q k l : Text} (h : comparing m p k = comparing n q l) :
    m = n ∧ p = q ∧ k = l := by
  cases m <;> cases n <;> simp_all [comparing]

/-- What is read as a comparison is written as one. -/
theorem readTrimmed_eq_comparing_iff {n : Bool} {path literal : Text} :
    readTrimmed e = comparing n path literal ↔ ∃ w : Comparison, w.IsProper ∧ w.source = e ∧
      w.negated = n ∧ w.path = path ∧ w.literal = literal := by
  constructor
  · intro h
    rcases readTrimmed_cases e with ⟨-, hread⟩ | ⟨w, hw, hsource, hread⟩ | hread
    · exact absurd (h.symm.trans hread) comparing_ne_truthy
    · exact ⟨w, hw, hsource, comparing_inj (hread.symm.trans h)⟩
    · exact absurd (h.symm.trans hread) comparing_ne_invalid
  · rintro ⟨w, hw, rfl, rfl, rfl, rfl⟩
    exact readTrimmed_source hw

theorem readTrimmed_eq_truthy_iff {path : Text} :
    readTrimmed e = truthy path ↔ IsPath e ∧ path = e := by
  constructor
  · intro h
    rcases readTrimmed_cases e with ⟨hpath, hread⟩ | ⟨w, -, -, hread⟩ | hread
    · exact ⟨hpath, by simpa using h.symm.trans hread⟩
    · exact absurd (hread.symm.trans h) comparing_ne_truthy
    · cases hread.symm.trans h
  · rintro ⟨hpath, rfl⟩
    exact readTrimmed_of_isPath hpath

theorem readTrimmed_eq_invalid_iff {x : Text} : readTrimmed e = invalid x ↔
    x = e ∧ ¬ IsPath e ∧ ∀ w : Comparison, w.IsProper → w.source ≠ e := by
  constructor
  · intro h
    have hx : x = e := by
      rcases readTrimmed_cases e with ⟨-, hread⟩ | ⟨w, -, -, hread⟩ | hread
      · cases hread.symm.trans h
      · exact absurd (hread.symm.trans h) comparing_ne_invalid
      · simpa using h.symm.trans hread
    refine ⟨hx, fun hpath => ?_, fun w hw hsource => ?_⟩
    · cases (readTrimmed_of_isPath hpath).symm.trans h
    · rw [← hsource, readTrimmed_source hw] at h
      exact comparing_ne_invalid h
  · rintro ⟨rfl, hpath, hcomparison⟩
    rcases readTrimmed_cases x with ⟨h, -⟩ | ⟨w, hw, hsource, -⟩ | hread
    · exact absurd h hpath
    · exact absurd hsource (hcomparison w hw)
    · exact hread

/-! ### One written form -/

/-- **A comparison is taken apart in one way only.** -/
theorem eq_of_source (hw : w.IsProper) (hw' : w'.IsProper) (h : w.source = w'.source) : w = w' := by
  obtain ⟨path, before, negated, after, literal⟩ := w
  obtain ⟨path', before', negated', after', literal'⟩ := w'
  have hchar {p : Text} (hp : IsPath p) : ∀ c ∈ p, isPathChar c = true :=
    fun c hc => isPathChar_iff.2 (hp.2 c hc)
  have hop (n : Bool) (s : Text) : Text.Heads (!Text.isBlank ·) (operator n ++ s) := by
    cases n <;> exact Text.heads_cons.2 (by decide)
  obtain ⟨rfl, h⟩ := Text.eq_of_append_of_heads (hchar hw.path) (hchar hw'.path)
    (heads_operator hw.before) (heads_operator hw'.before) h
  obtain ⟨rfl, h⟩ := Text.eq_of_append_of_heads hw.before hw'.before (hop _ _) (hop _ _) h
  obtain ⟨rfl, h⟩ := operator_inj h
  have hquote (l : Text) : Text.Heads (!Text.isBlank ·) (quoted l) := Text.heads_cons.2 (by decide)
  obtain ⟨rfl, h⟩ := Text.eq_of_append_of_heads hw.after hw'.after (hquote _) (hquote _) h
  simp only [quoted, List.cons.injEq, true_and, List.append_cancel_right_eq] at h
  rw [h]

/-! ### Blanks -/

theorem trim_source (hw : w.IsProper) : Text.trim w.source = w.source := by
  obtain ⟨c, path, hpath⟩ := List.exists_cons_of_ne_nil hw.path.1
  have hc : Text.isBlank c = false := (hw.path.2 c (by simp [hpath])).1
  refine Text.trim_of_ends (d := '\'') hc (by decide) (r := path ++ (w.before ++
    (operator w.negated ++ (w.after ++ quoted w.literal)))) ?_ (t := w.path ++ (w.before ++
      (operator w.negated ++ (w.after ++ '\'' :: w.literal)))) ?_
  · rw [Comparison.source, hpath, List.cons_append]
  · simp [Comparison.source, quoted]

theorem trim_quoted (literal : Text) : Text.trim (quoted literal) = quoted literal :=
  Text.trim_of_ends (by decide) (by decide) rfl (List.cons_append ..).symm

theorem parse_blanks {b d : Text} (hb : Text.Blanks b) (hd : Text.Blanks d) (e : Text) :
    parse (b ++ (e ++ d)) = parse e := by
  rw [parse, Text.trim_blanks_append hb, Text.trim_append_blanks _ hd, parse]

/-- The characters of the operators. -/
def isOperatorChar (c : Char) : Bool := c = '=' || c = '!'

theorem isOperatorChar_of_isBlank {c : Char} (h : Text.isBlank c = true) :
    isOperatorChar c = false := by
  rw [isOperatorChar, Bool.or_eq_false_iff, decide_eq_false_iff_not, decide_eq_false_iff_not]
  constructor
  · rintro rfl
    exact absurd h (by decide)
  · rintro rfl
    exact absurd h (by decide)

theorem IsPath.isOperatorChar {p : Text} (h : IsPath p) {c : Char} (hc : c ∈ p) :
    isOperatorChar c = false := by
  have hends := (h.2 c hc).2
  simp only [pathEnds, List.mem_cons, not_or] at hends
  simp [Condition.isOperatorChar, hends.1, hends.2.1]

/-- There is one first operator. -/
theorem eq_of_append_operator {u u' v v' : Text} {m n : Bool}
    (hu : ∀ x ∈ u, isOperatorChar x = false) (hu' : ∀ x ∈ u', isOperatorChar x = false)
    (h : u ++ (operator m ++ v) = u' ++ (operator n ++ v')) : u = u' ∧ m = n ∧ v = v' := by
  have hheads (m : Bool) (s : Text) : Text.Heads (! !isOperatorChar ·) (operator m ++ s) := by
    cases m <;> exact Text.heads_cons.2 (by decide)
  obtain ⟨hfront, hrest⟩ := Text.eq_of_append_of_heads (by simpa using hu) (by simpa using hu')
    (hheads m v) (hheads n v') h
  exact ⟨hfront, operator_inj hrest⟩

/-- An expression is divided at its first operator: a path stands in front of it and a literal behind
it, blanks aside. -/
theorem parse_operator_iff {u v : Text} {n : Bool} {c : Condition}
    (hu : ∀ x ∈ u, isOperatorChar x = false) (hc : ∀ x, c ≠ invalid x) :
    parse (u ++ (operator n ++ v)) = c ↔ ∃ literal, IsPath (Text.trim u) ∧ '\'' ∉ literal ∧
      Text.trim v = quoted literal ∧ c = comparing n (Text.trim u) literal := by
  constructor
  · intro h
    obtain ⟨x, hop, -⟩ := exists_operator_eq n
    have hmem : '=' ∈ Text.trim (u ++ (operator n ++ v)) :=
      (Text.mem_trim (by decide)).2 (by simp [hop])
    obtain ⟨b, d, hb, hd, he⟩ := Text.exists_eq_append_trim (u ++ (operator n ++ v))
    rw [parse] at h
    generalize Text.trim (u ++ (operator n ++ v)) = e at h he hmem
    rcases readTrimmed_cases e with ⟨hpath, -⟩ | ⟨w, hw, rfl, hread⟩ | hread
    · exact absurd (hpath.isOperatorChar hmem) (by decide)
    · have hfront : ∀ x ∈ b ++ (w.path ++ w.before), isOperatorChar x = false :=
        List.forall_mem_append.2 ⟨fun x hx => isOperatorChar_of_isBlank (hb x hx),
          List.forall_mem_append.2 ⟨fun x hx => hw.path.isOperatorChar hx,
            fun x hx => isOperatorChar_of_isBlank (hw.before x hx)⟩⟩
      have hdivide : u ++ (operator n ++ v) = b ++ (w.path ++ w.before) ++
          (operator w.negated ++ (w.after ++ (quoted w.literal ++ d))) := by
        rw [he]
        simp [Comparison.source]
      obtain ⟨rfl, rfl, rfl⟩ := eq_of_append_operator hu hfront hdivide
      have hpath : Text.trim (b ++ (w.path ++ w.before)) = w.path := by
        rw [Text.trim_blanks_append hb, Text.trim_append_blanks _ hw.before,
          Text.trim_of_forall fun x hx => (hw.path.2 x hx).1]
      refine ⟨w.literal, hpath.symm ▸ hw.path, hw.literal, ?_, ?_⟩
      · rw [Text.trim_blanks_append hw.after, Text.trim_append_blanks _ hd, trim_quoted]
      · rw [hpath, ← h, hread, Comparison.condition]
    · exact absurd (h.symm.trans hread) (hc e)
  · rintro ⟨literal, hpath, hliteral, hv, rfl⟩
    obtain ⟨b, before, hb, hbefore, hu⟩ := Text.exists_eq_append_trim u
    obtain ⟨after, d, hafter, hd, hv'⟩ := Text.exists_eq_append_trim v
    let w : Comparison := ⟨Text.trim u, before, n, after, literal⟩
    have hw : w.IsProper := ⟨hpath, hbefore, hafter, hliteral⟩
    have he : u ++ (operator n ++ v) = b ++ (w.source ++ d) := by
      conv => lhs; rw [hu, hv', hv]
      simp [w, Comparison.source]
    rw [he, parse_blanks hb hd, parse, trim_source hw, readTrimmed_source hw, Comparison.condition]

/-- Blanks around the operator mean nothing. -/
theorem parse_blanks_operator_iff {u v b d : Text} {n : Bool} {c : Condition}
    (hu : ∀ x ∈ u, isOperatorChar x = false) (hb : Text.Blanks b) (hd : Text.Blanks d)
    (hc : ∀ x, c ≠ invalid x) :
    parse (u ++ (b ++ (operator n ++ (d ++ v)))) = c ↔ parse (u ++ (operator n ++ v)) = c := by
  have hfront : ∀ x ∈ u ++ b, isOperatorChar x = false :=
    List.forall_mem_append.2 ⟨hu, fun x hx => isOperatorChar_of_isBlank (hb x hx)⟩
  rw [← List.append_assoc, parse_operator_iff hfront hc, parse_operator_iff hu hc,
    Text.trim_append_blanks u hb, Text.trim_blanks_append hd]

/-- **An expression is read as what it is the written form of.** It is a comparison just if it is a
path, an operator and a literal without quotes in quotes, blanks around the operator and at the ends
aside, and then its parts are given; it is a path just if it is one; and otherwise it is no
condition, with its text kept. Blanks at the ends, and around the first operator, mean nothing. -/
theorem parse_eq_iff_written (e : Text) :
    (∀ path literal, parse e = equals path literal ↔ ∃ w : Comparison, w.IsProper ∧
      w.source = Text.trim e ∧ w.negated = false ∧ w.path = path ∧ w.literal = literal) ∧
    (∀ path literal, parse e = notEquals path literal ↔ ∃ w : Comparison, w.IsProper ∧
      w.source = Text.trim e ∧ w.negated = true ∧ w.path = path ∧ w.literal = literal) ∧
    (∀ path, parse e = truthy path ↔ IsPath (Text.trim e) ∧ path = Text.trim e) ∧
    (∀ x, parse e = invalid x ↔ x = Text.trim e ∧ ¬ IsPath (Text.trim e) ∧
      ∀ w : Comparison, w.IsProper → w.source ≠ Text.trim e) ∧
    (∀ w w' : Comparison, w.IsProper → w'.IsProper → w.source = Text.trim e →
      w'.source = Text.trim e → w = w') ∧
    (∀ b d, Text.Blanks b → Text.Blanks d → parse (b ++ (e ++ d)) = parse e) ∧
    ∀ u n v b d, e = u ++ (operator n ++ v) → (∀ x ∈ u, isOperatorChar x = false) → Text.Blanks b →
      Text.Blanks d → ∀ c, (∀ x, c ≠ invalid x) →
        (parse (u ++ (b ++ (operator n ++ (d ++ v)))) = c ↔ parse e = c) := by
  refine ⟨fun path literal => readTrimmed_eq_comparing_iff (n := false),
    fun path literal => readTrimmed_eq_comparing_iff (n := true),
    fun path => readTrimmed_eq_truthy_iff, fun x => readTrimmed_eq_invalid_iff,
    fun w w' hw hw' h h' => eq_of_source hw hw' (h.trans h'.symm),
    fun b d hb hd => parse_blanks hb hd e, ?_⟩
  rintro u n v b d rfl hu hb hd c hc
  exact parse_blanks_operator_iff hu hb hd hc

/-- The blanks of a literal are kept, those around it are not. -/
theorem parse_eq_iff_written_due :
    parse " due\t!=\n' a  b' ".toList = notEquals "due".toList " a  b".toList ∧
      (parse "due != ' a  b'".toList = notEquals "due".toList " a  b".toList ↔
        parse "due!=' a  b'".toList = notEquals "due".toList " a  b".toList) := by
  obtain ⟨-, hread, -⟩ := parse_eq_iff_written " due\t!=\n' a  b' ".toList
  obtain ⟨-, -, -, -, -, -, hblanks⟩ := parse_eq_iff_written "due!=' a  b'".toList
  refine ⟨(hread _ _).2 ⟨⟨"due".toList, ['\t'], true, ['\n'], " a  b".toList⟩, ?_, by decide,
    rfl, rfl, rfl⟩, ?_⟩
  · exact ⟨by decide, by decide, by decide, by decide⟩
  · exact hblanks "due".toList true "' a  b'".toList [' '] [' '] (by decide) (by decide) (by decide)
      (by decide) _ (fun _ => nofun)

end Condition

end MaskedViews
