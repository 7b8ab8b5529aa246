import MaskedViews.Proofs.Template.Placeholders

/-!
# Tokens of settled text

Settling leaves every brace in its place and never joins what a brace keeps apart, so the tokens of
a settled text are the tokens of the text, each settled (`tokenize_settle`). What a tag means stays
the same as well, but for the expression of a condition, which is settled with the tag
(`mark_settled`). So the placeholders stay what they are (`paths_normalizeWhitespace`).
-/

namespace MaskedViews

open Markup (settle isFirm)

/-- What a mark means when the tag is settled. -/
def Mark.settled : Mark → Mark
  | .condOpen expr => .condOpen (settle expr)
  | mark => mark

namespace Token

/-- The token with its text settled. -/
def settled : Token → Token
  | text s => text (settle s)
  | tag content => tag (settle content)
  | rawTag content => rawTag (settle content)

theorem braceless_settle {s : Text} (hs : Braceless s) : Braceless (settle s) := by
  intro c hc
  rcases Markup.mem_settle hc with rfl | h
  · decide
  · exact hs c h

theorem matching_settle : Matching fun s t => t = settle s where
  nil := rfl
  empty_iff := by
    rintro s t rfl
    exact Markup.settle_eq_nil_iff.symm

theorem parallel_settle (s : Text) : Parallel (fun s t => t = settle s) s (settle s) := by
  rcases braceless_or s with h | ⟨b, c, r, hs, hb, hc⟩
  · exact .stretch h (braceless_settle h) rfl
  · rw [hs, Markup.settle_append_cons (isFirm_of_isBrace hc)]
    exact .brace hb (braceless_settle hb) rfl hc (parallel_settle r)
termination_by s.length
decreasing_by
  rw [hs, List.length_append, List.length_cons]
  omega

theorem eq_settle_of_parallel {s t : Text} (h : Parallel (fun s t => t = settle s) s t) :
    t = settle s := by
  induction h with
  | stretch _ _ h => exact h
  | brace _ _ h hc _ ih => rw [Markup.settle_append_cons (isFirm_of_isBrace hc), ← h, ← ih]

theorem eq_settled_of_matches {x y : Token} (h : Matches (fun s t => t = settle s) x y) :
    y = x.settled := by
  cases h with
  | text h => rw [settled, eq_settle_of_parallel h]
  | tag h => rw [settled, eq_settle_of_parallel h]
  | rawTag h => rw [settled, eq_settle_of_parallel h]

/-- **The tokens of a settled text are the settled tokens.** -/
theorem tokenize_settle (s : Text) : tokenize (settle s) = (tokenize s).map settled := by
  have h := (tokenize_parallel matching_settle (parallel_settle s)).imp
    fun _ _ h => (eq_settled_of_matches h).symm
  rw [← List.forall₂_map_left_iff (f := settled), List.forall₂_eq_eq_eq] at h
  exact h.symm

theorem source_settled (t : Token) : t.settled.source = settle t.source := by
  have hbrace (c : Char) (h : isBrace c = true) (s t : Text) :
      settle (s ++ c :: t) = settle s ++ c :: settle t :=
    Markup.settle_append_cons (isFirm_of_isBrace h) s t
  have hopen (s : Text) : settle ('{' :: s) = '{' :: settle s := hbrace '{' (by decide) [] s
  have hclose : settle ['}'] = ['}'] := by decide
  have hclose₂ : settle ['}', '}'] = ['}', '}'] := by decide
  cases t with
  | text s => rfl
  | tag content =>
    simp only [settled, source, openTag, closeTag, List.cons_append, List.nil_append, hopen,
      hbrace '}' (by decide) content, hclose]
  | rawTag content =>
    simp only [settled, source, openRaw, closeRaw, List.cons_append, List.nil_append, hopen,
      hbrace '}' (by decide) content, hclose₂]

/-! ### What a settled tag means -/

/-- Settling leaves a beginning of firm characters alone. -/
theorem rest?_settle {start : Text} (h : ∀ c ∈ start, isFirm c = true) (s : Text) :
    Text.rest? start (settle s) = (Text.rest? start s).map settle := by
  induction start generalizing s with
  | nil => rfl
  | cons p start ih =>
    have hp := h p (by simp)
    cases s with
    | nil => rfl
    | cons c s =>
      by_cases hc : p = c
      · subst hc
        rw [Markup.settle_cons_of_isFirm hp, Text.rest?, Text.rest?, if_pos rfl, if_pos rfl]
        exact ih (fun c hc => h c (List.mem_cons_of_mem p hc)) s
      · have hne : Text.rest? (p :: start) (settle (c :: s)) = none := by
          have hhead := Markup.head?_settle_cons c s
          cases hs : settle (c :: s) with
          | nil => rfl
          | cons d t =>
            rw [hs, List.head?_cons, Option.some.injEq] at hhead
            have hd : p ≠ d := by
              rw [hhead]
              split
              · exact Markup.ne_space_of_isFirm hp
              · exact hc
            rw [Text.rest?, if_neg hd]
        rw [hne, Text.rest?, if_neg hc]
        rfl

theorem condition?_settle (content : Text) :
    condition? (settle content) = (condition? content).map settle := by
  rw [condition?, condition?, rest?_settle (by decide)]
  cases h : Text.rest? "#if".toList content with
  | none => rfl
  | some r =>
    cases r with
    | nil => rfl
    | cons c s =>
      have hhead := Markup.head?_settle_cons c s
      rw [Option.map_some]
      cases hs : settle (c :: s) with
      | nil => rw [hs] at hhead; cases hhead
      | cons d t =>
        rw [hs, List.head?_cons, Option.some.injEq] at hhead
        have htrim : Text.trim (d :: t) = settle (Text.trim (c :: s)) := by
          rw [Markup.settle_trim, Markup.normalizeWhitespace_eq, hs]
        by_cases hc : Text.isBlank c = true
        · rw [if_pos hc] at hhead
          simp only [hhead ▸ htrim, hc, hhead, if_true]
          rfl
        · rw [if_neg hc] at hhead
          simp only [hhead, hc]
          rfl

theorem settle_eq_iff {s t : Text} (h : ∀ c ∈ t, isFirm c = true) : settle s = t ↔ s = t := by
  constructor
  · rintro rfl
    exact (Markup.settle_eq_self_of_isFirm_settle h).symm
  · rintro rfl
    exact Markup.settle_of_isFirm h

theorem isPath_trim_settle (s : Text) :
    isPath (Text.trim (settle s)) = isPath (Text.trim s) := by
  rw [← Markup.normalizeWhitespace_eq, ← Markup.settle_trim, isPath_settle]

theorem trim_settle_of_isPath {s : Text} (h : isPath (Text.trim s) = true) :
    Text.trim (settle s) = Text.trim s := by
  rw [← Markup.normalizeWhitespace_eq, ← Markup.settle_trim, settle_of_isPath h]

/-- A content that is no condition and begins with neither `#` nor `/` is a path or nothing. -/
theorem markOfContent_of_head {content : Text} (h : condition? content = none)
    (hopen : content.head? ≠ some '#') (hclose : content.head? ≠ some '/') :
    markOfContent content = if isPath content then .placeholder content false else .text := by
  have hif : content ≠ "/if".toList := by
    rintro rfl
    exact hclose rfl
  unfold markOfContent
  simp only [h, if_neg hif]
  split
  · exact absurd rfl hopen
  · exact absurd rfl hclose
  · rfl

theorem markOfContent_settle (content : Text) :
    markOfContent (settle content) = (markOfContent content).settled := by
  have hcond := condition?_settle content
  cases h : condition? content with
  | some expr =>
    rw [h, Option.map_some] at hcond
    unfold markOfContent
    simp only [h, hcond, Mark.settled]
  | none =>
    rw [h, Option.map_none] at hcond
    by_cases hopen : content.head? = some '#'
    · obtain ⟨s, rfl⟩ := List.head?_eq_some_iff.1 hopen
      rw [Markup.settle_cons_of_isFirm (by decide)] at hcond ⊢
      rw [markOfContent, markOfContent, h, hcond]
      simp only [isPath_trim_settle, List.cons.injEq, false_and, if_false,
        show "/if".toList = ['/', 'i', 'f'] from rfl, Char.reduceEq]
      split
      · next hpath =>
        rw [trim_settle_of_isPath hpath]
        rfl
      · rfl
    by_cases hclose : content.head? = some '/'
    · obtain ⟨s, rfl⟩ := List.head?_eq_some_iff.1 hclose
      rw [Markup.settle_cons_of_isFirm (by decide)] at hcond ⊢
      rw [markOfContent, markOfContent, h, hcond]
      simp only [isPath_trim_settle, show "/if".toList = ['/', 'i', 'f'] from rfl,
        List.cons.injEq, true_and, settle_eq_iff (show ∀ c ∈ ['i', 'f'], isFirm c = true by decide)]
      split
      · rfl
      split
      · next hpath =>
        rw [trim_settle_of_isPath hpath]
        rfl
      · rfl
    have hhead (c : Char) (hc : c ≠ ' ') (h : content.head? ≠ some c) :
        (settle content).head? ≠ some c := by
      cases content with
      | nil => exact h
      | cons d s =>
        rw [Markup.head?_settle_cons]
        split
        · simpa using Ne.symm hc
        · exact h
    rw [markOfContent_of_head h hopen hclose, markOfContent_of_head hcond
      (hhead '#' (by decide) hopen) (hhead '/' (by decide) hclose), isPath_settle]
    split
    · next hpath =>
      rw [settle_of_isPath hpath]
      rfl
    · rfl

/-- **A settled tag means what the tag means**, but for the expression of a condition. -/
theorem mark_settled (t : Token) : t.settled.mark = t.mark.settled := by
  cases t with
  | text s => rfl
  | tag content =>
    rw [settled, mark, mark, ← Markup.normalizeWhitespace_eq, ← Markup.settle_trim,
      markOfContent_settle]
  | rawTag content =>
    simp only [settled, mark, isPath_trim_settle]
    split
    · next h => rw [trim_settle_of_isPath h]; rfl
    · rfl

/-! ### The tags of settled text -/

theorem isTag_settled (t : Token) : t.settled.isTag = t.isTag := by
  cases t <;> rfl

theorem path?_settled (t : Token) : t.settled.path? = t.path? := by
  rw [path?, mark_settled, path?]
  cases t.mark <;> rfl

theorem tags_settle (s : Text) : tags (settle s) = (tags s).map settled := by
  rw [tags, tokenize_settle, List.filter_map, tags]
  congr 2
  exact funext isTag_settled

theorem paths_settle (s : Text) : paths (settle s) = paths s := by
  rw [paths, tags_settle, List.filterMap_map, paths]
  exact List.filterMap_congr fun t _ => path?_settled t

/-- Normalizing whitespace settles the tags. -/
theorem tags_normalizeWhitespace (s : Text) :
    tags (Markup.normalizeWhitespace s) = (tags s).map settled := by
  obtain ⟨b₁, b₂, h₁, h₂, hs⟩ := Markup.exists_settle_eq s
  rw [← tags_settle, hs, tags_braceless_append (braceless_of_blanks h₁),
    tags_append_braceless (braceless_of_blanks h₂)]

theorem paths_normalizeWhitespace (s : Text) : paths (Markup.normalizeWhitespace s) = paths s := by
  rw [paths, tags_normalizeWhitespace, ← tags_settle, ← paths, paths_settle]

end Token

end MaskedViews
