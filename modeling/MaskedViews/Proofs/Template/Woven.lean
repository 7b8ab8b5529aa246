import MaskedViews.Proofs.Template.Patches
import MaskedViews.Proofs.Template.Stripping
import Mathlib.Data.List.Induction

/-!
# Woven texts

A text is woven if its braces occur only in complete tags, and what stands between the braces of a
tag holds neither braces nor `<`, `>` or `"`. What the tags of a woven text are is decided place by
place: the tags of two texts one after the other are those of the first and those of the second
(`tags_append`).
-/

namespace MaskedViews.Token

/-- Whether a character stands in no clean tag. -/
def isBarrier (c : Char) : Bool := c = '<' || c = '>' || c = '"'

theorem isBarrier_of_isPathChar {c : Char} (h : isPathChar c = true) : isBarrier c = false := by
  rw [← Bool.not_eq_true]
  intro hc
  simp only [isBarrier, Bool.or_eq_true, decide_eq_true_eq, or_assoc] at hc
  rcases hc with rfl | rfl | rfl <;> exact absurd h (by decide)

/-- A tag that holds neither a brace nor a barrier between its braces. -/
def Clean : Token → Prop
  | text _ => False
  | tag content => ∀ c ∈ content, isBrace c = false ∧ isBarrier c = false
  | rawTag content => ∀ c ∈ content, isBrace c = false ∧ isBarrier c = false

/-- A text whose braces occur only in clean tags. -/
inductive Woven : Text → Prop where
  /-- Nothing. -/
  | nil : Woven []
  /-- A character that is no brace. -/
  | char {c : Char} {s : Text} (hc : isBrace c = false) (h : Woven s) : Woven (c :: s)
  /-- A clean tag. -/
  | tag {t : Token} {s : Text} (ht : t.Clean) (h : Woven s) : Woven (t.source ++ s)

theorem Woven.of_braceless {s : Text} (h : Braceless s) : Woven s := by
  induction s with
  | nil => exact .nil
  | cons c s ih =>
    obtain ⟨hc, hs⟩ := braceless_cons.1 h
    exact .char hc (ih hs)

theorem Woven.append {s t : Text} (hs : Woven s) (ht : Woven t) : Woven (s ++ t) := by
  induction hs with
  | nil => exact ht
  | char hc _ ih => exact .char hc ih
  | tag hx _ ih =>
    rw [List.append_assoc]
    exact .tag hx ih

theorem Woven.flatMap {α : Type} {f : α → Text} {xs : List α} (h : ∀ x ∈ xs, Woven (f x)) :
    Woven (xs.flatMap f) := by
  induction xs with
  | nil => exact .nil
  | cons x xs ih =>
    rw [List.flatMap_cons]
    exact (h x (by simp)).append (ih fun y hy => h y (List.mem_cons_of_mem x hy))

/-! ### The tags of a woven text -/

theorem Clean.braceless {t : Token} (h : t.Clean) : ∃ content, t.content? = some content ∧
    Braceless content := by
  cases t with
  | text s => cases h
  | tag content => exact ⟨content, rfl, fun c hc => (h c hc).1⟩
  | rawTag content => exact ⟨content, rfl, fun c hc => (h c hc).1⟩

theorem cut?_braceless_append_mark {p : Char} {mark b : Text} (hp : isBrace p = true)
    (hb : Braceless b) (s : Text) :
    Text.cut? (p :: mark) (b ++ (p :: mark ++ s)) = some (b, s) := by
  rw [cut?_braceless_append hp hb, List.cons_append, Text.cut?, ← List.cons_append,
    Text.rest?_eq_some_iff.2 rfl]
  simp

/-- A tag without braces between its own is read where it stands. -/
theorem firstTag?_braceless_append {t : Token} {content : Text} (ht : t.content? = some content)
    (hb : Braceless content) (s : Text) : firstTag? (t.source ++ s) = some ([], t, s) := by
  cases t with
  | text s => cases ht
  | tag content =>
    cases ht
    have hraw : rawTag? (content ++ (closeTag ++ s)) = none := by
      refine rawTag?_of_head ?_
      cases content with
      | nil => simp [closeTag]
      | cons c content =>
        intro h
        rw [List.cons_append, List.head?_cons, Option.some.injEq] at h
        subst h
        exact absurd (hb '{' (by simp)) (by decide)
    have hclose : Text.cut? closeTag (content ++ (closeTag ++ s)) = some (content, s) :=
      cut?_braceless_append_mark (by decide) hb s
    have hsource : (tag content).source ++ s = openTag ++ (content ++ (closeTag ++ s)) := by
      simp [source]
    rw [hsource]
    exact firstTag?_of_cut? (cut?_openTag_append _) hraw hclose
  | rawTag content =>
    cases ht
    have hraw : rawTag? ('{' :: (content ++ (closeRaw ++ s))) = some (content, s) :=
      cut?_braceless_append_mark (by decide) hb s
    have hsource : (rawTag content).source ++ s =
        openTag ++ '{' :: (content ++ (closeRaw ++ s)) := by
      simp [source, openRaw, openTag]
    rw [hsource]
    exact firstTag?_of_rawTag? (cut?_openTag_append _) hraw

/-- A clean tag is read where it stands. -/
theorem firstTag?_clean_append {t : Token} (ht : t.Clean) (s : Text) :
    firstTag? (t.source ++ s) = some ([], t, s) := by
  obtain ⟨content, hcontent, hb⟩ := ht.braceless
  exact firstTag?_braceless_append hcontent hb s

theorem tags_clean_append {t : Token} (ht : t.Clean) (s : Text) :
    tags (t.source ++ s) = t :: tags s :=
  tags_of_some (firstTag?_clean_append ht s)

theorem inert_singleton {c : Char} (hc : isBrace c = false) : Inert [c] :=
  Braceless.inert (braceless_cons.2 ⟨hc, Braceless.nil⟩)

theorem tags_cons {c : Char} (hc : isBrace c = false) (s : Text) : tags (c :: s) = tags s :=
  tags_braceless_append (b := [c]) (braceless_cons.2 ⟨hc, Braceless.nil⟩) s

@[simp] theorem tags_nil : tags [] = [] := tags_of_none rfl

/-- **The tags behind a woven text are read as if it were not there.** -/
theorem tags_append {s : Text} (hs : Woven s) (t : Text) : tags (s ++ t) = tags s ++ tags t := by
  induction hs with
  | nil => rw [tags_nil, List.nil_append, List.nil_append]
  | char hc _ ih => rw [List.cons_append, tags_cons hc, ih, tags_cons hc]
  | tag hx _ ih => rw [List.append_assoc, tags_clean_append hx, ih, tags_clean_append hx]; rfl

theorem tags_flatMap {α : Type} {f : α → Text} {xs : List α} (h : ∀ x ∈ xs, Woven (f x)) :
    tags (xs.flatMap f) = xs.flatMap fun x => tags (f x) := by
  induction xs with
  | nil => exact tags_nil
  | cons x xs ih =>
    rw [List.flatMap_cons, tags_append (h x (by simp)), ih fun y hy => h y (List.mem_cons_of_mem x hy)]
    rfl

/-- The tags of a woven text are clean. -/
theorem Woven.clean_of_mem_tags {s : Text} (hs : Woven s) {t : Token} (ht : t ∈ tags s) :
    t.Clean := by
  induction hs with
  | nil =>
    rw [tags_nil] at ht
    cases ht
  | char hc _ ih =>
    rw [tags_cons hc] at ht
    exact ih ht
  | tag hx _ ih =>
    rw [tags_clean_append hx] at ht
    rcases List.mem_cons.1 ht with rfl | ht
    · exact hx
    · exact ih ht

/-! ### Stripping a woven text -/

/-- What stands in front of a tag is not stripped. -/
theorem strip_inert_append {x : Text} (hx : Inert x) (remove : Text → Bool) (s : Text) :
    strip remove (x ++ s) = x ++ strip remove s := by
  have hfirst := firstTag?_inert_append hx s
  cases h : firstTag? s with
  | none =>
    rw [h, Option.map_none] at hfirst
    rw [strip_of_none remove h, strip_of_none remove hfirst]
  | some y =>
    obtain ⟨before, t, r⟩ := y
    rw [h, Option.map_some] at hfirst
    rw [strip_of_some remove h, strip_of_some remove hfirst, List.append_assoc]

theorem strip_cons {c : Char} (hc : isBrace c = false) (remove : Text → Bool) (s : Text) :
    strip remove (c :: s) = c :: strip remove s :=
  strip_inert_append (inert_singleton hc) remove s

@[simp] theorem strip_nil (remove : Text → Bool) : strip remove [] = [] := strip_of_none remove rfl

theorem strip_clean_append {t : Token} (ht : t.Clean) (remove : Text → Bool) (s : Text) :
    strip remove (t.source ++ s) =
      (if t.isStripped remove then [] else t.source) ++ strip remove s := by
  rw [strip_of_some remove (firstTag?_clean_append ht s), List.nil_append]

/-- A woven text is stripped place by place. -/
theorem strip_append {s : Text} (hs : Woven s) (remove : Text → Bool) (t : Text) :
    strip remove (s ++ t) = strip remove s ++ strip remove t := by
  induction hs with
  | nil => rw [strip_nil, List.nil_append, List.nil_append]
  | char hc _ ih => rw [List.cons_append, strip_cons hc, ih, strip_cons hc]; rfl
  | tag hx _ ih =>
    rw [List.append_assoc, strip_clean_append hx, ih, strip_clean_append hx, List.append_assoc]

theorem Woven.strip {s : Text} (hs : Woven s) (remove : Text → Bool) :
    Woven (strip remove s) := by
  induction hs with
  | nil =>
    rw [strip_nil]
    exact .nil
  | char hc _ ih =>
    rw [strip_cons hc]
    exact .char hc ih
  | tag hx _ ih =>
    rw [strip_clean_append hx]
    split
    · exact ih
    · exact .tag hx ih

/-! ### What is left of a woven text -/

/-- What follows a woven text without a brace may go. -/
theorem Woven.of_append_braceless {x y : Text} (h : Woven (x ++ y)) (hy : Braceless y) : Woven x := by
  generalize hs : x ++ y = s at h
  induction h generalizing x with
  | nil =>
    rw [(List.append_eq_nil_iff.1 hs).1]
    exact .nil
  | @char c s hc _ ih =>
    cases x with
    | nil => exact .nil
    | cons d x =>
      obtain ⟨rfl, hs'⟩ := List.cons.inj hs
      exact .char hc (ih hs')
  | @tag t s ht _ ih =>
    rcases List.append_eq_append_iff.1 hs.symm with ⟨x', rfl, hs'⟩ | ⟨z, ht', hs'⟩
    · exact .tag ht (ih hs'.symm)
    · -- a tag ends in a brace
      obtain ⟨w, hw⟩ := exists_source_eq (t := t) (by cases t <;> first | rfl | cases ht)
      cases z using List.reverseRecOn with
      | nil =>
        rw [List.append_nil] at ht'
        simpa [← ht'] using Woven.tag ht .nil
      | append_singleton z c =>
        rw [hw, show closeTag = ['}'] ++ ['}'] from rfl, ← List.append_assoc, ← List.append_assoc] at ht'
        obtain rfl := List.singleton_inj.1 (List.append_inj' ht' rfl).2
        exact absurd (hy '}' (by simp [hs'])) (by decide)

theorem Woven.of_cons {c : Char} {s : Text} (hc : isBrace c = false) (h : Woven (c :: s)) :
    Woven s := by
  generalize hs : c :: s = x at h
  cases h with
  | nil => cases hs
  | char _ h =>
    simp only [List.cons.injEq] at hs
    rwa [hs.2]
  | @tag t y ht h =>
    exfalso
    cases t with
    | text s => cases ht
    | tag content =>
      simp only [source, openTag, List.cons_append, List.cons.injEq] at hs
      rw [hs.1] at hc
      cases hc
    | rawTag content =>
      simp only [source, openRaw, List.cons_append, List.cons.injEq] at hs
      rw [hs.1] at hc
      cases hc

/-! ### Patching a woven text -/

/-- A clean tag holds nothing that is patched at a barrier. -/
theorem Clean.eq_of_matches {x y : Token} (hx : x.Clean) (h : Matches (Patched isBarrier) x y) :
    y = x := by
  have hcontent {s t : Text} (hs : ∀ c ∈ s, isBrace c = false ∧ isBarrier c = false)
      (h : Parallel (Patched isBarrier) s t) : t = s := by
    have hb : Braceless s := fun c hc => (hs c hc).1
    rcases (h.of_braceless hb).2 with rfl | ⟨⟨c, hc, hbarrier⟩, -⟩
    · rfl
    · rw [(hs c hc).2] at hbarrier
      cases hbarrier
  cases h with
  | text h => cases hx
  | tag h => rw [hcontent hx h]
  | rawTag h => rw [hcontent hx h]

/-- Patches at barriers leave clean tags alone. -/
theorem tags_of_patched {s t : Text} (h : Parallel (Patched isBarrier) s t)
    (hs : ∀ x ∈ tags s, x.Clean) : tags t = tags s := by
  have hmatch := tokenize_parallel (matching_patched isBarrier) h
  rw [tags] at hs ⊢
  rw [tags]
  generalize tokenize s = xs at hmatch hs
  generalize tokenize t = ys at hmatch
  induction hmatch with
  | nil => rfl
  | @cons x y xs ys hxy _ ih =>
    have hkind : y.isTag = x.isTag := by cases hxy <;> rfl
    rw [List.filter_cons, List.filter_cons, hkind]
    cases htag : x.isTag with
    | false =>
      simp only [Bool.false_eq_true, if_false]
      refine ih fun z hz => hs z ?_
      rw [List.filter_cons, htag]
      exact hz
    | true =>
      have hx : x.Clean := hs x (by rw [List.filter_cons, htag]; simp)
      simp only [if_true]
      rw [hx.eq_of_matches hxy, ih fun z hz => hs z ?_]
      rw [List.filter_cons, htag]
      exact List.mem_cons_of_mem x hz

end MaskedViews.Token
