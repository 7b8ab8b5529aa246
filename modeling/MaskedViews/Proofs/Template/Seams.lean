import MaskedViews.Proofs.Template.Stripping

/-!
# Tokens of a template that another follows

Where a tag of a template ends is decided by closing braces that may stand anywhere behind it, so a
text that follows a template can change its tokens, even the first. The tokens stay what they are up
to the first tag that lacks its closing braces (`exists_settles`), and from there on all is one tag
when closing braces come (`exists_close`).
-/

namespace MaskedViews

namespace Token

/-- Whether a token is none that closing braces further on would have changed. Two opening braces
are left in a text where no two closing ones follow them, and a tag between double braces begins
with a third opening brace where no three closing ones follow. -/
def IsEnded : Token → Prop
  | text s => Text.cut? openTag s = none
  | tag content => content.head? ≠ some '{'
  | rawTag _ => True

instance : DecidablePred IsEnded
  | text s => inferInstanceAs (Decidable (Text.cut? openTag s = none))
  | tag content => inferInstanceAs (Decidable (content.head? ≠ some '{'))
  | rawTag _ => inferInstanceAs (Decidable True)

theorem isEnded_of_mem_ofText {s : Text} (h : Text.cut? openTag s = none) {t : Token}
    (ht : t ∈ ofText s) : t.IsEnded := by
  obtain ⟨-, rfl⟩ := mem_ofText.1 ht
  exact h

/-! ### Tokens that stay -/

theorem Inert.cut?_eq_none {x : Text} (h : Inert x) : Text.cut? openTag x = none := by
  have := h []
  rwa [List.append_nil] at this

/-- A text without two opening braces that does not end with one. -/
theorem inert_of_cut?_eq_none {x : Text} (h : Text.cut? openTag x = none)
    (hlast : x.getLast? ≠ some '{') : Inert x := by
  intro y
  have hapart : Text.Apart openTag x y := by
    rintro c d hc - hmem
    have : c = '{' := by simpa [openTag] using hmem
    exact absurd (this ▸ hc) hlast
  rw [openTag] at *
  rw [Text.cut?_append_of_apart hapart, h]
  rfl

theorem firstTag?_append {s before r : Text} {t : Token} (h : firstTag? s = some (before, t, r))
    (ht : t.IsEnded) (y : Text) : firstTag? (s ++ y) = some (before, t, r ++ y) := by
  have hsource : firstTag? (t.source ++ (r ++ y)) = some ([], t, r ++ y) := by
    refine firstTag?_source_append h fun content hcontent => ?_
    rw [hcontent] at ht
    exact absurd rfl ht
  rw [eq_of_firstTag? h, List.append_assoc, List.append_assoc,
    firstTag?_inert_append (inert_of_firstTag? h), hsource]
  simp

theorem getLast?_of_firstTag? {s before r : Text} {t : Token}
    (h : firstTag? s = some (before, t, r)) : s.getLast? = some '{' ↔ r.getLast? = some '{' := by
  obtain ⟨z, hz⟩ := exists_source_eq (isTag_of_firstTag? h)
  rw [eq_of_firstTag? h, hz]
  by_cases hr : r = []
  · simp [hr, closeTag]
  · rw [← List.append_assoc, List.getLast?_append_of_ne_nil _ hr]

/-- A template of which the first tokens are what they are whatever follows, and what is left. -/
structure Settles (s : Text) (ts : List Token) (x : Text) : Prop where
  /-- What follows changes the tokens of what is left only. -/
  tokenize_append (y : Text) : tokenize (s ++ y) = ts ++ tokenize (x ++ y)
  /-- The first tokens are ended. -/
  ended : ∀ t ∈ ts, t.IsEnded
  /-- What is left has no tag or begins with one that is not ended. -/
  rest : ∀ before t r, firstTag? x = some (before, t, r) → ¬ t.IsEnded
  /-- What is left ends with an opening brace if the template does. -/
  getLast? : s.getLast? = some '{' ↔ x.getLast? = some '{'

theorem exists_settles (s : Text) : ∃ ts x, Settles s ts x := by
  fun_induction tokenize s with
  | case1 s h =>
    refine ⟨[], s, fun y => rfl, by simp, fun before t r h' => ?_, Iff.rfl⟩
    rw [h] at h'
    cases h'
  | case2 s before t r h ih =>
    obtain ⟨ts, x, hsettles⟩ := ih
    by_cases ht : t.IsEnded
    · refine ⟨ofText before ++ t :: ts, x, fun y => ?_, ?_, hsettles.rest,
        (getLast?_of_firstTag? h).trans hsettles.getLast?⟩
      · rw [tokenize_of_some (firstTag?_append h ht y), hsettles.tokenize_append]
        simp
      · exact List.forall_mem_append.2
          ⟨fun u => isEnded_of_mem_ofText (inert_of_firstTag? h).cut?_eq_none,
            List.forall_mem_cons.2 ⟨ht, hsettles.ended⟩⟩
    · refine ⟨[], s, fun y => rfl, by simp, fun before' t' r' h' => ?_, Iff.rfl⟩
      obtain ⟨-, rfl, -⟩ : before = before' ∧ t = t' ∧ r = r' := by simpa [h] using h'
      exact ht

namespace Settles

variable {s x : Text} {ts : List Token} (h : Settles s ts x)

include h

theorem tokenize_eq : tokenize s = ts ++ tokenize x := by
  simpa using h.tokenize_append []

theorem tokenize_eq_append_ofText (hcut : Text.cut? openTag x = none) :
    tokenize s = ts ++ ofText x := by
  rw [h.tokenize_eq, tokenize_of_none (by rw [firstTag?, hcut]; rfl)]

theorem tokenize_append_of_firstTag? {y before : Text} {t : Token}
    (hfirst : firstTag? (x ++ y) = some (before, t, [])) :
    tokenize (s ++ y) = ts ++ ofText before ++ [t] := by
  rw [h.tokenize_append, tokenize_of_some hfirst, tokenize_nil, List.append_assoc]

/-- All tokens are ended if no two opening braces are left over. -/
theorem forall_isEnded_iff :
    (∀ t ∈ tokenize s, t.IsEnded) ↔ Text.cut? openTag x = none := by
  rw [h.tokenize_eq, List.forall_mem_append, and_iff_right h.ended]
  constructor
  · intro hended
    cases hfirst : firstTag? x with
    | some z =>
      obtain ⟨before, t, r⟩ := z
      rw [tokenize_of_some hfirst] at hended
      exact absurd (hended t (by simp)) (h.rest before t r hfirst)
    | none =>
      rw [tokenize_of_none hfirst, ofText] at hended
      split at hended
      · next hx => rw [hx]; rfl
      · exact hended _ (List.mem_singleton_self _)
  · intro hcut
    rw [tokenize_of_none (by rw [firstTag?, hcut]; rfl)]
    exact fun t => isEnded_of_mem_ofText hcut

end Settles

/-! ### Tags that what follows closes -/

theorem rawTag?_of_cut? {s : Text} (h : Text.cut? closeRaw s = none) : rawTag? s = none := by
  unfold rawTag?
  split
  · next s => exact Text.cut?_eq_none_of_append (x := ['{']) h
  · rfl

/-- Without two closing braces there are no three. -/
theorem cut?_closeRaw_eq_none {s : Text} (h : Text.cut? closeTag s = none) :
    Text.cut? closeRaw s = none := by
  cases hraw : Text.cut? closeRaw s with
  | none => rfl
  | some z =>
    obtain ⟨b, r⟩ := z
    obtain ⟨b', r', hsome, -⟩ := Text.exists_cut? '}' ['}'] b ('}' :: r)
    have hs : s = b ++ (closeRaw ++ r) := Text.eq_of_cut? hraw
    exact absurd (hsome.symm.trans (hs ▸ h)) (by simp)

/-- Closing braces are looked for behind opening braces that follow a text without them. -/
theorem cut?_append_open {p : Char} {mark a k : Text} (hmark : ∀ c ∈ p :: mark, c = '}')
    (ha : Text.cut? (p :: mark) a = none) (hk : Braceless k) (z : Text) :
    Text.cut? (p :: mark) (a ++ (openTag ++ (k ++ z))) =
      (Text.cut? (p :: mark) z).map fun (b, r) => (a ++ (openTag ++ (k ++ b)), r) := by
  have hp : p = '}' := hmark p List.mem_cons_self
  have hopen : Text.cut? (p :: mark) openTag = none := by
    simp [openTag, Text.cut?, Text.rest?, hp]
  have hapart {x y : Text} (h : x.getLast? = some '{' ∨ y.head? = some '{') :
      Text.Apart (p :: mark) x y := by
    rintro c d hc hd hmem hmem'
    rw [hc, hd, hmark c hmem, hmark d hmem'] at h
    simp at h
  rw [Text.cut?_append_of_apart (hapart (.inr rfl)), ha,
    Text.cut?_append_of_apart (hapart (.inl rfl)), hopen,
    cut?_braceless_append (by rw [hp]; rfl) hk]
  simp [Function.comp_def]

/-- What is left over begins with a tag that lacks its closing braces. When they follow, all that is
before them is in the tag. -/
theorem exists_close {x before after : Text} (h : Text.cut? openTag x = some (before, after))
    (hrest : ∀ before t r, firstTag? x = some (before, t, r) → ¬ t.IsEnded) :
    ∃ close, (close = closeTag ∨ close = closeRaw) ∧ ∀ k, Braceless k → ∃ t content,
      firstTag? (x ++ (openTag ++ (k ++ close))) = some (before, t, []) ∧
        t.content? = some content ∧ '{' ∈ content := by
  have happend (y : Text) : Text.cut? openTag (x ++ y) = some (before, after ++ y) :=
    Text.cut?_append_of_some h y
  cases hraw : rawTag? after with
  | some z => exact absurd trivial (hrest _ _ _ (firstTag?_of_rawTag? h hraw))
  | none =>
    cases hclose : Text.cut? closeTag after with
    | none =>
      refine ⟨closeTag, .inl rfl, fun k hk => ⟨tag (after ++ (openTag ++ k)), _, ?_, rfl, ?_⟩⟩
      · refine firstTag?_of_cut? (happend _) (rawTag?_of_cut? ?_) ?_
        · rw [closeRaw, cut?_append_open (by decide) (cut?_closeRaw_eq_none hclose) hk]
          rfl
        · rw [closeTag, cut?_append_open (by decide) hclose hk]
          simp [Text.cut?, Text.rest?]
      · simp [openTag]
    | some z =>
      obtain ⟨content, r⟩ := z
      have hended := hrest _ _ _ (firstTag?_of_cut? h hraw hclose)
      obtain ⟨content, rfl⟩ := List.head?_eq_some_iff.1 (not_not.1 hended)
      obtain ⟨z, rfl⟩ : ∃ z, after = '{' :: z := ⟨_, Text.eq_of_cut? hclose⟩
      have hz : Text.cut? closeRaw z = none := hraw
      refine ⟨closeRaw, .inr rfl, fun k hk => ⟨rawTag (z ++ (openTag ++ k)), _, ?_, rfl, ?_⟩⟩
      · refine firstTag?_of_rawTag? (happend _) ?_
        rw [List.cons_append, rawTag?, closeRaw, cut?_append_open (by decide) hz hk]
        simp [Text.cut?, Text.rest?]
      · simp [openTag]

end Token

end MaskedViews
