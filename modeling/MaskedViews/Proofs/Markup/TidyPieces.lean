import MaskedViews.Proofs.Markup.Matching
import MaskedViews.Proofs.Markup.Tidy

/-!
# Tidy pieces

A regular piece is tidy if its tag is, in case it is a start tag. Markup in tidy pieces settles piece by
piece: each text settles but for the blanks that it loses to what stands beside it, and everything else
settles by itself (`exists_settled`). So what is left after normalizing whitespace matches what was
there (`exists_normalized_matches`).
-/

namespace MaskedViews.Markup

open StartTag (ChangesTo)
open Text (Blanks)

/-- A regular piece that settles to a regular piece. -/
def Piece.IsTidy : Piece → Prop
  | .startTag t => t.IsTidy
  | .stray _ => False
  | p => p.IsRegular

variable {p q : Piece}

theorem Piece.IsTidy.regular (h : p.IsTidy) : p.IsRegular := by
  cases p with
  | startTag t => exact ⟨h.legible, h.regular⟩
  | text s => exact h
  | comment s => exact h
  | endTag s => exact h
  | stray s => exact h.elim

theorem Piece.IsTidy.stripped (h : p.IsTidy) (remove : Text → Bool) : (p.stripped remove).IsTidy := by
  cases p with
  | startTag t => exact StartTag.IsTidy.stripped h remove
  | text s => exact (Piece.IsRegular.stripped remove h.regular).2.2
  | comment s => exact h
  | endTag s => exact h
  | stray s => exact h.elim

theorem isTidy_stripped (remove : Text → Bool) {ps : List Piece} (h : ∀ p ∈ ps, p.IsTidy) :
    ∀ q ∈ ps.map (Piece.stripped remove), q.IsTidy := by
  intro q hq
  obtain ⟨p, hp, rfl⟩ := List.mem_map.1 hq
  exact (h p hp).stripped remove

/-- Changes one after the other are one change. -/
theorem Matches.comp {f g : Text → Text} {ps qs rs : List Piece} (h : Matches (ChangesTo f) ps qs)
    (h' : Matches (ChangesTo g) qs rs) : Matches (ChangesTo (g ∘ f)) ps rs :=
  Matches.trans (R := ChangesTo f) (S := ChangesTo g) (fun _ _ _ => ChangesTo.trans) h h'

/-- Stripped pieces match what was there, if the tags are related. -/
theorem matches_stripped {R : StartTag → StartTag → Prop} {remove : Text → Bool} {ps : List Piece}
    (h : ∀ p ∈ ps, p.IsRegular) (hR : ∀ t, .startTag t ∈ ps → R t (t.stripped remove)) :
    Matches R ps (ps.map (Piece.stripped remove)) := by
  refine List.forall₂_map_right_iff.2 (List.forall₂_same.2 fun p hp => ⟨?_, ?_⟩)
  · cases p with
    | startTag t => exact .startTag (hR t hp)
    | endTag s => exact .endTag fun _ _ => rfl
    | text s => exact .other rfl rfl
    | comment s => exact .other rfl rfl
    | stray s => exact .other rfl rfl
  · rw [← ((h p hp).stripped remove).2.1, Token.paths_strip]
    exact List.filter_subset_self _

/-! ### Settled pieces -/

/-- A piece and what settling may leave of it, whatever stands beside it. -/
inductive Piece.SettlesAs : Piece → Piece → Prop where
  /-- A text loses blanks at its ends. -/
  | text {s r b₁ b₂ : Text} (h₁ : Blanks b₁) (h₂ : Blanks b₂) (h : settle s = b₁ ++ (r ++ b₂)) :
    SettlesAs (.text s) (.text r)
  /-- A comment. -/
  | comment (s : Text) : SettlesAs (.comment s) (.comment (settle s))
  /-- A start tag. -/
  | startTag (t : StartTag) : SettlesAs (.startTag t) (.startTag t.settled)
  /-- An end tag. -/
  | endTag (s : Text) : SettlesAs (.endTag s) (.endTag (settle s))

/-- A tidy piece that is no text settles by itself, but for the gap behind it. -/
theorem Piece.SettlesAs.settle_append (h : p.SettlesAs q) (hp : p.IsTidy)
    (htext : ∀ s, p ≠ .text s) (y : Text) :
    settle (p.source ++ y) = q.source ++ afterGap (settle y) := by
  cases h with
  | text => exact absurd rfl (htext _)
  | comment s => exact settle_comment_append s y
  | startTag t =>
    have ht : t.IsTidy := hp
    exact StartTag.settle_source_append ht.isSolid ht.legible y
  | endTag s => exact settle_endTag_append s y

theorem Piece.SettlesAs.exists_settle_eq (h : p.SettlesAs q) (hp : p.IsTidy) :
    ∃ b₁ b₂, Blanks b₁ ∧ Blanks b₂ ∧ settle p.source = b₁ ++ (q.source ++ b₂) := by
  by_cases htext : ∃ s, p = .text s
  · obtain ⟨s, rfl⟩ := htext
    cases h with
    | text h₁ h₂ h => exact ⟨_, _, h₁, h₂, h⟩
  · refine ⟨[], [], .nil, .nil, ?_⟩
    have := h.settle_append hp (fun s hs => htext ⟨s, hs⟩) []
    rw [List.append_nil] at this
    rw [this]
    simp [afterGap]

/-- What is left of a tidy piece refers to the same placeholders. -/
theorem Piece.SettlesAs.paths (h : p.SettlesAs q) (hp : p.IsTidy) :
    Token.paths q.source = Token.paths p.source := by
  obtain ⟨b₁, b₂, h₁, h₂, heq⟩ := h.exists_settle_eq hp
  rw [← Token.paths_settle p.source, heq, Token.paths, Token.paths,
    Token.tags_braceless_append (Token.braceless_of_blanks h₁),
    Token.tags_append_braceless (Token.braceless_of_blanks h₂)]

/-- What is left of a tidy piece is tidy. -/
theorem Piece.SettlesAs.isTidy (h : p.SettlesAs q) (hp : p.IsTidy) : q.IsTidy := by
  cases h with
  | @text s r b₁ b₂ h₁ h₂ h =>
    obtain ⟨hlt, hwoven⟩ := hp.regular
    refine ⟨fun hmem => not_mem_settle (by decide) hlt ?_, .of_blanks h₁ h₂ (h ▸ hwoven.settle)⟩
    rw [h]
    exact List.mem_append_right _ (List.mem_append_left _ hmem)
  | comment s => exact ⟨fits_comment_settle hp.1, Token.braceless_settle hp.2⟩
  | startTag t => exact StartTag.IsTidy.settled hp
  | endTag s =>
    obtain ⟨⟨hlt, hgt⟩, hbraceless⟩ := hp.regular
    exact ⟨⟨not_mem_settle (by decide) hlt, not_mem_settle (by decide) hgt⟩,
      Token.braceless_settle hbraceless⟩

/-- What is left of a tidy piece matches it. -/
theorem Piece.SettlesAs.matches (h : p.SettlesAs q) (hp : p.IsTidy) :
    p.Matches (fun t u => u = t.settled) q := by
  refine ⟨?_, fun path hpath => (h.paths hp) ▸ hpath⟩
  cases h with
  | text => exact .other rfl rfl
  | comment s => exact .other rfl rfl
  | startTag t => exact .startTag rfl
  | endTag s => exact .endTag fun name hname => closes_settle hname s

/-! ### Blanks at the ends of pieces -/

/-- Pieces and what settling leaves of them, one by one. -/
def SettleAs (ps qs : List Piece) : Prop := List.Forall₂ Piece.SettlesAs ps qs

variable {ps qs : List Piece} {x : Text} {c : Char}

theorem SettleAs.isTidy (h : SettleAs ps qs) (hps : ∀ p ∈ ps, p.IsTidy) :
    ∀ q ∈ qs, q.IsTidy := by
  induction h with
  | nil => simp
  | cons hpq _ ih =>
    obtain ⟨hp, hps⟩ := List.forall_mem_cons.1 hps
    exact List.forall_mem_cons.2 ⟨hpq.isTidy hp, ih hps⟩

/-- A blank in front of settled pieces can go: it belongs to a text. -/
theorem SettleAs.exists_of_cons (h : SettleAs ps qs) (hc : Text.isBlank c = true)
    (hprinted : printed qs = c :: x) : ∃ rs, printed rs = x ∧ SettleAs ps rs := by
  induction h with
  | nil => cases hprinted
  | @cons p q ps qs hpq hps ih =>
    have hfirst (y : Text) (hq : q.source = '<' :: y) : False := by
      rw [printed_cons, hq, List.cons_append, List.cons.injEq] at hprinted
      rw [← hprinted.1] at hc
      exact absurd hc (by decide)
    cases hpq with
    | @text s r b₁ b₂ h₁ h₂ h =>
      cases r with
      | nil =>
        obtain ⟨rs, rfl, hrs⟩ := ih hprinted
        exact ⟨.text [] :: rs, rfl, .cons (.text h₁ h₂ h) hrs⟩
      | cons d r =>
        rw [printed_cons, Piece.source, List.cons_append, List.cons.injEq] at hprinted
        obtain ⟨rfl, rfl⟩ := hprinted
        have hfront : Blanks (b₁ ++ [d]) := h₁.append (by simpa [Blanks] using hc)
        exact ⟨.text r :: qs, rfl, .cons (.text hfront h₂ (by simp [h])) hps⟩
    | comment s => exact (hfirst _ rfl).elim
    | startTag t => exact (hfirst _ rfl).elim
    | endTag s => exact (hfirst _ rfl).elim

/-- So can a blank behind them. -/
theorem SettleAs.exists_of_concat (h : SettleAs ps qs) (hc : Text.isBlank c = true)
    (hprinted : printed qs = x ++ [c]) : ∃ rs, printed rs = x ∧ SettleAs ps rs := by
  induction h generalizing x with
  | nil => simp at hprinted
  | @cons p q ps qs hpq hps ih =>
    rw [printed_cons] at hprinted
    rcases List.eq_nil_or_concat (printed qs) with hnil | ⟨y, d, hy⟩
    · rw [hnil, List.append_nil] at hprinted
      have hlast (y : Text) (hq : q.source = y ++ ['>']) : False := by
        rw [hq] at hprinted
        obtain ⟨-, rfl⟩ := List.concat_inj.1 (by simpa using hprinted)
        exact absurd hc (by decide)
      cases hpq with
      | @text s r b₁ b₂ h₁ h₂ h =>
        rw [Piece.source] at hprinted
        subst hprinted
        have hback : Blanks (c :: b₂) := by
          intro d hd
          rcases List.mem_cons.1 hd with rfl | hd
          · exact hc
          · exact h₂ d hd
        refine ⟨.text x :: qs, by rw [printed_cons, hnil, List.append_nil]; rfl,
          .cons (.text h₁ hback (by simp [h])) hps⟩
      | comment s =>
        refine (hlast (commentOpen ++ (settle s ++ ['-', '-'])) ?_).elim
        simp [Piece.source, commentClose]
      | startTag t =>
        obtain ⟨y, hy⟩ := StartTag.exists_source_eq t.settled
        exact (hlast y hy).elim
      | endTag s => exact (hlast ('<' :: '/' :: settle s) rfl).elim
    · rw [List.concat_eq_append] at hy
      rw [hy, ← List.append_assoc] at hprinted
      obtain ⟨rfl, rfl⟩ : q.source ++ y = x ∧ d = c := by
        simpa using List.append_inj' hprinted rfl
      obtain ⟨rs, rfl, hrs⟩ := ih hy
      exact ⟨q :: rs, by simp, .cons hpq hrs⟩

/-- Settled pieces can do without the blanks at their ends. -/
theorem SettleAs.exists_of_blanks (h : SettleAs ps qs) {b₁ b₂ : Text} (h₁ : Blanks b₁)
    (h₂ : Blanks b₂) (hprinted : printed qs = b₁ ++ (x ++ b₂)) :
    ∃ rs, printed rs = x ∧ SettleAs ps rs := by
  induction b₁ generalizing qs with
  | cons c b₁ ih =>
    obtain ⟨rs, hrs, hsettle⟩ := h.exists_of_cons (h₁ c (by simp)) hprinted
    exact ih hsettle (fun d hd => h₁ d (List.mem_cons_of_mem c hd)) hrs
  | nil =>
    induction b₂ using List.reverseRecOn generalizing qs with
    | nil => exact ⟨qs, by simpa using hprinted, h⟩
    | append_singleton b₂ c ih =>
      obtain ⟨rs, hrs, hsettle⟩ := h.exists_of_concat (x := x ++ b₂) (h₂ c (by simp))
        (by simpa using hprinted)
      exact ih (fun d hd => h₂ d (by simp [hd])) hsettle (by simpa using hrs)

/-! ### Settling piece by piece -/

theorem spaced_append {s : Text} (hs : s ≠ []) (t : Text) : spaced (s ++ t) = spaced s ++ t := by
  obtain ⟨c, s, rfl⟩ := List.exists_cons_of_ne_nil hs
  by_cases hc : c = ' '
  · subst hc
    rfl
  · rw [spaced_of_ne_head (by simpa using hc), spaced_of_ne_head (by simpa using hc)]
    rfl

theorem exists_spaced_eq {b : Text} (hb : Blanks b) : ∃ b', Blanks b' ∧ spaced b = ' ' :: b' := by
  by_cases hhead : b.head? = some ' '
  · obtain ⟨b', rfl⟩ := List.head?_eq_some_iff.1 hhead
    exact ⟨b', fun c hc => hb c (List.mem_cons_of_mem _ hc), rfl⟩
  · exact ⟨b, hb, spaced_of_ne_head hhead⟩

theorem abut_of_no_gap {s : Text} (c : Char) (h : c = '>' → ∀ y, s ≠ ' ' :: '<' :: y) :
    abut c s = c :: s := by
  rw [abut]
  intro y hc hs
  exact h hc y hs

/-- **A text settles by itself**, but for blanks at its end, and for a space behind it that is a gap. -/
theorem exists_foldr_push {s : Text} (hs : '<' ∉ s) (z : Text) :
    ∃ r b w, Blanks b ∧ settle s = r ++ b ∧ s.foldr push z = r ++ w ∧
      (w = z ∨ r ≠ [] ∧ z = ' ' :: w) := by
  induction s with
  | nil => exact ⟨[], [], z, .nil, rfl, rfl, Or.inl rfl⟩
  | cons c s ih =>
    obtain ⟨r, b, w, hb, hr, hfold, hw⟩ := ih fun hmem => hs (List.mem_cons_of_mem c hmem)
    have hlt : '<' ∉ r ++ b := hr ▸ not_mem_settle (by decide) fun hmem => hs (by simp [hmem])
    rw [settle_cons, hr, List.foldr_cons, hfold]
    cases hblank : Text.isBlank c with
    | true =>
      simp only [push_of_isBlank hblank]
      by_cases hnil : r = []
      · subst hnil
        obtain rfl : w = z := hw.resolve_right fun h => h.1 rfl
        obtain ⟨b', hb', hspaced⟩ := exists_spaced_eq hb
        by_cases hhead : w.head? = some ' '
        · refine ⟨[], ' ' :: b', w, fun d hd => ?_, hspaced, spaced_of_head hhead, Or.inl rfl⟩
          rcases List.mem_cons.1 hd with rfl | hd
          · decide
          · exact hb' d hd
        · exact ⟨[' '], b', w, hb', hspaced, spaced_of_ne_head hhead, Or.inl rfl⟩
      · refine ⟨spaced r, b, w, hb, spaced_append hnil b, spaced_append hnil w,
          hw.imp_right fun h => ⟨fun hspaced => ?_, h.2⟩⟩
        have := head?_spaced r
        rw [hspaced] at this
        cases this
    | false =>
      simp only [push_of_not_isBlank hblank]
      have hsettle : abut c (r ++ b) = c :: (r ++ b) :=
        abut_of_no_gap c fun _ y hy => hlt (by simp [hy])
      by_cases hgap : c = '>' ∧ ∃ y, r ++ w = ' ' :: '<' :: y
      · obtain ⟨rfl, y, hy⟩ := hgap
        rw [hsettle, hy]
        -- the space of the gap is behind the text, or it is all that there was of it
        match r, hy, hw, hlt with
        | [], hy, hw, _ =>
          obtain rfl : w = z := hw.resolve_right fun h => h.1 rfl
          exact ⟨['>'], b, '<' :: y, hb, rfl, rfl, Or.inr ⟨by simp, hy⟩⟩
        | [d], hy, hw, _ =>
          obtain ⟨rfl, rfl⟩ := List.cons.inj hy
          refine ⟨['>'], ' ' :: b, _, fun d hd => ?_, rfl, rfl, hw.imp_right fun h => ⟨by simp, h.2⟩⟩
          rcases List.mem_cons.1 hd with rfl | hd
          · decide
          · exact hb d hd
        | d :: e :: r, hy, _, hlt =>
          simp only [List.cons_append, List.cons.injEq] at hy
          exact absurd (by simp [hy.2.1]) hlt
      · have hfold : abut c (r ++ w) = c :: (r ++ w) :=
          abut_of_no_gap c fun hc y hy => hgap ⟨hc, y, hy⟩
        exact ⟨c :: r, b, w, hb, hsettle, hfold, hw.imp_right fun h => ⟨by simp, h.2⟩⟩

/-- Settled pieces can do without the space of a gap in front of them. -/
theorem SettleAs.exists_afterGap (h : SettleAs ps qs) :
    ∃ rs, printed rs = afterGap (printed qs) ∧ SettleAs ps rs := by
  unfold afterGap
  split
  · next y hy => exact h.exists_of_cons (by decide) hy
  · exact ⟨qs, rfl, h⟩

/-- **Tidy pieces settle one by one.** -/
theorem exists_settled (h : ∀ p ∈ ps, p.IsTidy) :
    ∃ qs, printed qs = settle (printed ps) ∧ SettleAs ps qs := by
  induction ps with
  | nil => exact ⟨[], rfl, .nil⟩
  | cons p ps ih =>
    obtain ⟨qs, hqs, hsettle⟩ := ih fun q hq => h q (List.mem_cons_of_mem p hq)
    have hp := h p List.mem_cons_self
    have hself {q : Piece} (hpq : p.SettlesAs q) (htext : ∀ s, p ≠ .text s) :
        ∃ rs, printed rs = settle (printed (p :: ps)) ∧ SettleAs (p :: ps) rs := by
      obtain ⟨rs, hrs, hsettle'⟩ := hsettle.exists_afterGap
      refine ⟨q :: rs, ?_, .cons hpq hsettle'⟩
      rw [printed_cons, printed_cons, hpq.settle_append hp htext, hrs, hqs]
    cases p with
    | text s =>
      obtain ⟨r, b, w, hb, hr, hfold, hw⟩ := exists_foldr_push hp.1 (settle (printed ps))
      have htext : Piece.SettlesAs (.text s) (.text r) := .text .nil hb hr
      have hprinted : settle (printed (.text s :: ps)) = r ++ w := by
        rw [printed_cons, settle_append]
        exact hfold
      rw [hprinted]
      rcases hw with rfl | ⟨-, hw⟩
      · exact ⟨.text r :: qs, by rw [printed_cons, hqs]; rfl, .cons htext hsettle⟩
      · obtain ⟨rs, rfl, hrs⟩ := hsettle.exists_of_cons (by decide) (hqs.trans hw)
        exact ⟨.text r :: rs, rfl, .cons htext hrs⟩
    | comment s => exact hself (.comment s) (by simp)
    | startTag t => exact hself (.startTag t) (by simp)
    | endTag s => exact hself (.endTag s) (by simp)
    | stray s => exact hp.elim

/-- **What is left of tidy pieces after normalizing whitespace matches them.** -/
theorem exists_normalized_matches (h : ∀ p ∈ ps, p.IsTidy) :
    ∃ qs, (∀ q ∈ qs, q.IsTidy) ∧ printed qs = normalizeWhitespace (printed ps) ∧
      Matches (fun t u => u = t.settled) ps qs := by
  obtain ⟨rs, hrs, hsettle⟩ := exists_settled h
  obtain ⟨b₁, b₂, h₁, h₂, hblanks⟩ := Markup.exists_settle_eq (printed ps)
  obtain ⟨qs, hqs, hsettle⟩ := hsettle.exists_of_blanks h₁ h₂ (hrs.trans hblanks)
  have hboth : List.Forall₂ (fun p q => p.IsTidy ∧ p.SettlesAs q) ps qs :=
    (List.forall₂_and_left _ _).2 ⟨h, hsettle⟩
  exact ⟨qs, hsettle.isTidy h, hqs, hboth.imp fun p q hpq => hpq.2.matches hpq.1⟩

end MaskedViews.Markup
