import MaskedViews.Proofs.Markup.Elements
import MaskedViews.Proofs.Markup.Plain
import MaskedViews.Proofs.Text.Cutting

/-!
# Pieces in settled markup

Markup in solid pieces settles piece by piece: its tags become their settled forms, in the same order
and with the same elements around them (`exists_normalized`). What is between the tags may be divided
otherwise afterwards, since a gap between two tags is gone.
-/

namespace MaskedViews.Markup

namespace Piece

/-- Whether a piece is a start tag or an end tag. -/
def isTag : Piece → Bool
  | startTag _ => true
  | endTag _ => true
  | _ => false

/-- What shuts a stray `<` also where blanks are settled: firm characters, or one behind blanks. -/
def ShutsFirmly (h : Text) : Prop :=
  Shut h ∧ ((∀ c ∈ h, isFirm c = true) ∨
    ∃ b c, h = b ++ [c] ∧ b ≠ [] ∧ Text.Blanks b ∧ isFirm c = true)

/-- A piece that settles to a piece of its kind. -/
def IsPlain : Piece → Prop
  | text s => '<' ∉ s
  | comment s => (comment s).Fits
  | startTag t => t.Legible ∧ t.IsPlain
  | endTag s => (endTag s).Fits
  | stray s => '<' ∉ s ∧ ∃ h r, s = h ++ r ∧ ShutsFirmly h

/-- A piece that settles to a piece of its kind, with a solid tag if it is a start tag. -/
def IsSolid : Piece → Prop
  | startTag t => t.Legible ∧ t.IsSolid
  | p => p.IsPlain

theorem IsPlain.solid {p : Piece} (h : p.IsPlain) : p.IsSolid := by
  cases p with
  | startTag t => exact ⟨h.1, h.2.solid⟩
  | text s => exact h
  | comment s => exact h
  | endTag s => exact h
  | stray s => exact h

/-- A piece that fits, and does not end in a blank if it is a stray `<`. -/
def IsSettled (p : Piece) : Prop :=
  p.Fits ∧ ∀ s, p = stray s → ∃ x c, s = x ++ [c] ∧ Text.isBlank c = false

end Piece

/-- A name that the settled form of an end tag names if the end tag does. -/
def IsFirmName (name : Text) : Prop := ∀ c : Char, c.toLower ∈ Text.lower name → isFirm c = true

/-- The second pieces have the tags of the first in their settled forms. -/
inductive SettlesTo : List Piece → List Piece → Prop where
  /-- No pieces. -/
  | nil : SettlesTo [] []
  /-- A piece that is no tag, on the one side. -/
  | left {p : Piece} {ps qs : List Piece} (hp : p.isTag = false) (h : SettlesTo ps qs) :
    SettlesTo (p :: ps) qs
  /-- A piece that is no tag, on the other. -/
  | right {q : Piece} {ps qs : List Piece} (hq : q.isTag = false) (h : SettlesTo ps qs) :
    SettlesTo ps (q :: qs)
  /-- A start tag. -/
  | startTag {t : StartTag} {ps qs : List Piece} (ht : t.Legible) (h : SettlesTo ps qs) :
    SettlesTo (.startTag t :: ps) (.startTag t.settled :: qs)
  /-- An end tag that ends the same elements. -/
  | endTag {s r : Text} {ps qs : List Piece}
    (hr : ∀ name, IsFirmName name → closes name r = closes name s) (h : SettlesTo ps qs) :
    SettlesTo (.endTag s :: ps) (.endTag r :: qs)

theorem SettlesTo.of_cons {ps qs : List Piece} {q : Piece} (hq : q.isTag = false)
    (h : SettlesTo ps (q :: qs)) : SettlesTo ps qs := by
  generalize hx : q :: qs = xs at h
  induction h with
  | nil => cases hx
  | left hp _ ih => exact .left hp (ih hx)
  | right _ h =>
    simp only [List.cons.injEq] at hx
    rwa [hx.2]
  | startTag _ _ =>
    simp only [List.cons.injEq] at hx
    rw [hx.1] at hq
    cases hq
  | endTag _ _ =>
    simp only [List.cons.injEq] at hx
    rw [hx.1] at hq
    cases hq

/-! ### The same elements -/

theorem depthAfter?_of_not_isTag {name : Text} {depth : Nat} {p : Piece} (hp : p.isTag = false) :
    depthAfter? name depth p = some depth := by
  cases p with
  | text s => rfl
  | comment s => rfl
  | startTag t => cases hp
  | endTag s => cases hp
  | stray s => rfl

theorem isSome_splitPieces_of_not_isTag {name : Text} {depth : Nat} {p : Piece} (ps : List Piece)
    (hp : p.isTag = false) :
    (splitPieces name depth (p :: ps)).isSome = (splitPieces name depth ps).isSome := by
  rw [splitPieces, depthAfter?_of_not_isTag hp]
  exact Option.isSome_map

/-- An end tag is there if it was there before. -/
theorem SettlesTo.isSome_splitPieces {name : Text} (hname : IsFirmName name) {ps qs : List Piece}
    (h : SettlesTo ps qs) (depth : Nat) :
    (splitPieces name depth qs).isSome = (splitPieces name depth ps).isSome := by
  induction h generalizing depth with
  | nil => rfl
  | left hp _ ih => rw [ih, isSome_splitPieces_of_not_isTag _ hp]
  | right hq _ ih => rw [isSome_splitPieces_of_not_isTag _ hq, ih]
  | startTag _ _ ih => exact isSome_splitPieces_cons rfl ih
  | endTag hr _ ih =>
    refine isSome_splitPieces_cons ?_ ih
    rw [depthAfter?, depthAfter?, hr name hname]

/-! ### Names -/

theorem isNameChar_of_isUpper {c : Char} (h : c.isUpper = true) :
    StartTag.isNameChar c = true := by
  have halpha : c.isAlpha = true := Bool.or_eq_true_iff.2 (.inl h)
  simp [StartTag.isNameChar, Char.isAlphanum, halpha]

theorem toNat_lt_of_isNameChar {c : Char} (h : StartTag.isNameChar c = true) : c.toNat < 128 := by
  have hrange {a b : UInt32} (hab : (decide (a ≤ c.val) && decide (c.val ≤ b)) = true)
      (hb : b.toNat < 128) : c.toNat < 128 :=
    Nat.lt_of_le_of_lt
      (UInt32.le_iff_toNat_le.1 (of_decide_eq_true (Bool.and_eq_true_iff.1 hab).2)) hb
  simp only [StartTag.isNameChar, Char.isAlphanum, Bool.or_eq_true, decide_eq_true_eq] at h
  rcases h with (h | h) | rfl
  · rcases Bool.or_eq_true_iff.1 h with h | h
    · exact Nat.lt_of_le_of_lt (UInt32.le_iff_toNat_le.1 (isUpper_iff.1 h).2) (by decide)
    · exact hrange h (by decide)
  · exact hrange h (by decide)
  · decide

theorem isNameChar_toLower {c : Char} (h : StartTag.isNameChar c = true) :
    StartTag.isNameChar c.toLower = true := by
  have hcodes : ∀ n < 128, StartTag.isNameChar (Char.ofNat n) = true →
      StartTag.isNameChar (Char.ofNat n).toLower = true := by decide +kernel
  have := hcodes c.toNat (toNat_lt_of_isNameChar h)
  rw [Char.ofNat_toNat] at this
  exact this h

theorem isNameChar_of_toLower {c : Char} (h : StartTag.isNameChar c.toLower = true) :
    StartTag.isNameChar c = true := by
  by_cases hc : c.isUpper = true
  · exact isNameChar_of_isUpper hc
  · rwa [toLower_of_not_isUpper hc] at h

/-- The name of a tag is firm. -/
theorem isFirmName_of_legible {t : StartTag} (h : t.Legible) : IsFirmName t.name := by
  intro c hc
  obtain ⟨n, hn, hlower⟩ := List.mem_map.1 hc
  obtain ⟨d, hd, rfl⟩ := List.mem_map.1 hn
  have := isNameChar_toLower (isNameChar_toLower (h.written d hd))
  rw [hlower] at this
  exact StartTag.isFirm_of_isNameChar (isNameChar_of_toLower this)

/-- Whether a text is blank is not changed by settling. -/
theorem allBlank_settle (s : Text) : Text.allBlank (settle s) = Text.allBlank s := by
  rw [Bool.eq_iff_iff, Text.allBlank, Text.allBlank, List.all_eq_true, List.all_eq_true]
  constructor
  · intro h c hc
    by_contra hblank
    exact hblank (h c (mem_settle_of_mem (by simpa using hblank) hc))
  · intro h c hc
    rcases mem_settle hc with rfl | hc
    · decide
    · exact h c hc

/-- An end tag ends the same elements when it is settled. -/
theorem closes_settle {name : Text} (hname : IsFirmName name) (s : Text) :
    closes name (settle s) = closes name s := by
  rw [closes, closes]
  induction name generalizing s with
  | nil => exact allBlank_settle s
  | cons p name ih =>
    have ih := ih fun c hc => hname c (List.mem_cons_of_mem _ hc)
    have hfirm {c : Char} (h : p.toLower = c.toLower) : isFirm c = true :=
      hname c (by simp [Text.lower, h])
    cases s with
    | nil => rfl
    | cons c s =>
      by_cases hc : p.toLower = c.toLower
      · rw [settle_cons_of_isFirm (hfirm hc), Text.restIgnoringCase?, Text.restIgnoringCase?,
          if_pos hc, if_pos hc, ih]
      · obtain ⟨z, hz⟩ := List.head?_eq_some_iff.1 (head?_settle_cons c s)
        rw [hz, Text.restIgnoringCase?, Text.restIgnoringCase?, if_neg hc, if_neg]
        -- a name has no blank in it
        split
        · intro h
          exact absurd (hfirm h) (by decide)
        · exact hc

/-! ### The same tags -/

/-- **The tags visited are the settled ones.** -/
theorem SettlesTo.tags {ps qs : List Piece} (h : SettlesTo ps qs) (names : List Text) :
    (visitsOf names qs).map Visit.tag =
      ((visitsOf names ps).map Visit.tag).map StartTag.settled := by
  have hskip {p : Piece} (hp : p.isTag = false) (rest : List Piece) :
      visitsOf names (p :: rest) = visitsOf names rest := by
    show visitsOf names ([p] ++ rest) = visitsOf names rest
    refine visitsOf_append names (fun q hq => ?_) rest
    rw [List.mem_singleton.1 hq]
    cases p with
    | startTag t => cases hp
    | text s => rfl
    | comment s => rfl
    | endTag s => rfl
    | stray s => rfl
  induction h with
  | nil => rfl
  | left hp _ ih => rw [hskip hp, ih]
  | right hq _ ih => rw [hskip hq, ih]
  | @startTag t ps qs ht h ih =>
    have hvisit : ((visit? names t.settled qs).map Visit.tag).toList =
        ((visit? names t ps).map Visit.tag).toList.map StartTag.settled := by
      have hvoid : t.settled.isVoid = t.isVoid := rfl
      rw [tag_visit?, tag_visit?, hvoid, StartTag.name_settled,
        h.isSome_splitPieces (isFirmName_of_legible ht)]
      split <;> rfl
    rw [visitsOf, visitsOf, List.map_append, List.map_append, List.map_append, ih,
      ← Option.toList_map, ← Option.toList_map, hvisit]
  | endTag _ _ ih => exact ih

/-! ### Pieces for settled markup -/

/-- Other pieces that have the tags that these have. -/
def SameTags (qs rs : List Piece) : Prop := ∀ ps, SettlesTo ps qs → SettlesTo ps rs

theorem SameTags.cons {qs rs : List Piece} (h : SameTags qs rs) (q : Piece) :
    SameTags (q :: qs) (q :: rs) := by
  intro ps hps
  generalize hx : q :: qs = xs at hps
  induction hps with
  | nil => cases hx
  | left hp _ ih => exact .left hp (ih hx)
  | right hq hps =>
    obtain ⟨rfl, rfl⟩ := List.cons.inj hx
    exact .right hq (h _ hps)
  | startTag ht hps =>
    obtain ⟨rfl, rfl⟩ := List.cons.inj hx
    exact .startTag ht (h _ hps)
  | endTag hr hps =>
    obtain ⟨rfl, rfl⟩ := List.cons.inj hx
    exact .endTag hr (h _ hps)

/-- Markup in settled pieces that have the tags that these have. -/
def Redivided (qs : List Piece) (x : Text) : Prop :=
  ∃ rs : List Piece, (∀ r ∈ rs, r.IsSettled) ∧ printed rs = x ∧ SameTags qs rs

theorem isSettled_text {s : Text} (h : '<' ∉ s) : (Piece.text s).IsSettled :=
  ⟨h, fun _ h => by cases h⟩

theorem Redivided.refl {qs : List Piece} (h : ∀ q ∈ qs, q.IsSettled) : Redivided qs (printed qs) :=
  ⟨qs, h, rfl, fun _ h => h⟩

/-- More pieces may stand in front. -/
theorem Redivided.cons {qs : List Piece} {q : Piece} {x : Text} (h : Redivided qs x) (hq : q.IsSettled) :
    Redivided (q :: qs) (q.source ++ x) := by
  obtain ⟨rs, hrs, rfl, htags⟩ := h
  refine ⟨q :: rs, fun r hr => ?_, rfl, htags.cons q⟩
  rcases List.mem_cons.1 hr with rfl | hr
  · exact hq
  · exact hrs r hr

/-- A character other than `<` may stand in front. -/
theorem Redivided.push {qs : List Piece} {c : Char} {x : Text} (h : Redivided qs x) (hc : c ≠ '<') :
    Redivided qs (c :: x) := by
  obtain ⟨rs, hrs, rfl, htags⟩ := h
  refine ⟨.text [c] :: rs, fun r hr => ?_, rfl, fun ps hps => .right rfl (htags ps hps)⟩
  rcases List.mem_cons.1 hr with rfl | hr
  · exact isSettled_text (by simpa using Ne.symm hc)
  · exact hrs r hr

/-- A first character other than `<` may go. -/
theorem Redivided.tail {qs : List Piece} (h : ∀ q ∈ qs, q.IsSettled) {c : Char} {x : Text}
    (hc : c ≠ '<') (hx : printed qs = c :: x) : Redivided qs x := by
  induction qs with
  | nil => cases hx
  | cons q qs ih =>
    have hqs : ∀ q ∈ qs, q.IsSettled := fun r hr => h r (List.mem_cons_of_mem q hr)
    rw [printed_cons] at hx
    cases q with
    | text s =>
      cases s with
      | nil =>
        obtain ⟨rs, hrs, hprinted, htags⟩ := ih hqs hx
        exact ⟨rs, hrs, hprinted, fun ps hps => htags ps (hps.of_cons rfl)⟩
      | cons d s =>
        obtain ⟨rfl, rfl⟩ := List.cons.inj hx
        have hs : '<' ∉ s := fun hmem => (h (.text (d :: s)) (by simp)).1 (List.mem_cons_of_mem d hmem)
        refine ⟨.text s :: qs, fun r hr => ?_, rfl, fun ps hps => .right rfl (hps.of_cons rfl)⟩
        rcases List.mem_cons.1 hr with rfl | hr
        · exact isSettled_text hs
        · exact hqs r hr
    | comment s => exact absurd (List.cons.inj hx).1.symm hc
    | startTag t => exact absurd (List.cons.inj hx).1.symm hc
    | endTag s => exact absurd (List.cons.inj hx).1.symm hc
    | stray s => exact absurd (List.cons.inj hx).1.symm hc

theorem Redivided.tail_of_turns {qs : List Piece} {c : Char} {x : Text} (h : Redivided qs (c :: x))
    (hc : c ≠ '<') : Redivided qs x := by
  obtain ⟨rs, hrs, hprinted, htags⟩ := h
  obtain ⟨rs', hrs', hprinted', htags'⟩ := Redivided.tail hrs hc hprinted
  exact ⟨rs', hrs', hprinted', fun ps hps => htags' ps (htags ps hps)⟩

/-- The space of a gap may go. -/
theorem Redivided.afterGap {qs : List Piece} {x : Text} (h : Redivided qs x) : Redivided qs (afterGap x) := by
  unfold Markup.afterGap
  split
  · exact h.tail_of_turns (by decide)
  · exact h

/-- Characters other than `<` may be put in front. -/
theorem Redivided.foldr_push {qs : List Piece} {x s : Text} (h : Redivided qs x) (hs : '<' ∉ s) :
    Redivided qs (s.foldr Markup.push x) := by
  induction s with
  | nil => exact h
  | cons c s ih =>
    simp only [List.mem_cons, not_or] at hs
    have ih := ih hs.2
    rw [List.foldr_cons]
    by_cases hc : Text.isBlank c = true
    · rw [push_of_isBlank hc]
      by_cases hspace : (s.foldr Markup.push x).head? = some ' '
      · rwa [spaced_of_head hspace]
      · rw [spaced_of_ne_head hspace]
        exact ih.push (by decide)
    · rw [push_of_not_isBlank (by simpa using hc)]
      by_cases hgt : c = '>'
      · rw [hgt, abut_gt]
        exact ih.afterGap.push (by decide)
      · rw [abut_of_ne hgt]
        exact ih.push (Ne.symm hs.1)

/-- A last blank may go, since only text ends in one. -/
theorem Redivided.dropLast {qs : List Piece} (h : ∀ q ∈ qs, q.IsSettled) {c : Char} {x : Text}
    (hc : Text.isBlank c = true) (hx : printed qs = x ++ [c]) : Redivided qs x := by
  have hgt {s y : Text} (hs : s ++ ['>'] = y ++ [c]) : False := by
    have := (List.append_inj' hs rfl).2
    rw [← List.singleton_inj.1 this] at hc
    exact absurd hc (by decide)
  induction qs generalizing x with
  | nil => simp at hx
  | cons q qs ih =>
    have hqs : ∀ q ∈ qs, q.IsSettled := fun r hr => h r (List.mem_cons_of_mem q hr)
    have hq := h q (by simp)
    rw [printed_cons] at hx
    by_cases hnil : printed qs = []
    · rw [hnil, List.append_nil] at hx
      cases q with
      | text s =>
        have hs : '<' ∉ x := by
          intro hmem
          refine hq.1 ?_
          rw [show s = x ++ [c] from hx]
          exact List.mem_append_left _ hmem
        refine ⟨.text x :: qs, fun r hr => ?_, by simp [Piece.source, hnil],
          fun ps hps => .right rfl (hps.of_cons rfl)⟩
        rcases List.mem_cons.1 hr with rfl | hr
        · exact isSettled_text hs
        · exact hqs r hr
      | comment s =>
        refine (hgt (s := commentOpen ++ (s ++ ['-', '-'])) (y := x) ?_).elim
        rw [← hx]
        simp [Piece.source, commentClose]
      | startTag t =>
        obtain ⟨s, hs⟩ := StartTag.exists_source_eq t
        exact (hgt (hs.symm.trans hx)).elim
      | endTag s => exact (hgt (s := '<' :: '/' :: s) hx).elim
      | stray s =>
        obtain ⟨y, d, rfl, hd⟩ := hq.2 s rfl
        have hlast : ('<' :: y) ++ [d] = x ++ [c] := hx
        have := (List.append_inj' hlast rfl).2
        rw [List.singleton_inj.1 this] at hd
        rw [hd] at hc
        cases hc
    · obtain ⟨y, d, hy⟩ := List.eq_nil_or_concat (printed qs) |>.resolve_left hnil
      rw [List.concat_eq_append] at hy
      rw [hy, ← List.append_assoc] at hx
      obtain ⟨rfl, hd⟩ := List.append_inj' hx rfl
      obtain rfl := List.singleton_inj.1 hd
      exact (ih hqs hy).cons hq

/-- Blanks at the ends may go. -/
theorem Redivided.of_blanks {qs : List Piece} {b₁ x b₂ : Text} (h : Redivided qs (b₁ ++ (x ++ b₂)))
    (h₁ : Text.Blanks b₁) (h₂ : Text.Blanks b₂) : Redivided qs x := by
  have hstart : Redivided qs (x ++ b₂) := by
    induction b₁ with
    | nil => exact h
    | cons c b₁ ih =>
      refine ih (h.tail_of_turns ?_) fun d hd => h₁ d (List.mem_cons_of_mem c hd)
      rintro rfl
      exact absurd (h₁ '<' (by simp)) (by decide)
  clear h
  induction b₂ using List.reverseRecOn with
  | nil => simpa using hstart
  | append_singleton b₂ c ih =>
    obtain ⟨rs, hrs, hprinted, htags⟩ := hstart
    rw [← List.append_assoc] at hprinted
    obtain ⟨rs', hrs', hprinted', htags'⟩ := Redivided.dropLast hrs (h₂ c (by simp)) hprinted
    exact ih (fun d hd => h₂ d (List.mem_append_left _ hd))
      ⟨rs', hrs', hprinted', fun ps hps => htags' ps (htags ps hps)⟩

/-! ### Settling piece by piece -/

theorem eq_gt_of_settle {s x : Text} (h : settle s = '>' :: x) :
    ∃ s', s = '>' :: s' ∧ x = afterGap (settle s') := by
  cases s with
  | nil => cases h
  | cons c s =>
    have hhead := head?_settle_cons c s
    rw [h, List.head?_cons, Option.some.injEq] at hhead
    have hc : c = '>' := by
      split at hhead
      · cases hhead
      · exact hhead.symm
    subst hc
    rw [settle_cons, push_of_not_isBlank (by decide), abut_gt] at h
    exact ⟨s, rfl, (List.cons.inj h).2.symm⟩

theorem settle_append_commentClose (s y : Text) :
    settle (s ++ (commentClose ++ y)) =
      settle s ++ (commentClose ++ afterGap (settle y)) := by
  rw [commentClose, List.cons_append, settle_append_cons (by decide), List.cons_append,
    settle_cons_of_isFirm (by decide), List.cons_append, List.nil_append, settle_cons,
    push_of_not_isBlank (by decide), abut_gt]
  rfl

/-- What is inside a comment does not end it when it is settled. -/
theorem fits_comment_settle {s : Text} (h : (Piece.comment s).Fits) :
    (Piece.comment (settle s)).Fits := by
  obtain ⟨b, r, hcut, -⟩ := Text.exists_cut? '-' ['-', '>'] (settle s) []
  rw [List.append_nil] at hcut
  have hcut : Text.cut? commentClose (settle s ++ commentClose) = some (b, r) := hcut
  have heq := Text.eq_of_cut? hcut
  -- what ends the settled comment first stands in the comment too
  have hsettle : settle (s ++ commentClose) = b ++ '-' :: ('-' :: '>' :: r) := by
    have := settle_append_commentClose s []
    rw [List.append_nil] at this
    rw [this]
    exact heq
  obtain ⟨b', y, hb', -, hy⟩ := exists_eq_of_settle (by decide) hsettle
  obtain ⟨x, z, rfl, hx, hz⟩ := exists_eq_of_settle (x := []) (by decide) hy
  obtain rfl := settle_eq_nil_iff.1 hx
  obtain ⟨r', rfl, hr⟩ := eq_gt_of_settle hz
  obtain ⟨b₀, r₀, hfirst, hlength⟩ := Text.exists_cut? '-' ['-', '>'] b' r'
  have hs : s ++ commentClose = b' ++ ('-' :: ['-', '>'] ++ r') := hb'
  rw [← hs] at hfirst
  have hfirst : Text.cut? commentClose (s ++ commentClose) = some (b₀, r₀) := hfirst
  have h : Text.cut? commentClose (s ++ commentClose) = some (s, []) := h
  rw [h] at hfirst
  simp only [Option.some.injEq, Prod.mk.injEq] at hfirst
  obtain ⟨rfl, -⟩ := hfirst
  have hr' : r' = [] := by
    have := congrArg List.length hs
    simp only [List.length_append, List.length_cons, commentClose] at this
    exact List.length_eq_zero_iff.1 (by omega)
  subst hr'
  have hr : r = [] := hr
  subst hr
  rw [List.append_nil] at heq
  rw [← List.append_cancel_right heq] at hcut
  exact hcut

theorem settle_comment_append (s y : Text) :
    settle ((Piece.comment s).source ++ y) =
      (Piece.comment (settle s)).source ++ afterGap (settle y) := by
  have hopen : (Piece.comment s).source ++ y = '<' :: (['!', '-', '-'] ++ (s ++ (commentClose ++ y))) := by
    simp [Piece.source, commentOpen]
  rw [hopen, settle_cons_lt, settle_append_of_isFirm (by decide), settle_append_commentClose]
  simp [Piece.source, commentOpen]

theorem settle_endTag_append (s y : Text) :
    settle ((Piece.endTag s).source ++ y) =
      (Piece.endTag (settle s)).source ++ afterGap (settle y) := by
  have hopen : (Piece.endTag s).source ++ y = '<' :: (['/'] ++ (s ++ '>' :: y)) := by
    simp [Piece.source]
  rw [hopen, settle_cons_lt, settle_append_of_isFirm (by decide), settle_append_gt, abut_gt]
  simp [Piece.source]

theorem not_mem_settle {s : Text} {c : Char} (hc : c ≠ ' ') (h : c ∉ s) : c ∉ settle s := by
  intro hmem
  rcases mem_settle hmem with hspace | hmem
  · exact hc hspace
  · exact h hmem

/-- What shuts a stray `<` settles to such a text, whatever follows. -/
theorem exists_settle_shut {h : Text} (hh : Piece.ShutsFirmly h) :
    ∃ h', Piece.Shut h' ∧ '<' ∉ h' ∧ (∃ x c, h' = x ++ [c] ∧ Text.isBlank c = false) ∧
      ∀ y, settle (h ++ y) = h' ++ settle y := by
  obtain ⟨hshut, hfirm | ⟨b, c, rfl, hb, hblanks, hc⟩⟩ := hh
  · refine ⟨h, hshut, fun hlt => absurd (hfirm '<' hlt) (by decide), ?_,
      settle_append_of_isFirm hfirm⟩
    obtain ⟨c, r, rfl, -⟩ := hshut
    obtain ⟨x, d, hx⟩ := List.eq_nil_or_concat (c :: r) |>.resolve_left (by simp)
    rw [List.concat_eq_append] at hx
    exact ⟨x, d, hx, (isFirm_iff.1 (hfirm d (by rw [hx]; simp))).1⟩
  · obtain ⟨hblank, hlt, -⟩ := isFirm_iff.1 hc
    have hspace : settle b = [' '] :=
      (settle_blanks hblanks).resolve_left fun hnil => hb (settle_eq_nil_iff.1 hnil)
    refine ⟨[' ', c], ⟨' ', [c], rfl, by decide, fun h => absurd h (by decide),
      fun h => absurd h (by decide)⟩, by simpa using Ne.symm hlt, ⟨[' '], c, rfl, hblank⟩, ?_⟩
    intro y
    rw [List.append_assoc, List.singleton_append, settle_append_cons hc, hspace]
    rfl

/-- A solid piece and pieces behind it settle to pieces with its tag. -/
theorem exists_settled_cons {p : Piece} (hp : p.IsSolid) {ps qs : List Piece}
    (hqs : ∀ q ∈ qs, q.IsSettled) (hprinted : printed qs = settle (printed ps))
    (h : SettlesTo ps qs) :
    ∃ rs, (∀ r ∈ rs, r.IsSettled) ∧ printed rs = settle (printed (p :: ps)) ∧
      SettlesTo (p :: ps) rs := by
  have hgap : Redivided qs (afterGap (settle (printed ps))) := hprinted ▸ (Redivided.refl hqs).afterGap
  have hcons {q : Piece} (hq : q.IsSettled) {x : Text} (hpieces : Redivided qs x)
      (hx : q.source ++ x = settle (printed (p :: ps)))
      (htags : ∀ rs, SettlesTo ps rs → SettlesTo (p :: ps) (q :: rs)) :
      ∃ rs, (∀ r ∈ rs, r.IsSettled) ∧ printed rs = settle (printed (p :: ps)) ∧
        SettlesTo (p :: ps) rs := by
    obtain ⟨rs, hrs, rfl, htags'⟩ := hpieces
    refine ⟨q :: rs, fun r hr => ?_, hx, htags rs (htags' ps h)⟩
    rcases List.mem_cons.1 hr with rfl | hr
    · exact hq
    · exact hrs r hr
  have hno {q : Piece} (hq : ∀ s, q ≠ .stray s) (hfits : q.Fits) : q.IsSettled :=
    ⟨hfits, fun s hs => absurd hs (hq s)⟩
  cases p with
  | text s =>
    obtain ⟨rs, hrs, hx, htags⟩ := (Redivided.refl hqs).foldr_push hp
    refine ⟨rs, hrs, ?_, .left rfl (htags ps h)⟩
    rw [hx, hprinted, printed_cons, settle_append]
    rfl
  | comment s =>
    refine hcons (q := .comment (settle s)) (hno (by simp) (fits_comment_settle hp)) hgap ?_
      fun rs hrs => .left rfl (.right rfl hrs)
    rw [printed_cons, settle_comment_append]
  | startTag t =>
    refine hcons (q := .startTag t.settled)
      (hno (by simp) (StartTag.legible_settled hp.2 hp.1)) hgap ?_
      fun rs hrs => .startTag hp.1 hrs
    exact (StartTag.settle_source_append hp.2 hp.1 _).symm
  | endTag s =>
    refine hcons (q := .endTag (settle s)) (hno (by simp)
      ⟨not_mem_settle (by decide) hp.1, not_mem_settle (by decide) hp.2⟩) hgap ?_
      fun rs hrs => .endTag (fun name hname => closes_settle hname s) hrs
    rw [printed_cons, settle_endTag_append]
  | stray s =>
    obtain ⟨hlt, h₁, r, rfl, hshut⟩ := hp
    obtain ⟨h', hshut', hlt', hlast, hsettle⟩ := exists_settle_shut hshut
    have hr : '<' ∉ r := fun hmem => hlt (List.mem_append_right _ hmem)
    refine hcons (q := .stray h') ⟨⟨hlt', hshut'⟩, ?_⟩ ((Redivided.refl hqs).foldr_push hr) ?_
      fun rs hrs => .left rfl (.right rfl hrs)
    · rintro s hs
      cases hs
      exact hlast
    · have hsource : printed (.stray (h₁ ++ r) :: ps) = '<' :: (h₁ ++ (r ++ printed ps)) := by
        simp [Piece.source]
      rw [hsource, settle_cons_lt, hsettle, settle_append, hprinted]
      rfl

/-- **Markup in solid pieces settles to pieces with the settled tags.** -/
theorem exists_normalized {ps : List Piece} (h : ∀ p ∈ ps, p.IsSolid) :
    ∃ qs, (∀ q ∈ qs, q.Fits) ∧ printed qs = normalizeWhitespace (printed ps) ∧ SettlesTo ps qs := by
  obtain ⟨qs, hqs, hprinted, hsettles⟩ : ∃ qs, (∀ q ∈ qs, q.IsSettled) ∧
      printed qs = settle (printed ps) ∧ SettlesTo ps qs := by
    induction ps with
    | nil => exact ⟨[], by simp, rfl, .nil⟩
    | cons p ps ih =>
      obtain ⟨qs, hqs, hprinted, hsettles⟩ := ih fun q hq => h q (List.mem_cons_of_mem p hq)
      exact exists_settled_cons (h p (by simp)) hqs hprinted hsettles
  obtain ⟨b₁, b₂, h₁, h₂, hblanks⟩ := exists_settle_eq (printed ps)
  have hpieces : Redivided qs (b₁ ++ (normalizeWhitespace (printed ps) ++ b₂)) := by
    rw [← hblanks, ← hprinted]
    exact Redivided.refl hqs
  obtain ⟨rs, hrs, hx, htags⟩ := hpieces.of_blanks h₁ h₂
  exact ⟨rs, fun r hr => (hrs r hr).1, hx, htags ps hsettles⟩

end MaskedViews.Markup
