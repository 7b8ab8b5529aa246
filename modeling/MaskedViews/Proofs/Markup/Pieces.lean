import MaskedViews.Proofs.Markup.Editing
import MaskedViews.Proofs.Text.Trimming

/-!
# Markup in pieces

Orderly markup is put together from text, comments, start tags, end tags and stray `<` that begin
none of these. On such markup the search for tags goes from piece to piece: the first start tag is
the first piece that is one (`firstTag?_printed`).
-/

namespace MaskedViews.Markup

/-- A piece of markup. -/
inductive Piece where
  /-- Text. -/
  | text (s : Text)
  /-- A comment, with what is inside it. -/
  | comment (s : Text)
  /-- A start tag. -/
  | startTag (t : StartTag)
  /-- An end tag, with what stands between `</` and `>`. -/
  | endTag (s : Text)
  /-- A `<` that begins nothing, with text behind it. -/
  | stray (s : Text)

namespace Piece

/-- The text of a piece. -/
def source : Piece → Text
  | text s => s
  | comment s => commentOpen ++ (s ++ commentClose)
  | startTag t => t.source
  | endTag s => '<' :: '/' :: (s ++ ['>'])
  | stray s => '<' :: s

/-- A text behind `<` that makes neither a tag nor a comment nor an end tag of it, whatever follows:
it begins with no letter, or the name that it begins with is not ended as it should be. -/
def Shut (s : Text) : Prop :=
  ∃ c r, s = c :: r ∧ c ≠ '/' ∧ (c = '!' → ∃ d r', r = d :: r' ∧ d ≠ '-') ∧
    (c.isAlpha = true → ∃ d r', s.dropWhile StartTag.isNameChar = d :: r' ∧
      StartTag.endsName d = false)

/-- A piece that is found again where it stands. -/
def Fits : Piece → Prop
  | text s => '<' ∉ s
  | comment s => Text.cut? commentClose (s ++ commentClose) = some (s, [])
  | startTag t => t.Legible
  | endTag s => '<' ∉ s ∧ '>' ∉ s
  | stray s => '<' ∉ s ∧ Shut s

/-- Is a text behind `<` shut? -/
def isShut : Text → Bool
  | [] => false
  | c :: r =>
    c != '/' && (c != '!' || r.head?.any (· != '-')) &&
      (!c.isAlpha ||
        ((c :: r).dropWhile StartTag.isNameChar).head?.any fun d => !StartTag.endsName d)

theorem isShut_iff {s : Text} : isShut s = true ↔ Shut s := by
  cases s with
  | nil => simp [isShut, Shut]
  | cons c r =>
    simp only [isShut, Shut, Bool.and_eq_true, Bool.or_eq_true, bne_iff_ne, ne_eq,
      Bool.not_eq_true', Option.any_eq_true, List.head?_eq_some_iff, List.cons.injEq]
    constructor
    · rintro ⟨⟨hc, hbang⟩, hname⟩
      refine ⟨c, r, ⟨rfl, rfl⟩, hc, fun h => ?_, fun h => ?_⟩
      · obtain ⟨d, ⟨r', hr⟩, hd⟩ := hbang.resolve_left (not_not_intro h)
        exact ⟨d, r', hr, hd⟩
      · obtain ⟨d, ⟨r', hr⟩, hd⟩ := hname.resolve_left (by simp [h])
        exact ⟨d, r', hr, hd⟩
    · rintro ⟨_, _, ⟨rfl, rfl⟩, hc, hbang, hname⟩
      refine ⟨⟨hc, ?_⟩, ?_⟩
      · refine (em (c = '!')).symm.imp_right fun h => ?_
        obtain ⟨d, r', hr, hd⟩ := hbang h
        exact ⟨d, ⟨r', hr⟩, hd⟩
      · refine (Bool.eq_false_or_eq_true c.isAlpha).symm.imp_right fun h => ?_
        obtain ⟨d, r', hr, hd⟩ := hname h
        exact ⟨d, ⟨r', hr⟩, hd⟩

instance decidableShut : DecidablePred Shut := fun _ => decidable_of_iff _ isShut_iff

instance decidableFits : DecidablePred Fits
  | text s => inferInstanceAs (Decidable ('<' ∉ s))
  | comment s =>
    inferInstanceAs (Decidable (Text.cut? commentClose (s ++ commentClose) = some (s, [])))
  | startTag t => inferInstanceAs (Decidable t.Legible)
  | endTag s => inferInstanceAs (Decidable ('<' ∉ s ∧ '>' ∉ s))
  | stray s => inferInstanceAs (Decidable ('<' ∉ s ∧ Shut s))

/-- A comment ends where it is meant to exactly if its mark is not inside it. -/
theorem fits_comment_iff {s : Text} : (comment s).Fits ↔ ¬ commentClose <:+: s := by
  constructor
  · rintro h ⟨a, b, rfl⟩
    obtain ⟨x, r, hcut, hlength⟩ := Text.exists_cut? '-' ['-', '>'] a (b ++ commentClose)
    have h : Text.cut? commentClose (a ++ commentClose ++ b ++ commentClose) = some (_, []) := h
    rw [List.append_assoc, List.append_assoc] at h
    have := hcut.symm.trans h
    simp only [Option.some.injEq, Prod.mk.injEq] at this
    rw [this.1, List.append_assoc, List.length_append, List.length_append] at hlength
    have hmark : commentClose.length = 3 := rfl
    omega
  · intro h
    obtain ⟨x, r, hcut, hlength⟩ := Text.exists_cut? '-' ['-', '>'] s []
    have heq := Text.eq_of_cut? hcut
    obtain ⟨y, rfl⟩ : x <+: s :=
      List.prefix_of_prefix_length_le ⟨_, heq.symm⟩ (List.prefix_append ..) hlength
    -- a mark found earlier would overlap the one at the end, and no end of the mark begins it
    rw [List.append_assoc, List.append_cancel_left_eq] at heq
    match y, heq with
    | [], heq =>
      have hr : r = [] := by simpa using heq
      subst hr
      simpa [Fits, commentClose] using hcut
    | [_], heq => simp at heq
    | [_, _], heq => simp at heq
    | _ :: _ :: _ :: y, heq =>
      simp only [List.cons_append, List.nil_append, List.cons.injEq] at heq
      obtain ⟨rfl, rfl, rfl, -⟩ := heq
      exact absurd ⟨x, y, by simp [commentClose]⟩ h

/-- Whether a piece is a start tag. -/
def isStartTag : Piece → Bool
  | startTag _ => true
  | _ => false

end Piece

/-- The markup that pieces make up. -/
def printed (ps : List Piece) : Text := ps.flatMap Piece.source

@[simp] theorem printed_nil : printed [] = [] := rfl

@[simp] theorem printed_cons (p : Piece) (ps : List Piece) :
    printed (p :: ps) = p.source ++ printed ps := by
  simp [printed]

@[simp] theorem printed_append (ps qs : List Piece) :
    printed (ps ++ qs) = printed ps ++ printed qs := by
  simp [printed]

/-! ### One step of a scan -/

theorem firstTag?_nil : firstTag? [] = none := by
  rw [firstTag?]

theorem firstTag?_of_comment {s inside comment r : Text} (h : afterCommentOpen? s = some inside)
    (hc : Text.cut? commentClose inside = some (comment, r)) :
    firstTag? s = (firstTag? r).map fun (before, t, r) =>
      (commentOpen ++ (comment ++ (commentClose ++ before)), t, r) := by
  cases s with
  | nil => cases h
  | cons c s =>
    rw [firstTag?]
    split
    · next h' =>
      rw [h, Option.some.injEq] at h'
      subst h'
      split
      · next hc' =>
        rw [hc] at hc'
        cases hc'
      · next hc' =>
        rw [hc] at hc'
        cases hc'
        rfl
    · next h' =>
      rw [h] at h'
      cases h'

theorem firstTag?_of_read {s r : Text} {t : StartTag} (h : afterCommentOpen? s = none)
    (ht : StartTag.read? s = some (t, r)) : firstTag? s = some ([], t, r) := by
  cases s with
  | nil => cases ht
  | cons c s =>
    rw [firstTag?]
    split
    · next h' =>
      rw [h] at h'
      cases h'
    · rw [ht]

theorem firstTag?_of_skip {c : Char} {s : Text} (h : afterCommentOpen? (c :: s) = none)
    (ht : StartTag.read? (c :: s) = none) :
    firstTag? (c :: s) = (firstTag? s).map fun (before, t, r) => (c :: before, t, r) := by
  rw [firstTag?]
  split
  · next h' =>
    rw [h] at h'
    cases h'
  · rw [ht]

/-- Neither a tag nor a comment begins with anything but `<`. -/
theorem read?_of_ne {c : Char} (hc : c ≠ '<') (s : Text) :
    afterCommentOpen? (c :: s) = none ∧ StartTag.read? (c :: s) = none := by
  refine ⟨if_neg (Ne.symm hc), ?_⟩
  unfold StartTag.read?
  split
  · next h =>
    rw [List.cons.injEq] at h
    exact absurd h.1 hc
  · rfl

theorem firstTag?_text_append {x : Text} (hx : '<' ∉ x) (s : Text) :
    firstTag? (x ++ s) = (firstTag? s).map fun (before, t, r) => (x ++ before, t, r) := by
  induction x with
  | nil => simp
  | cons c x ih =>
    simp only [List.mem_cons, not_or] at hx
    obtain ⟨h, ht⟩ := read?_of_ne (Ne.symm hx.1) (x ++ s)
    rw [List.cons_append, firstTag?_of_skip h ht, ih hx.2, Option.map_map]
    rfl

theorem afterCommentOpen?_of_ne {c : Char} (hc : c ≠ '!') (s : Text) :
    afterCommentOpen? ('<' :: c :: s) = none := by
  simp [afterCommentOpen?, commentOpen, Text.rest?, Ne.symm hc]

/-- A tag begins with a letter. -/
theorem read?_of_not_isAlpha {c : Char} (hc : c.isAlpha = false) (s : Text) :
    StartTag.read? ('<' :: c :: s) = none := by
  rw [StartTag.read?]
  simp [hc]

theorem Piece.Shut.scan {s : Text} (h : Shut s) (y : Text) :
    afterCommentOpen? ('<' :: (s ++ y)) = none ∧ StartTag.read? ('<' :: (s ++ y)) = none := by
  obtain ⟨c, r, rfl, -, hbang, hname⟩ := h
  constructor
  · by_cases hc : c = '!'
    · obtain ⟨d, r', rfl, hd⟩ := hbang hc
      simp [afterCommentOpen?, commentOpen, Text.rest?, hc, Ne.symm hd]
    · exact afterCommentOpen?_of_ne hc _
  · by_cases hc : c.isAlpha = true
    · obtain ⟨d, r', hdrop, hd⟩ := hname hc
      have hdrop' : (c :: (r ++ y)).dropWhile StartTag.isNameChar = d :: (r' ++ y) := by
        rw [← List.cons_append, List.dropWhile_append, hdrop]
        simp
      rw [List.cons_append, StartTag.read?]
      simp [hdrop', hd]
    · exact read?_of_not_isAlpha (by simpa using hc) _

/-- What follows does not open what is shut. -/
theorem Piece.Shut.append {s : Text} (h : Piece.Shut s) (r : Text) : Piece.Shut (s ++ r) := by
  obtain ⟨c, s, rfl, hslash, hbang, hname⟩ := h
  refine ⟨c, s ++ r, rfl, hslash, fun hc => ?_, fun hc => ?_⟩
  · obtain ⟨d, s', rfl, hd⟩ := hbang hc
    exact ⟨d, s' ++ r, rfl, hd⟩
  · obtain ⟨d, s', hdrop, hd⟩ := hname hc
    refine ⟨d, s' ++ r, ?_, hd⟩
    rw [← List.cons_append, List.dropWhile_append, hdrop]
    rfl

/-- A piece that is no start tag is passed over. -/
theorem firstTag?_source_append {p : Piece} (h : p.Fits) (hp : p.isStartTag = false) (y : Text) :
    firstTag? (p.source ++ y) =
      (firstTag? y).map fun (before, t, r) => (p.source ++ before, t, r) := by
  cases p with
  | text s => exact firstTag?_text_append h y
  | comment s =>
    have hcut : Text.cut? commentClose (s ++ (commentClose ++ y)) = some (s, y) :=
      Text.cut?_append_mark (p := '-') (r := []) h y
    have hopen : afterCommentOpen? ((Piece.comment s).source ++ y) =
        some (s ++ (commentClose ++ y)) :=
      Text.rest?_eq_some_iff.2 (by simp [Piece.source])
    rw [firstTag?_of_comment hopen hcut]
    simp [Piece.source]
  | startTag t => cases hp
  | endTag s =>
    have hs : '<' ∉ '/' :: (s ++ ['>']) := by simp [h.1]
    have hskip : firstTag? ('<' :: ('/' :: (s ++ ['>']) ++ y)) = _ :=
      firstTag?_of_skip (afterCommentOpen?_of_ne (by decide) _)
        (read?_of_not_isAlpha (by decide) _)
    rw [firstTag?_text_append hs, Option.map_map] at hskip
    exact hskip
  | stray s =>
    obtain ⟨hopen, hread⟩ := h.2.scan y
    rw [Piece.source, List.cons_append, firstTag?_of_skip hopen hread, firstTag?_text_append h.1,
      Option.map_map]
    rfl

theorem exists_source_eq_of_legible {t : StartTag} (h : t.Legible) :
    ∃ c s, t.source = '<' :: c :: s ∧ c.isAlpha = true := by
  have hletter := h.letter
  cases hw : t.written with
  | nil =>
    rw [hw] at hletter
    cases hletter
  | cons c w =>
    rw [hw] at hletter
    exact ⟨c, w ++ t.afterName, by rw [StartTag.source_eq, hw, List.cons_append],
      by simpa using hletter⟩

theorem ne_of_isAlpha {c : Char} (h : c.isAlpha = true) : c ≠ '!' ∧ c ≠ '/' := by
  constructor
  · rintro rfl
    exact absurd h (by decide)
  · rintro rfl
    exact absurd h (by decide)

theorem firstTag?_startTag_append {t : StartTag} (h : t.Legible) (y : Text) :
    firstTag? (t.source ++ y) = some ([], t, y) := by
  refine firstTag?_of_read ?_ (StartTag.read?_source_append h y)
  obtain ⟨c, s, hs, hc⟩ := exists_source_eq_of_legible h
  rw [hs]
  exact afterCommentOpen?_of_ne (ne_of_isAlpha hc).1 _

/-- The first start tag of pieces is the first piece that is one. -/
theorem firstTag?_printed {ps : List Piece} (h : ∀ p ∈ ps, p.Fits) :
    (firstTag? (printed ps) = none ∧ ∀ p ∈ ps, p.isStartTag = false) ∨
      ∃ before t rest, ps = before ++ .startTag t :: rest ∧ (∀ p ∈ before, p.isStartTag = false) ∧
        firstTag? (printed ps) = some (printed before, t, printed rest) := by
  induction ps with
  | nil => exact Or.inl ⟨firstTag?_nil, by simp⟩
  | cons p ps ih =>
    have hp := h p (by simp)
    have ih := ih fun q hq => h q (List.mem_cons_of_mem p hq)
    rw [printed_cons]
    cases hkind : p.isStartTag with
    | true =>
      cases p with
      | startTag t =>
        exact Or.inr ⟨[], t, ps, rfl, by simp, firstTag?_startTag_append hp _⟩
      | text s => cases hkind
      | comment s => cases hkind
      | endTag s => cases hkind
      | stray s => cases hkind
    | false =>
      rw [firstTag?_source_append hp hkind]
      rcases ih with ⟨hnone, hps⟩ | ⟨before, t, rest, rfl, hbefore, hsome⟩
      · refine Or.inl ⟨by rw [hnone, Option.map_none], fun q hq => ?_⟩
        rcases List.mem_cons.1 hq with rfl | hq
        · exact hkind
        · exact hps q hq
      · refine Or.inr ⟨p :: before, t, rest, rfl, fun q hq => ?_, by rw [hsome]; simp⟩
        rcases List.mem_cons.1 hq with rfl | hq
        · exact hkind
        · exact hbefore q hq

/-! ### The tags with their places -/

theorem tagsFrom_of_none {s : Text} (h : firstTag? s = none) (start : Nat) :
    tagsFrom start s = [] := by
  rw [tagsFrom]
  split
  · rfl
  · next h' =>
    rw [h] at h'
    cases h'

theorem tagsFrom_of_some {s before r : Text} {t : StartTag}
    (h : firstTag? s = some (before, t, r)) (start : Nat) :
    tagsFrom start s = ⟨start + Text.byteLength before, t⟩ ::
      tagsFrom (start + Text.byteLength before + Text.byteLength t.source) r := by
  rw [tagsFrom]
  split
  · next h' =>
    rw [h] at h'
    cases h'
  · next h' =>
    rw [h] at h'
    cases h'
    rfl

theorem tagsFrom_startTag_append {t : StartTag} (h : t.Legible) (start : Nat) (y : Text) :
    tagsFrom start (t.source ++ y) =
      ⟨start, t⟩ :: tagsFrom (start + Text.byteLength t.source) y :=
  tagsFrom_of_some (firstTag?_startTag_append h y) start

/-- A piece that is no start tag moves the places of the tags behind it. -/
theorem tagsFrom_source_append {p : Piece} (h : p.Fits) (hp : p.isStartTag = false) (start : Nat)
    (y : Text) :
    tagsFrom start (p.source ++ y) = tagsFrom (start + Text.byteLength p.source) y := by
  have hfirst := firstTag?_source_append h hp y
  cases hy : firstTag? y with
  | none =>
    rw [hy] at hfirst
    rw [tagsFrom_of_none hy, tagsFrom_of_none hfirst]
  | some x =>
    obtain ⟨before, t, r⟩ := x
    rw [hy] at hfirst
    rw [tagsFrom_of_some hy, tagsFrom_of_some hfirst, Text.byteLength_append, ← Nat.add_assoc start]

end MaskedViews.Markup
