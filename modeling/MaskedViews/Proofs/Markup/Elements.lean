import MaskedViews.Proofs.Markup.Pieces
import Mathlib.Tactic.Choose

/-!
# Elements in pieces

The end tag of an element is found by counting pieces (`split_printed`), so an editor goes over
markup in pieces piece by piece: what it leaves when it removes elements are some of the pieces
(`exists_sublist_of_remove`), and what it leaves when it changes start tags are the same pieces with
other start tags among them (`editElements_printed`).
-/

namespace MaskedViews.Markup

/-! ### End tags -/

/-- The content of an element and what follows it, with `depth` elements of the name open inside. -/
def split? (name : Text) (depth : Nat) (s : Text) : Option (Text × Text) :=
  (close? name depth s).bind fun (content, rest) =>
    (afterEndTag? name rest).map fun after => (content, after)

theorem split?_nil (name : Text) (depth : Nat) : split? name depth [] = none := by
  rw [split?, close?]
  rfl

theorem split?_zero_of_end {name s r : Text} (h : afterEndTag? name s = some r) :
    split? name 0 s = some ([], r) := by
  cases s with
  | nil => cases h
  | cons c s =>
    have hclose : close? name 0 (c :: s) = some ([], c :: s) := by
      rw [close?]
      split
      · rfl
      · next h' =>
        rw [h] at h'
        cases h'
    simp [split?, hclose, h]

/-- What is put in front of the content by one step of the search is put there by the whole. -/
theorem split?_of_close? {name s r : Text} {depth depth' : Nat} {f : Text → Text}
    (h : close? name depth s =
      (close? name depth' r).map fun (content, rest) => (f content, rest)) :
    split? name depth s =
      (split? name depth' r).map fun (content, after) => (f content, after) := by
  rw [split?, h, split?]
  cases close? name depth' r with
  | none => rfl
  | some x =>
    simp only [Option.map_some, Option.bind_some, Option.map_map]
    rfl

theorem split?_succ_of_end {name s r : Text} {depth : Nat} (h : afterEndTag? name s = some r) :
    split? name (depth + 1) s =
      (split? name depth r).map fun (content, after) => (passed s r ++ content, after) := by
  cases s with
  | nil => cases h
  | cons c s =>
    refine split?_of_close? (f := (passed (c :: s) r ++ ·)) ?_
    rw [close?]
    split
    · next h' =>
      rw [h, Option.some.injEq] at h'
      rw [h']
    · next h' =>
      rw [h] at h'
      cases h'

theorem split?_of_comment {name s inside comment r : Text} {depth : Nat}
    (he : afterEndTag? name s = none) (h : afterCommentOpen? s = some inside)
    (hc : Text.cut? commentClose inside = some (comment, r)) :
    split? name depth s = (split? name depth r).map fun (content, after) =>
      (commentOpen ++ (comment ++ (commentClose ++ content)), after) := by
  cases s with
  | nil => cases h
  | cons c s =>
    refine split?_of_close? (f := fun x => commentOpen ++ (comment ++ (commentClose ++ x))) ?_
    rw [close?]
    split
    · next he' =>
      rw [he] at he'
      cases he'
    split
    · next h' =>
      rw [h, Option.some.injEq] at h'
      subst h'
      split
      · next hc' =>
        rw [hc] at hc'
        cases hc'
      · next hc' =>
        rw [hc] at hc'
        cases hc'
        rfl
    · next h' =>
      rw [h] at h'
      cases h'

theorem split?_of_read {name s r : Text} {t : StartTag} {depth : Nat}
    (he : afterEndTag? name s = none) (h : afterCommentOpen? s = none)
    (ht : StartTag.read? s = some (t, r)) :
    split? name depth s =
      (split? name (if t.name = name ∧ !t.selfClosing then depth + 1 else depth) r).map
        fun (content, after) => (t.source ++ content, after) := by
  cases s with
  | nil => cases ht
  | cons c s =>
    refine split?_of_close? (f := (t.source ++ ·)) ?_
    rw [close?]
    split
    · next he' =>
      rw [he] at he'
      cases he'
    split
    · next h' =>
      rw [h] at h'
      cases h'
    split
    · next ht' =>
      rw [ht] at ht'
      cases ht'
      rfl
    · next ht' =>
      rw [ht] at ht'
      cases ht'

theorem split?_of_skip {name s : Text} {c : Char} {depth : Nat}
    (he : afterEndTag? name (c :: s) = none) (h : afterCommentOpen? (c :: s) = none)
    (ht : StartTag.read? (c :: s) = none) :
    split? name depth (c :: s) =
      (split? name depth s).map fun (content, after) => (c :: content, after) := by
  refine split?_of_close? (f := (c :: ·)) ?_
  rw [close?]
  split
  · next he' =>
    rw [he] at he'
    cases he'
  split
  · next h' =>
    rw [h] at h'
    cases h'
  split
  · next ht' =>
    rw [ht] at ht'
    cases ht'
  · rfl

/-! ### End tags among pieces -/

theorem afterEndTag?_of_ne {name : Text} {c : Char} (hc : c ≠ '<') (s : Text) :
    afterEndTag? name (c :: s) = none := by
  unfold afterEndTag?
  split
  · next h =>
    rw [List.cons.injEq] at h
    exact absurd h.1 hc
  · rfl

theorem afterEndTag?_of_ne_slash {name : Text} {c : Char} (hc : c ≠ '/') (s : Text) :
    afterEndTag? name ('<' :: c :: s) = none := by
  unfold afterEndTag?
  split
  · next h =>
    simp only [List.cons.injEq, true_and] at h
    exact absurd h.1 hc
  · rfl

/-- Whether what stands between `</` and `>` ends an element of a name. -/
def closes (name s : Text) : Bool := (Text.restIgnoringCase? name s).any Text.allBlank

/-- A name that does not reach past a `>`. -/
def IsName (name : Text) : Prop := ∀ c ∈ name, c.toLower ≠ '>'

theorem restIgnoringCase?_append {name s : Text} (hname : IsName name) (y : Text) :
    Text.restIgnoringCase? name (s ++ '>' :: y) =
      (Text.restIgnoringCase? name s).map (· ++ '>' :: y) := by
  induction name generalizing s with
  | nil => rfl
  | cons p name ih =>
    have hp := hname p (by simp)
    have hname' : IsName name := fun c hc => hname c (List.mem_cons_of_mem p hc)
    cases s with
    | nil =>
      have hne : p.toLower ≠ '>'.toLower := hp
      rw [List.nil_append]
      exact if_neg hne
    | cons c s =>
      rw [List.cons_append, Text.restIgnoringCase?, Text.restIgnoringCase?]
      split
      · exact ih hname'
      · rfl

theorem afterEndTag?_endTag {name s : Text} (hname : IsName name) (hs : '>' ∉ s) (y : Text) :
    afterEndTag? name ('<' :: '/' :: (s ++ '>' :: y)) = if closes name s then some y else none := by
  rw [afterEndTag?, restIgnoringCase?_append hname, closes]
  cases hrest : Text.restIgnoringCase? name s with
  | none => rfl
  | some r =>
    obtain ⟨w, rfl, -⟩ := Text.restIgnoringCase?_eq_some_iff.1 hrest
    simp only [Option.map_some, Option.any_some]
    by_cases hr : Text.allBlank r = true
    · have hblanks : Text.Blanks r := by simpa [Text.allBlank, Text.Blanks] using hr
      rw [Text.trimStart_blanks_append hblanks, Text.trimStart_of_head (by decide), if_pos hr]
      rfl
    · rw [if_neg hr]
      split
      · next r' heq =>
        -- what follows the blanks of `r` is a character of it, and so no `>`
        obtain ⟨b, hb, hb'⟩ := Text.exists_eq_append_trimStart r
        rcases Text.trimStart_eq_nil_or r with hnil | ⟨c, r'', hc, htrim⟩
        · rw [hnil, List.append_nil] at hb'
          rw [hb'] at hr
          exact absurd (List.all_eq_true.2 hb) hr
        · rw [hb', htrim, List.append_assoc, Text.trimStart_blanks_append hb, List.cons_append,
            Text.trimStart_of_head hc] at heq
          simp only [Option.some.injEq, List.cons.injEq] at heq
          have hmem : c ∈ w ++ r := by
            rw [hb', htrim]
            simp
          rw [heq.1] at hmem
          exact absurd hmem hs
      · rfl

/-- How many elements of a name are open behind a piece, if `depth` are in front of it; none if the
piece is the end tag that is looked for. -/
def depthAfter? (name : Text) (depth : Nat) : Piece → Option Nat
  | .endTag s => if closes name s then (if depth = 0 then none else some (depth - 1)) else some depth
  | .startTag t => some (if t.name = name ∧ !t.selfClosing then depth + 1 else depth)
  | _ => some depth

/-- The pieces up to the end tag of an element, and those behind it. -/
def splitPieces (name : Text) : Nat → List Piece → Option (List Piece × List Piece)
  | _, [] => none
  | depth, p :: ps =>
    match depthAfter? name depth p with
    | none => some ([], ps)
    | some depth => (splitPieces name depth ps).map fun (inner, after) => (p :: inner, after)

theorem split?_text_append {name x : Text} (hx : '<' ∉ x) (depth : Nat) (s : Text) :
    split? name depth (x ++ s) =
      (split? name depth s).map fun (content, after) => (x ++ content, after) := by
  induction x with
  | nil => simp
  | cons c x ih =>
    simp only [List.mem_cons, not_or] at hx
    obtain ⟨h, ht⟩ := read?_of_ne (Ne.symm hx.1) (x ++ s)
    rw [List.cons_append, split?_of_skip (afterEndTag?_of_ne (Ne.symm hx.1) _) h ht, ih hx.2,
      Option.map_map]
    rfl

/-- The search for an end tag goes over one piece. -/
theorem split?_source_append {name : Text} (hname : IsName name) {p : Piece} (hp : p.Fits)
    (depth : Nat) (y : Text) :
    split? name depth (p.source ++ y) =
      match depthAfter? name depth p with
      | none => some ([], y)
      | some depth =>
        (split? name depth y).map fun (content, after) => (p.source ++ content, after) := by
  cases p with
  | text s => exact split?_text_append hp depth y
  | comment s =>
    have hcut : Text.cut? commentClose (s ++ (commentClose ++ y)) = some (s, y) :=
      Text.cut?_append_mark (p := '-') (r := []) hp y
    have hopen : afterCommentOpen? ((Piece.comment s).source ++ y) =
        some (s ++ (commentClose ++ y)) :=
      Text.rest?_eq_some_iff.2 (by simp [Piece.source])
    have hend : afterEndTag? name ((Piece.comment s).source ++ y) = none :=
      afterEndTag?_of_ne_slash (by decide) _
    rw [split?_of_comment hend hopen hcut]
    simp [Piece.source, depthAfter?]
  | startTag t =>
    obtain ⟨c, s, hs, hc⟩ := exists_source_eq_of_legible hp
    have hend : afterEndTag? name (t.source ++ y) = none := by
      rw [hs]
      exact afterEndTag?_of_ne_slash (ne_of_isAlpha hc).2 _
    have hopen : afterCommentOpen? (t.source ++ y) = none := by
      rw [hs]
      exact afterCommentOpen?_of_ne (ne_of_isAlpha hc).1 _
    exact split?_of_read hend hopen (StartTag.read?_source_append hp y)
  | endTag s =>
    obtain ⟨hlt, hgt⟩ := hp
    have hend := afterEndTag?_endTag hname hgt y
    have hsource : (Piece.endTag s).source ++ y = '<' :: '/' :: (s ++ '>' :: y) := by
      simp [Piece.source]
    rw [hsource, depthAfter?]
    by_cases hc : closes name s = true
    · rw [if_pos hc] at hend ⊢
      cases depth with
      | zero => exact split?_zero_of_end hend
      | succ depth =>
        have hpassed : passed ('<' :: '/' :: (s ++ '>' :: y)) y = '<' :: '/' :: (s ++ ['>']) := by
          rw [← hsource]
          exact passed_append _ y
        rw [split?_succ_of_end hend, hpassed]
        rfl
    · rw [if_neg hc] at hend ⊢
      have hs : '<' ∉ '/' :: (s ++ ['>']) := by simp [hlt]
      have hskip : split? name depth ('<' :: ('/' :: (s ++ ['>']) ++ y)) = _ :=
        split?_of_skip (by simpa using hend) (afterCommentOpen?_of_ne (by decide) _)
          (read?_of_not_isAlpha (by decide) _)
      rw [split?_text_append hs, Option.map_map] at hskip
      rw [show '<' :: '/' :: (s ++ '>' :: y) = '<' :: ('/' :: (s ++ ['>']) ++ y) by simp, hskip]
      rfl
  | stray s =>
    obtain ⟨hopen, hread⟩ := hp.2.scan y
    have hend : afterEndTag? name ('<' :: (s ++ y)) = none := by
      obtain ⟨c, r, rfl, hc, -⟩ := hp.2
      exact afterEndTag?_of_ne_slash hc _
    rw [Piece.source, List.cons_append, split?_of_skip hend hopen hread,
      split?_text_append hp.1, Option.map_map]
    rfl

/-- **The end tag of an element is found by counting pieces.** -/
theorem split_printed {name : Text} (hname : IsName name) (depth : Nat) {ps : List Piece}
    (h : ∀ p ∈ ps, p.Fits) :
    split? name depth (printed ps) =
      (splitPieces name depth ps).map fun (inner, after) => (printed inner, printed after) := by
  induction ps generalizing depth with
  | nil => exact split?_nil name depth
  | cons p ps ih =>
    rw [printed_cons, split?_source_append hname (h p (by simp)), splitPieces]
    cases depthAfter? name depth p with
    | none => simp
    | some depth =>
      simp only [ih depth fun q hq => h q (List.mem_cons_of_mem p hq), Option.map_map]
      congr 1

/-- Only an end tag ends an element. -/
theorem exists_endTag_of_depthAfter? {name : Text} {depth : Nat} {p : Piece}
    (h : depthAfter? name depth p = none) : ∃ s, p = .endTag s := by
  cases p with
  | endTag s => exact ⟨s, rfl⟩
  | text s => cases h
  | comment s => cases h
  | startTag t => cases h
  | stray s => cases h

/-- Between the pieces inside an element and those behind it there is its end tag. -/
theorem eq_of_splitPieces {name : Text} {depth : Nat} {ps inner after : List Piece}
    (h : splitPieces name depth ps = some (inner, after)) :
    ∃ s, ps = inner ++ .endTag s :: after := by
  induction ps generalizing depth inner with
  | nil => cases h
  | cons p ps ih =>
    rw [splitPieces] at h
    split at h
    · next hend =>
      simp only [Option.some.injEq, Prod.mk.injEq] at h
      obtain ⟨rfl, rfl⟩ := h
      obtain ⟨s, rfl⟩ := exists_endTag_of_depthAfter? hend
      exact ⟨s, rfl⟩
    · obtain ⟨⟨i, a⟩, hs, h⟩ := Option.map_eq_some_iff.1 h
      simp only [Prod.mk.injEq] at h
      obtain ⟨rfl, rfl⟩ := h
      obtain ⟨s, rfl⟩ := ih hs
      exact ⟨s, rfl⟩

/-! ### Elements among pieces -/

theorem isUpper_iff {c : Char} : c.isUpper = true ↔ 65 ≤ c.val ∧ c.val ≤ 90 :=
  decide_eq_true_iff

theorem toLower_of_not_isUpper {c : Char} (h : ¬ c.isUpper = true) : c.toLower = c :=
  dif_neg fun hc => h (isUpper_iff.2 hc)

theorem val_toLower {c : Char} (h : c.isUpper = true) : c.toLower.val = c.val + 32 :=
  congrArg Char.val (dif_pos (isUpper_iff.1 h))

theorem eq_of_toLower_eq {c : Char} (h : c.toLower = '>') : c = '>' := by
  by_cases hc : c.isUpper = true
  · have hval : (c.val + 32).toNat = 62 := by rw [← val_toLower hc, h]; rfl
    have hfrom : 65 ≤ c.val.toNat := UInt32.le_iff_toNat_le.1 (isUpper_iff.1 hc).1
    have hto : c.val.toNat ≤ 90 := UInt32.le_iff_toNat_le.1 (isUpper_iff.1 hc).2
    rw [UInt32.toNat_add] at hval
    simp only [UInt32.toNat_ofNat] at hval
    omega
  · rwa [toLower_of_not_isUpper hc] at h

theorem isName_of_legible {t : StartTag} (h : t.Legible) : IsName t.name := by
  intro c hc hgt
  obtain ⟨d, hd, rfl⟩ := List.mem_map.1 hc
  have := h.written d hd
  rw [eq_of_toLower_eq (eq_of_toLower_eq hgt)] at this
  exact absurd this (by decide)

/-- The pieces inside the element that a start tag begins, and those behind it. -/
def extentPieces (t : StartTag) (ps : List Piece) : Option (List Piece × List Piece) :=
  if t.isVoid then some ([], ps) else splitPieces t.name 0 ps

theorem extent?_printed {t : StartTag} (ht : t.Legible) {ps : List Piece}
    (h : ∀ p ∈ ps, p.Fits) :
    extent? t (printed ps) =
      (extentPieces t ps).map fun (inner, after) => (printed inner, printed after) := by
  rw [extent?, extentPieces]
  split
  · rfl
  · exact split_printed (isName_of_legible ht) 0 h

theorem eq_of_extentPieces {t : StartTag} {ps inner after : List Piece}
    (h : extentPieces t ps = some (inner, after)) : ∃ qs, ps = qs ++ after := by
  rw [extentPieces] at h
  split at h
  · simp only [Option.some.injEq, Prod.mk.injEq] at h
    exact ⟨[], by simp [h.2]⟩
  · obtain ⟨s, rfl⟩ := eq_of_splitPieces h
    exact ⟨inner ++ [.endTag s], by simp⟩

/-- Removing elements leaves some of the pieces. -/
theorem exists_sublist_of_remove (names : List Text) {decide : Visit → Edit}
    (hdecide : ∀ v, decide v = .keep ∨ decide v = .remove) (ps : List Piece)
    (h : ∀ p ∈ ps, p.Fits) :
    ∃ qs, qs.Sublist ps ∧ editElements names decide (printed ps) = printed qs := by
  rcases firstTag?_printed h with ⟨hnone, -⟩ | ⟨before, t, rest, rfl, -, hsome⟩
  · exact ⟨ps, List.Sublist.refl ps, editElements_of_none hnone⟩
  · have hrest : ∀ p ∈ rest, p.Fits := fun p hp => h p (by simp [hp])
    have ht : t.Legible := h (.startTag t) (by simp)
    have hkeep : ∃ qs, qs.Sublist (before ++ .startTag t :: rest) ∧
        printed before ++ (t.source ++ editElements names decide (printed rest)) = printed qs := by
      obtain ⟨qs, hqs, heq⟩ := exists_sublist_of_remove names hdecide rest hrest
      exact ⟨before ++ .startTag t :: qs, List.Sublist.append_left (hqs.cons_cons _) _,
        by rw [heq]; simp [Piece.source]⟩
    rw [editElements_of_some hsome, extent?_printed ht hrest]
    split
    · cases hextent : extentPieces t rest with
      | none => exact hkeep
      | some x =>
        obtain ⟨inner, after⟩ := x
        obtain ⟨gone, rfl⟩ := eq_of_extentPieces hextent
        rcases hdecide ⟨t, printed inner⟩ with hd | hd
        · simp only [Option.map_some, hd]
          exact hkeep
        · simp only [Option.map_some, hd]
          obtain ⟨qs, hqs, heq⟩ := exists_sublist_of_remove names hdecide after
            fun p hp => hrest p (by simp [hp])
          refine ⟨before ++ qs, List.Sublist.append_left ?_ _, by rw [heq, printed_append]⟩
          exact hqs.trans ((List.sublist_append_right gone after).trans (List.sublist_cons_self _ _))
    · exact hkeep
termination_by ps.length
decreasing_by
  all_goals subst_vars
  all_goals simp only [List.length_append, List.length_cons]
  all_goals omega

/-! ### Start tags among pieces -/

/-- The start tag that a piece is. -/
def Piece.startTag? : Piece → Option StartTag
  | .startTag t => some t
  | _ => none

theorem Piece.startTag?_eq_some_iff {p : Piece} {t : StartTag} :
    p.startTag? = some t ↔ p = .startTag t := by
  cases p <;> simp [Piece.startTag?]

theorem Piece.startTag?_eq_none_iff {p : Piece} : p.startTag? = none ↔ p.isStartTag = false := by
  cases p <;> simp [Piece.startTag?, Piece.isStartTag]

/-- The start tags among pieces. -/
def startTagsOf (ps : List Piece) : List StartTag := ps.filterMap Piece.startTag?

theorem mem_startTagsOf {ps : List Piece} {t : StartTag} : t ∈ startTagsOf ps ↔ .startTag t ∈ ps := by
  simp [startTagsOf, Piece.startTag?_eq_some_iff]

/-- The start tags of markup in pieces are those among the pieces. -/
theorem startTags_printed (ps : List Piece) (h : ∀ p ∈ ps, p.Fits) :
    startTags (printed ps) = startTagsOf ps := by
  suffices ∀ start, (tagsFrom start (printed ps)).map PlacedTag.tag = startTagsOf ps from this 0
  induction ps with
  | nil => exact fun start => by rw [printed_nil, tagsFrom_of_none firstTag?_nil]; rfl
  | cons p ps ih =>
    intro start
    have hp := h p (by simp)
    have ih := ih fun q hq => h q (List.mem_cons_of_mem p hq)
    rw [printed_cons]
    cases hkind : p.startTag? with
    | some t =>
      cases Piece.startTag?_eq_some_iff.1 hkind
      rw [Piece.source, tagsFrom_startTag_append hp, List.map_cons, ih]
      rfl
    | none =>
      rw [tagsFrom_source_append hp (Piece.startTag?_eq_none_iff.1 hkind), ih]
      exact (List.filterMap_cons_none hkind).symm

/-! ### Changing start tags -/

/-- What an editor of the elements with given names is asked about a start tag in front of pieces,
if it is asked. -/
def visit? (names : List Text) (t : StartTag) (ps : List Piece) : Option Visit :=
  if names.contains t.name then
    (extentPieces t ps).map fun (inner, _) => ⟨t, printed inner⟩
  else none

/-- The elements among pieces that an editor is asked about. -/
def visitsOf (names : List Text) : List Piece → List Visit
  | [] => []
  | .startTag t :: ps => (visit? names t ps).toList ++ visitsOf names ps
  | _ :: ps => visitsOf names ps

/-- Pieces with other start tags for those of some elements. -/
def retag (names : List Text) (change : Visit → StartTag) : List Piece → List Piece
  | [] => []
  | .startTag t :: ps =>
    .startTag (((visit? names t ps).map change).getD t) :: retag names change ps
  | p :: ps => p :: retag names change ps

variable (names : List Text) {change : Visit → StartTag}

theorem visitsOf_append {before : List Piece} (h : ∀ p ∈ before, p.isStartTag = false)
    (ps : List Piece) : visitsOf names (before ++ ps) = visitsOf names ps := by
  induction before with
  | nil => rfl
  | cons p before ih =>
    have ih := ih fun q hq => h q (List.mem_cons_of_mem p hq)
    cases p with
    | startTag t => exact absurd (h (.startTag t) (by simp)) (by simp [Piece.isStartTag])
    | text s => exact ih
    | comment s => exact ih
    | endTag s => exact ih
    | stray s => exact ih

theorem retag_append {before : List Piece} (h : ∀ p ∈ before, p.isStartTag = false)
    (ps : List Piece) : retag names change (before ++ ps) = before ++ retag names change ps := by
  induction before with
  | nil => rfl
  | cons p before ih =>
    have ih := congrArg (p :: ·) (ih fun q hq => h q (List.mem_cons_of_mem p hq))
    cases p with
    | startTag t => exact absurd (h (.startTag t) (by simp)) (by simp [Piece.isStartTag])
    | text s => exact ih
    | comment s => exact ih
    | endTag s => exact ih
    | stray s => exact ih

theorem visitsOf_eq_nil {ps : List Piece} (h : ∀ p ∈ ps, p.isStartTag = false) :
    visitsOf names ps = [] := by
  have := visitsOf_append names h []
  rwa [List.append_nil] at this

theorem retag_eq_self {ps : List Piece} (h : ∀ p ∈ ps, p.isStartTag = false) :
    retag names change ps = ps := by
  have : retag names change (ps ++ []) = ps ++ [] := retag_append names h []
  rwa [List.append_nil] at this

theorem eq_of_visit? {t : StartTag} {ps : List Piece} {v : Visit} (h : visit? names t ps = some v) :
    v.tag = t ∧ names.contains t.name = true := by
  rw [visit?] at h
  split at h
  · next hname =>
    obtain ⟨_, _, rfl⟩ := Option.map_eq_some_iff.1 h
    exact ⟨rfl, hname⟩
  · cases h

theorem mem_visitsOf {ps : List Piece} {v : Visit} (h : v ∈ visitsOf names ps) :
    .startTag v.tag ∈ ps ∧ names.contains v.tag.name = true := by
  induction ps with
  | nil => cases h
  | cons p ps ih =>
    have htail (h : v ∈ visitsOf names ps) :
        .startTag v.tag ∈ p :: ps ∧ names.contains v.tag.name = true :=
      ⟨List.mem_cons_of_mem p (ih h).1, (ih h).2⟩
    cases p with
    | startTag t =>
      rcases List.mem_append.1 h with h | h
      · obtain ⟨rfl, hname⟩ := eq_of_visit? names (Option.mem_toList.1 h)
        exact ⟨by simp, hname⟩
      · exact htail h
    | text s => exact htail h
    | comment s => exact htail h
    | endTag s => exact htail h
    | stray s => exact htail h

/-- A piece that was there before, or a start tag that has been changed. -/
theorem mem_retag {ps : List Piece} {q : Piece} (h : q ∈ retag names change ps) :
    q ∈ ps ∨ ∃ v ∈ visitsOf names ps, q = .startTag (change v) := by
  induction ps with
  | nil => cases h
  | cons p ps ih =>
    have htail (h : q ∈ p :: retag names change ps) :
        q ∈ p :: ps ∨ ∃ v ∈ visitsOf names ps, q = .startTag (change v) := by
      rcases List.mem_cons.1 h with rfl | h
      · exact Or.inl (by simp)
      · exact (ih h).imp_left (List.mem_cons_of_mem p)
    cases p with
    | startTag t =>
      rcases List.mem_cons.1 h with rfl | h
      · cases hv : visit? names t ps with
        | none => exact Or.inl (by simp)
        | some v => exact Or.inr ⟨v, List.mem_append_left _ (by simp [hv]), rfl⟩
      · rcases ih h with h | ⟨v, hv, rfl⟩
        · exact Or.inl (List.mem_cons_of_mem _ h)
        · exact Or.inr ⟨v, List.mem_append_right _ hv, rfl⟩
    | text s => exact htail h
    | comment s => exact htail h
    | endTag s => exact htail h
    | stray s => exact htail h

/-- What an editor that removes nothing does to a document from its first tag on. -/
theorem edits_printed_append {decide : Visit → Edit} (hdecide : ∀ v, decide v ≠ .remove)
    {t : StartTag} (ht : t.Legible) {ps : List Piece} (h : ∀ p ∈ ps, p.Fits) {s before : Text}
    (hs : firstTag? s = some (before, t, printed ps)) :
    ∃ x, edits names decide s = .same before :: x :: edits names decide (printed ps) ∧
      x.visit = visit? names t ps ∧
      x.after = match (visit? names t ps).map decide with
        | some (.replaceTag written) => written
        | _ => t.source := by
  rw [edits_of_some hs, extent?_printed ht h, visit?]
  split
  · cases extentPieces t ps with
    | none => exact ⟨.same t.source, rfl, rfl, rfl⟩
    | some x =>
      obtain ⟨inner, after⟩ := x
      simp only [Option.map_some]
      cases hd : decide ⟨t, printed inner⟩ with
      | keep => exact ⟨_, rfl, rfl, rfl⟩
      | remove => exact absurd hd (hdecide _)
      | replaceTag written => exact ⟨_, rfl, rfl, rfl⟩
  · exact ⟨.same t.source, rfl, rfl, rfl⟩

/-- An editor that removes nothing is asked about the elements among the pieces. -/
theorem visits_printed {decide : Visit → Edit} (hdecide : ∀ v, decide v ≠ .remove)
    (ps : List Piece) (h : ∀ p ∈ ps, p.Fits) :
    visits names decide (printed ps) = visitsOf names ps := by
  rcases firstTag?_printed h with ⟨hnone, hps⟩ | ⟨before, t, rest, rfl, hbefore, hsome⟩
  · rw [visits, edits_of_none hnone, visitsOf_eq_nil names hps]
    rfl
  · have hrest : ∀ p ∈ rest, p.Fits := fun p hp => h p (by simp [hp])
    obtain ⟨x, hedits, hvisit, -⟩ :=
      edits_printed_append names hdecide (h (.startTag t) (by simp)) hrest hsome
    have ih := visits_printed hdecide rest hrest
    rw [visits] at ih
    rw [visits, hedits, visitsOf_append names hbefore, visitsOf, ← ih]
    cases hv : visit? names t rest with
    | none => simp [Stretch.same, hvisit, hv]
    | some v => simp [Stretch.same, hvisit, hv]
termination_by ps.length
decreasing_by
  subst_vars
  simp only [List.length_append, List.length_cons]
  omega

/-- **An editor that changes start tags changes these pieces.** -/
theorem editElements_printed {decide : Visit → Edit} (hdecide : ∀ v, decide v ≠ .remove)
    (ps : List Piece) (h : ∀ p ∈ ps, p.Fits)
    (hchange : ∀ v ∈ visitsOf names ps, decide v = .replaceTag (change v).source ∨
      decide v = .keep ∧ change v = v.tag) :
    editElements names decide (printed ps) = printed (retag names change ps) := by
  rcases firstTag?_printed h with ⟨hnone, hps⟩ | ⟨before, t, rest, rfl, hbefore, hsome⟩
  · rw [editElements_of_none hnone, retag_eq_self names hps]
  · have hrest : ∀ p ∈ rest, p.Fits := fun p hp => h p (by simp [hp])
    obtain ⟨x, hedits, -, hafter⟩ :=
      edits_printed_append names hdecide (h (.startTag t) (by simp)) hrest hsome
    rw [visitsOf_append names hbefore, visitsOf] at hchange
    have ih := editElements_printed hdecide rest hrest
      fun v hv => hchange v (List.mem_append_right _ hv)
    have hx : x.after = (((visit? names t rest).map change).getD t).source := by
      rw [hafter]
      cases hv : visit? names t rest with
      | none => rfl
      | some v =>
        have htag : v.tag = t := (eq_of_visit? names hv).1
        rcases hchange v (by simp [hv]) with hd | ⟨hd, hsame⟩
        · simp [hd]
        · simp [hd, hsame, htag]
    rw [editElements] at ih
    rw [editElements, hedits, retag_append names hbefore, retag, printed_append, printed_cons, ← ih,
      List.flatMap_cons, List.flatMap_cons, hx]
    rfl
termination_by ps.length
decreasing_by
  subst_vars
  simp only [List.length_append, List.length_cons]
  omega

/-- An editor that writes other tags changes these pieces, to tags that are related to the visits if
what it writes is. -/
theorem exists_retag_of_visits (condition : Visit → Bool) (written : StartTag → Text)
    {R : Visit → StartTag → Prop} {ps : List Piece} (h : ∀ p ∈ ps, p.Fits)
    (hchanged : ∀ v ∈ visitsOf names ps, condition v = true → ∃ u, R v u ∧ u.source = written v.tag)
    (hkept : ∀ v ∈ visitsOf names ps, condition v = false → R v v.tag) :
    ∃ change : Visit → StartTag, (∀ v ∈ visitsOf names ps, R v (change v)) ∧
      editElements names (fun v => if condition v then .replaceTag (written v.tag) else .keep)
        (printed ps) = printed (retag names change ps) := by
  have hchange (v : Visit) : ∃ u : StartTag, v ∈ visitsOf names ps → R v u ∧
      ((if condition v then Edit.replaceTag (written v.tag) else .keep) = .replaceTag u.source ∨
        (if condition v then Edit.replaceTag (written v.tag) else .keep) = .keep ∧ u = v.tag) := by
    by_cases hv : v ∈ visitsOf names ps
    · cases hc : condition v with
      | true =>
        obtain ⟨u, hu, hsource⟩ := hchanged v hv hc
        exact ⟨u, fun _ => ⟨hu, Or.inl (by simp [hsource])⟩⟩
      | false => exact ⟨v.tag, fun _ => ⟨hkept v hv hc, Or.inr ⟨by simp, rfl⟩⟩⟩
    · exact ⟨v.tag, fun hmem => absurd hmem hv⟩
  choose change hchange using hchange
  refine ⟨change, fun v hv => (hchange v hv).1, ?_⟩
  refine editElements_printed names (fun v => ?_) ps h fun v hv => (hchange v hv).2
  split <;> simp

/-- The tags are related to the old ones if what is written is. -/
theorem exists_retag (condition : Visit → Bool) (written : StartTag → Text)
    {R : StartTag → StartTag → Prop} {ps : List Piece} (h : ∀ p ∈ ps, p.Fits)
    (hchanged : ∀ v ∈ visitsOf names ps, condition v = true →
      ∃ u, R v.tag u ∧ u.source = written v.tag)
    (hkept : ∀ v ∈ visitsOf names ps, condition v = false → R v.tag v.tag) :
    ∃ change : Visit → StartTag, (∀ v ∈ visitsOf names ps, R v.tag (change v)) ∧
      editElements names (fun v => if condition v then .replaceTag (written v.tag) else .keep)
        (printed ps) = printed (retag names change ps) :=
  exists_retag_of_visits names condition written (R := fun v => R v.tag) h hchanged hkept

/-! ### The tags of elements -/

theorem isSome_splitPieces_cons {name : Text} {depth : Nat} {p q : Piece} {ps qs : List Piece}
    (hd : depthAfter? name depth q = depthAfter? name depth p)
    (h : ∀ depth, (splitPieces name depth qs).isSome = (splitPieces name depth ps).isSome) :
    (splitPieces name depth (q :: qs)).isSome = (splitPieces name depth (p :: ps)).isSome := by
  rw [splitPieces, splitPieces, hd]
  cases depthAfter? name depth p with
  | none => rfl
  | some depth => simpa using h depth

theorem tag_visit? (t : StartTag) (ps : List Piece) :
    (visit? names t ps).map Visit.tag =
      if names.contains t.name && (t.isVoid || (splitPieces t.name 0 ps).isSome) then some t
      else none := by
  rw [visit?, extentPieces]
  cases names.contains t.name with
  | false => rfl
  | true =>
    cases t.isVoid with
    | true => rfl
    | false => cases splitPieces t.name 0 ps <;> rfl

/-- An end tag is found among pieces with other start tags for the same elements. -/
theorem isSome_splitPieces_retag {ps : List Piece}
    (h : ∀ v ∈ visitsOf names ps, (change v).name = v.tag.name ∧
      (change v).selfClosing = v.tag.selfClosing) (name : Text) (depth : Nat) :
    (splitPieces name depth (retag names change ps)).isSome =
      (splitPieces name depth ps).isSome := by
  induction ps generalizing depth with
  | nil => rfl
  | cons p ps ih =>
    cases p with
    | startTag t =>
      have ih := ih fun v hv => h v (List.mem_append_right _ hv)
      refine isSome_splitPieces_cons ?_ ih
      cases hv : visit? names t ps with
      | none => rfl
      | some v =>
        obtain ⟨hname, hclosing⟩ := h v (by simp [visitsOf, hv])
        obtain ⟨rfl, -⟩ := eq_of_visit? names hv
        simp [depthAfter?, hname, hclosing]
    | text s => exact isSome_splitPieces_cons rfl (ih h)
    | comment s => exact isSome_splitPieces_cons rfl (ih h)
    | endTag s => exact isSome_splitPieces_cons rfl (ih h)
    | stray s => exact isSome_splitPieces_cons rfl (ih h)

/-- The same element is visited under other names, if the name of its tag is among them. -/
theorem visit?_of_visit? {names' : List Text} {t : StartTag} {ps : List Piece} {v : Visit}
    (h : visit? names' t ps = some v) :
    visit? names t ps = if names.contains t.name then some v else none := by
  rw [visit?] at h ⊢
  split at h
  · rw [h]
  · cases h

/-- A start tag for the same element is visited if that is. -/
theorem tag_visit?_congr {t u : StartTag} {ps qs : List Piece} (hname : u.name = t.name)
    (hclosing : u.selfClosing = t.selfClosing)
    (h : (splitPieces t.name 0 qs).isSome = (splitPieces t.name 0 ps).isSome) :
    (visit? names u qs).map Visit.tag = ((visit? names t ps).map Visit.tag).map fun _ => u := by
  rw [tag_visit?, tag_visit?, StartTag.isVoid, StartTag.isVoid, hname, hclosing, h]
  split <;> rfl

/-- **The tags visited among changed pieces are those visited before, changed where they are.** -/
theorem tags_visitsOf_retag (names' : List Text) {ps : List Piece}
    (h : ∀ v ∈ visitsOf names ps, (change v).name = v.tag.name ∧
      (change v).selfClosing = v.tag.selfClosing) :
    (visitsOf names' (retag names change ps)).map Visit.tag =
      (visitsOf names' ps).map fun v => if names.contains v.tag.name then change v else v.tag := by
  induction ps with
  | nil => rfl
  | cons p ps ih =>
    cases p with
    | startTag t =>
      have hps : ∀ v ∈ visitsOf names ps, (change v).name = v.tag.name ∧
          (change v).selfClosing = v.tag.selfClosing := fun v hv => h v (List.mem_append_right _ hv)
      have hsame : (((visit? names t ps).map change).getD t).name = t.name ∧
          (((visit? names t ps).map change).getD t).selfClosing = t.selfClosing := by
        cases hv : visit? names t ps with
        | none => exact ⟨rfl, rfl⟩
        | some v =>
          obtain ⟨rfl, -⟩ := eq_of_visit? names hv
          exact h v (by simp [visitsOf, hv])
      rw [retag, visitsOf, visitsOf, List.map_append, List.map_append, ih hps, ← Option.toList_map,
        ← Option.toList_map, tag_visit?_congr names' hsame.1 hsame.2
          (isSome_splitPieces_retag names hps t.name 0)]
      congr 2
      cases hv : visit? names' t ps with
      | none => rfl
      | some v =>
        obtain ⟨rfl, -⟩ := eq_of_visit? names' hv
        rw [visit?_of_visit? names hv]
        simp only [Option.map_some, Option.some.injEq]
        split <;> rfl
    | text s => exact ih h
    | comment s => exact ih h
    | endTag s => exact ih h
    | stray s => exact ih h

end MaskedViews.Markup
