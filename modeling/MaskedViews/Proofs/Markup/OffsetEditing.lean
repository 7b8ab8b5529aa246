import MaskedViews.Proofs.Markup.Offsets
import MaskedViews.Proofs.Markup.TreeEditing

/-!
# Editing by offsets

An editor can also go through a document with two offsets into it. Up to the cursor the document has
been dealt with: what stays of it has been put out. From the position on the next start tag is
looked for. All text that is put out, and the inside of each element that is asked about, is sliced
out of the document, and a slice that is not there would be the end of the editor.

It never comes to that (`completes_runEditor`): the cursor and the position are boundaries of the
document, with text that stays between them (`Progress.At`), in every round.
-/

namespace MaskedViews.Markup

open Text (byteLength)

universe u

variable {σ : Type u}

/-! ### Elements -/

/-- The bytes at which the content of an element and the element end. -/
def PlacedTag.elementSpan? (html : Text) (p : PlacedTag) : Option (Nat × Nat) :=
  if p.tag.isVoid then some (p.stop, p.stop) else closeSpan? html p.tag.name p.stop

/-- An element ends behind its content, which begins behind the start tag, all in the document. -/
theorem PlacedTag.SoundIn.le_of_elementSpan? {p : PlacedTag} {html : Text} {a b : Nat}
    (hp : p.SoundIn html) (h : p.elementSpan? html = some (a, b)) :
    p.stop ≤ a ∧ a ≤ b ∧ b ≤ byteLength html := by
  rw [PlacedTag.elementSpan?] at h
  split at h
  · cases h
    exact ⟨Nat.le_refl _, Nat.le_refl _, hp.bounds.2⟩
  · obtain ⟨hle, hlt, hlength, -⟩ :=
      endTagAt_of_closeSpan? (hp.boundaries p.stop (by simp [PlacedTag.offsets])) h
    exact ⟨hle, hlt.le, hlength⟩

/-- What is passed over of an element stands in front of what follows it. -/
theorem passed_append_of_extent? {t : StartTag} {r inner after : Text}
    (h : extent? t r = some (inner, after)) : passed r after ++ after = r := by
  obtain ⟨ending, rfl⟩ := eq_of_extent? h
  rw [← List.append_assoc, passed_append]

/-- The element of a tag in its place is the one that is found behind it. -/
theorem elementSpan?_append (before : Text) (t : StartTag) (r : Text) :
    PlacedTag.elementSpan? (before ++ (t.source ++ r)) ⟨byteLength before, t⟩ =
      (extent? t r).map fun (inner, after) =>
        (byteLength (before ++ t.source) + byteLength inner,
          byteLength (before ++ t.source) + byteLength (passed r after)) := by
  rw [PlacedTag.elementSpan?, extent?, PlacedTag.stop, ← Text.byteLength_append]
  split
  · have : passed r r = [] := passed_append [] r
    simp [this]
  · rw [← List.append_assoc, closeSpan?_append]
    cases hsplit : splitElement? t.name r with
    | none => rfl
    | some x =>
      obtain ⟨content, after⟩ := x
      obtain ⟨written, between, -, hr⟩ := exists_of_splitElement? hsplit
      have hpassed : byteLength r - byteLength after = byteLength (passed r after) := by
        rw [hr, ← List.append_assoc, passed_append, Text.byteLength_append, Nat.add_sub_cancel]
      simp only [Option.map_some, hpassed]

/-! ### Rounds -/

/-- How far an editor has come that goes through a document by offsets. -/
structure Progress (σ : Type u) where
  /-- The text that has been put out. -/
  out : Text
  /-- The byte up to which the document has been put out or left out. -/
  cursor : Nat
  /-- The byte from which on the next tag is looked for. -/
  pos : Nat
  /-- What has been asked. -/
  asked : List Question
  /-- What is remembered. -/
  memory : σ

namespace Progress

/-- Nothing has been done yet. -/
def start (m : σ) : Progress σ := ⟨[], 0, 0, [], m⟩

/-- The editor goes on behind a tag. -/
def pass (x : Progress σ) (p : PlacedTag) : Progress σ := { x with pos := p.stop }

/-- The editor goes on after it has asked about an element that ends at the byte `stop`. If the
element does not stay as it is, what stands in front of it is put out. -/
def answered? (html : Text) (x : Progress σ) (q : Question) (stop : Nat) :
    Edit × σ → Option (Progress σ)
  | (.keep, m) => some ⟨x.out, x.cursor, q.tag.stop, x.asked ++ [q], m⟩
  | (.remove, m) =>
    (html.slice? x.cursor q.tag.start).map fun kept =>
      ⟨x.out ++ kept, stop, stop, x.asked ++ [q], m⟩
  | (.replaceTag written, m) =>
    (html.slice? x.cursor q.tag.start).map fun kept =>
      ⟨x.out ++ (kept ++ written), q.tag.stop, q.tag.stop, x.asked ++ [q], m⟩

/-- What an editor does at a start tag. -/
def atTag? (names : List Text) (ask : σ → Question → Edit × σ) (html : Text) (x : Progress σ)
    (p : PlacedTag) : Option (Progress σ) :=
  if names.contains p.tag.name then
    match p.elementSpan? html with
    | none => some (x.pass p)
    | some (contentEnd, stop) =>
      (html.slice? p.stop contentEnd).bind fun inner =>
        x.answered? html ⟨p, inner⟩ stop (ask x.memory ⟨p, inner⟩)
  else some (x.pass p)

/-- What comes of an editor that finds no more tags: the rest of the document is put out. -/
def finish? (html : Text) (x : Progress σ) : Option (Run σ) :=
  (html.slice? x.cursor (byteLength html)).map fun kept => ⟨x.out ++ kept, x.asked, x.memory⟩

end Progress

/-- An editor goes on from some progress to the end, and that comes of it: in every round the tag is
looked for from a boundary on, and all slices that it takes are there. -/
inductive Completes (names : List Text) (ask : σ → Question → Edit × σ) (html : Text) :
    Progress σ → Run σ → Prop
  /-- There is no tag any more. -/
  | finish {x : Progress σ} {run : Run σ} (hpos : html.isBoundary x.pos = true)
      (hnext : nextTag? html x.pos = none) (hfinish : x.finish? html = some run) :
      Completes names ask html x run
  /-- The editor goes on behind a tag. -/
  | round {x y : Progress σ} {p : PlacedTag} {run : Run σ} (hpos : html.isBoundary x.pos = true)
      (hnext : nextTag? html x.pos = some p) (hround : x.atTag? names ask html p = some y)
      (hrun : Completes names ask html y run) : Completes names ask html x run

variable {names : List Text} {ask : σ → Question → Edit × σ} {html : Text}

/-! ### No slice is missing -/

namespace Progress

variable {x : Progress σ} {done kept ahead : Text}

/-- The invariant of an editor: the document is what has been dealt with up to the cursor, the text
between the cursor and the position, and what lies ahead. -/
structure At (x : Progress σ) (html done kept ahead : Text) : Prop where
  /-- The three make up the document. -/
  whole : html = done ++ (kept ++ ahead)
  /-- The cursor is behind what has been dealt with. -/
  cursor : x.cursor = byteLength done
  /-- The position is in front of what lies ahead. -/
  pos : x.pos = byteLength (done ++ kept)

namespace At

theorem isBoundary (h : x.At html done kept ahead) : html.isBoundary x.pos = true := by
  rw [h.whole, h.pos, ← List.append_assoc]
  exact Text.isBoundary_append _ _

theorem nextTag?_eq (h : x.At html done kept ahead) :
    nextTag? html x.pos =
      (firstTag? ahead).map fun (before, t, _) => ⟨x.pos + byteLength before, t⟩ := by
  rw [h.whole, h.pos, ← List.append_assoc, nextTag?_append]
  simp only [Text.byteLength_append]

/-- What stands between the cursor and a byte ahead can be put out. -/
theorem slice?_eq {before r : Text} (h : x.At html done kept (before ++ r)) :
    html.slice? x.cursor (x.pos + byteLength before) = some (kept ++ before) := by
  rw [h.whole, h.cursor, h.pos, ← Text.byteLength_append, List.append_assoc,
    ← List.append_assoc kept]
  exact Text.slice?_append _ _ _

/-- The rest of the document can be put out. -/
theorem finish?_eq (h : x.At html done kept ahead) :
    x.finish? html = some ⟨x.out ++ (kept ++ ahead), x.asked, x.memory⟩ := by
  rw [finish?, h.cursor, h.whole, Text.slice?_append_right]
  rfl

variable {y : Progress σ} {before r : Text} {t : StartTag}

/-- The position may go on behind a tag that stays, -/
theorem forward (h : x.At html done kept (before ++ (t.source ++ r)))
    (hcursor : y.cursor = x.cursor)
    (hpos : y.pos = x.pos + byteLength before + byteLength t.source) :
    y.At html done (kept ++ (before ++ t.source)) r where
  whole := by rw [h.whole]; simp
  cursor := hcursor.trans h.cursor
  pos := by rw [hpos, h.pos]; simp [Nat.add_assoc]

/-- and the cursor may go on with it, behind a tag or an element that has been dealt with. -/
theorem renew {element after : Text} (h : x.At html done kept (before ++ (element ++ after)))
    (hcursor : y.cursor = y.pos) (hpos : y.pos = x.pos + byteLength before + byteLength element) :
    y.At html (done ++ (kept ++ (before ++ element))) [] after where
  whole := by rw [h.whole]; simp
  cursor := by rw [hcursor, hpos, h.pos]; simp [Nat.add_assoc]
  pos := by rw [hpos, h.pos]; simp [Nat.add_assoc]

/-- The element of a tag ahead is the one that is found behind it. -/
theorem elementSpan?_eq (h : x.At html done kept (before ++ (t.source ++ r))) :
    let p : PlacedTag := ⟨x.pos + byteLength before, t⟩
    p.elementSpan? html = (extent? t r).map fun (inner, after) =>
      (p.stop + byteLength inner, p.stop + byteLength (passed r after)) := by
  have hstart : x.pos + byteLength before = byteLength (done ++ kept ++ before) := by
    rw [h.pos, Text.byteLength_append _ before]
  have hwhole : html = done ++ kept ++ before ++ (t.source ++ r) := by
    rw [h.whole]
    simp
  dsimp only
  rw [hwhole, hstart, elementSpan?_append, Text.byteLength_append _ t.source]
  rfl

/-- What is inside an element ahead can be sliced out. -/
theorem slice?_inner {inner after : Text} (h : x.At html done kept (before ++ (t.source ++ r)))
    (hextent : extent? t r = some (inner, after)) :
    let p : PlacedTag := ⟨x.pos + byteLength before, t⟩
    html.slice? p.stop (p.stop + byteLength inner) = some inner := by
  obtain ⟨ending, rfl⟩ := eq_of_extent? hextent
  refine Text.slice?_eq_some_iff.2
    ⟨done ++ (kept ++ (before ++ t.source)), ending ++ after, ?_, ?_, ?_⟩
  · rw [h.whole]
    simp
  · simp [PlacedTag.stop, h.pos, Nat.add_assoc]
  · simp [PlacedTag.stop, h.pos, Nat.add_assoc]

/-- An element ahead is asked about as it stands there. -/
theorem atTag?_eq {inner after : Text} (h : x.At html done kept (before ++ (t.source ++ r)))
    (hname : names.contains t.name = true) (hextent : extent? t r = some (inner, after)) :
    let p : PlacedTag := ⟨x.pos + byteLength before, t⟩
    x.atTag? names ask html p = x.answered? html ⟨p, inner⟩
      (p.stop + byteLength (passed r after)) (ask x.memory ⟨p, inner⟩) := by
  dsimp only
  rw [atTag?, if_pos hname, h.elementSpan?_eq, hextent]
  dsimp only [Option.map_some]
  rw [h.slice?_inner hextent, Option.bind_some]

/-- A tag ahead that begins no element is passed. -/
theorem atTag?_eq_pass (h : x.At html done kept (before ++ (t.source ++ r)))
    (hextent : extent? t r = none) :
    let p : PlacedTag := ⟨x.pos + byteLength before, t⟩
    x.atTag? names ask html p = some (x.pass p) := by
  dsimp only
  rw [atTag?, h.elementSpan?_eq, hextent]
  exact ite_self _

/-- The editor goes on at the first tag ahead. -/
theorem completes {run : Run σ} (h : x.At html done kept ahead)
    (hfirst : firstTag? ahead = some (before, t, r))
    (hround : x.atTag? names ask html ⟨x.pos + byteLength before, t⟩ = some y)
    (hrun : Completes names ask html y run) : Completes names ask html x run :=
  .round h.isBoundary (by rw [h.nextTag?_eq, hfirst]; rfl) hround hrun

end At

/-- What comes of an editor that leaves the text that stays in front of what comes of the text
ahead. -/
def andThen (x : Progress σ) (kept : Text) (run : Run σ) : Run σ :=
  ⟨x.out ++ (kept ++ run.text), x.asked ++ run.asked, run.memory⟩

end Progress

/-- An editor by offsets that stands somewhere in a document comes to the end of it, and what comes
of that is what an editor leaves of the text ahead, behind what has been put out and the text that
stays. -/
theorem completes_of_at {x : Progress σ} {done kept ahead : Text} {m : σ} {start : Nat}
    (h : x.At html done kept ahead) (hmemory : x.memory = m) (hstart : x.pos = start) :
    Completes names ask html x (x.andThen kept (runEditor names ask m start ahead)) := by
  fun_induction runEditor names ask m start ahead generalizing x done kept with
  | case1 m start s hfirst =>
    refine .finish h.isBoundary (by rw [h.nextTag?_eq, hfirst]; rfl) ?_
    rw [h.finish?_eq, hmemory, Progress.andThen, List.append_nil]
  | @case2 m start s before t r hfirst p hname hextent ih =>
    subst hmemory hstart
    obtain rfl := eq_of_firstTag? hfirst
    have hrun := ih (x := x.pass p) (h.forward rfl rfl) rfl rfl
    convert h.completes hfirst (h.atTag?_eq_pass hextent) hrun using 1
    simp [Progress.andThen, Progress.pass, Run.behind]
  | @case3 m start s before t r hfirst p hname inner after hextent m' hask ih =>
    subst hmemory hstart
    obtain rfl := eq_of_firstTag? hfirst
    let y : Progress σ := ⟨x.out, x.cursor, p.stop, x.asked ++ [⟨p, inner⟩], m'⟩
    have hround : x.atTag? names ask html p = some y := by
      rw [h.atTag?_eq hname hextent, hask]
      rfl
    have hrun := ih (x := y) (h.forward rfl rfl) rfl rfl
    convert h.completes hfirst hround hrun using 1
    simp [Progress.andThen, y, Run.behind, Run.asking]
  | @case4 m start s before t r hfirst p hname inner after hextent m' hask stop ih =>
    subst hmemory hstart
    obtain rfl := eq_of_firstTag? hfirst
    let y : Progress σ := ⟨x.out ++ (kept ++ before), stop, stop, x.asked ++ [⟨p, inner⟩], m'⟩
    have hround : x.atTag? names ask html p = some y := by
      rw [h.atTag?_eq hname hextent, hask, Progress.answered?, h.slice?_eq]
      rfl
    have hy : y.At html (done ++ (kept ++ (before ++ (t.source ++ passed r after)))) [] after := by
      rw [← passed_append_of_extent? hextent, ← List.append_assoc t.source] at h
      exact h.renew rfl (by simp [y, stop, p, PlacedTag.stop, Nat.add_assoc])
    have hrun := ih hy rfl rfl
    convert h.completes hfirst hround hrun using 1
    simp [Progress.andThen, y, Run.behind, Run.asking]
  | @case5 m start s before t r hfirst p hname inner after hextent written m' hask ih =>
    subst hmemory hstart
    obtain rfl := eq_of_firstTag? hfirst
    let y : Progress σ :=
      ⟨x.out ++ (kept ++ before ++ written), p.stop, p.stop, x.asked ++ [⟨p, inner⟩], m'⟩
    have hround : x.atTag? names ask html p = some y := by
      rw [h.atTag?_eq hname hextent, hask, Progress.answered?, h.slice?_eq]
      rfl
    have hrun := ih (x := y) (h.renew rfl rfl) rfl rfl
    convert h.completes hfirst hround hrun using 1
    simp [Progress.andThen, y, Run.behind, Run.asking]
  | @case6 m start s before t r hfirst p hname ih =>
    subst hmemory hstart
    obtain rfl := eq_of_firstTag? hfirst
    have hrun := ih (x := x.pass p) (h.forward rfl rfl) rfl rfl
    convert h.completes hfirst (if_neg hname) hrun using 1
    simp [Progress.andThen, Progress.pass, Run.behind]

/-- **No slice is missing**: an editor by offsets comes to the end of every document, and to the
same as any editor. -/
theorem completes_runEditor (names : List Text) (ask : σ → Question → Edit × σ) (m : σ)
    (html : Text) : Completes names ask html (.start m) (runEditor names ask m 0 html) := by
  have h : (Progress.start m).At html [] [] html := ⟨rfl, rfl, rfl⟩
  exact completes_of_at h rfl rfl

/-- There is one way only to the end of a document. -/
theorem Completes.unique {x : Progress σ} {run run' : Run σ} (h : Completes names ask html x run)
    (h' : Completes names ask html x run') : run = run' := by
  induction h with
  | finish hpos hnext hfinish =>
    cases h' with
    | finish hpos' hnext' hfinish' => exact Option.some.inj (hfinish.symm.trans hfinish')
    | round hpos' hnext' hround' hrun' => cases hnext.symm.trans hnext'
  | round hpos hnext hround hrun ih =>
    cases h' with
    | finish hpos' hnext' hfinish' => cases hnext.symm.trans hnext'
    | round hpos' hnext' hround' hrun' =>
      cases hnext.symm.trans hnext'
      cases hround.symm.trans hround'
      exact ih hrun'

end MaskedViews.Markup
