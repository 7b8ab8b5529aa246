import MaskedViews.Markup.Editor
import MaskedViews.Proofs.Markup.Forest

/-!
# Editing trees

An editor that goes through the text of a forest does to the forest what it says
(`runEditor_source`). The forest is edited by recursion on its elements (`Forest.edit`): each
element of a given name is asked about once, in document order and with the text of the forest
inside it, unless it is inside an element that goes. Nothing is asked of the editor: it may remember
what it was asked and look at the places, so its answers may be any sequence of answers. One that
remembers nothing and only takes elements out prunes the forest (`editElements_remove_source`).
-/

namespace MaskedViews.Markup

open Text (byteLength)

universe u

variable {σ : Type u} (names : List Text) (ask : σ → Question → Edit × σ)

/-! ### Runs -/

namespace Run

/-- A run, and another that starts with what is remembered after it. -/
def andThen (x : Run σ) (next : σ → Run σ) : Run σ :=
  ⟨x.text ++ (next x.memory).text, x.asked ++ (next x.memory).asked, (next x.memory).memory⟩

theorem behind_andThen (s : Text) (x : Run σ) (next : σ → Run σ) :
    (x.behind s).andThen next = (x.andThen next).behind s := by
  simp [andThen, behind]

theorem asking_andThen (q : Question) (x : Run σ) (next : σ → Run σ) :
    (x.asking q).andThen next = (x.andThen next).asking q := by
  simp [andThen, asking]

theorem andThen_andThen (x : Run σ) (next next' : σ → Run σ) :
    (x.andThen next).andThen next' = x.andThen fun m => (next m).andThen next' := by
  simp [andThen]

theorem behind_behind (s s' : Text) (x : Run σ) : (x.behind s').behind s = x.behind (s ++ s') := by
  simp [behind]

theorem behind_nil (x : Run σ) : x.behind [] = x := rfl

end Run

/-! ### Trees -/

namespace Forest

theorem source_text (s : Text) (rest : Forest) : (text s rest).source = s ++ rest.source := rfl

theorem source_comment (s : Text) (rest : Forest) :
    (comment s rest).source = (Piece.comment s).source ++ rest.source := rfl

theorem source_single (t : StartTag) (rest : Forest) :
    (single t rest).source = t.source ++ rest.source := rfl

theorem source_element (t : StartTag) (inner : Forest) (ending : Text) (rest : Forest) :
    (element t inner ending rest).source =
      t.source ++ (inner.source ++ ((Piece.endTag ending).source ++ rest.source)) := by
  simp [source, pieces, Piece.source]

end Forest

/-- What an editor does at a start tag: if the element stays it goes on as `kept` does, and if it
goes as `gone` does. -/
def atTag (m : σ) (q : Question) (kept gone : σ → Run σ) : Run σ :=
  if names.contains q.tag.tag.name then
    match ask m q with
    | (.keep, m) => ((kept m).behind q.tag.tag.source).asking q
    | (.remove, m) => (gone m).asking q
    | (.replaceTag written, m) => ((kept m).behind written).asking q
  else (kept m).behind q.tag.tag.source

theorem atTag_andThen (m : σ) (q : Question) (kept gone next : σ → Run σ) :
    (atTag names ask m q kept gone).andThen next =
      atTag names ask m q (fun m => (kept m).andThen next) fun m => (gone m).andThen next := by
  rw [atTag, atTag]
  split
  · rcases ask m q with ⟨_ | _ | written, m'⟩ <;> simp only [Run.asking_andThen, Run.behind_andThen]
  · exact Run.behind_andThen _ _ _

/-- An editor goes through a forest that begins at the byte `start`: a removed element takes all
that is inside it along, a replaced start tag is all that changes of an element, and everything else
is left as it is. -/
def Forest.edit : Forest → σ → Nat → Run σ
  | nil, m, _ => ⟨[], [], m⟩
  | text s rest, m, start => (rest.edit m (start + byteLength s)).behind s
  | comment s rest, m, start =>
    let written := (Piece.comment s).source
    (rest.edit m (start + byteLength written)).behind written
  | single t rest, m, start =>
    let p : PlacedTag := ⟨start, t⟩
    atTag names ask m ⟨p, []⟩ (fun m => rest.edit m p.stop) fun m => rest.edit m p.stop
  | element t inner ending rest, m, start =>
    let p : PlacedTag := ⟨start, t⟩
    let endTag := (Piece.endTag ending).source
    let stop := p.stop + byteLength inner.source + byteLength endTag
    atTag names ask m ⟨p, inner.source⟩
      (fun m => (inner.edit m p.stop).andThen fun m => (rest.edit m stop).behind endTag)
      fun m => rest.edit m stop

/-! ### Runs over pieces -/

variable {names ask} {m : σ} {start : Nat}

theorem runEditor_of_none {s : Text} (h : firstTag? s = none) :
    runEditor names ask m start s = ⟨s, [], m⟩ := by
  rw [runEditor]
  split
  · rfl
  · next h' =>
    rw [h] at h'
    cases h'

/-- What an editor does from the first start tag of a document on. -/
theorem runEditor_of_some {s before r : Text} {t : StartTag}
    (h : firstTag? s = some (before, t, r)) :
    runEditor names ask m start s =
      let p : PlacedTag := ⟨start + byteLength before, t⟩
      match extent? t r with
      | none => ((runEditor names ask m p.stop r).behind t.source).behind before
      | some (inner, after) =>
        (atTag names ask m ⟨p, inner⟩ (fun m => runEditor names ask m p.stop r) fun m =>
          runEditor names ask m (p.stop + byteLength (passed r after)) after).behind before := by
  rw [runEditor]
  split
  · next h' =>
    rw [h] at h'
    cases h'
  · next h' =>
    rw [h] at h'
    cases h'
    dsimp only
    split
    · next hn =>
      split
      · next he => rw [he]
      · next inner after he =>
        rw [he]
        dsimp only
        rw [atTag, if_pos hn]
        rcases ask m ⟨⟨start + byteLength before, t⟩, inner⟩ with ⟨_ | _ | written, m'⟩ <;> rfl
    · next hn =>
      cases extent? t r with
      | none => rfl
      | some x =>
        dsimp only
        rw [atTag, if_neg hn]

/-- A piece that is no start tag stays. -/
theorem runEditor_source_append {p : Piece} (hp : p.Fits) (hstart : p.isStartTag = false)
    (y : Text) :
    runEditor names ask m start (p.source ++ y) =
      (runEditor names ask m (start + byteLength p.source) y).behind p.source := by
  have hfirst := firstTag?_source_append hp hstart y
  cases hy : firstTag? y with
  | none =>
    rw [hy, Option.map_none] at hfirst
    rw [runEditor_of_none hfirst, runEditor_of_none hy]
    rfl
  | some x =>
    obtain ⟨before, t, r⟩ := x
    rw [hy, Option.map_some] at hfirst
    rw [runEditor_of_some hfirst, runEditor_of_some hy, Text.byteLength_append, ← Nat.add_assoc]
    dsimp only
    cases extent? t r <;> simp only [Run.behind_behind, List.append_assoc]

/-- At a start tag in front of pieces an editor is asked about the pieces inside its element. -/
theorem runEditor_startTag_append {t : StartTag} (ht : t.Legible) {ps inner after : List Piece}
    (hps : ∀ p ∈ ps, p.Fits) (h : extentPieces t ps = some (inner, after)) (endTag : Text)
    (hend : printed ps = printed inner ++ endTag ++ printed after) :
    let p : PlacedTag := ⟨start, t⟩
    runEditor names ask m start (t.source ++ printed ps) =
      atTag names ask m ⟨p, printed inner⟩ (fun m => runEditor names ask m p.stop (printed ps))
        fun m => runEditor names ask m (p.stop + byteLength (printed inner) + byteLength endTag)
          (printed after) := by
  dsimp only
  rw [runEditor_of_some (firstTag?_startTag_append ht (printed ps)), extent?_printed ht hps, h]
  have hpassed : passed (printed ps) (printed after) = printed inner ++ endTag := by
    rw [hend]
    exact passed_append _ _
  simp only [Option.map_some, Text.byteLength_nil, Nat.add_zero, hpassed, Text.byteLength_append,
    Run.behind_nil, Nat.add_assoc]

/-! ### Runs over forests -/

/-- An editor goes through pieces that begin with a forest as through the forest, and then on. -/
theorem Forest.runEditor_append {f : Forest} (hnested : f.IsNested) (hfits : ∀ p ∈ f.pieces, p.Fits)
    {ps : List Piece} (hps : ∀ p ∈ ps, p.Fits) :
    runEditor names ask m start (printed (f.pieces ++ ps)) =
      (f.edit names ask m start).andThen fun m =>
        runEditor names ask m (start + byteLength f.source) (printed ps) := by
  induction f generalizing m start ps with
  | nil => rfl
  | text s rest ih =>
    obtain ⟨hs, hrest⟩ := List.forall_mem_cons.1 hfits
    rw [pieces, List.cons_append, printed_cons, runEditor_source_append hs rfl,
      ih hnested hrest hps, edit, Run.behind_andThen, source_text, Text.byteLength_append,
      ← Nat.add_assoc]
    rfl
  | comment s rest ih =>
    obtain ⟨hs, hrest⟩ := List.forall_mem_cons.1 hfits
    rw [pieces, List.cons_append, printed_cons, runEditor_source_append hs rfl,
      ih hnested hrest hps, edit, Run.behind_andThen, source_comment, Text.byteLength_append,
      ← Nat.add_assoc]
  | single t rest ih =>
    obtain ⟨ht, hrest⟩ := List.forall_mem_cons.1 hfits
    have happend : ∀ p ∈ rest.pieces ++ ps, p.Fits := by
      simpa [or_imp, forall_and] using ⟨hrest, hps⟩
    have hextent : extentPieces t (rest.pieces ++ ps) = some ([], rest.pieces ++ ps) := by
      rw [extentPieces, if_pos hnested.1]
    rw [pieces, List.cons_append, printed_cons, Piece.source,
      runEditor_startTag_append ht happend hextent [] rfl, edit, atTag_andThen, source_single,
      Text.byteLength_append, ← Nat.add_assoc]
    simp only [ih hnested.2 hrest hps, printed_nil, Text.byteLength_nil, Nat.add_zero]
    rfl
  | element t inner ending rest ihinner ih =>
    obtain ⟨hopen, hcloses, hinner, hrest⟩ := hnested
    simp only [pieces, List.mem_cons, List.mem_append, or_imp, forall_and, forall_eq] at hfits
    obtain ⟨ht, hfinner, hend, hfrest⟩ := hfits
    have happend : ∀ p ∈ rest.pieces ++ ps, p.Fits := by
      simpa [or_imp, forall_and] using ⟨hfrest, hps⟩
    have hbehind : ∀ p ∈ .endTag ending :: (rest.pieces ++ ps), p.Fits :=
      List.forall_mem_cons.2 ⟨hend, happend⟩
    have hall : ∀ p ∈ inner.pieces ++ .endTag ending :: (rest.pieces ++ ps), p.Fits :=
      fun p hp => (List.mem_append.1 hp).elim (hfinner p) (hbehind p)
    have hextent := extentPieces_inner ht hopen hcloses hinner (legible_of_fits hfinner)
      (rest.pieces ++ ps)
    rw [pieces, List.cons_append, List.append_assoc, List.cons_append, printed_cons, Piece.source,
      runEditor_startTag_append ht hall hextent (Piece.endTag ending).source (by simp), edit,
      atTag_andThen, source_element]
    -- behind the inner forest there is the end tag, then the rest
    have hkept (m : σ) (start : Nat) :
        runEditor names ask m start
            (printed (inner.pieces ++ .endTag ending :: (rest.pieces ++ ps))) = _ :=
      ihinner hinner hfinner hbehind
    simp only [hkept, printed_cons (.endTag ending), runEditor_source_append hend rfl,
      ih hrest hfrest hps, Run.andThen_andThen, Run.behind_andThen, Text.byteLength_append,
      PlacedTag.stop, Nat.add_assoc]
    rfl

/-- An editor goes through the text of a forest as through the forest. -/
theorem Forest.runEditor_eq_edit {f : Forest} (hnested : f.IsNested)
    (hfits : ∀ p ∈ f.pieces, p.Fits) :
    runEditor names ask m start f.source = f.edit names ask m start := by
  have : runEditor names ask m start (printed (f.pieces ++ [])) = _ :=
    runEditor_append hnested hfits (List.forall_mem_nil Piece.Fits)
  simp only [List.append_nil, printed_nil, runEditor_of_none firstTag?_nil] at this
  rw [source, this]
  simp [Run.andThen]

/-! ### Places -/

/-- Whether an editor is asked about elements from one place on and before another, one after the
other and none twice. -/
structure Run.Ascends (x : Run σ) (start stop : Nat) : Prop where
  /-- Every element begins between the places. -/
  bounds : ∀ q ∈ x.asked, start ≤ q.tag.start ∧ q.tag.start < stop
  /-- Each element begins behind those before it. -/
  pairwise : x.asked.Pairwise fun q q' => q.tag.start < q'.tag.start

namespace Run.Ascends

variable {x : Run σ} {stop : Nat}

theorem mono (h : x.Ascends start stop) {start' : Nat} (hle : start' ≤ start) :
    x.Ascends start' stop :=
  ⟨fun q hq => ⟨hle.trans (h.bounds q hq).1, (h.bounds q hq).2⟩, h.pairwise⟩

theorem behind (h : x.Ascends start stop) (s : Text) : (x.behind s).Ascends start stop :=
  ⟨h.bounds, h.pairwise⟩

theorem asking {q : Question} (h : x.Ascends start stop) (hq : q.tag.start < start)
    (hstop : q.tag.start < stop) : (x.asking q).Ascends q.tag.start stop := by
  refine ⟨fun q' hq' => ?_, List.pairwise_cons.2 ⟨fun q' hq' => ?_, h.pairwise⟩⟩
  · rcases List.mem_cons.1 hq' with rfl | hq'
    · exact ⟨Nat.le_refl _, hstop⟩
    · exact ⟨(hq.trans_le (h.bounds q' hq').1).le, (h.bounds q' hq').2⟩
  · exact hq.trans_le (h.bounds q' hq').1

theorem andThen {next : σ → Run σ} {middle : Nat} (h : x.Ascends start middle)
    (hnext : (next x.memory).Ascends middle stop) (hstart : start ≤ middle) (hstop : middle ≤ stop) :
    (x.andThen next).Ascends start stop := by
  refine ⟨fun q hq => ?_, List.pairwise_append.2 ⟨h.pairwise, hnext.pairwise, fun q hq q' hq' =>
    (h.bounds q hq).2.trans_le (hnext.bounds q' hq').1⟩⟩
  rcases List.mem_append.1 hq with hq | hq
  · exact ⟨(h.bounds q hq).1, (h.bounds q hq).2.trans_le hstop⟩
  · exact ⟨hstart.trans (hnext.bounds q hq).1, (hnext.bounds q hq).2⟩

/-- An element is asked about before those behind its start tag. -/
theorem atTag {q : Question} {kept gone : σ → Run σ} (hstop : q.tag.stop ≤ stop)
    (hkept : ∀ m, (kept m).Ascends q.tag.stop stop) (hgone : ∀ m, (gone m).Ascends q.tag.stop stop) :
    (atTag names ask m q kept gone).Ascends q.tag.start stop := by
  have hlt : q.tag.start < q.tag.stop := by
    have : 0 < byteLength q.tag.tag.source := by
      rw [StartTag.source, Text.byteLength_cons]
      exact Nat.add_pos_left (Char.utf8Size_pos _) _
    exact Nat.lt_add_of_pos_right this
  have hq := hlt.trans_le hstop
  rw [Markup.atTag]
  split
  · rcases ask m q with ⟨_ | _ | written, m'⟩
    · exact ((hkept m').behind _).asking hlt hq
    · exact (hgone m').asking hlt hq
    · exact ((hkept m').behind _).asking hlt hq
  · exact ((hkept m).behind _).mono hlt.le

end Run.Ascends

/-- An editor is asked about the elements of a forest in document order, and about none twice. -/
theorem Forest.ascends_edit (f : Forest) (m : σ) (start : Nat) :
    (f.edit names ask m start).Ascends start (start + byteLength f.source) := by
  induction f generalizing m start with
  | nil => exact ⟨by simp [edit], by simp [edit]⟩
  | text s rest ih =>
    rw [edit, source_text, Text.byteLength_append, ← Nat.add_assoc]
    exact ((ih m _).behind s).mono (Nat.le_add_right _ _)
  | comment s rest ih =>
    rw [edit, source_comment, Text.byteLength_append, ← Nat.add_assoc]
    exact ((ih m _).behind _).mono (Nat.le_add_right _ _)
  | single t rest ih =>
    rw [edit, source_single, Text.byteLength_append, ← Nat.add_assoc]
    exact .atTag (Nat.le_add_right _ _) (fun m => ih m _) fun m => ih m _
  | element t inner ending rest ihinner ih =>
    rw [edit, source_element]
    simp only [Text.byteLength_append, ← Nat.add_assoc]
    have hstop := Nat.le_add_right (PlacedTag.stop ⟨start, t⟩ + byteLength inner.source)
      (byteLength (Piece.endTag ending).source)
    refine .atTag ((Nat.le_add_right _ _).trans (hstop.trans (Nat.le_add_right _ _))) (fun m => ?_)
      fun m => (ih m _).mono ((Nat.le_add_right _ _).trans hstop)
    exact (ihinner m _).andThen (((ih _ _).behind _).mono hstop) (Nat.le_add_right _ _)
      (hstop.trans (Nat.le_add_right _ _))

/-! ### Editors without memory -/

/-- What an editor leaves and is asked about, if it does not remember anything. -/
theorem runEditor_memoryless (names : List Text) (decide : Visit → Edit) (m : σ) (start : Nat)
    (s : Text) :
    (runEditor names (memoryless decide) m start s).text = editElements names decide s ∧
      (runEditor names (memoryless decide) m start s).asked.map Question.visit =
        visits names decide s := by
  unfold editElements visits
  fun_induction edits names decide s generalizing start with
  | case1 s h => simp [runEditor_of_none h, Stretch.same]
  | case2 s before t r h hn he ih =>
    simp [runEditor_of_some h, he, Run.behind, Stretch.same, ih]
  | case3 s before t r h hn inner after he hd ih =>
    rw [List.contains_iff_mem] at hn
    simp [runEditor_of_some h, he, atTag, hn, memoryless, Question.visit, hd, Run.behind,
      Run.asking, Stretch.same, ih]
  | case4 s before t r h hn inner after he hd ih =>
    rw [List.contains_iff_mem] at hn
    simp [runEditor_of_some h, he, atTag, hn, memoryless, Question.visit, hd, Run.behind,
      Run.asking, Stretch.same, ih]
  | case5 s before t r h hn inner after he written hd ih =>
    rw [List.contains_iff_mem] at hn
    simp [runEditor_of_some h, he, atTag, hn, memoryless, Question.visit, hd, Run.behind,
      Run.asking, Stretch.same, ih]
  | case6 s before t r h hn ih =>
    rw [List.contains_iff_mem] at hn
    cases he : extent? t r with
    | none => simp [runEditor_of_some h, he, Run.behind, Stretch.same, ih]
    | some x => simp [runEditor_of_some h, he, atTag, hn, Run.behind, Stretch.same, ih]

/-- What an editor that removes elements, and remembers nothing, leaves at a start tag. -/
theorem text_atTag_remove (names : List Text) (condition : Visit → Bool) (m : σ) (q : Question)
    (kept gone : σ → Run σ) :
    (atTag names (memoryless fun v => if condition v then .remove else .keep) m q kept gone).text =
      if names.contains q.tag.tag.name && condition q.visit then (gone m).text
      else q.tag.tag.source ++ (kept m).text := by
  rw [atTag]
  cases names.contains q.tag.tag.name with
  | false => rfl
  | true =>
    cases hc : condition q.visit with
    | false => simp [memoryless, hc, Run.asking, Run.behind]
    | true => simp [memoryless, hc, Run.asking]

/-- To take elements out of a forest is to prune it. -/
theorem Forest.text_edit_remove (names : List Text) (condition : Visit → Bool) (f : Forest) (m : σ)
    (start : Nat) :
    (f.edit names (memoryless fun v => if condition v then .remove else .keep) m start).text =
      (f.prune fun v => names.contains v.tag.name && condition v).source := by
  induction f generalizing m start with
  | nil => rfl
  | text s rest ih => rw [edit, prune, source_text, ← ih m, Run.behind]
  | comment s rest ih => rw [edit, prune, source_comment, ← ih m, Run.behind]
  | single t rest ih =>
    rw [edit, text_atTag_remove, prune, apply_ite source, source_single, ih]
    rfl
  | element t inner ending rest ihinner ih =>
    rw [edit, text_atTag_remove, prune, apply_ite source, source_element]
    simp only [Run.andThen, Run.behind, ihinner, ih]
    rfl

/-- **An editor that removes elements removes these from a forest.** -/
theorem Forest.editElements_remove_source (names : List Text) (condition : Visit → Bool) {f : Forest}
    (hnested : f.IsNested) (hfits : ∀ p ∈ f.pieces, p.Fits) :
    editElements names (fun v => if condition v then .remove else .keep) f.source =
      (f.prune fun v => names.contains v.tag.name && condition v).source := by
  rw [← (runEditor_memoryless names _ () 0 f.source).1, runEditor_eq_edit hnested hfits,
    text_edit_remove]

/-- **An editor of the text of a forest edits the forest.** It is asked what the recursion on the
forest asks, in document order and nothing twice, and leaves and remembers what that does; so an
editor without memory leaves the text of the edited forest. -/
theorem Forest.runEditor_source (names : List Text) (ask : σ → Question → Edit × σ) (m : σ)
    {f : Forest} (hnested : f.IsNested) (hfits : ∀ p ∈ f.pieces, p.Fits) :
    runEditor names ask m 0 f.source = f.edit names ask m 0 ∧
      (runEditor names ask m 0 f.source).asked.Pairwise (fun q q' => q.tag.start < q'.tag.start) ∧
      ∀ decide : Visit → Edit,
        editElements names decide f.source = (f.edit names (memoryless decide) () 0).text ∧
          Markup.visits names decide f.source =
            (f.edit names (memoryless decide) () 0).asked.map Question.visit := by
  have hrun : runEditor names ask m 0 f.source = f.edit names ask m 0 :=
    runEditor_eq_edit hnested hfits
  refine ⟨hrun, hrun ▸ (ascends_edit f m 0).pairwise, fun decide => ?_⟩
  obtain ⟨htext, hasked⟩ := runEditor_memoryless names decide () 0 f.source
  rw [runEditor_eq_edit hnested hfits] at htext hasked
  exact ⟨htext.symm, hasked.symm⟩

/-- A cell with a cell in it, a comment that shows a cell, a line break and another cell. -/
def cells : Forest :=
  let td : StartTag := ⟨"td".toList, [], [], false⟩
  .element td (.text ['a'] (.element td (.text ['b'] .nil) "td".toList .nil)) "td".toList
    (.comment "<td>".toList (.single ⟨"br".toList, [], [], false⟩
      (.element td (.text ['c'] .nil) "td".toList .nil)))

/-- An editor that hides the first element it is asked about, takes out the second and keeps all
others: it counts them. -/
def hideThenRemove (m : Nat) (_ : Question) : Edit × Nat :=
  (match m with
    | 0 => .replaceTag "<td hidden>".toList
    | 1 => .remove
    | _ => .keep, m + 1)

/-- The cells are written alike and are treated differently: the inner one goes, the end tag of the
outer one stays, and the comment is not looked at. -/
theorem Forest.runEditor_source_cells :
    cells.IsNested ∧ (∀ p ∈ cells.pieces, p.Fits) ∧
      cells.source = "<td>a<td>b</td></td><!--<td>--><br><td>c</td>".toList ∧
      (runEditor ["td".toList] hideThenRemove 0 0 cells.source).text =
        "<td hidden>a</td><!--<td>--><br><td>c</td>".toList ∧
      (runEditor ["td".toList] hideThenRemove 0 0 cells.source).memory = 3 := by
  have hnested : cells.IsNested := by decide +kernel
  have hfits : ∀ p ∈ cells.pieces, p.Fits := by decide +kernel
  refine ⟨hnested, hfits, by decide +kernel, ?_⟩
  rw [(runEditor_source _ _ _ hnested hfits).1]
  decide +kernel

end MaskedViews.Markup
