import MaskedViews.Proofs.Markup.OffsetEditing

/-!
# Replaced spans

An editor that goes through a document by offsets leaves the document with spans replaced, and each
of them belongs to an answer: a start tag that has been rewritten, or an element that has been
removed (`Question.replacement?`). It asks about elements only where they stand, so these spans are
in order and disjoint, and all text outside of them is kept (`Completes.exists_replaceFrom?`).

With this all that is reported by offsets is sound (`offsets_sound`).
-/

namespace MaskedViews.Markup

open Text (byteLength Replacement)

universe u

variable {σ : Type u} {names : List Text} {ask : σ → Question → Edit × σ} {html : Text}

/-! ### Answers -/

/-- What an answer puts into the place of what. -/
def Question.replacement? (html : Text) (q : Question) : Edit → Option Replacement
  | .keep => none
  | .remove => (q.tag.elementSpan? html).map fun (_, stop) => ⟨q.tag.start, stop, []⟩
  | .replaceTag written => some ⟨q.tag.start, q.tag.stop, written⟩

/-- What the answers to questions that are asked one after the other put into the place of what. -/
def replacements (ask : σ → Question → Edit × σ) (html : Text) (m : σ) :
    List Question → List Replacement
  | [] => []
  | q :: qs =>
    (q.replacement? html (ask m q).1).toList ++ replacements ask html (ask m q).2 qs

/-- A question about an element of a document, with what is inside the element. -/
structure Question.SoundIn (q : Question) (names : List Text) (html : Text) : Prop where
  /-- The tag has one of the names. -/
  name : names.contains q.tag.tag.name = true
  /-- The tag is reported by sound offsets. -/
  tag : q.tag.SoundIn html
  /-- What is inside the element is what stands between its offsets. -/
  inner : ∃ contentEnd stop, q.tag.elementSpan? html = some (contentEnd, stop) ∧
    html.slice? q.tag.stop contentEnd = some q.inner

/-- A span that is replaced begins where it ends, or in front of that. -/
theorem Question.SoundIn.start_le_stop {q : Question} (h : q.SoundIn names html) {e : Edit}
    {r : Replacement} (hr : q.replacement? html e = some r) :
    r.start ≤ r.stop := by
  have hlt := h.tag.bounds.1
  cases e with
  | keep => cases hr
  | remove =>
    obtain ⟨⟨a, b⟩, hspan, rfl⟩ := Option.map_eq_some_iff.1 hr
    have := h.tag.le_of_elementSpan? hspan
    dsimp only
    omega
  | replaceTag written =>
    cases hr
    exact hlt.le

theorem start_le_stop_of_mem_replacements {m : σ} {qs : List Question}
    (hqs : ∀ q ∈ qs, q.SoundIn names html) {r : Replacement}
    (hr : r ∈ replacements ask html m qs) : r.start ≤ r.stop := by
  induction qs generalizing m with
  | nil => cases hr
  | cons q qs ih =>
    rcases List.mem_append.1 hr with hr | hr
    · exact (hqs q (by simp)).start_le_stop (Option.mem_toList.1 hr)
    · exact ih (fun q hq => hqs q (List.mem_cons_of_mem _ hq)) hr

/-- What an editor does at a start tag: it passes it, or asks about its element. -/
theorem Progress.atTag?_cases {x y : Progress σ} {p : PlacedTag}
    (h : x.atTag? names ask html p = some y) :
    y = x.pass p ∨ ∃ inner contentEnd stop, names.contains p.tag.name = true ∧
      p.elementSpan? html = some (contentEnd, stop) ∧ html.slice? p.stop contentEnd = some inner ∧
      x.answered? html ⟨p, inner⟩ stop (ask x.memory ⟨p, inner⟩) = some y := by
  rw [atTag?] at h
  split at h
  · next hname =>
    cases hspan : p.elementSpan? html with
    | none =>
      rw [hspan] at h
      exact .inl (Option.some.inj h).symm
    | some span =>
      obtain ⟨contentEnd, stop⟩ := span
      rw [hspan] at h
      obtain ⟨inner, hinner, h⟩ := Option.bind_eq_some_iff.1 h
      exact .inr ⟨inner, contentEnd, stop, hname, rfl, hinner, h⟩
  · exact .inl (Option.some.inj h).symm

/-- What an answer does to what has been put out, and to what will be. -/
theorem Progress.answered?_cases {x y : Progress σ} {q : Question} {contentEnd stop : Nat}
    {e : Edit} {m : σ} (hspan : q.tag.elementSpan? html = some (contentEnd, stop))
    (h : x.answered? html q stop (e, m) = some y) :
    y.asked = x.asked ++ [q] ∧ y.memory = m ∧ ∀ {rs rest},
      html.replaceFrom? y.cursor rs = some rest → ∃ tail, y.out ++ rest = x.out ++ tail ∧
        html.replaceFrom? x.cursor ((q.replacement? html e).toList ++ rs) = some tail := by
  cases e with
  | keep =>
    cases h
    exact ⟨rfl, rfl, fun {rs rest} hrest => ⟨rest, rfl, hrest⟩⟩
  | remove =>
    obtain ⟨kept, hkept, rfl⟩ := Option.map_eq_some_iff.1 h
    refine ⟨rfl, rfl, fun {rs rest} hrest => ⟨kept ++ rest, by simp, ?_⟩⟩
    rw [Question.replacement?, hspan]
    exact Text.replaceFrom?_cons_eq_some_iff.2 ⟨kept, rest, hkept, hrest, rfl⟩
  | replaceTag written =>
    obtain ⟨kept, hkept, rfl⟩ := Option.map_eq_some_iff.1 h
    refine ⟨rfl, rfl, fun {rs rest} hrest => ⟨kept ++ (written ++ rest), by simp, ?_⟩⟩
    exact Text.replaceFrom?_cons_eq_some_iff.2 ⟨kept, rest, hkept, hrest, rfl⟩

/-- A tag that is found behind a boundary is reported by sound offsets. -/
theorem soundIn_of_nextTag? {n : Nat} {p : PlacedTag} (hn : html.isBoundary n = true)
    (h : nextTag? html n = some p) : p.SoundIn html := by
  obtain ⟨before, s, rfl, rfl⟩ := Text.isBoundary_iff.1 hn
  rw [nextTag?_append] at h
  obtain ⟨⟨x, t, r⟩, hfirst, rfl⟩ := Option.map_eq_some_iff.1 h
  have := (standsIn_mk (before ++ x) t r).soundIn
  rwa [List.append_assoc, ← eq_of_firstTag? hfirst] at this

/-- **What comes of an editor by offsets is the document with spans replaced**, from the cursor on:
those of the answers to what it still asks, which is all about elements of the document. -/
theorem Completes.exists_replaceFrom? {x : Progress σ} {run : Run σ}
    (h : Completes names ask html x run) :
    ∃ qs tail, run.asked = x.asked ++ qs ∧ (∀ q ∈ qs, q.SoundIn names html) ∧
      run.text = x.out ++ tail ∧
      html.replaceFrom? x.cursor (replacements ask html x.memory qs) = some tail := by
  induction h with
  | finish hpos hnext hfinish =>
    obtain ⟨kept, hkept, rfl⟩ := Option.map_eq_some_iff.1 hfinish
    exact ⟨[], kept, (List.append_nil _).symm, by simp, rfl, hkept⟩
  | @round x y p run hpos hnext hround hrun ih =>
    obtain ⟨qs, tail, hasked, hsound, htext, hreplace⟩ := ih
    have htag := soundIn_of_nextTag? hpos hnext
    rcases Progress.atTag?_cases hround with
      rfl | ⟨inner, contentEnd, stop, hname, hspan, hinner, h⟩
    · exact ⟨qs, tail, hasked, hsound, htext, hreplace⟩
    · obtain ⟨hyasked, hymemory, hy⟩ := Progress.answered?_cases (q := ⟨p, inner⟩) hspan h
      rw [hymemory] at hreplace
      obtain ⟨tail', htail, hreplace'⟩ := hy hreplace
      refine ⟨⟨p, inner⟩ :: qs, tail', by rw [hasked, hyasked]; simp, fun q hq => ?_,
        htext.trans htail, hreplace'⟩
      rcases List.mem_cons.1 hq with rfl | hq
      · exact ⟨hname, htag, contentEnd, stop, hspan, hinner⟩
      · exact hsound q hq

/-! ### All offsets -/

/-- **Offsets are sound**, whatever the document is. The tags are reported by sound offsets and do
not overlap, and neither do the values of their attributes. From a boundary on the end of an element
is found at boundaries behind it, and its end tag stands between them. An editor by offsets comes to
the end, and to nothing but what an editor leaves: it asks about elements where they stand, and
leaves the document with disjoint spans replaced, those of its answers. -/
theorem offsets_sound (names : List Text) (ask : σ → Question → Edit × σ) (m : σ) (html : Text) :
    ((∀ p ∈ placedTags html, p.SoundIn html) ∧
      (placedTags html).Pairwise (fun p q => p.stop ≤ q.start) ∧
      ((placedTags html).flatMap fun p => p.valueSpans.reduceOption).Pairwise
        fun v w => v.2 ≤ w.1) ∧
      (∀ name start a b, html.isBoundary start = true → closeSpan? html name start = some (a, b) →
        start ≤ a ∧ a < b ∧ b ≤ byteLength html ∧ html.isBoundary a = true ∧
          html.isBoundary b = true ∧ EndTagAt html name a b) ∧
      (∀ run, Completes names ask html (.start m) run ↔ run = runEditor names ask m 0 html) ∧
      (∀ q ∈ (runEditor names ask m 0 html).asked, q.SoundIn names html) ∧
      (html.replaceFrom? 0 (replacements ask html m (runEditor names ask m 0 html).asked) =
          some (runEditor names ask m 0 html).text ∧
        (replacements ask html m (runEditor names ask m 0 html).asked).Pairwise
          fun r r' => r.stop ≤ r'.start) ∧
      ∀ decide, editElements names decide html =
        (runEditor names (memoryless decide) () 0 html).text := by
  have hcompletes := completes_runEditor names ask m html
  obtain ⟨qs, tail, hasked, hsound, htext, hreplace⟩ := hcompletes.exists_replaceFrom?
  have hasked : (runEditor names ask m 0 html).asked = qs := hasked
  have htext : (runEditor names ask m 0 html).text = tail := htext
  refine ⟨⟨fun p hp => soundIn_of_mem_placedTags hp, pairwise_tagsFrom 0 html,
    pairwise_valueSpans html⟩, fun name start a b hstart h => endTagAt_of_closeSpan? hstart h,
    fun run => ⟨fun h => h.unique hcompletes, fun h => h ▸ hcompletes⟩, ?_, ?_, fun decide => ?_⟩
  · rwa [hasked]
  · rw [hasked, htext]
    exact ⟨hreplace, Text.pairwise_of_replaceFrom? hreplace fun r hr =>
      start_le_stop_of_mem_replacements hsound hr⟩
  · exact (runEditor_memoryless names decide () 0 html).1.symm

/-- A cell in a cell behind a character of two bytes, with a value of three bytes, an end tag in
capitals with a blank of two bytes in it, and a tag that does not end:
`é<td a='—'>ü<td>b</TD ></td>< <td`. -/
def raggedCells : Text := "é<td a='—'>ü<td>b</TD\u00a0></td>< <td".toList

/-- The outer cell ends behind the inner one. The start tag of the outer one is replaced, the inner
one goes with its end tag, and nothing else is touched. -/
theorem offsets_sound_raggedCells :
    raggedCells.isBoundary 14 = true ∧ closeSpan? raggedCells "td".toList 14 = some (28, 33) ∧
      EndTagAt raggedCells "td".toList 28 33 ∧
      replacements hideThenRemove raggedCells 0
        (runEditor ["td".toList] hideThenRemove 0 0 raggedCells).asked =
          [⟨2, 14, "<td hidden>".toList⟩, ⟨16, 28, []⟩] ∧
      raggedCells.replaceFrom? 0 [⟨2, 14, "<td hidden>".toList⟩, ⟨16, 28, []⟩] =
        some "é<td hidden>ü</td>< <td".toList := by
  have hstart : raggedCells.isBoundary 14 = true := by decide +kernel
  have hclose : closeSpan? raggedCells "td".toList 14 = some (28, 33) := by decide +kernel
  have hreplacements : replacements hideThenRemove raggedCells 0
      (runEditor ["td".toList] hideThenRemove 0 0 raggedCells).asked =
        [⟨2, 14, "<td hidden>".toList⟩, ⟨16, 28, []⟩] := by decide +kernel
  have htext : (runEditor ["td".toList] hideThenRemove 0 0 raggedCells).text =
      "é<td hidden>ü</td>< <td".toList := by decide +kernel
  obtain ⟨-, hend, -, -, ⟨hreplace, -⟩, -⟩ :=
    offsets_sound ["td".toList] hideThenRemove 0 raggedCells
  rw [hreplacements, htext] at hreplace
  exact ⟨hstart, hclose, (hend _ _ _ _ hstart hclose).2.2.2.2.2, hreplacements, hreplace⟩

end MaskedViews.Markup
