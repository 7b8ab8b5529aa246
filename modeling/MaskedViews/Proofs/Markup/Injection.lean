import MaskedViews.Proofs.Markup.Parts

/-!
# Values in markup

A template of pieces in which placeholders stand in texts and quoted values only, and are escaped,
renders to pieces again: texts, what was fixed, and the start tags of the template with other values
in their quotes. So no value makes a start tag of its own or adds to one (`startTags_render`).
Blocks may begin and end in any texts and so repeat any number of pieces, halves of elements too.
-/

namespace MaskedViews.Markup

/-! ### Harmless nodes -/

/-- Whether a piece is found where it stands and, if it is a start tag, has the shape of one of some
tags. -/
def Piece.ShapedBy (tags : List StartTag) (p : Piece) : Prop :=
  p.Fits ∧ ∀ t, p = .startTag t → ∃ u ∈ tags, t.HasShapeOf u

/-- Whether nodes render to such pieces, for all records. -/
def Harmless (tags : List StartTag) (nodes : List Node) : Prop :=
  ∀ root scope, ∃ ps : List Piece, Node.renderAll root scope nodes = printed ps ∧
    ∀ p ∈ ps, p.ShapedBy tags

variable {tags : List StartTag}

theorem harmless_nil : Harmless tags [] := fun _ _ => ⟨[], by simp, by simp⟩

theorem Harmless.append {xs ys : List Node} (hx : Harmless tags xs) (hy : Harmless tags ys) :
    Harmless tags (xs ++ ys) := by
  intro root scope
  obtain ⟨ps, hps, hp⟩ := hx root scope
  obtain ⟨qs, hqs, hq⟩ := hy root scope
  exact ⟨ps ++ qs, by rw [Node.renderAll_append, hps, hqs, printed_append],
    List.forall_mem_append.2 ⟨hp, hq⟩⟩

/-- A single piece. -/
theorem harmless_of_piece {nodes : List Node}
    (h : ∀ root scope, ∃ p : Piece, Node.renderAll root scope nodes = p.source ∧ p.ShapedBy tags) :
    Harmless tags nodes := by
  intro root scope
  obtain ⟨p, hrender, hp⟩ := h root scope
  exact ⟨[p], by simpa using hrender, by simpa using hp⟩

theorem harmless_of_text {nodes : List Node}
    (h : ∀ root scope, '<' ∉ Node.renderAll root scope nodes) : Harmless tags nodes :=
  harmless_of_piece fun root scope => ⟨.text (Node.renderAll root scope nodes), rfl, h root scope,
    fun _ ht => nomatch ht⟩

/-- What is harmless is so inside a block, however often it is repeated. -/
theorem Harmless.node (b : Block) {body : List Node} (h : Harmless tags body) :
    Harmless tags [b.node body] := by
  intro root scope
  cases b with
  | cond expr =>
    by_cases hc : (Condition.parse expr).holds root = true
    · obtain ⟨ps, hps, hp⟩ := h root scope
      exact ⟨ps, by simp [Block.node, Node.render, hc, hps], hp⟩
    · exact ⟨[], by simp [Block.node, Node.render, hc], by simp⟩
  | each name =>
    have hitems (items : List Json) : ∃ ps : List Piece,
        (items.flatMap fun item => Node.renderAll root item body) = printed ps ∧
          ∀ p ∈ ps, p.ShapedBy tags := by
      induction items with
      | nil => exact ⟨[], rfl, by simp⟩
      | cons item items ih =>
        obtain ⟨ps, hps, hp⟩ := h root item
        obtain ⟨qs, hqs, hq⟩ := ih
        exact ⟨ps ++ qs, by rw [List.flatMap_cons, hps, hqs, printed_append],
          List.forall_mem_append.2 ⟨hp, hq⟩⟩
    simp only [Block.node, Node.renderAll_cons, Node.renderAll_nil, List.append_nil, Node.render]
    split
    · exact hitems _
    · exact ⟨[], rfl, by simp⟩

/-- To be harmless goes along with reading, if there is no `<` in what may become a literal. -/
theorem congruence_harmless (tags : List StartTag) :
    Node.Congruence (fun s => '<' ∉ s) fun xs _ => Harmless tags xs where
  nil := harmless_nil
  append := Harmless.append
  literal h := harmless_of_text fun _ _ => by simpa [Node.render] using h
  node b := Harmless.node b

/-! ### Reading pieces -/

/-- Whether all that has been read is harmless. -/
abbrev ReadsHarmless (tags : List StartTag) (r : Reading) : Prop :=
  Reading.Related (fun s => '<' ∉ s) (fun xs _ => Harmless tags xs) r r

/-- Tokens without `<` are harmless, blocks or not, if none of them is a raw placeholder. -/
theorem readsHarmless_tokens {ts : List Token} (hlt : ∀ t ∈ ts, '<' ∉ t.source)
    (hraw : ∀ t ∈ ts, ∀ path, t.mark ≠ .placeholder path true) {r : Reading}
    (hr : ReadsHarmless tags r) : ReadsHarmless tags (ts.foldl Reading.step r) := by
  induction ts generalizing r with
  | nil => exact hr
  | cons t ts ih =>
    refine ih (fun u hu => hlt u (List.mem_cons_of_mem t hu))
      (fun u hu => hraw u (List.mem_cons_of_mem t hu))
      (hr.step (congruence_harmless tags) (hlt t (by simp)) fun path raw hmark => ?_)
    cases raw with
    | true => exact absurd hmark (hraw t (by simp) path)
    | false =>
      exact harmless_of_text fun _ _ => by
        simpa [Node.render] using Text.not_mem_escape (.inl rfl) _

theorem readsHarmless_flat {ts : List Token} (hflat : ∀ t ∈ ts, t.IsFlat)
    (h : Harmless tags (ts.map Token.node)) {r : Reading} (hr : ReadsHarmless tags r) :
    ReadsHarmless tags (ts.foldl Reading.step r) := by
  rw [Token.foldl_of_isFlat hflat]
  exact hr.add (congruence_harmless tags) h

/-- Reading a piece keeps what has been read harmless. -/
theorem readsHarmless_piece {p : Piece} (hp : p.Fits)
    (htag : ∀ t, p = .startTag t → t ∈ tags ∧ t.HasQuotes) {tss : List (List Token)}
    (h : List.Forall₂ Part.Holds p.parts tss) {r : Reading} (hr : ReadsHarmless tags r) :
    ReadsHarmless tags (tss.flatten.foldl Reading.step r) := by
  have hfixed (hstart : p.isStartTag = false) (hparts : p.parts = [.fixed p.source]) :
      ReadsHarmless tags (tss.flatten.foldl Reading.step r) := by
    rw [hparts] at h
    match tss, h with
    | [ts], .cons hts .nil =>
    rw [List.flatten_singleton]
    refine readsHarmless_flat (fun t ht => .inl (hts.mark_text t ht))
      (harmless_of_piece fun root scope => ⟨p, ?_, hp, ?_⟩) hr
    · rw [Token.renderAll_of_mark_text root scope hts.mark_text, hts.1]
      rfl
    · rintro t rfl
      cases hstart
  cases p with
  | text s =>
    match tss, h with
    | [ts], .cons hts .nil =>
    rw [List.flatten_singleton]
    refine readsHarmless_tokens (fun t ht hmem => hp ?_) hts.ne_raw hr
    have := List.mem_flatMap.2 ⟨t, ht, hmem⟩
    rwa [hts.1] at this
  | startTag t =>
    obtain ⟨hmem, hquotes⟩ := htag t rfl
    refine readsHarmless_flat (isFlat_of_holds t.ne_text_of_mem_parts h)
      (harmless_of_piece fun root scope => ?_) hr
    obtain ⟨u, hu, hshape, hrender⟩ := exists_refilled_startTag root scope hp hquotes h
    refine ⟨.startTag u, hrender, hu, fun v hv => ⟨t, hmem, ?_⟩⟩
    rw [← Piece.startTag.inj hv]
    exact hshape
  | comment s => exact hfixed rfl rfl
  | endTag s => exact hfixed rfl rfl
  | stray s => exact hfixed rfl rfl

theorem readsHarmless_pieces {ps : List Piece} (hfits : ∀ p ∈ ps, p.Fits)
    (htags : ∀ t, .startTag t ∈ ps → t ∈ tags ∧ t.HasQuotes) {tss : List (List Token)}
    (h : List.Forall₂ Part.Holds (ps.flatMap Piece.parts) tss) {r : Reading}
    (hr : ReadsHarmless tags r) : ReadsHarmless tags (tss.flatten.foldl Reading.step r) := by
  induction ps generalizing tss r with
  | nil =>
    cases h
    exact hr
  | cons p ps ih =>
    rw [List.flatMap_cons] at h
    obtain ⟨us, vs, rfl, hus, hvs⟩ := exists_of_holds_append h
    rw [List.flatten_append, List.foldl_append]
    refine ih (fun q hq => hfits q (List.mem_cons_of_mem p hq))
      (fun t ht => htags t (List.mem_cons_of_mem p ht)) hvs ?_
    exact readsHarmless_piece (hfits p (by simp)) (fun t ht => htags t (by simp [ht])) hus hr

/-- **Escaped values make no start tags.** Whatever the record, every start tag of what such a
template renders to has the name, the names of the attributes and the ending of one of the
template. -/
theorem startTags_render {ps : List Piece} (hfits : ∀ p ∈ ps, p.Fits)
    (hquotes : ∀ t ∈ startTagsOf ps, t.HasQuotes) (htexts : KeepsToTexts ps) (data : Json) :
    ∀ t ∈ startTags (render (printed ps) data), ∃ u ∈ startTags (printed ps), t.HasShapeOf u := by
  have hsource : (Token.tokenize (printed ps)).flatMap Token.source =
      (ps.flatMap Piece.parts).flatMap Part.source := by
    rw [Token.source_tokenize, source_parts]
  obtain ⟨tss, htss, hread⟩ := Token.exists_divided (Token.solid_tokenize _) hsource 0 htexts
  have hstart : ReadsHarmless (startTagsOf ps) Reading.start :=
    Reading.related_start (congruence_harmless _)
  have hharmless : Harmless (startTagsOf ps) (Template.ofTokens tss.flatten) :=
    (readsHarmless_pieces hfits (fun t ht =>
      have ht := mem_startTagsOf.2 ht
      ⟨ht, hquotes t ht⟩) htss hstart).finish (congruence_harmless _)
  obtain ⟨qs, hqs, hshaped⟩ := hharmless data data
  have hrender : render (printed ps) data = printed qs := by
    rw [render_eq_of_readAlike hread, hqs]
  rw [hrender, startTags_printed qs fun q hq => (hshaped q hq).1, startTags_printed ps hfits]
  intro t ht
  exact (hshaped _ (mem_startTagsOf.1 ht)).2 t rfl

/-- A list of links, each with its address and its name. -/
def links : List Piece :=
  let href : Assignment := ⟨[], [], .quoted '"', (Token.tag "url".toList).source⟩
  let a : StartTag := ⟨"a".toList,
    [⟨[' '], "href".toList, some href⟩, ⟨[' '], "download".toList, none⟩], [], false⟩
  [.text (Token.tag "#items".toList).source, .startTag a, .text (Token.tag "name".toList).source,
    .endTag "a".toList, .text (Token.tag "/items".toList).source]

/-- A record of two links whose texts are markup. -/
def hostile : Json :=
  let item : Json := .object [("url".toList, .string "\"><script src='x'>".toList),
    ("name".toList, .string "</a><img onerror=x>".toList)]
  .object [("items".toList, .array [item, item])]

/-- There are the two links, and nothing else. -/
theorem startTags_render_links :
    (∀ p ∈ links, p.Fits) ∧ (∀ t ∈ startTagsOf links, t.HasQuotes) ∧ KeepsToTexts links ∧
      (∀ t ∈ startTags (render (printed links) hostile),
        ∃ u ∈ startTags (printed links), t.HasShapeOf u) ∧
      (startTags (render (printed links) hostile)).map StartTag.name =
        ["a".toList, "a".toList] := by
  have hfits : ∀ p ∈ links, p.Fits := by decide +kernel
  have hquotes : ∀ t ∈ startTagsOf links, t.HasQuotes := by decide +kernel
  have htexts : KeepsToTexts links := by decide +kernel
  exact ⟨hfits, hquotes, htexts, startTags_render hfits hquotes htexts hostile, by decide +kernel⟩

end MaskedViews.Markup
