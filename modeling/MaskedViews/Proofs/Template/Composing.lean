import MaskedViews.Proofs.Template.Lifting
import MaskedViews.Proofs.Template.Seams
import MaskedViews.Proofs.Template.Woven

/-!
# Templates one after the other

Two templates one after the other give the text of the first and then the text of the second,
whatever the second is, if and only if the first is self-contained (`Template.selfContained_iff`).
Three things can reach into a template from behind: closing braces that one of its tags lacks, an
opening brace next to one at its end, and the closing tag of a block that is still open there.
-/

namespace MaskedViews

/-! ### Tags by what they mean -/

namespace Token

theorem source_ne_nil_of_mark {t : Token} (h : t.mark ≠ .text) : t.source ≠ [] := by
  cases t with
  | text s => exact absurd rfl h
  | tag content => simp [source, openTag]
  | rawTag content => simp [source, openRaw]

/-- A tag with an opening brace between its braces means nothing, or opens a block. -/
theorem mark_of_mem_content {t : Token} {content : Text} (hcontent : t.content? = some content)
    (h : '{' ∈ content) : t.mark = .text ∨ ∃ expr, t.mark = .condOpen expr := by
  have hpath {s : Text} (h : '{' ∈ s) : ¬ isPath (Text.trim s) = true := fun hs =>
    absurd (braceless_of_isPath_trim hs '{' h) (by decide)
  cases t with
  | text s => exact .inl rfl
  | tag s =>
    obtain rfl : s = content := Option.some.inj hcontent
    have htrim : '{' ∈ Text.trim s := (Text.mem_trim (by decide)).2 h
    generalize hs : Text.trim s = u at htrim
    rw [mark, hs]
    unfold markOfContent
    split
    · exact .inr ⟨_, rfl⟩
    split
    · next hif => exact absurd (hif ▸ htrim) (by decide)
    split
    · exact .inl (if_neg (hpath (by simpa using htrim)))
    · exact .inl (if_neg (hpath (by simpa using htrim)))
    · exact .inl (if_neg (hs ▸ hpath h))
  | rawTag s =>
    obtain rfl : s = content := Option.some.inj hcontent
    exact .inl (if_neg (hpath h))

theorem exists_ends_of_isPath {s : Text} (h : isPath s = true) :
    ∃ c r t d, s = c :: r ∧ s = t ++ [d] ∧ Text.isBlank c = false ∧ Text.isBlank d = false := by
  have hchar : ∀ c ∈ s, Text.isBlank c = false := fun c hc =>
    (Markup.isFirm_iff.1 (isFirm_of_isPathChar (isPathChar_of_isPath h c hc))).1
  rcases List.eq_nil_or_concat s with rfl | ⟨t, d, hs⟩
  · cases h
  · obtain ⟨c, r, hs'⟩ := List.exists_cons_of_ne_nil (l := s) (by simp [hs])
    exact ⟨c, r, t, d, hs', by simpa using hs, hchar c (by simp [hs']), hchar d (by simp [hs])⟩

/-- A slash, a blank and its name close a repeated block, even one that is called `if`. -/
theorem markOfContent_close {name : Text} (h : isPath name = true) :
    markOfContent (Text.trim ('/' :: ' ' :: name)) = .eachClose name := by
  obtain ⟨c, r, t, d, hhead, hlast, hc, hd⟩ := exists_ends_of_isPath h
  have hcontent : Text.trim ('/' :: ' ' :: name) = '/' :: ' ' :: name :=
    Text.trim_of_ends (t := '/' :: ' ' :: t) (by decide) hd rfl (by rw [hlast]; rfl)
  have hblank : Text.Blanks [' '] := by simp [Text.Blanks, show Text.isBlank ' ' = true by decide]
  have hname : Text.trim (' ' :: name) = name := by
    rw [← List.singleton_append, Text.trim_blanks_append (b := [' ']) hblank,
      Text.trim_of_ends hc hd hhead hlast]
  have hcond : condition? ('/' :: ' ' :: name) = none := rfl
  rw [hcontent, markOfContent]
  simp only [hcond, hname]
  rw [if_neg (by simp), if_pos h]

/-- Every block that a tag opens has a tag that closes it. -/
theorem exists_closing {b : Block} {opening : Token} (h : opening.mark = b.openMark) :
    ∃ t : Token, t.Clean ∧ t.mark = b.closeMark := by
  cases b with
  | cond expr =>
    have hmark : (tag "/if".toList).mark = .condClose := by decide +kernel
    exact ⟨tag "/if".toList, by show ∀ c ∈ "/if".toList, _; decide, hmark⟩
  | each name =>
    have hname := isPath_of_eachOpen h
    refine ⟨tag ('/' :: ' ' :: name), ?_, markOfContent_close hname⟩
    show ∀ c ∈ '/' :: ' ' :: name, _
    rw [List.forall_mem_cons, List.forall_mem_cons]
    refine ⟨by decide, by decide, fun c hc => ?_⟩
    have hchar := isPathChar_of_isPath hname c hc
    exact ⟨isBrace_of_isPathChar hchar, isBarrier_of_isPathChar hchar⟩

end Token

/-- A tag that fits the innermost open block closes it. -/
theorem Reading.step_closing {nodes : List Node} {b : OpenBlock} {blocks : List OpenBlock}
    {t : Token} (h : t.mark = b.block.closeMark) :
    step ⟨nodes, b :: blocks⟩ t = add [b.block.node b.body] ⟨nodes, blocks⟩ := by
  obtain ⟨block, opening, body⟩ := b
  cases block with
  | cond expr =>
    have hmark : t.mark = .condClose := h
    simp [step, hmark, close, Block.closedBy]
  | each name =>
    have hmark : t.mark = .eachClose name := h
    simp [step, hmark, close, Block.closedBy]

/-- A token that closes no open block is read by itself if nothing follows it. -/
theorem Reading.finish_step {r : Reading} {t : Token}
    (h : ∀ b ∈ r.blocks, b.block.closedBy t.mark = false) :
    (r.step t).finish = r.finish ++ [t.node] := by
  have hadd := finish_add [t.node] r
  have henter (b : Block) :
      finish ⟨r.nodes, ⟨b, t.source, []⟩ :: r.blocks⟩ = r.finish ++ [.literal t.source] :=
    finish_cons ..
  have hnone : r.blocks.any (·.block.closedBy t.mark) = false := by simpa using h
  rw [step]
  cases hmark : t.mark with
  | text => simpa only [Token.node, hmark] using hadd
  | placeholder path raw => simpa only [Token.node, hmark] using hadd
  | condOpen expr =>
    simp only [Token.node, hmark] at hadd ⊢
    split
    · exact hadd
    · exact henter (.cond expr)
  | condClose =>
    simp only [Token.node, hmark] at hadd hnone ⊢
    rwa [hnone, if_neg Bool.false_ne_true]
  | eachOpen name =>
    simp only [Token.node, hmark]
    exact henter (.each name)
  | eachClose name =>
    simp only [Token.node, hmark] at hadd hnone ⊢
    rwa [hnone, if_neg Bool.false_ne_true]

/-- Tokens that close no block are read one by one if nothing follows them. -/
theorem Reading.finish_foldl {ts : List Token} (h : ∀ t ∈ ts, ∀ b : Block, t.mark ≠ b.closeMark)
    (r : Reading) : (ts.foldl step r).finish = r.finish ++ ts.map Token.node := by
  induction ts generalizing r with
  | nil => simp
  | cons t ts ih =>
    obtain ⟨ht, hts⟩ := List.forall_mem_cons.1 h
    have hstep : (r.step t).finish = r.finish ++ [t.node] := finish_step fun b _ => by
      rw [← Bool.not_eq_true, Block.closedBy_iff]
      exact ht b.block
    rw [List.foldl_cons, ih hts, hstep, List.map_cons, List.append_assoc, List.singleton_append]

namespace Template

/-! ### Tokens one after the other -/

/-- Tokens that leave no block open are read apart from those that follow. -/
theorem ofTokens_append {ts : List Token}
    (h : (ts.foldl Reading.step Reading.start).blocks = []) (us : List Token) :
    ofTokens (ts ++ us) = ofTokens ts ++ ofTokens us := by
  have hts : ts.foldl Reading.step Reading.start = Reading.start.behind (ofTokens ts) := by
    rw [ofTokens]
    generalize ts.foldl Reading.step Reading.start = r at h
    obtain ⟨nodes, blocks⟩ := r
    obtain rfl : blocks = [] := h
    simp [Reading.finish, Reading.behind, Reading.start]
  rw [ofTokens, List.foldl_append, hts, Reading.foldl_behind, Reading.finish_behind]
  rfl

/-- A token at the end that closes no block is read by itself. -/
theorem ofTokens_append_singleton {ts : List Token} {t : Token}
    (h : ∀ b : Block, t.mark ≠ b.closeMark) : ofTokens (ts ++ [t]) = ofTokens ts ++ [t.node] := by
  rw [ofTokens, List.foldl_append, Reading.finish_foldl (by simpa using h), ofTokens]
  rfl

/-! ### Nothing reaches into a self-contained template -/

/-- A template that has all of its own tags. -/
structure SelfContained (s : Text) : Prop where
  /-- No tag lacks its closing braces. -/
  ended : ∀ t ∈ Token.tokenize s, t.IsEnded
  /-- It does not end with an opening brace. -/
  last : s.getLast? ≠ some '{'
  /-- No block is open at its end. One that is closed may have blocks inside it that are not. -/
  closed : ((Token.tokenize s).foldl Reading.step Reading.start).blocks = []

instance : DecidablePred SelfContained := fun s =>
  decidable_of_iff ((∀ t ∈ Token.tokenize s, t.IsEnded) ∧ s.getLast? ≠ some '{' ∧
      ((Token.tokenize s).foldl Reading.step Reading.start).blocks = [])
    ⟨fun ⟨h₁, h₂, h₃⟩ => ⟨h₁, h₂, h₃⟩, fun h => ⟨h.ended, h.last, h.closed⟩⟩

/-- A template behind which every other is rendered as it is by itself. -/
def Composes (s : Text) : Prop :=
  ∀ t data, MaskedViews.render (s ++ t) data =
    MaskedViews.render s data ++ MaskedViews.render t data

open Token

variable {s x : Text} {ts : List Token}

theorem SelfContained.composes (h : SelfContained s) : Composes s := by
  intro y data
  obtain ⟨ts, x, hx⟩ := exists_settles s
  have hcut := hx.forall_isEnded_iff.1 h.ended
  have hinert := inert_of_cut?_eq_none hcut (hx.getLast?.not.1 h.last)
  obtain ⟨x', us, hy, hxy⟩ := tokenize_inert_append hinert y
  have hread : ReadAlike (tokenize (s ++ y)) (tokenize s ++ tokenize y) := by
    rw [hx.tokenize_append, hxy, hx.tokenize_eq_append_ofText hcut, hy]
    simpa using (ReadAlike.refl ts).append ((ReadAlike.ofText_append x x').append (.refl us))
  rw [render_eq_of_readAlike hread, ofTokens_append h.closed, Node.renderAll_append, ← render_eq,
    ← render_eq]

/-! ### What reaches into a template that is not self-contained -/

/-- Braces that close a tag which is left over make it text, with themselves and all before them. -/
theorem render_append_of_firstTag? {y before content : Text} {t : Token} (hx : Settles s ts x)
    (h : firstTag? (x ++ y) = some (before, t, [])) (hcontent : t.content? = some content)
    (hopen : '{' ∈ content) (data : Json) :
    MaskedViews.render (s ++ y) data = Node.renderAll data data (ofTokens ts) ++ (x ++ y) := by
  have hmark := mark_of_mem_content hcontent hopen
  have hclose (b : Block) : t.mark ≠ b.closeMark := by
    rcases hmark with hmark | ⟨expr, hmark⟩ <;> cases b <;> simp [hmark, Block.closeMark]
  have hnode : t.node = .literal t.source := by
    rcases hmark with hmark | ⟨expr, hmark⟩ <;> simp [Token.node, hmark]
  rw [render_eq, hx.tokenize_append_of_firstTag? h, ofTokens_append_singleton hclose, hnode,
    Node.renderAll_append, renderAll_append_ofText, eq_of_firstTag? h]
  simp [Node.render]

/-- No tag lacks its closing braces, since they could follow. -/
theorem Composes.cut?_eq_none (h : Composes s) (hx : Settles s ts x) :
    Text.cut? openTag x = none := by
  cases hcut : Text.cut? openTag x with
  | none => rfl
  | some z =>
    obtain ⟨before, after⟩ := z
    obtain ⟨close, hclose, hopen⟩ := exists_close hcut hx.rest
    have hliteral {k : Text} (hk : Braceless k) : MaskedViews.render s .null ++
        MaskedViews.render (openTag ++ (k ++ close)) .null =
          Node.renderAll .null .null (ofTokens ts) ++ (x ++ (openTag ++ (k ++ close))) := by
      obtain ⟨t, content, hfirst, hcontent, hmem⟩ := hopen k hk
      rw [← h, render_append_of_firstTag? hx hfirst hcontent hmem]
    -- two placeholders of nothing render alike, and are not of one length where they are text
    have hsame : MaskedViews.render (openTag ++ (['a'] ++ close)) .null =
        MaskedViews.render (openTag ++ (['a', 'a'] ++ close)) .null := by
      rcases hclose with rfl | rfl <;> decide +kernel
    have hlength := hliteral (k := ['a']) (by decide)
    rw [hsame, hliteral (k := ['a', 'a']) (by decide)] at hlength
    simp at hlength

/-- There is no opening brace at the end, since it could become one of a tag. -/
theorem Composes.getLast?_ne (h : Composes s) (hx : Settles s ts x)
    (hcut : Text.cut? openTag x = none) : x.getLast? ≠ some '{' := by
  intro hlast
  obtain ⟨y, rfl⟩ := List.getLast?_eq_some_iff.1 hlast
  have hinert : Inert y :=
    inert_of_cut?_eq_none (Text.cut?_eq_none_of_append_left hcut) (getLast?_ne_of_cut? hcut)
  let t : Token := tag ['a']
  have hfirst : firstTag? (y ++ ['{'] ++ '{' :: ('a' :: closeTag)) = some (y, t, []) := by
    have htag : firstTag? (['{'] ++ '{' :: ('a' :: closeTag)) = some ([], t, []) := by decide
    rw [List.append_assoc, firstTag?_inert_append hinert, htag]
    simp
  have hclose (b : Block) : t.mark ≠ b.closeMark := by
    rw [show t.mark = .placeholder ['a'] false by decide +kernel]
    cases b <;> simp [Block.closeMark]
  have hnone : Node.renderAll .null .null [t.node] = [] := by decide +kernel
  have hlength := congrArg List.length (h ('{' :: ('a' :: closeTag)) .null)
  rw [render_eq, hx.tokenize_append_of_firstTag? hfirst, ofTokens_append_singleton hclose,
    render_eq s, hx.tokenize_eq_append_ofText hcut, Node.renderAll_append, renderAll_append_ofText,
    renderAll_append_ofText, hnone] at hlength
  simp at hlength

theorem lookup_null_ne (path : Text) (items : List Json) :
    Json.null.lookup path ≠ some (.array items) := by
  rw [Json.lookup]
  split
  · simp
  · cases pathKeys path with
    | nil => simp [Json.follow]
    | cons k ks => simp [Json.follow, Json.member?]

/-- For no record, a block is not longer than what is inside it. -/
theorem length_render_node_le (b : Block) (body : List Node) :
    ((b.node body).render .null .null).length ≤ (Node.renderAll .null .null body).length := by
  cases b with
  | cond expr =>
    rw [Block.node, Node.render]
    split <;> simp
  | each name =>
    rw [Block.node, Node.render]
    split
    · next items h => exact absurd h (lookup_null_ne name items)
    · simp

/-- No block is open at the end, since it could be closed, and its opening tag is no text then. -/
theorem Composes.blocks_eq_nil (h : Composes s) (hx : Settles s ts x)
    (hcut : Text.cut? openTag x = none) (hinert : Inert x) :
    ((tokenize s).foldl Reading.step Reading.start).blocks = [] := by
  have haccount : Node.Account fun _ _ _ => True :=
    ⟨fun _ => trivial, fun _ _ => trivial, fun _ => trivial, fun _ => trivial,
      fun _ _ _ _ => trivial⟩
  have hstart : Reading.start.IsReadFrom (fun _ _ _ => True) [] := trivial
  have hread := hstart.foldl haccount (tokenize s)
  have hrender := render_eq s .null
  rw [ofTokens] at hrender
  generalize hr : (tokenize s).foldl Reading.step Reading.start = r at hread hrender
  obtain ⟨nodes, blocks⟩ := r
  cases blocks with
  | nil => rfl
  | cons b blocks =>
    obtain ⟨-, opening, -, -, -, hopen, hsource, -, -⟩ := hread
    obtain ⟨t, hclean, hmark⟩ := exists_closing hopen
    have hopening : 0 < b.opening.length := by
      rw [← hsource, List.length_pos_iff]
      exact source_ne_nil_of_mark (by cases hb : b.block <;> simp [hopen, hb, Block.openMark])
    have hfirst : firstTag? (x ++ t.source) = some (x, t, []) := by
      have htag := firstTag?_clean_append hclean []
      rw [List.append_nil] at htag
      rw [firstTag?_inert_append hinert, htag]
      simp
    have htokens : tokenize (s ++ t.source) = tokenize s ++ [t] := by
      rw [hx.tokenize_append_of_firstTag? hfirst, hx.tokenize_eq_append_ofText hcut]
    have hlength := congrArg List.length (h t.source .null)
    rw [hrender, render_eq, htokens, ofTokens, List.foldl_append, hr, List.foldl_cons,
      List.foldl_nil, Reading.step_closing hmark, Reading.finish_add,
      Reading.finish_cons] at hlength
    have hle := length_render_node_le b.block b.body
    simp only [OpenBlock.abandoned, Node.renderAll_append, Node.renderAll_cons, Node.renderAll_nil,
      Node.render, List.length_append, List.length_nil] at hlength
    omega

/-- **A template is self-contained just if every other may follow it.** The two then render to the
text of the one and the text of the other. -/
theorem selfContained_iff (s : Text) :
    SelfContained s ↔ ∀ t data, MaskedViews.render (s ++ t) data =
      MaskedViews.render s data ++ MaskedViews.render t data := by
  refine ⟨SelfContained.composes, fun h => ?_⟩
  obtain ⟨ts, x, hx⟩ := exists_settles s
  have hcut := Composes.cut?_eq_none h hx
  have hlast := Composes.getLast?_ne h hx hcut
  exact ⟨hx.forall_isEnded_iff.2 hcut, hx.getLast?.not.2 hlast,
    Composes.blocks_eq_nil h hx hcut (inert_of_cut?_eq_none hcut hlast)⟩

/-- A block inside a closed one need not be closed. -/
example : SelfContained
    ([tag "#if a".toList, tag "#b".toList, tag "/if".toList].flatMap Token.source) := by
  decide +kernel

end Template

end MaskedViews
