import MaskedViews.Proofs.Template.Composing

/-!
# The block of a condition

A body between `#if` with an expression and `/if` is kept if the expression holds and dropped if it
does not, whatever stands around the two tags, unless the expression is blank
(`Template.render_condBlock_iff`). A blank expression never holds, but nothing is left of it when the
blanks at the ends of its tag are gone, and what is left is the opening tag of a repeated block called
`if`. The closing tag does not fit that one, so the tags and the body are copied.
-/

namespace MaskedViews

namespace Token

variable {e b : Text}

/-- The tag that begins the block of a condition. -/
def condTag (e : Text) : Token := tag ("#if ".toList ++ e)

/-- The tag that ends the block of a condition. -/
def endTag : Token := tag "/if".toList

/-! ### What the tags mean -/

theorem mark_endTag : endTag.mark = .condClose := by decide +kernel

/-- The tag of a condition means what its expression is read as. -/
theorem mark_condTag (h : ¬ Text.Blanks e) : (condTag e).mark = .condOpen (Text.trim e) := by
  have hend : Text.trimEnd e ≠ [] := fun hnil => h (Text.blanks_of_trimEnd hnil)
  have htrim : Text.trim ("#if ".toList ++ e) = "#if".toList ++ ' ' :: Text.trimEnd e := by
    have hstart : Text.trimStart ("#if ".toList ++ e) = "#if ".toList ++ e :=
      Text.trimStart_of_head (by decide) _
    rw [Text.trim, hstart, Text.trimEnd_append_of_ne_nil _ hend]
    rfl
  have hexpr : Text.trim (' ' :: Text.trimEnd e) = Text.trim e := by
    obtain ⟨d, hd, he⟩ := Text.exists_eq_append_trimEnd e
    conv => rhs; rw [he, Text.trim_append_blanks _ hd]
    exact Text.trim_blanks_append (b := [' ']) (by decide) _
  have hcondition : condition? ("#if".toList ++ ' ' :: Text.trimEnd e) = some (Text.trim e) := by
    rw [condition?, Text.rest?_eq_some_iff.2 rfl, ← hexpr]
    exact if_pos (by decide)
  rw [condTag, mark, htrim]
  unfold markOfContent
  rw [hcondition]

/-- Without an expression the tag opens a repeated block. -/
theorem mark_condTag_of_blanks (h : Text.Blanks e) : (condTag e).mark = .eachOpen "if".toList := by
  have hblanks : Text.Blanks (' ' :: e) := List.forall_mem_cons.2 ⟨by decide, h⟩
  have htrim : Text.trim ("#if ".toList ++ e) = "#if".toList :=
    (Text.trim_append_blanks "#if".toList hblanks).trans (by decide)
  rw [condTag, mark, htrim]
  decide +kernel

/-! ### The tokens of a block -/

/-- The tag that follows a text without braces ends it. -/
theorem tokenize_braceless_append_source {t : Token} {content : Text}
    (ht : t.content? = some content) (hcontent : Braceless content) (hb : Braceless b) (s : Text) :
    tokenize (b ++ (t.source ++ s)) = ofText b ++ t :: tokenize s := by
  refine tokenize_of_some ?_
  rw [firstTag?_inert_append hb.inert, firstTag?_braceless_append ht hcontent]
  simp

/-- The block of a condition, as it is written. -/
def condBlock (e b : Text) : Text := (condTag e).source ++ (b ++ endTag.source)

theorem tokenize_condBlock_append (he : Braceless e) (hb : Braceless b) (s : Text) :
    tokenize (condBlock e b ++ s) = condTag e :: (ofText b ++ endTag :: tokenize s) := by
  have hcontent : Braceless ("#if ".toList ++ e) :=
    List.forall_mem_append.2 ⟨by decide, he⟩
  rw [condBlock, List.append_assoc, List.append_assoc,
    tokenize_of_some (firstTag?_braceless_append rfl hcontent _),
    tokenize_braceless_append_source rfl (by decide) hb]
  rfl

end Token

/-! ### Text by itself -/

theorem Reading.foldl_ofText (r : Reading) (s : Text) :
    (Token.ofText s).foldl step r = r.add ((Token.ofText s).map Token.node) := by
  by_cases hs : s = []
  · rw [hs, show Token.ofText [] = [] from rfl, List.map_nil, add_nil]
    rfl
  · rw [Token.ReadAlike.foldl_ofText r hs, Token.ofText, if_neg hs]
    rfl

theorem Node.renderAll_map_ofText (root scope : Json) (s : Text) :
    Node.renderAll root scope ((Token.ofText s).map Token.node) = s := by
  by_cases hs : s = []
  · simp [hs, Token.ofText]
  · simp [hs, Token.ofText, Token.node, Token.mark, Token.source, Node.render]

namespace Template

open Token

variable {p e b s : Text}

/-! ### The block by itself -/

/-- A block with an expression is read as the block of its condition. -/
theorem foldl_condBlock (h : ¬ Text.Blanks e) :
    (condTag e :: (ofText b ++ [endTag])).foldl Reading.step Reading.start =
      ⟨[.cond (Condition.parse e) ((ofText b).map Token.node)], []⟩ := by
  have hopen : Reading.start.step (condTag e) =
      ⟨[], [⟨.cond (Text.trim e), (condTag e).source, []⟩]⟩ := by
    simp [Reading.step, mark_condTag h, Reading.start]
  have hparse : Condition.parse (Text.trim e) = Condition.parse e := by
    rw [Condition.parse, Text.trim_trim, Condition.parse]
  rw [List.foldl_cons, hopen, List.foldl_append, Reading.foldl_ofText, List.foldl_cons,
    List.foldl_nil, Reading.add, List.nil_append, Reading.step_closing mark_endTag]
  simp only [Block.node, hparse, Reading.add, List.nil_append]

/-- **A block is kept if its expression holds and dropped if it does not**, when there is one. -/
theorem render_condBlock_append (he : Braceless e) (hb : Braceless b) (h : ¬ Text.Blanks e)
    (s : Text) (data : Json) : MaskedViews.render (condBlock e b ++ s) data =
      (if (Condition.parse e).holds data then b else []) ++ MaskedViews.render s data := by
  have hread := foldl_condBlock (b := b) h
  have htokens : tokenize (condBlock e b ++ s) =
      (condTag e :: (ofText b ++ [endTag])) ++ tokenize s := by
    rw [tokenize_condBlock_append he hb]
    simp
  rw [render_eq, htokens, ofTokens_append (by rw [hread]), Node.renderAll_append, ← render_eq,
    ofTokens, hread]
  simp [Reading.finish, Node.render, Node.renderAll_map_ofText]

/-- A block without an expression is copied, when nothing behind it closes a block. -/
theorem render_condBlock_append_of_blanks (he : Braceless e) (hb : Braceless b)
    (h : Text.Blanks e) (hs : ∀ t ∈ tokenize s, ∀ c : Block, t.mark ≠ c.closeMark) (data : Json) :
    MaskedViews.render (condBlock e b ++ s) data = condBlock e b ++ MaskedViews.render s data := by
  have hmark := mark_condTag_of_blanks h
  have hopen : Reading.start.step (condTag e) =
      ⟨[], [⟨.each "if".toList, (condTag e).source, []⟩]⟩ := by
    simp [Reading.step, hmark, Reading.start]
  have hbody : (condTag e :: ofText b).foldl Reading.step Reading.start =
      ⟨[], [⟨.each "if".toList, (condTag e).source, (ofText b).map Token.node⟩]⟩ := by
    rw [List.foldl_cons, hopen, Reading.foldl_ofText, Reading.add, List.nil_append]
  -- the block that is open at the closing tag is a repeated one
  have hclose : ((Reading.mk [] [⟨.each "if".toList, (condTag e).source,
      (ofText b).map Token.node⟩]).step endTag).finish =
        .literal (condTag e).source :: ((ofText b).map Token.node ++ [endTag.node]) := by
    rw [Reading.finish_step (by simp [mark_endTag, Block.closedBy])]
    simp [Reading.finish, OpenBlock.abandoned]
  have htokens : tokenize (condBlock e b ++ s) =
      (condTag e :: ofText b) ++ (endTag :: tokenize s) := tokenize_condBlock_append he hb s
  have halone : ofTokens (tokenize s) = (tokenize s).map Token.node := by
    rw [ofTokens, Reading.finish_foldl hs]
    rfl
  rw [render_eq, htokens, ofTokens, List.foldl_append, hbody, List.foldl_cons,
    Reading.finish_foldl hs, hclose, Node.renderAll_append, ← halone, ← render_eq, condBlock]
  simp [Node.render, Node.renderAll_map_ofText, Token.node, mark_endTag]

/-! ### The block inside a template -/

/-- **The block of a condition is decided by its expression just if there is one.** Around it may
stand any self-contained template and any that closes no block; a blank expression does not hold,
and its block is not dropped but copied. -/
theorem render_condBlock_iff (hp : SelfContained p) (he : Braceless e) (hb : Braceless b)
    (hs : ∀ t ∈ tokenize s, ∀ c : Block, t.mark ≠ c.closeMark) (data : Json) :
    (MaskedViews.render (p ++ (condBlock e b ++ s)) data = MaskedViews.render p data ++
        ((if (Condition.parse e).holds data then b else []) ++ MaskedViews.render s data) ↔
      ¬ Text.Blanks e) ∧
    (Text.Blanks e → (Condition.parse e).holds data = false ∧
      MaskedViews.render (p ++ (condBlock e b ++ s)) data =
        MaskedViews.render p data ++ (condBlock e b ++ MaskedViews.render s data)) := by
  have hcopied (h : Text.Blanks e) : (Condition.parse e).holds data = false ∧
      MaskedViews.render (p ++ (condBlock e b ++ s)) data =
        MaskedViews.render p data ++ (condBlock e b ++ MaskedViews.render s data) := by
    constructor
    · rw [Condition.parse, Text.trim_of_blanks h]
      rfl
    · rw [hp.composes, render_condBlock_append_of_blanks he hb h hs]
  refine ⟨⟨fun heq h => ?_, fun h => ?_⟩, hcopied⟩
  · obtain ⟨hholds, hcopy⟩ := hcopied h
    rw [hcopy, hholds, if_neg Bool.false_ne_true, List.nil_append] at heq
    have hblock : condBlock e b ≠ [] := by simp [condBlock, condTag, Token.source, openTag]
    exact hblock (by simpa using heq)
  · rw [hp.composes, render_condBlock_append he hb h]

/-- A condition that does not hold, between placeholders. -/
theorem render_condBlock_due :
    MaskedViews.render ((tag "a".toList).source ++
        (condBlock " due == 'now'".toList "B".toList ++ (tag "c".toList).source))
      (.object [("a".toList, .string "A".toList), ("due".toList, .string "later".toList),
        ("c".toList, .string "C".toList)]) = "AC".toList := by
  rw [(render_condBlock_iff (by decide +kernel) (by decide) (by decide) ?_ _).1.2 (by decide)]
  · decide +kernel
  · have htokens : tokenize (tag "c".toList).source = [tag "c".toList] := by decide +kernel
    have hmark : (tag "c".toList).mark = .placeholder "c".toList false := by decide +kernel
    intro t ht c
    rw [htokens, List.mem_singleton] at ht
    rw [ht, hmark]
    cases c <;> nofun

/-- A block without an expression by itself: the expression does not hold, and yet nothing is
dropped. -/
theorem render_condBlock_blank :
    SelfContained [] ∧ (∀ t ∈ tokenize [], ∀ c : Block, t.mark ≠ c.closeMark) ∧ Braceless [] ∧
      Braceless "X".toList ∧ (Condition.parse []).holds (.object []) = false ∧
        MaskedViews.render ([] ++ (condBlock [] "X".toList ++ [])) (.object []) ≠
          MaskedViews.render [] (.object []) ++ MaskedViews.render [] (.object []) := by
  refine ⟨by decide +kernel, ?_, by decide, by decide, by decide +kernel, by decide +kernel⟩
  rw [show tokenize [] = [] by decide +kernel]
  nofun

end Template

end MaskedViews
