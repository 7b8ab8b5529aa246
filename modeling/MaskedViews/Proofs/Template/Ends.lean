import MaskedViews.Proofs.Template.Parallel
import MaskedViews.Template.Render

/-!
# Text around a template

Text without braces in front of a template or behind it is read as text, whatever the template is,
and so it is what it adds to the rendered text (`render_braceless_append`,
`render_append_braceless`).
-/

namespace MaskedViews

namespace Token

/-! ### In front of a template -/

/-- A text in front of which a tag begins just where it begins without it. -/
def Inert (x : Text) : Prop :=
  ∀ y, Text.cut? openTag (x ++ y) =
    (Text.cut? openTag y).map fun (before, after) => (x ++ before, after)

theorem Inert.nil : Inert [] := by
  intro y
  simp

theorem Inert.append {x y : Text} (hx : Inert x) (hy : Inert y) : Inert (x ++ y) := by
  intro z
  rw [List.append_assoc, hx, hy, Option.map_map]
  simp [Function.comp_def]

theorem Braceless.inert {b : Text} (hb : Braceless b) : Inert b :=
  fun y => cut?_braceless_append (by decide) hb y

/-- A tag begins behind inert text just where it begins without it. -/
theorem firstTag?_inert_append {x : Text} (hx : Inert x) (s : Text) :
    firstTag? (x ++ s) = (firstTag? s).map fun (before, t, r) => (x ++ before, t, r) := by
  rw [firstTag?, firstTag?, hx]
  cases Text.cut? openTag s with
  | none => rfl
  | some y =>
    obtain ⟨before, after⟩ := y
    simp only [Option.map_some, Option.bind_some]
    cases rawTag? after with
    | some z => rfl
    | none =>
      simp only [Option.map_map]
      rfl

/-- Text in front of a template becomes part of the text that the template begins with. -/
theorem tokenize_inert_append {b : Text} (hb : Inert b) (s : Text) :
    ∃ x ts, tokenize s = ofText x ++ ts ∧ tokenize (b ++ s) = ofText (b ++ x) ++ ts := by
  have hfirst := firstTag?_inert_append hb s
  cases h : firstTag? s with
  | none =>
    rw [h, Option.map_none] at hfirst
    exact ⟨s, [], by rw [tokenize_of_none h, List.append_nil],
      by rw [tokenize_of_none hfirst, List.append_nil]⟩
  | some y =>
    obtain ⟨before, t, r⟩ := y
    rw [h, Option.map_some] at hfirst
    exact ⟨before, t :: tokenize r, tokenize_of_some h, tokenize_of_some hfirst⟩

/-! ### Behind a template -/

theorem cut?_append_braceless {p : Char} {mark b : Text}
    (hm : ∀ c ∈ p :: mark, isBrace c = true) (hb : Braceless b) (s : Text) :
    Text.cut? (p :: mark) (s ++ b) =
      (Text.cut? (p :: mark) s).map fun (before, after) => (before, after ++ b) := by
  have hapart : Text.Apart (p :: mark) s b := by
    intro c d _ hd _ hmem
    have := hb d (List.mem_of_mem_head? hd)
    rw [hm d hmem] at this
    cases this
  rw [Text.cut?_append_of_apart hapart, cut?_of_braceless (hm p List.mem_cons_self) hb,
    Option.map_none, Option.or_none]

theorem rawTag?_append_braceless {b : Text} (hb : Braceless b) (s : Text) :
    rawTag? (s ++ b) = (rawTag? s).map fun (content, r) => (content, r ++ b) := by
  by_cases hs : s.head? = some '{'
  · obtain ⟨s, rfl⟩ := List.head?_eq_some_iff.1 hs
    exact cut?_append_braceless (by decide) hb s
  · rw [rawTag?_of_head hs, rawTag?_of_head]
    · rfl
    · cases s with
      | nil =>
        intro h
        obtain ⟨s, rfl⟩ := List.head?_eq_some_iff.1 h
        exact absurd (braceless_cons.1 hb).1 (by decide)
      | cons c s => simpa using hs

theorem firstTag?_append_braceless {b : Text} (hb : Braceless b) (s : Text) :
    firstTag? (s ++ b) = (firstTag? s).map fun (before, t, r) => (before, t, r ++ b) := by
  rw [firstTag?, firstTag?, openTag, cut?_append_braceless (by decide) hb]
  cases Text.cut? ['{', '{'] s with
  | none => rfl
  | some x =>
    obtain ⟨before, after⟩ := x
    simp only [Option.map_some, Option.bind_some, rawTag?_append_braceless hb]
    cases rawTag? after with
    | some y => rfl
    | none =>
      rw [closeTag, cut?_append_braceless (by decide) hb]
      simp only [Option.map_none, Option.map_map]
      rfl

/-- Text behind a template becomes part of the text that the template ends with. -/
theorem tokenize_append_braceless {b : Text} (hb : Braceless b) (s : Text) :
    ∃ ts x, tokenize s = ts ++ ofText x ∧ tokenize (s ++ b) = ts ++ ofText (x ++ b) := by
  have hfirst := firstTag?_append_braceless hb s
  fun_induction tokenize s with
  | case1 s h =>
    rw [h, Option.map_none] at hfirst
    exact ⟨[], s, rfl, tokenize_of_none hfirst⟩
  | case2 s before t r h ih =>
    rw [h, Option.map_some] at hfirst
    obtain ⟨ts, x, hts, hx⟩ := ih (firstTag?_append_braceless hb r)
    refine ⟨ofText before ++ t :: ts, x, ?_, ?_⟩
    · rw [hts, List.append_assoc, List.cons_append]
    · rw [tokenize_of_some hfirst, hx, List.append_assoc, List.cons_append]

end Token

/-! ### Text tokens at the ends -/

namespace Reading

/-- A reading of a template that other nodes stand in front of. -/
def behind (before : List Node) (r : Reading) : Reading := ⟨before ++ r.nodes, r.blocks⟩

variable (before : List Node)

theorem add_behind (added : List Node) (r : Reading) :
    (r.behind before).add added = (r.add added).behind before := by
  obtain ⟨nodes, blocks⟩ := r
  cases blocks with
  | nil => simp [behind, add]
  | cons b blocks => rfl

theorem close_behind (mark : Mark) (nodes inner : List Node) (blocks : List OpenBlock) :
    close mark (before ++ nodes) inner blocks = (close mark nodes inner blocks).behind before := by
  induction blocks generalizing inner with
  | nil => simp [close, behind]
  | cons b blocks ih =>
    rw [close, close]
    split
    · exact add_behind before _ ⟨nodes, blocks⟩
    · exact ih _

/-- What stands in front does not change how a token is read. -/
theorem step_behind (r : Reading) (t : Token) :
    (r.behind before).step t = (r.step t).behind before := by
  have hclose (mark : Mark) :
      (if (r.behind before).blocks.any (·.block.closedBy mark) then
        close mark (r.behind before).nodes [] (r.behind before).blocks
      else (r.behind before).add [.literal t.source]) =
        (if r.blocks.any (·.block.closedBy mark) then close mark r.nodes [] r.blocks
        else r.add [.literal t.source]).behind before := by
    change (if r.blocks.any (·.block.closedBy mark) then _ else _) = _
    split
    · exact close_behind before mark r.nodes [] r.blocks
    · exact add_behind before _ r
  unfold step
  cases t.mark with
  | text => exact add_behind before _ r
  | placeholder path raw => exact add_behind before _ r
  | condOpen expr =>
    change (if r.blocks.any (·.block.isCond) then _ else _) = _
    simp only
    split
    · exact add_behind before _ r
    · rfl
  | condClose => exact hclose .condClose
  | eachOpen name => rfl
  | eachClose name => exact hclose (.eachClose name)

theorem foldl_behind (r : Reading) (ts : List Token) :
    ts.foldl step (r.behind before) = (ts.foldl step r).behind before := by
  induction ts generalizing r with
  | nil => rfl
  | cons t ts ih => rw [List.foldl_cons, step_behind, ih, List.foldl_cons]

theorem finish_behind (r : Reading) : (r.behind before).finish = before ++ r.finish :=
  List.append_assoc ..

/-- The innermost open block comes last when it is given up. -/
theorem finish_cons (nodes : List Node) (b : OpenBlock) (blocks : List OpenBlock) :
    finish ⟨nodes, b :: blocks⟩ = finish ⟨nodes, blocks⟩ ++ b.abandoned := by
  simp [finish]

/-- What is added to a reading comes last. -/
theorem finish_add (added : List Node) (r : Reading) : (r.add added).finish = r.finish ++ added := by
  obtain ⟨nodes, blocks⟩ := r
  cases blocks with
  | nil => simp [add, finish]
  | cons b blocks => simp [add, finish, OpenBlock.abandoned]

end Reading

namespace Template

theorem ofTokens_text_cons (s : Text) (ts : List Token) :
    ofTokens (.text s :: ts) = .literal s :: ofTokens ts := by
  have hstart : Reading.start.step (.text s) = Reading.start.behind [.literal s] := rfl
  rw [ofTokens, List.foldl_cons, hstart, Reading.foldl_behind, Reading.finish_behind, ofTokens]
  rfl

theorem ofTokens_append_text (ts : List Token) (s : Text) :
    ofTokens (ts ++ [.text s]) = ofTokens ts ++ [.literal s] := by
  rw [ofTokens, List.foldl_append, List.foldl_cons, List.foldl_nil, ofTokens]
  exact Reading.finish_add _ _

theorem renderAll_ofText_append (root scope : Json) (s : Text) (ts : List Token) :
    Node.renderAll root scope (ofTokens (Token.ofText s ++ ts)) =
      s ++ Node.renderAll root scope (ofTokens ts) := by
  by_cases hs : s = []
  · simp [Token.ofText, hs]
  · rw [Token.ofText, if_neg hs, List.singleton_append, ofTokens_text_cons, Node.renderAll_cons,
      Node.render]

theorem renderAll_append_ofText (root scope : Json) (ts : List Token) (s : Text) :
    Node.renderAll root scope (ofTokens (ts ++ Token.ofText s)) =
      Node.renderAll root scope (ofTokens ts) ++ s := by
  by_cases hs : s = []
  · simp [Token.ofText, hs]
  · rw [Token.ofText, if_neg hs, ofTokens_append_text, Node.renderAll_append]
    simp [Node.render]

end Template

/-- Rendering goes by the nodes of the tokens, merged or not. -/
theorem render_eq (s : Text) (data : Json) :
    render s data = Node.renderAll data data (Template.ofTokens (Token.tokenize s)) := by
  rw [render, Template.render, Template.parse, Node.renderAll_merge]

/-- Text in front of a template stands in front of what is rendered. -/
theorem render_braceless_append {b : Text} (hb : Token.Braceless b) (s : Text) (data : Json) :
    render (b ++ s) data = b ++ render s data := by
  obtain ⟨x, ts, hs, hbs⟩ := Token.tokenize_inert_append hb.inert s
  rw [render_eq, render_eq, hs, hbs, Template.renderAll_ofText_append,
    Template.renderAll_ofText_append, List.append_assoc]

/-- Text behind a template stands behind what is rendered. -/
theorem render_append_braceless {b : Text} (hb : Token.Braceless b) (s : Text) (data : Json) :
    render (s ++ b) data = render s data ++ b := by
  obtain ⟨ts, x, hs, hsb⟩ := Token.tokenize_append_braceless hb s
  rw [render_eq, render_eq, hs, hsb, Template.renderAll_append_ofText,
    Template.renderAll_append_ofText, List.append_assoc]

end MaskedViews
