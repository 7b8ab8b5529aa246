import MaskedViews.Proofs.Template.Accounts
import MaskedViews.Proofs.Template.Paths

/-!
# Placeholders of a template

Whether a tag is a placeholder is decided by the tag alone: blocks may turn out to be none, but the
placeholders inside them are then placeholders of what is around them. So the placeholders of a
template are those of its tags (`mem_placeholders_parse`), in whatever way its blocks are nested.
-/

namespace MaskedViews

namespace Token

/-- Whether a token is a tag. -/
def isTag : Token → Bool
  | text _ => false
  | _ => true

/-- The path of a placeholder. -/
def path? (t : Token) : Option Text :=
  match t.mark with
  | .placeholder path _ => some path
  | _ => none

/-- The tags of a template, in order. -/
def tags (s : Text) : List Token := (tokenize s).filter isTag

/-- The paths of the placeholders of a template, as often as they occur. -/
def paths (s : Text) : List Text := (tags s).filterMap path?

theorem path?_of_not_isTag {t : Token} (h : t.isTag = false) : t.path? = none := by
  cases t with
  | text s => rfl
  | tag content => cases h
  | rawTag content => cases h

theorem filterMap_path?_tags (s : Text) :
    (tags s).filterMap path? = (tokenize s).filterMap path? := by
  rw [tags, List.filterMap_filter]
  refine List.filterMap_congr fun t _ => ?_
  split
  · rfl
  · next h => rw [path?_of_not_isTag (by simpa using h)]

theorem filter_isTag_ofText (s : Text) : (ofText s).filter isTag = [] := by
  by_cases hs : s = [] <;> simp [ofText, hs, isTag]

theorem tags_of_none {s : Text} (h : firstTag? s = none) : tags s = [] := by
  rw [tags, tokenize_of_none h, filter_isTag_ofText]

theorem isTag_of_firstTag? {s before r : Text} {t : Token} (h : firstTag? s = some (before, t, r)) :
    t.isTag = true := by
  obtain ⟨_, -, ⟨content, rfl, -⟩ | ⟨content, rfl, -⟩⟩ := firstTag?_cases h
  · rfl
  · rfl

theorem tags_of_some {s before r : Text} {t : Token} (h : firstTag? s = some (before, t, r)) :
    tags s = t :: tags r := by
  rw [tags, tokenize_of_some h, List.filter_append, filter_isTag_ofText, List.nil_append,
    List.filter_cons_of_pos (isTag_of_firstTag? h), tags]

/-- Text in front of a template adds no tag. -/
theorem tags_braceless_append {b : Text} (hb : Braceless b) (s : Text) : tags (b ++ s) = tags s := by
  obtain ⟨x, ts, hs, hbs⟩ := tokenize_inert_append hb.inert s
  rw [tags, tags, hs, hbs, List.filter_append, List.filter_append, filter_isTag_ofText,
    filter_isTag_ofText]

/-- Text behind a template adds no tag. -/
theorem tags_append_braceless {b : Text} (hb : Braceless b) (s : Text) : tags (s ++ b) = tags s := by
  obtain ⟨ts, x, hs, hsb⟩ := tokenize_append_braceless hb s
  rw [tags, tags, hs, hsb, List.filter_append, List.filter_append, filter_isTag_ofText,
    filter_isTag_ofText]

/-! ### Which tags are placeholders -/

theorem condition?_of_isPath {content : Text} (h : isPath content = true) :
    condition? content = none := by
  have : Text.rest? "#if".toList content = none := by
    cases content with
    | nil => rfl
    | cons c s =>
      have hc : '#' ≠ c := by
        rintro rfl
        exact absurd (isPathChar_of_isPath h '#' (by simp)) (by decide)
      exact if_neg hc
  rw [condition?, this]

theorem head?_ne_of_isPath {content : Text} (h : isPath content = true) {c : Char}
    (hc : isPathChar c = false) : content.head? ≠ some c := by
  intro hhead
  have := isPathChar_of_isPath h c (List.mem_of_mem_head? hhead)
  rw [hc] at this
  cases this

theorem markOfContent_of_isPath {content : Text} (h : isPath content = true) :
    markOfContent content = .placeholder content false := by
  have hif : content ≠ "/if".toList := by
    rintro rfl
    exact absurd h (by decide)
  unfold markOfContent
  simp only [condition?_of_isPath h, if_neg hif]
  split
  · exact absurd rfl (head?_ne_of_isPath h (by decide))
  · exact absurd rfl (head?_ne_of_isPath h (by decide))
  · rw [if_pos h]

theorem exists_of_condition? {content expr : Text} (h : condition? content = some expr) :
    ∃ b w, content = "#if".toList ++ b :: w ∧ Text.isBlank b = true ∧ Text.trim (b :: w) = expr := by
  unfold condition? at h
  split at h
  · next b w hrest =>
    split at h
    · next hb => exact ⟨b, w, Text.rest?_eq_some_iff.1 hrest, hb, Option.some.inj h⟩
    · cases h
  · cases h

/-- All that the content of a tag, without blanks at its ends, can mean, and what it is then. -/
theorem markOfContent_cases (content : Text) :
    (∃ b w, content = "#if".toList ++ b :: w ∧ Text.isBlank b = true ∧
      markOfContent content = .condOpen (Text.trim (b :: w))) ∨
    (content = "/if".toList ∧ markOfContent content = .condClose) ∨
    (∃ w, content = '#' :: w ∧ isPath (Text.trim w) = true ∧
      markOfContent content = .eachOpen (Text.trim w)) ∨
    (∃ w, content = '/' :: w ∧ isPath (Text.trim w) = true ∧
      markOfContent content = .eachClose (Text.trim w)) ∨
    (isPath content = true ∧ markOfContent content = .placeholder content false) ∨
    markOfContent content = .text := by
  unfold markOfContent
  split
  · next expr hcond =>
    obtain ⟨b, w, hcontent, hb, rfl⟩ := exists_of_condition? hcond
    exact .inl ⟨b, w, hcontent, hb, rfl⟩
  split
  · next hif => exact .inr (.inl ⟨hif, rfl⟩)
  split
  · next w _ _ =>
    split
    · next hpath => exact .inr (.inr (.inl ⟨w, rfl, hpath, rfl⟩))
    · simp
  · next w _ _ =>
    split
    · next hpath => exact .inr (.inr (.inr (.inl ⟨w, rfl, hpath, rfl⟩)))
    · simp
  · split
    · next hpath => exact .inr (.inr (.inr (.inr (.inl ⟨hpath, rfl⟩))))
    · simp

theorem isPath_of_markOfContent {content path : Text} {raw : Bool}
    (h : markOfContent content = .placeholder path raw) :
    isPath content = true ∧ path = content ∧ raw = false := by
  obtain ⟨_, _, -, -, hm⟩ | ⟨-, hm⟩ | ⟨_, -, -, hm⟩ | ⟨_, -, -, hm⟩ | ⟨hpath, hm⟩ | hm :=
    markOfContent_cases content <;> rw [hm] at h <;> cases h
  exact ⟨hpath, rfl, rfl⟩

theorem isPath_of_markOfContent_eachOpen {content name : Text}
    (h : markOfContent content = .eachOpen name) : isPath name = true := by
  obtain ⟨_, _, -, -, hm⟩ | ⟨-, hm⟩ | ⟨_, -, hpath, hm⟩ | ⟨_, -, -, hm⟩ | ⟨-, hm⟩ | hm :=
    markOfContent_cases content <;> rw [hm] at h <;> cases h
  exact hpath

/-- A tag that is no placeholder and means something is between double braces. -/
theorem exists_tag_of_mark {t : Token} (hplaceholder : ∀ path raw, t.mark ≠ .placeholder path raw)
    (htext : t.mark ≠ .text) : ∃ content, t = tag content := by
  cases t with
  | text s => exact absurd rfl htext
  | tag content => exact ⟨content, rfl⟩
  | rawTag content =>
    rw [mark] at hplaceholder htext
    split at htext
    · next h => exact absurd (if_pos h) (hplaceholder _ _)
    · exact absurd rfl htext

/-- A repeated block has the name of a path. -/
theorem isPath_of_eachOpen {t : Token} {name : Text} (h : t.mark = .eachOpen name) :
    isPath name = true := by
  obtain ⟨content, rfl⟩ := exists_tag_of_mark (t := t) (by simp [h]) (by simp [h])
  exact isPath_of_markOfContent_eachOpen h

/-- What stands between the braces of a tag. -/
def content? : Token → Option Text
  | text _ => none
  | tag content => some content
  | rawTag content => some content

theorem path?_eq_some_iff_mark {t : Token} {path : Text} :
    t.path? = some path ↔ ∃ raw, t.mark = .placeholder path raw := by
  unfold path?
  cases t.mark <;> simp

/-- A tag is a placeholder if what it says is a path, blanks aside. -/
theorem path?_eq_some_iff {t : Token} {path : Text} :
    t.path? = some path ↔
      ∃ content, t.content? = some content ∧ isPath path = true ∧ path = Text.trim content := by
  rw [path?_eq_some_iff_mark]
  cases t with
  | text s => simp [mark, content?]
  | tag content =>
    constructor
    · rintro ⟨raw, h⟩
      obtain ⟨hpath, rfl, -⟩ := isPath_of_markOfContent h
      exact ⟨content, rfl, hpath, rfl⟩
    · rintro ⟨_, h, hpath, rfl⟩
      cases h
      exact ⟨false, markOfContent_of_isPath hpath⟩
  | rawTag content =>
    constructor
    · rintro ⟨raw, h⟩
      rw [mark] at h
      split at h
      · next hpath =>
        obtain ⟨rfl, -⟩ := Mark.placeholder.inj h
        exact ⟨content, rfl, hpath, rfl⟩
      · cases h
    · rintro ⟨_, h, hpath, rfl⟩
      cases h
      exact ⟨true, if_pos hpath⟩

theorem isStripped_eq (remove : Text → Bool) (t : Token) :
    t.isStripped remove = t.path?.any remove := by
  unfold isStripped path?
  cases t.mark <;> rfl

end Token

/-! ### Placeholders and blocks -/

namespace Token

theorem paths_node (t : Token) : t.node.paths = t.path?.toList := by
  unfold node path?
  cases t.mark <;> simp [Node.paths]

theorem path?_of_openMark {t : Token} {b : Block} (h : t.mark = b.openMark) : t.path? = none := by
  cases b <;> simp [path?, h, Block.openMark]

theorem path?_of_closeMark {t : Token} {b : Block} (h : t.mark = b.closeMark) : t.path? = none := by
  cases b <;> simp [path?, h, Block.closeMark]

end Token

theorem Block.paths_node (b : Block) (body : List Node) :
    (b.node body).paths = Node.pathsOf body := by
  cases b <;> simp [Block.node, Node.paths]

/-- The placeholders of nodes are those of the tags that they are read from. -/
theorem Node.account_pathsOf :
    Account fun _ nodes ts => pathsOf nodes = ts.filterMap Token.path? where
  nil _ := by simp [pathsOf]
  append h h' := by rw [pathsOf_append, h, h', List.filterMap_append]
  single {_ t} _ := by
    rw [pathsOf, pathsOf, List.append_nil, Token.paths_node, List.filterMap_cons]
    cases t.path? <;> rfl
  outside h := h
  block {b _ opening closing body ts} hopen hclose _ h := by
    rw [pathsOf, pathsOf, List.append_nil, Block.paths_node, h,
      List.filterMap_cons_none (Token.path?_of_openMark hopen), List.filterMap_append,
      List.filterMap_cons_none (Token.path?_of_closeMark hclose), List.filterMap_nil,
      List.append_nil]

theorem Template.pathsOf_ofTokens (ts : List Token) :
    Node.pathsOf (ofTokens ts) = ts.filterMap Token.path? :=
  account_ofTokens Node.account_pathsOf ts

/-- **The placeholders of a template are those of its tags.** -/
theorem Template.mem_placeholders_parse {s path : Text} :
    path ∈ (parse s).placeholders ↔ ∃ t ∈ Token.tags s, t.path? = some path := by
  rw [placeholders, List.mem_eraseDups, parse, Node.pathsOf_merge, pathsOf_ofTokens,
    ← Token.filterMap_path?_tags, List.mem_filterMap]

theorem Token.mem_paths {s path : Text} : path ∈ paths s ↔ path ∈ (Template.parse s).placeholders := by
  rw [Template.mem_placeholders_parse, paths, List.mem_filterMap]

end MaskedViews
