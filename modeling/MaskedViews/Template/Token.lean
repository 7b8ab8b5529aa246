import MaskedViews.Text.Blank
import MaskedViews.Text.Alphanumeric

/-!
# Template tokens

A template is cut into the tags between double braces, the raw tags between triple braces and the
text around them. A token keeps what stands between its braces, so the tokens of a template put
together give the template back (`source_tokenize`).

A tag begins at the first two opening braces. If a third one follows and three closing braces come
anywhere after it, the tag is raw and ends at the first three; otherwise it ends at the first two
closing braces. Without those there is no tag any more, and the rest of the template is text.

What a tag means is decided by the content alone, blanks at its ends aside (`Token.mark`): a tag
that means nothing is text too.
-/

namespace MaskedViews

/-- A piece of a template as it is written. -/
inductive Token where
  /-- Text outside tags. -/
  | text (s : Text)
  /-- A tag between double braces, with its content. -/
  | tag (content : Text)
  /-- A tag between triple braces, with its content. -/
  | rawTag (content : Text)
  deriving DecidableEq, Repr

/-- What a token means. -/
inductive Mark where
  /-- Text, or a tag that means nothing. -/
  | text
  /-- The value at a path, escaped unless it is raw. -/
  | placeholder (path : Text) (raw : Bool)
  /-- The beginning of a block with a condition. -/
  | condOpen (expr : Text)
  /-- The end of a block with a condition. -/
  | condClose
  /-- The beginning of a block that is repeated. -/
  | eachOpen (name : Text)
  /-- The end of a block that is repeated. -/
  | eachClose (name : Text)
  deriving DecidableEq, Repr

namespace Token

/-- Two opening braces. -/
def openTag : Text := ['{', '{']

/-- Two closing braces. -/
def closeTag : Text := ['}', '}']

/-- Three opening braces. -/
def openRaw : Text := ['{', '{', '{']

/-- Three closing braces. -/
def closeRaw : Text := ['}', '}', '}']

/-- The text that a token was cut from. -/
def source : Token → Text
  | text s => s
  | tag content => openTag ++ (content ++ closeTag)
  | rawTag content => openRaw ++ (content ++ closeRaw)

/-! ### Cutting a template into tokens -/

/-- The content of a raw tag and what follows it, given what follows two opening braces. -/
def rawTag? : Text → Option (Text × Text)
  | '{' :: s => Text.cut? closeRaw s
  | _ => none

theorem eq_of_rawTag? {s content r : Text} (h : rawTag? s = some (content, r)) :
    s = '{' :: (content ++ (closeRaw ++ r)) := by
  unfold rawTag? at h
  split at h
  · rw [Text.eq_of_cut? h]
  · cases h

/-- The first tag of a template, with the text before it and what follows it. -/
def firstTag? (s : Text) : Option (Text × Token × Text) :=
  (Text.cut? openTag s).bind fun (before, after) =>
    match rawTag? after with
    | some (content, r) => some (before, rawTag content, r)
    | none => (Text.cut? closeTag after).map fun (content, r) => (before, tag content, r)

/-- The first tag of a template is between triple braces if they are closed, and else between double
ones. -/
theorem firstTag?_cases {s before r : Text} {t : Token} (h : firstTag? s = some (before, t, r)) :
    ∃ after, Text.cut? openTag s = some (before, after) ∧
      ((∃ content, t = rawTag content ∧ rawTag? after = some (content, r)) ∨
        ∃ content, t = tag content ∧ rawTag? after = none ∧
          Text.cut? closeTag after = some (content, r)) := by
  obtain ⟨⟨b, after⟩, hb, h⟩ := Option.bind_eq_some_iff.1 h
  dsimp only at h
  split at h
  · next content r' hraw =>
    simp only [Option.some.injEq, Prod.mk.injEq] at h
    obtain ⟨rfl, rfl, rfl⟩ := h
    exact ⟨after, hb, .inl ⟨content, rfl, hraw⟩⟩
  · next hraw =>
    obtain ⟨⟨content, r'⟩, hclose, h⟩ := Option.map_eq_some_iff.1 h
    simp only [Prod.mk.injEq] at h
    obtain ⟨rfl, rfl, rfl⟩ := h
    exact ⟨after, hb, .inr ⟨content, rfl, hraw, hclose⟩⟩

theorem eq_of_firstTag? {s before r : Text} {t : Token} (h : firstTag? s = some (before, t, r)) :
    s = before ++ (t.source ++ r) := by
  obtain ⟨after, hb, ⟨content, rfl, hraw⟩ | ⟨content, rfl, -, hclose⟩⟩ := firstTag?_cases h
  · simp [Text.eq_of_cut? hb, eq_of_rawTag? hraw, source, openTag, openRaw]
  · simp [Text.eq_of_cut? hb, Text.eq_of_cut? hclose, source]

theorem source_ne_nil_of_firstTag? {s before r : Text} {t : Token}
    (h : firstTag? s = some (before, t, r)) : t.source ≠ [] := by
  obtain ⟨_, -, ⟨content, rfl, -⟩ | ⟨content, rfl, -⟩⟩ := firstTag?_cases h
  · simp [source, openRaw]
  · simp [source, openTag]

/-- What follows the first tag is shorter than the template. -/
theorem length_of_firstTag? {s before r : Text} {t : Token}
    (h : firstTag? s = some (before, t, r)) : r.length < s.length := by
  have := List.length_pos_iff.2 (source_ne_nil_of_firstTag? h)
  rw [eq_of_firstTag? h, List.length_append, List.length_append]
  omega

/-- The token of a stretch of text, unless it is empty. -/
def ofText (s : Text) : List Token := if s = [] then [] else [text s]

/-- The tokens of a template. -/
def tokenize (s : Text) : List Token :=
  match _h : firstTag? s with
  | none => ofText s
  | some (before, t, r) => ofText before ++ t :: tokenize r
termination_by s.length
decreasing_by exact length_of_firstTag? _h

@[simp] theorem flatMap_source_ofText (s : Text) : (ofText s).flatMap source = s := by
  by_cases h : s = [] <;> simp [ofText, h, source]

/-- Nothing of a template is lost in its tokens. -/
theorem source_tokenize (s : Text) : (tokenize s).flatMap source = s := by
  fun_induction tokenize s with
  | case1 s h => simp
  | case2 s before t r h ih =>
    rw [List.flatMap_append, flatMap_source_ofText, List.flatMap_cons, ih, eq_of_firstTag? h]

/-! ### What a tag means -/

/-- The characters of a path in a template. -/
def isPathChar (c : Char) : Bool := Text.isAlphanumeric c || c = '_' || c = '-' || c = '.'

/-- Whether a text is a path: letters, digits, `_`, `-` and dots, the first no dot. -/
def isPath (s : Text) : Bool := s ≠ [] && s.head? ≠ some '.' && s.all isPathChar

/-- The condition of an opening `#if` tag, which a blank sets apart from the word. -/
def condition? (content : Text) : Option Text :=
  match Text.rest? "#if".toList content with
  | some (c :: s) => if Text.isBlank c then some (Text.trim (c :: s)) else none
  | _ => none

/-- What a tag means, by its content without blanks at the ends. -/
def markOfContent (content : Text) : Mark :=
  match condition? content with
  | some expr => .condOpen expr
  | none =>
    if content = "/if".toList then .condClose
    else
      match content with
      | '#' :: s => if isPath (Text.trim s) then .eachOpen (Text.trim s) else .text
      | '/' :: s => if isPath (Text.trim s) then .eachClose (Text.trim s) else .text
      | _ => if isPath content then .placeholder content false else .text

/-- What a token means. -/
def mark : Token → Mark
  | text _ => .text
  | tag content => markOfContent (Text.trim content)
  | rawTag content =>
    if isPath (Text.trim content) then .placeholder (Text.trim content) true else .text

/-! ### Stripping -/

/-- Whether a token is a placeholder whose path is to be removed. -/
def isStripped (remove : Text → Bool) (token : Token) : Bool :=
  match token.mark with
  | .placeholder path _ => remove path
  | _ => false

/-- The template without the placeholders whose path is to be removed; all else stays as it is. -/
def strip (remove : Text → Bool) (template : Text) : Text :=
  ((tokenize template).filter fun token => !token.isStripped remove).flatMap source

/-- Stripping nothing changes nothing. -/
theorem strip_false (template : Text) : strip (fun _ => false) template = template := by
  have h : ∀ token : Token, token.isStripped (fun _ => false) = false := by
    intro token
    unfold isStripped
    split <;> rfl
  rw [strip, List.filter_eq_self.2 fun token _ => by simp [h token], source_tokenize]

end Token

end MaskedViews
