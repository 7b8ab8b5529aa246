import MaskedViews.Json.Reader
import MaskedViews.Yaml.Gap

/-!
# Quoted scalars

A scalar in quotes ends with the same quote. Between single quotes a quote is written twice. Between
double quotes a backslash begins an escape, and what it stands for is never a blank that could be
lost; before a line break it takes the break away. No mark between documents may stand in the
scalar.
-/

namespace MaskedViews.Yaml

/-- The character that a backslash and a letter stand for. -/
def namedEscape? : Char → Option Char
  | '0' => some '\x00'
  | 'a' => some '\x07'
  | 'b' => some '\x08'
  | 't' => some '\t'
  | '\t' => some '\t'
  | 'n' => some '\n'
  | 'v' => some '\x0b'
  | 'f' => some '\x0c'
  | 'r' => some '\r'
  | 'e' => some '\x1b'
  | ' ' => some ' '
  | '"' => some '"'
  | '/' => some '/'
  | '\\' => some '\\'
  | 'N' => some '\u0085'
  | '_' => some '\u00a0'
  | 'L' => some '\u2028'
  | 'P' => some '\u2029'
  | _ => none

/-- How many hexadecimal digits follow a backslash and a letter. -/
def escapeDigits? : Char → Option Nat
  | 'x' => some 2
  | 'u' => some 4
  | 'U' => some 8
  | _ => none

/-- Where the reader of a double-quoted scalar stands. -/
inductive EscapeState where
  /-- In the text. -/
  | text
  /-- After a backslash. -/
  | backslash
  /-- Among the digits of an escape: how many are to come, and their value so far. -/
  | digits (count value : Nat)

/-- Reads what is left of a double-quoted scalar after a gap, up to and with its closing quote;
`fresh` says whether a line begins here. -/
def doubleFrom? (gap : Gap) (fresh : Bool) : EscapeState → Text → Option (Text × Text)
  | _, [] => none
  | .text, c :: s =>
    if isBreak c then doubleFrom? (gap.add c) true .text s
    else if isInlineBlank c then doubleFrom? (gap.add c) false .text s
    else if fresh ∧ beginsMarker (c :: s) then none
    else if c = '"' then some (gap.text, s)
    else if c = '\\' then doubleFrom? gap false .backslash s
    else (doubleFrom? .empty false .text s).map fun (text, r) => (gap.text ++ c :: text, r)
  | .backslash, c :: s =>
    match escapeDigits? c with
    | some n => doubleFrom? gap false (.digits n 0) s
    | none =>
      if isBreak c then
        (doubleFrom? .joined true .text s).map fun (text, r) => (gap.text ++ text, r)
      else
        (namedEscape? c).bind fun e =>
          (doubleFrom? .empty false .text s).map fun (text, r) => (gap.text ++ e :: text, r)
  | .digits n value, c :: s =>
    (Json.hexValue? c).bind fun d =>
      if n ≤ 1 then
        (Json.charOfCode? (16 * value + d)).bind fun e =>
          (doubleFrom? .empty false .text s).map fun (text, r) => (gap.text ++ e :: text, r)
      else doubleFrom? gap false (.digits (n - 1) (16 * value + d)) s

/-- Reads what is left of a single-quoted scalar after a gap, up to and with its closing quote;
`fresh` says whether a line begins here. -/
def singleFrom? (gap : Gap) (fresh : Bool) : Text → Option (Text × Text)
  | [] => none
  | '\'' :: '\'' :: s =>
    (singleFrom? .empty false s).map fun (text, r) => (gap.text ++ '\'' :: text, r)
  | c :: s =>
    if isBreak c then singleFrom? (gap.add c) true s
    else if isInlineBlank c then singleFrom? (gap.add c) false s
    else if fresh ∧ beginsMarker (c :: s) then none
    else if c = '\'' then some (gap.text, s)
    else (singleFrom? .empty false s).map fun (text, r) => (gap.text ++ c :: text, r)

/-- Reads a quoted scalar and gives its text and what follows it. -/
def readQuoted? (cur : Cursor) : Option (Text × Cursor) :=
  let found :=
    match cur.rest with
    | '"' :: s => doubleFrom? .empty false .text s
    | '\'' :: s => singleFrom? .empty false s
    | _ => none
  found.map fun (text, r) => (text, cur.moveTo r)

end MaskedViews.Yaml
