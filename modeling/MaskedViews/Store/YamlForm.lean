import MaskedViews.Store.Document
import MaskedViews.Yaml.Reader

/-!
# Stores as YAML

In the YAML form of a document every scalar is a text, whatever it looks like, where a text is
asked for; a truth value or an integer has to be written plain. A node that is not written is a
list without items or a row without entries.

A rule may be any value. It stands at the fourth level of the document, and the document has no
more than 128 levels.
-/

namespace MaskedViews

namespace Yaml

/-- The text of a scalar. -/
def text? : Yaml → Option Text
  | .scalar _ s => some s
  | _ => none

/-- The truth value that a plain scalar stands for. -/
def flag? : Yaml → Option Bool
  | .scalar true s => looksBool? s
  | _ => none

/-- The integer of 32 bits that a plain scalar stands for. -/
def int32? : Yaml → Option Int32
  | .scalar true s => (looksInt? s).bind DocumentNode.int32OfInt?
  | _ => none

/-- Whether a node stands for nothing. -/
def isNull : Yaml → Bool
  | .scalar true s => looksNull s
  | _ => false

/-- The text of a scalar, or none if it stands for nothing. -/
def nullableText? (node : Yaml) : Option (Option Text) :=
  if node.isNull then some none else node.text?.map some

/-- The levels that a rule may have. -/
def ruleDepth : Nat := 125

/-- The data value of a node, or none if it stands for nothing. -/
def nullableValue? (node : Yaml) : Option (Option Json) :=
  if node.isNull then some none else (node.value? ruleDepth).map some

/-- The items of a sequence. -/
def items? : Yaml → Option (List Yaml)
  | .sequence items => some items
  | .scalar true [] => some []
  | _ => none

/-- Entries with scalars for keys, by the texts of these. -/
def textEntries? (entries : List (Yaml × Yaml)) : Option (List (Text × Yaml)) :=
  entries.mapM fun (key, node) => key.text?.map fun k => (k, node)

/-- The nodes under the keys of a row, none of which may be there twice. -/
def entries? (keys : List Text) : Yaml → Option (List (Text × Yaml))
  | .mapping entries =>
    (textEntries? entries).filter fun named =>
      keys.all fun key => (named.filter fun e => e.1 = key).length ≤ 1
  | .scalar true [] => some []
  | _ => none

instance : DocumentNode Yaml where
  text? := text?
  flag? := flag?
  int32? := int32?
  nullableText? := nullableText?
  nullableValue? := nullableValue?
  viewName? := text?
  items? := items?
  entries? := entries?

end Yaml

/-- Reads the YAML form of a store. -/
def Store.ofYaml? (text : Text) : Option Store := (Yaml.read? text).bind Store.read?

end MaskedViews
