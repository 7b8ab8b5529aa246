import MaskedViews.Access.Actions
import MaskedViews.Page
import MaskedViews.Store.YamlForm

/-!
# The command line

The program loads a store from a YAML file and answers one question about it: what a user sees of
an entity in a view, or whether a user may take an action. The record or the records come from a
JSON file, which may be left out. The arguments are checked before any file is read, the store is
read before the data, and the data before the question is looked at.
-/

namespace MaskedViews.CommandLine

/-- What a run of the program leaves behind. -/
structure Outcome where
  /-- The exit code. -/
  code : Nat
  /-- What is printed as the answer. -/
  output : Text := []
  /-- What is printed as a complaint. -/
  complaint : Text := []
  deriving DecidableEq, Repr

/-- A text on a line of its own. -/
def line (s : Text) : Text := s ++ ['\n']

/-- How the program is called. -/
def usage : Text :=
  ["Usage:",
    "  formguard <store.yaml> render <user> <entity> <view> [data.json]",
    "  formguard <store.yaml> can <user> <entity> <action> [record.json]",
    "",
    "Examples:",
    "  formguard store.yaml render u-17 purchase_order list rows.json",
    "  formguard store.yaml can u-17 purchase_order edit po-1001.json"].flatMap
    fun s => line s.toList

/-- Reads the store of a file. -/
def loadStore (read : Text → Option Text) (name : Text) : Except Error Store :=
  match read name with
  | none => .error (.file name)
  | some text =>
    match Store.ofYaml? text with
    | some s => .ok s
    | none => .error .store

/-- Reads the data of a file. -/
def loadData (read : Text → Option Text) (name : Text) : Except Error Json :=
  match read name with
  | none => .error (.file name)
  | some text =>
    match Json.read? text with
    | some v => .ok v
    | none => .error .data

/-- Shows a view to a user. -/
def renderCommand (s : Store) (user entity view : Text) (data : Option Json) :
    Except Error Outcome :=
  match View.ofName? view with
  | none => .error (.unknownView view)
  | some v =>
    (s.renderView user entity v (data.getD .null)).map fun html =>
      { code := 0, output := line html }

/-- Says whether a user may take an action. -/
def canCommand (s : Store) (user entity action : Text) (record : Option Json) : Outcome :=
  if s.can user entity action record then { code := 0, output := line "allowed".toList }
  else { code := 1, output := line "denied".toList }

/-- Answers a question about a store. -/
def answer (s : Store) (command user entity target : Text) (data : Option Json) :
    Except Error Outcome :=
  if command = "render".toList then renderCommand s user entity target data
  else if command = "can".toList then .ok (canCommand s user entity target data)
  else
    .ok { code := 2, complaint := line ("Unknown command ".toList ++ inQuotes command) ++ usage }

/-- What an error leaves behind. -/
def failed (e : Error) : Outcome := { code := 2, complaint := line ("✗ ".toList ++ e.message) }

/-- The data of the file that is named, if one is. -/
def dataOf (read : Text → Option Text) : List Text → Except Error (Option Json)
  | name :: _ => (loadData read name).map some
  | [] => .ok none

/-- Runs the program. `read` gives the text of a file, if there is such a file. -/
def run (read : Text → Option Text) (args : List Text) : Outcome :=
  match args with
  | store :: command :: user :: entity :: target :: more =>
    let outcome := do
      let s ← loadStore read store
      let data ← dataOf read more
      answer s command user entity target data
    match outcome with
    | .ok o => o
    | .error e => failed e
  | _ => { code := 2, complaint := usage }

/-- The files that a run may read. -/
def filesOf (args : List Text) : List Text := args.take 1 ++ (args.drop 5).take 1

end MaskedViews.CommandLine
