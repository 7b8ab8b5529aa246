import MaskedViews.Json.Basic

/-!
# Paths into a record

A path names keys separated by dots, and each key is looked up in the object that the keys before
it have led to. Looking up never fails: a path that leads nowhere has the empty text. The empty
path leads nowhere.
-/

namespace MaskedViews

/-- The keys of a path. -/
def pathKeys (path : Text) : List Text := path.splitOn '.'

/-- The first key of a path: the field of the record that it reads. -/
def fieldRoot (path : Text) : Text := path.takeWhile (· ≠ '.')

theorem fieldRoot_of_not_mem {path : Text} (h : '.' ∉ path) : fieldRoot path = path := by
  induction path with
  | nil => rfl
  | cons c path ih =>
    have hc : c ≠ '.' := fun e => h (by simp [e])
    have hp : '.' ∉ path := fun e => h (List.mem_cons_of_mem c e)
    simpa [fieldRoot, hc] using ih hp

namespace Json

/-- Follows keys into nested objects. -/
def follow : List Text → Json → Option Json
  | [], v => some v
  | k :: ks, v => (v.member? k).bind (follow ks)

/-- The value that a path leads to. A null that is there is found. -/
def lookup (v : Json) (path : Text) : Option Json :=
  if path = [] then none else follow (pathKeys path) v

/-- The text of the value that a path leads to; empty if it leads nowhere. -/
def resolve (v : Json) (path : Text) : Text :=
  ((v.lookup path).map toText).getD []

/-- `resolve` where the record or the path may be missing. -/
def resolveOptional : Option Json → Option Text → Text
  | some v, some path => v.resolve path
  | _, _ => []

@[simp] theorem lookup_nil (v : Json) : v.lookup [] = none := rfl

theorem resolve_of_lookup {v w : Json} {path : Text} (h : v.lookup path = some w) :
    v.resolve path = w.toText := by
  simp [resolve, h]

theorem resolve_of_lookup_none {v : Json} {path : Text} (h : v.lookup path = none) :
    v.resolve path = [] := by
  simp [resolve, h]

end Json

end MaskedViews
