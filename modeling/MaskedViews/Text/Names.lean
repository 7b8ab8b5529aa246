import MaskedViews.Text.Basic

/-!
# Sets of names

A set of names is kept as the strictly ascending list of its members, so two sets with the same
members are the same value. The order is that of `Text.isBefore`.
-/

namespace MaskedViews

/-- A finite set of names. -/
structure Names where
  /-- The members, each once, in ascending order. -/
  toList : List Text
  /-- Each member is below every later one. -/
  ascending : toList.Pairwise fun x y => Text.isBefore x y = true
  deriving DecidableEq

namespace Names

/-- Inserts a name into an ascending list, unless it is there already. -/
def insertInto (name : Text) : List Text → List Text
  | [] => [name]
  | x :: xs =>
    if name = x then x :: xs
    else if Text.isBefore name x then name :: x :: xs
    else x :: insertInto name xs

theorem mem_insertInto {a name : Text} {xs : List Text} :
    a ∈ insertInto name xs ↔ a = name ∨ a ∈ xs := by
  induction xs with
  | nil => simp [insertInto]
  | cons x xs ih =>
    simp only [insertInto]
    split
    · next h => simp [h]
    · split
      · simp
      · simp only [List.mem_cons, ih]
        grind

theorem pairwise_insertInto {name : Text} {xs : List Text}
    (h : xs.Pairwise fun x y => Text.isBefore x y = true) :
    (insertInto name xs).Pairwise fun x y => Text.isBefore x y = true := by
  induction xs with
  | nil => simp [insertInto]
  | cons x xs ih =>
    have hx := (List.pairwise_cons.1 h).1
    have hxs := (List.pairwise_cons.1 h).2
    simp only [insertInto]
    split
    · exact h
    · next hne =>
      split
      · next hlt =>
        refine List.pairwise_cons.2 ⟨fun a ha => ?_, h⟩
        rcases List.mem_cons.1 ha with rfl | ha
        · exact hlt
        · exact Text.isBefore_trans hlt (hx a ha)
      · next hnlt =>
        refine List.pairwise_cons.2 ⟨fun a ha => ?_, ih hxs⟩
        rcases mem_insertInto.1 ha with rfl | ha
        · exact (Text.isBefore_or_isBefore hne).resolve_left hnlt
        · exact hx a ha

/-- The set without members. -/
def empty : Names := ⟨[], List.Pairwise.nil⟩

/-- The set with one more member. -/
def insert (names : Names) (name : Text) : Names :=
  ⟨insertInto name names.toList, pairwise_insertInto names.ascending⟩

/-- The set of the members of a list. -/
def ofList (xs : List Text) : Names := xs.foldl insert empty

instance : Membership Text Names := ⟨fun names name => name ∈ names.toList⟩

instance (name : Text) (names : Names) : Decidable (name ∈ names) :=
  inferInstanceAs (Decidable (name ∈ names.toList))

theorem mem_def {name : Text} {names : Names} : name ∈ names ↔ name ∈ names.toList := Iff.rfl

/-- Whether a name is a member, as a truth value. -/
def contains (names : Names) (name : Text) : Bool := decide (name ∈ names)

@[simp] theorem contains_eq_true_iff {names : Names} {name : Text} :
    names.contains name = true ↔ name ∈ names := by
  simp [contains]

/-- Whether the set has no members. -/
def isEmpty (names : Names) : Bool := names.toList.isEmpty

@[simp] theorem not_mem_empty (name : Text) : ¬ name ∈ empty := List.not_mem_nil

@[simp] theorem mem_insert {names : Names} {name a : Text} :
    a ∈ names.insert name ↔ a = name ∨ a ∈ names := mem_insertInto

@[simp] theorem mem_ofList {xs : List Text} {a : Text} : a ∈ ofList xs ↔ a ∈ xs := by
  suffices h : ∀ s : Names, a ∈ xs.foldl insert s ↔ a ∈ s ∨ a ∈ xs by simp [ofList, h]
  induction xs with
  | nil => simp
  | cons x xs ih =>
    intro s
    rw [List.foldl_cons, ih, mem_insert, List.mem_cons]
    grind

theorem isEmpty_iff {names : Names} : names.isEmpty = true ↔ ∀ a, ¬ a ∈ names := by
  simp [isEmpty, mem_def, List.eq_nil_iff_forall_not_mem]

end Names

end MaskedViews
