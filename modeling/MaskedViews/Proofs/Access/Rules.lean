import MaskedViews.Access.Rule

/-!
# When a stored rule lets a user act

A stored value is no rule, is a rule, or is malformed; a record is missing, has fields, or is a
value that cannot have any. These two distinctions decide everything except the comparison itself:
`allows_iff` says for each of them when a user may act.

A rule ought to be met only by a record with fields. It is, except by a record of the third kind:
such a record is taken to the comparison, where no value is found in it, and a rule that asks for
something not to be there is met (`failsClosed_iff`).
-/

namespace MaskedViews

/-! ### Operators -/

/-- Whether an operator asks for something not to be there, so that a field without a value meets
it. -/
def Operator.isNegative : Operator → Bool
  | .notEquals | .notIn | .isNull => true
  | _ => false

namespace Rule

/-- Without a value exactly the negative operators hold. -/
@[simp] theorem compare_none (op : Operator) (user : Text) (expected : Json) :
    compare op none user expected = op.isNegative := by
  cases op <;> rfl

/-! ### Stored values -/

/-- A stored value that asks for nothing: there is none, or what is there is no rule. -/
def Unconditional (stored : Option Json) : Prop := ∀ v ∈ stored, read v = .ok none

/-- A stored value that is written as a rule. -/
def Stores (stored : Option Json) (rule : Rule) : Prop := ∃ v ∈ stored, read v = .ok (some rule)

theorem Stores.not_unconditional {stored : Option Json} {rule : Rule} (h : Stores stored rule) :
    ¬ Unconditional stored := by
  obtain ⟨v, hv, hread⟩ := h
  intro hnone
  rw [hnone v hv] at hread
  cases hread

/-- A user may act if nothing is asked for, or if the rule that is stored holds. -/
theorem allows_iff_holds (stored record : Option Json) (user : Text) :
    allows stored record user = true ↔
      Unconditional stored ∨ ∃ rule, Stores stored rule ∧ rule.holds record user = true := by
  cases stored with
  | none => simp [allows, Unconditional]
  | some v =>
    simp only [allows, Unconditional, Stores, Option.mem_some_iff, forall_eq', exists_eq_left']
    cases read v with
    | error e => simp
    | ok rule => cases rule <;> simp

/-! ### Records -/

/-- A record with at least one field. -/
def IsFilled (record : Option Json) : Prop := ∃ m members, record = some (.object (m :: members))

/-- Whether a record is a value that has no fields and is not null: a truth value, a number, a
text or a list. -/
def isFieldless : Option Json → Bool
  | some (.bool _) | some (.number _) | some (.string _) | some (.array _) => true
  | _ => false

/-- A record that is not missing has fields or cannot have any. -/
theorem isMissing_eq_false_iff {record : Option Json} :
    isMissing record = false ↔ IsFilled record ∨ isFieldless record = true := by
  match record with
  | none | some .null | some (.bool _) | some (.number _) | some (.string _) | some (.array _) =>
    simp [isMissing, IsFilled, isFieldless]
  | some (.object members) => cases members <;> simp [isMissing, IsFilled, isFieldless]

theorem IsFilled.isMissing {record : Option Json} (h : IsFilled record) :
    isMissing record = false :=
  isMissing_eq_false_iff.2 (.inl h)

theorem IsFilled.isFieldless {record : Option Json} (h : IsFilled record) :
    isFieldless record = false := by
  obtain ⟨m, members, rfl⟩ := h
  rfl

/-- No path leads anywhere in a value without fields. -/
theorem actual?_of_isFieldless {record : Option Json} (h : isFieldless record = true)
    (path : Text) : actual? record path = none := by
  have hmember : ∀ v ∈ record, ∀ key, v.member? key = none := by
    rintro v rfl key
    cases v <;> first | rfl | cases h
  have hlookup : ∀ v ∈ record, v.lookup path = none := by
    intro v hv
    rw [Json.lookup]
    split
    · rfl
    · obtain ⟨key, keys, hkeys⟩ := List.exists_cons_of_ne_nil (List.splitOn_ne_nil '.' path)
      rw [pathKeys, hkeys, Json.follow, hmember v hv, Option.bind_none]
  cases record with
  | none => rfl
  | some v => rw [actual?, Option.bind_some, hlookup v rfl, Option.filter_none]

/-! ### Decisions -/

/-- A record with fields is decided by its value at the path. -/
theorem holds_of_isFilled {record : Option Json} (h : IsFilled record) (rule : Rule)
    (user : Text) : rule.holds record user =
      compare rule.operator (actual? record rule.field) user (substituteUser user rule.value) := by
  rw [holds, h.isMissing, Bool.not_false, Bool.true_and]

theorem holds_of_isMissing {record : Option Json} (h : isMissing record = true) (rule : Rule)
    (user : Text) : rule.holds record user = false := by
  rw [holds, h, Bool.not_true, Bool.false_and]

/-- A value without fields is decided by the operator alone. -/
theorem holds_of_isFieldless {record : Option Json} (h : isFieldless record = true) (rule : Rule)
    (user : Text) : rule.holds record user = rule.operator.isNegative := by
  rw [holds, isMissing_eq_false_iff.2 (.inr h), actual?_of_isFieldless h, compare_none,
    Bool.not_false, Bool.true_and]

/-- When a user may act: nothing is asked for, or a rule is stored and the record has fields and
compares as it says, or has none and the rule asks for something not to be there. -/
theorem allows_iff (stored record : Option Json) (user : Text) :
    allows stored record user = true ↔
      Unconditional stored ∨
        ∃ rule, Stores stored rule ∧
          ((IsFilled record ∧ compare rule.operator (actual? record rule.field) user
              (substituteUser user rule.value) = true) ∨
            (isFieldless record = true ∧ rule.operator.isNegative = true)) := by
  rw [allows_iff_holds]
  refine or_congr_right (exists_congr fun rule => and_congr_right fun _ => ?_)
  cases hmissing : isMissing record with
  | true =>
    have hnot := mt isMissing_eq_false_iff.2 (ne_false_of_eq_true hmissing)
    simp only [not_or] at hnot
    simp [holds_of_isMissing hmissing, hnot.1, hnot.2]
  | false =>
    rcases isMissing_eq_false_iff.1 hmissing with h | h
    · simp [holds_of_isFilled h, h, h.isFieldless]
    · have hfilled : ¬ IsFilled record := fun hf => by simp [hf.isFieldless] at h
      simp [holds_of_isFieldless h, h, hfilled]

/-! ### Failing closed -/

/-- A user may act on a record only if nothing is asked for, or if a rule is stored and the record
has fields. -/
def FailsClosed (stored record : Option Json) (user : Text) : Prop :=
  allows stored record user = true →
    Unconditional stored ∨ (∃ rule, Stores stored rule) ∧ IsFilled record

/-- **Where rules fail closed.** Everywhere but where a negative rule meets a record that is a
truth value, a number, a text or a list: there the user may act. -/
theorem failsClosed_iff (stored record : Option Json) (user : Text) :
    FailsClosed stored record user ↔
      ¬ (isFieldless record = true ∧
        ∃ rule, Stores stored rule ∧ rule.operator.isNegative = true) := by
  constructor
  · rintro h ⟨hrecord, rule, hstores, hnegative⟩
    rcases h ((allows_iff ..).2 (.inr ⟨rule, hstores, .inr ⟨hrecord, hnegative⟩⟩)) with hnone | hsome
    · exact hstores.not_unconditional hnone
    · simp [hsome.2.isFieldless] at hrecord
  · intro h hallows
    rcases (allows_iff ..).1 hallows with hnone | ⟨rule, hstores, ⟨hfilled, -⟩ | hfieldless⟩
    · exact .inl hnone
    · exact .inr ⟨⟨rule, hstores⟩, hfilled⟩
    · exact absurd ⟨hfieldless.1, rule, hstores, hfieldless.2⟩ h

/-- The rule that the status of a record is not `closed`. -/
def notClosed : Json :=
  .object [("field".toList, .string "status".toList), ("operator".toList, .string "not_equals".toList),
    ("value".toList, .string "closed".toList)]

/-- A list without items is taken for a record whose status is not `closed`. -/
theorem not_failsClosed_notClosed_nil :
    ¬ FailsClosed (some notClosed) (some (.array [])) "u".toList := by
  intro h
  rcases h (by decide +kernel) with hnone | ⟨-, m, members, hrecord⟩
  · have hread := hnone notClosed rfl
    cases hread
  · cases hrecord

end Rule

end MaskedViews
