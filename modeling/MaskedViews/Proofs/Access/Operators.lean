import MaskedViews.Proofs.Access.Rules

/-!
# What operators have to do with one another

Of one field, one expected value and one user, the eight operators ask different questions about the
same value. So their answers go together (`holds_coherent`): three of them are the negations of three
others, and those that compare a value hold only if there is one. On a missing record none of them
holds, not even both sides of a negation. Apart from that a record counts only by the value at the
field: two records with the same value there are decided alike, and null is no value.
-/

namespace MaskedViews

namespace Rule

/-! ### Records -/

/-- Nothing to decide on: no record, null, or an object without members. -/
def IsAbsent (record : Option Json) : Prop :=
  record = none ∨ record = some .null ∨ record = some (.object [])

theorem isMissing_iff {record : Option Json} : isMissing record = true ↔ IsAbsent record := by
  match record with
  | none | some .null | some (.bool _) | some (.number _) | some (.string _) | some (.array _) =>
    simp [isMissing, IsAbsent]
  | some (.object members) => cases members <;> simp [isMissing, IsAbsent]

theorem isMissing_eq_false_of_not_isAbsent {record : Option Json} (h : ¬ IsAbsent record) :
    isMissing record = false := by
  rwa [← isMissing_iff, Bool.not_eq_true] at h

/-- Two records with the same value at a path, null counting as none. -/
def SameAt (path : Text) (v w : Json) : Prop :=
  ∀ x, x ≠ .null → (v.lookup path = some x ↔ w.lookup path = some x)

theorem actual?_eq_some_iff {v x : Json} {path : Text} :
    actual? (some v) path = some x ↔ v.lookup path = some x ∧ x ≠ .null := by
  have hnull : (!x.isNull) = true ↔ x ≠ .null := by
    cases x <;> simp [Json.isNull]
  rw [actual?, Option.bind_some, Option.filter_eq_some_iff, hnull]

theorem SameAt.actual?_eq {path : Text} {v w : Json} (h : SameAt path v w) :
    actual? (some v) path = actual? (some w) path := by
  refine Option.ext fun x => ?_
  rw [actual?_eq_some_iff, actual?_eq_some_iff]
  exact and_congr_left fun hx => h x hx

/-! ### Answers -/

/-- Answers of the operators that go together. -/
structure Coherent (answer : Operator → Bool) : Prop where
  /-- The texts are the same or not. -/
  notEquals : answer .notEquals = !answer .equals
  /-- The text is in the list or not. -/
  notIn : answer .notIn = !answer .isIn
  /-- There is a value or not. -/
  isNotNull : answer .isNotNull = !answer .isNull
  /-- An operator that is not negative holds only if there is a value. -/
  present : ∀ op, op.isNegative = false → answer op = true → answer .isNotNull = true

theorem coherent_compare (actual : Option Json) (user : Text) (expected : Json) :
    Coherent fun op => compare op actual user expected := by
  cases actual with
  | none =>
    simp only [compare_none]
    exact ⟨rfl, rfl, rfl, fun op hop h => by simp [hop] at h⟩
  | some v =>
    refine ⟨?_, rfl, rfl, fun _ _ _ => rfl⟩
    simp [compare]

theorem holds_eq_compare {record : Option Json} (h : ¬ IsAbsent record) (rule : Rule)
    (user : Text) : rule.holds record user =
      compare rule.operator (actual? record rule.field) user (substituteUser user rule.value) := by
  rw [holds, isMissing_eq_false_of_not_isAbsent h, Bool.not_false, Bool.true_and]

/-- **The operators go together.** On a record that is there the negations negate and a comparison
needs a value; on a missing one nothing holds; and records with the same value at the field are
decided alike. -/
theorem holds_coherent (field : Text) (value : Json) (user : Text) :
    (∀ record, ¬ IsAbsent record → Coherent fun op => holds ⟨field, op, value⟩ record user) ∧
      (∀ record, IsAbsent record → ∀ op, holds ⟨field, op, value⟩ record user = false) ∧
      ∀ v w, ¬ IsAbsent (some v) → ¬ IsAbsent (some w) → SameAt field v w →
        ∀ op, holds ⟨field, op, value⟩ (some v) user = holds ⟨field, op, value⟩ (some w) user := by
  refine ⟨fun record hrecord => ?_, fun record hrecord op => ?_, fun v w hv hw hsame op => ?_⟩
  · simp only [holds_eq_compare hrecord]
    exact coherent_compare _ _ _
  · exact holds_of_isMissing (isMissing_iff.2 hrecord) _ user
  · rw [holds_eq_compare hv, holds_eq_compare hw, hsame.actual?_eq]

/-- A record whose owner is null has the value there that a record without an owner has: none. -/
theorem sameAt_of_null :
    SameAt "owner".toList (.object [("owner".toList, .null)])
      (.object [("status".toList, .bool true)]) := by
  intro x hx
  have hkeys : pathKeys "owner".toList = ["owner".toList] := by decide
  have hnull : (Json.object [("owner".toList, .null)]).lookup "owner".toList = some .null := by
    rw [Json.lookup, if_neg (by decide), hkeys]
    rfl
  have hnone : (Json.object [("status".toList, .bool true)]).lookup "owner".toList = none := by
    rw [Json.lookup, if_neg (by decide), hkeys]
    rfl
  rw [hnull, hnone]
  simp [hx.symm]

/-- So the two are decided alike, and on either of them the operators go together. -/
theorem holds_coherent_of_null :
    let ask (op : Operator) : Rule := ⟨"owner".toList, op, .string currentUser⟩
    (Coherent fun op => (ask op).holds (some (.object [("owner".toList, .null)])) "u".toList) ∧
      ∀ op, (ask op).holds (some (.object [("owner".toList, .null)])) "u".toList =
        (ask op).holds (some (.object [("status".toList, .bool true)])) "u".toList := by
  obtain ⟨hcoherent, -, halike⟩ :=
    holds_coherent "owner".toList (.string currentUser) "u".toList
  exact ⟨hcoherent _ (by simp [IsAbsent]),
    halike _ _ (by simp [IsAbsent]) (by simp [IsAbsent]) sameAt_of_null⟩

end Rule

end MaskedViews
