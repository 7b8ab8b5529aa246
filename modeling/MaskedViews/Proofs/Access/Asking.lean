import MaskedViews.Proofs.Access.Rules
import MaskedViews.Proofs.Json.Reading

/-!
# What a stored rule asks for

Whether a row depends on a record is told in two ways: its flag looks at the stored value, and the
decision reads it as a rule. A row without the flag asks for nothing. The two differ on one kind of
value (`ActionPermission.hasCondition_agrees_iff`), a text that holds null or an object without
members: the decision reads what the text holds and finds no rule, and the flag sees a text that is
not blank.
-/

namespace MaskedViews

namespace Rule

/-- A stored value that does not look like a rule asks for nothing. -/
theorem unconditional_of_ruleAsks {stored : Option Json}
    (h : ActionPermission.ruleAsks stored = false) : Unconditional stored := by
  rintro v rfl
  match v with
  | .null | .object [] => rfl
  | .string s =>
    have hblank : Text.allBlank s = true := by simpa [ActionPermission.ruleAsks] using h
    rw [read, if_pos hblank]
  | .object (_ :: _) | .bool _ | .number _ | .array _ => cases h

/-- A text that holds null or an object without members. -/
def HoldsNone (s : Text) : Prop := Json.read? s = some .null ∨ Json.read? s = some (.object [])

theorem HoldsNone.allBlank {s : Text} (h : HoldsNone s) : Text.allBlank s = false := by
  rcases h with h | h <;> exact Json.allBlank_eq_false_of_read? h

/-- The values that are no rule, texts aside, are null and the object without members. -/
theorem ofValue_eq_ok_none_iff {v : Json} : ofValue v = .ok none ↔ v = .null ∨ v = .object [] := by
  match v with
  | .null | .object [] => simp [ofValue]
  | .bool _ | .number _ | .string _ | .array _ => simp [ofValue]
  | .object (m :: members) =>
    cases hread : ofMembers (m :: members) <;> simp [ofValue, hread, Except.map]

/-- A text is no rule if it is blank or holds a value that is none. -/
theorem unconditional_string_iff {s : Text} :
    Unconditional (some (.string s)) ↔ Text.allBlank s = true ∨ HoldsNone s := by
  simp only [Unconditional, Option.mem_some_iff, forall_eq', read]
  split
  · next hblank => simp [hblank]
  · next hblank =>
    rw [or_iff_right hblank, HoldsNone]
    split
    · next hread => simp [hread]
    · next t hread => simp [hread]
    · next v hv hread => simp [hread, ofValue_eq_ok_none_iff]

/-- Of a value that is no text the flag says what the decision finds. -/
theorem ruleAsks_eq_false_iff {v : Json} (h : ∀ s, v ≠ .string s) :
    ActionPermission.ruleAsks (some v) = false ↔ Unconditional (some v) := by
  have hread : read v = ofValue v := by
    cases v with
    | string s => exact absurd rfl (h s)
    | _ => rfl
  simp only [Unconditional, Option.mem_some_iff, forall_eq', hread, ofValue_eq_ok_none_iff]
  cases v with
  | string s => exact absurd rfl (h s)
  | object members => cases members <;> simp [ActionPermission.ruleAsks]
  | _ => simp [ActionPermission.ruleAsks]

end Rule

/-- **The flag and the decision.** A row without the flag asks for nothing. A row that asks for
nothing is without the flag exactly if its rule is no text that holds null or an object without
members. -/
theorem ActionPermission.hasCondition_agrees_iff (p : ActionPermission) :
    (p.hasCondition = false → Rule.Unconditional p.rule) ∧
      ((p.hasCondition = false ↔ Rule.Unconditional p.rule) ↔
        ∀ s, p.rule = some (.string s) → ¬ Rule.HoldsNone s) := by
  refine ⟨Rule.unconditional_of_ruleAsks, ?_⟩
  rw [hasCondition]
  match hrule : p.rule with
  | none => simp [ruleAsks, Rule.Unconditional]
  | some v =>
    by_cases htext : ∃ s, v = .string s
    · obtain ⟨s, rfl⟩ := htext
      have hflag : ruleAsks (some (.string s)) = false ↔ Text.allBlank s = true := by
        simp [ruleAsks]
      simp only [hflag, Rule.unconditional_string_iff, Option.some.injEq, Json.string.injEq,
        forall_eq']
      exact ⟨fun h hnone => by simpa [hnone.allBlank] using h.2 (.inr hnone),
        fun h => (or_iff_left h).symm⟩
    · simp only [not_exists] at htext
      simp [Rule.ruleAsks_eq_false_iff htext, htext]

/-- A text that holds an object without members is flagged as a condition, and nobody is denied. -/
theorem ActionPermission.not_hasCondition_agrees_of_text :
    let p : ActionPermission :=
      { role := "clerk".toList, entity := "order".toList, action := "edit".toList, isAllowed := true
        rule := some (.string ['\x7b', '\x7d']) }
    ¬ (p.hasCondition = false ↔ Rule.Unconditional p.rule) := by
  intro p h
  have hnone : Rule.HoldsNone ['\x7b', '\x7d'] := .inr rfl
  have hflag := h.2 (Rule.unconditional_string_iff.2 (.inr hnone))
  revert hflag
  decide +kernel

end MaskedViews
