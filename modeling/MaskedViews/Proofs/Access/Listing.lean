import MaskedViews.Access.Actions
import MaskedViews.Proofs.Access.Asking
import Mathlib.Data.List.Nodup

/-!
# The listed actions and the decision

Whether a user may take an action is decided by the first row for it; the list of actions has an
entry for every row. The two agree if no action of the role has two rows. Otherwise an action is
listed more than once, and what a later row says may be listed although an earlier one decides.
-/

namespace MaskedViews

namespace Rule

/-- A user may act on every record exactly if nothing is asked for. -/
theorem forall_allows_iff (stored : Option Json) (user : Text) :
    (∀ record, allows stored record user = true) ↔ Unconditional stored := by
  constructor
  · intro h
    rcases (allows_iff_holds ..).1 (h none) with hnone | ⟨rule, -, hholds⟩
    · exact hnone
    · rw [holds_of_isMissing rfl] at hholds
      cases hholds
  · exact fun h record => (allows_iff_holds ..).2 (.inl h)

end Rule

namespace Store

variable {s : Store} {user : Text} {u : User}

/-! ### The rows of a role -/

/-- The row that decides about an action is the first one of the role for it. -/
theorem actionPermission?_eq_find? (s : Store) (role entity action : Text) :
    s.actionPermission? role entity action =
      (s.actionPermissionsOf role entity).find? fun p => p.action = action := by
  rw [actionPermission?, actionPermissionsOf, List.find?_filter]
  simp only [ActionPermission.isFor, Bool.decide_and, Bool.decide_eq_true]

theorem mem_actionPermissionsOf_of_actionPermission? {role entity action : Text}
    {p : ActionPermission} (h : s.actionPermission? role entity action = some p) :
    p ∈ s.actionPermissionsOf role entity ∧ p.action = action := by
  rw [actionPermission?_eq_find?] at h
  exact ⟨List.mem_of_find?_eq_some h, by simpa using List.find?_some h⟩

/-- A row decides about its action if no action has two rows. -/
theorem actionPermission?_of_nodup {role entity : Text}
    (h : ((s.actionPermissionsOf role entity).map ActionPermission.action).Nodup)
    {p : ActionPermission} (hp : p ∈ s.actionPermissionsOf role entity) :
    s.actionPermission? role entity p.action = some p := by
  rw [actionPermission?_eq_find?]
  cases hfind : (s.actionPermissionsOf role entity).find? fun q => q.action = p.action with
  | none => simpa using List.find?_eq_none.1 hfind p hp
  | some q =>
    have haction : q.action = p.action := by simpa using List.find?_some hfind
    rw [List.inj_on_of_nodup_map h (List.mem_of_find?_eq_some hfind) hp haction]

/-! ### Entries and decisions of a user who is no administrator -/

theorem actionsFor_of_not_isAdmin (hu : s.activeUser? user = some u) (hadmin : u.isAdmin = false)
    (entity : Text) : s.actionsFor user entity =
      (s.actionPermissionsOf u.role entity).map fun p => ⟨p.action, p.isAllowed, p.hasCondition⟩ := by
  simp [actionsFor, hu, hadmin]

theorem can_iff (hu : s.activeUser? user = some u) (hadmin : u.isAdmin = false)
    (entity action : Text) (record : Option Json) :
    s.can user entity action record = true ↔
      ∃ p, s.actionPermission? u.role entity action = some p ∧ p.isAllowed = true ∧
        Rule.allows p.rule record user = true := by
  simp only [can, hu, hadmin, Bool.false_or]
  cases s.actionPermission? u.role entity action <;> simp

/-- A user may take an action on every record exactly if the row that decides about it allows the
action and asks for nothing. -/
theorem forall_can_iff (hu : s.activeUser? user = some u) (hadmin : u.isAdmin = false)
    (entity action : Text) :
    (∀ record, s.can user entity action record = true) ↔
      ∃ p, s.actionPermission? u.role entity action = some p ∧ p.isAllowed = true ∧
        Rule.Unconditional p.rule := by
  simp only [can_iff hu hadmin, ← Rule.forall_allows_iff _ user]
  cases s.actionPermission? u.role entity action with
  | none => simp
  | some p => simp [forall_and]

/-! ### Agreement -/

/-- What is listed as allowed without a condition may be done to every record. -/
def ListsGranted (s : Store) (user entity : Text) : Prop :=
  ∀ a ∈ s.actionsFor user entity, a.allowed = true → a.hasCondition = false →
    ∀ record, s.can user entity a.action record = true

/-- What may be done to some record is listed as allowed. -/
def ListsEvery (s : Store) (user entity : Text) : Prop :=
  ∀ action record, s.can user entity action record = true → action ∈ s.allowedActions user entity

/-- No action is listed twice. -/
def ListsOnce (s : Store) (user entity : Text) : Prop :=
  ((s.actionsFor user entity).map ActionAccess.action).Nodup

theorem listsGranted_iff (hu : s.activeUser? user = some u) (hadmin : u.isAdmin = false)
    (entity : Text) : s.ListsGranted user entity ↔
      ∀ p ∈ s.actionPermissionsOf u.role entity, p.isAllowed = true → p.hasCondition = false →
        ∃ q, s.actionPermission? u.role entity p.action = some q ∧ q.isAllowed = true ∧
          Rule.Unconditional q.rule := by
  simp only [ListsGranted, actionsFor_of_not_isAdmin hu hadmin, List.forall_mem_map,
    forall_can_iff hu hadmin]

theorem listsEvery (hu : s.activeUser? user = some u) (hadmin : u.isAdmin = false)
    (entity : Text) : s.ListsEvery user entity := by
  intro action record hcan
  obtain ⟨p, hp, hallowed, -⟩ := (can_iff hu hadmin ..).1 hcan
  obtain ⟨hmem, rfl⟩ := mem_actionPermissionsOf_of_actionPermission? hp
  simp only [allowedActions, actionsFor_of_not_isAdmin hu hadmin, List.mem_map, List.mem_filter]
  exact ⟨_, ⟨⟨p, hmem, rfl⟩, hallowed⟩, rfl⟩

theorem listsOnce_iff (hu : s.activeUser? user = some u) (hadmin : u.isAdmin = false)
    (entity : Text) : s.ListsOnce user entity ↔
      ((s.actionPermissionsOf u.role entity).map ActionPermission.action).Nodup := by
  rw [ListsOnce, actionsFor_of_not_isAdmin hu hadmin, List.map_map]
  rfl

/-- Where each action has one row, an entry and the decision are about the same row. -/
theorem listsGranted_of_nodup (hu : s.activeUser? user = some u) (hadmin : u.isAdmin = false)
    {entity : Text}
    (h : ((s.actionPermissionsOf u.role entity).map ActionPermission.action).Nodup) :
    s.ListsGranted user entity := by
  refine (listsGranted_iff hu hadmin entity).2 fun p hp hallowed hcondition => ?_
  exact ⟨p, actionPermission?_of_nodup h hp, hallowed, Rule.unconditional_of_ruleAsks hcondition⟩

/-- **The list and the decision.** For a user who is active and no administrator everything that
may be done is listed. What is listed is right exactly if, for each row that allows an action
without a condition, so does the first row for that action; and nothing is listed twice exactly if
no action has two rows, and then all of it is right. -/
theorem listing_agrees_iff (hu : s.activeUser? user = some u) (hadmin : u.isAdmin = false)
    (entity : Text) :
    s.ListsEvery user entity ∧
      (s.ListsGranted user entity ↔
        ∀ p ∈ s.actionPermissionsOf u.role entity, p.isAllowed = true → p.hasCondition = false →
          ∃ q, s.actionPermission? u.role entity p.action = some q ∧ q.isAllowed = true ∧
            Rule.Unconditional q.rule) ∧
      (s.ListsGranted user entity ∧ s.ListsOnce user entity ↔
        ((s.actionPermissionsOf u.role entity).map ActionPermission.action).Nodup) := by
  refine ⟨listsEvery hu hadmin entity, listsGranted_iff hu hadmin entity, ?_⟩
  rw [listsOnce_iff hu hadmin]
  exact and_iff_right_of_imp (listsGranted_of_nodup hu hadmin)

/-- A store of one clerk and the rows of the role for the actions on an order. -/
def ofClerk (rows : List (Text × Bool)) : Store where
  users := [{ id := "u".toList, role := "clerk".toList }]
  actionPermissions := rows.map fun (action, isAllowed) =>
    { role := "clerk".toList, entity := "order".toList, action := action, isAllowed := isAllowed }

/-- Where each action has one row, the list is right. -/
theorem listing_agrees_one_row_each :
    let s := ofClerk [("edit".toList, true), ("delete".toList, false)]
    s.ListsGranted "u".toList "order".toList ∧ s.ListsOnce "u".toList "order".toList := by
  intro s
  have hu : s.activeUser? "u".toList = some { id := "u".toList, role := "clerk".toList } := by
    decide +kernel
  exact ((listing_agrees_iff hu (by decide +kernel) "order".toList).2.2).2 (by decide +kernel)

/-- Of two rows for an action the first decides and both are listed. -/
theorem not_listing_agrees_two_rows :
    let s := ofClerk [("edit".toList, false), ("edit".toList, true)]
    ¬ s.ListsGranted "u".toList "order".toList ∧ ¬ s.ListsOnce "u".toList "order".toList := by
  intro s
  refine ⟨fun h => ?_, by unfold ListsOnce; decide +kernel⟩
  have hcan := h ⟨"edit".toList, true, false⟩ (by decide +kernel) rfl rfl none
  revert hcan
  decide +kernel

end Store

end MaskedViews
