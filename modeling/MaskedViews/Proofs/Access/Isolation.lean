import MaskedViews.Page
import MaskedViews.Proofs.Access.Listing

/-!
# Rows of other roles and entities

What a user may see and do of an entity depends on no other permissions than those of the user's role
on that entity. A store without all others (`Store.only`) answers every question about the user and the
entity as the whole store does, apart from the actions that are listed for an administrator, who has
those of every role. So two stores that are the same but for rows of other roles or other entities answer
alike, whatever these rows say and wherever they stand (`answersAlike_of_only_eq`).
-/

namespace MaskedViews.Store

/-- Whether a role is that of a user; an unknown user has none. -/
def hasRole (s : Store) (user role : Text) : Bool := (s.user? user).any fun u => role = u.role

/-- The store without the permissions of roles that are not the user's or on other entities. -/
def only (s : Store) (user entity : Text) : Store :=
  { s with
    fieldPermissions :=
      s.fieldPermissions.filter fun p => s.hasRole user p.role && p.entity = entity
    actionPermissions :=
      s.actionPermissions.filter fun p => s.hasRole user p.role && p.entity = entity }

/-- Two stores that give the same answers about a user and an entity. -/
structure AnswersAlike (s t : Store) (user entity : Text) : Prop where
  /-- The access to each field. -/
  access : ∀ view, s.access user entity view = t.access user entity view
  /-- The fields that the user can see. -/
  visibleFields : ∀ view, s.visibleFields user entity view = t.visibleFields user entity view
  /-- The fields that the user can edit. -/
  editableFields : ∀ view, s.editableFields user entity view = t.editableFields user entity view
  /-- What a page is masked by. -/
  snapshot : ∀ view, s.snapshot user entity view = t.snapshot user entity view
  /-- Whether the user may take an action. -/
  can : ∀ action record, s.can user entity action record = t.can user entity action record
  /-- The actions that the user may take without a record. -/
  checkActions : ∀ actions, s.checkActions user entity actions = t.checkActions user entity actions
  /-- The page that the user sees, or why there is none. -/
  renderView : ∀ view data, s.renderView user entity view data = t.renderView user entity view data
  /-- The actions that are listed for a user who is no administrator. -/
  actionsFor : (∀ u, s.activeUser? user = some u → u.isAdmin = false) →
    s.actionsFor user entity = t.actionsFor user entity
  /-- Those of them that are allowed. -/
  allowedActions : (∀ u, s.activeUser? user = some u → u.isAdmin = false) →
    s.allowedActions user entity = t.allowedActions user entity

variable {s t : Store} {user entity : Text} {u : User}

/-! ### The rows that are left -/

theorem hasRole_of_user? (hu : s.user? user = some u) (role : Text) :
    s.hasRole user role = decide (role = u.role) := by
  rw [hasRole, hu, Option.any_some]

/-- A row about the role of the user and the entity is left, so the first one for a field is the first
one of those that are left. -/
theorem fieldPermission?_only (hu : s.user? user = some u) (field : Text) :
    (s.only user entity).fieldPermission? u.role entity field =
      s.fieldPermission? u.role entity field := by
  rw [fieldPermission?, fieldPermission?, only, List.find?_filter]
  congr 1
  funext p
  simp only [FieldPermission.isFor, hasRole_of_user? hu, Bool.and_eq_true, decide_eq_true_eq,
    Bool.decide_and]
  cases decide (p.role = u.role) <;> cases decide (p.entity = entity) <;> rfl

theorem actionPermissionsOf_only (hu : s.user? user = some u) :
    (s.only user entity).actionPermissionsOf u.role entity =
      s.actionPermissionsOf u.role entity := by
  rw [actionPermissionsOf, actionPermissionsOf, only, List.filter_filter]
  simp only [hasRole_of_user? hu, Bool.and_self]

theorem actionPermission?_only (hu : s.user? user = some u) (action : Text) :
    (s.only user entity).actionPermission? u.role entity action =
      s.actionPermission? u.role entity action := by
  rw [actionPermission?_eq_find?, actionPermission?_eq_find?, actionPermissionsOf_only hu]

/-! ### The answers of what is left -/

theorem rowFor?_only (s : Store) (user entity field : Text) :
    (s.only user entity).rowFor? user entity field = s.rowFor? user entity field := by
  have hsame : (s.only user entity).user? user = s.user? user := rfl
  rw [rowFor?, rowFor?, hsame]
  cases hu : s.user? user with
  | none => rfl
  | some u => exact fieldPermission?_only hu field

theorem access_only (s : Store) (user entity : Text) (view : View) :
    (s.only user entity).access user entity view = s.access user entity view := by
  have hfields : (s.only user entity).fieldsOf entity = s.fieldsOf entity := rfl
  rw [access, access, hfields]
  refine List.map_congr_left fun f _ => ?_
  rw [accessTo, accessTo, rowFor?_only]

theorem snapshot_only (s : Store) (user entity : Text) (view : View) :
    (s.only user entity).snapshot user entity view = s.snapshot user entity view := by
  rw [snapshot, snapshot, access_only]

theorem renderView_only (s : Store) (user entity : Text) (view : View) (data : Json) :
    (s.only user entity).renderView user entity view data = s.renderView user entity view data := by
  have htemplate : (s.only user entity).template? entity view = s.template? entity view := rfl
  rw [renderView, renderView, htemplate]
  simp only [renderTemplate, snapshot_only]

/-- The rows that are left decide about the actions of an active user. -/
theorem can_only (s : Store) (user entity action : Text) (record : Option Json) :
    (s.only user entity).can user entity action record = s.can user entity action record := by
  have hsame : (s.only user entity).activeUser? user = s.activeUser? user := rfl
  rw [can, can, hsame]
  cases hactive : s.activeUser? user with
  | none => rfl
  | some u =>
    have hu : s.user? user = some u := (Option.filter_eq_some_iff.1 hactive).1
    simp only [actionPermission?_only hu]

theorem actionsFor_only (hadmin : ∀ u, s.activeUser? user = some u → u.isAdmin = false) :
    (s.only user entity).actionsFor user entity = s.actionsFor user entity := by
  have hsame : (s.only user entity).activeUser? user = s.activeUser? user := rfl
  rw [actionsFor, actionsFor, hsame]
  cases hactive : s.activeUser? user with
  | none => rfl
  | some u =>
    have hu : s.user? user = some u := (Option.filter_eq_some_iff.1 hactive).1
    have hno : ¬u.isAdmin = true := by simp [hadmin u hactive]
    simp only [if_neg hno, actionPermissionsOf_only hu]

/-! ### Two stores -/

/-- **Rows of other roles and entities decide nothing.** Two stores that are the same once the
permissions of other roles than the user's and on other entities are left out give the same answers
about the user and the entity. -/
theorem answersAlike_of_only_eq (h : s.only user entity = t.only user entity) :
    s.AnswersAlike t user entity := by
  have haccess (view : View) : s.access user entity view = t.access user entity view := by
    rw [← access_only, h, access_only]
  have hcan (action : Text) (record : Option Json) :
      s.can user entity action record = t.can user entity action record := by
    rw [← can_only, h, can_only]
  have hactive : t.activeUser? user = s.activeUser? user :=
    (congrArg (fun r : Store => r.activeUser? user) h).symm
  have hactions (hadmin : ∀ u, s.activeUser? user = some u → u.isAdmin = false) :
      s.actionsFor user entity = t.actionsFor user entity := by
    rw [← actionsFor_only hadmin, h, actionsFor_only (hactive ▸ hadmin)]
  constructor
  · exact haccess
  · intro view
    rw [visibleFields, visibleFields, haccess]
  · intro view
    rw [editableFields, editableFields, haccess]
  · intro view
    rw [snapshot, snapshot, haccess]
  · exact hcan
  · intro actions
    rw [checkActions, checkActions]
    simp only [hcan]
  · intro view data
    rw [← renderView_only, h, renderView_only]
  · exact hactions
  · intro hadmin
    rw [allowedActions, allowedActions, hactions hadmin]

/-- A clerk does not notice that a viewer may see more, nor that a row about invoices moves in front of
one about orders. -/
theorem answersAlike_other_rows :
    let hides (role entity : String) : FieldPermission :=
      { role := role.toList, entity := entity.toList, field := "total".toList, listVisible := false }
    let allows (role entity : String) : ActionPermission :=
      { role := role.toList, entity := entity.toList, action := "edit".toList, isAllowed := true }
    let s : Store :=
      { users := [{ id := "u".toList, role := "clerk".toList }]
        fields := [{ entity := "order".toList, name := "total".toList }]
        templates :=
          [{ entity := "order".toList, view := .list, body := "<td>\x7b\x7btotal\x7d\x7d</td>".toList }] }
    let before := { s with
      fieldPermissions := [hides "viewer" "order", hides "clerk" "order"]
      actionPermissions := [allows "clerk" "order", allows "clerk" "invoice"] }
    let after := { s with
      fieldPermissions := [hides "clerk" "order"]
      actionPermissions := [allows "clerk" "invoice", allows "clerk" "order", allows "viewer" "order"] }
    before.only "u".toList "order".toList = after.only "u".toList "order".toList ∧
      before.AnswersAlike after "u".toList "order".toList := by
  intro hides allows s before after
  have honly : before.only "u".toList "order".toList = after.only "u".toList "order".toList := rfl
  exact ⟨honly, answersAlike_of_only_eq honly⟩

end MaskedViews.Store
