import MaskedViews.Access.Rule
import MaskedViews.Store.Basic

/-!
# Access to actions

A user who is unknown or not active may do nothing, and an administrator everything. Anyone else
needs a row for the role that allows the action, and a record that meets its rule.
-/

namespace MaskedViews

/-- An action that is listed for a user. -/
structure ActionAccess where
  /-- The action. -/
  action : Text
  /-- Whether it is allowed at all. -/
  allowed : Bool
  /-- Whether it also depends on the record. -/
  hasCondition : Bool
  deriving DecidableEq, Repr

namespace Store

/-- The user of an id, if active. -/
def activeUser? (s : Store) (id : Text) : Option User := (s.user? id).filter User.active

/-- Whether a user may take an action on a record. -/
def can (s : Store) (user entity action : Text) (record : Option Json) : Bool :=
  match s.activeUser? user with
  | none => false
  | some u =>
    u.isAdmin ||
      match s.actionPermission? u.role entity action with
      | none => false
      | some p => p.isAllowed && Rule.allows p.rule record user

/-- The actions that are listed for a user, whatever the record: an administrator has every action
of the entity, anyone else the rows of the role. -/
def actionsFor (s : Store) (user entity : Text) : List ActionAccess :=
  match s.activeUser? user with
  | none => []
  | some u =>
    if u.isAdmin then (s.actionsOf entity).map fun action => ⟨action, true, false⟩
    else
      (s.actionPermissionsOf u.role entity).map fun p => ⟨p.action, p.isAllowed, p.hasCondition⟩

/-- The actions that are listed as allowed. -/
def allowedActions (s : Store) (user entity : Text) : List Text :=
  ((s.actionsFor user entity).filter ActionAccess.allowed).map ActionAccess.action

/-- Whether a user may take each of some actions without any record. -/
def checkActions (s : Store) (user entity : Text) (actions : List Text) : List (Text × Bool) :=
  actions.map fun action => (action, s.can user entity action none)

end Store

end MaskedViews
