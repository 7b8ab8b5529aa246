import MaskedViews.Access.Rule
import MaskedViews.Proofs.Text.Trimming

/-!
# Whom a membership rule means by `current_user`

A rule that asks whether a field is in `current_user` should mean the user who acts and nobody
else, as a rule that asks whether it equals `current_user` does. But the word is replaced by the id
before the list is read, so the id is read as a list: one with a comma stands for several members.
`meansUser_iff` says for every id whether membership means the user, and `isOwnList_iff` which ids
that do not begin as an array are their own list.
-/

namespace MaskedViews

/-- No piece of a split text contains the mark. -/
theorem Text.not_mem_of_mem_splitOn {mark : Char} {s w : Text} (h : w ∈ s.splitOn mark) :
    mark ∉ w := by
  induction s generalizing w with
  | nil =>
    rw [List.splitOn_nil, List.mem_singleton] at h
    simp [h]
  | cons c s ih =>
    obtain ⟨r, rs, hrs⟩ := List.exists_cons_of_ne_nil (List.splitOn_ne_nil mark s)
    rw [List.splitOn_cons_eq_if_modifyHead, hrs] at h
    rw [hrs] at ih
    split at h
    · rcases List.mem_cons.1 h with rfl | h
      · exact List.not_mem_nil
      · exact ih h
    · next hc =>
      rcases List.mem_cons.1 h with rfl | h
      · simp only [List.mem_cons, not_or]
        exact ⟨fun e => hc (by simp [e]), ih List.mem_cons_self⟩
      · exact ih (List.mem_cons_of_mem _ h)

namespace Rule

theorem splitList_of_not_mem {s : Text} (h : ',' ∉ s) : splitList s = [Text.trim s] := by
  rw [splitList, List.splitOn_eq_singleton h, List.map_singleton]

/-- No member of a list written with commas contains one. -/
theorem not_mem_of_mem_splitList {s w : Text} (h : w ∈ splitList s) : ',' ∉ w := by
  obtain ⟨piece, hpiece, rfl⟩ := List.mem_map.1 h
  exact fun hw => Text.not_mem_of_mem_splitOn hpiece (Text.mem_of_mem_trim hw)

/-! ### The members that an id stands for -/

/-- Whether an id, read as a list, has members and none but itself. The word `current_user` is the
id again. -/
def IsOwnList (user : Text) : Prop :=
  listed (.string user) ≠ [] ∧ ∀ w ∈ listed (.string user), w = user ∨ w = currentUser

theorem substituteUser_currentUser (user : Text) :
    substituteUser user (.string currentUser) = .string user := by
  simp [substituteUser]

/-- A list with the user in place of the word has the user as its one member if each of its
members is one of the two. -/
theorem mem_candidates_iff_eq (user : Text) (expected : Json) :
    (∀ w, w ∈ candidates user expected ↔ w = user) ↔
      listed expected ≠ [] ∧ ∀ w ∈ listed expected, w = user ∨ w = currentUser := by
  have hname (w : Text) :
      (if w = currentUser then user else w) = user ↔ w = user ∨ w = currentUser := by
    by_cases hw : w = currentUser <;> simp [hw]
  simp only [← hname, candidates, List.mem_map]
  constructor
  · intro h
    obtain ⟨w, hw, -⟩ := (h user).2 rfl
    exact ⟨List.ne_nil_of_mem hw, fun v hv => (h _).1 ⟨v, hv, rfl⟩⟩
  · rintro ⟨hne, hall⟩ w
    constructor
    · rintro ⟨v, hv, rfl⟩
      exact hall v hv
    · rintro rfl
      obtain ⟨v, hv⟩ := List.exists_mem_of_ne_nil _ hne
      exact ⟨v, hv, hall v hv⟩

/-- An id that does not begin as an array is its own list if it has no comma and no blank at its
ends, or if it is nothing but the word `current_user`, once or several times. -/
theorem isOwnList_iff {user : Text} (h : (Text.trimStart user).head? ≠ some '[') :
    IsOwnList user ↔
      (',' ∉ user ∧ Text.trim user = user) ∨ ∀ w ∈ splitList user, w = currentUser := by
  have hlisted : listed (.string user) = splitList user := by simp [listed, h]
  rw [IsOwnList, hlisted]
  by_cases hcomma : ',' ∈ user
  · have hne : ∀ w ∈ splitList user, w ≠ user := by
      rintro w hw rfl
      exact not_mem_of_mem_splitList hw hcomma
    have hnil : splitList user ≠ [] := by
      rw [splitList, Ne, List.map_eq_nil_iff]
      exact List.splitOn_ne_nil ',' user
    simp only [hcomma, not_true_eq_false, false_and, false_or, ne_eq, hnil, not_false_eq_true,
      true_and]
    exact forall₂_congr fun w hw => or_iff_right (hne w hw)
  · simp [splitList_of_not_mem hcomma, hcomma]

/-! ### Decisions -/

/-- The rule that compares a field with the user who acts. -/
def onUser (field : Text) (op : Operator) : Rule := ⟨field, op, .string currentUser⟩

/-- Whether membership in `current_user` means a user: it is decided as equality with
`current_user` is, and its negation as the negation. -/
def MeansUser (user : Text) : Prop :=
  ∀ (field : Text) (record : Option Json),
    (onUser field .isIn).holds record user = (onUser field .equals).holds record user ∧
      (onUser field .notIn).holds record user = (onUser field .notEquals).holds record user

theorem holds_onUser (field : Text) (op : Operator) (record : Option Json) (user : Text) :
    (onUser field op).holds record user =
      (!isMissing record && compare op (actual? record field) user (.string user)) := by
  rw [holds, onUser, substituteUser_currentUser]

/-- A record that has an owner. -/
def ownedBy (owner : Text) : Option Json := some (.object [("owner".toList, .string owner)])

theorem actual?_ownedBy (owner : Text) :
    actual? (ownedBy owner) "owner".toList = some (.string owner) := by
  have hkeys : pathKeys "owner".toList = ["owner".toList] := by decide
  rw [actual?, ownedBy, Option.bind_some, Json.lookup, if_neg (by decide), hkeys]
  rfl

/-- **Whom membership means.** Membership in `current_user` means the user exactly if the id, read
as a list, is its own list. -/
theorem meansUser_iff (user : Text) : MeansUser user ↔ IsOwnList user := by
  rw [IsOwnList, ← mem_candidates_iff_eq]
  constructor
  · intro h w
    have hin := (h "owner".toList (ownedBy w)).1
    rw [holds_onUser, holds_onUser, actual?_ownedBy] at hin
    simp only [ownedBy, isMissing, List.isEmpty_cons, Bool.not_false, Bool.true_and, compare,
      Option.any_some, Json.toText_string, List.contains_eq_mem] at hin
    exact decide_eq_decide.1 hin
  · intro h field record
    rw [holds_onUser, holds_onUser, holds_onUser, holds_onUser]
    cases actual? record field with
    | none => exact ⟨rfl, rfl⟩
    | some v =>
      simp only [compare, Option.any_some, Option.all_some, Json.toText_string,
        List.contains_eq_mem, ← decide_not]
      exact ⟨congrArg _ (decide_eq_decide.2 (h _)),
        congrArg _ (decide_eq_decide.2 (not_congr (h _)))⟩

/-- The id with a comma owns what its two halves own. -/
theorem not_meansUser_of_comma :
    (onUser "owner".toList .isIn).holds (ownedBy "a".toList) "a,b".toList = true ∧
      ¬ MeansUser "a,b".toList := by
  have hgrants : (onUser "owner".toList .isIn).holds (ownedBy "a".toList) "a,b".toList = true := by
    decide +kernel
  refine ⟨hgrants, fun h => ?_⟩
  rw [(h _ _).1] at hgrants
  revert hgrants
  decide +kernel

end Rule

end MaskedViews
