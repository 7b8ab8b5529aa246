import MaskedViews.Store.JsonForm

/-!
# Saving and loading

A store is written with every key, except those whose value is none, and read key by key. So what is
written is read back as it was: each kind of row by itself (`read?_toJson`), lists of rows, and the whole
store (`ofJson?_toJson`). A rule that is null is the one thing that does not come back, since null counts
as none where a rule is read (`ofJson?_toJson_iff`).
-/

namespace MaskedViews

open DocumentNode (entry entryOr listOf int32OfInt?)

namespace Json

/-! ### Rows -/

/-- The members that a row is written with, in the order of an object. -/
def rowMembers (ms : List (String × Json)) : List (Text × Json) :=
  (ms.map fun m => (m.1.toList, m.2)).foldl (fun sorted m => setMember m.1 m.2 sorted) []

theorem lookup_eq_find? (key : Text) (members : List (Text × Json)) :
    members.lookup key = find? key members := by
  induction members with
  | nil => rfl
  | cons m members ih =>
    rw [List.lookup_cons, find?_cons, ih]
    by_cases h : m.1 = key
    · simp [h]
    · have hne : (key == m.1) = false := by simpa using fun e => h e.symm
      rw [hne, if_neg h]

/-- Of several members under a key the last counts, and one set before where there is none. -/
theorem lookup_foldl_setMember (key : String) (ms : List (String × Json)) (sorted : List (Text × Json)) :
    ((ms.map fun m => (m.1.toList, m.2)).foldl (fun sorted m => setMember m.1 m.2 sorted)
        sorted).lookup key.toList =
      (ms.reverse.lookup key).or (sorted.lookup key.toList) := by
  induction ms generalizing sorted with
  | nil => rfl
  | cons m ms ih =>
    obtain ⟨k, v⟩ := m
    rw [List.map_cons, List.foldl_cons, ih, List.reverse_cons, List.lookup_append, Option.or_assoc,
      lookup_eq_find? _ (setMember ..), find?_setMember, ← lookup_eq_find?]
    congr 1
    by_cases h : k = key
    · simp [h]
    · have hne : (key == k) = false := by simpa using fun e => h e.symm
      have hne' : k.toList ≠ key.toList := fun e => h (String.toList_inj.1 e)
      rw [if_neg hne', List.lookup_cons, hne, List.lookup_nil, Option.none_or]

theorem lookup_rowMembers (ms : List (String × Json)) (key : String) :
    (rowMembers ms).lookup key.toList = ms.reverse.lookup key := by
  rw [rowMembers, lookup_foldl_setMember, List.lookup_nil, Option.or_none]

variable {β : Type}

@[simp] theorem entries?_row (keys : List Text) (ms : List (String × Json)) :
    DocumentNode.entries? keys (row ms) = some (rowMembers ms) := rfl

@[simp] theorem entry_rowMembers (ms : List (String × Json)) (key : String) (read : Json → Option β) :
    entry (rowMembers ms) key read = (ms.reverse.lookup key).bind read := by
  rw [entry, lookup_rowMembers]

@[simp] theorem entryOr_rowMembers (ms : List (String × Json)) (key : String)
    (read : Json → Option β) (default : β) :
    entryOr (rowMembers ms) key read default =
      ((ms.reverse.lookup key).map read).getD (some default) := by
  rw [entryOr, lookup_rowMembers]
  cases ms.reverse.lookup key <;> rfl

/-! ### Values -/

@[simp] theorem text?_string (s : Text) : DocumentNode.text? (string s) = some s := rfl

@[simp] theorem flag?_bool (b : Bool) : DocumentNode.flag? (bool b) = some b := rfl

@[simp] theorem nullableText?_string (s : Text) :
    DocumentNode.nullableText? (string s) = some (some s) := rfl

@[simp] theorem viewName?_string (s : Text) : DocumentNode.viewName? (string s) = some s := rfl

/-- An integer of 32 bits is in their range. -/
@[simp] theorem int32?_toInt (n : Int32) :
    DocumentNode.int32? (number (.integer n.toInt)) = some n := by
  have hrange : -(twoTo 31 : Int) ≤ n.toInt ∧ n.toInt < (twoTo 31 : Int) := ⟨n.le_toInt, n.toInt_lt⟩
  show int32OfInt? n.toInt = some n
  rw [int32OfInt?, if_pos hrange, Int32.ofInt_toInt]

/-- Null is no value, and any other is itself. -/
@[simp] theorem nullableValue?_eq (v : Json) :
    DocumentNode.nullableValue? v = some ((some v).filter fun v => !v.isNull) := by
  cases v <;> rfl

/-- If every item comes back as `f` of it, so does every item of a list. -/
theorem listOf_map {read : Json → Option β} {write : β → Json} {f : β → β}
    (h : ∀ x, read (write x) = some (f x)) (xs : List β) :
    listOf read (array (xs.map write)) = some (xs.map f) := by
  show (xs.map write).mapM read = some (xs.map f)
  induction xs with
  | nil => rfl
  | cons x xs ih => simp [List.mapM_cons, h, ih]

end Json

/-! ### Rows of each kind -/

theorem User.read?_toJson (u : User) : User.read? u.toJson = some u := by
  simp [User.read?, User.toJson, List.lookup_cons]

theorem Field.read?_toJson (f : Field) : Field.read? f.toJson = some f := by
  obtain ⟨entity, name, label, dataType, order, isRequired, lookupEntity⟩ := f
  cases lookupEntity with
  | none => simp [Field.read?, Field.toJson, Json.optionalMember, List.lookup_cons]
  | some entity => simp [Field.read?, Field.toJson, Json.optionalMember, List.lookup_cons]

theorem FieldPermission.read?_toJson (p : FieldPermission) :
    FieldPermission.read? p.toJson = some p := by
  simp [FieldPermission.read?, FieldPermission.toJson, List.lookup_cons]

/-- The row with a rule that is null left out. -/
def ActionPermission.withoutNull (p : ActionPermission) : ActionPermission :=
  { p with rule := p.rule.filter fun v => !v.isNull }

theorem ActionPermission.withoutNull_of_ne {p : ActionPermission} (h : p.rule ≠ some .null) :
    p.withoutNull = p := by
  obtain ⟨role, entity, action, isAllowed, rule⟩ := p
  cases rule with
  | none => rfl
  | some v =>
    have hv : v.isNull = false := by
      rw [← Bool.not_eq_true, Json.isNull_iff]
      exact fun e => h (congrArg some e)
    simp [withoutNull, hv]

theorem ActionPermission.read?_toJson (p : ActionPermission) :
    ActionPermission.read? p.toJson = some p.withoutNull := by
  obtain ⟨role, entity, action, isAllowed, rule⟩ := p
  cases rule with
  | none => simp [ActionPermission.read?, ActionPermission.toJson, Json.optionalMember,
      withoutNull, List.lookup_cons]
  | some v => simp [ActionPermission.read?, ActionPermission.toJson, Json.optionalMember,
      withoutNull, List.lookup_cons]

theorem TemplateRow.read?_toJson (t : TemplateRow) : TemplateRow.read? t.toJson = some t := by
  simp [TemplateRow.read?, TemplateRow.toJson, List.lookup_cons, View.ofName?_name]

/-! ### The whole store -/

namespace Store

/-- A store is read as it was written, with rules that are null left out. -/
theorem ofJson?_toJson (s : Store) :
    ofJson? s.toJson =
      some { s with actionPermissions := s.actionPermissions.map ActionPermission.withoutNull } := by
  have husers := Json.listOf_map (f := id) User.read?_toJson s.users
  have hfields := Json.listOf_map (f := id) Field.read?_toJson s.fields
  have hpermissions := Json.listOf_map (f := id) FieldPermission.read?_toJson s.fieldPermissions
  have hactions := Json.listOf_map ActionPermission.read?_toJson s.actionPermissions
  have htemplates := Json.listOf_map (f := id) TemplateRow.read?_toJson s.templates
  simp [ofJson?, read?, toJson, List.lookup_cons, husers, hfields, hpermissions, hactions, htemplates]

/-- **Loading undoes saving.** A store, whether it was loaded or built, comes back as it was exactly if
none of its rules is null. -/
theorem ofJson?_toJson_iff (s : Store) :
    ofJson? s.toJson = some s ↔ ∀ p ∈ s.actionPermissions, p.rule ≠ some .null := by
  rw [ofJson?_toJson, Option.some.injEq]
  constructor
  · intro h p hp hnull
    have hactions : s.actionPermissions.map ActionPermission.withoutNull = s.actionPermissions :=
      congrArg actionPermissions h
    rw [← hactions] at hp
    obtain ⟨q, -, rfl⟩ := List.mem_map.1 hp
    have hno := (Option.filter_eq_some_iff.1 hnull).2
    cases hno
  · intro h
    have hactions : s.actionPermissions.map ActionPermission.withoutNull = s.actionPermissions :=
      calc s.actionPermissions.map ActionPermission.withoutNull
        _ = s.actionPermissions.map id :=
          List.map_congr_left fun p hp => ActionPermission.withoutNull_of_ne (h p hp)
        _ = s.actionPermissions := List.map_id _
    rw [hactions]

end Store

end MaskedViews
