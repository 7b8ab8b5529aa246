import MaskedViews.Access.Actions
import MaskedViews.Access.Fields

/-!
# Further declarations

A store grows by declarations. What was decided before stays as it was, however many follow: the first
user of an id and the first permission for a question count, so no declaration takes their place
(`Keeps`, for one declaration `keeps_declare` and for any number `keeps_declareAll`). From that it follows
that the decisions about a known user stay. Templates go the other way: the last one declared for a view
is the one in use (`template?_declareAll`).
-/

namespace MaskedViews

/-- One declaration. -/
inductive Declaration where
  /-- A user. -/
  | user (u : User)
  /-- A field of an entity. -/
  | field (entity name : Text)
  /-- What a role may do with a field. -/
  | fieldPermission (p : FieldPermission)
  /-- Whether a role may take an action. -/
  | actionPermission (p : ActionPermission)
  /-- A template of a view. -/
  | template (entity : Text) (view : View) (body : Text)

/-- The template that a declaration gives to a view, if it is about that one. -/
def Declaration.body? (entity : Text) (view : View) : Declaration → Option Text
  | .template e v body => if e = entity ∧ v = view then some body else none
  | _ => none

/-- The last template that declarations give to a view, if any does. -/
def Declaration.lastBody? (entity : Text) (view : View) (ds : List Declaration) : Option Text :=
  ds.reverse.findSome? (Declaration.body? entity view)

namespace Store

/-- The store after a declaration. -/
def declare (s : Store) : Declaration → Store
  | .user u => s.withUser u
  | .field entity name => s.withField entity name
  | .fieldPermission p => s.withFieldPermission p
  | .actionPermission p => s.withActionPermission p
  | .template entity view body => s.withTemplate entity view body

/-- The store after some declarations, one after the other. -/
def declareAll (s : Store) (ds : List Declaration) : Store := ds.foldl declare s

/-- Whether an entity has a field of a name. -/
def HasField (s : Store) (entity name : Text) : Prop :=
  ∃ f ∈ s.fields, f.entity = entity ∧ f.name = name

/-- Whether what a store says of users, fields and permissions, another one says too. -/
structure Keeps (s t : Store) : Prop where
  /-- Of a user who is known. -/
  user : ∀ id u, s.user? id = some u → t.user? id = some u
  /-- That an entity has a field. -/
  field : ∀ entity name, s.HasField entity name → t.HasField entity name
  /-- Of a field that a role has a row for. -/
  fieldPermission : ∀ role entity field p, s.fieldPermission? role entity field = some p →
    t.fieldPermission? role entity field = some p
  /-- Of an action that a role has a row for. -/
  actionPermission : ∀ role entity action p, s.actionPermission? role entity action = some p →
    t.actionPermission? role entity action = some p

variable {s t : Store} {user entity : Text} {u : User}

/-! ### What stays -/

theorem Keeps.refl (s : Store) : s.Keeps s :=
  ⟨fun _ _ h => h, fun _ _ h => h, fun _ _ _ _ h => h, fun _ _ _ _ h => h⟩

theorem Keeps.trans {r : Store} (h : r.Keeps s) (h' : s.Keeps t) : r.Keeps t where
  user id u hu := h'.user id u (h.user id u hu)
  field entity name hf := h'.field entity name (h.field entity name hf)
  fieldPermission role entity field p hp :=
    h'.fieldPermission role entity field p (h.fieldPermission role entity field p hp)
  actionPermission role entity action p hp :=
    h'.actionPermission role entity action p (h.actionPermission role entity action p hp)

theorem hasField_withField {e name : Text} (entity field : Text) (h : s.HasField e name) :
    (s.withField entity field).HasField e name := by
  obtain ⟨f, hf, hname⟩ := h
  exact ⟨f, List.mem_append_left _ hf, hname⟩

/-- A declaration adds to one list and touches none of the others. -/
theorem keeps_declare (s : Store) (d : Declaration) : s.Keeps (s.declare d) := by
  have hrefl := Keeps.refl s
  cases d with
  | user u => exact ⟨fun _ _ => user?_withUser, hrefl.field, hrefl.fieldPermission,
      hrefl.actionPermission⟩
  | field entity name => exact ⟨hrefl.user, fun _ _ => hasField_withField entity name,
      hrefl.fieldPermission, hrefl.actionPermission⟩
  | fieldPermission p => exact ⟨hrefl.user, hrefl.field,
      fun _ _ _ _ => fieldPermission?_withFieldPermission, hrefl.actionPermission⟩
  | actionPermission p => exact ⟨hrefl.user, hrefl.field, hrefl.fieldPermission,
      fun _ _ _ _ => actionPermission?_withActionPermission⟩
  | template entity view body => exact ⟨hrefl.user, hrefl.field, hrefl.fieldPermission,
      hrefl.actionPermission⟩

theorem keeps_declareAll (s : Store) (ds : List Declaration) : s.Keeps (s.declareAll ds) := by
  induction ds generalizing s with
  | nil => exact .refl s
  | cons d ds ih => exact (keeps_declare s d).trans (ih (s.declare d))

/-! ### Decisions -/

/-- The decision about an action that has a row stays. -/
theorem Keeps.can (h : s.Keeps t) (hu : s.user? user = some u) {action : Text} {p : ActionPermission}
    (hp : s.actionPermission? u.role entity action = some p) (record : Option Json) :
    t.can user entity action record = s.can user entity action record := by
  have hactive : t.activeUser? user = s.activeUser? user := by
    rw [activeUser?, activeUser?, hu, h.user user u hu]
  rw [Store.can, Store.can, hactive]
  cases hv : s.activeUser? user with
  | none => rfl
  | some v =>
    have hvu : v = u := by
      have := (Option.filter_eq_some_iff.1 hv).1
      rw [hu] at this
      exact (Option.some.inj this).symm
    simp only [hvu, hp, h.actionPermission u.role entity action p hp]

/-- So does the access to a field that has one. -/
theorem Keeps.accessTo (h : s.Keeps t) (hu : s.user? user = some u) {field : Text}
    {p : FieldPermission} (hp : s.fieldPermission? u.role entity field = some p) (view : View) :
    t.accessTo user entity field view = s.accessTo user entity field view := by
  have hrow : s.rowFor? user entity field = some p := by rw [rowFor?, hu, Option.bind_some, hp]
  have hrow' : t.rowFor? user entity field = some p := by
    rw [rowFor?, h.user user u hu, Option.bind_some, h.fieldPermission u.role entity field p hp]
  rw [Store.accessTo, Store.accessTo, hrow, hrow']

/-- The access of a user is worked out for each field of the entity by its name. -/
theorem mem_access_iff {view : View} {a : FieldAccess} :
    a ∈ s.access user entity view ↔
      s.HasField entity a.field ∧ a = s.accessTo user entity a.field view := by
  simp only [access, fieldsOf, List.mem_map, List.mem_mergeSort, List.mem_filter, decide_eq_true_eq]
  constructor
  · rintro ⟨f, hf, rfl⟩
    exact ⟨⟨f, hf.1, hf.2, rfl⟩, rfl⟩
  · rintro ⟨⟨f, hf, he, hname⟩, ha⟩
    exact ⟨f, ⟨hf, he⟩, hname ▸ ha.symm⟩

/-- Whichever of several fields of a name is found, its access is the same. -/
theorem find?_access {field : Text} (hfield : s.HasField entity field) (user : Text) (view : View) :
    (s.access user entity view).find? (fun a => a.field = field) =
      some (s.accessTo user entity field view) := by
  cases hfind : (s.access user entity view).find? (fun a => a.field = field) with
  | none =>
    have hmem : s.accessTo user entity field view ∈ s.access user entity view :=
      mem_access_iff.2 ⟨hfield, rfl⟩
    have hname : (s.accessTo user entity field view).field = field := rfl
    exact absurd hname (by simpa using List.find?_eq_none.1 hfind _ hmem)
  | some a =>
    have ha := mem_access_iff.1 (List.mem_of_find?_eq_some hfind)
    have hname : a.field = field := by simpa using List.find?_some hfind
    rw [ha.2, hname]

/-- The access to a field that is there and has a row for the role of a user who is known stays. -/
theorem Keeps.access (h : s.Keeps t) (hu : s.user? user = some u) {field : Text}
    (hfield : s.HasField entity field) {p : FieldPermission}
    (hp : s.fieldPermission? u.role entity field = some p) (view : View) :
    (∀ a, a.field = field → (a ∈ t.access user entity view ↔ a ∈ s.access user entity view)) ∧
      t.canSee user entity field view = s.canSee user entity field view ∧
      t.canEdit user entity field view = s.canEdit user entity field view := by
  have hsame := h.accessTo hu hp view
  have hfield' := h.field entity field hfield
  refine ⟨?_, ?_, ?_⟩
  · rintro a rfl
    rw [mem_access_iff, mem_access_iff, hsame]
    exact and_congr_left fun _ => ⟨fun _ => hfield, fun _ => hfield'⟩
  · rw [canSee, canSee, find?_access hfield, find?_access hfield', hsame]
  · rw [canEdit, canEdit, find?_access hfield, find?_access hfield', hsame]

/-! ### Templates -/

theorem template?_declare (s : Store) (d : Declaration) (entity : Text) (view : View) :
    (s.declare d).template? entity view = (d.body? entity view).or (s.template? entity view) := by
  cases d with
  | template e v body =>
    simp only [declare, withTemplate, template?, Declaration.body?, List.findRev?_eq_find?_reverse,
      List.reverse_append, List.reverse_singleton, List.singleton_append, List.find?_cons,
      Bool.true_and]
    by_cases h : e = entity ∧ v = view
    · simp [h]
    · have hno : (decide (e = entity) && decide (v = view)) = false := by simpa using h
      rw [hno, if_neg h, Option.none_or]
  | user u => rfl
  | field e name => rfl
  | fieldPermission p => rfl
  | actionPermission p => rfl

/-- The last template that was declared for a view is in use, the one before if there was none. -/
theorem template?_declareAll (s : Store) (ds : List Declaration) (entity : Text) (view : View) :
    (s.declareAll ds).template? entity view =
      (Declaration.lastBody? entity view ds).or (s.template? entity view) := by
  induction ds generalizing s with
  | nil => rfl
  | cons d ds ih =>
    have htail : s.declareAll (d :: ds) = (s.declare d).declareAll ds := rfl
    rw [htail, ih, template?_declare, Declaration.lastBody?, Declaration.lastBody?,
      List.reverse_cons, List.findSome?_append, List.findSome?_singleton, Option.or_assoc]

/-! ### Any number of declarations -/

/-- **Declarations override nothing but templates.** Whatever is declared after them, users and
permissions stay what they are, and so do the decisions about a known user where there was a row for the
role; the template of a view is the last one declared for it, and the one before if none was. -/
theorem declareAll_overrides_templates (s : Store) (ds : List Declaration) :
    (∀ id u, s.user? id = some u → (s.declareAll ds).user? id = some u) ∧
    (∀ role entity field p, s.fieldPermission? role entity field = some p →
      (s.declareAll ds).fieldPermission? role entity field = some p) ∧
    (∀ role entity action p, s.actionPermission? role entity action = some p →
      (s.declareAll ds).actionPermission? role entity action = some p) ∧
    (∀ user u entity action p, s.user? user = some u →
      s.actionPermission? u.role entity action = some p →
        ∀ record, (s.declareAll ds).can user entity action record =
          s.can user entity action record) ∧
    (∀ user u entity field p, s.user? user = some u → s.HasField entity field →
      s.fieldPermission? u.role entity field = some p → ∀ view,
        (∀ a, a.field = field → (a ∈ (s.declareAll ds).access user entity view ↔
          a ∈ s.access user entity view)) ∧
        (s.declareAll ds).canSee user entity field view = s.canSee user entity field view ∧
        (s.declareAll ds).canEdit user entity field view = s.canEdit user entity field view) ∧
    ∀ entity view, (s.declareAll ds).template? entity view =
      (Declaration.lastBody? entity view ds).or (s.template? entity view) := by
  have hkeeps := keeps_declareAll s ds
  refine ⟨hkeeps.user, hkeeps.fieldPermission, hkeeps.actionPermission, ?_, ?_, ?_⟩
  · intro user u entity action p hu hp record
    exact hkeeps.can hu hp record
  · intro user u entity field p hu hfield hp view
    exact hkeeps.access hu hfield hp view
  · exact template?_declareAll s ds

/-- A clerk who may not edit an order nor see its total cannot be given either by rows that come later,
nor by a second user of the same id; the page, though, is the new one. -/
theorem declareAll_overrides_templates_clerk :
    let clerk : User := { id := "u".toList, role := "clerk".toList }
    let s : Store :=
      { users := [clerk]
        fields := [{ entity := "order".toList, name := "total".toList }]
        fieldPermissions := [{ role := "clerk".toList, entity := "order".toList,
                               field := "total".toList, listVisible := false }]
        actionPermissions := [{ role := "clerk".toList, entity := "order".toList,
                                action := "edit".toList, isAllowed := false }]
        templates := [{ entity := "order".toList, view := .list, body := "old".toList }] }
    let ds : List Declaration :=
      [.user { id := "u".toList, role := adminRole },
        .actionPermission { role := "clerk".toList, entity := "order".toList,
                            action := "edit".toList, isAllowed := true },
        .fieldPermission (.withDefaults "clerk".toList "order".toList "total".toList),
        .field "order".toList "total".toList,
        .template "order".toList .list "new".toList]
    (s.declareAll ds).user? "u".toList = some clerk ∧
      (∀ record, (s.declareAll ds).can "u".toList "order".toList "edit".toList record = false) ∧
      (s.declareAll ds).canSee "u".toList "order".toList "total".toList .list = false ∧
      (s.declareAll ds).template? "order".toList .list = some "new".toList := by
  intro clerk s ds
  have hu : s.user? "u".toList = some clerk := by decide
  obtain ⟨huser, -, -, hcan, hfields, htemplate⟩ := declareAll_overrides_templates s ds
  refine ⟨huser _ clerk hu, ?_, ?_, ?_⟩
  · intro record
    rw [hcan _ clerk _ _ _ hu rfl record]
    rfl
  · have hfield : s.HasField "order".toList "total".toList := ⟨_, List.mem_singleton_self _, rfl, rfl⟩
    rw [(hfields _ clerk _ _ _ hu hfield rfl .list).2.1, canSee, find?_access hfield]
    rfl
  · rw [htemplate]
    rfl

end Store

end MaskedViews
