import MaskedViews.Page
import MaskedViews.Store.JsonForm

/-!
# Rows that say what the defaults say

The defaults of a view count in three places: where a role has no row for a field, where a row is made
that carries the defaults of every view, and where a row of a document leaves a flag out. They agree. A
row that says of a view what its defaults say changes nothing in that view, unless it stands in front of
another row about the same field for the same role (`Store.showsAlike_of_accessIn`); a row of a document
is such a one in each view of which it says nothing (`FieldPermission.accessIn_of_read?`), and without
any flag it is the row that carries the defaults of every view (`FieldPermission.read?_of_names`).
-/

namespace MaskedViews

open DocumentNode (entry entryOr listOf)

theorem DocumentNode.entryOr_of_lookup {α β : Type} {e : List (Text × α)} {key : String}
    (h : e.lookup key.toList = none) (read : α → Option β) (default : β) :
    entryOr e key read default = some default := by
  rw [entryOr, h]

variable {α : Type} [DocumentNode α]

/-! ### What a row says of a view -/

namespace FieldPermission

/-- The access that a row gives to its field in a view. -/
def accessIn (p : FieldPermission) (view : View) : Access := ⟨p.visibleIn view, p.editableIn view⟩

/-- The keys under which a row says something of a view. -/
def flagKeys : View → List String
  | .list => ["list_visible", "list_editable"]
  | .formCreate => ["form_create_visible", "form_create_editable"]
  | .formEdit => ["form_edit_visible", "form_edit_editable"]
  | .formView => ["form_view_visible"]

/-- Whether the row that a node stands for says nothing of a view. -/
def LeavesOut (node : α) (view : View) : Prop :=
  ∀ e, DocumentNode.entries? keys node = some e → ∀ key ∈ flagKeys view, e.lookup key.toList = none

/-- Whether the row that a node stands for is about a field for a role. -/
def Names (node : α) (role entity field : Text) : Prop :=
  ∃ e, DocumentNode.entries? keys node = some e ∧ entry e "role" DocumentNode.text? = some role ∧
    entry e "entity" DocumentNode.text? = some entity ∧
    entry e "field" DocumentNode.text? = some field

theorem accessIn_withDefaults (role entity field : Text) (view : View) :
    (withDefaults role entity field).accessIn view = view.defaults := by
  rw [accessIn, visibleIn_withDefaults, editableIn_withDefaults]

/-- A row of a document gives the default access in each view of which it says nothing. -/
theorem accessIn_of_read? {node : α} {p : FieldPermission} {view : View} (h : read? node = some p)
    (hview : LeavesOut node view) : p.accessIn view = view.defaults := by
  simp only [read?, Option.bind_eq_bind, Option.bind_eq_some_iff, Option.pure_def,
    Option.some.injEq] at h
  obtain ⟨e, he, role, -, entity, -, field, -, listVisible, hlv, listEditable, hle, createVisible, hcv,
    createEditable, hce, editVisible, hev, editEditable, hee, viewVisible, hvv, rfl⟩ := h
  have hflag {key : String} (hkey : key ∈ flagKeys view) {default flag : Bool}
      (h : entryOr e key DocumentNode.flag? default = some flag) : flag = default := by
    rw [DocumentNode.entryOr_of_lookup (hview e he key hkey), Option.some.injEq] at h
    exact h.symm
  cases view with
  | list =>
    rw [hflag (by simp [flagKeys]) hlv, hflag (by simp [flagKeys]) hle]
    rfl
  | formCreate =>
    rw [hflag (by simp [flagKeys]) hcv, hflag (by simp [flagKeys]) hce]
    rfl
  | formEdit =>
    rw [hflag (by simp [flagKeys]) hev, hflag (by simp [flagKeys]) hee]
    rfl
  | formView =>
    rw [hflag (by simp [flagKeys]) hvv]
    rfl

/-- A row of a document without any flag is the one that carries the defaults of every view. -/
theorem read?_of_names {node : α} {role entity field : Text} (h : Names node role entity field)
    (hviews : ∀ view, LeavesOut node view) : read? node = some (withDefaults role entity field) := by
  obtain ⟨e, he, hrole, hentity, hfield⟩ := h
  have hflag (view : View) (key : String) (hkey : key ∈ flagKeys view) (default : Bool) :
      entryOr e key DocumentNode.flag? default = some default :=
    DocumentNode.entryOr_of_lookup (hviews view e he key hkey) _ _
  rw [read?, he]
  simp only [Option.bind_eq_bind, Option.bind_some, hrole, hentity, hfield]
  rw [hflag .list "list_visible" (by simp [flagKeys]),
    hflag .list "list_editable" (by simp [flagKeys]),
    hflag .formCreate "form_create_visible" (by simp [flagKeys]),
    hflag .formCreate "form_create_editable" (by simp [flagKeys]),
    hflag .formEdit "form_edit_visible" (by simp [flagKeys]),
    hflag .formEdit "form_edit_editable" (by simp [flagKeys]),
    hflag .formView "form_view_visible" (by simp [flagKeys])]
  rfl

end FieldPermission

/-! ### One row more in a store -/

namespace Store

/-- Two stores that show the same fields and pages in a view. -/
structure ShowsAlike (s t : Store) (view : View) : Prop where
  /-- The access of a user to the fields of an entity. -/
  access : ∀ user entity, s.access user entity view = t.access user entity view
  /-- What a page is masked by. -/
  snapshot : ∀ user entity, s.snapshot user entity view = t.snapshot user entity view
  /-- Whether a user can see a field. -/
  canSee : ∀ user entity field, s.canSee user entity field view = t.canSee user entity field view
  /-- Whether a user can edit a field. -/
  canEdit : ∀ user entity field, s.canEdit user entity field view = t.canEdit user entity field view
  /-- The page that a user sees, or why there is none. -/
  renderView : ∀ user entity data,
    s.renderView user entity view data = t.renderView user entity view data

/-- The store with other rows about fields. -/
def withRows (s : Store) (rows : List FieldPermission) : Store := { s with fieldPermissions := rows }

variable {s : Store} {p : FieldPermission} {before after rows : List FieldPermission} {view : View}

/-- What is shown in a view goes by the access to each field. -/
theorem showsAlike_of_accessTo (h : ∀ user entity field,
    (s.withRows rows).accessTo user entity field view = s.accessTo user entity field view) :
    (s.withRows rows).ShowsAlike s view := by
  have haccess (user entity : Text) :
      (s.withRows rows).access user entity view = s.access user entity view :=
    List.map_congr_left fun f _ => h user entity f.name
  have hsnapshot (user entity : Text) :
      (s.withRows rows).snapshot user entity view = s.snapshot user entity view := by
    rw [snapshot, snapshot, haccess]
  constructor
  · exact haccess
  · exact hsnapshot
  · intro user entity field
    rw [canSee, canSee, haccess]
  · intro user entity field
    rw [canEdit, canEdit, haccess]
  · intro user entity data
    have htemplate : (s.withRows rows).template? entity view = s.template? entity view := rfl
    rw [renderView, renderView, htemplate]
    simp only [renderTemplate, hsnapshot]

/-- The access that the rows of a role give to a field in a view. -/
def rowAccess (s : Store) (view : View) (role entity field : Text) : Access :=
  ((s.fieldPermission? role entity field).map fun p => p.accessIn view).getD view.defaults

theorem accessTo_eq (s : Store) (user entity field : Text) (view : View) :
    s.accessTo user entity field view =
      let stored := ((s.user? user).map fun u => s.rowAccess view u.role entity field).getD view.defaults
      ⟨field, stored.visible, !view.isReadOnly && stored.editable⟩ := by
  rw [accessTo, rowFor?]
  cases s.user? user with
  | none => rfl
  | some u =>
    simp only [Option.bind_some, Option.map_some, Option.getD_some, rowAccess]
    cases s.fieldPermission? u.role entity field <;> rfl

/-- A row that says of a view what its defaults say gives no other access than no row, if none behind it
is about the same field for the same role. -/
theorem rowAccess_withRows (hrows : s.fieldPermissions = before ++ after)
    (hp : p.accessIn view = view.defaults)
    (hafter : ∀ q ∈ after, q.isFor p.role p.entity p.field = false) (role entity field : Text) :
    (s.withRows (before ++ p :: after)).rowAccess view role entity field =
      s.rowAccess view role entity field := by
  simp only [rowAccess, fieldPermission?, withRows, hrows, List.find?_append, List.find?_cons]
  cases before.find? fun q => q.isFor role entity field with
  | some q => rfl
  | none =>
    simp only [Option.none_or]
    cases hfor : p.isFor role entity field with
    | false => rfl
    | true =>
      have hsame : (p.role = role ∧ p.entity = entity) ∧ p.field = field := by
        simpa only [FieldPermission.isFor, Bool.and_eq_true, decide_eq_true_eq] using hfor
      obtain ⟨⟨rfl, rfl⟩, rfl⟩ := hsame
      have hnone : after.find? (fun q => q.isFor p.role p.entity p.field) = none :=
        List.find?_eq_none.2 fun q hq => by rw [hafter q hq]; exact Bool.false_ne_true
      rw [hnone]
      exact hp

/-- Such a row changes nothing in the view. -/
theorem showsAlike_of_accessIn (hrows : s.fieldPermissions = before ++ after)
    (hp : p.accessIn view = view.defaults)
    (hafter : ∀ q ∈ after, q.isFor p.role p.entity p.field = false) :
    (s.withRows (before ++ p :: after)).ShowsAlike s view := by
  refine showsAlike_of_accessTo fun user entity field => ?_
  have husers : (s.withRows (before ++ p :: after)).user? user = s.user? user := rfl
  rw [accessTo_eq, accessTo_eq, husers]
  simp only [rowAccess_withRows hrows hp hafter]

/-! ### One row more in a document -/

/-- The nodes of the list under a key; a list that is left out has none. -/
def listed? (e : List (Text × α)) (key : String) : Option (List α) :=
  entryOr e key DocumentNode.items? []

theorem entryOr_listOf {β : Type} (e : List (Text × α)) (key : String) (read : α → Option β) :
    entryOr e key (listOf read) [] = (listed? e key).bind fun items => items.mapM read := by
  rw [listed?, entryOr, entryOr]
  cases e.lookup key.toList <;> rfl

/-- Whether the document `d'` is the document `d` with a row more about fields, behind the rows
`before` and in front of the rows `after`. -/
def ListsAlso (row : α) (before after : List α) (d d' : α) : Prop :=
  ∃ e e', DocumentNode.entries? keys d = some e ∧ DocumentNode.entries? keys d' = some e' ∧
    (∀ key : String, key ≠ "field_permissions" → e'.lookup key.toList = e.lookup key.toList) ∧
    listed? e "field_permissions" = some (before ++ after) ∧
    listed? e' "field_permissions" = some (before ++ row :: after)

variable {row d d' : α} {first last : List α}

theorem length_of_mapM {β γ : Type} {f : β → Option γ} {xs : List β} {ys : List γ}
    (h : xs.mapM f = some ys) : ys.length = xs.length := by
  induction xs generalizing ys with
  | nil =>
    rw [List.mapM_nil, Option.pure_def, Option.some.injEq] at h
    rw [← h]
    rfl
  | cons x xs ih =>
    simp only [List.mapM_cons, Option.bind_eq_bind, Option.bind_eq_some_iff, Option.pure_def,
      Option.some.injEq] at h
    obtain ⟨y, -, zs, hzs, rfl⟩ := h
    rw [List.length_cons, List.length_cons, ih hzs]

/-- With a row more a document is read as the same store with this row at its place. -/
theorem read?_of_listsAlso (h : ListsAlso row first last d d')
    (hrow : FieldPermission.read? row = some p) :
    (read? d = none ∧ read? d' = none) ∨
      ∃ s before after, read? d = some s ∧ s.fieldPermissions = before ++ after ∧
        before.length = first.length ∧ read? d' = some (s.withRows (before ++ p :: after)) := by
  obtain ⟨e, e', he, he', hother, hlist, hlist'⟩ := h
  have hsame {β : Type} (key : String) (hkey : key ≠ "field_permissions") (read : α → Option β)
      (default : β) : entryOr e' key read default = entryOr e key read default := by
    rw [entryOr, entryOr, hother key hkey]
  rw [read?, read?, he, he']
  simp only [Option.bind_eq_bind, Option.bind_some, hsame "users" (by decide),
    hsame "fields" (by decide), hsame "action_permissions" (by decide),
    hsame "templates" (by decide), entryOr_listOf _ "field_permissions", hlist, hlist',
    List.mapM_append, List.mapM_cons, hrow]
  -- each list in turn: where one cannot be read, neither document can
  rcases entryOr e "users" (listOf User.read?) [] with - | users
  · exact .inl ⟨rfl, rfl⟩
  rcases entryOr e "fields" (listOf Field.read?) [] with - | fields
  · exact .inl ⟨rfl, rfl⟩
  rcases hbefore : first.mapM FieldPermission.read? with - | before
  · exact .inl ⟨rfl, rfl⟩
  rcases last.mapM FieldPermission.read? with - | after
  · exact .inl ⟨rfl, rfl⟩
  rcases entryOr e "action_permissions" (listOf ActionPermission.read?) [] with - | actions
  · exact .inl ⟨rfl, rfl⟩
  rcases entryOr e "templates" (listOf TemplateRow.read?) [] with - | templates
  · exact .inl ⟨rfl, rfl⟩
  exact .inr ⟨_, before, after, rfl, rfl, length_of_mapM hbefore, rfl⟩

/-- **A default row is the same as no row.** The row that carries the defaults of every view may be
declared, and a document may list a row about a field that no row behind it is about for the same role:
what is shown in a view of which the row says nothing stays the same, and so does whether the document
can be read. Without any flag that is so in every view, and the row is the one of the defaults. -/
theorem showsAlike_default_rows :
    (∀ (s : Store) (role entity field : Text) (view : View),
      (s.withFieldPermission (.withDefaults role entity field)).ShowsAlike s view) ∧
    ∀ {row d d' : α} {first last : List α}, ListsAlso row first last d d' →
      (∀ role entity field, FieldPermission.Names row role entity field →
        (∀ view, FieldPermission.LeavesOut row view) →
          FieldPermission.read? row = some (.withDefaults role entity field)) ∧
      ∀ p, FieldPermission.read? row = some p →
        (read? d = none → read? d' = none) ∧
        ∀ s, read? d = some s →
          (∀ q ∈ s.fieldPermissions.drop first.length, q.isFor p.role p.entity p.field = false) →
          ∃ t, read? d' = some t ∧
            ∀ view, FieldPermission.LeavesOut row view → t.ShowsAlike s view := by
  refine ⟨fun s role entity field view => ?_, fun h => ⟨?_, fun p hp => ?_⟩⟩
  · have hrows : s.fieldPermissions = s.fieldPermissions ++ [] := (List.append_nil _).symm
    exact showsAlike_of_accessIn hrows (FieldPermission.accessIn_withDefaults ..) (by simp)
  · exact fun role entity field => FieldPermission.read?_of_names
  · rcases read?_of_listsAlso h hp with ⟨hd, hd'⟩ | ⟨s, before, after, hd, hrows, hlength, hd'⟩
    · rw [hd, hd']
      exact ⟨fun _ => rfl, nofun⟩
    · rw [hd, hd']
      refine ⟨nofun, fun t ht hafter => ?_⟩
      obtain rfl := Option.some.inj ht
      rw [hrows, ← hlength, List.drop_left] at hafter
      exact ⟨_, rfl, fun view hview =>
        showsAlike_of_accessIn hrows (FieldPermission.accessIn_of_read? hp hview) hafter⟩

/-- A row that only says that a clerk does not edit the note of an order may be listed in front of the
others: in the list it is as if it were not there, and in the form it is not. -/
theorem showsAlike_default_rows_clerk :
    let about (field flag : String) : Json :=
      .object [("entity".toList, .string "order".toList), ("field".toList, .string field.toList),
        (flag.toList, .bool false), ("role".toList, .string "clerk".toList)]
    let document (rows : List Json) : Json :=
      .object [("field_permissions".toList, .array rows),
        ("fields".toList, .array [.object [("entity".toList, .string "order".toList),
          ("name".toList, .string "note".toList)]]),
        ("users".toList, .array [.object [("id".toList, .string "u".toList),
          ("role".toList, .string "clerk".toList)]])]
    let total := about "total" "list_visible"
    let note := about "note" "form_edit_editable"
    ListsAlso note [] [total] (document [total]) (document [note, total]) ∧
      ∃ s t, ofJson? (document [total]) = some s ∧ ofJson? (document [note, total]) = some t ∧
        t.ShowsAlike s .list ∧
        s.canEdit "u".toList "order".toList "note".toList .formEdit = true ∧
        t.canEdit "u".toList "order".toList "note".toList .formEdit = false := by
  intro about document total note
  have hlists : ListsAlso note [] [total] (document [total]) (document [note, total]) := by
    refine ⟨_, _, rfl, rfl, fun key hkey => ?_, rfl, rfl⟩
    have hne : (key.toList == "field_permissions".toList) = false := by
      simpa using fun h => hkey (String.toList_inj.1 h)
    simp only [List.lookup_cons, hne]
  have hleft : FieldPermission.LeavesOut note .list := by
    intro e he
    obtain rfl := Option.some.inj he
    decide
  let p : FieldPermission :=
    { role := "clerk".toList, entity := "order".toList, field := "note".toList, formEditEditable := false }
  let s : Store :=
    { users := [{ id := "u".toList, role := "clerk".toList }]
      fields := [{ entity := "order".toList, name := "note".toList }]
      fieldPermissions := [{ role := "clerk".toList, entity := "order".toList, field := "total".toList,
                             listVisible := false }] }
  have hp : FieldPermission.read? note = some p := rfl
  have hs : read? (document [total]) = some s := rfl
  obtain ⟨t, ht, halike⟩ := (showsAlike_default_rows.2 hlists).2 p hp |>.2 s hs (by decide)
  obtain rfl : s.withRows (p :: s.fieldPermissions) = t := Option.some.inj ht
  exact ⟨hlists, s, _, hs, ht, halike .list hleft, by decide +kernel, by decide +kernel⟩

end Store

end MaskedViews
