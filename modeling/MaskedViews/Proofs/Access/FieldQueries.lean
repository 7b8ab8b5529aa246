import MaskedViews.Proofs.Store.Declarations

/-!
# Questions about fields

What a user may do with a field can be asked in three ways: about one field, as the list of the fields
that can be seen or edited, and by the snapshot that a page is masked by, which answers for paths. All
three go by the access that is worked out for a name, so it does not matter how often an entity has a
field of that name: the answers are the same (`queries_agree`).
-/

namespace MaskedViews.Store

variable {s : Store} {user entity field : Text} {view : View}

/-! ### The access to one field -/

theorem find?_access_of_not_hasField (h : ¬ s.HasField entity field) :
    (s.access user entity view).find? (fun a => a.field = field) = none := by
  refine List.find?_eq_none.2 fun a ha hname => h ?_
  have hname : a.field = field := by simpa using hname
  exact hname ▸ (mem_access_iff.1 ha).1

/-- What is asked about one field is asked of the access to it, if there is such a field. -/
theorem any_find?_access_iff (flag : FieldAccess → Bool) :
    ((s.access user entity view).find? fun a => a.field = field).any flag = true ↔
      s.HasField entity field ∧ flag (s.accessTo user entity field view) = true := by
  by_cases hfield : s.HasField entity field
  · rw [find?_access hfield, Option.any_some, and_iff_right hfield]
  · rw [find?_access_of_not_hasField hfield, Option.any_none]
    simp [hfield]

/-- A field is listed if it is there and the access to it has the flag. -/
theorem mem_map_filter_access_iff (flag : FieldAccess → Bool) :
    field ∈ ((s.access user entity view).filter flag).map FieldAccess.field ↔
      s.HasField entity field ∧ flag (s.accessTo user entity field view) = true := by
  simp only [List.mem_map, List.mem_filter, mem_access_iff]
  constructor
  · rintro ⟨a, ⟨⟨hfield, ha⟩, hflag⟩, rfl⟩
    exact ⟨hfield, ha ▸ hflag⟩
  · rintro ⟨hfield, hflag⟩
    exact ⟨s.accessTo user entity field view, ⟨⟨hfield, rfl⟩, hflag⟩, rfl⟩

theorem mem_map_access_iff :
    field ∈ (s.access user entity view).map FieldAccess.field ↔ s.HasField entity field := by
  have h : field ∈ ((s.access user entity view).filter fun _ => true).map FieldAccess.field ↔ _ :=
    mem_map_filter_access_iff fun _ => true
  simpa using h

theorem canSee_iff_mem_visibleFields :
    s.canSee user entity field view = true ↔ field ∈ s.visibleFields user entity view := by
  rw [canSee, visibleFields, any_find?_access_iff, mem_map_filter_access_iff]

theorem canEdit_iff_mem_editableFields :
    s.canEdit user entity field view = true ↔ field ∈ s.editableFields user entity view := by
  rw [canEdit, editableFields, any_find?_access_iff, mem_map_filter_access_iff]

/-! ### The snapshot -/

theorem isVisible_snapshot_iff {path : Text} :
    (s.snapshot user entity view).isVisible path = true ↔
      s.canSee user entity path view = true ∨ s.canSee user entity (fieldRoot path) view = true := by
  rw [Snapshot.isVisible, Names.covers_iff, canSee_iff_mem_visibleFields,
    canSee_iff_mem_visibleFields, snapshot, Snapshot.ofAccess, Names.mem_ofList, Names.mem_ofList]
  rfl

theorem isEditable_snapshot_iff {path : Text} :
    (s.snapshot user entity view).isEditable path = true ↔
      s.canEdit user entity path view = true ∨ s.canEdit user entity (fieldRoot path) view = true := by
  rw [Snapshot.isEditable, Names.covers_iff, canEdit_iff_mem_editableFields,
    canEdit_iff_mem_editableFields, snapshot, Snapshot.ofAccess, Names.mem_ofList, Names.mem_ofList]
  rfl

theorem governs_snapshot_iff {path : Text} :
    (s.snapshot user entity view).governs path = true ↔
      s.HasField entity path ∨ s.HasField entity (fieldRoot path) := by
  rw [snapshot, Snapshot.ofAccess, Snapshot.governs, Names.covers_iff, Names.mem_ofList,
    Names.mem_ofList, mem_map_access_iff, mem_map_access_iff]

/-! ### The form that shows a record -/

theorem editableFields_of_isReadOnly (h : view.isReadOnly = true) :
    s.editableFields user entity view = [] := by
  refine List.eq_nil_iff_forall_not_mem.2 fun field hfield => ?_
  have hedit := ((mem_map_filter_access_iff FieldAccess.editable).1 hfield).2
  simp [accessTo, h] at hedit

/-- **All ways of asking agree.** A path is visible or editable in the snapshot if it can be seen or
edited as a field, or if the field that it begins with can; the snapshot decides about it if one of the
two is a field of the entity; one field can be seen or edited if it is listed; and in the form that
shows a record nothing can be edited, whatever is stored. -/
theorem queries_agree (s : Store) (user entity path : Text) (view : View) :
    ((s.snapshot user entity view).isVisible path = true ↔
      s.canSee user entity path view = true ∨ s.canSee user entity (fieldRoot path) view = true) ∧
    ((s.snapshot user entity view).isEditable path = true ↔
      s.canEdit user entity path view = true ∨ s.canEdit user entity (fieldRoot path) view = true) ∧
    ((s.snapshot user entity view).governs path = true ↔
      s.HasField entity path ∨ s.HasField entity (fieldRoot path)) ∧
    (s.canSee user entity path view = true ↔ path ∈ s.visibleFields user entity view) ∧
    (s.canEdit user entity path view = true ↔ path ∈ s.editableFields user entity view) ∧
    s.editableFields user entity .formView = [] ∧
    s.canEdit user entity path .formView = false ∧
    (s.snapshot user entity .formView).isEditable path = false := by
  have hnone : s.editableFields user entity .formView = [] := editableFields_of_isReadOnly rfl
  have hedit (field : Text) : ¬ s.canEdit user entity field .formView = true := by
    rw [canEdit_iff_mem_editableFields, hnone]
    exact List.not_mem_nil
  have hsnapshot : ¬ (s.snapshot user entity .formView).isEditable path = true := by
    rw [isEditable_snapshot_iff]
    exact not_or.2 ⟨hedit path, hedit _⟩
  exact ⟨isVisible_snapshot_iff, isEditable_snapshot_iff, governs_snapshot_iff,
    canSee_iff_mem_visibleFields, canEdit_iff_mem_editableFields, hnone,
    Bool.eq_false_iff.2 (hedit path), Bool.eq_false_iff.2 hsnapshot⟩

end MaskedViews.Store
