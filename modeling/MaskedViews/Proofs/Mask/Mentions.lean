import MaskedViews.Mask.References

/-!
# Fields that markup mentions

Markup mentions a field by a placeholder, by the marker of an element or by the name of a form
control. The fields that it refers to are listed without repetition, those of the placeholders
first. Each of them is mentioned, but not every field that is mentioned is listed: a tag stands for
one field, and its marker is asked before its name. So the name of a control that has a marker too
counts only if it is mentioned in another way as well (`referencedFields_iff_mentions_iff`).
-/

namespace MaskedViews

/-! ### Lists without repetition -/

section Repetition

variable {α : Type} [BEq α] [LawfulBEq α]

theorem nodup_eraseDups (xs : List α) : xs.eraseDups.Nodup := by
  induction hn : xs.length using Nat.strongRecOn generalizing xs with
  | ind n ih =>
    cases xs with
    | nil => simp
    | cons x xs =>
      rw [List.eraseDups_cons, List.nodup_cons]
      refine ⟨by simp [List.mem_eraseDups], ih _ ?_ _ rfl⟩
      have := List.length_filter_le (fun y => !y == x) xs
      rw [← hn, List.length_cons]
      omega

theorem eraseDups_eq_self {xs : List α} (h : xs.Nodup) : xs.eraseDups = xs := by
  induction xs with
  | nil => rfl
  | cons x xs ih =>
    obtain ⟨hx, hxs⟩ := List.nodup_cons.1 h
    have hfilter : xs.filter (fun y => !y == x) = xs := by
      refine List.filter_eq_self.2 fun y hy => ?_
      have hne : y ≠ x := fun e => hx (e ▸ hy)
      simpa using hne
    rw [List.eraseDups_cons, hfilter, ih hxs]

end Repetition

/-! ### What a tag stands for -/

namespace StartTag

/-- A tag stands for the field of its marker, or for its name if it has no marker. -/
theorem reference?_eq_some_iff {t : StartTag} {field : Text} :
    t.reference? = some field ↔
      t.markedField? = some field ∨ t.markedField? = none ∧ t.controlName? = some field := by
  rw [reference?, Option.or_eq_some_iff]

end StartTag

namespace Markup

/-- A field that markup mentions: by a placeholder, by the marker of an element or by the name of a
form control. -/
def Mentions (markup field : Text) : Prop :=
  field ∈ (Template.parse markup).placeholders ∨
    field ≠ [] ∧ ∃ t ∈ startTags markup, t.markedField? = some field ∨ t.controlName? = some field

/-- A field that is mentioned in another way than by the name of a control with a marker. -/
def MentionsApart (markup field : Text) : Prop :=
  field ∈ (Template.parse markup).placeholders ∨
    field ≠ [] ∧ ∃ t ∈ startTags markup,
      t.markedField? = some field ∨ t.markedField? = none ∧ t.controlName? = some field

variable {markup field : Text}

theorem MentionsApart.mentions (h : MentionsApart markup field) : Mentions markup field := by
  rcases h with h | ⟨hne, t, ht, hmarked | ⟨-, hname⟩⟩
  · exact .inl h
  · exact .inr ⟨hne, t, ht, .inl hmarked⟩
  · exact .inr ⟨hne, t, ht, .inr hname⟩

/-- What is mentioned by the name of a control with a marker is all that may be missing. -/
theorem Mentions.apart_or (h : Mentions markup field) : MentionsApart markup field ∨
    field ≠ [] ∧ ∃ t ∈ startTags markup, t.markedField? ≠ none ∧ t.controlName? = some field := by
  rcases h with h | ⟨hne, t, ht, hmarked | hname⟩
  · exact .inl (.inl h)
  · exact .inl (.inr ⟨hne, t, ht, .inl hmarked⟩)
  · by_cases hnone : t.markedField? = none
    · exact .inl (.inr ⟨hne, t, ht, .inr ⟨hnone, hname⟩⟩)
    · exact .inr ⟨hne, t, ht, hnone, hname⟩

theorem mem_tagReferences : field ∈ tagReferences markup ↔
    field ≠ [] ∧ ∃ t ∈ startTags markup,
      t.markedField? = some field ∨ t.markedField? = none ∧ t.controlName? = some field := by
  simp only [tagReferences, List.mem_filter, List.mem_filterMap, StartTag.reference?_eq_some_iff,
    decide_eq_true_eq, and_comm]

theorem mem_referencedFields_iff : field ∈ referencedFields markup ↔ MentionsApart markup field := by
  rw [mem_referencedFields, mem_tagReferences, MentionsApart]

theorem nodup_referencedFields (markup : Text) : (referencedFields markup).Nodup :=
  nodup_eraseDups _

/-- The fields of the placeholders come first. -/
theorem placeholders_prefix_referencedFields (markup : Text) :
    (Template.parse markup).placeholders <+: referencedFields markup := by
  have hnodup : (Template.parse markup).placeholders.Nodup := nodup_eraseDups _
  rw [referencedFields, List.eraseDups_append, eraseDups_eq_self hnodup]
  exact List.prefix_append _ _

/-- **When markup refers to all that it mentions.** The fields that it refers to are listed once,
those of the placeholders first, and are those that are mentioned in another way than by the name of
a control with a marker. So they are all that are mentioned just when every such name is mentioned
in another way too. -/
theorem referencedFields_iff_mentions_iff (markup : Text) :
    (referencedFields markup).Nodup ∧
      (Template.parse markup).placeholders <+: referencedFields markup ∧
      (∀ field, field ∈ referencedFields markup ↔ MentionsApart markup field) ∧
      ((∀ field, field ∈ referencedFields markup ↔ Mentions markup field) ↔
        ∀ t ∈ startTags markup, t.markedField? ≠ none → ∀ name, t.controlName? = some name →
          name ≠ [] → MentionsApart markup name) := by
  refine ⟨nodup_referencedFields markup, placeholders_prefix_referencedFields markup,
    fun _ => mem_referencedFields_iff, ?_⟩
  simp only [mem_referencedFields_iff]
  constructor
  · intro h t ht _ name hname hne
    exact (h name).2 (.inr ⟨hne, t, ht, .inr hname⟩)
  · intro h field
    refine ⟨MentionsApart.mentions, fun hmentions => ?_⟩
    rcases hmentions.apart_or with hapart | ⟨hne, t, ht, hmarked, hname⟩
    · exact hapart
    · exact h t ht hmarked field hname hne

/-- The name of an input that is marked as another field is mentioned and not referred to. -/
theorem not_mem_referencedFields_of_marked :
    let markup : Text := "<input data-field=\"a\" name=\"b\">".toList
    Mentions markup "b".toList ∧ "b".toList ∉ referencedFields markup := by
  unfold Mentions
  decide +kernel

end Markup

end MaskedViews
