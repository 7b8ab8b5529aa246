import MaskedViews.Page
import MaskedViews.Proofs.Mask.Regular
import MaskedViews.Proofs.Template.Agreement

/-!
# Hidden values do not show

A page of a regular template shows nothing of the values under hidden keys, as long as no block of
the template opens by one: two records that differ in such values only give the same page
(`renderTemplate_eq_of_agree`). The placeholders of hidden fields are gone when the template is
rendered, and what the other tags read lies under keys that the two records agree on.
-/

namespace MaskedViews

open Markup (settle)

/-! ### Keys -/

@[simp] theorem fieldRoot_fieldRoot (path : Text) : fieldRoot (fieldRoot path) = fieldRoot path := by
  refine fieldRoot_of_not_mem fun hmem => ?_
  simpa using List.mem_takeWhile_imp hmem

namespace Snapshot

/-- Whether a snapshot hides all that lies under a key. -/
def Hides (s : Snapshot) (key : Text) : Prop :=
  s.governs key = true ∧ ∀ path, fieldRoot path = key → s.isVisible path = false

/-- A snapshot decides about a path if it decides about its first key. -/
theorem governs_of_fieldRoot {s : Snapshot} {path : Text} (h : s.governs (fieldRoot path) = true) :
    s.governs path = true := by
  rw [governs] at h ⊢
  cases hd : s.defined with
  | none => rfl
  | some defined =>
    rw [hd] at h
    refine Names.covers_iff.2 (Or.inr ?_)
    rcases Names.covers_iff.1 h with h | h
    · exact h
    · rwa [fieldRoot_fieldRoot] at h

/-- A placeholder under a hidden key is planned to go. -/
theorem mem_hidden_of_hides {s : Snapshot} {markup path : Text}
    (hpath : path ∈ (Template.parse markup).placeholders) (h : s.Hides (fieldRoot path)) :
    path ∈ (Mask.plan markup s).hidden :=
  Mask.mem_hidden_plan.2 ⟨Markup.mem_referencedFields.2 (Or.inl hpath),
    governs_of_fieldRoot h.1, h.2 path rfl⟩

end Snapshot

/-! ### Blocks -/

/-- Whether a tag, if it opens a block, reads only paths of some kind to do so. -/
def Mark.OpensBy (P : Text → Prop) : Mark → Prop
  | .eachOpen name => P name
  | .condOpen expr => ∀ path ∈ (Condition.parse expr).path?, P path
  | _ => True

/-- The expression of a condition comes from the content of its tag. -/
theorem Token.mem_of_condOpen {t : Token} {expr : Text} (h : t.mark = .condOpen expr) {c : Char}
    (hc : c ∈ expr) : ∃ content, t = .tag content ∧ c ∈ content := by
  obtain ⟨content, rfl⟩ := Token.exists_tag_of_mark (t := t) (by simp [h]) (by simp [h])
  replace h : Token.markOfContent (Text.trim content) = .condOpen expr := h
  obtain ⟨b, w, hcontent, -, hm⟩ | ⟨-, hm⟩ | ⟨_, -, -, hm⟩ | ⟨_, -, -, hm⟩ | ⟨-, hm⟩ | hm :=
    Token.markOfContent_cases (Text.trim content) <;> rw [hm] at h <;> cases h
  refine ⟨content, rfl, Text.mem_of_mem_trim ?_⟩
  rw [hcontent]
  exact List.mem_append_right _ (Text.mem_of_mem_trim hc)

/-- A tag that is left of a regular template reads what it read before. -/
theorem Token.reads_settled {P : Text → Prop} {t : Token} (ht : t.Clean)
    (h : t.mark.OpensBy P) (hpath : ∀ path, t.path? = some path → P path) :
    t.settled.mark.Reads P := by
  rw [Token.mark_settled]
  cases hmark : t.mark with
  | text => trivial
  | placeholder path raw => exact hpath path (by rw [Token.path?, hmark])
  | condOpen expr =>
    rw [hmark] at h
    have hlt : '<' ∉ expr := by
      intro hmem
      obtain ⟨content, rfl, hmem⟩ := Token.mem_of_condOpen hmark hmem
      exact absurd (ht '<' hmem).2 (by decide)
    show ∀ path ∈ (Condition.parse (settle expr)).path?, P path
    rw [Condition.path?_parse_settle hlt]
    exact h
  | condClose => trivial
  | eachOpen name =>
    rw [hmark] at h
    exact h
  | eachClose name => trivial

/-! ### Two records -/

/-- **Hidden values do not show**: a regular template, none of whose blocks opens by a hidden key,
gives the same page for two records that have the same values under all keys that are not hidden. -/
theorem renderTemplate_eq_of_agree {store : Store} {template user entity : Text} {view : View}
    {v w : Json} (hregular : Markup.IsRegular template)
    (hblocks : ∀ t ∈ Token.tags template,
      t.mark.OpensBy fun path => ¬ (store.snapshot user entity view).Hides (fieldRoot path))
    (hagree : ∀ key, ¬ (store.snapshot user entity view).Hides key → v.member? key = w.member? key) :
    store.renderTemplate template user entity view v =
      store.renderTemplate template user entity view w := by
  rw [Store.renderTemplate, Store.renderTemplate]
  generalize store.snapshot user entity view = s at *
  refine render_eq_of_agree (P := fun path => ¬ s.Hides (fieldRoot path)) ?_
    fun path hpath => Json.lookup_eq_of_member? (hagree _ hpath)
  intro u hu
  cases htag : u.isTag with
  | false =>
    cases u with
    | text s => trivial
    | tag content => cases htag
    | rawTag content => cases htag
  | true =>
    obtain ⟨ps, hps, rfl⟩ := hregular
    obtain ⟨t, ht, rfl, hclean, hkept⟩ := Mask.exists_of_mem_tags_apply _ _ hps
      (List.mem_filter.2 ⟨hu, htag⟩)
    refine Token.reads_settled hclean (hblocks t ht) fun path hpath hhides => ?_
    -- a placeholder under a hidden key would have been stripped
    have hmem := Snapshot.mem_hidden_of_hides (Template.mem_placeholders_parse.2 ⟨t, ht, hpath⟩) hhides
    rw [Token.isStripped_eq, hpath, Option.any_some, Names.contains_eq_true_iff.2 hmem] at hkept
    cases hkept

/-- A list with a salary that the role of a user does not see. -/
theorem renderTemplate_eq_of_other_salary :
    let store : Store :=
      { users := [{ id := "u".toList, role := "clerk".toList }]
        fields := [{ entity := "e".toList, name := "salary".toList }]
        fieldPermissions := [{ role := "clerk".toList, entity := "e".toList,
                               field := "salary".toList, listVisible := false }] }
    let template := "<p title=\"".toList ++ (Token.tag "name".toList).source ++ "\">".toList ++
      (Token.tag "salary".toList).source ++ "</p>".toList
    let record (salary : Text) : Json :=
      .object [("name".toList, .string "Ann".toList), ("salary".toList, .string salary)]
    store.renderTemplate template "u".toList "e".toList .list (record "1".toList) =
      store.renderTemplate template "u".toList "e".toList .list (record "2".toList) := by
  intro store template record
  have hsnapshot : store.snapshot "u".toList "e".toList .list =
      ⟨Names.empty, Names.empty, some (Names.ofList ["salary".toList])⟩ := by
    have hfields : store.fieldsOf "e".toList = store.fields := by simp [store, Store.fieldsOf]
    rw [Store.snapshot, Store.access, hfields]
    decide +kernel
  have hhides : (store.snapshot "u".toList "e".toList .list).Hides "salary".toList := by
    rw [hsnapshot]
    exact ⟨by decide +kernel, fun path _ => by simp [Snapshot.isVisible, Names.covers, Names.contains]⟩
  have hregular : Markup.IsRegular template := by
    let tag : StartTag := ⟨"p".toList, [⟨" ".toList, "title".toList,
      some ⟨[], [], .quoted '"', (Token.tag "name".toList).source⟩⟩], [], false⟩
    have hlegible : tag.Legible :=
      StartTag.legible_of_read? (s := tag.source) (r := []) (by decide +kernel)
    have hwoven {content : Text}
        (h : ∀ c ∈ content, Token.isBrace c = false ∧ Token.isBarrier c = false) :
        Token.Woven (Token.tag content).source := by
      simpa using Token.Woven.tag (t := .tag content) h .nil
    refine ⟨[.startTag tag, .text (Token.tag "salary".toList).source, .endTag "p".toList], ?_,
      by decide +kernel⟩
    intro p hp
    simp only [List.mem_cons, List.not_mem_nil, or_false] at hp
    rcases hp with rfl | rfl | rfl
    · refine ⟨hlegible, fun a ha => ?_⟩
      rw [List.mem_singleton.1 ha]
      refine ⟨by decide, fun v hv => ?_, fun v hv => ?_⟩
      · rw [← Option.some.inj hv]
      · rw [← Option.some.inj hv]
        exact hwoven (by decide)
    · exact ⟨by decide, hwoven (by decide)⟩
    · exact ⟨⟨by decide, by decide⟩, by decide⟩
  have htags : Token.tags template = [.tag "name".toList, .tag "salary".toList] := by
    decide +kernel
  refine renderTemplate_eq_of_agree hregular (fun t ht => ?_) fun key hkey => ?_
  · rw [htags] at ht
    simp only [List.mem_cons, List.not_mem_nil, or_false] at ht
    rcases ht with rfl | rfl
    · trivial
    · trivial
  · have hne : "salary".toList ≠ key := by
      rintro rfl
      exact hkey hhides
    simp only [record, Json.member?, Json.find?_cons, if_neg hne]

end MaskedViews
