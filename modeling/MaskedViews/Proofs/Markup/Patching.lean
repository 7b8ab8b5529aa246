import MaskedViews.Markup.Retag
import MaskedViews.Proofs.Markup.Editing
import MaskedViews.Proofs.Template.Patches
import MaskedViews.Proofs.Text.Trimming

/-!
# Changed tags as patches

A tag that gets flags or a class is changed in one place only, and what is there has no part in a
placeholder: the end of the tag, the quote behind a class value, or a class name without quotes.
So no placeholder of a document comes or goes with the change.
-/

namespace MaskedViews

open Token (Parallel Patched Braceless Has parallel_patch parallel_patched_refl)

/-- An assignment whose value can be patched: its quote is of the class, or it stands without quotes
and without braces behind a `=` that is. -/
def Assignment.IsPatchable (p : Char → Bool) (v : Assignment) : Prop :=
  match v.quoting with
  | .quoted quote => p quote = true
  | .bare => p '=' = true ∧ Braceless v.value

namespace StartTag

variable {p : Char → Bool}

/-- What may stand at the end of a tag. -/
def IsEnd (e : Text) : Prop := '>' ∈ e ∧ ∀ c ∈ e, c = '/' ∨ c = '>'

theorem IsEnd.braceless {e : Text} (h : IsEnd e) : Braceless e := by
  intro c hc
  rcases h.2 c hc with rfl | rfl <;> decide

theorem IsEnd.has {e : Text} (h : IsEnd e) (hp : p '>' = true) : Has p e := ⟨'>', h.1, hp⟩

/-- The end of a tag, with the blanks before it, is what its beginning leaves over. -/
theorem exists_eq_splitEnding (s : Text) :
    ∃ b e, Text.Blanks b ∧ IsEnd e ∧ s ++ ['>'] = (splitEnding (s ++ ['>'])).1 ++ (b ++ e) := by
  have hsplit := Text.dropEndWhile_append (· = '>') (s ++ ['>'])
  have hend : IsEnd ((s ++ ['>']).reverse.takeWhile (· = '>')).reverse := by
    refine ⟨by simp, fun c hc => Or.inr ?_⟩
    simpa using List.mem_takeWhile_imp (List.mem_reverse.1 hc)
  rw [splitEnding]
  generalize Text.dropEndWhile (· = '>') (s ++ ['>']) = x at hsplit ⊢
  generalize ((s ++ ['>']).reverse.takeWhile (· = '>')).reverse = g at hsplit hend
  split
  · next hslash =>
    obtain ⟨y, rfl⟩ := List.getLast?_eq_some_iff.1 hslash
    obtain ⟨b, hb, hy⟩ := Text.exists_eq_append_trimEnd y
    refine ⟨b, '/' :: g, hb, ⟨List.mem_cons_of_mem _ hend.1, ?_⟩, ?_⟩
    · intro c hc
      rcases List.mem_cons.1 hc with rfl | hc
      · exact Or.inl rfl
      · exact hend.2 c hc
    · rw [← hsplit, List.dropLast_concat]
      conv => lhs; rw [hy]
      simp
  · obtain ⟨b, hb, hx⟩ := Text.exists_eq_append_trimEnd x
    refine ⟨b, g, hb, hend, ?_⟩
    rw [← hsplit]
    conv => lhs; rw [hx]
    simp

theorem isEnd_splitEnding (s : Text) : IsEnd (splitEnding s).2 := by
  rw [splitEnding]
  split
  · exact ⟨by simp, by simp⟩
  · exact ⟨by simp, by simp⟩

/-- Text without braces at the end of a tag is a patch. -/
theorem parallel_extended (hp : p '>' = true) (t : StartTag) {added : Text} (h : Braceless added) :
    Parallel (Patched p) t.source (t.extended added) := by
  obtain ⟨s, hs⟩ := exists_source_eq t
  obtain ⟨b, e, hb, he, heq⟩ := exists_eq_splitEnding s
  have hend := isEnd_splitEnding t.source
  rw [← hs] at heq
  have := parallel_patch (splitEnding t.source).1 []
    (Token.braceless_append.2 ⟨Token.braceless_of_blanks hb, he.braceless⟩)
    (Token.braceless_append.2 ⟨h, hend.braceless⟩)
    ((he.has hp).append_left b) ((hend.has hp).append_left added)
  rwa [List.append_nil, List.append_nil, ← heq] at this

/-! ### One more class -/

/-- A word is added behind the value that is there. -/
theorem addWord_eq (word value : Text) :
    addWord word value = value ++ if value = [] then word else ' ' :: word := by
  rw [addWord]
  split
  · next h => rw [h, List.nil_append]
  · rfl

/-- A word more in a value is a patch, also without quotes if the value has no braces. -/
theorem parallel_withWord {a : Attribute} {rest word : Text} (ha : a.Fits rest)
    (hword : Braceless word) (hv : ∀ v ∈ a.assigned, v.IsPatchable p) :
    Parallel (Patched p) a.source (withWord word a).source := by
  obtain ⟨lead, written, assigned⟩ := a
  cases assigned with
  | none => exact parallel_patched_refl p _
  | some v =>
    obtain ⟨before, after, q, value⟩ := v
    have hadded : Braceless (if value = [] then word else ' ' :: word) := by
      split
      · exact hword
      · exact Token.braceless_cons.2 ⟨by decide, hword⟩
    have hfits : Assignment.Fits written ⟨before, after, q, value⟩ rest := ha.assigned
    have hpatch := hv _ rfl
    cases q with
    | quoted quote =>
      have hquote : Braceless [quote] := by
        rcases isQuote_iff.1 hfits.value.1 with rfl | rfl <;> decide
      have hhas : Has p [quote] := ⟨quote, by simp, hpatch⟩
      have := parallel_patch (lead ++ (written ++ (before ++ '=' :: (after ++ ([quote] ++ value))))) []
        hquote (Token.braceless_append.2 ⟨hadded, hquote⟩) hhas (hhas.append_left _)
      simpa [Attribute.source, withWord, Assignment.source, Assignment.head, Quoting.mark,
        addWord_eq] using this
    | bare =>
      have hregion : Braceless ('=' :: (after ++ value)) :=
        Token.braceless_cons.2 ⟨by decide,
          Token.braceless_append.2 ⟨Token.braceless_of_isAsciiBlank hfits.after, hpatch.2⟩⟩
      have hhas : Has p ('=' :: (after ++ value)) := ⟨'=', by simp, hpatch.1⟩
      have := parallel_patch (lead ++ (written ++ before)) [] hregion
        (Token.braceless_append.2 ⟨hregion, hadded⟩) hhas (hhas.append_right _)
      simpa [Attribute.source, withWord, Assignment.source, Assignment.head, Quoting.mark,
        addWord_eq] using this

/-- The value of the first class attribute of a tag, if it has one, can be patched. -/
def HasPatchableClass (p : Char → Bool) (t : StartTag) : Prop :=
  ∀ a ∈ t.find? "class".toList, ∀ v ∈ a.assigned, v.IsPatchable p

theorem parallel_addToClasses {attributes : List Attribute} {rest word : Text}
    (h : AttributesFit attributes rest) (hword : Braceless word)
    (hclass : ∀ a ∈ attributes.find? fun a => a.name = "class".toList,
      ∀ v ∈ a.assigned, v.IsPatchable p) :
    Parallel (Patched p) (attributes.flatMap Attribute.source)
      ((addToClasses word attributes).flatMap Attribute.source) := by
  induction attributes with
  | nil => exact parallel_patched_refl p _
  | cons a attributes ih =>
    rw [addToClasses]
    split
    · next hname =>
      have hfind : (a :: attributes).find? (fun a => a.name = "class".toList) = some a := by
        rw [List.find?_cons, decide_eq_true hname]
      rw [List.flatMap_cons, List.flatMap_cons]
      exact (parallel_withWord h.1.2 hword (hclass a hfind)).append Patched.append
        (parallel_patched_refl p _)
    · next hname =>
      rw [List.find?_cons, decide_eq_false hname] at hclass
      rw [List.flatMap_cons, List.flatMap_cons]
      exact (parallel_patched_refl p _).append Patched.append (ih h.2 hclass)

/-- One more class is a patch, if the classes that are there can be patched. -/
theorem parallel_withClass (hp : p '>' = true) {t : StartTag} {className : Text} (ht : t.Legible)
    (hclass : Braceless className) (hpatch : t.HasPatchableClass p) :
    Parallel (Patched p) t.source (t.withClass className) := by
  have hrefl := parallel_patched_refl p
  rw [withClass]
  split
  · exact hrefl _
  split
  · have := parallel_addToClasses ht.attributes hclass hpatch
    rw [source, source]
    exact (hrefl ['<']).append Patched.append ((hrefl t.written).append Patched.append
      (this.append Patched.append (hrefl _)))
  · refine parallel_extended hp t ?_
    exact Token.braceless_append.2 ⟨by decide, Token.braceless_append.2 ⟨hclass, by decide⟩⟩

/-- Flags are a patch. -/
theorem parallel_withFlags (hp : p '>' = true) (t : StartTag) {flags : List Text}
    (h : ∀ flag ∈ flags, Braceless flag) : Parallel (Patched p) t.source (t.withFlags flags) := by
  refine parallel_extended hp t ?_
  intro c hc
  obtain ⟨flag, hflag, hc⟩ := List.mem_flatMap.1 hc
  rcases List.mem_cons.1 hc with rfl | hc
  · decide
  · exact h flag (List.mem_filter.1 hflag).1 c hc

/-- There are braces in the classes of a tag only between quotes. -/
def BareClassBraceless (t : StartTag) : Prop :=
  ∀ v ∈ (t.find? "class".toList).bind Attribute.assigned, v.quoting = .bare → Braceless v.value

instance (t : StartTag) : Decidable t.BareClassBraceless :=
  inferInstanceAs (Decidable (∀ v ∈ (t.find? "class".toList).bind Attribute.assigned,
    v.quoting = .bare → Braceless v.value))

/-- As to placeholders, classes can be patched if they have braces only between quotes. -/
theorem hasPatchableClass_of_bareClassBraceless {t : StartTag} (ht : t.Legible)
    (h : t.BareClassBraceless) : t.HasPatchableClass Token.isForeign := by
  intro a ha v hv
  obtain ⟨-, r, hfits⟩ := fits_of_mem ht.attributes (List.mem_of_find?_eq_some ha)
  have hassigned := hfits.assigned
  rw [hv] at hassigned
  rw [Assignment.IsPatchable]
  cases hq : v.quoting with
  | quoted quote =>
    have hquote := hassigned.value
    rw [hq] at hquote
    show Token.isForeign quote = true
    rcases isQuote_iff.1 hquote.1 with rfl | rfl <;> decide
  | bare => exact ⟨by decide, h v (Option.mem_bind_iff.2 ⟨a, ha, hv⟩) hq⟩

end StartTag

namespace Markup

/-- A document in which every change is a patch is patched. -/
theorem parallel_editElements {p : Char → Bool} {names : List Text} {decide : Visit → Edit}
    {html : Text} (h : ∀ x ∈ edits names decide html, Parallel (Patched p) x.before x.after) :
    Parallel (Patched p) html (editElements names decide html) := by
  rw [editElements]
  conv => arg 2; rw [← before_edits names decide html]
  generalize edits names decide html = xs at h
  induction xs with
  | nil => exact parallel_patched_refl p []
  | cons x xs ih =>
    rw [List.flatMap_cons, List.flatMap_cons]
    exact (h x (by simp)).append Patched.append (ih fun y hy => h y (List.mem_cons_of_mem x hy))

end Markup

end MaskedViews
