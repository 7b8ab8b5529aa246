import MaskedViews.Proofs.Markup.Legible
import Mathlib.Data.List.Forall2

/-!
# Tags with other values

A value in quotes may be exchanged for any other that does not hold the quote: the tag is read as
before, with the same name, the same attributes and the same ending (`legible_refilled`).
-/

namespace MaskedViews

/-- Whether the value of an attribute, if there is one, stands in quotes. -/
def Attribute.HasQuotes (a : Attribute) : Prop := ∀ v ∈ a.assigned, v.quoting ≠ .bare

/-- An attribute, and what it is with another value in its quotes. -/
inductive Attribute.RefilledAs (a : Attribute) : Attribute → Prop
  /-- An attribute without a value stays. -/
  | flag (h : a.assigned = none) : a.RefilledAs a
  /-- The new value does not hold the quote either. -/
  | value {v : Assignment} {quote : Char} {w : Text} (h : a.assigned = some v)
      (hquote : v.quoting = .quoted quote) (hw : quote ∉ w) :
      a.RefilledAs { a with assigned := some { v with value := w } }

namespace StartTag

/-- Whether all values in a tag stand in quotes. -/
def HasQuotes (t : StartTag) : Prop := ∀ a ∈ t.attributes, a.HasQuotes

instance (t : StartTag) : Decidable t.HasQuotes :=
  inferInstanceAs (Decidable (∀ a ∈ t.attributes, ∀ v ∈ a.assigned, v.quoting ≠ .bare))

/-- Whether a tag is written like another as far as its name, the names of its attributes and its
ending go. -/
structure HasShapeOf (t u : StartTag) : Prop where
  /-- It has the same name. -/
  name : t.name = u.name
  /-- Its attributes have the same names, in the same order. -/
  attributes : t.attributes.map Attribute.name = u.attributes.map Attribute.name
  /-- It closes itself if the other does. -/
  selfClosing : t.selfClosing = u.selfClosing

variable {a b : Attribute} {rest : Text}

theorem name_of_refilledAs (h : a.RefilledAs b) : b.name = a.name := by
  cases h <;> rfl

theorem map_name_of_refilledAs {attributes refilled : List Attribute}
    (h : List.Forall₂ Attribute.RefilledAs attributes refilled) :
    refilled.map Attribute.name = attributes.map Attribute.name := by
  induction h with
  | nil => rfl
  | cons hab _ ih => rw [List.map_cons, List.map_cons, name_of_refilledAs hab, ih]

/-- A new value does not change how what stands before it is read. -/
theorem sameStart_refilled (h : a.RefilledAs b) {x y : Text} (hxy : SameStart x y) :
    SameStart (a.source ++ x) (b.source ++ y) := by
  cases h with
  | flag => exact hxy.append a.source
  | @value v quote w hv hquote hw =>
    have hsource (value z : Text) :
        (Attribute.source { a with assigned := some { v with value := value } }) ++ z =
          (a.lead ++ (a.written ++ v.head)) ++ (value ++ (v.quoting.mark ++ z)) := by
      simp [Attribute.source, Assignment.source, Assignment.head]
    have ha : a = { a with assigned := some { v with value := v.value } } := by
      obtain ⟨lead, written, assigned⟩ := a
      simp only at hv
      rw [hv]
    rw [ha, hsource, hsource]
    exact sameStart_append ⟨'=', by simp [Assignment.head], by decide⟩ _ _

/-- An attribute with another value is read where the attribute was. -/
theorem fits_refilled (h : a.RefilledAs b) (ha : a.Fits rest) : b.Fits rest := by
  cases h with
  | flag => exact ha
  | @value v quote w hv hquote hw =>
    obtain ⟨lead, written, assigned⟩ := a
    obtain ⟨hwritten, hassigned⟩ := ha
    simp only at hv
    subst hv
    obtain ⟨hbefore, hnil, hafter, hvalue⟩ := hassigned
    rw [hquote] at hvalue
    refine ⟨hwritten, hbefore, hnil, hafter, ?_⟩
    show Quoting.Fits w rest v.quoting
    rw [hquote]
    exact ⟨hvalue.1, hw⟩

theorem attributesFit_refilled {attributes refilled : List Attribute}
    (h : List.Forall₂ Attribute.RefilledAs attributes refilled)
    (hfits : AttributesFit attributes rest) :
    AttributesFit refilled rest ∧ SameStart (attributes.flatMap Attribute.source ++ rest)
      (refilled.flatMap Attribute.source ++ rest) := by
  induction h with
  | nil => exact ⟨trivial, SameStart.refl rest⟩
  | @cons a b attributes refilled hab _ ih =>
    obtain ⟨⟨hlead, ha⟩, hfits⟩ := hfits
    obtain ⟨ihfits, ihstart⟩ := ih hfits
    have hleadb : IsLead b.lead := by
      cases hab <;> exact hlead
    refine ⟨⟨⟨hleadb, fits_refilled hab ((fits_congr ihstart).1 ha)⟩, ihfits⟩, ?_⟩
    rw [List.flatMap_cons, List.flatMap_cons, List.append_assoc, List.append_assoc]
    exact sameStart_refilled hab ihstart

/-- **A tag with other values is read as before**, and has the same shape. -/
theorem legible_refilled {t : StartTag} (ht : t.Legible) {refilled : List Attribute}
    (h : List.Forall₂ Attribute.RefilledAs t.attributes refilled) :
    Legible { t with attributes := refilled } ∧ HasShapeOf { t with attributes := refilled } t := by
  obtain ⟨hfits, hstart⟩ := attributesFit_refilled h ht.attributes
  have hends := (hstart.heads endsName_of_isAsciiBlank).1 ht.endsName
  exact ⟨⟨ht.letter, ht.written, hends, hfits, ht.trail⟩, rfl, map_name_of_refilledAs h, rfl⟩

end StartTag

end MaskedViews
