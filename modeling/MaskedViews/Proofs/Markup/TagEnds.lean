import MaskedViews.Proofs.Markup.Elements
import MaskedViews.Proofs.Markup.Flags
import Mathlib.Data.List.Induction

/-!
# The last attribute of a tag

More is written into a tag behind its last attribute, with the blanks taken out that stand there, and
what is a blank then need not be one to the reader of tags. Such blanks are counted here: the reader
finds them in names and values only (`oddBlanks_source`), so a tag that is read with the same names and
values as before has lost none.

What stands in front of an attribute is read as it was, if the attribute keeps its lead and its name,
whatever becomes of its value (`fits_replaced`).
-/

namespace MaskedViews

namespace Text

/-- A text that does not end in a blank. -/
def EndsFirm (s : Text) : Prop := ∀ c ∈ s.getLast?, isBlank c = false

instance : DecidablePred EndsFirm := fun s => Option.decidableForallMem s.getLast?

/-- What the last character of a text is is decided from it, not from all characters there are. -/
instance (priority := high) decidableExistsMem (p : Char → Prop) [DecidablePred p] (c : Option Char) :
    Decidable (∃ d ∈ c, p d) :=
  Option.decidableExistsMem c

theorem trimEnd_eq_self_iff {s : Text} : trimEnd s = s ↔ EndsFirm s := by
  constructor
  · intro h c hc
    rcases trimEnd_eq_nil_or s with hnil | ⟨t, d, hd, ht⟩
    · rw [← h, hnil] at hc
      cases hc
    · rw [← h, ht, List.getLast?_concat, Option.mem_some_iff] at hc
      rwa [← hc]
  · intro h
    rcases List.eq_nil_or_concat s with rfl | ⟨t, d, hd⟩
    · rfl
    · rw [List.concat_eq_append] at hd
      rw [hd, trimEnd_of_last t (h d (by simp [hd]))]

theorem endsFirm_concat {s : Text} {c : Char} : EndsFirm (s ++ [c]) ↔ isBlank c = false := by
  simp [EndsFirm]

theorem endsFirm_append {s t : Text} (ht : t ≠ []) : EndsFirm (s ++ t) ↔ EndsFirm t := by
  rw [EndsFirm, EndsFirm, List.getLast?_append_of_ne_nil s ht]

/-- A blank that is none to the reader of tags. -/
def isOddBlank (c : Char) : Bool := isBlank c && !isAsciiBlank c

/-- The number of blanks that are none to the reader of tags. -/
def oddBlanks (s : Text) : Nat := s.countP isOddBlank

@[simp] theorem oddBlanks_nil : oddBlanks [] = 0 := rfl

@[simp] theorem oddBlanks_append (s t : Text) : oddBlanks (s ++ t) = oddBlanks s + oddBlanks t :=
  List.countP_append

@[simp] theorem oddBlanks_cons (c : Char) (s : Text) :
    oddBlanks (c :: s) = oddBlanks s + if isOddBlank c then 1 else 0 :=
  List.countP_cons

theorem oddBlanks_eq_zero {s : Text} (h : ∀ c ∈ s, isOddBlank c = false) : oddBlanks s = 0 :=
  List.countP_eq_zero.2 fun c hc => by simp [h c hc]

theorem isOddBlank_of_isAsciiBlank {c : Char} (h : isAsciiBlank c = true) : isOddBlank c = false := by
  simp [isOddBlank, h]

theorem isOddBlank_of_not_isBlank {c : Char} (h : isBlank c = false) : isOddBlank c = false := by
  simp [isOddBlank, h]

theorem isOddBlank_toLower (c : Char) : isOddBlank c.toLower = isOddBlank c := by
  by_cases hc : c.isUpper = true
  · have hcodes : ∀ n ∈ blankCodes, n < 65 ∨ 122 < n := by decide
    have hletter {d : Char} (hfrom : 65 ≤ d.toNat) (hto : d.toNat ≤ 122) : isOddBlank d = false := by
      refine isOddBlank_of_not_isBlank ?_
      rw [← Bool.not_eq_true]
      intro hblank
      have := hcodes d.toNat (toNat_mem_blankCodes hblank)
      omega
    have hfrom : 65 ≤ c.toNat := UInt32.le_iff_toNat_le.1 (Markup.isUpper_iff.1 hc).1
    have hto : c.toNat ≤ 90 := UInt32.le_iff_toNat_le.1 (Markup.isUpper_iff.1 hc).2
    have hlower : c.toLower.toNat = c.toNat + 32 := by
      rw [Char.toNat, Markup.val_toLower hc, UInt32.toNat_add]
      exact Nat.mod_eq_of_lt (show c.toNat + 32 < 2 ^ 32 by omega)
    rw [hletter hfrom (by omega), hletter (by omega) (by omega)]
  · rw [Markup.toLower_of_not_isUpper hc]

theorem oddBlanks_lower (s : Text) : oddBlanks (lower s) = oddBlanks s := by
  induction s with
  | nil => rfl
  | cons c s ih =>
    rw [lower, List.map_cons, oddBlanks_cons, oddBlanks_cons, isOddBlank_toLower, ← ih, lower]

/-- Where an odd blank is trimmed there is one less. -/
theorem oddBlanks_trimEnd_lt {s b : Text} {c : Char} (hc : isOddBlank c = true) (hb : Blanks b) :
    oddBlanks (trimEnd (s ++ c :: b)) < oddBlanks (s ++ c :: b) := by
  have hblank : isBlank c = true := by
    rw [isOddBlank, Bool.and_eq_true] at hc
    exact hc.1
  have htrim : trimEnd (s ++ c :: b) = trimEnd s := by
    refine trimEnd_append_blanks s fun d hd => ?_
    rcases List.mem_cons.1 hd with rfl | hd
    · exact hblank
    · exact hb d hd
  obtain ⟨x, -, hx⟩ := exists_eq_append_trimEnd s
  have hle := congrArg oddBlanks hx
  rw [oddBlanks_append] at hle
  rw [htrim, oddBlanks_append, oddBlanks_cons, if_pos hc]
  omega

end Text

/-! ### What is read of attributes -/

namespace Attribute

/-- What is read of an attribute: its name and its value. -/
def reading (a : Attribute) : Text × Option Text := (a.name, a.value)

/-- The name of an attribute with its value behind it. -/
def letters (r : Text × Option Text) : Text := r.1 ++ r.2.getD []

/-- The text of an attribute up to its last part, without the lead. -/
def stem (a : Attribute) : Text := (a.assigned.map fun v => a.written ++ v.head).getD []

/-- The last part of an attribute: its name, or its value with the mark behind it. -/
def tail (a : Attribute) : Text := (a.assigned.map fun v => v.value ++ v.quoting.mark).getD a.written

theorem body_eq_stem_append_tail (a : Attribute) : a.body = a.stem ++ a.tail := by
  obtain ⟨lead, written, assigned⟩ := a
  cases assigned with
  | none => simp [body, stem, tail]
  | some v => simp [body, stem, tail, Assignment.source]

/-- What the last part of an attribute ends in. It is a slash only in a value without quotes. -/
theorem getLast?_tail_of_fits {a : Attribute} {rest : Text} (h : a.Fits rest) {c : Char}
    (hc : a.tail.getLast? = some c) :
    Text.isAsciiBlank c = false ∧
      (c = '/' → ∃ v, a.assigned = some v ∧ v.quoting = .bare ∧ v.value.getLast? = some '/') := by
  obtain ⟨lead, written, assigned⟩ := a
  cases assigned with
  | none =>
    have hmem : c ∈ written := List.mem_of_getLast? hc
    obtain ⟨hblank, -, -, hslash⟩ := StartTag.isAttributeChar_iff.1 (h.written c hmem)
    exact ⟨hblank, fun he => absurd he hslash⟩
  | some v =>
    obtain ⟨before, after, q, value⟩ := v
    have hv : Assignment.Fits written ⟨before, after, q, value⟩ rest := h.assigned
    cases q with
    | quoted quote =>
      have he : quote = c := by simpa [tail, Quoting.mark] using hc
      subst he
      rcases StartTag.isQuote_iff.1 hv.value.1 with rfl | rfl
      · exact ⟨by decide, fun h => absurd h (by decide)⟩
      · exact ⟨by decide, fun h => absurd h (by decide)⟩
    | bare =>
      have hlast : value.getLast? = some c := by simpa [tail, Quoting.mark] using hc
      have hbare := hv.value.1 c (List.mem_of_getLast? hlast)
      refine ⟨?_, fun he => ⟨_, rfl, rfl, he ▸ hlast⟩⟩
      simp only [StartTag.isBareChar, Bool.and_eq_true, Bool.not_eq_true', decide_eq_true_eq] at hbare
      exact hbare.1

theorem Fits.assignment {a : Attribute} {rest : Text} (h : a.Fits rest) {v : Assignment}
    (hv : a.assigned = some v) : v.Fits a.written rest := by
  have hassigned := h.assigned
  rwa [hv] at hassigned

theorem Fits.value_of_bare {a : Attribute} {rest : Text} (h : a.Fits rest) {v : Assignment}
    (hv : a.assigned = some v) (hbare : v.quoting = .bare) : Quoting.Fits v.value rest .bare := by
  have hvalue := (h.assignment hv).value
  rwa [hbare] at hvalue

/-- An attribute with an empty last part ends in `=`, but for blanks. -/
theorem exists_of_tail_eq_nil {a : Attribute} {rest : Text} (h : a.Fits rest) (hnil : a.tail = []) :
    ∃ v, a.assigned = some v ∧ v.quoting = .bare ∧ v.value = [] := by
  obtain ⟨lead, written, assigned⟩ := a
  cases assigned with
  | none => exact absurd hnil h.assigned.1
  | some v =>
    obtain ⟨before, after, q, value⟩ := v
    cases q with
    | quoted quote => simp [tail, Quoting.mark] at hnil
    | bare => exact ⟨_, rfl, rfl, by simpa [tail, Quoting.mark] using hnil⟩

end Attribute

namespace StartTag

open Text (Heads)

/-! ### Counting odd blanks -/

theorem oddBlanks_of_isLead {lead : Text} (h : IsLead lead) : Text.oddBlanks lead = 0 := by
  refine Text.oddBlanks_eq_zero fun c hc => ?_
  rcases h c hc with hblank | rfl
  · exact Text.isOddBlank_of_isAsciiBlank hblank
  · decide

/-- The odd blanks of an attribute are in its name and its value. -/
theorem oddBlanks_attribute {a : Attribute} {rest : Text} (hlead : IsLead a.lead) (h : a.Fits rest) :
    Text.oddBlanks a.source = Text.oddBlanks (Attribute.letters a.reading) := by
  have hzero := oddBlanks_of_isLead hlead
  obtain ⟨lead, written, assigned⟩ := a
  dsimp only at hzero
  cases assigned with
  | none =>
    simp [Attribute.source, Attribute.letters, Attribute.reading, Attribute.name, Attribute.value,
      Text.oddBlanks_lower, hzero]
  | some v =>
    obtain ⟨before, after, q, value⟩ := v
    have hv : Assignment.Fits written ⟨before, after, q, value⟩ rest := h.assigned
    have hbefore : Text.oddBlanks before = 0 :=
      Text.oddBlanks_eq_zero fun c hc => Text.isOddBlank_of_isAsciiBlank (hv.before c hc)
    have hafter : Text.oddBlanks after = 0 :=
      Text.oddBlanks_eq_zero fun c hc => Text.isOddBlank_of_isAsciiBlank (hv.after c hc)
    have hmark : Text.oddBlanks q.mark = 0 := by
      cases q with
      | bare => rfl
      | quoted quote =>
        rcases isQuote_iff.1 hv.value.1 with rfl | rfl <;> decide
    have hequals : Text.isOddBlank '=' = false := by decide
    simp [Attribute.source, Attribute.letters, Attribute.reading, Attribute.name, Attribute.value,
      Assignment.source, Assignment.head, Text.oddBlanks_lower, hzero, hbefore, hafter, hmark, hequals]

theorem oddBlanks_attributes {attributes : List Attribute} {rest : Text}
    (h : AttributesFit attributes rest) :
    Text.oddBlanks (attributes.flatMap Attribute.source) =
      Text.oddBlanks ((attributes.map Attribute.reading).flatMap Attribute.letters) := by
  induction attributes with
  | nil => rfl
  | cons a attributes ih =>
    rw [List.flatMap_cons, Text.oddBlanks_append, oddBlanks_attribute h.1.1 h.1.2, ih h.2,
      List.map_cons, List.flatMap_cons, Text.oddBlanks_append]

/-- **The odd blanks of a tag are in the names and values that are read of it.** -/
theorem oddBlanks_source {t : StartTag} (ht : t.Legible) :
    Text.oddBlanks t.source =
      Text.oddBlanks ((t.attributes.map Attribute.reading).flatMap Attribute.letters) := by
  have hwritten : Text.oddBlanks t.written = 0 := by
    refine Text.oddBlanks_eq_zero fun c hc => Text.isOddBlank_of_not_isBlank ?_
    rw [← Bool.not_eq_true]
    intro hblank
    have := ht.written c hc
    rw [not_isNameChar_of_isBlank hblank] at this
    cases this
  have hending : Text.oddBlanks t.ending = 0 := by
    rw [ending]
    split <;> decide
  have hlt : Text.isOddBlank '<' = false := by decide
  simp [source, hwritten, hending, hlt, oddBlanks_attributes ht.attributes,
    oddBlanks_of_isLead ht.trail.1]

/-! ### Another value in the place of one -/

/-- An attribute is read as it stands in front of what stands behind it in the tag. -/
theorem Legible.fits {t : StartTag} (ht : t.Legible) {front back : List Attribute} {a : Attribute}
    (h : t.attributes = front ++ a :: back) :
    a.Fits (back.flatMap Attribute.source ++ (t.trail ++ t.ending)) := by
  have hfits := ht.attributes
  rw [h] at hfits
  exact (attributesFit_append.1 hfits).2.1.2

/-- Attributes with the same lead and name begin alike. -/
theorem sameStart_source {a b : Attribute} {rest rest' : Text} (ha : a.Fits rest) (hb : b.Fits rest')
    (hlead : b.lead = a.lead) (hwritten : b.written = a.written) (x y : Text) :
    SameStart (a.source ++ x) (b.source ++ y) := by
  obtain ⟨c, hc, hx, hy⟩ : ∃ c, Text.isAsciiBlank c = false ∧ (∃ x', a.body ++ x = c :: x') ∧
      ∃ y', b.body ++ y = c :: y' := by
    rw [Attribute.body, Attribute.body, hwritten]
    cases hw : a.written with
    | cons c w => exact ⟨c, (isAttributeChar_iff.1 (ha.written c (by simp [hw]))).1, ⟨_, rfl⟩, _, rfl⟩
    | nil =>
      -- without a name there is nothing in front of `=`
      have hequals {d : Attribute} {r z : Text} (hd : d.Fits r) (hnil : d.written = []) :
          ∃ z', ([] ++ (d.assigned.map Assignment.source).getD []) ++ z = '=' :: z' := by
        have hassigned := hd.assigned
        cases hv : d.assigned with
        | none =>
          rw [hv] at hassigned
          exact absurd hnil hassigned.1
        | some v =>
          rw [hv] at hassigned
          have hbefore : v.before = [] := hassigned.before_eq_nil hnil
          exact ⟨_, by simp [Assignment.source, Assignment.head, hbefore]; rfl⟩
      exact ⟨'=', by decide, hequals ha hw, hequals hb (by rw [hwritten, hw])⟩
  obtain ⟨x', hx⟩ := hx
  obtain ⟨y', hy⟩ := hy
  rw [Attribute.source_eq, Attribute.source_eq, hlead, List.append_assoc, List.append_assoc, hx, hy]
  have := sameStart_append (s := a.lead ++ [c]) ⟨c, by simp, hc⟩ x' y'
  simpa using this

/-- **Another value leaves the attributes in front of it as they are read**, whatever follows it. -/
theorem fits_replaced {t : StartTag} (ht : t.Legible) {front back : List Attribute} {a b : Attribute}
    (hattributes : t.attributes = front ++ a :: back) (hlead : b.lead = a.lead)
    (hwritten : b.written = a.written) {z : Text} (hb : b.Fits z) :
    Heads endsName ((front ++ [b]).flatMap Attribute.source ++ z) ∧ AttributesFit (front ++ [b]) z := by
  have hfits := ht.attributes
  have hends := ht.endsName
  rw [hattributes] at hfits hends
  obtain ⟨hfront, ⟨halead, ha⟩, -⟩ := attributesFit_append.1 hfits
  rw [List.flatMap_append, List.append_assoc, List.flatMap_cons, List.append_assoc] at hends
  rw [List.flatMap_cons, List.append_assoc] at hfront
  have hstart := sameStart_source ha hb hlead hwritten
  constructor
  · rw [List.flatMap_append, List.flatMap_singleton, List.append_assoc]
    exact (((hstart _ _).append _).heads endsName_of_isAsciiBlank).1 hends
  · refine attributesFit_append.2 ⟨?_, ⟨hlead ▸ halead, hb⟩, trivial⟩
    rw [List.flatMap_singleton]
    exact attributesFit_congr (hstart _ _) hfront

end StartTag

end MaskedViews
