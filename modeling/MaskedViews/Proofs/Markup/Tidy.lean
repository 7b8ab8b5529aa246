import MaskedViews.Proofs.Markup.LooseEnds
import MaskedViews.Proofs.Markup.PlainClasses
import MaskedViews.Proofs.Markup.Regular
import MaskedViews.Proofs.Markup.SettledWords
import MaskedViews.Proofs.Template.SettledTokens

/-!
# Tidy tags

A tidy tag is a regular one with no blanks in the names of its attributes. The edits of a mask leave
tidy tags of it: stripping its values, giving it flags or one more class. What the tag is known by stays
through these and through settling: its name, the values of its other attributes up to what is done to
values, and whether it is a container (`ChangesTo`).
-/

namespace MaskedViews

open Markup (settle isFirm)
open Token (Braceless Woven strip)

/-! ### Settled braces -/

namespace Token

theorem Clean.settled {t : Token} (h : t.Clean) : t.settled.Clean := by
  have hsettle {content : Text} (hc : ∀ c ∈ content, isBrace c = false ∧ isBarrier c = false) :
      ∀ c ∈ settle content, isBrace c = false ∧ isBarrier c = false := by
    intro c hmem
    rcases Markup.mem_settle hmem with rfl | hmem
    · exact ⟨by decide, by decide⟩
    · exact hc c hmem
  cases t with
  | text s => exact h
  | tag content => exact hsettle h
  | rawTag content => exact hsettle h

/-- Settling keeps tags apart from what follows them. -/
theorem settle_source_append {t : Token} (h : t.Clean) (s : Text) :
    settle (t.source ++ s) = t.settled.source ++ settle s := by
  obtain ⟨z, hz⟩ : ∃ z, t.source = z ++ ['}'] := by
    cases t with
    | text s => exact h.elim
    | tag content => exact ⟨openTag ++ (content ++ ['}']), by simp [source, closeTag]⟩
    | rawTag content => exact ⟨openRaw ++ (content ++ ['}', '}']), by simp [source, closeRaw]⟩
  have hbrace : settle (z ++ ['}']) = settle z ++ ['}'] :=
    Markup.settle_append_cons (by decide) z []
  rw [source_settled, hz, List.append_assoc, List.singleton_append,
    Markup.settle_append_cons (by decide), hbrace, List.append_assoc, List.singleton_append]

theorem Woven.settle {s : Text} (h : Woven s) : Woven (settle s) := by
  induction h with
  | nil => exact .nil
  | @char c s hc _ ih =>
    rw [Markup.settle_cons]
    unfold Markup.push
    split
    · by_cases hhead : (Markup.settle s).head? = some ' '
      · rwa [Markup.spaced_of_head hhead]
      · rw [Markup.spaced_of_ne_head hhead]
        exact .char (by decide) ih
    · unfold Markup.abut
      split
      · next hs _ =>
        rw [hs] at ih
        exact .char (by decide) (ih.of_cons (by decide))
      · exact .char hc ih
  | tag ht _ ih =>
    rw [settle_source_append ht]
    exact .tag ht.settled ih

theorem Woven.of_blanks {b₁ s b₂ : Text} (h₁ : Text.Blanks b₁) (h₂ : Text.Blanks b₂)
    (h : Woven (b₁ ++ (s ++ b₂))) : Woven s := by
  have hwoven : Woven (s ++ b₂) := by
    induction b₁ with
    | nil => exact h
    | cons c b₁ ih =>
      have hbraceless := braceless_of_blanks h₁
      exact ih (fun d hd => h₁ d (List.mem_cons_of_mem c hd))
        (h.of_cons (hbraceless c List.mem_cons_self))
  exact hwoven.of_append_braceless (braceless_of_blanks h₂)

end Token

namespace StartTag

/-- A regular tag with no blanks in the names of its attributes. -/
structure IsTidy (t : StartTag) : Prop where
  /-- It is read as it is written. -/
  legible : t.Legible
  /-- Its values stand in double quotes, and its template tags in its values. -/
  regular : t.IsRegular
  /-- There are no blanks in the names of its attributes. -/
  solid : ∀ a ∈ t.attributes, ∀ c ∈ a.written, Text.isBlank c = false

/-- The attributes that a mask may add to a tag, or to the value of which it may add. -/
def changedKeys : List Text := ["class", "disabled", "readonly"].map String.toList

/-- A tag with the same name, with the values of the other one changed by `f`. -/
structure ChangesTo (f : Text → Text) (t u : StartTag) : Prop where
  /-- It begins an element of the same name. -/
  name : u.name = t.name
  /-- It closes itself as the other one does, if it is no form control. -/
  selfClosing : Markup.controlNames.contains t.name = false → u.selfClosing = t.selfClosing
  /-- Its attributes have the changed values, but for those that may be added. -/
  value : ∀ key, key ∉ changedKeys → u.value? key = (t.value? key).map f
  /-- It is a container if the other one is. -/
  container : u.hasClass Markup.containerClass = t.hasClass Markup.containerClass

namespace ChangesTo

theorem refl (t : StartTag) : ChangesTo id t t := ⟨rfl, fun _ => rfl, fun _ _ => by simp, rfl⟩

theorem trans {f g : Text → Text} {t u w : StartTag} (h : ChangesTo f t u) (h' : ChangesTo g u w) :
    ChangesTo (g ∘ f) t w := by
  refine ⟨h'.name.trans h.name, fun hname => ?_, fun key hkey => ?_, h'.container.trans h.container⟩
  · rw [h'.selfClosing (by rwa [h.name]), h.selfClosing hname]
  · rw [h'.value key hkey, h.value key hkey, Option.map_map]

end ChangesTo

/-- The attributes that name the field of a tag. -/
def fieldKeys : List Text := ["data-field", "name"].map String.toList

/-- A tag that begins the same element, of the same field. -/
structure StandsIn (t u : StartTag) : Prop where
  /-- It begins an element of the same name. -/
  name : u.name = t.name
  /-- It closes itself as the other one does, if it is no form control. -/
  selfClosing : Markup.controlNames.contains t.name = false → u.selfClosing = t.selfClosing
  /-- It names the same field. -/
  field : ∀ key ∈ fieldKeys, u.value? key = t.value? key
  /-- It is a container if the other one is. -/
  container : u.hasClass Markup.containerClass = t.hasClass Markup.containerClass

namespace StandsIn

theorem refl (t : StartTag) : t.StandsIn t := ⟨rfl, fun _ => rfl, fun _ _ => rfl, rfl⟩

variable {t u : StartTag} (h : t.StandsIn u)
include h

theorem markedField : u.markedField? = t.markedField? := h.field _ (by decide)

theorem controlName : u.controlName? = t.controlName? := by
  rw [controlName?, controlName?, h.name, h.field _ (by decide)]

theorem reference : u.reference? = t.reference? := by
  rw [reference?, reference?, h.markedField, h.controlName]

end StandsIn

/-- Changes of values that leave the names of fields alone leave an element of the same field. -/
theorem ChangesTo.standsIn {f : Text → Text} {t u : StartTag} (h : ChangesTo f t u)
    (hf : ∀ key ∈ fieldKeys, ∀ v ∈ t.value? key, f v = v) : t.StandsIn u := by
  refine ⟨h.name, h.selfClosing, fun key hkey => ?_, h.container⟩
  have hchanged : key ∉ changedKeys := by
    revert key
    decide
  rw [h.value key hchanged]
  cases hv : t.value? key with
  | none => rfl
  | some v => exact congrArg some (hf key hkey v hv)

theorem IsTidy.isSolid {t : StartTag} (h : t.IsTidy) : t.IsSolid := by
  refine fun a ha => ⟨h.solid a ha, fun v hv hbare => ?_⟩
  rw [(h.regular a ha).quoted v hv] at hbare
  cases hbare

theorem IsTidy.isQuoted {t : StartTag} (h : t.IsTidy) : t.IsQuoted :=
  fun a ha => (h.regular a ha).quoted

/-! ### Stripped values -/

theorem value?_stripped (remove : Text → Bool) (t : StartTag) (name : Text) :
    (t.stripped remove).value? name = (t.value? name).map (strip remove) := by
  rw [value?, value?, find?, find?, stripped, List.find?_map, Option.map_map, Option.map_map]
  congr 1
  funext a
  obtain ⟨lead, written, assigned⟩ := a
  cases assigned <;> simp [Attribute.stripped, Attribute.value]

theorem hasAttribute_stripped (remove : Text → Bool) (t : StartTag) (name : Text) :
    (t.stripped remove).hasAttribute name = t.hasAttribute name := by
  rw [hasAttribute, hasAttribute, stripped, List.any_map]
  rfl

theorem IsTidy.stripped {t : StartTag} (h : t.IsTidy) (remove : Text → Bool) :
    (t.stripped remove).IsTidy := by
  obtain ⟨hlegible, hregular⟩ := legible_stripped remove h.legible h.regular
  refine ⟨hlegible, hregular, fun b hb => ?_⟩
  obtain ⟨a, ha, rfl⟩ := List.mem_map.1 hb
  exact h.solid a ha

theorem changesTo_stripped (remove : Text → Bool) {t : StartTag}
    (hclass : ∀ v ∈ t.value? "class".toList, Braceless v) :
    ChangesTo (strip remove) t (t.stripped remove) := by
  refine ⟨rfl, fun _ => rfl, fun key _ => value?_stripped remove t key, ?_⟩
  rw [hasClass, hasClass, value?_stripped]
  cases hv : t.value? "class".toList with
  | none => rfl
  | some v => rw [Option.map_some, Token.strip_of_braceless (hclass v hv)]

/-! ### Flags -/

theorem IsTidy.isOpen {t : StartTag} (h : t.IsTidy) : t.isOpen = false := by
  rw [← Bool.not_eq_true]
  intro hopen
  obtain ⟨attributes, a, v, hlast, hv, hbare, -⟩ := eq_of_isOpen h.legible hopen
  rw [h.isQuoted a (by simp [hlast]) v hv] at hbare
  cases hbare

theorem IsTidy.selfClosing_of_bare {t : StartTag} (h : t.IsTidy) :
    ∀ a ∈ t.attributes.getLast?, ∀ v ∈ a.assigned, v.quoting = .bare → t.selfClosing = false := by
  intro a ha v hv hbare
  rw [h.isQuoted a (List.mem_of_mem_getLast? ha) v hv] at hbare
  cases hbare

/-- A tidy tag with its flags stays as it is. -/
theorem IsTidy.withFlags_eq_source {t : StartTag} (h : t.IsTidy) {flags : List Text}
    (hflags : ∀ flag ∈ flags, IsWord flag) (hflagged : t.IsFlagged flags) :
    t.withFlags flags = t.source :=
  withFlags_of_isFlagged h.legible h.isSolid h.isOpen h.isQuoted.unslashed h.selfClosing_of_bare
    hflags hflagged

/-- A tidy tag gets its flags as attributes. -/
theorem IsTidy.exists_withFlags {t : StartTag} (h : t.IsTidy)
    (hcontrol : Markup.controlNames.contains t.name = true) {flags : List Text}
    (hflags : ∀ flag ∈ flags, IsWord flag) (hlower : ∀ flag ∈ flags, Text.lower flag = flag)
    (hkeys : ∀ flag ∈ flags, flag ∈ changedKeys) (hclass : "class".toList ∉ flags) :
    ∃ u : StartTag, u.IsTidy ∧ ChangesTo id t u ∧ u.source = t.withFlags flags ∧
      (((∀ flag ∈ flags, t.hasAttribute flag = true) → t.endsLoosely = false) →
        u.IsFlagged flags) := by
  obtain ⟨u, extra, hu, hwritten, hsource, hattributes, hextra, hflag, -, hend⟩ :=
    exists_missing h.legible h.isSolid h.isOpen h.isQuoted.unslashed
      (fun _ => h.selfClosing_of_bare) hflags
  have hnames := map_name_of_written hextra fun flag hflag =>
    hlower flag (List.mem_filter.1 hflag).1
  obtain ⟨has, hvalue⟩ := has_of_missing hattributes hnames
  refine ⟨u, ⟨hu, fun a ha => ?_, fun a ha => ?_⟩, ⟨congrArg Text.lower hwritten, fun hname => ?_,
    fun key hkey => ?_, ?_⟩, hsource, fun hloose => isFlagged_of_trail hloose has hend⟩
  · rw [hattributes] at ha
    rcases List.mem_append.1 ha with ha | ha
    · exact h.regular a ha
    · obtain ⟨hword, hnone⟩ := hflag a ha
      exact ⟨braceless_of_isNameChar hword.2, by simp [Attribute.IsQuoted, hnone], by simp [hnone]⟩
  · rw [hattributes] at ha
    rcases List.mem_append.1 ha with ha | ha
    · exact h.solid a ha
    · exact fun c hc => (Markup.isFirm_iff.1 (isFirm_of_isNameChar ((hflag a ha).1.2 c hc))).1
  · rw [hcontrol] at hname
    cases hname
  · rw [hvalue key fun hmem => hkey (hkeys key hmem), Option.map_id, id]
  · rw [hasClass, hasClass, hvalue _ hclass]

/-! ### Classes -/

theorem find?_addToClasses {name className : Text} (hname : name ≠ "class".toList)
    (attributes : List Attribute) :
    (addToClasses className attributes).find? (fun a => a.name = name) =
      attributes.find? fun a => a.name = name := by
  induction attributes with
  | nil => rfl
  | cons a attributes ih =>
    rw [addToClasses]
    split
    · next ha =>
      have hne : a.name ≠ name := fun h => hname (h.symm.trans ha)
      have hne' : (withWord className a).name ≠ name := hne
      rw [List.find?_cons, List.find?_cons, decide_eq_false hne, decide_eq_false hne']
    · rw [List.find?_cons, List.find?_cons, ih]

theorem find?_class_addToClasses (className : Text) (attributes : List Attribute) :
    (addToClasses className attributes).find? (fun a => a.name = "class".toList) =
      (attributes.find? fun a => a.name = "class".toList).map (withWord className) := by
  induction attributes with
  | nil => rfl
  | cons a attributes ih =>
    rw [addToClasses]
    split
    · next ha =>
      have ha' : (withWord className a).name = "class".toList := ha
      rw [List.find?_cons, List.find?_cons, decide_eq_true ha, decide_eq_true ha']
      rfl
    · next ha => rw [List.find?_cons, List.find?_cons, decide_eq_false ha, ih]

theorem mem_addToClasses {className : Text} {attributes : List Attribute} {b : Attribute}
    (h : b ∈ addToClasses className attributes) :
    b ∈ attributes ∨ ∃ a ∈ attributes, b = withWord className a := by
  induction attributes with
  | nil => cases h
  | cons a attributes ih =>
    rw [addToClasses] at h
    split at h
    · rcases List.mem_cons.1 h with rfl | h
      · exact .inr ⟨a, List.mem_cons_self, rfl⟩
      · exact .inl (List.mem_cons_of_mem a h)
    · rcases List.mem_cons.1 h with rfl | h
      · exact .inl List.mem_cons_self
      · rcases ih h with h | ⟨c, hc, rfl⟩
        · exact .inl (List.mem_cons_of_mem a h)
        · exact .inr ⟨c, List.mem_cons_of_mem a hc, rfl⟩

/-- Attributes in double quotes are read as they stand with one more class. -/
theorem attributesFit_addToClasses {attributes : List Attribute} {rest word : Text}
    (hq : ∀ a ∈ attributes, a.IsQuoted) (h : AttributesFit attributes rest) (hword : IsWord word) :
    AttributesFit (addToClasses word attributes) rest ∧
      SameStart (attributes.flatMap Attribute.source ++ rest)
        ((addToClasses word attributes).flatMap Attribute.source ++ rest) := by
  induction attributes with
  | nil => exact ⟨h, .refl _⟩
  | cons a attributes ih =>
    obtain ⟨⟨hlead, hfits⟩, hfit⟩ := h
    rw [addToClasses]
    split
    · cases hv : a.assigned with
      | none =>
        have hsame : withWord word a = a := by
          rw [withWord, hv, Option.map_none, ← hv]
        rw [hsame]
        exact ⟨⟨⟨hlead, hfits⟩, hfit⟩, .refl _⟩
      | some v =>
        refine ⟨⟨⟨hlead, fits_withWord hfits hv (hq a (by simp) v hv) hword.isLabel.not_isQuote⟩, hfit⟩, ?_⟩
        have hfirm : ∃ c ∈ a.lead ++ (a.written ++ (v.before ++ ['='])), Text.isAsciiBlank c = false :=
          ⟨'=', by simp, by decide⟩
        have := sameStart_append hfirm
          (v.after ++ (v.quoting.mark ++ (v.value ++ (v.quoting.mark ++
            (attributes.flatMap Attribute.source ++ rest)))))
          (v.after ++ (v.quoting.mark ++ (addWord word v.value ++ (v.quoting.mark ++
            (attributes.flatMap Attribute.source ++ rest)))))
        simpa [withWord, Attribute.source, hv, Assignment.source, Assignment.head] using this
    · obtain ⟨ihfit, ihstart⟩ := ih (fun b hb => hq b (List.mem_cons_of_mem a hb)) hfit
      refine ⟨⟨⟨hlead, (fits_congr ihstart).1 hfits⟩, ihfit⟩, ?_⟩
      rw [List.flatMap_cons, List.flatMap_cons, List.append_assoc, List.append_assoc]
      exact ihstart.append a.source

/-- The classes of a tag with one more in the attribute that it has. -/
theorem hasClass_addToClasses {t : StartTag} {className word : Text} {a : Attribute} {v : Assignment}
    (hfind : t.find? "class".toList = some a) (hv : a.assigned = some v) :
    StartTag.hasClass { t with attributes := addToClasses word t.attributes } className =
      (Text.words (addWord word v.value)).contains className := by
  rw [hasClass, value?, find?, find?_class_addToClasses, show t.attributes.find? _ = some a from hfind]
  simp [Attribute.value, withWord, hv]

/-- A tidy container stays one with a class more. -/
theorem IsTidy.exists_withClass {t : StartTag} (h : t.IsTidy)
    (hclass : t.hasClass Markup.containerClass = true) {word : Text} (hword : IsWord word) :
    ∃ u : StartTag, u.IsTidy ∧ ChangesTo id t u ∧ u.source = t.withClass word ∧
      u.hasClass word = true := by
  rw [withClass]
  split
  · next hhas => exact ⟨t, h, .refl t, rfl, hhas⟩
  obtain ⟨a, v, hfind, hv, -⟩ := exists_class_of_hasClass hclass
  have hvalue : t.hasClassValue = true := by
    rw [hasClassValue_of_find? hfind, hv]
    rfl
  obtain ⟨hfit, hstart⟩ := attributesFit_addToClasses h.isQuoted h.legible.attributes hword
  rw [if_pos hvalue]
  refine ⟨{ t with attributes := addToClasses word t.attributes }, ⟨⟨h.legible.letter,
    h.legible.written, (hstart.heads endsName_of_isAsciiBlank).1 h.legible.endsName, hfit,
    h.legible.trail⟩, fun b hb => ?_, fun b hb => ?_⟩, ⟨rfl, fun _ => rfl, fun key hkey => ?_, ?_⟩,
    rfl, ?_⟩
  · rcases mem_addToClasses hb with hb | ⟨a, ha, rfl⟩
    · exact h.regular b hb
    · refine ⟨(h.regular a ha).written, fun w hw => ?_, fun w hw => ?_⟩
      · obtain ⟨x, hx, rfl⟩ := Option.map_eq_some_iff.1 hw
        exact (h.regular a ha).quoted x hx
      · obtain ⟨x, hx, rfl⟩ := Option.map_eq_some_iff.1 hw
        show Woven (addWord word x.value)
        have hbraceless := Woven.of_braceless (braceless_of_isNameChar hword.2)
        rw [addWord]
        split
        · exact hbraceless
        · exact ((h.regular a ha).value x hx).append (.char (by decide) hbraceless)
  · rcases mem_addToClasses hb with hb | ⟨a, ha, rfl⟩
    · exact h.solid b hb
    · exact h.solid a ha
  · have hkey : key ≠ "class".toList := by
      rintro rfl
      exact hkey (by decide)
    rw [value?, value?, find?, find?, find?_addToClasses hkey, Option.map_id, id]
  · rw [hclass, hasClass_addToClasses hfind hv, List.contains_iff_mem]
    rw [hasClass, value?, hfind] at hclass
    simp only [Option.map_some, Attribute.value, hv, Option.getD_some, List.contains_iff_mem]
      at hclass
    rw [words_addWord hword.isLabel]
    exact List.mem_append_left _ hclass
  · rw [hasClass_addToClasses hfind hv, List.contains_iff_mem]
    rw [words_addWord hword.isLabel]
    exact List.mem_append_right _ (List.mem_singleton_self word)

/-! ### Settled tags -/

/-- A tidy tag settles to a tidy tag. -/
theorem IsTidy.settled {t : StartTag} (h : t.IsTidy) : t.settled.IsTidy := by
  refine ⟨legible_settled h.isSolid h.legible, fun b hb => ?_, fun b hb => ?_⟩
  · obtain ⟨a, ha, rfl⟩ := List.mem_map.1 hb
    refine ⟨(h.regular a ha).written, fun v hv => ?_, fun v hv => ?_⟩
    · obtain ⟨w, hw, rfl⟩ := Option.map_eq_some_iff.1 hv
      exact (h.regular a ha).quoted w hw
    · obtain ⟨w, hw, rfl⟩ := Option.map_eq_some_iff.1 hv
      exact ((h.regular a ha).value w hw).settle
  · obtain ⟨a, ha, rfl⟩ := List.mem_map.1 hb
    exact h.solid a ha

theorem hasClass_settled {className : Text} (hne : className ≠ [])
    (hfirm : ∀ c ∈ className, isFirm c = true) (t : StartTag) :
    t.settled.hasClass className = t.hasClass className := by
  rw [hasClass, hasClass, value?_settled]
  cases t.value? "class".toList with
  | none => rfl
  | some v =>
    simp only [Option.map_some, List.contains_eq_mem, decide_eq_decide]
    exact Markup.mem_words_settle hne hfirm

theorem changesTo_settled (t : StartTag) : ChangesTo settle t t.settled :=
  ⟨rfl, fun _ => rfl, fun key _ => value?_settled t key, hasClass_settled (by decide) (by decide) t⟩

end StartTag

end MaskedViews
