import MaskedViews.Proofs.Access.CurrentUser
import MaskedViews.Proofs.Access.Rules
import MaskedViews.Proofs.Json.Reading

/-!
# Lists of members

The members that a membership rule asks for may be kept as an array, as a text that holds the array
or as a text with commas. However they are kept, the rule is about the same members
(`candidates_of_lists`), and it decides by them alone (`holds_membership_iff`).
-/

namespace MaskedViews

namespace Rule

/-! ### Ways of keeping a list -/

/-- Texts put together with commas, which may have blanks around them. -/
inductive Joined : List Text → Text → Prop where
  /-- One text by itself. -/
  | single (w : Text) : Joined [w] w
  /-- A text, a comma and the others. -/
  | cons (w : Text) {before after : Text} (hbefore : Text.Blanks before)
    (hafter : Text.Blanks after) {ws : List Text} {s : Text} (h : Joined ws s) :
    Joined (w :: ws) (w ++ before ++ ',' :: (after ++ s))

/-- Values that are kept for a list of members. -/
inductive Lists (members : List Text) : Json → Prop where
  /-- The array of the members. -/
  | array : Lists members (.array (members.map .string))
  /-- A text that holds the array. -/
  | text {s : Text} (h : Json.read? s = some (.array (members.map .string))) :
    Lists members (.string s)
  /-- The members with commas between them. -/
  | joined {s : Text} (h : Joined members s) : Lists members (.string s)

/-- Members that can be told apart in each way of keeping them: none is the word for the user, has a
comma or begins or ends with a blank, and the first does not begin as an array does. -/
structure Separable (members : List Text) : Prop where
  /-- There is a member. -/
  ne_nil : members ≠ []
  /-- No member is the word for the user. -/
  ne_user : ∀ w ∈ members, w ≠ currentUser
  /-- No member has a comma. -/
  comma : ∀ w ∈ members, ',' ∉ w
  /-- No member begins or ends with a blank. -/
  trim : ∀ w ∈ members, Text.trim w = w
  /-- The first member does not begin as an array does. -/
  head : ∀ w ∈ members.head?, w.head? ≠ some '['

theorem splitList_append (x y : Text) : splitList (x ++ ',' :: y) = splitList x ++ splitList y := by
  rw [splitList, List.splitOn, List.splitOnP_append_cons x y (by simp), List.map_append]
  rfl

theorem not_mem_of_blanks {b : Text} (h : Text.Blanks b) : ',' ∉ b :=
  fun hmem => absurd (h ',' hmem) (by decide)

/-- Blanks in front of a list with commas are none of its members. -/
theorem splitList_blanks_append {b : Text} (hb : Text.Blanks b) (s : Text) :
    splitList (b ++ s) = splitList s := by
  obtain ⟨r, rs, hrs⟩ := List.exists_cons_of_ne_nil (List.splitOn_ne_nil ',' s)
  have hsplit : (b ++ s).splitOn ',' = (b ++ r) :: rs := by
    induction b with
    | nil => exact hrs
    | cons c b ih =>
      have hc : (c == ',') = false := by
        simpa using fun e => not_mem_of_blanks hb (by simp [e])
      rw [List.cons_append, List.splitOn_cons_eq_if_modifyHead, hc,
        ih fun d hd => hb d (List.mem_cons_of_mem c hd)]
      rfl
  rw [splitList, splitList, hsplit, hrs, List.map_cons, List.map_cons, Text.trim_blanks_append hb]

/-- Members that are put together with commas are taken apart again. -/
theorem splitList_of_joined {members : List Text} {s : Text} (h : Joined members s)
    (hcomma : ∀ w ∈ members, ',' ∉ w) (htrim : ∀ w ∈ members, Text.trim w = w) :
    splitList s = members := by
  induction h with
  | single w => rw [splitList_of_not_mem (hcomma w (by simp)), htrim w (by simp)]
  | cons w hbefore hafter h ih =>
    obtain ⟨hw, hws⟩ := List.forall_mem_cons.1 hcomma
    obtain ⟨hwtrim, hwstrim⟩ := List.forall_mem_cons.1 htrim
    have hfirst : ',' ∉ w ++ _ := fun hmem =>
      (List.mem_append.1 hmem).elim hw (not_mem_of_blanks hbefore)
    rw [splitList_append, splitList_of_not_mem hfirst, Text.trim_append_blanks w hbefore, hwtrim,
      splitList_blanks_append hafter, ih hws hwstrim, List.singleton_append]

/-- A text that does not begin with a blank decides what the trimmed text begins with, unless it is
empty. -/
theorem head?_trimStart_append {w r : Text} {c : Char} (htrim : Text.trim w = w)
    (hw : w.head? ≠ some c) (hr : (Text.trimStart r).head? ≠ some c) :
    (Text.trimStart (w ++ r)).head? ≠ some c := by
  rcases Text.trim_eq_nil_or w with h | ⟨⟨d, w', hd, h⟩, -⟩
  · rw [htrim] at h
    rwa [h, List.nil_append]
  · rw [htrim] at h
    rw [h, List.cons_append, Text.trimStart_of_head hd]
    rwa [h] at hw

/-- Members that are put together with commas do not begin as an array does. -/
theorem head?_trimStart_of_joined {members : List Text} {s : Text} (h : Joined members s)
    (hmembers : Separable members) : (Text.trimStart s).head? ≠ some '[' := by
  cases h with
  | single =>
    rw [← List.append_nil s]
    exact head?_trimStart_append (hmembers.trim s (by simp)) (hmembers.head s (by simp))
      (by simp [Text.trimStart])
  | cons w hbefore _ _ =>
    rw [List.append_assoc]
    refine head?_trimStart_append (hmembers.trim w (by simp)) (hmembers.head w (by simp)) ?_
    rw [Text.trimStart_blanks_append hbefore, Text.trimStart_of_head (by decide)]
    simp

theorem ne_currentUser_of_joined {members : List Text} {s : Text} (h : Joined members s)
    (huser : ∀ w ∈ members, w ≠ currentUser) : s ≠ currentUser := by
  cases h with
  | single => exact huser s (by simp)
  | cons w _ _ h =>
    intro hs
    have hmem : ',' ∈ currentUser := hs ▸ by simp
    revert hmem
    decide

/-! ### The members that are read -/

theorem substituteAll_strings (user : Text) {members : List Text}
    (h : ∀ w ∈ members, w ≠ currentUser) :
    substituteUser.substituteAll user (members.map .string) = members.map .string := by
  induction members with
  | nil => rfl
  | cons w members ih =>
    obtain ⟨hw, hmembers⟩ := List.forall_mem_cons.1 h
    rw [List.map_cons, substituteUser.substituteAll, substituteUser, if_neg hw, ih hmembers]

/-- A list that is kept for members has no word for the user in it. -/
theorem substituteUser_of_lists (user : Text) {members : List Text} {value : Json}
    (hmembers : Separable members) (h : Lists members value) :
    substituteUser user value = value := by
  have htext {s : Text} (hs : s ≠ currentUser) : substituteUser user (.string s) = .string s := by
    rw [substituteUser, if_neg hs]
  cases h with
  | array => rw [substituteUser, substituteAll_strings user hmembers.ne_user]
  | @text s h =>
    refine htext ?_
    rintro rfl
    have := Json.head?_trimStart_of_read? h
    revert this
    decide
  | joined h => exact htext (ne_currentUser_of_joined h hmembers.ne_user)

theorem listed_of_lists {members : List Text} {value : Json} (hmembers : Separable members)
    (h : Lists members value) : listed value = members := by
  have htexts : (members.map Json.string).map Json.toText = members := by
    rw [List.map_map]
    exact List.map_id members
  cases h with
  | array => exact htexts
  | text h =>
    rw [listed, if_pos (Text.startsWith_singleton_iff.2 (Json.head?_trimStart_of_read? h)),
      Json.readArray?, h]
    exact htexts
  | joined h =>
    rw [listed, if_neg (mt Text.startsWith_singleton_iff.1 (head?_trimStart_of_joined h hmembers))]
    exact splitList_of_joined h hmembers.comma hmembers.trim

/-- **However a list of members is kept, these are its members.** -/
theorem candidates_of_lists (user : Text) {members : List Text} {value : Json}
    (hmembers : Separable members) (h : Lists members value) :
    candidates user (substituteUser user value) = members := by
  rw [substituteUser_of_lists user hmembers h, candidates, listed_of_lists hmembers h]
  exact (List.map_congr_left fun w hw => if_neg (hmembers.ne_user w hw)).trans (List.map_id members)

/-! ### Decisions -/

/-- A record has fields, and one of them is there, is not null and has the text of a member. -/
def HasMember (record : Option Json) (field : Text) (members : List Text) : Prop :=
  ∃ m fields v, record = some (.object (m :: fields)) ∧
    (Json.object (m :: fields)).lookup field = some v ∧ v ≠ .null ∧ v.toText ∈ members

/-- A value is looked up, other than null, only in a record with fields, unless there is none. -/
theorem hasMember_iff {record : Option Json} (hmissing : isMissing record = false) (field : Text)
    (members : List Text) :
    HasMember record field members ↔ ∃ v, actual? record field = some v ∧ v.toText ∈ members := by
  rcases isMissing_eq_false_iff.1 hmissing with ⟨m, fields, rfl⟩ | hfieldless
  · simp only [HasMember, actual?, Option.bind_some, Option.filter_eq_some_iff, Option.some.injEq,
      Json.object.injEq, List.cons.injEq, Bool.not_eq_true', Bool.eq_false_iff, Ne, Json.isNull_iff]
    constructor
    · rintro ⟨m', fields', v, ⟨rfl, rfl⟩, hlookup, hnull, hmem⟩
      exact ⟨v, ⟨hlookup, hnull⟩, hmem⟩
    · rintro ⟨v, ⟨hlookup, hnull⟩, hmem⟩
      exact ⟨m, fields, v, ⟨rfl, rfl⟩, hlookup, hnull, hmem⟩
  · rw [actual?_of_isFieldless hfieldless]
    constructor
    · rintro ⟨m, fields, v, rfl, -⟩
      cases hfieldless
    · rintro ⟨v, h, -⟩
      cases h

/-- What a membership rule says when its members are known. -/
theorem holds_of_candidates {value : Json} {user : Text} {members : List Text}
    (h : candidates user (substituteUser user value) = members) (field : Text)
    (record : Option Json) :
    ((⟨field, .isIn, value⟩ : Rule).holds record user = true ↔ HasMember record field members) ∧
      ((⟨field, .notIn, value⟩ : Rule).holds record user = true ↔
        isMissing record = false ∧ ¬ HasMember record field members) := by
  cases hmissing : isMissing record with
  | true =>
    have hnot : ¬ HasMember record field members := by
      rintro ⟨m, fields, v, rfl, -⟩
      cases hmissing
    simp [holds_of_isMissing hmissing, hnot]
  | false =>
    rw [hasMember_iff hmissing, holds, holds, hmissing]
    cases actual? record field <;> simp [compare, h]

/-- The written form of the array is a text that holds it. -/
theorem lists_compact (members : List Text) :
    Lists members (.string (Json.compact (.array (members.map .string)))) :=
  .text (Json.read?_compact_strings members)

/-- **A membership rule is decided by its members.** -/
theorem holds_membership_iff {members : List Text} (hmembers : Separable members) (field : Text)
    (record : Option Json) (user : Text) :
    Lists members (.string (Json.compact (.array (members.map .string)))) ∧
      ∀ value, Lists members value →
        ((⟨field, .isIn, value⟩ : Rule).holds record user = true ↔ HasMember record field members) ∧
          ((⟨field, .notIn, value⟩ : Rule).holds record user = true ↔
            isMissing record = false ∧ ¬ HasMember record field members) :=
  ⟨lists_compact members,
    fun _ h => holds_of_candidates (candidates_of_lists user hmembers h) field record⟩

/-- Two states, one with a bracket inside, kept with a comma and as the text of an array. -/
theorem holds_membership_states :
    let members := ["on hold".toList, "paid [net]".toList]
    let record : Option Json := some (.object [("state".toList, .string "paid [net]".toList)])
    Separable members ∧
      (⟨"state".toList, .isIn, .string "on hold , paid [net]".toList⟩ : Rule).holds record
        "u".toList = true ∧
      (⟨"state".toList, .notIn, .string (Json.compact (.array (members.map .string)))⟩ : Rule).holds
        record "u".toList ≠ true := by
  intro members record
  have hmembers : Separable members :=
    ⟨by decide, by decide, by decide, by decide, by decide⟩
  have hspace : Text.Blanks [' '] := List.forall_mem_singleton.2 (by decide)
  have hjoined : Joined members "on hold , paid [net]".toList :=
    .cons "on hold".toList hspace hspace (.single "paid [net]".toList)
  have hlookup : pathKeys "state".toList = ["state".toList] := by decide
  have hmember : HasMember record "state".toList members :=
    ⟨_, [], .string "paid [net]".toList, rfl, by rw [Json.lookup, hlookup]; rfl, by simp, by decide⟩
  obtain ⟨htext, hdecides⟩ := holds_membership_iff hmembers "state".toList record "u".toList
  refine ⟨hmembers, (hdecides _ (.joined hjoined)).1.2 hmember, fun h => ?_⟩
  exact ((hdecides _ htext).2.1 h).2 hmember

end Rule

end MaskedViews
