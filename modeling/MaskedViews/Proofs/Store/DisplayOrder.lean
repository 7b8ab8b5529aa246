import MaskedViews.Proofs.Store.Declarations
import Mathlib.Algebra.Group.Nat.Defs

/-!
# The order of fields

The fields of an entity are shown by their order, and those of the same order as they were declared:
no other list of them is so (`Store.fieldsOf_eq_iff`). A field that is declared takes the number of the
fields before it for its order. So it comes last just if no order is above that number
(`Store.appends_iff_of_length`), which is so where all fields were declared in this way
(`Store.toInt_order_le_of_built`), but not behind a field that was loaded with a higher order.
-/

namespace MaskedViews

/-! ### Lists in order -/

namespace Field

/-- Whether fields stand by their order. -/
def InOrder (fs : List Field) : Prop := fs.Pairwise fun f g => f.order ≤ g.order

theorem inOrder_append {fs gs : List Field} : InOrder (fs ++ gs) ↔
    InOrder fs ∧ InOrder gs ∧ ∀ f ∈ fs, ∀ g ∈ gs, f.order ≤ g.order :=
  List.pairwise_append

/-- The fields that stand at an order. -/
def atOrder (n : Int32) (fs : List Field) : List Field := fs.filter fun f => f.order = n

theorem atOrder_append (n : Int32) (fs gs : List Field) :
    atOrder n (fs ++ gs) = atOrder n fs ++ atOrder n gs :=
  List.filter_append ..

/-- Two lists in order that have the same fields at each order, and these in the same sequence, are one
and the same. -/
theorem eq_of_atOrder {fs gs : List Field} (hfs : InOrder fs) (hgs : InOrder gs)
    (h : ∀ n, atOrder n fs = atOrder n gs) : fs = gs := by
  induction fs generalizing gs with
  | nil =>
    cases gs with
    | nil => rfl
    | cons g gs => simpa [atOrder] using h g.order
  | cons f fs ih =>
    cases gs with
    | nil => simpa [atOrder] using h f.order
    | cons g gs =>
      have hmem (x : Field) : x ∈ f :: fs ↔ x ∈ g :: gs := by
        have hx := congrArg (x ∈ ·) (h x.order)
        simpa [atOrder] using hx
      -- each head is among the fields of the other list, so neither order is above the other
      have hle : f.order ≤ g.order := by
        rcases List.mem_cons.1 ((hmem g).2 List.mem_cons_self) with rfl | hg
        · exact Int32.le_refl _
        · exact List.rel_of_pairwise_cons hfs hg
      have hge : g.order ≤ f.order := by
        rcases List.mem_cons.1 ((hmem f).1 List.mem_cons_self) with rfl | hf
        · exact Int32.le_refl _
        · exact List.rel_of_pairwise_cons hgs hf
      have horder : f.order = g.order := Int32.le_antisymm hle hge
      obtain rfl : f = g := by
        have := congrArg List.head? (h f.order)
        simpa [atOrder, horder] using this
      refine congrArg (f :: ·) (ih hfs.tail hgs.tail fun n => ?_)
      have hn := h n
      simp only [atOrder, List.filter_cons] at hn ⊢
      split at hn
      · exact List.tail_eq_of_cons_eq hn
      · exact hn

/-- The fields that names are declared as, one after the other, if an entity has `n` fields so far. -/
def numbered (entity : Text) : (n : Nat) → List Text → List Field
  | _, [] => []
  | n, name :: names =>
    { entity := entity, name := name, label := name, order := Int32.ofNat n } ::
      numbered entity (n + 1) names

theorem numbered_append (entity : Text) (n : Nat) (names more : List Text) :
    numbered entity n (names ++ more) =
      numbered entity n names ++ numbered entity (n + names.length) more := by
  induction names generalizing n with
  | nil => rfl
  | cons name names ih =>
    rw [List.cons_append, numbered, numbered, ih, List.length_cons, List.cons_append,
      Nat.add_right_comm, Nat.add_assoc]

@[simp] theorem length_numbered (entity : Text) (n : Nat) (names : List Text) :
    (numbered entity n names).length = names.length := by
  induction names generalizing n with
  | nil => rfl
  | cons name names ih => rw [numbered, List.length_cons, ih, List.length_cons]

/-- The orders of fields that are declared one after the other go up, as far as 32 bits reach. -/
theorem toInt_order_of_mem_numbered {entity : Text} {n : Nat} {names : List Text}
    (h : n + names.length ≤ 2 ^ 31) {f : Field} (hf : f ∈ numbered entity n names) :
    (n : Int) ≤ f.order.toInt ∧ f.order.toInt < n + names.length := by
  induction names generalizing n with
  | nil => cases hf
  | cons name names ih =>
    rw [List.length_cons] at h ⊢
    rcases List.mem_cons.1 hf with rfl | hf
    · have hn : (Int32.ofNat n).toInt = n := Int32.toInt_ofNat_of_lt (by omega)
      simp only [hn]
      omega
    · have := ih (by omega) hf
      omega

theorem inOrder_numbered {entity : Text} {n : Nat} {names : List Text}
    (h : n + names.length ≤ 2 ^ 31) : InOrder (numbered entity n names) := by
  induction names generalizing n with
  | nil => exact .nil
  | cons name names ih =>
    rw [List.length_cons] at h
    refine .cons (fun f hf => ?_) (ih (by omega))
    have hn : (Int32.ofNat n).toInt = n := Int32.toInt_ofNat_of_lt (by omega)
    have := toInt_order_of_mem_numbered (by omega) hf
    rw [Int32.le_iff_toInt_le, hn]
    omega

/-- They come behind others if none of these has an order above their number. -/
theorem inOrder_append_numbered_iff {entity : Text} {n : Nat} {names : List Text} {fs : List Field}
    (h : n + names.length ≤ 2 ^ 31) (hfs : InOrder fs) :
    InOrder (fs ++ numbered entity n names) ↔ names = [] ∨ ∀ f ∈ fs, f.order.toInt ≤ n := by
  rw [inOrder_append, and_iff_right hfs, and_iff_right (inOrder_numbered h)]
  cases names with
  | nil => simp [numbered]
  | cons name names =>
    have hn : (Int32.ofNat n).toInt = n := by
      rw [List.length_cons] at h
      exact Int32.toInt_ofNat_of_lt (by omega)
    constructor
    · intro hle
      refine .inr fun f hf => ?_
      have hfirst := hle f hf _ List.mem_cons_self
      rwa [Int32.le_iff_toInt_le, hn] at hfirst
    · rintro (hnil | hle) f hf g hg
      · cases hnil
      · rw [Int32.le_iff_toInt_le]
        exact Int.le_trans (hle f hf) (toInt_order_of_mem_numbered h hg).1

end Field

/-! ### Declarations of fields -/

/-- The name that a declaration gives to a field of an entity. -/
def Declaration.fieldName? (entity : Text) : Declaration → Option Text
  | .field e name => if e = entity then some name else none
  | _ => none

namespace Store

/-- The fields of an entity as they were declared. -/
def declared (s : Store) (entity : Text) : List Field := s.fields.filter fun f => f.entity = entity

/-- The fields that declarations add to an entity. -/
def added (s : Store) (entity : Text) (ds : List Declaration) : List Field :=
  Field.numbered entity (s.declared entity).length (ds.filterMap (Declaration.fieldName? entity))

variable {s : Store} {entity : Text} {ds : List Declaration}

theorem declared_declare (s : Store) (entity : Text) (d : Declaration) :
    (s.declare d).declared entity = s.declared entity ++ s.added entity [d] := by
  cases d with
  | field e name =>
    by_cases he : e = entity
    · simp [declare, declared, added, withField, Declaration.fieldName?, he, Field.numbered]
    · simp [declare, declared, added, withField, Declaration.fieldName?, he, Field.numbered]
  | user u => exact (List.append_nil _).symm
  | fieldPermission p => exact (List.append_nil _).symm
  | actionPermission p => exact (List.append_nil _).symm
  | template e view body => exact (List.append_nil _).symm

/-- Declarations leave the fields that are there as they are and add theirs behind them. -/
theorem declared_declareAll (s : Store) (entity : Text) (ds : List Declaration) :
    (s.declareAll ds).declared entity = s.declared entity ++ s.added entity ds := by
  induction ds generalizing s with
  | nil => exact (List.append_nil _).symm
  | cons d ds ih =>
    have htail : s.declareAll (d :: ds) = (s.declare d).declareAll ds := rfl
    have hnames : (d :: ds).filterMap (Declaration.fieldName? entity) =
        [d].filterMap (Declaration.fieldName? entity) ++
          ds.filterMap (Declaration.fieldName? entity) := by
      rw [← List.filterMap_append, List.singleton_append]
    rw [htail, ih, declared_declare, List.append_assoc, added, added, added, declared_declare, hnames,
      Field.numbered_append, List.length_append, added, Field.length_numbered]

/-! ### The order that fields are shown in -/

theorem le_trans_order (f g h : Field) (hfg : decide (f.order ≤ g.order) = true)
    (hgh : decide (g.order ≤ h.order) = true) : decide (f.order ≤ h.order) = true :=
  decide_eq_true (Int32.le_trans (of_decide_eq_true hfg) (of_decide_eq_true hgh))

theorem le_total_order (f g : Field) :
    (decide (f.order ≤ g.order) || decide (g.order ≤ f.order)) = true := by
  simpa using Int32.le_total f.order g.order

theorem perm_fieldsOf (s : Store) (entity : Text) : (s.fieldsOf entity).Perm (s.declared entity) :=
  List.mergeSort_perm _ _

theorem inOrder_fieldsOf (s : Store) (entity : Text) : Field.InOrder (s.fieldsOf entity) :=
  (List.pairwise_mergeSort le_trans_order le_total_order (s.declared entity)).imp of_decide_eq_true

/-- Fields of the same order are shown as they were declared. -/
theorem atOrder_fieldsOf (s : Store) (entity : Text) (n : Int32) :
    Field.atOrder n (s.fieldsOf entity) = Field.atOrder n (s.declared entity) := by
  have hsame : (Field.atOrder n (s.declared entity)).Pairwise
      fun f g => decide (f.order ≤ g.order) = true := by
    refine List.pairwise_of_forall_mem_list fun f hf g hg => ?_
    have hf : f.order = n := by simpa using (List.mem_filter.1 hf).2
    have hg : g.order = n := by simpa using (List.mem_filter.1 hg).2
    simp [hf, hg]
  -- those of one order are in order already, so sorting keeps their sequence
  have hsublist : (Field.atOrder n (s.declared entity)).Sublist (s.fieldsOf entity) :=
    List.sublist_mergeSort le_trans_order le_total_order hsame List.filter_sublist
  have hfilter := hsublist.filter fun f => decide (f.order = n)
  rw [Field.atOrder, List.filter_filter] at hfilter
  simp only [Bool.and_self] at hfilter
  exact (hfilter.eq_of_length ((perm_fieldsOf s entity).filter _).length_eq.symm).symm

/-- The fields of an entity are the one list of those declared that is in order and keeps the sequence
of fields of the same order. -/
theorem fieldsOf_eq_iff {fs : List Field} : s.fieldsOf entity = fs ↔
    Field.InOrder fs ∧ ∀ n, Field.atOrder n fs = Field.atOrder n (s.declared entity) := by
  constructor
  · rintro rfl
    exact ⟨inOrder_fieldsOf s entity, atOrder_fieldsOf s entity⟩
  · rintro ⟨hfs, hsame⟩
    exact Field.eq_of_atOrder (inOrder_fieldsOf s entity) hfs fun n => by
      rw [atOrder_fieldsOf, hsame]

/-- Every field of an entity is shown as often as it was declared. -/
theorem count_fieldsOf (s : Store) (entity : Text) (f : Field) :
    (s.fieldsOf entity).count f = if f.entity = entity then s.fields.count f else 0 := by
  rw [(perm_fieldsOf s entity).count_eq, declared]
  split
  · next h => exact List.count_filter (by simpa using h)
  · next h => exact List.count_eq_zero.2 fun hf => h (by simpa using (List.mem_filter.1 hf).2)

/-- Fields that are declared come last just if that is in order. -/
theorem fieldsOf_declareAll_eq_append_iff (s : Store) (entity : Text) (ds : List Declaration) :
    (s.declareAll ds).fieldsOf entity = s.fieldsOf entity ++ s.added entity ds ↔
      Field.InOrder (s.fieldsOf entity ++ s.added entity ds) := by
  rw [fieldsOf_eq_iff, declared_declareAll]
  refine and_iff_left fun n => ?_
  rw [Field.atOrder_append, Field.atOrder_append, atOrder_fieldsOf]

theorem added_eq_nil_iff : s.added entity ds = [] ↔ ∀ name, Declaration.field entity name ∉ ds := by
  have hnames : ds.filterMap (Declaration.fieldName? entity) = [] ↔
      ∀ name, Declaration.field entity name ∉ ds := by
    rw [List.filterMap_eq_nil_iff]
    constructor
    · intro h name hmem
      simpa [Declaration.fieldName?] using h _ hmem
    · intro h d hd
      cases d with
      | field e name =>
        refine if_neg ?_
        rintro rfl
        exact h name hd
      | user u => rfl
      | fieldPermission p => rfl
      | actionPermission p => rfl
      | template e view body => rfl
  rw [← hnames, ← List.length_eq_zero_iff, added, Field.length_numbered, List.length_eq_zero_iff]

/-- As far as 32 bits reach, fields that are declared come last if no order of those that are there is
above the number of these. -/
theorem appends_iff_of_length (h : (s.declared entity).length + (s.added entity ds).length ≤ 2 ^ 31) :
    (s.declareAll ds).fieldsOf entity = s.fieldsOf entity ++ s.added entity ds ↔
      (∀ name, Declaration.field entity name ∉ ds) ∨
        ∀ f ∈ s.fieldsOf entity, f.order.toInt ≤ (s.declared entity).length := by
  have hnames : ds.filterMap (Declaration.fieldName? entity) = [] ↔ s.added entity ds = [] := by
    rw [← List.length_eq_zero_iff, ← List.length_eq_zero_iff, added, Field.length_numbered]
  rw [added, Field.length_numbered] at h
  rw [fieldsOf_declareAll_eq_append_iff, ← added_eq_nil_iff (s := s), ← hnames]
  exact Field.inOrder_append_numbered_iff h (inOrder_fieldsOf s entity)

/-- An entity that no field is added to shows what it showed. -/
theorem fieldsOf_declareAll_of_forall_not_mem (h : ∀ name, Declaration.field entity name ∉ ds) :
    (s.declareAll ds).fieldsOf entity = s.fieldsOf entity := by
  have hnil : s.added entity ds = [] := added_eq_nil_iff.2 h
  have happend := fieldsOf_declareAll_eq_append_iff s entity ds
  rw [hnil, List.append_nil] at happend
  exact happend.2 (inOrder_fieldsOf s entity)

/-- Where all fields of an entity were declared, none has an order above their number. -/
theorem toInt_order_le_of_built (hs : s = ({} : Store).declareAll ds)
    (h : (s.declared entity).length ≤ 2 ^ 31) {f : Field} (hf : f ∈ s.fieldsOf entity) :
    f.order.toInt ≤ (s.declared entity).length := by
  have hdeclared : s.declared entity =
      Field.numbered entity 0 (ds.filterMap (Declaration.fieldName? entity)) := by
    rw [hs, declared_declareAll]
    rfl
  have hmem := (perm_fieldsOf s entity).mem_iff.1 hf
  rw [hdeclared] at h hmem ⊢
  rw [Field.length_numbered] at h ⊢
  have := (Field.toInt_order_of_mem_numbered (by omega) hmem).2
  omega

/-- **Fields that are declared come last, unless one is numbered higher.** As far as 32 bits reach, the
fields that declarations add to an entity are shown behind those that it had just if there are none or no
order of these is above their number, and so they are where all of these were declared too; an entity
that no field is added to shows what it showed. Fields are always shown by their order, those of the same
order as they were declared, and each as often as it was declared. -/
theorem appends_declared_iff (s : Store) (entity : Text) (ds : List Declaration) :
    ((s.declared entity).length + (s.added entity ds).length ≤ 2 ^ 31 →
      ((s.declareAll ds).fieldsOf entity = s.fieldsOf entity ++ s.added entity ds ↔
        (∀ name, Declaration.field entity name ∉ ds) ∨
          ∀ f ∈ s.fieldsOf entity, f.order.toInt ≤ (s.declared entity).length) ∧
      ∀ built, s = ({} : Store).declareAll built →
        (s.declareAll ds).fieldsOf entity = s.fieldsOf entity ++ s.added entity ds) ∧
    ((∀ name, Declaration.field entity name ∉ ds) →
      (s.declareAll ds).fieldsOf entity = s.fieldsOf entity) ∧
    Field.InOrder (s.fieldsOf entity) ∧
    (∀ n, Field.atOrder n (s.fieldsOf entity) = Field.atOrder n (s.declared entity)) ∧
    ∀ f, (s.fieldsOf entity).count f = if f.entity = entity then s.fields.count f else 0 := by
  refine ⟨fun hlength => ⟨appends_iff_of_length hlength, fun built hbuilt => ?_⟩,
    fieldsOf_declareAll_of_forall_not_mem, inOrder_fieldsOf s entity, atOrder_fieldsOf s entity,
    count_fieldsOf s entity⟩
  exact (appends_iff_of_length hlength).2
    (.inr fun f hf => toInt_order_le_of_built hbuilt (by omega) hf)

/-- Behind two fields that were loaded in the other sequence, with orders below zero and at one, two
more are shown as they are declared; another entity shows what it showed. -/
theorem appends_declared_loaded :
    let s : Store :=
      { fields := [{ entity := "e".toList, name := "a".toList, order := 1 },
          { entity := "e".toList, name := "b".toList, order := -5 },
          { entity := "f".toList, name := "x".toList, order := 9 }] }
    let ds : List Declaration := [.field "e".toList "c".toList, .field "e".toList "d".toList]
    ((s.declareAll ds).fieldsOf "e".toList).map Field.name =
        ["b".toList, "a".toList, "c".toList, "d".toList] ∧
      (s.declareAll ds).fieldsOf "f".toList = s.fieldsOf "f".toList := by
  intro s ds
  have hlength : (s.declared "e".toList).length + (s.added "e".toList ds).length ≤ 2 ^ 31 := by decide
  have hshown : s.fieldsOf "e".toList =
      [{ entity := "e".toList, name := "b".toList, order := -5 },
        { entity := "e".toList, name := "a".toList, order := 1 }] := by
    simp [s, fieldsOf, List.mergeSort]
  have hlast := (appends_declared_iff s "e".toList ds).1 hlength |>.1.2
    (.inr (by rw [hshown]; decide))
  refine ⟨?_, (appends_declared_iff s "f".toList ds).2.1 (by simp [ds])⟩
  rw [hlast, hshown]
  decide

/-- A field that was loaded with the order five is shown behind the one that is declared after it, whose
order is one. -/
theorem not_appends_of_gap :
    let s : Store := { fields := [{ entity := "e".toList, name := "a".toList, order := 5 }] }
    let ds : List Declaration := [.field "e".toList "b".toList]
    ((s.declareAll ds).fieldsOf "e".toList).map Field.name = ["b".toList, "a".toList] ∧
      (s.declareAll ds).fieldsOf "e".toList ≠ s.fieldsOf "e".toList ++ s.added "e".toList ds := by
  intro s ds
  have hshown : ((s.declareAll ds).fieldsOf "e".toList).map Field.name =
      ["b".toList, "a".toList] := by
    simp [s, ds, fieldsOf, declareAll, declare, withField, List.mergeSort]
  have hbefore : s.fieldsOf "e".toList = s.fields := by simp [s, fieldsOf]
  refine ⟨hshown, fun h => ?_⟩
  rcases (appends_iff_of_length (by decide)).1 h with hnone | hle
  · exact hnone "b".toList List.mem_cons_self
  · rw [hbefore] at hle
    exact absurd (hle _ List.mem_cons_self) (by decide)

end Store

end MaskedViews
