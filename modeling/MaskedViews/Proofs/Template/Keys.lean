import MaskedViews.Proofs.Template.Agreement

/-!
# Keys that a template names

A template names keys of a record: the first keys of its placeholders, of its repeated blocks and of
its conditions, at whatever depth they stand. What a record has under other keys does not show, so
two records with the same values under the keys that a template names are rendered alike
(`Template.renders_alike_of_keys`). Inside a repeated block the scope is an item, while conditions
still look at the record; both are taken from the same place in the two records.
-/

namespace MaskedViews

namespace Node

mutual

/-- The keys that a node names. -/
def keys : Node → List Text
  | .literal _ => []
  | .placeholder path _ => [fieldRoot path]
  | .each name body => fieldRoot name :: keysOf body
  | .cond condition body => condition.path?.toList.map fieldRoot ++ keysOf body

/-- The keys that nodes name. -/
def keysOf : List Node → List Text
  | [] => []
  | node :: nodes => node.keys ++ keysOf nodes

end

mutual

/-- A node reads only paths under the keys that it names. -/
theorem reads_keys {P : Text → Prop} (node : Node) (h : ∀ key ∈ node.keys, P key) :
    node.Reads fun path => P (fieldRoot path) := by
  cases node with
  | literal s => trivial
  | placeholder path raw => exact h _ (by simp [keys])
  | each name body =>
    rw [keys, List.forall_mem_cons] at h
    exact ⟨h.1, allRead_keysOf body h.2⟩
  | cond condition body =>
    rw [keys, List.forall_mem_append, List.forall_mem_map] at h
    exact ⟨fun path hpath => h.1 path (Option.mem_toList.2 hpath), allRead_keysOf body h.2⟩

/-- Nodes read only paths under the keys that they name. -/
theorem allRead_keysOf {P : Text → Prop} (nodes : List Node) (h : ∀ key ∈ keysOf nodes, P key) :
    AllRead (fun path => P (fieldRoot path)) nodes := by
  cases nodes with
  | nil => trivial
  | cons node nodes =>
    rw [keysOf, List.forall_mem_append] at h
    exact allRead_cons.2 ⟨reads_keys node h.1, allRead_keysOf nodes h.2⟩

end

end Node

namespace Json

/-- A record without keys: null, the empty object and all that is no object. -/
def IsKeyless (v : Json) : Prop := ∀ members, v = .object members → members = []

theorem member?_of_isKeyless {v : Json} (h : v.IsKeyless) (key : Text) : v.member? key = none := by
  cases v with
  | object members => rw [h members rfl, member?, find?_nil]
  | _ => rfl

/-- What stands under another key does not matter to the value under a key. -/
theorem find?_append_cons_of_ne {key : Text} {m : Text × Json} (h : m.1 ≠ key)
    (before after : List (Text × Json)) :
    find? key (before ++ m :: after) = find? key (before ++ after) := by
  induction before with
  | nil => rw [List.nil_append, find?_cons, if_neg h, List.nil_append]
  | cons n before ih => rw [List.cons_append, find?_cons, ih, List.cons_append, find?_cons]

end Json

namespace Template

/-- The keys that a template names: the first key of every placeholder, of every repeated block and
of every condition in it. -/
def keys (t : Template) : List Text := Node.keysOf t.nodes

/-- A template renders alike for two records with the same values under the keys that it names. -/
theorem render_eq_of_keys {t : Template} {v w : Json}
    (h : ∀ key ∈ t.keys, v.member? key = w.member? key) : t.render v = t.render w := by
  have hagree : Node.Agree (fun path => v.member? (fieldRoot path) = w.member? (fieldRoot path)) v w :=
    fun _ hpath => Json.lookup_eq_of_member? hpath
  exact Node.renderAll_eq_of_agree hagree hagree t.nodes
    (Node.allRead_keysOf (P := fun key => v.member? key = w.member? key) t.nodes h)

/-- **Rendering reads only the keys that a template names.** Two records with the same value, or both
with none, under each of these keys are rendered alike; so are all records without keys, whatever
the template is. -/
theorem renders_alike_of_keys (template : Text) (v w : Json) :
    ((∀ key ∈ (parse template).keys, v.member? key = w.member? key) →
      MaskedViews.render template v = MaskedViews.render template w) ∧
    (v.IsKeyless → w.IsKeyless → MaskedViews.render template v = MaskedViews.render template w) := by
  refine ⟨render_eq_of_keys, fun hv hw => render_eq_of_keys fun key _ => ?_⟩
  rw [Json.member?_of_isKeyless hv, Json.member?_of_isKeyless hw]

/-- A condition on a record inside a block over its rows: what the record has under another key does
not show, and a list is rendered like null. -/
theorem renders_alike_of_keys_rows :
    let template : Text := [Token.tag "#rows".toList, .tag "#if urgent".toList, .text ['!'],
      .tag "/if".toList, .tag "sku.code".toList, .tag "/rows".toList].flatMap Token.source
    let rows : Json := .array [.object [("sku".toList, .object [("code".toList, .string ['A'])])]]
    let record (salary : Json) : Json := .object
      ([("rows".toList, rows)] ++ ("salary".toList, salary) :: [("urgent".toList, .bool true)])
    MaskedViews.render template (record (.string ['1'])) = MaskedViews.render template (record .null) ∧
      MaskedViews.render template (.array [record .null]) = MaskedViews.render template .null := by
  intro template rows record
  have hkeys : (parse template).keys = ["rows".toList, "urgent".toList, "sku".toList] := by
    decide +kernel
  refine ⟨(renders_alike_of_keys template _ _).1 fun key hkey => ?_,
    (renders_alike_of_keys template _ _).2 ?_ ?_⟩
  · rw [hkeys] at hkey
    have hne : "salary".toList ≠ key := by
      rintro rfl
      exact absurd hkey (by decide)
    have hmember (salary : Json) : (record salary).member? key =
        Json.find? key ([("rows".toList, rows)] ++ [("urgent".toList, .bool true)]) :=
      Json.find?_append_cons_of_ne hne _ _
    rw [hmember, hmember]
  · exact fun members h => by cases h
  · exact fun members h => by cases h

end Template

end MaskedViews
