/-
# Parts that two documents share

An item is untouched between two graphs if both have the same nodes below it. Untouched schemas are
read alike, so the whole catalog of operations is the same if all their schemas and all components
are untouched.
-/
import ApiSchema.Proofs.OpenApi.Alike

namespace ApiSchema

open List Relation

variable {inner : Item} {items : List Item}

/-! ## Untouched items -/

/-- What stands in a container, apart from keys. -/
def Node.contents : Node → List Item
  | .list items => items
  | .tuple items => items
  | .set _ => []
  | .map entries => entries.map (·.2)

namespace Graph

/-- The second item stands in the first one. -/
def Contains (graph : Graph) (outer inner : Item) : Prop :=
  ∃ node, graph.node? outer = some node ∧ inner ∈ node.contents

/-- Items that hold only each other are all that stands in them. -/
theorem mem_of_contains {graph : Graph} {item : Item}
    (hit : ∀ outer ∈ items, ((graph.node? outer).map Node.contents).getD [] ⊆ items)
    (hite : item ∈ items) (h : ReflTransGen graph.Contains item inner) : inner ∈ items := by
  induction h with
  | refl => exact hite
  | tail _ hc ih =>
    obtain ⟨node, hn, hi⟩ := hc
    refine hit _ ih ?_
    rw [hn]
    exact hi

/-- Both graphs have the same node for the item and for everything below it. -/
def Untouched (graph graph' : Graph) (item : Item) : Prop :=
  ∀ part, ReflTransGen graph.Contains item part → graph'.node? part = graph.node? part

namespace Untouched

variable {graph graph' : Graph} {item : Item}

theorem of_atom (value : Atom) : Untouched graph graph' (.atom value) := by
  intro part hp
  rcases ReflTransGen.cases_head hp with rfl | ⟨inner, ⟨node, hn, -⟩, -⟩
  · rfl
  · cases hn

section

variable (h : Untouched graph graph' item)

include h

theorem node?_eq : graph'.node? item = graph.node? item :=
  h item .refl

theorem of_mem {node : Node} (hn : graph.node? item = some node)
    (hi : inner ∈ node.contents) :
    Untouched graph graph' inner :=
  fun part hp => h part (.head ⟨node, hn, hi⟩ hp)

theorem map?_eq : graph'.map? item = graph.map? item := by
  rw [map?, map?, h.node?_eq]

theorem list?_eq : graph'.list? item = graph.list? item := by
  rw [list?, list?, h.node?_eq]

theorem get?_eq (key : String) : graph'.get? item key = graph.get? item key := by
  rw [get?, get?, h.map?_eq]

/-- The items in an untouched list are untouched. -/
theorem of_mem_list (hl : graph.list? item = some items) (hi : inner ∈ items) :
    Untouched graph graph' inner := by
  unfold list? at hl
  split at hl
  · rename_i items' hn
    cases hl
    exact h.of_mem hn hi
  · cases hl

/-- The values of an untouched map are untouched. -/
theorem of_mem_map {entries : List (Atom × Item)}
    (hm : graph.map? item = some entries) {entry : Atom × Item} (he : entry ∈ entries) :
    Untouched graph graph' entry.2 := by
  unfold map? at hm
  split at hm
  · rename_i entries' hn
    cases hm
    exact h.of_mem hn (mem_map_of_mem he)
  · cases hm

theorem of_get? {key : String}
    (hg : graph.get? item key = some inner) : Untouched graph graph' inner := by
  obtain ⟨entries, hm, hg⟩ := Option.bind_eq_some_iff.mp hg
  obtain ⟨entry, he, rfl⟩ := mem_map.mp (Assoc.mem_map_snd_of_get? hg)
  exact h.of_mem_map hm he

end

theorem unfold_eq (depth : ℕ) : ∀ {item : Item}, Untouched graph graph' item →
    ∀ path, graph'.unfold depth path item = graph.unfold depth path item := by
  induction depth with
  | zero =>
    intro item _ path
    cases item <;> rfl
  | succ depth ih =>
    intro item h path
    cases item with
    | atom value => rfl
    | node id =>
      have hs : graph'.nodes[id]? = graph.nodes[id]? := h.node?_eq
      simp only [unfold, hs]
      cases hn : graph.nodes[id]? with
      | none => rfl
      | some node =>
        have hi : ∀ inner ∈ node.contents,
            graph'.unfold depth (id :: path) inner = graph.unfold depth (id :: path) inner :=
          fun inner hm => ih (h.of_mem hn hm) _
        cases node with
        | list items | tuple items =>
          have hit : items.map (graph'.unfold depth (id :: path)) =
              items.map (graph.unfold depth (id :: path)) := map_congr_left hi
          simp only [hit]
        | set members => rfl
        | map entries =>
          have he : (entries.map fun entry =>
                (entry.1, graph'.unfold depth (id :: path) entry.2)) =
              entries.map fun entry => (entry.1, graph.unfold depth (id :: path) entry.2) :=
            map_congr_left fun entry hen => congrArg (Prod.mk entry.1)
              (hi entry.2 (mem_map_of_mem hen))
          simp only [he]

/-- Beyond the number of nodes, the depth does not matter. -/
theorem unfold_succ (depth : ℕ) : ∀ (item : Item) (path : List ℕ), path.Nodup →
    path ⊆ List.range graph.nodes.size → graph.nodes.size < depth + path.length →
      graph.unfold (depth + 1) path item = graph.unfold depth path item := by
  induction depth with
  | zero =>
    intro item path hn hp hl
    have hle := (hn.subperm hp).length_le
    rw [length_range] at hle
    omega
  | succ depth ih =>
    intro item path hn hp hl
    cases item with
    | atom value => rfl
    | node id =>
      by_cases hi : id ∈ path
      · simp only [unfold, contains_eq_mem, hi, decide_true, if_true]
      · cases hnd : graph.nodes[id]? with
        | none => simp only [unfold, hnd]
        | some node =>
          have hid : id ∈ List.range graph.nodes.size :=
            mem_range.mpr (Array.getElem?_eq_some_iff.mp hnd).1
          have hb : graph.unfold (depth + 1) (id :: path) =
              graph.unfold depth (id :: path) := by
            refine funext fun item => ih item (id :: path) ?_ ?_ ?_
            · exact nodup_cons.mpr ⟨hi, hn⟩
            · exact cons_subset.mpr ⟨hid, hp⟩
            · rw [length_cons]
              omega
          rw [unfold, unfold]
          simp only [hb]

theorem toValue_eq (h : Untouched graph graph' item)
    (hs : graph.nodes.size ≤ graph'.nodes.size) : graph'.toValue item = graph.toValue item := by
  have hd : ∀ more, graph.unfold (graph.nodes.size + 1 + more) [] item =
      graph.unfold (graph.nodes.size + 1) [] item := by
    intro more
    induction more with
    | zero => rfl
    | succ more ih =>
      rw [← ih]
      refine unfold_succ (graph.nodes.size + 1 + more) item [] nodup_nil
        (nil_subset _) ?_
      omega
  rw [toValue, toValue, unfold_eq _ h, ← hd (graph'.nodes.size - graph.nodes.size)]
  congr 1
  omega

end Untouched

end Graph

namespace OpenApi

/-! ## Reading -/

section

variable {graph graph' : Graph} {item part : Item}

section

variable (h : graph.Untouched graph' item)

include h

/-- What stands under a key of an untouched map is untouched. -/
theorem untouched_under (key : String) : graph.Untouched graph' (under graph item key) := by
  cases hg : graph.get? item key with
  | none =>
    rw [under, hg]
    exact .of_atom _
  | some inner =>
    rw [← eq_under_of_get? hg]
    exact h.of_get? hg

theorem untouched_of_mem_valuesOf
    (hp : part ∈ valuesOf graph item) : graph.Untouched graph' part := by
  obtain ⟨entry, he, rfl⟩ := mem_map.mp hp
  cases hm : graph.map? item with
  | none =>
    rw [hm] at he
    cases he
  | some entries =>
    rw [hm] at he
    exact h.of_mem_map hm he

/-- What is met when an untouched item is gone through is untouched. -/
theorem untouched_of_itemsOf (hi : itemsOf graph item = .ok items) (hin : inner ∈ items) :
    graph.Untouched graph' inner := by
  have ha : ∀ {values : List Atom}, inner ∈ values.map Item.atom →
      graph.Untouched graph' inner := by
    intro values hm
    obtain ⟨value, -, rfl⟩ := mem_map.mp hm
    exact Graph.Untouched.of_atom _
  cases item with
  | atom value =>
    cases value with
    | text s =>
      cases hi
      obtain ⟨c, -, rfl⟩ := mem_map.mp hin
      exact Graph.Untouched.of_atom _
    | bytes data =>
      cases hi
      obtain ⟨byte, -, rfl⟩ := mem_map.mp hin
      exact Graph.Untouched.of_atom _
    | _ => cases hi
  | node id =>
    simp only [itemsOf] at hi
    split at hi
    · rename_i node hn
      cases hi
      cases node with
      | list items | tuple items => exact h.of_mem hn hin
      | set members => exact ha hin
      | map entries =>
        have hk : (Node.map entries).items = (entries.map (·.1)).map .atom := by
          rw [List.map_map]
          rfl
        rw [hk] at hin
        exact ha hin
    · cases hi

theorem untouched_of_mem_membersOf
    (hp : part ∈ membersOf graph item) : graph.Untouched graph' part := by
  unfold membersOf at hp
  cases hi : itemsOf graph item with
  | error fault =>
    rw [hi] at hp
    cases hp
  | ok items =>
    rw [hi] at hp
    exact untouched_of_itemsOf h hi hp

theorem typesOf_of_untouched : typesOf graph' item = typesOf graph item := by
  rw [typesOf, typesOf, h.list?_eq]
  cases hl : graph.list? item with
  | none => rfl
  | some types =>
    dsimp only
    cases hf : types.filter (!·.isText "null") with
    | nil => rfl
    | cons type rest =>
      cases rest with
      | nil =>
        have hm : type ∈ types.filter (!·.isText "null") := by
          rw [hf]
          exact mem_singleton_self _
        have ht := h.of_mem_list hl (mem_of_mem_filter hm)
        simp only [ht.list?_eq]
      | cons _ _ => rfl

/-- The types in an untouched item are untouched. -/
theorem untouched_of_typesOf {type : Item}
    (ht : type ∈ (typesOf graph item).1.toList) : graph.Untouched graph' type := by
  rw [typesOf] at ht
  split at ht
  · rw [mem_singleton.mp ht]
    exact h
  · rename_i types hl
    have hi : ∀ inner ∈ types.filter (!·.isText "null"), graph.Untouched graph' inner :=
      fun inner hm => h.of_mem_list hl (mem_of_mem_filter hm)
    split at ht
    · rw [mem_singleton.mp ht]
      exact Graph.Untouched.of_atom _
    · rename_i only hf
      have ho : graph.Untouched graph' only := hi only (by simp [hf])
      cases honlyList : graph.list? only with
      | none =>
        rw [honlyList] at ht
        rw [mem_singleton.mp ht]
        exact ho
      | some inner =>
        rw [honlyList] at ht
        exact ho.of_mem_list honlyList ht
    · exact hi type ht

theorem requiredKeys_of_untouched (hm : graph.isMap item) (hm' : graph'.isMap item) :
    requiredKeys graph' item = requiredKeys graph item := by
  have hr := untouched_under h "required"
  have hu : under graph' item "required" = under graph item "required" := by
    rw [under, under, h.get?_eq]
  rw [requiredKeys, requiredKeys, field_eq_under hm, field_eq_under hm', hu, ok_bind,
    optionalItemsOf_eq_of_node? hr.node?_eq]
  refine bind_congr_of_ok fun items hi => ?_
  rw [mapM_congr_of_mem fun key hk => ?_]
  rw [eq_membersOf_of_optional hi] at hk
  rw [requiredKey, requiredKey, (untouched_of_mem_membersOf hr hk).node?_eq]

theorem enumSchema_of_untouched (hs : graph.nodes.size ≤ graph'.nodes.size) :
    enumSchema graph' item = enumSchema graph item := by
  unfold enumSchema
  rw [itemsOf_eq_of_node? h.node?_eq]
  refine ite_congr rfl (fun _ => rfl) fun _ => bind_congr_of_ok fun items hi => ?_
  have hv : (items.filter (!·.isNull)).map graph'.toValue =
      (items.filter (!·.isNull)).map graph.toValue :=
    map_congr_left fun item hit =>
      (untouched_of_itemsOf h hi (mem_of_mem_filter hit)).toValue_eq hs
  rw [hv]

/-! ## Schemas -/

/-- An untouched schema is read alike. -/
theorem readAlike_of_untouched (hs : graph.nodes.size ≤ graph'.nodes.size)
    (hm : graph.isMap item) :
    ReadAlike graph graph' item := by
  have hm' : graph'.isMap item := by
    rw [Graph.isMap, h.map?_eq]
    exact hm
  have hu : ∀ key, under graph' item key = under graph item key := by
    intro key
    rw [under, under, h.get?_eq]
  have ht := untouched_under h "type"
  constructor
  case types => rw [typesUnder, typesUnder, hu, typesOf_of_untouched ht]
  case nullable =>
    rw [allowsNull, allowsNull, hu, hu, typesOf_of_untouched ht,
      isBlank_eq_of_node? (untouched_under h "nullable").node?_eq]
  case get? => exact fun key _ => h.get?_eq key
  case container => exact fun key _ => (untouched_under h key).node?_eq
  case further => exact isBlank_eq_of_node? (untouched_under h _).node?_eq
  case required => exact requiredKeys_of_untouched h hm hm'
  case const => exact (untouched_under h "const").toValue_eq hs
  case enum => exact enumSchema_of_untouched (untouched_under h "enum") hs
  case shown =>
    intro type hmm
    rw [shown, shown, (untouched_of_typesOf ht hmm).toValue_eq hs]

/-- The parts of an untouched schema are untouched. -/
theorem untouched_of_holdsPart
    (hp : HoldsPart graph item part) : graph.Untouched graph' part := by
  have hm : ∀ {key}, part ∈ membersOf graph (under graph item key) →
      graph.Untouched graph' part :=
    fun hp => untouched_of_mem_membersOf (untouched_under h _) hp
  have hv : part ∈ valuesOf graph (under graph item "properties") →
      graph.Untouched graph' part :=
    fun hp => untouched_of_mem_valuesOf (untouched_under h _) hp
  have hmp : ∀ {key}, part ∈ mapsOf graph (under graph item key) →
      graph.Untouched graph' part := by
    intro key hp
    rw [(mem_mapsOf.mp hp).2]
    exact untouched_under h key
  have ht : ∀ type, part ∈ typedParts graph item type → graph.Untouched graph' part := by
    intro type hp
    unfold typedParts arrayParts objectParts at hp
    split at hp
    · cases hp
    · split at hp
      · split at hp
        · rename_i positions hps
          rw [eq_under_of_get? hps] at hp
          exact hm hp
        · exact hmp hp
      · split at hp
        · rcases mem_append.mp hp with hp | hp
          · exact hv hp
          · exact hmp (mem_of_mem_filter hp)
        · cases hp
  rcases hp.2 with hp | hp
  · simp only [walkedParts, mem_append, mem_flatMap] at hp
    rcases hp with ((hp | hp) | hp) | ⟨key, -, hp⟩
    · exact hmp hp
    · exact hv hp
    · exact hmp hp
    · exact hm hp
  · unfold describedParts at hp
    split at hp
    · cases hp
    · split at hp
      · cases hp
      · split at hp
        · rename_i members hg
          rw [eq_under_of_get? hg] at hp
          exact hm hp
        · split at hp
          · rename_i members hg
            cases ho : graph.get? item "oneOf" with
            | some found =>
              rw [ho] at hg
              cases hg
              rw [eq_under_of_get? ho] at hp
              exact hm hp
            | none =>
              rw [ho] at hg
              rw [eq_under_of_get? hg] at hp
              exact hm hp
          · obtain ⟨type, -, hp⟩ := mem_flatMap.mp hp
            exact ht type hp

end

/-- The catalog of operations with untouched schemas, in a document with untouched components. -/
theorem catalog_of_untouched (h : Agree graph graph') (hsz : graph.nodes.size ≤ graph'.nodes.size)
    (hc : graph.Untouched graph' (componentsItem graph)) {operations : List Operation}
    (hs : ∀ operation ∈ operations, ∀ schema ∈ operation.schemas graph,
      graph.Untouched graph' schema) (ids : Option (List String)) :
    catalog graph' operations ids = catalog graph operations ids := by
  have ha : Alike graph graph' (graph.Untouched graph') :=
    ⟨h, fun hsc => readAlike_of_untouched hsc hsz, untouched_of_holdsPart⟩
  exact ha.catalog_eq hc.node?_eq
    (fun _ => untouched_of_mem_valuesOf hc) hs ids

end

end OpenApi

end ApiSchema
