/-
# Two ways to allow null

A schema can say that null is allowed by a flag next to its type, or by a list of types with null in
it. Written in the other way, a schema has the same meaning, with whatever other keywords it has. So
a document keeps its catalog if some of its schemas are written in the other way, as long as these
maps are not read as anything but schemas: as data, as a map of properties, or as a list of members.
-/
import ApiSchema.Proofs.OpenApi.Untouched

namespace ApiSchema.OpenApi

open List

open Relation (ReflTransGen)

variable {outer value item schema : Item} {key : String} {graph graph' : Graph}
  {chosen : Item → Prop} {roots : List Item} {operations : List Operation}

/-! ## Schemas written in the other way -/

/-- The second document has the schema with a list of its type and null, where the first one has the
flag. -/
structure ListsNull (graph graph' : Graph) (schema : Item) : Prop where
  type : ∃ name list, name ≠ "null" ∧ graph.get? schema "type" = some (.text name) ∧
    graph'.get? schema "type" = some list ∧ graph'.list? list = some [.text name, .text "null"]
  nullable : graph.get? schema "nullable" = some (.atom (.bool true))
  nullable' : graph'.get? schema "nullable" = none
  others : ∀ key ∉ ["type", "nullable"], graph'.get? schema key = graph.get? schema key

/-- The second document has the chosen schemas written in the other way, and everything else as it
was. The lists are new. -/
structure NullRespelled (chosen : Item → Prop) (graph graph' : Graph) : Prop where
  root : graph'.root = graph.root
  size : graph.nodes.size ≤ graph'.nodes.size
  listed : ∀ {schema}, chosen schema → ListsNull graph graph' schema
  kept : ∀ {id}, id < graph.nodes.size → ¬ chosen (.node id) → graph'.nodes[id]? = graph.nodes[id]?
  added : ∀ {id node}, graph.nodes.size ≤ id → graph'.nodes[id]? = some node →
    ∃ items, node = .list items

/-- Whether every node that stands in a container is there. -/
def isComplete (graph : Graph) : Bool :=
  graph.nodes.toList.all fun node => node.contents.all fun
    | .node id => decide (id < graph.nodes.size)
    | .atom _ => true

theorem lt_size_of_contains (h : isComplete graph) {id : ℕ}
    (hc : graph.Contains outer (.node id)) : id < graph.nodes.size := by
  obtain ⟨node, hn, hm⟩ := hc
  cases outer with
  | atom value => cases hn
  | node outer =>
    have hn : node ∈ graph.nodes := Array.mem_of_getElem? hn
    have ha := all_eq_true.mp (all_eq_true.mp h node (Array.mem_toList_iff.mpr hn))
    simpa using ha _ hm

/-- What the schemas that can be reached have under keywords for something other than a schema, and
data below such keywords. -/
inductive ReadAsData (graph : Graph) (roots : List Item) : Item → Prop
  | components : ReadAsData graph roots (componentsItem graph)
  | keyword {schema : Item} {key : String} (hschema : Reaches graph roots schema)
      (hkey : key ∈ "required" :: containerKeys) : ReadAsData graph roots (under graph schema key)
  | data {schema part : Item} {key : String} (hschema : Reaches graph roots schema)
      (hkey : key ∈ ["const", "enum", "type"])
      (hpart : ReflTransGen graph.Contains (under graph schema key) part) :
      ReadAsData graph roots part

section

variable (h : graph.get? item key = some value)
include h

theorem isMap_of_get? : graph.isMap item := by
  obtain ⟨entries, hm, -⟩ := Option.bind_eq_some_iff.mp h
  rw [Graph.isMap, hm]
  rfl

/-- A map with a key is something. -/
theorem isBlank_of_get? : graph.isBlank item = false := by
  obtain ⟨entries, hm, hg⟩ := Option.bind_eq_some_iff.mp h
  by_contra hb
  rw [Bool.not_eq_false] at hb
  rw [entries_eq_nil_of_isBlank hb hm] at hg
  cases hg

theorem node?_of_get? : ∃ entries, graph.node? item = some (.map entries) := by
  obtain ⟨entries, hm, -⟩ := Option.bind_eq_some_iff.mp h
  unfold Graph.map? at hm
  split at hm
  · rename_i hn
    exact ⟨_, hn⟩
  · cases hm

end

namespace ListsNull

variable (h : ListsNull graph graph' schema)
include h

/-- The types apart from null are the same, and null is allowed in both ways. -/
theorem types_eq : typesUnder graph' schema = typesUnder graph schema ∧
    allowsNull graph' schema ∧ allowsNull graph schema := by
  obtain ⟨name, list, hn, ht, ht', hls⟩ := h.type
  have ho : (Item.text name).isText "null" = false := by
    simpa [Item.isText, Item.text, Item.text?] using hn
  have hnl : (Item.text "null").isText "null" := by decide
  have hl : typesOf graph' list = (.one (.text name), true) := by
    rw [typesOf, hls]
    simp only [filter_cons, filter_nil, any_cons, ho, hnl]
    rfl
  refine ⟨?_, ?_, ?_⟩
  · rw [typesUnder, typesUnder, ← eq_under_of_get? ht, ← eq_under_of_get? ht', hl]
    rfl
  · rw [allowsNull, ← eq_under_of_get? ht', hl, Bool.or_true]
  · rw [allowsNull, ← eq_under_of_get? h.nullable]
    rfl

end ListsNull

/-! ## Other items -/

namespace NullRespelled

variable (h : NullRespelled chosen graph graph')
include h

/-- An item that is not chosen is the same in both documents, or it is in neither of them a map. -/
theorem node?_or (hit : ¬ chosen item) : graph'.node? item = graph.node? item ∨ graph.node? item =
    none ∧ ∃ items, graph'.node? item = some (.list items) := by
  cases item with
  | atom value => exact Or.inl rfl
  | node id =>
    by_cases hi : id < graph.nodes.size
    · exact Or.inl (h.kept hi hit)
    · have hn : graph.node? (.node id) = none := Array.getElem?_eq_none (Nat.le_of_not_lt hi)
      cases hnd : graph'.node? (.node id) with
      | none => exact Or.inl hn.symm
      | some node =>
        obtain ⟨items, rfl⟩ := h.added (Nat.le_of_not_lt hi) hnd
        exact Or.inr ⟨hn, items, rfl⟩

theorem map?_eq (hi : ¬ chosen item) : graph'.map? item = graph.map? item := by
  rw [Graph.map?, Graph.map?]
  rcases h.node?_or hi with hn | ⟨hn, items, hn'⟩
  · rw [hn]
  · rw [hn, hn']

theorem isMap_eq (item : Item) : graph'.isMap item = graph.isMap item := by
  by_cases hi : chosen item
  · obtain ⟨name, list, -, ht, ht', -⟩ := (h.listed hi).type
    rw [isMap_of_get? ht, isMap_of_get? ht']
  · rw [Graph.isMap, Graph.isMap, h.map?_eq hi]

theorem get?_eq (item : Item) (hk : key ∉ ["type", "nullable"]) :
    graph'.get? item key = graph.get? item key := by
  by_cases hi : chosen item
  · exact (h.listed hi).others key hk
  · rw [Graph.get?, Graph.get?, h.map?_eq hi]

theorem requiredKey_eq (item : Item) : requiredKey graph' item = requiredKey graph item := by
  by_cases hi : chosen item
  · obtain ⟨name, list, -, ht, ht', -⟩ := (h.listed hi).type
    obtain ⟨entries, hn⟩ := node?_of_get? ht
    obtain ⟨entries', hn'⟩ := node?_of_get? ht'
    rw [requiredKey, requiredKey, hn, hn']
  · rw [requiredKey, requiredKey]
    rcases h.node?_or hi with hn | ⟨hn, items, hn'⟩
    · rw [hn]
    · rw [hn, hn']

section

variable (hcomplete : isComplete graph)
include hcomplete

theorem node?_eq_of_contains (ho : graph.Contains outer item)
    (hi : ¬ chosen item) : graph'.node? item = graph.node? item := by
  cases item with
  | atom value => rfl
  | node id => exact h.kept (lt_size_of_contains hcomplete ho) hi

theorem node?_under (key : String) (hu : ¬ chosen (under graph schema key)) :
    graph'.node? (under graph schema key) = graph.node? (under graph schema key) := by
  cases hg : graph.get? schema key with
  | none =>
    rw [under, hg]
    rfl
  | some value =>
    rw [← eq_under_of_get? hg] at hu ⊢
    obtain ⟨entries, hn⟩ := node?_of_get? hg
    obtain ⟨entries', hm, hv⟩ := Option.bind_eq_some_iff.mp hg
    rw [Graph.map?, hn] at hm
    cases hm
    exact h.node?_eq_of_contains hcomplete ⟨_, hn, Assoc.mem_map_snd_of_get? hv⟩ hu

theorem isBlank_under (item : Item) (key : String) :
    graph'.isBlank (under graph item key) = graph.isBlank (under graph item key) := by
  by_cases hu : chosen (under graph item key)
  · obtain ⟨name, list, -, ht, ht', -⟩ := (h.listed hu).type
    rw [isBlank_of_get? ht, isBlank_of_get? ht']
  · exact isBlank_eq_of_node? (h.node?_under hcomplete key hu)

/-- Nothing changes below a keyword if nothing there is chosen. -/
theorem untouched_under (hb : ∀ part,
    ReflTransGen graph.Contains (under graph schema key) part → ¬ chosen part) :
    graph.Untouched graph' (under graph schema key) := by
  intro part hp
  rcases ReflTransGen.cases_tail hp with rfl | ⟨outer, -, hc⟩
  · exact h.node?_under hcomplete key (hb _ .refl)
  · exact h.node?_eq_of_contains hcomplete hc (hb part hp)

/-- A schema with all that is not a schema below its keywords unchanged is read alike. -/
theorem readAlike (hd : ∀ item, chosen item → ¬ ReadAsData graph roots item)
    (hs : Reaches graph roots schema) (hm : graph.isMap schema) :
    ReadAlike graph graph' schema := by
  have ho : ∀ key ∉ ["type", "nullable"], graph'.get? schema key = graph.get? schema key :=
    fun _ hk => h.get?_eq schema hk
  have hu : ∀ key ∈ ["const", "enum", "type"],
      graph.Untouched graph' (under graph schema key) := fun key hk =>
    h.untouched_under hcomplete fun part hp hc =>
      hd part hc (.data hs hk hp)
  have hky : ∀ key ∈ "required" :: containerKeys,
      graph'.node? (under graph schema key) = graph.node? (under graph schema key) :=
    fun key hk => h.node?_under hcomplete key fun hc =>
      hd _ hc (.keyword hs hk)
  have ht : typesUnder graph' schema = typesUnder graph schema ∧
      allowsNull graph' schema = allowsNull graph schema := by
    by_cases hc : chosen schema
    · obtain ⟨ht, hn', hn⟩ := (h.listed hc).types_eq
      exact ⟨ht, hn'.trans hn.symm⟩
    · have hun : ∀ key, under graph' schema key = under graph schema key := fun key => by
        rw [under, under, Graph.get?, Graph.get?, h.map?_eq hc]
      rw [typesUnder, allowsNull, hun, hun,
        typesOf_of_untouched (hu "type" (by decide)), h.isBlank_under hcomplete]
      exact ⟨rfl, rfl⟩
  constructor
  case types => exact ht.1
  case nullable => exact ht.2
  case get? => exact ho
  case container => exact (forall_mem_cons.mp hky).2
  case further => exact h.isBlank_under hcomplete _ _
  case required =>
    have hr : under graph' schema "required" = under graph schema "required" := by
      rw [under, under, ho "required" (by decide)]
    rw [requiredKeys, requiredKeys, field_eq_under hm,
      field_eq_under ((h.isMap_eq schema).trans hm), hr, ok_bind, ok_bind,
      optionalItemsOf_eq_of_node? (hky "required" (by decide)), funext h.requiredKey_eq]
  case const => exact (hu "const" (by decide)).toValue_eq h.size
  case enum => exact enumSchema_of_untouched (hu "enum" (by decide)) h.size
  case shown =>
    intro type hmm
    have hty := untouched_of_typesOf (hu "type" (by decide)) hmm
    rw [shown, shown, hty.toValue_eq h.size]

theorem agree : Agree graph graph' where
  root := h.root
  isMap := h.isMap_eq
  get? item key hk := h.get?_eq item fun hm => by
    revert hk
    rcases mem_cons.mp hm with rfl | hm
    · decide
    · rw [mem_singleton.mp hm]
      decide
  isBlank item key _ := h.isBlank_under hcomplete item key

end

end NullRespelled

/-! ## Catalogs -/

/-- The components of a document and the schemas of its operations. -/
def schemaRoots (graph : Graph) (operations : List Operation) : List Item :=
  valuesOf graph (componentsItem graph) ++ operations.flatMap (·.schemas graph)

/-- A catalog does not change if null is listed among the types of some schemas where they had a
flag for it, whatever other keywords they have and wherever they stand, as long as none of them is
read as anything but a schema. -/
theorem null_among_types_keeps_catalog (h : NullRespelled chosen graph graph')
    (hcomplete : isComplete graph = true)
    (hdata : ∀ item, chosen item → ¬ ReadAsData graph (schemaRoots graph operations) item)
    (ids : Option (List String)) :
    catalog graph' operations ids = catalog graph operations ids := by
  have ha : Alike graph graph' (Reaches graph (schemaRoots graph operations)) := by
    refine ⟨h.agree hcomplete, fun hs hm => h.readAlike hcomplete hdata hs hm, ?_⟩
    rintro schema part ⟨root, hr, hpt⟩ hp
    exact ⟨root, hr, hpt.tail hp⟩
  have hrt : ∀ root ∈ schemaRoots graph operations,
      Reaches graph (schemaRoots graph operations) root := fun root hr => ⟨root, hr, .refl⟩
  refine ha.catalog_eq ?_ (fun value hv => hrt value (mem_append_left _ hv))
    (fun operation ho schema hs => hrt schema (mem_append_right _
      (mem_flatMap.mpr ⟨operation, ho, hs⟩))) ids
  exact h.node?_under hcomplete "schemas" fun hc => hdata _ hc .components

/-! ## Sizes of pets -/

/-- The entries of a schema that say with a flag that null is allowed. -/
def flagged (name : String) : List (Atom × Item) :=
  [(.text "type", .text name), (.text "nullable", .atom (.bool true))]

theorem listsNull_of_node? {name : String} {rest : List (Atom × Item)} {list : Item}
    (hn : name ≠ "null") (hnd : graph.node? schema = some (.map (flagged name ++ rest)))
    (hn' : graph'.node? schema = some (.map ((.text "type", list) :: rest)))
    (hl : graph'.list? list = some [.text name, .text "null"])
    (hr : Assoc.get? rest (.text "nullable") = none) : ListsNull graph graph' schema := by
  have hg : ∀ key, graph.get? schema key = Assoc.get? (flagged name ++ rest) (.text key) := by
    intro key
    rw [Graph.get?, Graph.map?, hnd]
    rfl
  have hg' : ∀ key, graph'.get? schema key =
      Assoc.get? ((.text "type", list) :: rest) (.text key) := by
    intro key
    rw [Graph.get?, Graph.map?, hn']
    rfl
  refine ⟨⟨name, list, hn, hg _, hg' _, hl⟩, hg _, ?_, fun key hk => ?_⟩
  · rw [hg', Assoc.get?_cons, if_neg (by decide), hr]
  · simp only [mem_cons, not_mem_nil, or_false, not_or] at hk
    rw [hg, hg', flagged, cons_append, cons_append, nil_append]
    simp only [Assoc.get?_cons, beq_text_iff, Atom.text.injEq, Ne.symm hk.1, Ne.symm hk.2,
      if_false]

theorem nullRespelled_append {nodes nodes' lists : Array Node} {root : Item}
    (hs : nodes'.size = nodes.size) (hls : ∀ node ∈ lists, ∃ items, node = .list items)
    (hk : ∀ id, ¬ chosen (.node id) → nodes'[id]? = nodes[id]?)
    (hl : ∀ {schema}, chosen schema → ListsNull ⟨nodes, root⟩ ⟨nodes' ++ lists, root⟩ schema) :
    NullRespelled chosen ⟨nodes, root⟩ ⟨nodes' ++ lists, root⟩ where
  root := rfl
  size := by simp [hs]
  listed := hl
  kept := by
    intro id hi ho
    rw [← hk id ho]
    exact Array.getElem?_append_left (hs ▸ hi)
  added := by
    intro id node hi hn
    have hi : nodes'.size ≤ id := hs ▸ hi
    rw [Array.getElem?_append_right hi] at hn
    exact hls node (Array.mem_of_getElem? hn)

/-- The nodes of a document with components for pets and their sizes. -/
def petNodes (size pet : List (Atom × Item)) : Array Node :=
  #[.map (size ++ [(.text "enum", .node 1)]), .list [.text "small", .null],
    .map (pet ++ [(.text "properties", .node 3)]),
    .map [(.text "size", .node 0), (.text "parent", .node 2)],
    .map [(.text "Pet", .node 2), (.text "Size", .node 0)], .map [(.text "schemas", .node 4)],
    .map [(.text "components", .node 5)]]

/-- A pet and its size may be null, which they say with flags. -/
def flaggedPets : Graph := ⟨petNodes (flagged "string") (flagged "object"), .node 6⟩

/-- The same document with lists of types. -/
def listedPets : Graph :=
  ⟨petNodes [(.text "type", .node 7)] [(.text "type", .node 8)] ++
    #[.list [.text "string", .text "null"], .list [.text "object", .text "null"]], .node 6⟩

/-- The operation that gives a pet. -/
def showPet : Operation := ⟨.text "showPet", "get", .text "/", .null, .node 2, [], []⟩

theorem nullRespelled_flaggedPets :
    NullRespelled (· ∈ [.node 0, .node 2]) flaggedPets listedPets := by
  refine nullRespelled_append rfl ?_ (fun id hi => ?_) fun hs => ?_
  · simp
  · match id with
    | 0 => exact absurd (mem_cons_self ..) hi
    | 2 => exact absurd (mem_cons_of_mem _ (mem_cons_self ..)) hi
    | 1 | 3 | 4 | 5 | 6 => rfl
    | n + 7 => simp [petNodes]
  · rcases mem_cons.mp hs with rfl | hs
    · exact listsNull_of_node? (by decide) rfl rfl rfl rfl
    · rw [mem_singleton.mp hs]
      exact listsNull_of_node? (by decide) rfl rfl rfl rfl

/-- Neither the pet nor its size is read as anything but a schema. -/
theorem not_readAsData_flaggedPets (h : item ∈ [Item.node 0, .node 2]) :
    ¬ ReadAsData flaggedPets (schemaRoots flaggedPets [showPet]) item := by
  -- All schemas that are reached, and all data below their keywords.
  let schemas : List Item := [.null, .node 0, .node 2]
  let data : List Item := [.null, .text "string", .text "object", .text "small", .node 1]
  have hsc : ∀ {schema}, Reaches flaggedPets (schemaRoots flaggedPets [showPet]) schema →
      schema ∈ schemas := mem_of_reaches (by decide +kernel) (by decide +kernel)
  have hd : ∀ {outer part}, outer ∈ data → ReflTransGen flaggedPets.Contains outer part →
      part ∈ data := Graph.mem_of_contains (by decide +kernel)
  intro hr
  cases hr with
  | components => exact absurd h (by decide +kernel)
  | keyword hs hk =>
    have hky : ∀ schema ∈ schemas, ∀ key ∈ "required" :: containerKeys,
        under flaggedPets schema key ∉ [Item.node 0, .node 2] := by decide +kernel
    exact hky _ (hsc hs) _ hk h
  | data hs hk hp =>
    have hu : ∀ schema ∈ schemas, ∀ key ∈ ["const", "enum", "type"],
        under flaggedPets schema key ∈ data := by decide +kernel
    have ho : ∀ item ∈ data, item ∉ [Item.node 0, .node 2] := by decide
    exact ho _ (hd (hu _ (hsc hs) _ hk) hp) h

/-- Pets have the same catalog with flags and with lists. -/
theorem catalog_listedPets : NullRespelled (· ∈ [.node 0, .node 2]) flaggedPets listedPets ∧
      catalog listedPets [showPet] none = catalog flaggedPets [showPet] none :=
  ⟨nullRespelled_flaggedPets, null_among_types_keeps_catalog nullRespelled_flaggedPets
    (by decide +kernel) (fun _ h => not_readAsData_flaggedPets h) none⟩

/-- The nodes of a document with a component for names, which is also a constant. -/
def nameNodes (name : List (Atom × Item)) : Array Node :=
  #[.map name, .map [(.text "const", .node 0)], .map [(.text "Name", .node 0)],
    .map [(.text "schemas", .node 2)], .map [(.text "components", .node 3)]]

/-- A name may be null, which it says with a flag. -/
def flaggedName : Graph := ⟨nameNodes (flagged "string"), .node 4⟩

/-- The same document with a list of types. -/
def listedName : Graph :=
  ⟨nameNodes [(.text "type", .node 5)] ++ #[.list [.text "string", .text "null"]], .node 4⟩

/-- The keys of the constants that an operation gives. -/
def constantKeys (graph : Graph) (operation : Operation) : Option (List (List Atom)) :=
  (catalog graph [operation] none).toOption.map fun result => result.entries.filterMap fun entry =>
    match entry.schema with
    | .literal (.map entries) => some (entries.map (·.1))
    | _ => none

/-- A constant shows in which way it is written that null is allowed. -/
theorem null_among_types_changes_constant :
    NullRespelled (· ∈ [.node 0]) flaggedName listedName ∧ isComplete flaggedName = true ∧
      ∃ operation, constantKeys flaggedName operation = some [[.text "type", .text "nullable"]] ∧
        constantKeys listedName operation = some [[.text "type"]] := by
  refine ⟨nullRespelled_append rfl ?_ (fun id hid => ?_) fun hs => ?_, by decide +kernel,
    ⟨.text "getName", "get", .text "/", .null, .node 1, [], []⟩, by decide +kernel,
    by decide +kernel⟩
  · simp
  · match id with
    | 0 => exact absurd (mem_cons_self ..) hid
    | 1 | 2 | 3 | 4 => rfl
    | n + 5 => simp [nameNodes]
  · rw [mem_singleton.mp hs]
    exact listsNull_of_node? (by decide) rfl rfl rfl rfl

end ApiSchema.OpenApi
