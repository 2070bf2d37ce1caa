/-
# Documents that are read alike

A catalog is made by looking at schemas one layer at a time. Two documents in which every schema
that is come to looks the same, layer by layer, have the same catalogs, whatever else is different
between them.
-/
import ApiSchema.Proofs.OpenApi.Restriction

namespace ApiSchema

open List

variable {operations : List Operation}

/-! ## Steps that agree -/

section

variable {ε σ α β : Type} {attempt : Except ε α} {elements : List α}

theorem ok_bind (value : α) (next : α → Except ε β) : (Except.ok value >>= next) = next value := rfl

theorem error_bind (fault : ε) (next : α → Except ε β) :
    (Except.error fault >>= next) = .error fault := rfl

theorem bind_congr_of_ok {next next' : α → Except ε β}
    (h : ∀ value, attempt = .ok value → next value = next' value) :
    attempt >>= next = attempt >>= next' := by
  cases attempt with
  | error fault => rfl
  | ok value => exact h value rfl

theorem lift_bind_congr {next next' : α → StateT σ (Except ε) β}
    (h : ∀ value, attempt = .ok value → next value = next' value) :
    (liftM attempt >>= next : StateT σ (Except ε) β) = liftM attempt >>= next' := by
  cases attempt with
  | error fault => rfl
  | ok value => exact h value rfl

variable {m : Type → Type} [Monad m]

/-- Steps that agree for each element and any intermediate result give the same result. -/
theorem foldlM_congr_of_mem {step step' : β → α → m β}
    (h : ∀ element ∈ elements, ∀ value, step value element = step' value element) (start : β) :
    elements.foldlM step start = elements.foldlM step' start := by
  induction elements generalizing start with
  | nil => rfl
  | cons element rest ih =>
    rw [foldlM_cons, h element (mem_cons_self ..)]
    exact bind_congr fun value =>
      ih (forall_mem_cons.mp h).2 value

/-- Steps that agree for each element do the same. -/
theorem forM_congr_of_mem {step step' : α → m PUnit}
    (h : ∀ element ∈ elements, step element = step' element) :
    elements.forM step = elements.forM step' := by
  induction elements with
  | nil => rfl
  | cons element rest ih =>
    change (step element >>= fun _ => rest.forM step) =
      (step' element >>= fun _ => rest.forM step')
    rw [h element (mem_cons_self ..), ih (forall_mem_cons.mp h).2]

end

/-- What is read under a key stands in the map. -/
theorem Assoc.mem_map_snd_of_get? {κ α : Type} [BEq κ] {entries : List (κ × α)} {key : κ}
    {value : α} (h : Assoc.get? entries key = some value) : value ∈ entries.map (·.2) := by
  induction entries with
  | nil => cases h
  | cons entry rest ih =>
    rw [Assoc.get?_cons] at h
    split at h
    · cases h
      exact mem_cons_self ..
    · exact mem_cons_of_mem _ (ih h)

namespace OpenApi

variable {graph graph' : Graph} {schema item : Item} {components : List (Atom × Item)}
  {alike : Item → Prop}

/-! ## Reading -/

theorem field_eq_ite (item : Item) (key : String) : field graph item key =
    if graph.isMap item then .ok (under graph item key) else .error .notAMap := by
  rw [field, Graph.isMap, under, Graph.get?]
  cases graph.map? item <;> rfl

theorem field_eq_under (h : graph.isMap item) (key : String) :
    field graph item key = .ok (under graph item key) := by
  rw [field_eq_ite, if_pos h]

section

variable {item : Item} (h : graph'.node? item = graph.node? item)
include h

theorem isBlank_eq_of_node? : graph'.isBlank item = graph.isBlank item := by
  cases item with
  | atom value => rfl
  | node id =>
    have hn : graph'.nodes[id]? = graph.nodes[id]? := h
    rw [Graph.isBlank, Graph.isBlank, hn]

theorem entriesOf_eq_of_node? : entriesOf graph' item = entriesOf graph item := by
  rw [entriesOf, entriesOf, isBlank_eq_of_node? h, Graph.map?, Graph.map?, h]

theorem itemsOf_eq_of_node? : itemsOf graph' item = itemsOf graph item := by
  cases item with
  | atom value => cases value <;> rfl
  | node id =>
    have hn : graph'.nodes[id]? = graph.nodes[id]? := h
    simp only [itemsOf, hn]

theorem optionalItemsOf_eq_of_node? : optionalItemsOf graph' item = optionalItemsOf graph item := by
  rw [optionalItemsOf, optionalItemsOf, isBlank_eq_of_node? h, itemsOf_eq_of_node? h]

end

/-! ## One layer of a schema -/

/-- The types of a schema, null apart. -/
def typesUnder (graph : Graph) (schema : Item) : Types :=
  (typesOf graph (under graph schema "type")).1

/-- Whether a schema says in one way or another that null is allowed. -/
def allowsNull (graph : Graph) (schema : Item) : Bool :=
  !graph.isBlank (under graph schema "nullable") ||
    (typesOf graph (under graph schema "type")).2

/-- The keys of a schema under which containers of schemas stand. -/
def containerKeys : List String := ["properties", "allOf", "oneOf", "anyOf", "prefixItems"]

/-- Both documents have the same to say about a schema, as far as it does not depend on what the
schemas inside of it are. -/
structure ReadAlike (graph graph' : Graph) (schema : Item) : Prop where
  types : typesUnder graph' schema = typesUnder graph schema
  nullable : allowsNull graph' schema = allowsNull graph schema
  get? : ∀ key ∉ ["type", "nullable"], graph'.get? schema key = graph.get? schema key
  container : ∀ key ∈ containerKeys,
    graph'.node? (under graph schema key) = graph.node? (under graph schema key)
  further : graph'.isBlank (under graph schema "additionalProperties") =
    graph.isBlank (under graph schema "additionalProperties")
  required : requiredKeys graph' schema = requiredKeys graph schema
  const : graph'.toValue (under graph schema "const") = graph.toValue (under graph schema "const")
  enum : enumSchema graph' (under graph schema "enum") =
    enumSchema graph (under graph schema "enum")
  shown : ∀ type ∈ (typesUnder graph schema).toList, shown graph' type = shown graph type

/-- What stands under a key of a map. -/
theorem eq_under_of_get? {value : Item} {key : String}
    (h : graph.get? item key = some value) : value = under graph item key := by
  rw [under, h]
  rfl

namespace ReadAlike

variable {convert : Converter} (h : ReadAlike graph graph' schema)
  (hmaps : ∀ item, graph'.isMap item = graph.isMap item) (hmap : graph.isMap schema)
include h hmaps hmap

theorem field_eq (key : String) (hk : key ∉ ["type", "nullable"]) :
    field graph' schema key = .ok (under graph schema key) := by
  rw [field_eq_under ((hmaps schema).trans hmap), under, under, h.get? key hk]

/-- The same parts are gone through. -/
theorem walkedGroups_eq : walkedGroups graph' schema = walkedGroups graph schema := by
  have hr : ∀ item, mapsOf graph' item = mapsOf graph item := fun item => by
    rw [mapsOf, mapsOf, hmaps]
  have hm : ∀ key ∈ ["allOf", "oneOf", "anyOf"],
      (field graph' schema key >>= optionalItemsOf graph') =
        field graph schema key >>= optionalItemsOf graph := by
    intro key hk
    have hl : ∀ key ∈ ["allOf", "oneOf", "anyOf"],
        key ∉ ["type", "nullable"] ∧ key ∈ containerKeys := by decide
    rw [h.field_eq hmaps hmap key (hl key hk).1, field_eq_under hmap]
    exact optionalItemsOf_eq_of_node? (h.container key (hl key hk).2)
  unfold walkedGroups
  rw [map_congr_left hm, h.field_eq hmaps hmap "items" (by decide),
    h.field_eq hmaps hmap "properties" (by decide),
    h.field_eq hmaps hmap "additionalProperties" (by decide), field_eq_under hmap "items",
    field_eq_under hmap "properties", field_eq_under hmap "additionalProperties"]
  simp only [ok_bind, hr, entriesOf_eq_of_node? (h.container "properties" (by decide))]

theorem objectSchema_eq : objectSchema ⟨graph', components⟩ convert schema = objectSchema ⟨graph,
    components⟩ convert schema := by
  have hp := h.container "properties" (by decide)
  unfold objectSchema
  dsimp only
  rw [h.field_eq hmaps hmap "properties" (by decide),
    h.field_eq hmaps hmap "additionalProperties" (by decide), field_eq_under hmap "properties",
    field_eq_under hmap "additionalProperties"]
  change (if _ then _ else _) = (if _ then _ else _)
  rw [isBlank_eq_of_node? hp, hmaps, h.further, h.required,
    entriesOf_eq_of_node? hp]

theorem arraySchema_eq : arraySchema ⟨graph', components⟩ convert schema = arraySchema ⟨graph,
    components⟩ convert schema := by
  unfold arraySchema
  dsimp only
  rw [h.get? "prefixItems" (by decide), h.field_eq hmaps hmap "items" (by decide),
    field_eq_under hmap "items"]
  split
  · rename_i positions hp
    rw [itemsOf_eq_of_node? (eq_under_of_get? hp ▸ h.container "prefixItems" (by decide))]
  · change (if _ then _ else _) = (if _ then _ else _)
    rw [hmaps]

theorem typedSchema_eq {type : Item} (hty : type ∈ (typesUnder graph schema).toList) :
    typedSchema ⟨graph', components⟩ convert schema type =
      typedSchema ⟨graph, components⟩ convert schema type := by
  have ht : textSchema ⟨graph', components⟩ schema = textSchema ⟨graph, components⟩ schema := by
    unfold textSchema
    rw [h.field_eq hmaps hmap "format" (by decide), field_eq_under hmap "format"]
  unfold typedSchema
  dsimp only
  rw [ht, h.arraySchema_eq hmaps hmap, h.objectSchema_eq hmaps hmap,
    h.get? "properties" (by decide), h.get? "additionalProperties" (by decide), h.shown type hty]

theorem bareSchema_eq : bareSchema ⟨graph', components⟩ convert schema (typesUnder graph schema) =
    bareSchema ⟨graph, components⟩ convert schema (typesUnder graph schema) := by
  have hi : ∀ {key : String} {members : Item}, key ∈ containerKeys →
      graph.get? schema key = some members → itemsOf graph' members = itemsOf graph members :=
    fun hk hm =>
      itemsOf_eq_of_node? (eq_under_of_get? hm ▸ h.container _ hk)
  unfold bareSchema
  dsimp only
  rw [h.get? "const" (by decide), h.get? "enum" (by decide), h.get? "allOf" (by decide),
    h.get? "oneOf" (by decide), h.get? "anyOf" (by decide)]
  split
  · rename_i value hv
    rw [eq_under_of_get? hv, h.const]
  · split
    · rename_i members hm
      rw [eq_under_of_get? hm, h.enum]
    · split
      · rename_i members hm
        rw [hi (by decide) hm]
      · split
        · rename_i members hm
          cases ho : graph.get? schema "oneOf" with
          | some found =>
            rw [ho] at hm
            cases hm
            rw [hi (by decide) ho]
          | none =>
            rw [ho] at hm
            rw [hi (by decide) hm]
        · have ht : ∀ type ∈ (typesUnder graph schema).toList,
              typedSchema ⟨graph', components⟩ convert schema type =
                typedSchema ⟨graph, components⟩ convert schema type :=
            fun _ => h.typedSchema_eq hmaps hmap
          cases hty : typesUnder graph schema with
          | several types =>
            rw [hty] at ht
            exact congrArg (· >>= _) (mapM_congr_of_mem ht)
          | one type =>
            rw [hty] at ht
            exact ht type (mem_singleton_self _)

/-- The schema is the same in both documents. -/
theorem fullSchema_eq : fullSchema ⟨graph', components⟩ convert schema = fullSchema ⟨graph,
    components⟩ convert schema := by
  have hf : ∀ graph : Graph, graph.isMap schema → fullSchema ⟨graph, components⟩ convert schema =
        bareSchema ⟨graph, components⟩ convert schema (typesUnder graph schema) >>= fun bare =>
          return if allowsNull graph schema && !bare.acceptsNull then bare.nullable else bare := by
    intro graph hmap
    unfold fullSchema
    dsimp only
    rw [field_eq_under hmap "type", field_eq_under hmap "nullable"]
    rfl
  rw [hf graph' ((hmaps schema).trans hmap), hf graph hmap, h.types, h.nullable,
    h.bareSchema_eq hmaps hmap]

end ReadAlike

/-! ## Schemas and what is inside them -/

/-- Documents with the same maps that agree on what is read apart from schemas. -/
structure Agree (graph graph' : Graph) : Prop where
  root : graph'.root = graph.root
  isMap : ∀ item, graph'.isMap item = graph.isMap item
  get? : ∀ item, ∀ key ∈ ["components", "schemas", "schema", "required", "name", "in"],
    graph'.get? item key = graph.get? item key
  isBlank : ∀ item, ∀ key ∈ ["components", "required"],
    graph'.isBlank (under graph item key) = graph.isBlank (under graph item key)

/-- Schemas that are read alike, with their parts. -/
structure Alike (graph graph' : Graph) (alike : Item → Prop) : Prop where
  agree : Agree graph graph'
  read : ∀ {schema}, alike schema → graph.isMap schema = true → ReadAlike graph graph' schema
  part : ∀ {schema part}, alike schema → HoldsPart graph schema part → alike part

/-- The same numbers are those of maps. -/
theorem Agree.maps_eq (h : Agree graph graph') : graph'.maps = graph.maps := by
  have hmaps : ∀ (graph : Graph) (extra : ℕ),
      (List.range (graph.nodes.size + extra)).filter (fun id => graph.isMap (.node id)) =
        graph.maps := by
    intro graph extra
    rw [range_add, filter_append]
    refine append_right_eq_self.mpr (filter_eq_nil_iff.mpr ?_)
    intro id hi hmap
    obtain ⟨offset, -, rfl⟩ := mem_map.mp hi
    have hl := mem_range.mp (mem_of_mem_filter (mem_maps hmap))
    omega
  rw [← hmaps graph graph'.nodes.size, ← hmaps graph' graph.nodes.size, Nat.add_comm]
  simp only [h.isMap]

namespace Alike

variable (h : Alike graph graph' alike)
include h

/-- Schemas that are read alike are converted alike, to any depth. -/
theorem convert_eq (fuel : ℕ) : ∀ current item, (graph.isMap item → alike item) → convert ⟨graph',
    components⟩ fuel current item = convert ⟨graph, components⟩ fuel current item := by
  induction fuel with
  | zero => exact fun current item _ => rfl
  | succ fuel ih =>
    intro current item hi
    rw [convert, convert]
    simp only [h.agree.isMap]
    split
    · rfl
    · rename_i hmap
      rw [Bool.not_eq_true, Bool.not_eq_false'] at hmap
      have hf : fullSchema ⟨graph', components⟩ (convert ⟨graph', components⟩ fuel none) item =
          fullSchema ⟨graph, components⟩ (convert ⟨graph, components⟩ fuel none) item := by
        rw [(h.read (hi hmap) hmap).fullSchema_eq h.agree.isMap hmap]
        exact (describes_fullSchema ⟨graph, components⟩ item).congr fun part hp =>
          ih none part fun _ => h.part (hi hmap) ⟨hmap, Or.inr hp⟩
      rw [hf]
      rfl

theorem schemaOf_eq (current : Option String) (hi : graph.isMap item → alike item) :
    schemaOf ⟨graph', components⟩ current item = schemaOf ⟨graph, components⟩ current item := by
  rw [schemaOf, schemaOf]
  simp only [h.agree.maps_eq, h.convert_eq _ current item hi]

/-- They lead to the same components. -/
theorem reach_eq (fuel : ℕ) : ∀ {item}, alike item → ∀ reached,
    reach ⟨graph', components⟩ fuel reached item = reach ⟨graph, components⟩ fuel reached item := by
  induction fuel with
  | zero => exact fun _ reached => by rw [reach, reach]
  | succ fuel ih =>
    intro item hi reached
    cases item with
    | atom value =>
      rw [reach, reach]
      all_goals exact fun h => Nat.succ_ne_zero _ h
    | node id =>
      rw [reach_node, reach_node]
      simp only [h.agree.isMap]
      split
      · rfl
      · rename_i he
        have hmap : graph.isMap (.node id) := by
          by_contra hmap
          exact he (by simp [hmap])
        rw [(h.read hi hmap).walkedGroups_eq h.agree.isMap hmap]
        refine bind_congr_of_ok fun met _ =>
          foldlM_congr_of_mem (fun group hg reached => ?_) met
        refine bind_congr_of_ok fun parts hp =>
          foldlM_congr_of_mem (fun part hpr => ?_) reached
        exact ih (h.part hi ⟨hmap, Or.inl (subset_walkedParts hg hp hpr)⟩)

/-! ## Catalogs -/

theorem parameterField_eq {parameter : Item}
    (hs : ∀ schema, graph.get? parameter "schema" = some schema → alike schema) :
    parameterField ⟨graph', components⟩ parameter =
      parameterField ⟨graph, components⟩ parameter := by
  have hf : ∀ key ∈ ["schema", "required"],
      field graph' parameter key = field graph parameter key := by
    intro key hky
    have hk : ∀ key ∈ ["schema", "required"],
        key ∈ ["components", "schemas", "schema", "required", "name", "in"] := by decide
    rw [field_eq_ite, field_eq_ite, h.agree.isMap, under, under,
      h.agree.get? parameter key (hk key hky)]
  have hi : isIn graph' "path" parameter = isIn graph "path" parameter := by
    rw [isIn, isIn, h.agree.get? parameter "in" (by decide)]
  unfold parameterField
  dsimp only
  rw [hf "schema" (by decide), hf "required" (by decide),
    h.agree.get? parameter "name" (by decide), hi]
  refine lift_bind_congr fun schema hrd => ?_
  have ha : graph.isMap schema → alike schema := by
    intro hmap
    cases hg : graph.get? parameter "schema" with
    | none =>
      rw [eq_under_of_field hrd, under, hg] at hmap
      cases hmap
    | some item =>
      rw [eq_under_of_field hrd, ← eq_under_of_get? hg]
      exact hs item hg
  simp only [h.agree.isMap, h.schemaOf_eq none ha]
  split
  all_goals
    refine bind_congr fun schema => lift_bind_congr fun required hr => ?_
    rw [eq_under_of_field hr, h.agree.isBlank parameter "required" (by decide)]

theorem schemas_eq (operation : Operation) :
    operation.schemas graph' = operation.schemas graph := by
  rw [Operation.schemas, Operation.schemas]
  simp only [fun parameter => h.agree.get? parameter "schema" (by decide)]

theorem addOperation_eq {operation : Operation}
    (hs : ∀ schema ∈ operation.schemas graph, alike schema) :
    addOperation ⟨graph', components⟩ operation = addOperation ⟨graph, components⟩ operation := by
  have hpa : ∀ name category, ∀ part ∈ operation.schemas graph,
      addPart ⟨graph', components⟩ name part category =
        addPart ⟨graph, components⟩ name part category := by
    intro name category part hpar
    rw [addPart, addPart, h.schemaOf_eq none fun _ => hs part hpar]
  have hp : ∀ name, addParameters ⟨graph', components⟩ name operation.parameters =
      addParameters ⟨graph, components⟩ name operation.parameters := by
    intro name
    rw [addParameters, addParameters, mapM_congr_of_mem fun parameter hpr => ?_]
    refine h.parameterField_eq fun schema hg => hs schema ?_
    exact mem_cons_of_mem _ (mem_cons_of_mem _
      (mem_filterMap.mpr ⟨parameter, hpr, hg⟩))
  rw [addOperation, addOperation]
  simp only [hpa _ _ operation.request (mem_cons_self ..),
    hpa _ _ operation.response (mem_cons_of_mem _ (mem_cons_self ..)), hp]

section

variable (hcomponents : ∀ entry ∈ components, alike entry.2)
include hcomponents

theorem addComponent_eq (name : String) :
    addComponent ⟨graph', components⟩ name = addComponent ⟨graph, components⟩ name := by
  have hs : schemaOf ⟨graph', components⟩ (some name)
        (Setting.component ⟨graph', components⟩ name) =
      schemaOf ⟨graph, components⟩ (some name) (Setting.component ⟨graph, components⟩ name) := by
    refine h.schemaOf_eq (some name) fun hmap => ?_
    rw [Setting.component] at hmap ⊢
    cases hg : Assoc.get? components (.text name) with
    | none =>
      rw [hg] at hmap
      cases hmap
    | some item =>
      obtain ⟨entry, he, rfl⟩ := mem_map.mp (Assoc.mem_map_snd_of_get? hg)
      exact hcomponents entry he
  rw [addComponent, addComponent, hs]

theorem addPending_eq (fuel : ℕ) :
    addPending ⟨graph', components⟩ fuel = addPending ⟨graph, components⟩ fuel := by
  induction fuel with
  | zero => rw [addPending, addPending]
  | succ fuel ih =>
    rw [addPending, addPending, ih]
    simp only [h.addComponent_eq hcomponents]

/-- All operations with schemas that are read alike, in a setting with such components. -/
theorem catalogOf_eq
    (hsc : ∀ operation ∈ operations, ∀ schema ∈ operation.schemas graph, alike schema) :
    catalogOf ⟨graph', components⟩ operations = catalogOf ⟨graph, components⟩ operations := by
  have hu : usedComponents ⟨graph', components⟩ operations =
      usedComponents ⟨graph, components⟩ operations := by
    rw [usedComponents, usedComponents]
    simp only [h.schemas_eq, h.agree.maps_eq]
    rw [foldlM_congr_of_mem fun schema hs => ?_]
    obtain ⟨operation, ho, hs⟩ := mem_flatMap.mp hs
    exact h.reach_eq _ (hsc operation ho schema hs)
  have hop : operations.forM (addOperation ⟨graph', components⟩) =
      operations.forM (addOperation ⟨graph, components⟩) :=
    forM_congr_of_mem fun operation ho =>
      h.addOperation_eq (hsc operation ho)
  have ha : addAll ⟨graph', components⟩ operations = addAll ⟨graph, components⟩ operations := by
    rw [addAll, addAll, hu, hop]
    simp only [h.addPending_eq hcomponents, funext (h.addComponent_eq hcomponents)]
  rw [catalogOf, catalogOf, ha]

end

end Alike

/-- The item with the components of a document. -/
def componentsItem (graph : Graph) : Item :=
  under graph (under graph graph.root "components") "schemas"

/-- The setting of a document, by its components. -/
theorem setting_of_eq : Setting.of graph =
      if graph.isMap graph.root then
        if graph.isBlank (under graph graph.root "components") then .ok ⟨graph, []⟩
        else if graph.isMap (under graph graph.root "components") then
          (entriesOf graph (componentsItem graph)).map fun components => ⟨graph, components⟩
        else .error .notAMap
      else .error .notAMap := by
  rw [Setting.of, field_eq_ite]
  split
  · rw [ok_bind, field_eq_ite]
    split
    · rfl
    · split <;> rfl
  · rfl

/-- The catalog of operations with schemas that are read alike, in a document with the same
components. -/
theorem Alike.catalog_eq (h : Alike graph graph' alike)
    (hn : graph'.node? (componentsItem graph) = graph.node? (componentsItem graph))
    (hcomponents : ∀ value ∈ valuesOf graph (componentsItem graph), alike value)
    (hsc : ∀ operation ∈ operations, ∀ schema ∈ operation.schemas graph, alike schema)
    (ids : Option (List String)) :
    catalog graph' operations ids = catalog graph operations ids := by
  have hc : ∀ {chosen : List Operation} {components : List (Atom × Item)},
      chosen ⊆ operations → (∀ entry ∈ components, alike entry.2) →
        catalogOf ⟨graph', components⟩ chosen = catalogOf ⟨graph, components⟩ chosen :=
    fun hs ha => h.catalogOf_eq ha fun operation ho =>
      hsc operation (hs ho)
  have hi : componentsItem graph' = componentsItem graph := by
    rw [componentsItem, componentsItem, h.agree.root, under, under, under, under,
      h.agree.get? _ "components" (by decide), h.agree.get? _ "schemas" (by decide)]
  have hu : under graph' graph.root "components" = under graph graph.root "components" := by
    rw [under, under, h.agree.get? _ "components" (by decide)]
  refine bind_congr_of_ok fun chosen hch => ?_
  have hs : chosen ⊆ operations := by
    rw [eq_filter_of_selectOperations hch]
    exact filter_subset_self _
  rw [setting_of_eq, setting_of_eq, h.agree.root, h.agree.isMap, hu,
    h.agree.isBlank _ "components" (by decide), h.agree.isMap, hi, entriesOf_eq_of_node? hn]
  split
  · split
    · exact hc hs nofun
    · split
      · cases he : entriesOf graph (componentsItem graph) with
        | error fault => rfl
        | ok entries =>
          refine hc hs fun entry hen => hcomponents entry.2 ?_
          rw [← map_entriesOf he]
          exact mem_map_of_mem hen
      · rfl
  · rfl

end OpenApi

end ApiSchema
