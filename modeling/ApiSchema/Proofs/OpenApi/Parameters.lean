/-
# Parameters

A path and each of its operations declare parameters. Under a name and a location the declaration of
the operation counts, and else the one of the path. The entry for the parameters of an operation
tells them apart by name alone: the property of a name is that of the last parameter with the name,
and the ones of the query come after the ones of the path. So a path parameter has its property, and
is required, unless the query has a parameter of the same name.
-/
import ApiSchema.Proofs.Keys
import ApiSchema.Proofs.OpenApi.Restriction

namespace ApiSchema.OpenApi

open List Option

variable {graph : Graph} {setting : Setting} {item parameter declaration : Item}
  {operation : Operation} {parameters shared own : List Item} {place : Atom × Atom}

/-! ## Declarations -/

/-- The key under a key; what cannot be one counts as null. -/
def keyUnder (graph : Graph) (item : Item) (key : String) : Atom :=
  match under graph item key with
  | .atom value => value
  | .node _ => .null

/-- The name of a parameter. -/
def nameOf (graph : Graph) (parameter : Item) : Atom := keyUnder graph parameter "name"

/-- The name and the location of a parameter. -/
def placeOf (graph : Graph) (parameter : Item) : Atom × Atom :=
  (nameOf graph parameter, keyUnder graph parameter "in")

/-- The last of some elements with a key. -/
def lastWith? {κ α : Type} [BEq κ] (keyOf : α → κ) (elements : List α) (key : κ) : Option α :=
  elements.reverse.find? (keyOf · == key)

/-- The parameter that counts for a name and a location: the one that the operation declares there,
or else the one that its path does. -/
def prevailing? (graph : Graph) (shared own : List Item) (place : Atom × Atom) : Option Item :=
  (lastWith? (placeOf graph) own place).or (lastWith? (placeOf graph) shared place)

section

variable {κ α β : Type} [BEq κ] {keyOf : α → κ} {elements : List α} {element : α} {key key' : κ}

theorem key_of_lastWith? (h : lastWith? keyOf elements key = some element) :
    (keyOf element == key) := by
  simpa using find?_some h

theorem lastWith?_append (front back : List α) : lastWith? keyOf (front ++ back) key =
    (lastWith? keyOf back key).or (lastWith? keyOf front key) := by
  unfold lastWith?
  rw [reverse_append, find?_append]

variable [EquivBEq κ]

theorem lastWith?_congr (h : (key == key')) :
    lastWith? keyOf elements key = lastWith? keyOf elements key' := by
  have hs : (keyOf · == key) = (keyOf · == key') := funext fun _ => BEq.congr_right h
  unfold lastWith?
  rw [hs]

/-- A map that is built gives for a key what was made of the last element with it. -/
theorem get?_ofList_eq_lastWith? (make : α → β) (key : κ) :
    Assoc.get? (Assoc.ofList (elements.map fun element => (keyOf element, make element))) key =
      (lastWith? keyOf elements key).map make := by
  rw [Assoc.get?_ofList, ← map_reverse, find?_map, Option.map_map]
  rfl

end

theorem keyUnder_of_keyOf {value : Item} {key : String} {name : Atom}
    (hv : field graph item key = .ok value) (hn : keyOf value = .ok name) :
    keyUnder graph item key = name := by
  unfold keyUnder
  rw [← eq_under_of_field hv]
  cases value with
  | atom value => exact Except.ok.inj hn
  | node id => cases hn

/-- Parameters are collected under their names and locations. -/
theorem foldlM_addParameter {before after : List ((Atom × Atom) × Item)}
    (h : parameters.foldlM (addParameter graph) before = .ok after) :
    after = Assoc.putAll before
      (parameters.map fun parameter => (placeOf graph parameter, parameter)) := by
  induction parameters generalizing before with
  | nil => exact (Except.ok.inj h).symm
  | cons parameter rest ih =>
    obtain ⟨between, ha, hr⟩ := of_bind_eq_ok h
    obtain ⟨name, hn, ha⟩ := of_bind_eq_ok ha
    obtain ⟨location, hl, ha⟩ := of_bind_eq_ok ha
    obtain ⟨nameKey, hnameKey, ha⟩ := of_bind_eq_ok ha
    obtain ⟨locationKey, hlocationKey, ha⟩ := of_bind_eq_ok ha
    have hp : placeOf graph parameter = (nameKey, locationKey) := by
      rw [placeOf, nameOf, keyUnder_of_keyOf hn hnameKey,
        keyUnder_of_keyOf hl hlocationKey]
    rw [ih hr, ← Except.ok.inj ha, ← hp]
    rfl

/-- The parameters of an operation are those that count for their names and locations. -/
theorem mem_parametersOf {shared own : Item} (h : parametersOf graph shared own = .ok parameters)
    (parameter : Item) :
    parameter ∈ parameters ↔ prevailing? graph (membersOf graph shared) (membersOf graph own)
      (placeOf graph parameter) = some parameter := by
  obtain ⟨sharedItems, hs, h⟩ := of_bind_eq_ok h
  obtain ⟨ownItems, ho, h⟩ := of_bind_eq_ok h
  obtain ⟨collected, hc, h⟩ := of_bind_eq_ok h
  have hm := foldlM_addParameter hc
  rw [eq_membersOf_of_optional hs, eq_membersOf_of_optional ho] at hm
  have hg : ∀ place, Assoc.get? collected place = lastWith? (placeOf graph)
      (membersOf graph shared ++ membersOf graph own) place := by
    intro place
    rw [hm, ← Assoc.ofList, get?_ofList_eq_lastWith?, Option.map_id']
  rw [← Except.ok.inj h, prevailing?, ← lastWith?_append, ← hg]
  constructor
  · intro hmm
    obtain ⟨entry, he, rfl⟩ := mem_map.mp hmm
    have hr := Assoc.get?_of_mem (hm ▸ Assoc.distinct_ofList _) he
    rw [hg] at hr
    rw [hg, lastWith?_congr (key_of_lastWith? hr)]
    exact hr
  · intro hr
    rw [Assoc.get?_eq_find?] at hr
    obtain ⟨entry, he, rfl⟩ := map_eq_some_iff.mp hr
    exact mem_map_of_mem (mem_of_find?_eq_some he)

/-! ## Operations -/

/-- The operation is the one under its method in an item under its path, with this declaration. -/
def IsDeclared (graph : Graph) (operation : Operation) (pathItem declaration : Item) : Prop :=
  (∃ paths, entriesOf graph (under graph graph.root "paths") = .ok paths ∧
    (operation.path, pathItem) ∈ paths) ∧ graph.get? pathItem operation.method = some declaration

/-- The parameter counts for its name in a location of an operation that is declared so. -/
def Prevails (graph : Graph) (pathItem declaration : Item) (location : String) (parameter : Item) :
    Prop :=
  isIn graph location parameter = true ∧
    prevailing? graph (membersOf graph (under graph pathItem "parameters"))
      (membersOf graph (under graph declaration "parameters")) (placeOf graph parameter) =
        some parameter

/-- An operation has the path and the method it is looked for under, and the parameters that are
collected for it. -/
theorem fields_of_operationOf {path : Atom} {shared : Item} {method : String}
    (h : operationOf graph path shared method declaration = .ok operation) :
    operation.path = path ∧ operation.method = method ∧
      ∃ parameters, parametersOf graph shared (under graph declaration "parameters") =
          .ok parameters ∧
        operation.pathParameters = parameters.filter (isIn graph "path") ∧
        operation.queryParameters = parameters.filter (isIn graph "query") := by
  obtain ⟨own, ho, h⟩ := of_bind_eq_ok h
  obtain rfl := eq_under_of_field ho
  obtain ⟨parameters, hp, h⟩ := of_bind_eq_ok h
  obtain ⟨responses, -, h⟩ := of_bind_eq_ok h
  obtain ⟨response, -, h⟩ := of_bind_eq_ok h
  obtain ⟨id, -, h⟩ := of_bind_eq_ok h
  obtain ⟨body, -, h⟩ := of_bind_eq_ok h
  split at h
  · cases h
    exact ⟨rfl, rfl, parameters, hp, rfl, rfl⟩
  · obtain ⟨content, -, h⟩ := of_bind_eq_ok h
    obtain ⟨request, -, h⟩ := of_bind_eq_ok h
    cases h
    exact ⟨rfl, rfl, parameters, hp, rfl, rfl⟩

/-- The operations of a document are declared in it, and their parameters are those that count. -/
theorem exists_declaration_of_mem_operations {operations : List Operation}
    (h : OpenApi.operations graph = .ok operations) (ho : operation ∈ operations) :
    ∃ pathItem declaration, IsDeclared graph operation pathItem declaration ∧
      (∀ parameter, parameter ∈ operation.pathParameters ↔
        Prevails graph pathItem declaration "path" parameter) ∧
      ∀ parameter, parameter ∈ operation.queryParameters ↔
        Prevails graph pathItem declaration "query" parameter := by
  obtain ⟨pathsItem, hpathsItem, h⟩ := of_bind_eq_ok h
  obtain rfl := eq_under_of_field hpathsItem
  obtain ⟨paths, hpt, h⟩ := of_bind_eq_ok h
  obtain ⟨found, hf, h⟩ := of_bind_eq_ok h
  cases h
  obtain ⟨group, hg, ho⟩ := mem_flatten.mp ho
  obtain ⟨⟨path, pathItem⟩, hpa, hu⟩ := exists_of_mem_of_mapM_eq_ok hf hg
  change operationsUnder graph path pathItem = .ok group at hu
  unfold operationsUnder at hu
  split at hu
  · cases hu
    cases ho
  · obtain ⟨shared, hs, hu⟩ := of_bind_eq_ok hu
    obtain rfl := eq_under_of_field hs
    obtain ⟨⟨method, declaration⟩, hm, hmd⟩ := exists_of_mem_of_mapM_eq_ok hu ho
    have hgt : graph.get? pathItem method = some declaration := by
      obtain ⟨method', -, hb⟩ := mem_filterMap.mp hm
      obtain ⟨item, hit, hi⟩ := bind_eq_some_iff.mp hb
      split at hi
      · cases hi
        exact hit
      · cases hi
    obtain ⟨rfl, rfl, parameters, hp, hpathParameters, hqueryParameters⟩ :=
      fields_of_operationOf hmd
    have hmm := mem_parametersOf hp
    refine ⟨pathItem, declaration, ⟨⟨paths, hpt, hpa⟩, hgt⟩, fun parameter => ?_,
      fun parameter => ?_⟩
    · rw [hpathParameters, mem_filter, hmm, and_comm]
      rfl
    · rw [hqueryParameters, mem_filter, hmm, and_comm]
      rfl

/-! ## Properties -/

/-- The property has the schema that the parameter describes, and is required if the parameter is
part of the path or says so. -/
def IsPropertyOf (setting : Setting) (parameter : Item) (property : Field Schema) : Prop :=
  parameterDescription setting parameter = .ok property.schema ∧
    property.required = (isIn setting.graph "path" parameter ||
      !setting.graph.isBlank (under setting.graph parameter "required"))

/-- What is found among things that are made one by one is made of what is found. -/
theorem rel_find? {α β : Type} {made : α → β → Prop} {elements : List α} {results : List β}
    (h : List.Forall₂ made elements results) {test : α → Bool} {test' : β → Bool}
    (hs : ∀ element result, made element result → test element = test' result) :
    Option.Rel made (elements.find? test) (results.find? test') := by
  induction h with
  | nil => exact .none
  | @cons element result elements results hf _ ih =>
    rw [find?_cons, find?_cons, ← hs element result hf]
    split
    · exact .some hf
    · exact ih

theorem IsFieldOf.name_eq {field : Atom × Schema × Bool}
    (h : IsFieldOf setting parameter field) : nameOf setting.graph parameter = field.1 := by
  rw [nameOf, keyUnder, under, h.1]
  rfl

/-- The object of some parameters has one property for each name, which is that of the last
parameter with the name. -/
theorem properties_of_parametersDescription {schema : Schema}
    (h : parametersDescription setting parameters = .ok schema) :
    ∃ properties, schema = .object properties .dropped [] ∧
      properties.Pairwise (fun property other => (property.key == other.key) = false) ∧
      ∀ name, Option.Rel (IsPropertyOf setting) (lastWith? (nameOf setting.graph) parameters name)
        (properties.find? (·.key == name)) := by
  obtain ⟨fields, hfl, h⟩ := of_bind_eq_ok h
  have hm := forall₂_of_outcome_parameterFields hfl
  refine ⟨_, (Except.ok.inj h).symm, ?_, fun name => ?_⟩
  · exact pairwise_map.mpr (Assoc.distinct_ofList fields)
  · have hr := Assoc.get?_ofList fields name
    rw [Assoc.get?_eq_find?] at hr
    rw [find?_map]
    have hl : Option.Rel (IsFieldOf setting)
        (lastWith? (nameOf setting.graph) parameters name) (fields.reverse.find? (·.1 == name)) :=
      rel_find? (rel_reverse hm) fun parameter field hf => by rw [hf.name_eq]
    change Option.Rel _ _ (((Assoc.ofList fields).find? (·.1 == name)).map _)
    generalize (Assoc.ofList fields).find? (·.1 == name) = stored at hr
    generalize fields.reverse.find? (·.1 == name) = last at hr hl
    generalize lastWith? (nameOf setting.graph) parameters name = chosen at hl ⊢
    cases hl with
    | none =>
      rw [map_eq_none_iff.mp hr]
      exact .none
    | @some chosen field hf =>
      obtain ⟨stored, rfl, hv⟩ := map_eq_some_iff.mp hr
      refine .some ?_
      change parameterDescription setting chosen = .ok stored.2.1 ∧ stored.2.2 = _
      rw [hv]
      exact hf.2

theorem keyUnder_of_isIn {location : String} (h : isIn graph location parameter) :
    keyUnder graph parameter "in" = .text location := by
  obtain ⟨item, hi, ht⟩ := (any_eq_true _ _).mp h
  rw [keyUnder, under, hi]
  cases item with
  | atom value =>
    cases value with
    | text other => simpa [Item.isText, Item.text?] using ht
    | _ => cases ht
  | node id => cases ht

/-- A path parameter is the last parameter with its name, if the query has none with the name. -/
theorem lastWith?_nameOf_parameters {pathItem : Item}
    (hpt : ∀ parameter, parameter ∈ operation.pathParameters ↔
      Prevails graph pathItem declaration "path" parameter)
    (hp : parameter ∈ operation.pathParameters)
    (hq : ∀ other ∈ operation.queryParameters,
      (nameOf graph other == nameOf graph parameter) = false) :
    lastWith? (nameOf graph) operation.parameters (nameOf graph parameter) = some parameter := by
  have hn : lastWith? (nameOf graph) operation.queryParameters (nameOf graph parameter) =
      none := by
    unfold lastWith?
    rw [find?_eq_none]
    intro other ho
    rw [hq other (mem_reverse.mp ho)]
    exact Bool.false_ne_true
  rw [Operation.parameters, lastWith?_append, hn]
  cases hl : lastWith? (nameOf graph) operation.pathParameters (nameOf graph parameter) with
  | none =>
    have hnt := find?_eq_none.mp hl parameter (mem_reverse.mpr hp)
    exact absurd BEq.rfl hnt
  | some other =>
    -- Both are in the path under one name, and there only one parameter counts.
    obtain ⟨hi, hpr⟩ := (hpt parameter).mp hp
    obtain ⟨hi', hp'⟩ := (hpt other).mp (mem_reverse.mp (mem_of_find?_eq_some hl))
    have hpl : (placeOf graph other == placeOf graph parameter) := by
      rw [placeOf, placeOf, keyUnder_of_isIn hi, keyUnder_of_isIn hi']
      exact Bool.and_eq_true_iff.mpr ⟨key_of_lastWith? hl, BEq.rfl⟩
    rw [prevailing?, lastWith?_congr hpl, lastWith?_congr hpl, ← prevailing?,
      hpr] at hp'
    exact hp'.symm

/-- The entry of an operation's parameters, if it is made for the operation, is that of the
parameters that count:

* under a name and a location there is the parameter that the operation declares, or else the one
  that its path does;
* the entry is an object with one property for each name, and there is a property for a name exactly
  if a parameter in the path or in the query has the name; it is that of the last one, where those
  in the query come after those in the path;
* the property of a path parameter whose name is not also in the query is required and has the
  schema that the parameter describes. -/
theorem property_of_path_parameter {operations chosen : List Operation}
    {ids : Option (List String)} {result : Catalog} {entry : Entry}
    (hdistinct : graph.hasDistinctKeys = true)
    (hoperations : OpenApi.operations graph = .ok operations)
    (hchosen : selectOperations ids operations = .ok chosen)
    (hcatalog : catalog graph operations ids = .ok result)
    (hentry : entry ∈ result.entries) (hcategory : entry.category = .params)
    (hfirst : firstClaimant? (·.claim? .params) chosen entry.name = some operation) :
    ∃ setting pathItem declaration properties, Setting.of graph = .ok setting ∧
      IsDeclared graph operation pathItem declaration ∧
      (∀ parameter, parameter ∈ operation.pathParameters ↔
        Prevails graph pathItem declaration "path" parameter) ∧
      (∀ parameter, parameter ∈ operation.queryParameters ↔
        Prevails graph pathItem declaration "query" parameter) ∧
      entry.schema = .object properties .dropped [] ∧
      properties.Pairwise (fun property other => (property.key == other.key) = false) ∧
      (∀ name, Option.Rel (IsPropertyOf setting)
        ((lastWith? (nameOf graph) operation.queryParameters name).or
          (lastWith? (nameOf graph) operation.pathParameters name))
        (properties.find? (·.key == name))) ∧
      ∀ parameter ∈ operation.pathParameters, (∀ other ∈ operation.queryParameters,
          (nameOf graph other == nameOf graph parameter) = false) →
        ∃ property, properties.find? (·.key == nameOf graph parameter) = some property ∧
          property.required = true ∧
            parameterDescription setting parameter = .ok property.schema := by
  obtain ⟨chosen', hc', hcatalog⟩ := of_bind_eq_ok hcatalog
  obtain rfl : chosen' = chosen := Except.ok.inj (hc'.symm.trans hchosen)
  obtain ⟨setting, hs, hcatalog⟩ := of_bind_eq_ok hcatalog
  have hk := Setting.nodup_names hdistinct hs
  obtain ⟨used, -, ha⟩ := accounted_catalogOf hk hcatalog
  have hpa : operation.description setting .params = .ok entry.schema := by
    rcases (ha.origin entry hentry).cases hk with
      hc | ⟨role, first, hf', hpa⟩
    · cases hcategory.symm.trans hc.1
    · obtain rfl : role = .params := by
        have hsm := hpa.1.symm.trans hcategory
        cases role <;> first | rfl | cases hsm
      rw [hfirst] at hf'
      rw [some.inj hf']
      exact hpa.2
  have ho : operation ∈ operations := by
    have hm := mem_of_firstClaimant? hfirst
    rw [eq_filter_of_selectOperations hchosen] at hm
    exact mem_of_mem_filter hm
  obtain ⟨schemas, components, -, rfl⟩ := Setting.exists_eq_of hs
  obtain ⟨pathItem, declaration, hd, hpt, hq⟩ :=
    exists_declaration_of_mem_operations hoperations ho
  obtain ⟨properties, hprops, hk, hf⟩ := properties_of_parametersDescription hpa
  refine ⟨_, pathItem, declaration, properties, hs, hd, hpt, hq,
    hprops, hk, fun name => ?_, fun parameter hp hfr => ?_⟩
  · rw [← lastWith?_append]
    exact hf name
  · have hl := hf (nameOf graph parameter)
    rw [lastWith?_nameOf_parameters hpt hp hfr] at hl
    generalize properties.find? (·.key == nameOf graph parameter) = found at hl
    cases hl with
    | @some _ property hpr =>
      refine ⟨property, rfl, ?_, hpr.1⟩
      rw [hpr.2, ((hpt parameter).mp hp).1, Bool.true_or]

/-- A document with one operation. Its path declares an integer in the path, the operation a text of
the same name there, and an integer in the query. -/
def parametersGraph (queryName : String) : Graph where
  nodes := #[.map [(.text "paths", .node 1)], .map [(.text "/pets", .node 2)],
    .map [(.text "parameters", .node 3), (.text "get", .node 4)],
    .list [.node 5],
    .map [(.text "operationId", .text "getPet"), (.text "parameters", .node 6)],
    .map [(.text "name", .text "id"), (.text "in", .text "path"), (.text "schema", .node 9)],
    .list [.node 7, .node 8],
    .map [(.text "name", .text "id"), (.text "in", .text "path"), (.text "schema", .node 10)],
    .map [(.text "name", .text queryName), (.text "in", .text "query"), (.text "schema", .node 9)],
    .map [(.text "type", .text "integer")],
    .map [(.text "type", .text "string")]]
  root := .node 0

/-- The operation of the document. -/
def getPet : Operation := ⟨.text "getPet", "get", .text "/pets", .null, .null, [.node 7], [.node 8]⟩

/-- The path parameter is required, and a text as the operation declares it. -/
theorem getPet_path_parameter : (parametersGraph "limit").hasDistinctKeys = true ∧
      operations (parametersGraph "limit") = .ok [getPet] ∧
      ∃ result, catalog (parametersGraph "limit") [getPet] none = .ok result ∧
        ∃ entry ∈ result.entries, ∃ properties, entry.schema = .object properties .dropped [] ∧
          ∃ property, properties.find? (·.key == .text "id") = some property ∧
            property.required = true ∧ property.schema = .string none := by
  have hd : (parametersGraph "limit").hasDistinctKeys = true := by decide +kernel
  have ho : operations (parametersGraph "limit") = .ok [getPet] := by rfl
  have hct : ∃ result, catalog (parametersGraph "limit") [getPet] none = .ok result ∧
      ∃ entry ∈ result.entries, entry.category = .params ∧
        firstClaimant? (·.claim? .params) [getPet] entry.name = some getPet :=
    ⟨_, rfl, _, mem_singleton_self _, rfl, rfl⟩
  obtain ⟨result, hr, entry, he, hc, hf⟩ := hct
  obtain ⟨setting, pathItem, declaration, properties, hs, -, -, -, hsc, -, -, hown⟩ :=
    property_of_path_parameter hd ho rfl hr he hc hf
  refine ⟨hd, ho, result, hr, entry, he, properties, hsc, ?_⟩
  obtain ⟨property, hp, hrq, hds⟩ :=
    hown (.node 7) (mem_singleton_self _) (by decide +kernel)
  cases hs
  exact ⟨property, hp, hrq, (Except.ok.inj hds).symm⟩

/-- If the query has a parameter of the same name, the property is the one of the query, and nothing
is left of the path parameter. -/
theorem query_replaces_path_parameter : operations (parametersGraph "id") = .ok [getPet] ∧
      catalog (parametersGraph "id") [getPet] none = .ok
        ⟨[Entry.of "GetPetParams" (.object [⟨.text "id", .number true, false⟩] .dropped [])
          .params []], []⟩ ∧
      ∃ setting, Setting.of (parametersGraph "id") = .ok setting ∧
        parameterDescription setting (.node 7) = .ok (.string none) :=
  ⟨rfl, rfl, _, rfl, rfl⟩

end ApiSchema.OpenApi
