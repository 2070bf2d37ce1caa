/-
# Status codes as numbers and as texts

A document can write the codes of responses as numbers or as texts. The three responses that are
looked for are looked for as texts, so it does not matter how any other code is written, as long as
the responses stand apart from the schemas; but a response under the number 200 or 201 is not found.
-/
import ApiSchema.Proofs.Numerals
import ApiSchema.Proofs.OpenApi.Untouched

namespace ApiSchema.OpenApi

open List

variable {key : String} {entries : List (Atom × Item)}

/-! ## Keys -/

/-- The key, written as a text if it is one of the codes. -/
def spelled (codes : Int → Bool) : Atom → Atom
  | .int n => if codes n then .text (toString n) else .int n
  | key => key

/-- The text is not the decimal form of one of the codes. -/
def IsOther (codes : Int → Bool) (key : String) : Prop := ∀ n, codes n = true → toString n ≠ key

variable {codes : Int → Bool} {ids : List ℕ} {graph : Graph}

theorem isOther_of_word (h : isNumeral key = false) : IsOther codes key := by
  rintro n - rfl
  rw [isNumeral_toString] at h
  cases h

theorem isOther_toString {n : Int} (h : codes n = false) : IsOther codes (toString n) := by
  intro other ho he
  obtain rfl : other = n := eq_of_toString_eq he
  rw [ho] at h
  cases h

/-- The second map has the keys of the first one with the codes among them written as texts. Where
two keys become one, the item of either may be left. -/
structure RespelledKeys (codes : Int → Bool) (entries entries' : List (Atom × Item)) : Prop where
  origin : ∀ entry' ∈ entries', ∃ entry ∈ entries, entry' = (spelled codes entry.1, entry.2)
  kept : ∀ entry ∈ entries, ∃ entry' ∈ entries', entry'.1 = spelled codes entry.1
  others : ∀ {key : String}, IsOther codes key →
    Assoc.get? entries' (.text key) = Assoc.get? entries (.text key)

/-- Writing each code as a text respells the keys. -/
theorem respelledKeys_map :
    RespelledKeys codes entries (entries.map fun entry => (spelled codes entry.1, entry.2)) where
  origin := by
    intro entry' he'
    obtain ⟨entry, he, rfl⟩ := mem_map.mp he'
    exact ⟨entry, he, rfl⟩
  kept entry he := ⟨_, mem_map_of_mem he, rfl⟩
  others := by
    intro key hk
    have hs : ∀ other : Atom, (spelled codes other == .text key) = (other == .text key) := by
      intro other
      cases other with
      | int n =>
        rw [spelled]
        split
        · rename_i hc
          rw [Bool.eq_iff_iff, beq_text_iff, beq_text_iff]
          simpa using hk n hc
        · rfl
      | _ => rfl
    induction entries with
    | nil => rfl
    | cons entry rest ih => rw [map_cons, Assoc.get?_cons, Assoc.get?_cons, hs, ih]

/-- A map with respelled keys is empty if and only if the map is. -/
theorem RespelledKeys.isEmpty_eq {entries' : List (Atom × Item)}
    (h : RespelledKeys codes entries entries') : entries'.isEmpty = entries.isEmpty := by
  cases entries with
  | nil =>
    cases entries' with
    | nil => rfl
    | cons entry' rest' =>
      obtain ⟨entry, he, -⟩ := h.origin entry' (mem_cons_self ..)
      cases he
  | cons entry rest =>
    cases entries' with
    | nil =>
      obtain ⟨entry', he', -⟩ := h.kept entry (mem_cons_self ..)
      cases he'
    | cons entry' rest' => rfl

/-! ## Documents -/

/-- The item with the paths of a document. -/
def pathsItem (graph : Graph) : Item := under graph graph.root "paths"

/-- The item has the responses of an operation. -/
def IsResponses (graph : Graph) (item : Item) : Prop :=
  ∃ entries path pathItem method operation, graph.map? (pathsItem graph) = some entries ∧
    (path, pathItem) ∈ entries ∧ method ∈ methods ∧ graph.get? pathItem method = some operation ∧
      graph.get? operation "responses" = some item

/-- The second document is the first one with codes of responses written as texts. -/
structure Respelled (codes : Int → Bool) (graph graph' : Graph) : Prop where
  root : graph'.root = graph.root
  size : graph'.nodes.size = graph.nodes.size
  nodes : ∀ item, graph'.node? item = graph.node? item ∨
    ∃ entries entries', graph.node? item = some (.map entries) ∧
      graph'.node? item = some (.map entries') ∧ IsResponses graph item ∧
        RespelledKeys codes entries entries'

/-- The node with codes written as texts. -/
def respellNode (codes : Int → Bool) : Node → Node
  | .map entries => .map (entries.map fun entry => (spelled codes entry.1, entry.2))
  | node => node

/-- The document with the codes written as texts in the nodes of some numbers. -/
def respell (codes : Int → Bool) (ids : List ℕ) (graph : Graph) : Graph :=
  { graph with nodes := graph.nodes.mapIdx fun id node =>
      if ids.contains id then respellNode codes node else node }

theorem node?_respell (graph : Graph) (id : ℕ) :
    (respell codes ids graph).node? (.node id) = (graph.node? (.node id)).map fun node =>
      if ids.contains id then respellNode codes node else node :=
  Array.getElem?_mapIdx

/-- Writing codes as texts in responses respells the document. -/
theorem respelled_respell (h : ∀ id ∈ ids, IsResponses graph (.node id)) :
    Respelled codes graph (respell codes ids graph) where
  root := rfl
  size := Array.size_mapIdx
  nodes item := by
    cases item with
    | atom value => exact Or.inl rfl
    | node id =>
      rw [node?_respell]
      cases hold : graph.node? (.node id) with
      | none => exact Or.inl rfl
      | some node =>
        rw [Option.map_some]
        by_cases hi : id ∈ ids
        · rw [if_pos (by simpa using hi)]
          cases node with
          | map entries =>
            exact Or.inr ⟨entries, _, rfl, rfl, h id hi, respelledKeys_map⟩
          | _ => exact Or.inl rfl
        · rw [if_neg (by simpa using hi)]
          exact Or.inl rfl

/-! ## What is read alike -/

section

variable {graph graph' : Graph} (h : Respelled codes graph graph')
include h

theorem Respelled.isMap_eq (item : Item) : graph'.isMap item = graph.isMap item := by
  rcases h.nodes item with hs | ⟨entries, entries', hold, hn, -, -⟩
  · rw [Graph.isMap, Graph.isMap, Graph.map?, Graph.map?, hs]
  · rw [Graph.isMap, Graph.isMap, Graph.map?, Graph.map?, hold, hn]
    rfl

theorem Respelled.isBlank_eq (item : Item) : graph'.isBlank item = graph.isBlank item := by
  rcases h.nodes item with hs | ⟨entries, entries', hold, hnw, -, hk⟩
  · exact isBlank_eq_of_node? hs
  · cases item with
    | atom value => rfl
    | node id =>
      have hn : graph.nodes[id]? = some (.map entries) := hold
      have hn' : graph'.nodes[id]? = some (.map entries') := hnw
      have he := hk.isEmpty_eq
      rw [Graph.isBlank, Graph.isBlank, hn, hn']
      simpa [Node.items] using he

/-- Respelled documents have the same under other keys than codes. -/
theorem Respelled.get?_eq (item : Item) (hky : IsOther codes key) :
    graph'.get? item key = graph.get? item key := by
  rcases h.nodes item with hs | ⟨entries, entries', hold, hn, -, hk⟩
  · rw [Graph.get?, Graph.get?, Graph.map?, Graph.map?, hs]
  · rw [Graph.get?, Graph.get?, Graph.map?, Graph.map?, hold, hn]
    exact hk.others hky

theorem Respelled.get?_word (item : Item) (hk : isNumeral key = false) :
    graph'.get? item key = graph.get? item key :=
  h.get?_eq item (isOther_of_word hk)

theorem Respelled.field_eq (item : Item) (hk : IsOther codes key) :
    field graph' item key = field graph item key := by
  rw [field_eq_ite, field_eq_ite, h.isMap_eq, under, under, h.get?_eq item hk]

theorem Respelled.field_word (item : Item) (hk : isNumeral key = false) :
    field graph' item key = field graph item key :=
  h.field_eq item (isOther_of_word hk)

theorem Respelled.agree : Agree graph graph' where
  root := h.root
  isMap := h.isMap_eq
  get? item key hk := by
    have hw : ∀ key ∈ ["components", "schemas", "schema", "required", "name", "in"],
        isNumeral key = false := by decide
    exact h.get?_word item (hw key hk)
  isBlank item key _ := h.isBlank_eq _

theorem Respelled.bodySchema_eq (content : Item) :
    bodySchema graph' content = bodySchema graph content := by
  unfold bodySchema
  simp (disch := decide) only [h.isBlank_eq, h.field_word]

/-- The response under a text that is not the decimal form of a code. -/
theorem Respelled.responseUnder_eq (responses : Item) {code : String} (hc : IsOther codes code) :
    responseUnder graph' responses code = responseUnder graph responses code := by
  unfold responseUnder
  rw [h.isBlank_eq]
  cases responses with
  | atom value => rfl
  | node id =>
    rcases h.nodes (.node id) with hs | ⟨entries, entries', hold, hn, -, hk⟩
    · rw [hs]
    · rw [hold, hn]
      dsimp only
      rw [hk.others hc]

/-- The schema of the first response that has one, if the codes that are looked for are written as
they were. -/
theorem Respelled.responseSchema_eq (responses : Item) {searched : List String}
    (hs : ∀ code ∈ searched, IsOther codes code) :
    responseSchema graph' responses searched = responseSchema graph responses searched := by
  induction searched with
  | nil => rfl
  | cons code rest ih =>
    have hr := ih (forall_mem_cons.mp hs).2
    rw [responseSchema, responseSchema,
      h.responseUnder_eq responses (hs code (mem_cons_self ..)), hr]
    simp (disch := decide) only [h.bodySchema_eq, h.field_word]

/-- Going through an item meets the same, or atoms in both documents: the keys of a map. -/
theorem Respelled.optionalItemsOf_cases (item : Item) :
    optionalItemsOf graph' item = optionalItemsOf graph item ∨
      ∃ first rest first' rest', optionalItemsOf graph item = .ok (.atom first :: rest) ∧
        optionalItemsOf graph' item = .ok (.atom first' :: rest') := by
  unfold optionalItemsOf
  rw [h.isBlank_eq]
  split
  · exact Or.inl rfl
  · rename_i hb
    cases item with
    | atom value => exact Or.inl (by cases value <;> rfl)
    | node id =>
      rcases h.nodes (.node id) with hs | ⟨entries, entries', hold, hnw, -, hk⟩
      · have hn : graph'.nodes[id]? = graph.nodes[id]? := hs
        simp only [itemsOf, hn, true_or]
      · have hn : graph.nodes[id]? = some (.map entries) := hold
        have hn' : graph'.nodes[id]? = some (.map entries') := hnw
        have he := hk.isEmpty_eq
        rw [Graph.isBlank, hn] at hb
        cases entries with
        | nil => exact absurd rfl hb
        | cons entry rest =>
          cases entries' with
          | nil => cases he
          | cons entry' rest' =>
            simp only [itemsOf, hn, hn']
            exact Or.inr ⟨_, _, _, _, rfl, rfl⟩

omit h in
theorem foldlM_addParameter_atom (first : Atom) (rest : List Item)
    (parameters : List ((Atom × Atom) × Item)) :
    (.atom first :: rest).foldlM (addParameter graph) parameters = .error .notAMap := rfl

theorem Respelled.parametersOf_eq (shared own : Item) :
    parametersOf graph' shared own = parametersOf graph shared own := by
  have ha : addParameter graph' = addParameter graph := by
    funext parameters parameter
    unfold addParameter
    simp (disch := decide) only [h.field_word]
  unfold parametersOf
  rw [ha]
  rcases h.optionalItemsOf_cases shared with hs | ⟨first, rest, first', rest', hold, hn⟩
  · rw [hs]
    refine bind_congr_of_ok fun shared _ => ?_
    rcases h.optionalItemsOf_cases own with ho | ⟨first, rest, first', rest', hold, hn⟩
    · rw [ho]
    · simp only [hold, hn, ok_bind, foldlM_append, foldlM_addParameter_atom]
  · -- The first of the shared parameters is an atom, so no parameters can be read.
    rw [hold, hn]
    simp only [ok_bind, cons_append, foldlM_addParameter_atom, error_bind]
    rcases h.optionalItemsOf_cases own with ho | ⟨_, _, _, _, hold', hn'⟩
    · rw [ho]
    · rw [hold', hn']
      rfl

theorem Respelled.idOf_eq (operation : Item) (method : String) (path : Atom) :
    idOf graph' operation method path = idOf graph operation method path := by
  unfold idOf
  simp (disch := decide) only [h.isBlank_eq, h.field_word]

variable (hcodes : ∀ code ∈ responseCodes, IsOther codes code)
include hcodes

theorem Respelled.operationOf_eq (path : Atom) (shared : Item) (method : String)
    (operation : Item) :
    operationOf graph' path shared method operation =
      operationOf graph path shared method operation := by
  have hi : ∀ location, isIn graph' location = isIn graph location := by
    intro location
    funext parameter
    rw [isIn, isIn, h.get?_word _ (by decide)]
  unfold operationOf
  simp (disch := decide) only [h.parametersOf_eq, h.idOf_eq, h.bodySchema_eq, h.isBlank_eq, hi,
    h.responseSchema_eq _ hcodes, h.field_word]

theorem Respelled.operationsUnder_eq (path : Atom) (item : Item) :
    operationsUnder graph' path item = operationsUnder graph path item := by
  have hf : ∀ method ∈ methods, ((graph'.get? item method).bind fun operation =>
        if graph'.isMap operation then some (method, operation) else none) =
      (graph.get? item method).bind fun operation =>
        if graph.isMap operation then some (method, operation) else none := by
    intro method hm
    have hw : ∀ method ∈ methods, isNumeral method = false := by decide
    rw [h.get?_word item (hw method hm)]
    simp only [h.isMap_eq]
  unfold operationsUnder
  rw [h.isMap_eq, h.field_word _ (by decide : isNumeral "parameters" = false),
    filterMap_congr hf]
  simp only [h.operationOf_eq hcodes]

/-- The operations of a document, if the paths are the same. -/
theorem Respelled.operations_eq
    (hp : graph'.node? (pathsItem graph) = graph.node? (pathsItem graph)) :
    operations graph' = operations graph := by
  unfold operations
  rw [h.root, h.field_word _ (by decide : isNumeral "paths" = false)]
  refine bind_congr_of_ok fun paths hf => ?_
  have he : entriesOf graph' paths = entriesOf graph paths := by
    rw [eq_under_of_field hf, entriesOf, entriesOf, h.isBlank_eq, Graph.map?, Graph.map?]
    unfold pathsItem at hp
    rw [hp]
  rw [he]
  simp only [h.operationsUnder_eq hcodes]

end

/-! ## Operations and catalogs -/

/-- Codes other than 200 and 201 can be written as numbers or as texts: the operations are the same,
and so is every catalog of operations, as long as no schema has the responses of an operation in
it. -/
theorem other_codes_as_texts_keep_catalog {graph graph' : Graph} (h : Respelled codes graph graph')
    (h200 : codes 200 = false) (h201 : codes 201 = false)
    (hpaths : graph'.node? (pathsItem graph) = graph.node? (pathsItem graph)) :
    operations graph' = operations graph ∧
      ∀ chosen : List Operation, graph.Untouched graph' (componentsItem graph) →
        (∀ operation ∈ chosen, ∀ schema ∈ operation.schemas graph, graph.Untouched graph' schema) →
        ∀ ids, catalog graph' chosen ids = catalog graph chosen ids := by
  have hcodes : ∀ code ∈ responseCodes, IsOther codes code := by
    simp only [responseCodes, forall_mem_cons]
    exact ⟨isOther_toString h200, isOther_toString h201, isOther_of_word (by decide), by simp⟩
  exact ⟨h.operations_eq hcodes hpaths, fun chosen hc hs ids =>
    catalog_of_untouched h.agree (Nat.le_of_eq h.size.symm) hc hs ids⟩

/-- Nodes of other numbers stay as they are. -/
theorem node?_respell_of_ne {item : Item} (h : ∀ id ∈ ids, item ≠ .node id) :
    (respell codes ids graph).node? item = graph.node? item := by
  cases item with
  | atom value => rfl
  | node id =>
    have hi : id ∉ ids := fun hi => h id hi rfl
    simp [node?_respell, hi]

/-- Items that hold only each other are untouched if no number of them is respelled. -/
theorem untouched_respell {items : List Item}
    (hi : ∀ outer ∈ items, ((graph.node? outer).map Node.contents).getD [] ⊆ items)
    (hids : ∀ id ∈ ids, Item.node id ∉ items) {item : Item} (hit : item ∈ items) :
    graph.Untouched (respell codes ids graph) item :=
  fun _ hp => node?_respell_of_ne fun id hid he =>
    hids id hid (he ▸ Graph.mem_of_contains hi hit hp)

/-- The keys of the fields of a schema. -/
def fieldKeys : Schema → List Atom
  | .object fields _ _ => fields.map (·.key)
  | _ => []

/-- The names of the entries for all operations of a document, with the keys of their fields. -/
def entryKeys (graph : Graph) : Option (List (String × List Atom)) :=
  (do catalog graph (← operations graph) none : Reading Catalog).toOption.map fun catalog =>
    catalog.entries.map fun entry => (entry.name, fieldKeys entry.schema)

/-- A document with one operation, which has a response under a code and one for success. -/
def petsDocument (code success : Atom) : Graph :=
  let schema : Value := .map [(.text "type", .atom (.text "string"))]
  let content : Value := .map [(.text "application/json", .map [(.text "schema", schema)])]
  let responses : Value :=
    .map [(code, .map [(.text "description", .atom (.text "missing"))]),
      (success, .map [(.text "content", content)])]
  let operation : Value :=
    .map [(.text "operationId", .atom (.text "listPets")), (.text "responses", responses)]
  Graph.ofValue (.map [(.text "paths", .map [(.text "/pets", .map [(.text "get", operation)])])])

theorem isResponses_petsDocument (code success : Atom) :
    ∀ id ∈ [5], IsResponses (petsDocument code success) (.node id) := by
  intro id hi
  obtain rfl := mem_singleton.mp hi
  exact ⟨[(.text "/pets", .node 7)], .text "/pets", .node 7, "get", .node 6, rfl,
    mem_singleton_self _, by decide, rfl, rfl⟩

theorem respell_petsDocument : respell (· == 404) [5] (petsDocument (.int 404) (.text "200")) =
      petsDocument (.text "404") (.text "200") := rfl

/-- Where the response for success is found, the other code can be a number or a text. -/
theorem petsDocument_code_as_text :
    entryKeys (petsDocument (.int 404) (.text "200")) = some [("ListPetsResponse", [])] ∧
      ∃ chosen, operations (petsDocument (.int 404) (.text "200")) = .ok chosen ∧
        operations (petsDocument (.text "404") (.text "200")) = .ok chosen ∧
        catalog (petsDocument (.text "404") (.text "200")) chosen none =
          catalog (petsDocument (.int 404) (.text "200")) chosen none := by
  have hr := @respelled_respell (· == 404) [5] _
    (isResponses_petsDocument (.int 404) (.text "200"))
  have hrd : (operations (petsDocument (.int 404) (.text "200"))).toOption.map
      (·.flatMap (·.schemas (petsDocument (.int 404) (.text "200")))) =
        some [.null, .node 1] := by
    decide +kernel
  obtain ⟨ho, hc⟩ := other_codes_as_texts_keep_catalog hr rfl rfl
    (node?_respell_of_ne (by decide +kernel))
  rw [respell_petsDocument] at ho hc
  obtain ⟨chosen, hch⟩ :
    ∃ chosen, operations (petsDocument (.int 404) (.text "200")) = .ok chosen := ⟨_, rfl⟩
  rw [hch] at ho hrd
  refine ⟨by decide +kernel, chosen, hch, ho, hc chosen (.of_atom _) ?_ none⟩
  intro operation hop schema hs
  have hm : schema ∈ [Item.null, .node 1] :=
    Option.some.inj hrd ▸ mem_flatMap.mpr ⟨operation, hop, hs⟩
  rw [← respell_petsDocument]
  exact @untouched_respell _ [5] _ ([.null, .node 1] ++ [.text "string"]) (by decide +kernel)
    (by decide) _ (mem_append_left _ hm)

/-- A document in which the responses of one operation are the properties in a schema of another. -/
def codesDocument (code : Atom) : Graph where
  nodes := #[.map [(.text "description", .text "missing")], .map [(code, .node 0)],
    .map [(.text "operationId", .text "listCodes"), (.text "responses", .node 1)],
    .map [(.text "get", .node 2)],
    .map [(.text "type", .text "object"), (.text "properties", .node 1)],
    .map [(.text "schema", .node 4)], .map [(.text "application/json", .node 5)],
    .map [(.text "content", .node 6)], .map [(.text "200", .node 7)],
    .map [(.text "operationId", .text "listPets"), (.text "responses", .node 8)],
    .map [(.text "get", .node 9)], .map [(.text "/codes", .node 3), (.text "/pets", .node 10)],
    .map [(.text "paths", .node 11)]]
  root := .node 12

/-- A response under the number 200 is not found, although it is found under the text; and a schema
that has the responses of an operation in it changes with the code. -/
theorem codes_as_texts_change_catalog :
    Respelled (fun _ => true) (petsDocument (.int 404) (.int 200))
        (petsDocument (.text "404") (.text "200")) ∧
      entryKeys (petsDocument (.int 404) (.int 200)) = some [] ∧
      entryKeys (petsDocument (.text "404") (.text "200")) = some [("ListPetsResponse", [])] ∧
      Respelled (· == 404) (codesDocument (.int 404)) (codesDocument (.text "404")) ∧
      entryKeys (codesDocument (.int 404)) = some [("ListPetsResponse", [.int 404])] ∧
      entryKeys (codesDocument (.text "404")) = some [("ListPetsResponse", [.text "404"])] := by
  have hr : ∀ id ∈ [1], IsResponses (codesDocument (.int 404)) (.node id) := by
    intro id hid
    obtain rfl := mem_singleton.mp hid
    exact ⟨[(.text "/codes", .node 3), (.text "/pets", .node 10)], .text "/codes", .node 3, "get",
      .node 2, rfl, mem_cons_self .., by decide, rfl, rfl⟩
  have hp : respell (fun _ => true) [5] (petsDocument (.int 404) (.int 200)) =
      petsDocument (.text "404") (.text "200") := rfl
  exact ⟨hp ▸ respelled_respell (isResponses_petsDocument (.int 404) (.int 200)),
    by decide +kernel, by decide +kernel, respelled_respell hr, by decide +kernel,
    by decide +kernel⟩

end ApiSchema.OpenApi
