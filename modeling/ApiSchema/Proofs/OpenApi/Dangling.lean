/-
# No dangling names in catalogs of API documents

Every name that occurs in the catalog of a document is the name of an entry, however its parts are
shared and whether or not they contain themselves. A reference is made to a component whose name is
taken or queued; a name that is taken has an entry, or its entry is the one being made.
-/
import ApiSchema.Proofs.Dangling
import ApiSchema.Proofs.OpenApi.Steps

namespace ApiSchema.OpenApi

open List

/-! ## The invariant -/

/-- What holds between the steps: every name in an entry, and every name in `known`, has an entry,
is queued or is awaited, and a name that is taken has an entry or is awaited. -/
structure Settled (awaited known : List String) (progress : Progress) : Prop where
  closed : Closed progress.entries (progress.pending ++ awaited) known
  taken : ∀ name ∈ progress.taken, name ∈ progress.entries.map (·.name) ∨ name ∈ awaited

namespace Settled

variable {awaited known known' : List String} {name : String} {before progress : Progress}

theorem start : Settled [] [] .start :=
  ⟨Closed.nil, by simp [Progress.start]⟩

section

variable (h : Settled awaited known progress)
include h

theorem mono (hs : known' ⊆ known) : Settled awaited known' progress :=
  ⟨h.closed.mono hs, h.taken⟩

theorem await (name : String) : Settled (name :: awaited) known progress :=
  ⟨h.closed.await name, fun other ho =>
    (h.taken other ho).imp id (mem_cons_of_mem _)⟩

theorem warn (text : String) : Settled awaited known (progress.warn text) := by
  unfold Progress.warn
  split
  · exact h
  · exact ⟨h.closed, h.taken⟩

end

/-- A component whose name is taken leaves the queue. -/
theorem pop (h : Settled [] known before) (hp : Popped name before progress)
    (ht : name ∈ progress.taken) : Settled [] known progress := by
  rw [hp.taken] at ht
  constructor
  · rw [hp.entries]
    refine h.closed.of_promised fun other ho => ?_
    rw [append_nil] at ho
    rcases hp.rest other ho with rfl | ho
    · exact (h.taken other ht).imp id nofun
    · exact Or.inr (mem_append_left _ ho)
  · rw [hp.entries, hp.taken]
    exact h.taken

/-- A component leaves the queue and takes its name, so its entry is awaited. -/
theorem take (h : Settled [] known before) (hp : Popped name before progress) :
    Settled [name] known (progress.take name) := by
  obtain ⟨he, hpn⟩ := progress.take_entries name
  constructor
  · rw [he, hpn, hp.entries]
    refine h.closed.of_promised fun other ho => Or.inr ?_
    rw [append_nil] at ho
    rcases hp.rest other ho with rfl | ho
    · exact mem_append_right _ (mem_singleton_self _)
    · exact mem_append_left _ ho
  · intro other ho
    rw [he, hp.entries]
    rcases (progress.mem_taken_take name other).mp ho with ho | rfl
    · rw [hp.taken] at ho
      exact (h.taken other ho).imp id nofun
    · exact Or.inr (mem_singleton_self _)

/-- A component that is queued if its name is not taken has a name that may be used. -/
theorem ensure (h : Settled awaited known progress) (name : String) :
    Settled awaited (name :: known) (progress.ensure name) := by
  unfold Progress.ensure
  split
  · rename_i hm
    refine ⟨h.closed.cons ?_, h.taken⟩
    rcases Bool.or_eq_true_iff.mp hm with ht | hq
    · rcases h.taken name (by simpa using ht) with he | ha
      · exact Or.inl he
      · exact Or.inr (mem_append_right _ ha)
    · exact Or.inr (mem_append_left _ (by simpa using hq))
  · exact ⟨h.closed.push name, h.taken⟩

/-- An entry whose names may be used can be added, and its name is no longer awaited. -/
theorem add {schema : Schema} (h : Settled [name] (schema.mentions ++ known) progress)
    (category : Category) : Settled [] known (progress.add name schema category) := by
  obtain ⟨-, hp⟩ := progress.take_entries name
  constructor
  · rw [Progress.add, hp]
    exact h.closed.add (by simp) category
  · intro other ho
    refine Or.inl ?_
    rw [Progress.add, map_append]
    rcases (progress.mem_taken_take name other).mp ho with ho | rfl
    · rcases h.taken other ho with he | ha
      · exact mem_append_left _ he
      · rw [mem_singleton.mp ha]
        exact mem_append_right _ (by simp [Entry.of])
    · exact mem_append_right _ (by simp [Entry.of])

end Settled

/-! ## Conversion -/

variable {operations : List Operation}

section

variable {setting : Setting} {awaited known : List String}

/-- The names that a step gives may be used if the names that its parts give may be used. -/
theorem Composed.settled {α : Type} {parts : List Item} {mentions : α → List String}
    {step : Converter → Builder α} {convert : Converter}
    (h : Composed parts (fun asked result => mentions result ⊆ asked.flatMap (·.2.mentions)) step)
    (hp : ∀ part ∈ parts, ∀ known, Ensures (Settled awaited known) (convert part)
      fun schema => Settled awaited (schema.mentions ++ known)) (known : List String) :
    Ensures (Settled awaited known) (step convert)
      fun result => Settled awaited (mentions result ++ known) := by
  refine (h.ensures (fun asked => Settled awaited (asked.flatMap (·.2.mentions) ++ known))
    (fun _ _ text hs => hs.warn text) (fun asked part hpr => ?_) []).consequence
    (fun _ hs => hs) fun result progress hmr => ?_
  · refine (hp part hpr _).consequence (fun _ hs => hs)
      fun answer progress hs => hs.mono fun name hn => ?_
    simp only [flatMap_append, flatMap_singleton, mem_append] at hn ⊢
    tauto
  · obtain ⟨more, hm, hs⟩ := hmr
    refine hs.mono (append_subset.mpr ⟨?_, subset_append_right _ _⟩)
    exact fun name hn => mem_append_left _ (hm hn)

/-- The names in the schema of a part may be used. -/
theorem settled_schemaOf {current : Option String} {item : Item} (known : List String) :
    Ensures (Settled awaited known) (schemaOf setting current item)
      fun schema => Settled awaited (schema.mentions ++ known) := by
  refine convert_induction (motive := fun _ _ step => ∀ known, Ensures (Settled awaited known) step
    fun schema => Settled awaited (schema.mentions ++ known)) ?endless ?unknown ?component ?full
    _ current item known
  case endless => exact fun _ _ _ => ensures_throw _
  case unknown => exact fun _ _ _ => ensures_pure fun _ hs => by simpa [Schema.mentions]
  case component =>
    intro _ _ name _ _ known
    refine ensures_lift_bind fun text _ => ?_
    have he : Ensures (Settled awaited known) (modify (·.ensure text) : Builder Unit)
        fun _ => Settled awaited (text :: known) :=
      ensures_modify fun _ hs => hs.ensure text
    exact ensures_bind he fun _ => ensures_pure fun _ hs => by simpa [Schema.mentions]
  case full =>
    intro _ item convert _ ih known
    exact ((describes_fullSchema setting item).mono (List.Subset.refl _)
      fun _ _ hsp => hsp.only).settled ih known

/-- Every step in the making of a catalog leaves it settled. -/
theorem kept_settled : Kept setting operations (fun _ => True) fun _ => Settled [] [] where
  queued _ _ _ := trivial
  left h hp ht := h.pop hp ht
  component := by
    intro asked before progress later name schema h hp _ _ hr
    have hl : Settled [name] (schema.mentions ++ []) later :=
      settled_schemaOf [] _ schema later (h.take hp) hr
    exact hl.add .component
  refused h _ _ _ := h
  answered := by
    intro asked progress later role operation name schema after h _ _ _ hr
    have hl : Settled [name] (schema.mentions ++ []) later :=
      (operation.composed_step role).settled (fun part _ => settled_schemaOf) [] _ schema
        later (h.await name) hr
    exact hl.add role.category

end

/-- After all entries are added, the state is settled and no component is queued. -/
theorem settled_of_addAll {setting : Setting} {progress : Progress}
    (h : (addAll setting operations).run .start = .ok ((), progress)) :
    Settled [] [] progress ∧ progress.pending = [] := by
  obtain ⟨used, hu⟩ := exists_used_of_addAll h
  exact kept_settled.ensures_addAll hu (fun _ _ => trivial) _ _ _
    Settled.start h

/-- Whatever the document, the operations and the names to choose by are: if there is a catalog, no
name dangles in it. -/
theorem noDangling_apiCatalog {graph : Graph} {operations : List Operation}
    {ids : Option (List String)} {result : Catalog}
    (hcatalog : catalog graph operations ids = .ok result) : NoDangling result.entries := by
  obtain ⟨chosen, -, hcatalog⟩ := of_bind_eq_ok hcatalog
  obtain ⟨setting, -, hcatalog⟩ := of_bind_eq_ok hcatalog
  obtain ⟨⟨_, progress⟩, hrn, hr⟩ := of_bind_eq_ok hcatalog
  cases hr
  obtain ⟨hs, hp⟩ := settled_of_addAll hrn
  have hc := hs.closed
  rw [hp] at hc
  exact hc.noDangling

/-! ## Owners and pets that refer to each other -/

/-- A document with two components that refer to each other. The last two nodes are the response of
an operation, a list whose positions lead to a component. -/
def petGraph : Graph where
  nodes := #[.map [(.text "components", .node 1)], .map [(.text "schemas", .node 2)],
    .map [(.text "Pet", .node 3), (.text "Owner", .node 5)],
    .map [(.text "type", .text "object"), (.text "properties", .node 4)],
    .map [(.text "owner", .node 5), (.text "friend", .node 3)],
    .map [(.text "type", .text "object"), (.text "properties", .node 6)],
    .map [(.text "pets", .node 7)],
    .map [(.text "type", .text "array"), (.text "items", .node 3)],
    .map [(.text "type", .text "array"), (.text "prefixItems", .node 9)],
    .list [.node 5]]
  root := .node 0

/-- Two operations with the same response. -/
def petOperations : List Operation :=
  ["listOwners", "listPets"].map fun id =>
    ⟨.text id, "get", .text "/", .null, .node 8, [], []⟩

/-- The catalog of one of the operations has three entries and no dangling name. -/
theorem noDangling_listPetsCatalog :
    ∃ result, catalog petGraph petOperations (some ["listPets"]) = .ok result ∧
      result.entries.map (·.name) = ["Pet", "Owner", "ListPetsResponse"] ∧
      NoDangling result.entries := by
  have hn : (catalog petGraph petOperations (some ["listPets"])).toOption.map
      (fun result => result.entries.map (·.name)) = some ["Pet", "Owner", "ListPetsResponse"] := by
    decide +kernel
  cases hc : catalog petGraph petOperations (some ["listPets"]) with
  | error fault => simp [Except.toOption, hc] at hn
  | ok result =>
    refine ⟨result, rfl, ?_, noDangling_apiCatalog hc⟩
    simpa [Except.toOption, hc] using hn

end ApiSchema.OpenApi
