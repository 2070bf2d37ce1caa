/-
# Types that are met

The walk from the variables of operations lists every enumeration and every input object that they
lead to: with an input object it lists the types of its fields. What the walks list are types of the
system.
-/
import Mathlib.Data.List.Basic
import Mathlib.Data.List.Induction
import ApiSchema.GraphQL.Reach
import ApiSchema.Proofs.Mentions
import ApiSchema.Proofs.Remaining

namespace ApiSchema.GraphQL

open List

variable {names : List String} {fuel : ℕ} {types found result : List NamedType}
  {walk : List NamedType → String → List NamedType} {within : NamedType → Prop}
  {operations : List NamedOperation} {name : String} {type : NamedType}

namespace TypeSystem

variable {system : TypeSystem}

section

variable (h : system.type? name = some type)
include h

theorem mem_of_type? : type ∈ system.types :=
  mem_of_find?_eq_some h

theorem name_of_type? : type.name = name := by
  simpa using find?_some h

theorem type?_name : system.type? type.name = some type := by
  rw [name_of_type? h]
  exact h

end

theorem type?_of_root? {kind : OperationKind} (h : system.root? kind = some type) :
    system.type? type.name = some type := by
  cases kind <;>
    · obtain ⟨name, -, ht⟩ := Option.bind_eq_some_iff.mp h
      exact type?_name ht

/-- The types are those that the system knows by their names. -/
def Known (system : TypeSystem) (types : List NamedType) : Prop :=
  ∀ type ∈ types, system.type? type.name = some type

/-- A type that is found may be added. -/
theorem Known.concat (h : system.Known types)
    (ht : system.type? name = some type) : system.Known (types ++ [type]) :=
  forall_mem_concat h (type?_name ht)

/-! ## From variables -/

/-- The type of the name is listed, if it is an enumeration or an input object. -/
def Listed (system : TypeSystem) (types : List NamedType) (name : String) : Prop :=
  ∀ type, system.type? name = some type → type.isEnum = true ∨ type.isInput = true → type ∈ types

/-- What a walk leaves behind: it only lists more types, and with an input object that it lists it
lists the types of the fields. -/
structure Walked (system : TypeSystem) (found result : List NamedType) : Prop where
  known : system.Known result
  subset : found ⊆ result
  closed : ∀ type ∈ result, type ∈ found ∨
    ∀ field ∈ type.inputFields, system.Listed result field.type.baseName

theorem Listed.mono {types' : List NamedType} (h : system.Listed types name)
    (hs : types ⊆ types') : system.Listed types' name :=
  fun type ht hk => hs (h type ht hk)

theorem Listed.of_mem (ht : system.type? name = some type)
    (hm : type ∈ types) : system.Listed types name := by
  intro other ho _
  rw [← Option.some.inj (ht.symm.trans ho)]
  exact hm

theorem Listed.of_isEnum_eq_false (ht : system.type? name = some type)
    (he : type.isEnum = false) (hi : type.isInput = false) : system.Listed types name := by
  intro other ho hk
  obtain rfl := Option.some.inj (ht.symm.trans ho)
  simp [he, hi] at hk

theorem Walked.refl (h : system.Known found) : system.Walked found found :=
  ⟨h, fun _ ht => ht, fun _ ht => Or.inl ht⟩

theorem Walked.trans {middle : List NamedType} (h : system.Walked found middle)
    (h' : system.Walked middle result) : system.Walked found result where
  known := h'.known
  subset := fun _ ht => h'.subset (h.subset ht)
  closed := by
    intro type ht
    rcases h'.closed type ht with hm | hc
    · exact (h.closed type hm).imp (fun hfn => hfn) fun hc field hf =>
        (hc field hf).mono h'.subset
    · exact Or.inr hc

/-- A walk may start by listing a type, if it then lists the types of its fields. -/
theorem Walked.of_concat
    (h : system.Walked (found ++ [type]) result)
    (hfl : ∀ field ∈ type.inputFields, system.Listed result field.type.baseName) :
    system.Walked found result where
  known := h.known
  subset := fun _ hf => h.subset (mem_append_left _ hf)
  closed := by
    intro other ho
    rcases h.closed other ho with hb | hc
    · rcases mem_append.mp hb with hf | hl
      · exact Or.inl hf
      · rw [mem_singleton.mp hl]
        exact Or.inr hfl
    · exact Or.inr hc

/-- The names of the types of the system that are not listed. -/
def unlisted (system : TypeSystem) (found : List NamedType) : List String :=
  remaining (system.types.map (·.name)) (found.map (·.name))

theorem length_unlisted_le (h : found ⊆ result) :
    (system.unlisted result).length ≤ (system.unlisted found).length :=
  length_remaining_le _ (map_subset _ h)

theorem length_unlisted_concat_lt (ht : type ∈ system.types)
    (hn : type.name ∉ found.map (·.name)) :
    (system.unlisted (found ++ [type])).length < (system.unlisted found).length := by
  have hs : type.name :: found.map (·.name) ⊆ (found ++ [type]).map (·.name) := by
    simp
  exact Nat.lt_of_le_of_lt (length_remaining_le _ hs)
    (length_remaining_cons_lt (mem_map_of_mem ht) hn)

/-- Walks from several names, if each walk does what it should. -/
theorem walked_foldl {bound : ℕ}
    (hw : ∀ found name, system.Known found → (system.unlisted found).length < bound →
      system.Walked found (walk found name) ∧ system.Listed (walk found name) name) :
    ∀ found, system.Known found → (system.unlisted found).length < bound →
      system.Walked found (names.foldl walk found) ∧
        ∀ name ∈ names, system.Listed (names.foldl walk found) name := by
  induction names with
  | nil => exact fun found hk _ => ⟨.refl hk, by simp⟩
  | cons first rest ih =>
    intro found hk hb
    obtain ⟨hf, hl⟩ := hw found first hk hb
    have hls := system.length_unlisted_le hf.subset
    obtain ⟨hr, hnm⟩ := ih _ hf.known (by omega)
    refine ⟨hf.trans hr, fun name hn => ?_⟩
    rcases mem_cons.mp hn with rfl | hn
    · exact hl.mono hr.subset
    · exact hnm name hn

/-- A walk lists the type of its name and, for each input object that it lists, the types of the
fields, if the depth suffices. -/
theorem walked_reachInputs (system : TypeSystem) :
    ∀ found name, system.Known found → (system.unlisted found).length < fuel →
      system.Walked found (system.reachInputs fuel found name) ∧
        system.Listed (system.reachInputs fuel found name) name := by
  induction fuel with
  | zero =>
    intro found name _ hfu
    omega
  | succ fuel ih =>
    intro found name hk hfu
    rw [reachInputs]
    by_cases hf : found.any (·.name == name)
    · -- A type that has been met has its name from the system.
      rw [if_pos hf]
      refine ⟨.refl hk, fun type ht _ => ?_⟩
      obtain ⟨other, ho, hn⟩ := any_eq_true.mp hf
      have hs := hk other ho
      rw [eq_of_beq hn, ht] at hs
      rw [Option.some.inj hs]
      exact ho
    · rw [if_neg hf]
      have hnw : name ∉ found.map (·.name) := by simpa using hf
      cases ht : system.type? name with
      | none => exact ⟨.refl hk, by simp [Listed, ht]⟩
      | some type =>
        dsimp only
        cases hkn : type.kind with
        | enum values =>
          have hw := Walked.refl (hk.concat ht)
          refine ⟨hw.of_concat ?_, .of_mem ht (by simp)⟩
          simp [NamedType.inputFields, hkn]
        | input fields =>
          have hl := length_unlisted_concat_lt (mem_of_type? ht)
            (name_of_type? ht ▸ hnw)
          obtain ⟨hw, hfl⟩ := walked_foldl ih
            (found ++ [type]) (hk.concat ht) (by omega)
          refine ⟨hw.of_concat ?_, .of_mem ht (hw.subset (by simp))⟩
          rw [NamedType.inputFields, hkn]
          exact fun field hfi => hfl _ (mem_map_of_mem hfi)
        | scalar | object | interface | union =>
          refine ⟨.refl hk, .of_isEnum_eq_false ht ?_ ?_⟩
          · simp [NamedType.isEnum, hkn]
          · simp [NamedType.isInput, hkn]

/-- The types that variables lead to: those of the variables, and with an input object those of its
fields. -/
theorem walked_inputsOf (system : TypeSystem) (operations : List NamedOperation) :
    system.Known (system.inputsOf operations) ∧
      (∀ operation ∈ operations, ∀ v ∈ operation.variableDefs,
        system.Listed (system.inputsOf operations) v.type.baseName) ∧
      ∀ type ∈ system.inputsOf operations, ∀ field ∈ type.inputFields,
        system.Listed (system.inputsOf operations) field.type.baseName := by
  have hs : (system.unlisted []).length < system.types.length + 1 := by
    have hl : (system.unlisted []).length ≤ (system.types.map (·.name)).length :=
      length_remaining_le_length _ _
    rw [length_map] at hl
    exact Nat.lt_succ_of_le hl
  obtain ⟨hw, hn⟩ := walked_foldl system.walked_reachInputs []
    (by simp [Known]) hs
  refine ⟨hw.known, fun operation ho v hv => ?_, fun type ht => ?_⟩
  · exact hn _ (mem_flatMap.mpr ⟨operation, ho, mem_map_of_mem hv⟩)
  · exact (hw.closed type ht).resolve_left (by simp)

/-- Walks from several names stay within a property, if each of them does. -/
theorem within_foldl
    (hw : ∀ name ∈ names, ∀ found, (∀ type ∈ found, within type) →
      ∀ type ∈ walk found name, within type) :
    ∀ found, (∀ type ∈ found, within type) → ∀ type ∈ names.foldl walk found, within type := by
  induction names with
  | nil => exact fun found hf => hf
  | cons first rest ih =>
    intro found hf
    exact ih (forall_mem_cons.mp hw).2 _
      (hw first (mem_cons_self ..) found hf)

/-- A walk stays within a property that the fields of input objects do not leave. -/
theorem within_reachInputs
    (hfl : ∀ type, within type → ∀ field ∈ type.inputFields,
      ∀ other, system.type? field.type.baseName = some other →
        other.isEnum ∨ other.isInput → within other) (fuel : ℕ) :
    ∀ name, (∀ type, system.type? name = some type → type.isEnum ∨ type.isInput → within type) →
      ∀ found, (∀ type ∈ found, within type) →
        ∀ type ∈ system.reachInputs fuel found name, within type := by
  induction fuel with
  | zero => exact fun name _ found hf => hf
  | succ fuel ih =>
    intro name hn found hf
    have hc : ∀ type, within type → ∀ other ∈ found ++ [type], within other :=
      fun type ht => forall_mem_concat hf ht
    rw [reachInputs]
    split
    · exact hf
    · split
      · exact hf
      · rename_i type ht
        split
        · rename_i hk
          exact hc type (hn type ht (Or.inl (by simp [NamedType.isEnum, hk])))
        · rename_i fields hk
          have hw := hn type ht (Or.inr (by simp [NamedType.isInput, hk]))
          refine within_foldl (fun other ho => ?_) _ (hc type hw)
          obtain ⟨field, hfi, rfl⟩ := mem_map.mp ho
          refine ih _ (hfl type hw field ?_)
          rw [NamedType.inputFields, hk]
          exact hfi
        · exact hf

/-- The types that variables lead to have every property that the types of variables have and that
the fields of input objects do not leave. -/
theorem of_mem_inputsOf
    (hvr : ∀ operation ∈ operations, ∀ v ∈ operation.variableDefs,
      ∀ type, system.type? v.type.baseName = some type → type.isEnum ∨ type.isInput → within type)
    (hf : ∀ type, within type → ∀ field ∈ type.inputFields,
      ∀ other, system.type? field.type.baseName = some other →
        other.isEnum ∨ other.isInput → within other) :
    ∀ type ∈ system.inputsOf operations, within type := by
  refine within_foldl (fun name hn => within_reachInputs hf _ name ?_) [] (by simp)
  obtain ⟨operation, ho, hn⟩ := mem_flatMap.mp hn
  obtain ⟨v, hv, rfl⟩ := mem_map.mp hn
  exact hvr operation ho v hv

theorem isEnum_or_isInput_of_mem_inputsOf
    (h : type ∈ system.inputsOf operations) : type.isEnum ∨ type.isInput :=
  of_mem_inputsOf (fun _ _ _ _ _ _ hk => hk) (fun _ _ _ _ _ _ hk => hk) type h

theorem inputsOf_subset {others : List NamedOperation} (h : operations ⊆ others) :
    system.inputsOf operations ⊆ system.inputsOf others := by
  obtain ⟨-, hv, hf⟩ := system.walked_inputsOf others
  exact fun type ht => of_mem_inputsOf
    (fun operation ho => hv operation (h ho)) hf type ht

/-! ## From selections -/

/-- A walk through selections lists types of the system. -/
theorem known_reachEnums {documents : Documents} :
    ∀ (parent : NamedType) (met : Met) (selections : List Selection), system.Known met.enums →
      system.Known (system.reachEnums documents fuel parent met selections).enums := by
  induction fuel with
  | zero => exact fun parent met selections h => h
  | succ fuel ih =>
    intro parent met selections hm
    refine List.foldlRecOn (motive := fun met : Met => system.Known met.enums) selections _ hm
      fun met hm selection _ => ?_
    cases selection with
    | field responseName name arguments directives inner =>
      dsimp only
      cases ht : (parent.fieldType? name).bind fun type => system.type? type.baseName with
      | none => exact hm
      | some type =>
        obtain ⟨reference, -, hf⟩ := Option.bind_eq_some_iff.mp ht
        dsimp only
        split
        · exact hm.concat hf
        · split
          · split
            · exact ih _ _ _ hm
            · exact hm
          · exact hm
    | spread name directives =>
      dsimp only
      split
      · exact hm
      · split
        · exact hm
        · split
          · exact hm
          · split
            · exact ih _ _ _ hm
            · exact hm
    | inline condition directives inner => exact ih _ _ _ hm

/-- The enumerations that selections lead to are types of the system. -/
theorem known_enumsOf (system : TypeSystem) (documents : Documents) :
    system.Known (system.enumsOf documents) := by
  refine List.foldlRecOn (motive := fun met : Met => system.Known met.enums) documents.fragments _
    ?_ fun met hm fragment _ => ?_
  · refine List.foldlRecOn (motive := fun met : Met => system.Known met.enums)
      documents.operations _ (by simp [Known]) fun met hm operation _ => ?_
    split
    · exact hm
    · exact known_reachEnums _ _ _ hm
  · split
    · exact hm
    · split
      · exact known_reachEnums _ _ _ hm
      · exact hm

end TypeSystem

end ApiSchema.GraphQL
