/-
# Well-typed schemas

A schema fails to have an expression only where it holds something that no schema should: a format
without a meaning, an object key that is no text, or a value without a JSON form.
-/
import Mathlib.Data.List.Basic
import ApiSchema.Proofs.Mentions
import ApiSchema.Schema.Nullability
import ApiSchema.Value.Written

namespace ApiSchema

open List

variable {fields : List (Field Schema)} {spreads : List String} {value : Value}
  {members : List Schema} {schema : Schema}

/-- Whether a format has a meaning. -/
def Format.isKnown : Format → Bool
  | other _ => false
  | _ => true

theorem Atom.unwritable?_int {n : Int} (h : Numeral.isWritable n) :
    (Atom.int n).unwritable? = none := by
  rw [unwritable?, if_pos h]

namespace Value

/-- Whether a value is a text, a truth value, or a number that is not too long to be written. -/
def isPlain : Value → Bool
  | .atom (.text _) | .atom (.bool _) | .atom (.float _) => true
  | .atom (.int n) => Numeral.isWritable n
  | _ => false

/-- Such a value has a JSON form. -/
theorem unwritable?_of_isPlain (h : value.isPlain) : value.unwritable? = none := by
  cases value with
  | atom atom =>
    cases atom with
    | int n =>
      rw [unwritable?]
      exact Atom.unwritable?_int h
    | text _ | bool _ | float _ => rfl
    | _ => cases h
  | _ => cases h

variable {values : List Value}

/-- Several values can be written if each of them can. -/
theorem firstUnwritable?_eq_none_iff :
    firstUnwritable? values = none ↔ ∀ value ∈ values, value.unwritable? = none := by
  induction values with
  | nil => simp [firstUnwritable?]
  | cons value rest ih =>
    rw [firstUnwritable?, forall_mem_cons, ← ih]
    cases value.unwritable? <;> simp

theorem firstUnwritable?_of_isPlain
    (h : ∀ value ∈ values, value.isPlain) : firstUnwritable? values = none :=
  firstUnwritable?_eq_none_iff.mpr fun value hv => unwritable?_of_isPlain (h value hv)

end Value

namespace Schema

/-- No part of the schema is code that is taken over as it stands. -/
def RawFree (schema : Schema) : Prop := ∀ code, ¬ Part (.raw code) schema

/-- What is asked of a schema apart from its parts: its kind is supported, its format has a meaning,
its keys are texts, and its values can be written. -/
def Admissible : Schema → Prop
  | .string (some format) => format.isKnown = true
  | .object fields _ _ => ∀ field ∈ fields, ∃ key, field.key = .text key
  | .enumeration values => ∀ value ∈ values, value.isPlain = true
  | .literal value => value.isPlain = true
  | .raw _ => False
  | .unsupported _ => False
  | _ => True

/-- Every part of the schema is admissible. -/
def WellTyped (schema : Schema) : Prop := ∀ part, Part part schema → part.Admissible

/-- Parts of a well-typed schema are well-typed. -/
theorem WellTyped.of_part {part : Schema} (h : WellTyped schema) (hp : Part part schema) :
    WellTyped part := fun inner hi => h inner (hi.trans hp)

theorem WellTyped.admissible (h : WellTyped schema) : schema.Admissible :=
  h schema .whole

theorem WellTyped.rawFree (h : WellTyped schema) : RawFree schema :=
  fun code hp => h (.raw code) hp

/-- A schema is well-typed if it is admissible and its children are well-typed. -/
theorem wellTyped_iff :
    WellTyped schema ↔ schema.Admissible ∧ ∀ child ∈ schema.children, WellTyped child := by
  constructor
  · intro h
    exact ⟨h.admissible, fun child hc => h.of_part (part_iff.mpr (Or.inr ⟨_, hc, .whole⟩))⟩
  · rintro ⟨hi, hch⟩ part hp
    rcases part_iff.mp hp with rfl | ⟨child, hc, hp⟩
    · exact hi
    · exact hch child hc part hp

theorem wellTyped_iff_of_isLeaf (h : schema.isLeaf) : WellTyped schema ↔ schema.Admissible := by
  simp only [WellTyped, part_iff_eq h, forall_eq]

/-- An object is well-typed if its keys are texts and its parts are. -/
@[simp] theorem wellTyped_object_iff {undeclared : Undeclared Schema} :
    WellTyped (.object fields undeclared spreads) ↔
      (∀ field ∈ fields, ∃ key, field.key = .text key) ∧
        (∀ field ∈ fields, WellTyped field.schema) ∧
          ∀ schema ∈ undeclared.schemas, WellTyped schema := by
  rw [wellTyped_iff, Admissible, children, forall_mem_append, forall_mem_map]

@[simp] theorem wellTyped_array_iff {items : Schema} : WellTyped (.array items) ↔ WellTyped items :=
  wellTyped_iff.trans (by simp [Admissible, children])

@[simp] theorem wellTyped_record_iff {key value : Schema} :
    WellTyped (.record key value) ↔ WellTyped key ∧ WellTyped value :=
  wellTyped_iff.trans (by simp [Admissible, children])

@[simp] theorem wellTyped_union_iff :
    WellTyped (.union members) ↔ ∀ member ∈ members, WellTyped member :=
  wellTyped_iff.trans (iff_of_eq (true_and _))

/-- The single concrete member of a widened schema is a part of it. -/
theorem part_stripNullability (schema : Schema) : Part schema.stripNullability schema := by
  cases schema with
  | union members =>
    rw [stripNullability]
    split
    · rename_i inner modifier hw
      rw [wrapper?] at hw
      split at hw
      · rename_i hm
        cases hw
        have hi : inner ∈ members.filter isConcrete := by
          rw [hm]
          exact mem_singleton_self inner
        exact .alternative (mem_of_mem_filter hi) .whole
      · cases hw
    · exact .whole
  | _ => exact .whole

end Schema

end ApiSchema
