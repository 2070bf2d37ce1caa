/-
# The map of scalar options

An option sets a scalar if it has an equals sign with something before and after it. The options
give a map if all of them do, and the first one that does not is reported otherwise. In the map each
name has the code of the last option with this name. That something stands before and after the
equals sign is asked of the option as it is written: a name or a code of blanks comes out empty.
-/
import Mathlib.Data.List.TakeWhile
import ApiSchema.Proofs.Assoc
import ApiSchema.ScalarOption

namespace ApiSchema

open List

variable {value : String} {name code cs : List Char} {values : List String}

theorem trimmed_eq_empty_iff : trimmed cs = "" ↔ cs.all Text.isBlank := by
  have hd : ∀ ds : List Char, ds.dropWhile Text.isBlank = [] ↔ ds.all Text.isBlank := by
    intro ds
    rw [dropWhile_eq_nil_iff, all_eq_true]
  rw [trimmed, ← String.toList_inj, String.toList_ofList, Text.trimBlank, String.toList_empty,
    reverse_eq_nil_iff, hd, all_reverse]
  refine ⟨fun h => ?_, fun h => by rw [(hd cs).mpr h]; rfl⟩
  -- What is left at the front starts with no blank, so it is nothing.
  rw [← hd]
  cases hr : cs.dropWhile Text.isBlank with
  | nil => rfl
  | cons c rest =>
    have hf := head?_dropWhile_not Text.isBlank cs
    rw [hr] at hf
    rw [hr, all_cons, Bool.and_eq_true] at h
    exact absurd h.1 (by simpa using hf)

/-! ## Single options -/

/-- The option has a name before its first equals sign and a code after it. -/
structure Splits (value : String) (name code : List Char) : Prop where
  text : value.toList = name ++ '=' :: code
  first : '=' ∉ name
  name_ne : name ≠ []
  code_ne : code ≠ []

/-- The texts before and after the first equals sign, without the blanks around them. -/
def optionPair (value : String) : String × String :=
  (trimmed (value.toList.takeWhile (· != '=')),
    trimmed ((value.toList.dropWhile (· != '=')).drop 1))

theorem Splits.parts_eq (h : Splits value name code) : value.toList.takeWhile (· != '=') = name ∧
    (value.toList.dropWhile (· != '=')).drop 1 = code := by
  have hn : ∀ c ∈ name, (c != '=') = true := by
    rintro c hc
    rw [bne_iff_ne]
    rintro rfl
    exact h.first hc
  rw [h.text, takeWhile_append_of_pos hn, dropWhile_append_of_pos hn]
  simp

theorem Splits.optionPair_eq (h : Splits value name code) :
    optionPair value = (trimmed name, trimmed code) := by
  rw [optionPair, h.parts_eq.1, h.parts_eq.2]

/-- An option that splits gives its pair, and any other one is reported. -/
theorem scalarOption_cases :
    (∃ name code, Splits value name code) ∧ scalarOption value = .ok (optionPair value) ∨
      (∀ name code, ¬ Splits value name code) ∧ scalarOption value = .error ⟨value⟩ := by
  by_cases he : (value.toList.takeWhile (· != '=')).isEmpty ||
      ((value.toList.dropWhile (· != '=')).drop 1).isEmpty
  · refine Or.inr ⟨fun name code h => ?_, if_pos he⟩
    simp only [h.parts_eq, Bool.or_eq_true, List.isEmpty_iff] at he
    exact he.elim h.name_ne h.code_ne
  · refine Or.inl ⟨?_, if_neg he⟩
    simp only [Bool.or_eq_true, List.isEmpty_iff, not_or] at he
    cases hr : value.toList.dropWhile (· != '=') with
    | nil => exact absurd (by rw [hr]; rfl) he.2
    | cons c code =>
      have hs := head?_dropWhile_not (· != '=') value.toList
      rw [hr] at hs
      obtain rfl : c = '=' := by simpa using hs
      refine ⟨_, code, ?_, fun hm => ?_, he.1, by simpa [hr] using he.2⟩
      · rw [← hr, takeWhile_append_dropWhile]
      · simpa using mem_takeWhile_imp hm

/-! ## All options -/

/-- The first option that does not split is reported, and else all of them give their pairs. -/
theorem mapM_scalarOption_cases :
    (∃ before value after, values = before ++ value :: after ∧
        (∀ earlier ∈ before, ∃ name code, Splits earlier name code) ∧
        (∀ name code, ¬ Splits value name code) ∧
        values.mapM scalarOption = .error ⟨value⟩) ∨
      (∀ value ∈ values, ∃ name code, Splits value name code) ∧
        values.mapM scalarOption = .ok (values.map optionPair) := by
  induction values with
  | nil => exact Or.inr ⟨forall_mem_nil _, rfl⟩
  | cons value values ih =>
    rw [mapM_cons]
    rcases scalarOption_cases with ⟨hs, hv⟩ | ⟨hs, hv⟩
    · rw [hv]
      rcases ih with ⟨before, first, after, rfl, hb, hf, hr⟩ | ⟨ha, hr⟩
      · rw [hr]
        exact Or.inl ⟨value :: before, first, after, rfl, forall_mem_cons.mpr ⟨hs, hb⟩,
          hf, rfl⟩
      · rw [hr]
        exact Or.inr ⟨forall_mem_cons.mpr ⟨hs, ha⟩, rfl⟩
    · rw [hv]
      exact Or.inl ⟨[], value, values, rfl, forall_mem_nil _, hs, rfl⟩

/-- Name and code stand in an option that no later option with the same name, blanks apart, goes
before. -/
def Prevails (values : List String) (name code : List Char) : Prop :=
  ∃ before value after, values = before ++ value :: after ∧ Splits value name code ∧
    ∀ later ∈ after, ∀ name' code', Splits later name' code' → trimmed name' ≠ trimmed name

theorem mem_ofList_optionPair_iff (hal : ∀ value ∈ values, ∃ name code, Splits value name code)
    (entry : String × String) :
    entry ∈ Assoc.ofList (values.map optionPair) ↔
      ∃ name code, Prevails values name code ∧ entry = (trimmed name, trimmed code) := by
  rw [← Assoc.get?_eq_some_iff_mem (Assoc.nodup_keys_ofList _), Assoc.get?_ofList_map_eq_some_iff]
  constructor
  · rintro ⟨before, value, after, rfl, hp, ha⟩
    obtain ⟨name, code, hs⟩ := hal value (by simp)
    rw [hs.optionPair_eq] at hp
    refine ⟨name, code, ⟨before, value, after, rfl, hs, ?_⟩, hp.symm⟩
    intro later hl name' code' hls he
    refine ha later hl ?_
    rw [hls.optionPair_eq, he]
    exact (Prod.mk.inj hp).1
  · rintro ⟨name, code, ⟨before, value, after, rfl, hs, ha⟩, rfl⟩
    refine ⟨before, value, after, rfl, hs.optionPair_eq, fun later hl he => ?_⟩
    obtain ⟨name', code', hls⟩ := hal later (by simp [hl])
    rw [hls.optionPair_eq] at he
    exact ha later hl name' code' hls he

/-- The first option without a name or a code is reported. If there is none, the options give a map
from the names to the codes of those that prevail, without the blanks around them; names and codes
are not empty exactly if no option that prevails has only blanks for its name or its code. -/
theorem scalarOptions_account (values : List String) :
    (∃ before value after, values = before ++ value :: after ∧
        (∀ earlier ∈ before, ∃ name code, Splits earlier name code) ∧
        (∀ name code, ¬ Splits value name code) ∧ scalarOptions values = .error ⟨value⟩) ∨
      ∃ scalars, scalarOptions values = .ok scalars ∧ (Assoc.keys scalars).Nodup ∧
        (∀ entry, entry ∈ scalars ↔
          ∃ name code, Prevails values name code ∧ entry = (trimmed name, trimmed code)) ∧
        ((∀ entry ∈ scalars, entry.1 ≠ "" ∧ entry.2 ≠ "") ↔ ∀ name code, Prevails values name code →
            ¬ name.all Text.isBlank ∧ ¬ code.all Text.isBlank) := by
  unfold scalarOptions
  rcases mapM_scalarOption_cases with
    ⟨before, value, after, hv, hb, hvl, he⟩ | ⟨ha, hpr⟩
  · rw [he]
    exact Or.inl ⟨before, value, after, hv, hb, hvl, rfl⟩
  · rw [hpr]
    have hm := mem_ofList_optionPair_iff ha
    refine Or.inr ⟨_, rfl, Assoc.nodup_keys_ofList _, hm, ?_⟩
    simp only [← trimmed_eq_empty_iff, hm]
    constructor
    · exact fun h name code hp => h _ ⟨name, code, hp, rfl⟩
    · rintro h _ ⟨name, code, hp, rfl⟩
      exact h name code hp

/-- Blanks before or after the equals sign give an empty name or an empty code. -/
theorem blanks_are_set : scalarOptions [" =z.string()"] = .ok [("", "z.string()")] ∧
      scalarOptions ["Money= "] = .ok [("Money", "")] := by
  constructor <;> rfl

end ApiSchema
