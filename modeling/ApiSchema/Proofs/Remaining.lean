/-
# What is left to be met

A walk that enters each of finitely many elements at most once is bounded by the number of elements
that it has not entered.
-/
import Mathlib.Data.List.Basic

namespace ApiSchema

open List

variable {α : Type} [BEq α]

/-- The elements that have not been met. -/
def remaining (elements met : List α) : List α :=
  elements.filter fun element => !met.contains element

theorem length_remaining_le_length (elements met : List α) :
    (remaining elements met).length ≤ elements.length :=
  length_filter_le _ _

variable [LawfulBEq α]

theorem length_remaining_le (elements : List α) {met met' : List α} (h : met ⊆ met') :
    (remaining elements met').length ≤ (remaining elements met).length := by
  apply List.Sublist.length_le
  apply monotone_filter_right
  intro element he
  simp only [Bool.not_eq_true', contains_eq_mem, decide_eq_false_iff_not] at he ⊢
  exact fun hm => he (h hm)

/-- After an element is met, there is one less that has not been met. -/
theorem length_remaining_cons_lt {elements met : List α} {element : α} (hm : element ∈ elements)
    (hn : element ∉ met) :
    (remaining elements (element :: met)).length < (remaining elements met).length := by
  have hf : remaining elements (element :: met) =
      (remaining elements met).filter fun other => !(other == element) := by
    rw [remaining, remaining, filter_filter]
    congr 1
    funext other
    rw [contains_cons, Bool.not_or]
  rw [hf, length_filter_lt_length_iff_exists]
  refine ⟨element, mem_filter.mpr ⟨hm, by simpa using hn⟩, by simp⟩

end ApiSchema
