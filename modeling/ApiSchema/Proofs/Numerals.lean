/-
# Decimal forms of whole numbers

The decimal form of a whole number has only digits and a sign, and no two numbers have the same one.
-/
import Mathlib.Data.List.Basic

namespace ApiSchema

open List

variable {n m : ℕ}

/-- Whether a text has only digits and signs. -/
def isNumeral (text : String) : Bool := text.toList.all fun c => c.isDigit || c == '-'

/-- The decimal form of a natural number has only digits. -/
theorem isDigit_of_mem_repr {c : Char} (h : c ∈ n.repr.toList) : c.isDigit := by
  rw [Nat.repr_eq_ofList_toDigits, String.toList_ofList] at h
  exact Nat.isDigit_of_mem_toDigits (by decide) (by decide) h

/-- The decimal form of a whole number has only digits and signs. -/
theorem isNumeral_toString (n : Int) : isNumeral (toString n) := by
  have hr : toString n = n.repr := rfl
  rw [isNumeral, all_eq_true, hr, Int.repr_eq_if]
  intro c hc
  split at hc
  · rw [isDigit_of_mem_repr hc, Bool.true_or]
  · rw [String.toList_append, mem_append] at hc
    rcases hc with hc | hc
    · obtain rfl : c = '-' := by simpa using hc
      decide
    · rw [isDigit_of_mem_repr hc, Bool.true_or]

/-- A natural number is read off its decimal form. -/
theorem eq_of_repr_eq (h : m.repr = n.repr) : m = n := by
  rw [Nat.repr_eq_ofList_toDigits, Nat.repr_eq_ofList_toDigits, String.ofList_inj] at h
  have hr := fun k : ℕ => @Nat.ofDigitChars_toDigits 10 k (by decide) (by decide)
  rw [← hr m, h, hr n]

/-- The decimal form of a natural number has no sign. -/
theorem repr_ne_minus : m.repr ≠ "-" ++ n.repr := by
  intro he
  have hs : '-' ∈ m.repr.toList := by
    rw [he, String.toList_append]
    exact mem_append_left _ (by decide)
  exact absurd (isDigit_of_mem_repr hs) (by decide)

/-- A whole number is read off its decimal form. -/
theorem eq_of_toString_eq {m n : Int} (h : toString m = toString n) : m = n := by
  have hr : m.repr = n.repr := h
  rw [Int.repr_eq_if, Int.repr_eq_if] at hr
  split at hr
  · split at hr
    · have := eq_of_repr_eq hr
      omega
    · exact absurd hr repr_ne_minus
  · split at hr
    · exact absurd hr.symm repr_ne_minus
    · rw [← String.toList_inj, String.toList_append, String.toList_append,
        append_cancel_left_eq, String.toList_inj] at hr
      have := eq_of_repr_eq hr
      omega

end ApiSchema
