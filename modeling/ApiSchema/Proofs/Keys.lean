/-
# Equality of keys

Numbers of different kinds can be the same key, and so can times in different places. Being the same
key is an equivalence all the same, because two atoms are the same key if they stand for the same
thing. That is enough for the laws of maps: a map that is built has for each key the value written
last, and no key twice.
-/
import ApiSchema.Value.Basic
import ApiSchema.Proofs.Assoc
import Mathlib.Algebra.Order.Field.Power
import Mathlib.Algebra.Order.Field.Rat

namespace ApiSchema

open List

/-! ## What keys stand for -/

namespace Double

/-- The exact value of a finite number. -/
def exactValue (negative : Bool) (mantissa : Nat) (exponent : Int) : ℚ :=
  (if negative then -1 else 1) * (mantissa * 2 ^ exponent)

theorem sameMagnitude_iff (m n : Nat) (e f : Int) :
    sameMagnitude m e n f ↔ (m : ℚ) * 2 ^ e = n * 2 ^ f := by
  -- Both sides are scaled to the lesser exponent.
  have hs : ∀ x y : Int, (2 : ℚ) ^ x = (scaleUp 2 (x - y) : ℚ) * 2 ^ (min x y) := by
    intro x y
    have hsm : x = ((x - y).toNat : Int) + min x y := by omega
    calc (2 : ℚ) ^ x = 2 ^ ((x - y).toNat : Int) * 2 ^ (min x y) := by
          rw [← zpow_add₀ two_ne_zero, ← hsm]
      _ = (scaleUp 2 (x - y) : ℚ) * 2 ^ (min x y) := by
          exact congrArg (· * _) (Nat.cast_pow 2 (x - y).toNat).symm
  have hp : (2 : ℚ) ^ (min e f) ≠ 0 := zpow_ne_zero _ two_ne_zero
  unfold sameMagnitude
  rw [beq_iff_eq, ← @Nat.cast_inj ℚ, Nat.cast_mul, Nat.cast_mul, hs e f, hs f e,
    min_comm f e, ← mul_assoc, ← mul_assoc]
  exact (mul_left_inj' hp).symm

/-- Finite numbers are the same if their values are; the two zeros are. -/
theorem exactValue_eq_iff (a b : Bool) (m n : Nat) (e f : Int) : exactValue a m e =
    exactValue b n f ↔ m = 0 ∧ n = 0 ∨ a = b ∧ sameMagnitude m e n f := by
  have hz : ∀ (k : Nat) (g : Int), k = 0 ↔ (k : ℚ) * 2 ^ g = 0 := by
    intro k g
    simp [zpow_ne_zero g (two_ne_zero : (2 : ℚ) ≠ 0)]
  have hm : (0 : ℚ) ≤ m * 2 ^ e := mul_nonneg m.cast_nonneg (zpow_pos two_pos e).le
  have hn : (0 : ℚ) ≤ n * 2 ^ f := mul_nonneg n.cast_nonneg (zpow_pos two_pos f).le
  rw [sameMagnitude_iff]
  unfold exactValue
  cases a <;> cases b <;> grind

theorem exactValue_ofInt (n : Int) : exactValue (decide (n < 0)) n.natAbs 0 = n := by
  unfold exactValue
  rw [zpow_zero, mul_one, ← Int.cast_natCast (R := ℚ)]
  rcases lt_or_ge n 0 with h | h
  · rw [if_pos (by simpa using h), Int.ofNat_natAbs_of_nonpos h.le]
    simp
  · rw [if_neg (by simpa using h), Int.natAbs_of_nonneg h, one_mul]

end Double

namespace Atom

/-- What a key stands for: the value of a number, the instant of a time, where the place may be
known, or itself. -/
inductive Meaning
  | number (value : ℚ)
  | instant (isPlaced : Bool) (time : Int)
  | other (value : Atom)

/-- What a key stands for. -/
def meaning : Atom → Meaning
  | bool b => .number (ofBool b)
  | int n => .number n
  | float (.finite negative m e) => .number (Double.exactValue negative m e)
  | timestamp t => .instant t.offset.isSome (t.clock - t.offset.getD 0 * 1000000)
  | a => .other a

/-- Two atoms are the same key if they stand for the same. -/
theorem beq_iff_meaning (a b : Atom) : (a == b) ↔ a.meaning = b.meaning := by
  have hb : ∀ b c : Bool, ofBool b = ofBool c ↔ b = c := by decide
  have hint : ∀ negative m e (n : Int), (Double.finite negative m e).sameInt n ↔
      Double.exactValue negative m e = n := by
    intro negative m e n
    rw [← Double.exactValue_ofInt n, Double.exactValue_eq_iff]
    simp [Double.sameInt]
  have htm : ∀ t u : Timestamp, t.same u ↔ meaning (timestamp t) = meaning (timestamp u) := by
    intro t u
    cases ht : t.offset <;> cases hu : u.offset <;> simp [Timestamp.same, meaning, ht, hu]
  show same a b ↔ _
  rcases a with _ | _ | _ | (_ | _ | _) | _ | _ | _ | _ <;>
    rcases b with _ | _ | _ | (_ | _ | _) | _ | _ | _ | _
  case timestamp.timestamp t u => exact htm t u
  case bool.float.finite b negative m e | int.float.finite b negative m e =>
    simp [same, meaning, hint, eq_comm]
  case float.finite.bool | float.finite.int => simp [same, meaning, hint]
  all_goals simp [same, Double.same, Double.sameInt, meaning, hb, Double.exactValue_eq_iff]

instance : EquivBEq Atom where
  symm h := by rw [beq_iff_meaning] at h ⊢; exact h.symm
  trans h h' := by rw [beq_iff_meaning] at h h' ⊢; exact h.trans h'
  rfl := by intro a; rw [beq_iff_meaning]

end Atom

instance equivBEqPair {κ κ' : Type} [BEq κ] [BEq κ'] [EquivBEq κ] [EquivBEq κ'] :
    EquivBEq (κ × κ') where
  symm h := by
    obtain ⟨hfirst, hsecond⟩ := Bool.and_eq_true_iff.mp h
    exact Bool.and_eq_true_iff.mpr ⟨BEq.symm hfirst, BEq.symm hsecond⟩
  trans h h' := by
    obtain ⟨hfirst, hsecond⟩ := Bool.and_eq_true_iff.mp h
    obtain ⟨hfirst', hsecond'⟩ := Bool.and_eq_true_iff.mp h'
    exact Bool.and_eq_true_iff.mpr ⟨BEq.trans hfirst hfirst', BEq.trans hsecond hsecond'⟩
  rfl := Bool.and_eq_true_iff.mpr ⟨BEq.rfl, BEq.rfl⟩

/-! ## Maps -/

namespace Assoc

variable {κ α : Type} [BEq κ] [EquivBEq κ] {entries : List (κ × α)}

theorem get?_put (k key : κ) (value : α) :
    get? (put entries k value) key = if k == key then some value else get? entries key := by
  induction entries with
  | nil => rfl
  | cons entry rest ih =>
    obtain ⟨first, old⟩ := entry
    rw [put]
    by_cases hk : (first == k)
    · have hs : (first == key) = (k == key) := BEq.congr_left hk
      simp only [if_pos hk, get?_cons, hs]
      split <;> rfl
    · rw [if_neg hk, get?_cons, get?_cons, ih]
      by_cases hf : (first == key)
      · have ho : ¬ (k == key) := fun h => hk (BEq.trans hf (BEq.symm h))
        rw [if_pos hf, if_pos hf, if_neg ho]
      · rw [if_neg hf, if_neg hf]

/-- A map that is built has for a key the value that is written last. -/
theorem get?_ofList (entries : List (κ × α)) (key : κ) :
    get? (ofList entries) key = (entries.reverse.find? (·.1 == key)).map (·.2) := by
  induction entries using List.reverseRecOn with
  | nil => rfl
  | append_singleton entries entry ih =>
    rw [ofList_concat, get?_put]
    split <;> simp_all

/-- No two entries of the map have the same key. -/
def Distinct (entries : List (κ × α)) : Prop :=
  entries.Pairwise fun entry other => (entry.1 == other.1) = false

omit [EquivBEq κ] in
theorem key_of_mem_put {entry : κ × α} {key : κ} {value : α}
    (h : entry ∈ put entries key value) : entry.1 = key ∨ entry.1 ∈ entries.map (·.1) := by
  induction entries with
  | nil => exact Or.inl (congrArg Prod.fst (mem_singleton.mp h))
  | cons first rest ih =>
    obtain ⟨k, old⟩ := first
    rw [put] at h
    rw [map_cons, mem_cons]
    split at h <;> rcases mem_cons.mp h with rfl | h
    · exact Or.inr (Or.inl rfl)
    · exact Or.inr (Or.inr (mem_map_of_mem h))
    · exact Or.inr (Or.inl rfl)
    · exact (ih h).imp id Or.inr

omit [EquivBEq κ] in
/-- Writing keeps the keys distinct. -/
theorem Distinct.put (h : Distinct entries) (key : κ) (value : α) :
    Distinct (put entries key value) := by
  induction h with
  | nil => exact pairwise_singleton _ _
  | @cons first rest hf hr ih =>
    obtain ⟨k, old⟩ := first
    rw [Assoc.put]
    split
    · exact hr.cons hf
    · rename_i hk
      refine List.Pairwise.cons (fun entry he => ?_) ih
      rcases key_of_mem_put he with hky | hky
      · rw [hky]
        simpa using hk
      · obtain ⟨other, ho, hs⟩ := mem_map.mp hky
        rw [← hs]
        exact hf other ho

omit [EquivBEq κ] in
theorem distinct_ofList (entries : List (κ × α)) : Distinct (ofList entries) := by
  induction entries using List.reverseRecOn with
  | nil => exact List.Pairwise.nil
  | append_singleton entries entry ih =>
    rw [ofList_concat]
    exact ih.put entry.1 entry.2

omit [EquivBEq κ] in
theorem get?_eq_find? (entries : List (κ × α)) (key : κ) :
    get? entries key = (entries.find? (·.1 == key)).map (·.2) := by
  induction entries with
  | nil => rfl
  | cons entry rest ih =>
    rw [get?, find?_cons, ih]
    cases hk : entry.1 == key <;> simp

/-- With distinct keys, each entry is read under its key. -/
theorem get?_of_mem {entry : κ × α} (h : Distinct entries) (he : entry ∈ entries) :
    get? entries entry.1 = some entry.2 := by
  induction h with
  | nil => cases he
  | @cons first rest hf hr ih =>
    obtain ⟨k, value⟩ := first
    rw [get?_cons]
    rcases mem_cons.mp he with rfl | he
    · rw [if_pos BEq.rfl]
    · rw [if_neg (by simpa using hf entry he)]
      exact ih he

end Assoc

end ApiSchema
