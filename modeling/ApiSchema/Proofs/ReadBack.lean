/-
# Values read back from their JSON form

The JSON form of a text, a whole number or a truth value is read back as that value, whatever
follows it, as long as this does not go on with a number.
-/
import Mathlib.Data.List.TakeDrop
import Mathlib.Tactic.SplitIfs
import ApiSchema.Json
import ApiSchema.Value.Written

namespace ApiSchema

open List

variable {n : Nat} {c : Char} {cs rest : List Char}

/-! ## Quoted texts -/

namespace Text

/-- Four hexadecimal digits are read back. -/
theorem unit?_hex4 (h : n < 0x10000) :
    unit? (n / 4096 % 16).digitChar (n / 256 % 16).digitChar (n / 16 % 16).digitChar
      (n % 16).digitChar = some n := by
  have hv : ∀ n < 16, hexValue? n.digitChar = some n := by decide
  have hd : ∀ m, hexValue? (m % 16).digitChar = some (m % 16) := fun m =>
    hv _ (Nat.mod_lt m (by decide))
  simp only [unit?, hd, Option.bind_eq_bind, Option.bind_some, Option.pure_def]
  congr 1
  omega

/-- The ranges of the code points of characters: halves of pairs are left out. -/
theorem toNat_bounds (c : Char) :
    c.toNat < 0xD800 ∨ 0xDFFF < c.toNat ∧ c.toNat < 0x110000 := c.valid

theorem readQuotedBody_of_unit?_eq_none {a b d : Char} (h : unit? a b c d = none) :
    readQuotedBody ('\\' :: 'u' :: a :: b :: c :: d :: rest) = none := by
  by_cases hn : ∃ e f g h tail, rest = '\\' :: 'u' :: e :: f :: g :: h :: tail
  · obtain ⟨e, f, g, h', tail, rfl⟩ := hn
    rw [readQuotedBody, h]
  · rw [readQuotedBody, h]
    rintro e f g h tail rfl
    exact hn ⟨e, f, g, h, tail, rfl⟩

/-- The escape of a character of the first plane is read as this character. What follows may be
another escape. -/
theorem readQuotedBody_escapeUnit (h : c.toNat < 0x10000) :
    readQuotedBody (escapeUnit c.toNat ++ rest) = consRead c (readQuotedBody rest) := by
  have hb := toNat_bounds c
  have hh : isHighUnit c.toNat = false := by
    simp only [isHighUnit, Bool.and_eq_false_iff, decide_eq_false_iff_not]
    omega
  have hlw : isLowUnit c.toNat = false := by
    simp only [isLowUnit, Bool.and_eq_false_iff, decide_eq_false_iff_not]
    omega
  have hc : unitChar c.toNat = c := by
    rw [unitChar, hh, hlw]
    exact c.ofNat_toNat
  simp only [escapeUnit, hex4, map_cons, map_nil, cons_append, nil_append]
  by_cases hn : ∃ e f g h tail, rest = '\\' :: 'u' :: e :: f :: g :: h :: tail
  · obtain ⟨e, f, g, h', tail, rfl⟩ := hn
    rw [readQuotedBody, unit?_hex4 h]
    cases hl : unit? e f g h' with
    | none =>
      rw [readQuotedBody_of_unit?_eq_none hl]
      rfl
    | some low => simp only [hh, Bool.false_and, Bool.false_eq_true, if_false, hc]
  · rw [readQuotedBody, unit?_hex4 h]
    · simp only [hc]
    · rintro e f g h tail rfl
      exact hn ⟨e, f, g, h, tail, rfl⟩

/-- The two escapes of a character outside the first plane are read as this character. -/
theorem readQuotedBody_escapePair (h : 0x10000 ≤ c.toNat) :
    readQuotedBody (escapeUnit (0xD800 + (c.toNat - 0x10000) / 0x400) ++
        escapeUnit (0xDC00 + (c.toNat - 0x10000) % 0x400) ++ rest) =
      consRead c (readQuotedBody rest) := by
  have hb := toNat_bounds c
  have hh : isHighUnit (0xD800 + (c.toNat - 0x10000) / 0x400) := by
    simp only [isHighUnit, Bool.and_eq_true, decide_eq_true_eq]
    omega
  have hl : isLowUnit (0xDC00 + (c.toNat - 0x10000) % 0x400) := by
    simp only [isLowUnit, Bool.and_eq_true, decide_eq_true_eq]
    omega
  have hs : 0x10000 + (0xD800 + (c.toNat - 0x10000) / 0x400 - 0xD800) * 0x400 +
      (0xDC00 + (c.toNat - 0x10000) % 0x400 - 0xDC00) = c.toNat := by
    omega
  simp only [escapeUnit, hex4, map_cons, map_nil, cons_append, nil_append]
  rw [readQuotedBody, unit?_hex4 (by omega), unit?_hex4 (by omega)]
  simp only [hh, hl, Bool.and_self, if_true, hs, c.ofNat_toNat]

theorem readQuotedBody_simple {letter : Char} (h : simpleEscape? letter = some c) :
    readQuotedBody ('\\' :: letter :: rest) = consRead c (readQuotedBody rest) := by
  have hl : letter ≠ 'u' := by
    rintro rfl
    cases h
  rw [readQuotedBody, h]
  all_goals
    intros
    exact hl ‹_›

/-- A character is read back from the form that it has inside a quoted text. -/
theorem readQuotedBody_escapeChar :
    readQuotedBody (escapeChar c ++ rest) = consRead c (readQuotedBody rest) := by
  unfold escapeChar
  split_ifs
  iterate 7
    · subst c
      exact readQuotedBody_simple rfl
  · exact readQuotedBody_escapeUnit (by omega)
  · rename_i hq hb _ _ _ _ _ hc _
    rw [singleton_append, readQuotedBody, if_neg (by simp [hc, hb])]
    · exact hq
    all_goals
      intros
      exact hb ‹_›
  · exact readQuotedBody_escapeUnit (by omega)
  · exact readQuotedBody_escapePair (by omega)

/-- A quoted text is read back. -/
theorem readQuotedBody_flatMap_escapeChar :
    readQuotedBody (cs.flatMap escapeChar ++ '"' :: rest) = some (cs, rest) := by
  induction cs with
  | nil => rw [flatMap_nil, nil_append, readQuotedBody]
  | cons c cs ih =>
    rw [flatMap_cons, append_assoc, readQuotedBody_escapeChar, ih]
    rfl

end Text

/-! ## Whole numbers -/

namespace Numeral

/-- What holds of the ten digits holds of all digits of a number. -/
theorem forall_mem_toDigits {P : Char → Prop} (h : ∀ m < 10, P m.digitChar) (n : Nat) :
    ∀ c ∈ Nat.toDigits 10 n, P c := by
  induction n using Nat.strongRecOn with
  | ind n ih =>
    rw [Nat.toDigits_eq_if (by decide)]
    split
    · rename_i hl
      exact forall_mem_singleton.mpr (h n hl)
    · exact forall_mem_append.mpr
        ⟨ih (n / 10) (by omega), forall_mem_singleton.mpr (h _ (Nat.mod_lt n (by decide)))⟩

/-- Only zero starts with a zero. -/
theorem exists_toDigits_eq_cons (h : n ≠ 0) :
    ∃ c cs, Nat.toDigits 10 n = c :: cs ∧ c ≠ '0' := by
  induction n using Nat.strongRecOn with
  | ind n ih =>
    rw [Nat.toDigits_eq_if (by decide)]
    split
    · rename_i hl
      exact ⟨_, [], rfl, (by decide : ∀ m < 10, m ≠ 0 → m.digitChar ≠ '0') n hl h⟩
    · obtain ⟨c, cs, hd, hn⟩ := ih (n / 10) (by omega) (by omega)
      exact ⟨c, cs ++ [_], by rw [hd]; rfl, hn⟩

/-- Digits have no blanks around them and are read as they are. -/
theorem trimmed_toDigits : trimmed (Nat.toDigits 10 n) = Nat.toDigits 10 n := by
  have hp : (Nat.toDigits 10 n).map plainChar = Nat.toDigits 10 n := by
    rw [map_congr_left (forall_mem_toDigits (by decide) n : ∀ c ∈ _, plainChar c = id c), map_id]
  have hd : ∀ cs : List Char, (∀ c ∈ cs, isSpace c = false) → cs.dropWhile isSpace = cs := by
    intro cs h
    cases cs with
    | nil => rfl
    | cons c rest => rw [dropWhile_cons_of_neg (by simp [h c (mem_cons_self ..)])]
  have hs : ∀ c ∈ Nat.toDigits 10 n, isSpace c = false := forall_mem_toDigits (by decide) n
  rw [trimmed, hp, hd _ hs, hd _ (by simpa using hs), reverse_reverse]

theorem mapM_digit?_toDigits : (Nat.toDigits 10 n).mapM Base.decimal.digit? =
    some ((Nat.toDigits 10 n).map fun c => c.toNat - '0'.toNat) := by
  have hd : ∀ c ∈ Nat.toDigits 10 n, Base.decimal.digit? c = some (c.toNat - '0'.toNat) :=
    forall_mem_toDigits (by decide) n
  generalize Nat.toDigits 10 n = cs at hd ⊢
  induction cs with
  | nil => rfl
  | cons c rest ih =>
    rw [mapM_cons, hd c (mem_cons_self ..), ih (forall_mem_cons.mp hd).2]
    rfl

/-- A number that is not too long is read back from its digits. -/
theorem whole_toDigits (h : n < writableBound) : whole .decimal (Nat.toDigits 10 n) = .ok n := by
  have hl : ∀ k, 0 < k → n < Nat.pow 10 k → ¬ k < (Nat.toDigits 10 n).length := fun k hk hn =>
    Nat.not_lt.mpr ((Nat.length_toDigits_le_iff (by decide) hk).mpr hn)
  unfold writableBound at h
  have hv :
      Base.decimal.ofDigits ((Nat.toDigits 10 n).map fun c => c.toNat - '0'.toNat) = n := by
    rw [Base.ofDigits, foldl_map]
    refine Eq.trans ?_ (@Nat.ofDigitChars_toDigits 10 n (by decide) (by decide))
    simp only [Nat.ofDigitChars, Nat.mul_comm, Base.radix]
  have hs : splitSign (Nat.toDigits 10 n) = (false, Nat.toDigits 10 n) := by
    have hne : ∀ c ∈ Nat.toDigits 10 n, c ≠ '-' ∧ c ≠ '+' := forall_mem_toDigits (by decide) n
    unfold splitSign
    split <;> simp_all
  have hm : ∀ digits, Base.decimal.unmarked digits = digits := by
    intro digits
    unfold Base.unmarked
    split <;> rfl
  rw [whole, trimmed_toDigits, hs]
  simp only [hm, mapM_digit?_toDigits]
  split
  · rename_i hd
    cases hd
  · rename_i hd
    simp at hd
  · rename_i hd
    cases hd
    rw [length_map, hv, decide_eq_false (hl digitLimit (by decide) h)]
    rfl

end Numeral

/-! ## JSON -/

namespace Json

open Numeral (isDigit)

theorem word?_append (w rest : List Char) : word? w (w ++ rest) = some rest := by
  induction w with
  | nil => rfl
  | cons c w ih => rw [cons_append, word?, if_pos rfl, ih]

/-- The text does not go on with a number. -/
def Stops (rest : List Char) : Prop :=
  ∀ c ∈ rest.head?, isDigit c = false ∧ c ≠ '.' ∧ c ≠ 'e' ∧ c ≠ 'E'

/-- The digits of a number are its whole part. -/
theorem wholePart?_toDigits (h : Stops rest) (n : Nat) :
    wholePart? (Nat.toDigits 10 n ++ rest) = some (Nat.toDigits 10 n, rest) := by
  by_cases hz : n = 0
  · subst hz
    rfl
  · obtain ⟨c, cs, hd, hn⟩ := Numeral.exists_toDigits_eq_cons hz
    have ha : ∀ c ∈ Nat.toDigits 10 n, isDigit c := Numeral.forall_mem_toDigits (by decide) n
    have hst : rest.takeWhile isDigit = [] ∧ rest.dropWhile isDigit = rest := by
      cases rest with
      | nil => exact ⟨rfl, rfl⟩
      | cons c rest => simp [(h c rfl).1]
    have hs : (Nat.toDigits 10 n ++ rest).span isDigit = (Nat.toDigits 10 n, rest) := by
      rw [span_eq_takeWhile_dropWhile, takeWhile_append_of_pos ha, dropWhile_append_of_pos ha,
        hst.1, hst.2, append_nil]
    rw [hd] at hs ⊢
    rw [wholePart?, digits?, hs]
    rintro _ ⟨⟩
    exact hn rfl

/-- A number that is not too long is read back from its digits. -/
theorem unsigned_toDigits (negative : Bool) (hn : n < Numeral.writableBound) (h : Stops rest) :
    unsigned negative (Nat.toDigits 10 n ++ rest) =
      .ok (.atom (.int (if negative then -n else n)), rest) := by
  have hf : fraction rest = ([], rest) := by
    unfold fraction
    split
    · exact absurd rfl (h '.' rfl).2.1
    · rfl
  have he : exponent rest = (none, rest) := by
    unfold exponent
    split
    · rename_i e _
      rw [if_neg (not_or.mpr (h e rfl).2.2)]
    · rfl
  rw [unsigned, wholePart?_toDigits h]
  simp only [required, bind, Except.bind, hf, he, Numeral.whole_toDigits hn]
  rfl

/-- The decimal form of a whole number: its digits, after a minus if it is negative. -/
theorem toList_toString (n : Int) : (toString n).toList =
    (if n < 0 then ['-'] else []) ++ Nat.toDigits 10 n.natAbs := by
  cases n with
  | ofNat n =>
    exact Nat.toList_repr
  | negSucc n =>
    rw [if_pos (Int.negSucc_lt_zero n)]
    change ("-" ++ (n + 1).repr).toList = _
    rw [String.toList_append, Nat.toList_repr]
    rfl

/-- A whole number is read back from its decimal form. -/
theorem number_toString {n : Int} (hn : n.natAbs < Numeral.writableBound) (h : Stops rest) :
    number ((toString n).toList ++ rest) = .ok (.atom (.int n), rest) := by
  rw [toList_toString]
  by_cases hng : n < 0
  · have hv : -(n.natAbs : Int) = n := by omega
    rw [if_pos hng, cons_append, nil_append, cons_append, number,
      unsigned_toDigits true hn h, if_pos rfl, hv]
  · have hv : (n.natAbs : Int) = n := by omega
    have hs : ∀ c ∈ Nat.toDigits 10 n.natAbs, c ≠ '-' :=
      Numeral.forall_mem_toDigits (by decide) _
    rw [if_neg hng, nil_append]
    cases hd : Nat.toDigits 10 n.natAbs with
    | nil => exact absurd hd Nat.toDigits_ne_nil
    | cons c cs =>
      rw [hd] at hs
      have hr := unsigned_toDigits false hn h
      rw [hd, cons_append, if_neg (by simp), hv] at hr
      rw [cons_append, number, hr]
      rintro _ ⟨⟩
      exact hs '-' (mem_cons_self ..) rfl

/-- What starts neither a list nor a map is a value without parts. -/
theorem value_eq_atom (hl : ∀ rest, cs ≠ '[' :: rest) (hm : ∀ rest, cs ≠ '\x7b' :: rest)
    (fuel : Nat) : Json.value (fuel + 1) cs = atom cs := by
  rw [Json.value]
  · exact hl
  · exact hm

theorem value_text (s : String) (rest : List Char) (fuel : Nat) :
    Json.value (fuel + 1) ((Text.quote s).toList ++ rest) = .ok (.atom (.text s), rest) := by
  rw [Text.quote, String.toList_ofList, Text.quoteChars, cons_append, append_assoc,
    singleton_append, value_eq_atom (by simp) (by simp), atom,
    Text.readQuotedBody_flatMap_escapeChar]
  change Except.ok (Value.atom (.text (String.ofList s.toList)), rest) = _
  rw [String.ofList_toList]

/-- What starts with a digit, or with a minus and a digit, is a number. -/
theorem value_eq_number (hc : c ∈ Nat.toDigits 10 n) (sign : List Char)
    (hs : sign = [] ∨ sign = ['-']) (fuel : Nat) :
    Json.value (fuel + 1) (sign ++ c :: rest) = number (sign ++ c :: rest) := by
  have hd : ∀ c ∈ Nat.toDigits 10 n,
      ['n', 't', 'f', 'N', 'I', '-', '"', '[', '\x7b'].all fun d => decide (¬ d = c ∧ ¬ c = d) :=
    Numeral.forall_mem_toDigits (by decide) n
  have ho := hd c hc
  simp only [all_cons, all_nil, Bool.and_eq_true, decide_eq_true_eq] at ho
  rcases hs with rfl | rfl <;>
    rw [value_eq_atom (by simp [ho]) (by simp [ho]), atom] <;>
    simp [words, word?, ho]

theorem value_int {n : Int} (hn : n.natAbs < Numeral.writableBound) (h : Stops rest) (fuel : Nat) :
    Json.value (fuel + 1) ((toString n).toList ++ rest) = .ok (.atom (.int n), rest) := by
  rw [← number_toString hn h, toList_toString]
  cases hd : Nat.toDigits 10 n.natAbs with
  | nil => exact absurd hd Nat.toDigits_ne_nil
  | cons c cs =>
    rw [append_assoc]
    refine value_eq_number (hd ▸ mem_cons_self ..) _ ?_ fuel
    split
    · exact Or.inr rfl
    · exact Or.inl rfl

end Json
end ApiSchema
