/-
# Initials

A binding has the name of its entry with the initial in lower case. The name can be recovered from
the binding if putting the initial in upper case again gives it back, and names that can be
recovered have different bindings. A name that starts in ASCII, and not with a lower-case letter,
can be recovered. No name that is composed for a fragment, an operation or a part of one starts with
a lower-case letter.
-/
import ApiSchema.GraphQL.Syntax
import ApiSchema.Name
import Mathlib.Data.Nat.Notation

namespace ApiSchema

open List

variable {specials : List (ℕ × List ℕ)} {run : CaseRun} {runs : List CaseRun} {name : String}

namespace Text

/-! ## Case in ASCII -/

/-- A table in which only the first run begins in ASCII maps characters of ASCII by this run. -/
theorem mapCase_of_lt
    (hs : ∀ special ∈ specials, 128 ≤ special.1) (hr : ∀ other ∈ runs, 128 ≤ other.first)
    {c : Char} (hc : c.toNat < 128) :
    mapCase specials (run :: runs) c =
      if run.contains c.toNat then [Char.ofNat (run.apply c.toNat)] else [c] := by
  have hl : specials.lookup c.toNat = none := by
    rw [lookup_eq_none_iff]
    intro special hsp
    have hle := hs special hsp
    rw [bne_iff_ne]
    omega
  have hf : runs.find? (·.contains c.toNat) = none := by
    rw [find?_eq_none]
    intro other ho hcn
    have hle := hr other ho
    simp only [CaseRun.contains, Bool.and_eq_true, decide_eq_true_eq] at hcn
    omega
  unfold mapCase
  rw [hl, find?_cons]
  cases run.contains c.toNat with
  | true => rfl
  | false => simp [hf]

/-- Such a table agrees in ASCII with a function that agrees with its first run. -/
theorem mapCase_eq_of_lt
    (hs : ∀ special ∈ specials, 128 ≤ special.1) (hr : ∀ other ∈ runs, 128 ≤ other.first)
    {form : Char → Char}
    (hf : ∀ code < 128, (if run.contains code then [Char.ofNat (run.apply code)]
      else [Char.ofNat code]) = [form (Char.ofNat code)])
    {c : Char} (hc : c.toNat < 128) : mapCase specials (run :: runs) c = [form c] := by
  have hcd := hf c.toNat hc
  rw [Char.ofNat_toNat] at hcd
  rw [mapCase_of_lt hs hr hc, hcd]

/-- What the tables say of ASCII: of each table only the first run begins there, and it agrees with
the letters; an upper-case form is no lower-case letter, and what is no lower-case letter is
regained from its lower-case form. -/
theorem ascii_tables :
    ((∀ special ∈ upperSpecials, 128 ≤ special.1) ∧ (∀ run ∈ upperRuns.tail, 128 ≤ run.first) ∧
      ∀ code < 128, (if CaseRun.contains ⟨0x61, 0x7A, 1, -32⟩ code
        then [Char.ofNat (CaseRun.apply ⟨0x61, 0x7A, 1, -32⟩ code)] else [Char.ofNat code]) =
          [(Char.ofNat code).toUpper]) ∧
    ((∀ special ∈ lowerSpecials, 128 ≤ special.1) ∧ (∀ run ∈ lowerRuns.tail, 128 ≤ run.first) ∧
      ∀ code < 128, (if CaseRun.contains ⟨0x41, 0x5A, 1, 32⟩ code
        then [Char.ofNat (CaseRun.apply ⟨0x41, 0x5A, 1, 32⟩ code)] else [Char.ofNat code]) =
          [(Char.ofNat code).toLower]) ∧
    ∀ code < 128, (Char.ofNat code).toUpper.isLower = false ∧
      ((Char.ofNat code).isLower = false → (Char.ofNat code).toLower.toNat < 128 ∧
        (Char.ofNat code).toLower.toUpper = Char.ofNat code) := by
  refine ⟨⟨?_, ?_, ?_⟩, ⟨?_, ?_, ?_⟩, ?_⟩ <;> decide +kernel

theorem upperChar_of_lt {c : Char} (hc : c.toNat < 128) : upperChar c = [c.toUpper] := by
  obtain ⟨⟨hs, hr, hf⟩, -⟩ := ascii_tables
  exact @mapCase_eq_of_lt upperSpecials ⟨0x61, 0x7A, 1, -32⟩ upperRuns.tail hs hr
    Char.toUpper hf c hc

theorem lowerChar_of_lt {c : Char} (hc : c.toNat < 128) : lowerChar c = [c.toLower] := by
  obtain ⟨-, ⟨hs, hr, hf⟩, -⟩ := ascii_tables
  exact @mapCase_eq_of_lt lowerSpecials ⟨0x41, 0x5A, 1, 32⟩ lowerRuns.tail hs hr
    Char.toLower hf c hc

/-- A text that starts in ASCII, and not with a lower-case letter, is regained when its initial is
put in lower case and then in upper case. -/
theorem upperFirst_lowerFirst {c : Char} (hc : c.toNat < 128) (hlw : c.isLower = false)
    (cs : List Char) : upperFirst (lowerFirst (c :: cs)) = c :: cs := by
  have hl := (ascii_tables.2.2 c.toNat hc).2
  rw [Char.ofNat_toNat] at hl
  obtain ⟨hlt, hu⟩ := hl hlw
  rw [lowerFirst, lowerChar_of_lt hc, singleton_append, upperFirst, upperChar_of_lt hlt,
    hu, singleton_append]

/-! ## Upper case -/

theorem bounds_of_isLower {c : Char} (h : c.isLower) : 97 ≤ c.toNat ∧ c.toNat ≤ 122 := by
  obtain ⟨hf, hl⟩ := Bool.and_eq_true_iff.mp h
  exact ⟨UInt32.le_iff_toNat_le.mp (of_decide_eq_true hf),
    UInt32.le_iff_toNat_le.mp (of_decide_eq_true hl)⟩

/-- The code that a lower-case letter was made from. -/
theorem bounds_of_isLower_ofNat {code : ℕ} (h : (Char.ofNat code).isLower) :
    97 ≤ code ∧ code ≤ 122 := by
  by_cases hv : code.isValidChar
  · have hc : Char.ofNat code = Char.ofNatAux code hv := dif_pos hv
    rw [hc] at h
    exact bounds_of_isLower h
  · -- No character has this code, and the null character stands for it.
    have hc : Char.ofNat code = '\x00' := dif_neg hv
    rw [hc] at h
    exact absurd h (by decide)

/-- Where the upper-case form of a character comes from. -/
theorem upperChar_cases (c : Char) :
    (∃ special ∈ upperSpecials, special.1 = c.toNat ∧ upperChar c = special.2.map Char.ofNat) ∨
      (∃ run ∈ upperRuns, run.contains c.toNat ∧ upperChar c = [Char.ofNat (run.apply c.toNat)]) ∨
      upperChar c = [c] := by
  unfold upperChar mapCase
  split
  · rename_i codes hl
    obtain ⟨before, after, hs, -⟩ := lookup_eq_some_iff.mp hl
    exact Or.inl ⟨(c.toNat, codes), by simp [hs], rfl, rfl⟩
  · split
    · rename_i run hf
      have hc := find?_some hf
      exact Or.inr (Or.inl ⟨run, mem_of_find?_eq_some hf, hc, rfl⟩)
    · exact Or.inr (Or.inr rfl)

/-- The upper-case form of a character starts with some character, and this is no lower-case letter
of ASCII. -/
theorem exists_upperChar_eq_cons (c : Char) :
    ∃ d ds, upperChar c = d :: ds ∧ d.isLower = false := by
  by_cases hc : c.toNat < 128
  · have hu := (ascii_tables.2.2 c.toNat hc).1
    rw [Char.ofNat_toNat] at hu
    exact ⟨c.toUpper, [], upperChar_of_lt hc, hu⟩
  -- All of a run is mapped before the lower-case letters or after them.
  obtain ⟨hs, hrn⟩ : (∀ special ∈ upperSpecials,
        special.2.head?.any (fun code => !(Char.ofNat code).isLower)) ∧
      ∀ run ∈ upperRuns, (run.last : Int) + run.delta < 97 ∨
        122 < (run.first : Int) + run.delta := by
    constructor <;> decide +kernel
  rcases upperChar_cases c with
    ⟨special, hsp, -, hu⟩ | ⟨run, hr, hcn, hu⟩ | hu
  · have hi := hs special hsp
    rw [hu]
    cases hcd : special.2 with
    | nil => simp [hcd] at hi
    | cons code rest =>
      exact ⟨Char.ofNat code, rest.map Char.ofNat, rfl, by simpa [hcd] using hi⟩
  · have hr := hrn run hr
    simp only [CaseRun.contains, Bool.and_eq_true, decide_eq_true_eq] at hcn
    refine ⟨_, [], hu, Bool.eq_false_iff.mpr fun hl => ?_⟩
    have hb := bounds_of_isLower_ofNat hl
    unfold CaseRun.apply at hb
    omega
  · refine ⟨c, [], hu, Bool.eq_false_iff.mpr fun hl => ?_⟩
    have hb := bounds_of_isLower hl
    omega

end Text

/-- The kind of an operation as a word in a name. -/
def GraphQL.OperationKind.title : GraphQL.OperationKind → List Char
  | query => "Query".toList
  | mutation => "Mutation".toList
  | subscription => "Subscription".toList

theorem GraphQL.OperationKind.capitalize_name (kind : GraphQL.OperationKind) :
    Text.capitalize kind.name.toList = kind.title := by
  cases kind <;> decide

namespace Name

open Text

/-! ## Names and bindings -/

/-- Whether a name is recovered from its binding by putting the initial in upper case again. -/
def isRecoverable (name : String) : Bool :=
  upperFirst (lowerFirst name.toList) == name.toList

/-- Whether a name does not start beyond ASCII. -/
def startsInAscii (name : String) : Bool := name.toList.head?.all (·.toNat < 128)

/-- Names that can be recovered have different bindings. -/
theorem eq_of_binding_eq {other : String} (hn : isRecoverable name)
    (ho : isRecoverable other) (h : binding name = binding other) : name = other := by
  have hl : lowerFirst name.toList = lowerFirst other.toList := by
    have hc := congrArg String.toList h
    simp only [binding, String.toList_append, String.toList_ofList] at hc
    exact append_cancel_right hc
  unfold isRecoverable at hn ho
  rw [beq_iff_eq] at hn ho
  rw [← String.toList_inj, ← hn, ← ho, hl]

/-! ## Composed names -/

/-- The ends of composed names, which say what the entry is for. -/
def roles : List String :=
  ["Fragment", "Query", "QueryVariables", "Mutation", "MutationVariables", "Subscription",
    "SubscriptionVariables", "Request", "Response", "Params"]

/-- The name is made of a name in the description, in words with upper-case initials, and a role. -/
def IsComposed (name : String) : Prop := ∃ text, ∃ role ∈ roles, name = pascalCase text ++ role

theorem isComposed_fragmentEntry (fragment : String) : IsComposed (fragmentEntry fragment) :=
  ⟨fragment, "Fragment", by decide, rfl⟩

theorem isComposed_responseEntry (operation : String) (kind : GraphQL.OperationKind) :
    IsComposed (responseEntry operation kind.name) := by
  refine ⟨operation, String.ofList (capitalize kind.name.toList), ?_, rfl⟩
  rw [kind.capitalize_name]
  cases kind <;> decide

theorem isComposed_variablesEntry (operation : String) (kind : GraphQL.OperationKind) :
    IsComposed (variablesEntry operation kind.name) := by
  refine ⟨operation, String.ofList (capitalize kind.name.toList) ++ "Variables", ?_, ?_⟩
  · rw [kind.capitalize_name]
    cases kind <;> decide
  · rw [variablesEntry, responseEntry, String.append_assoc]

/-- A composed name starts with a character that is no lower-case letter. -/
theorem IsComposed.exists_eq_cons (h : IsComposed name) :
    ∃ c cs, name.toList = c :: cs ∧ c.isLower = false := by
  obtain ⟨text, role, hrl, rfl⟩ := h
  rw [String.toList_append, pascalCase, pascalChars]
  cases joinWords false text.toList with
  | nil =>
    -- No word is left of the text, and the name is that of the role.
    have hr : ∀ role ∈ roles, role.toList.head?.any (!·.isLower) := by decide
    have hi := hr role hrl
    cases hc : role.toList with
    | nil => simp [hc] at hi
    | cons c cs => exact ⟨c, cs, rfl, by simpa [hc] using hi⟩
  | cons first rest =>
    obtain ⟨c, cs, hu, hl⟩ := exists_upperChar_eq_cons first
    exact ⟨c, cs ++ rest ++ role.toList, by simp [upperFirst, hu], hl⟩

theorem IsComposed.isRecoverable (h : IsComposed name)
    (ha : startsInAscii name) : isRecoverable name := by
  obtain ⟨c, cs, hn, hl⟩ := h.exists_eq_cons
  have hc : c.toNat < 128 := by simpa [startsInAscii, hn] using ha
  rw [Name.isRecoverable, beq_iff_eq, hn]
  exact upperFirst_lowerFirst hc hl cs

end Name

end ApiSchema
