/-
# Names that are identifiers

A name can be exported if it is an identifier. A composed name is one if the characters between the
separators of the text that it is made of are those of identifiers, and the first of them is no
digit. Where a word opens, some letters beyond ASCII do no harm, because their upper-case forms are
in ASCII. The binding of an identifier is an identifier.
-/
import ApiSchema.Proofs.Initials

namespace ApiSchema

open List

variable {c d : Char} {cs : List Char}

namespace Text

/-! ## Characters of identifiers -/

open Name (isIdentifierStart isIdentifierPart)

theorem le_iff_toNat_le : c ≤ d ↔ c.toNat ≤ d.toNat := UInt32.le_iff_toNat_le

theorem isIdentifierStart_iff :
    isIdentifierStart c ↔ 97 ≤ c.toNat ∧ c.toNat ≤ 122 ∨ 65 ≤ c.toNat ∧ c.toNat ≤ 90 ∨
      c.toNat = 95 ∨ c.toNat = 36 := by
  have hc : ∀ d : Char, c = d ↔ c.toNat = d.toNat := fun d => Char.toNat_inj.symm
  simp only [isIdentifierStart, Bool.or_eq_true, Bool.and_eq_true, decide_eq_true_eq,
    le_iff_toNat_le, hc, or_assoc]
  rfl

/-- The codes of digits. -/
theorem isDigit_iff : c.isDigit ↔ 48 ≤ c.toNat ∧ c.toNat ≤ 57 := by
  constructor
  · intro h
    obtain ⟨hf, hl⟩ := Bool.and_eq_true_iff.mp h
    exact ⟨UInt32.le_iff_toNat_le.mp (of_decide_eq_true hf),
      UInt32.le_iff_toNat_le.mp (of_decide_eq_true hl)⟩
  · rintro ⟨hf, hl⟩
    exact Bool.and_eq_true_iff.mpr ⟨decide_eq_true (UInt32.le_iff_toNat_le.mpr hf),
      decide_eq_true (UInt32.le_iff_toNat_le.mpr hl)⟩

theorem isIdentifierPart_eq : isIdentifierPart c = (isIdentifierStart c || c.isDigit) :=
  rfl

/-- An identifier starts with any of its characters but a digit. -/
theorem isIdentifierStart_eq :
    isIdentifierStart c = (isIdentifierPart c && !c.isDigit) := by
  rw [isIdentifierPart_eq]
  cases hd : c.isDigit with
  | false => simp
  | true =>
    refine (Bool.eq_false_iff.mpr fun hs => ?_).trans (Bool.and_false _).symm
    rw [isIdentifierStart_iff] at hs
    rw [isDigit_iff] at hd
    omega

theorem lt_of_isIdentifierPart (h : isIdentifierPart c) : c.toNat < 128 := by
  rw [isIdentifierPart_eq, Bool.or_eq_true, isIdentifierStart_iff, isDigit_iff] at h
  omega

theorem isIdentifierPart_of_le (hc : 128 ≤ c.toNat) : isIdentifierPart c = false :=
  Bool.eq_false_iff.mpr fun h => Nat.not_lt.mpr hc (lt_of_isIdentifierPart h)

theorem isDigit_of_le (hc : 128 ≤ c.toNat) : c.isDigit = false := by
  refine Bool.eq_false_iff.mpr fun h => ?_
  rw [isDigit_iff] at h
  omega

/-- A character has the code that it was made from, or it is the null character. -/
theorem toNat_ofNat_or {code : ℕ} : (Char.ofNat code).toNat = code ∨ Char.ofNat code = '\x00' := by
  by_cases hv : code.isValidChar
  · left
    have hc : Char.ofNat code = Char.ofNatAux code hv := dif_pos hv
    rw [hc]
    rfl
  · exact Or.inr (dif_neg hv)

/-! ## Upper case -/

/-- The letters beyond ASCII whose upper-case forms are in ASCII. -/
def upperInAscii : List Char := ['ß', 'ı', 'ſ', 'ﬀ', 'ﬁ', 'ﬂ', 'ﬃ', 'ﬄ', 'ﬅ', 'ﬆ']

/-- What is to be said of the upper-case form of a character: it starts with a digit if the
character is one, this start stays in or beyond ASCII in upper case, and all of the form is of
characters of identifiers if the character is one or one of the letters above. -/
def fitsUpper (c : Char) (upper : List Char) : Bool :=
  upper.head?.any (fun d => d.isDigit == c.isDigit && !upperInAscii.contains d) &&
    upper.all isIdentifierPart == (isIdentifierPart c || upperInAscii.contains c)

/-- What the tables say: in ASCII upper-case forms are so, and the lower-case forms of what an
identifier may start with are such; the upper-case forms of several characters are so; a run of
characters with single upper-case forms is in ASCII, or it is a single character with such a form,
or both the run and the forms stay away from ASCII and from the letters above; and these letters do
not stand for themselves. -/
theorem tables_fit : (∀ code < 128, fitsUpper (Char.ofNat code) [(Char.ofNat code).toUpper] ∧
      (isIdentifierStart (Char.ofNat code) → isIdentifierStart (Char.ofNat code).toLower)) ∧
    (∀ special ∈ upperSpecials, fitsUpper (Char.ofNat special.1) (special.2.map Char.ofNat)) ∧
    (∀ run ∈ upperRuns, run.last < 128 ∨ run.first = run.last ∧
        fitsUpper (Char.ofNat run.first) [Char.ofNat (run.apply run.first)] ∨
      128 ≤ (run.first : Int) + run.delta ∧ ∀ code ∈ upperInAscii.map Char.toNat,
        (code < run.first ∨ run.last < code) ∧
        ((code : Int) < run.first + run.delta ∨ (run.last : Int) + run.delta < code)) ∧
    upperInAscii.all (fun letter => upperChar letter != [letter]) := by
  refine ⟨?_, ?_, ?_, ?_⟩ <;> decide +kernel

theorem fitsUpper_singleton (hc : 128 ≤ c.toNat) (hl : c ∉ upperInAscii)
    (hp : isIdentifierPart d = false) (hdg : d.isDigit = false) (hd : d ∉ upperInAscii) :
    fitsUpper c [d] := by
  simp [fitsUpper, isIdentifierPart_of_le hc, isDigit_of_le hc, hl, hp, hdg, hd]

/-- The upper-case form of any character is so. -/
theorem fitsUpper_upperChar (c : Char) : fitsUpper c (upperChar c) := by
  obtain ⟨hasc, hs, hr, hlt⟩ := tables_fit
  -- In ASCII the codes are told one by one. Beyond it a run is told by its ends.
  by_cases hc : c.toNat < 128
  · have hf := (hasc c.toNat hc).1
    rwa [Char.ofNat_toNat, ← upperChar_of_lt hc] at hf
  have hle := Nat.le_of_not_lt hc
  rcases upperChar_cases c with
    ⟨special, hsp, hcd, hu⟩ | ⟨run, hrn, hcn, hu⟩ | hu
  · have hf := hs special hsp
    rwa [hcd, Char.ofNat_toNat, ← hu] at hf
  · simp only [CaseRun.contains, Bool.and_eq_true, decide_eq_true_eq] at hcn
    rcases hr run hrn with hlw | ⟨hsn, hf⟩ | ⟨hby, ha⟩
    · omega
    · have hcd : run.first = c.toNat := by omega
      rwa [hcd, Char.ofNat_toNat, ← hu] at hf
    · rw [hu]
      have hl : c ∉ upperInAscii := by
        intro hm
        have hsr := (ha c.toNat (mem_map_of_mem hm)).1
        omega
      rcases toNat_ofNat_or with hcd | hn
      · have hb : 128 ≤ (Char.ofNat (run.apply c.toNat)).toNat := by
          rw [hcd, CaseRun.apply]
          omega
        refine fitsUpper_singleton hle hl (isIdentifierPart_of_le hb)
          (isDigit_of_le hb) fun hm => ?_
        have ht := (ha _ (mem_map_of_mem hm)).2
        rw [hcd, CaseRun.apply] at ht
        omega
      · -- The run leads to a code that is no character.
        rw [hn]
        exact fitsUpper_singleton hle hl (by decide) (by decide) (by decide)
  · rw [hu]
    have hl : c ∉ upperInAscii := fun hm =>
      bne_iff_ne.mp (all_eq_true.mp hlt c hm) hu
    exact fitsUpper_singleton hle hl (isIdentifierPart_of_le hle) (isDigit_of_le hle) hl

/-- The upper-case form of a character starts with some character. -/
theorem exists_upperChar_eq_cons_fits (c : Char) :
    ∃ d ds, upperChar c = d :: ds ∧ d.isDigit = c.isDigit ∧ upperInAscii.contains d = false := by
  have hf := (Bool.and_eq_true_iff.mp (fitsUpper_upperChar c)).1
  cases hu : upperChar c with
  | nil => simp [hu] at hf
  | cons d ds =>
    rw [hu] at hf
    simp only [head?_cons, Option.any_some, Bool.and_eq_true, beq_iff_eq] at hf
    exact ⟨d, ds, rfl, hf.1, by simpa using hf.2⟩

/-- The upper-case form of a character is of characters of identifiers if the character is one, or
one of the letters with upper-case forms in ASCII. -/
theorem all_upperChar :
    (upperChar c).all isIdentifierPart = (isIdentifierPart c || upperInAscii.contains c) :=
  beq_iff_eq.mp (Bool.and_eq_true_iff.mp (fitsUpper_upperChar c)).2

/-- In upper case, a character that starts an upper-case form is of characters of identifiers if it
is one. -/
theorem all_upperChar_of_contains_eq_false (h : upperInAscii.contains c = false) :
    (upperChar c).all isIdentifierPart = isIdentifierPart c := by
  rw [all_upperChar, h, Bool.or_false]

end Text

namespace Name

open Text

/-! ## Composed names -/

/-- Whether a name is an identifier. -/
def isExportable (name : String) : Bool :=
  name.toList.head?.any isIdentifierStart && name.toList.all isIdentifierPart

/-- Whether the characters between separators are those of identifiers. Where a word opens, which
the flag says of the first character, it may be a letter with an upper-case form in ASCII. -/
def hasPresentableWords : Bool → List Char → Bool
  | _, [] => true
  | opening, c :: cs =>
    if isSeparator c then hasPresentableWords true cs
    else (isIdentifierPart c || opening && upperInAscii.contains c) && hasPresentableWords false cs

/-- The first character that is no separator. -/
def initial? (cs : List Char) : Option Char := cs.find? (!isSeparator ·)

/-- Whether identifiers can be composed of a text: its words are presentable, and it does not start
with a digit. -/
def isPresentable (text : String) : Bool :=
  hasPresentableWords true text.toList && !(initial? text.toList).any (·.isDigit)

/-- Words that are of characters of identifiers are presentable. -/
theorem hasPresentableWords_of_forall (h : ∀ c ∈ cs, isIdentifierPart c) (opening : Bool) :
    hasPresentableWords opening cs := by
  induction cs generalizing opening with
  | nil => rfl
  | cons c cs ih =>
    have hr := ih (forall_mem_cons.mp h).2
    rw [hasPresentableWords]
    split
    · exact hr true
    · simp [h c (mem_cons_self ..), hr false]

/-- The words joined are of characters of identifiers if they are presentable. -/
theorem all_joinWords (opening : Bool) (cs : List Char) :
    (joinWords opening cs).all isIdentifierPart = hasPresentableWords opening cs := by
  induction cs generalizing opening with
  | nil => rfl
  | cons c cs ih =>
    rw [joinWords, hasPresentableWords]
    split
    · exact ih true
    · rw [all_append, ih false]
      cases opening with
      | true => simp [all_upperChar]
      | false => simp

/-- The words joined start with the first character that is no separator, in upper case, if the
first word opens. -/
theorem joinWords_true_of_initial? (h : initial? cs = some c) :
    ∃ rest, joinWords true cs = upperChar c ++ rest := by
  induction cs with
  | nil => cases h
  | cons first cs ih =>
    rw [initial?, find?_cons] at h
    rw [joinWords]
    split
    · rename_i hs
      rw [hs] at h
      exact ih h
    · rename_i hs
      rw [Bool.eq_false_iff.mpr hs] at h
      cases h
      exact ⟨_, rfl⟩

/-- Nothing is left of separators. -/
theorem joinWords_of_initial?_eq_none (h : initial? cs = none) (opening : Bool) :
    joinWords opening cs = [] := by
  induction cs generalizing opening with
  | nil => rfl
  | cons first cs ih =>
    have hf : isSeparator first := by
      simpa using find?_eq_none.mp h first (mem_cons_self ..)
    rw [initial?, find?_cons, hf] at h
    rw [joinWords, if_pos hf]
    exact ih h true

/-- The words of a name are joined as if the first one opened, but for the initial, which may be put
in upper case a second time. -/
theorem pascalChars_eq :
    pascalChars cs = joinWords true cs ∨ pascalChars cs = upperFirst (joinWords true cs) := by
  cases cs with
  | nil => exact Or.inl rfl
  | cons c cs =>
    unfold pascalChars
    rw [joinWords, joinWords]
    split
    · exact Or.inr rfl
    · exact Or.inl rfl

/-- The words of a name have the characters of identifiers if they are presentable, and they start
with a digit if the text does. -/
theorem pascalChars_spec : (pascalChars cs).all isIdentifierPart = hasPresentableWords true cs ∧
    (pascalChars cs).head?.map (·.isDigit) = (initial? cs).map (·.isDigit) := by
  rw [← all_joinWords]
  cases hi : initial? cs with
  | none =>
    have hn := joinWords_of_initial?_eq_none hi true
    rcases pascalChars_eq with h | h <;> rw [h, hn] <;> exact ⟨rfl, rfl⟩
  | some c =>
    obtain ⟨rest, hj⟩ := joinWords_true_of_initial? hi
    obtain ⟨d, ds, hu, hd, hl⟩ := exists_upperChar_eq_cons_fits c
    rcases pascalChars_eq with h | h
    · rw [h, hj, hu]
      exact ⟨rfl, by simp [hd]⟩
    · -- What is put in upper case twice is none of the letters that would become presentable.
      obtain ⟨e, es, ha, hd', -⟩ := exists_upperChar_eq_cons_fits d
      have hal := all_upperChar_of_contains_eq_false hl
      rw [h, hj, hu, cons_append, upperFirst]
      constructor
      · rw [all_append, hal, all_cons]
      · simp [ha, hd', hd]

/-- A composed name is an identifier if its text is presentable. -/
theorem isExportable_pascalCase_append (text : String) {role : String} (hrl : role ∈ roles) :
    isExportable (pascalCase text ++ role) = isPresentable text := by
  have hr : ∀ role ∈ roles, isExportable role := by decide
  obtain ⟨hh, ha⟩ := Bool.and_eq_true_iff.mp (hr role hrl)
  obtain ⟨hw, hd⟩ := pascalChars_spec
  rw [isExportable, isPresentable, pascalCase, String.toList_append, String.toList_ofList, ← hw]
  cases hc : pascalChars text.toList with
  | nil =>
    -- Nothing is left of the text, and the name is that of the role.
    rw [hc] at hd
    have hn : initial? text.toList = none := by simpa using hd.symm
    simp [hh, ha, hn]
  | cons c cs =>
    rw [hc] at hd
    obtain ⟨initial, hi, hs⟩ := Option.map_eq_some_iff.mp hd.symm
    simp only [hi, ha, hs, isIdentifierStart_eq, cons_append, head?_cons,
      Option.any_some, all_cons, all_append, Bool.and_true]
    cases isIdentifierPart c <;> cases c.isDigit <;> simp

/-- The binding of an entry whose name is an identifier is an identifier. -/
theorem isExportable_binding {name : String} (h : isExportable name) :
    isExportable (binding name) := by
  obtain ⟨hh, ha⟩ := Bool.and_eq_true_iff.mp h
  rw [isExportable, binding, String.toList_append, String.toList_ofList]
  cases hc : name.toList with
  | nil => simp [hc] at hh
  | cons c cs =>
    rw [hc] at hh ha
    rw [all_cons, Bool.and_eq_true_iff] at ha
    have hasc := lt_of_isIdentifierPart ha.1
    have hs := (tables_fit.1 c.toNat hasc).2
    rw [Char.ofNat_toNat] at hs
    have hs := hs hh
    have hp : isIdentifierPart c.toLower := by simp [isIdentifierPart, hs]
    rw [lowerFirst, lowerChar_of_lt hasc]
    simp only [cons_append, head?_cons, Option.any_some, hs, all_cons, hp,
      all_append, ha.2, Bool.true_and]
    decide

end Name

end ApiSchema
