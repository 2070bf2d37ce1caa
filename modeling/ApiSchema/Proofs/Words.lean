/-
# Joined words

Joining the words of a name leaves no separator, and words that are joined stay as they are. This is
so because no upper-case form has a separator in it, and because each starts with a character that
is its own upper-case form.
-/
import ApiSchema.Proofs.Identifiers

namespace ApiSchema

open List

variable {c d : Char} {cs : List Char} {code : ℕ}

namespace Text

open Name (isSeparator)

/-! ## Upper-case forms -/

namespace CaseRun

variable {run other : CaseRun}

/-- Whether the codes that the run leads to are all before or all after those from `first` to
`last`. -/
def avoids (run : CaseRun) (first last : ℕ) : Bool :=
  (run.apply run.last).blt first || last.blt (run.apply run.first)

/-- Whether the run leads to no code of the other one: it avoids it, or the other one goes in steps
of two and the run leads between them. -/
def passes (run other : CaseRun) : Bool :=
  run.avoids other.first other.last ||
    other.step == 2 && (run.step == 2 || run.first == run.last) &&
      run.apply run.first % 2 != other.first % 2

theorem apply_bounds (h : run.contains code) :
    run.apply run.first ≤ run.apply code ∧ run.apply code ≤ run.apply run.last := by
  simp only [contains, Bool.and_eq_true, decide_eq_true_eq] at h
  exact ⟨Int.toNat_le_toNat (by omega), Int.toNat_le_toNat (by omega)⟩

theorem not_mem_of_avoids {first last : ℕ} (h : run.avoids first last) (hc : run.contains code) :
    ¬ (first ≤ run.apply code ∧ run.apply code ≤ last) := by
  have hb := apply_bounds hc
  simp only [avoids, Bool.or_eq_true, Nat.blt_eq] at h
  omega

theorem not_contains_apply_of_passes (hst : 0 < run.apply run.first) (h : run.passes other)
    (hc : run.contains code) : ¬ other.contains (run.apply code) := by
  intro ht
  have hbn := apply_bounds hc
  rw [passes, Bool.or_eq_true] at h
  simp only [contains, Bool.and_eq_true, decide_eq_true_eq, beq_iff_eq] at hc ht
  rcases h with ha | hb
  · simp only [avoids, Bool.or_eq_true, Nat.blt_eq] at ha
    omega
  · simp only [Bool.and_eq_true, Bool.or_eq_true, beq_iff_eq, bne_iff_ne] at hb
    obtain ⟨⟨ho, hs⟩, hod⟩ := hb
    -- The code is an even number of places behind the first one of the run.
    have he : (code - run.first) % 2 = 0 := by
      rcases hs with hs | hsn
      · exact hs ▸ hc.2
      · omega
    rw [ho] at ht
    simp only [apply] at hst hod ht
    omega

end CaseRun

/-- The codes of separators. -/
def separatorRanges : List CodeRange := ⟨0x2D, 0x2D⟩ :: ⟨0x5F, 0x5F⟩ :: blankRanges

theorem isSeparator_eq : isSeparator c = inRanges separatorRanges c.toNat := by
  have hc : ∀ d : Char, decide (c = d) = CodeRange.contains ⟨d.toNat, d.toNat⟩ c.toNat := by
    intro d
    rw [CodeRange.contains, ← Bool.decide_and, decide_eq_decide, ← Char.toNat_inj]
    exact eq_comm.trans Nat.le_antisymm_iff
  rw [isSeparator, hc, hc, Bool.or_assoc]
  rfl

/-- What the tables say: an upper-case form of several characters has no separator in it, and it
starts with a character that is its own upper-case form; a run leads to no separator and to no
character that has another upper-case form. -/
theorem tables_settle :
    (∀ special ∈ upperSpecials, special.2.all (fun code => !isSeparator (Char.ofNat code)) ∧
      special.2.head?.any fun code => upperChar (Char.ofNat code) == [Char.ofNat code]) ∧
    ∀ run ∈ upperRuns, 0 < run.apply run.first ∧
      separatorRanges.all (fun range => run.avoids range.first range.last) ∧
      upperSpecials.all (fun special => run.avoids special.1 special.1) ∧
      upperRuns.all run.passes := by
  constructor <;> decide +kernel

/-- The upper-case form of a character starts with one that is its own upper-case form. -/
theorem exists_upperChar_eq_cons_fixed :
    ∃ d ds, upperChar c = d :: ds ∧ upperChar d = [d] := by
  obtain ⟨hsp, hr⟩ := tables_settle
  rcases upperChar_cases c with
    ⟨special, hs, -, hu⟩ | ⟨run, hrn, hc, hu⟩ | hu
  · have hi := (hsp special hs).2
    rw [hu]
    cases hcd : special.2 with
    | nil => simp [hcd] at hi
    | cons code rest =>
      exact ⟨Char.ofNat code, rest.map Char.ofNat, rfl, by simpa [hcd] using hi⟩
  · refine ⟨_, [], hu, ?_⟩
    obtain ⟨hst, -, ha, hp⟩ := hr run hrn
    rcases toNat_ofNat_or with hco | hn
    · -- What the run leads to is in neither table.
      rcases upperChar_cases (Char.ofNat (run.apply c.toNat)) with
        ⟨special, hs, hk, -⟩ | ⟨other, ho, hc', -⟩ | hsl
      · rw [hco] at hk
        exact absurd ⟨Nat.le_of_eq hk, Nat.le_of_eq hk.symm⟩
          (CaseRun.not_mem_of_avoids (all_eq_true.mp ha special hs) hc)
      · rw [hco] at hc'
        exact absurd hc'
          (CaseRun.not_contains_apply_of_passes hst (all_eq_true.mp hp other ho)
            hc)
      · exact hsl
    · rw [hn]
      decide +kernel
  · exact ⟨c, [], hu, hu⟩

/-- No separator comes about in upper case. -/
theorem isSeparator_of_mem_upperChar (hc : isSeparator c = false) (h : d ∈ upperChar c) :
    isSeparator d = false := by
  obtain ⟨hs, hrn⟩ := tables_settle
  rcases upperChar_cases c with
    ⟨special, hsp, -, hu⟩ | ⟨run, hru, hcn, hu⟩ | hu
  · rw [hu] at h
    obtain ⟨code, hcd, rfl⟩ := mem_map.mp h
    simpa using all_eq_true.mp (hs special hsp).1 code hcd
  · have ha := (hrn run hru).2.1
    rw [hu, mem_singleton] at h
    subst h
    rcases toNat_ofNat_or with hcd | hn
    · rw [isSeparator_eq, hcd, inRanges, any_eq_false]
      intro range hr hm
      simp only [CodeRange.contains, Bool.and_eq_true, decide_eq_true_eq] at hm
      exact CaseRun.not_mem_of_avoids (all_eq_true.mp ha range hr) hcn hm
    · rw [hn]
      decide
  · rw [hu, mem_singleton] at h
    exact h ▸ hc

end Text

/-! ## Names -/

namespace Name

open Text

theorem isSeparator_of_mem_joinWords {raised : Bool} (h : d ∈ joinWords raised cs) :
    isSeparator d = false := by
  induction cs generalizing raised with
  | nil => cases h
  | cons c cs ih =>
    rw [joinWords] at h
    split at h
    · exact ih h
    · rename_i hc
      rcases mem_append.mp h with h | h
      · have hc := Bool.eq_false_iff.mpr hc
        cases raised with
        | true => exact isSeparator_of_mem_upperChar hc h
        | false => exact mem_singleton.mp h ▸ hc
      · exact ih h

/-- Words without separators are one word. -/
theorem joinWords_eq_self (h : ∀ c ∈ cs, isSeparator c = false) : joinWords false cs = cs := by
  induction cs with
  | nil => rfl
  | cons c cs ih =>
    obtain ⟨hc, hcs⟩ := forall_mem_cons.mp h
    rw [joinWords, if_neg (by simp [hc]), if_neg Bool.false_ne_true, ih hcs, singleton_append]

theorem isSeparator_of_mem_pascalChars (h : d ∈ pascalChars cs) : isSeparator d = false := by
  rw [pascalChars] at h
  cases hw : joinWords false cs with
  | nil =>
    rw [hw] at h
    cases h
  | cons c rest =>
    have hwr : ∀ d ∈ c :: rest, isSeparator d = false := by
      rw [← hw]
      exact fun _ => isSeparator_of_mem_joinWords
    rw [hw] at h
    rcases mem_append.mp h with h | h
    · exact isSeparator_of_mem_upperChar (hwr c (mem_cons_self ..)) h
    · exact hwr d (mem_cons_of_mem _ h)

theorem pascalChars_pascalChars :
    pascalChars (pascalChars cs) = pascalChars cs := by
  have hw := @joinWords_eq_self (pascalChars cs) fun _ => isSeparator_of_mem_pascalChars
  rw [pascalChars, hw]
  unfold pascalChars
  cases joinWords false cs with
  | nil => rfl
  | cons c rest =>
    obtain ⟨d, ds, hu, hf⟩ := exists_upperChar_eq_cons_fixed
    rw [upperFirst, hu, cons_append, upperFirst, hf, singleton_append]

/-- The words of a name are joined without a hyphen, an underscore or a blank, and joining them once
more changes nothing. -/
theorem pascalCase_joins_once (name : String) :
    (∀ c ∈ (pascalCase name).toList, c ≠ '-' ∧ c ≠ '_' ∧ isBlank c = false) ∧
      pascalCase (pascalCase name) = pascalCase name := by
  constructor
  · intro c hc
    rw [pascalCase, String.toList_ofList] at hc
    have hs := isSeparator_of_mem_pascalChars hc
    simpa [isSeparator, and_assoc] using hs
  · rw [pascalCase, pascalCase, String.toList_ofList, pascalChars_pascalChars]

end Name

end ApiSchema
