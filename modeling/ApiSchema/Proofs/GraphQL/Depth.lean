/-
# The depth of selections

If no fragment leads back to itself, selections are nested to a bounded depth, also through the
fragments that they spread. The depth of a setting is such a bound, and selections of a bounded
depth are read to the end.
-/
import Mathlib.Algebra.Order.BigOperators.Group.List
import Mathlib.Logic.Relation
import Mathlib.Tactic.Linarith
import ApiSchema.Proofs.GraphQL.Variation

namespace ApiSchema.GraphQL

variable {bound bound' : ℕ} {setting : Setting}
  {selection : Selection} {fragment : SourcedFragment} {α : Type} {selections : List Selection}
  {documents : Documents} {selected : Selected}

open List Relation

/-! ## Spreads -/

namespace Documents

/-- The first fragment spreads the second one at some depth of its selections. -/
def Spreads (documents : Documents) (name other : String) : Prop :=
  ∃ fragment, documents.fragment? name = some fragment ∧
    other ∈ Selection.spreadNamesOfAll fragment.selections

/-- No fragment leads back to itself. -/
def Acyclic (documents : Documents) : Prop := ∀ name, ¬ TransGen documents.Spreads name name

/-- The selections lead to the fragment through a chain of spreads. -/
def Leads (documents : Documents) (selections : List Selection) (name : String) : Prop :=
  ∃ first ∈ Selection.spreadNamesOfAll selections, ReflTransGen documents.Spreads first name

end Documents

/-- A selection is not larger than all selections together. -/
theorem size_le_sizeOfAll (h : selection ∈ selections) :
    selection.size ≤ Selection.sizeOfAll selections := by
  induction selections with
  | nil => cases h
  | cons first rest ih =>
    rw [Selection.sizeOfAll]
    rcases mem_cons.mp h with rfl | h
    · omega
    · have := ih h
      omega

/-- A selection spreads nothing that all selections together do not spread. -/
theorem spreadNames_subset (h : selection ∈ selections) :
    selection.spreadNames ⊆ Selection.spreadNamesOfAll selections := by
  rw [spreadNamesOfAll_eq_flatMap]
  exact fun _ hn => mem_flatMap.mpr ⟨selection, h, hn⟩

/-! ## Bounded depth -/

/-- The selections are nested less deep than the bound; the selections of a fragment count as nested
in its spread. -/
def Shallow (documents : Documents) : ℕ → List Selection → Prop
  | 0, _ => False
  | bound + 1, selections =>
    ∀ selection ∈ selections, match selection with
      | .field _ _ _ _ (some inner) => Shallow documents bound inner
      | .field _ _ _ _ none => True
      | .spread name _ => ∀ fragment, documents.fragment? name = some fragment →
          Shallow documents bound fragment.selections
      | .inline _ _ inner => Shallow documents bound inner

namespace Shallow

variable {documents : Documents}

/-- Selections below a bound are below a greater bound. -/
theorem succ : ∀ {selections : List Selection}, Shallow documents bound selections →
    Shallow documents (bound + 1) selections := by
  induction bound with
  | zero => exact fun h => h.elim
  | succ bound ih =>
    intro selections h selection hm
    have hs := h selection hm
    match selection with
    | .field _ _ _ _ (some inner) => exact ih hs
    | .field _ _ _ _ none => trivial
    | .spread name _ => exact fun fragment hf => ih (hs fragment hf)
    | .inline _ _ inner => exact ih hs

theorem mono (h : Shallow documents bound selections) (hl : bound ≤ bound') :
    Shallow documents bound' selections := by
  induction hl with
  | refl => exact h
  | step _ ih => exact ih.succ

/-- Selections in a row are below a bound if both parts are. -/
theorem append {first second : List Selection} (h : Shallow documents bound first)
    (h' : Shallow documents bound second) : Shallow documents bound (first ++ second) := by
  cases bound with
  | zero => exact h.elim
  | succ bound =>
    exact forall_mem_append.mpr ⟨h, h'⟩

end Shallow

/-- The number of selections in some fragments, and one for each fragment. -/
def weight (fragments : List SourcedFragment) : ℕ :=
  (fragments.map fun fragment => Selection.sizeOfAll fragment.selections + 1).sum

/-- Taking out the fragments of a name takes out the weight of each of them. -/
theorem weight_filter_lt {fragments : List SourcedFragment} (h : fragment ∈ fragments) :
    weight (fragments.filter fun other => decide (other.name ≠ fragment.name)) +
      Selection.sizeOfAll fragment.selections < weight fragments := by
  have hl : ∀ rest : List SourcedFragment,
      weight (rest.filter fun other => decide (other.name ≠ fragment.name)) ≤ weight rest := by
    intro rest
    exact ((filter_sublist).map _).sum_le_sum (fun _ _ => Nat.zero_le _)
  induction fragments with
  | nil => cases h
  | cons first rest ih =>
    have hc : weight (first :: rest) =
        Selection.sizeOfAll first.selections + 1 + weight rest := by
      rw [weight, map_cons, sum_cons, ← weight]
    have hr := hl rest
    rcases mem_cons.mp h with rfl | h
    · rw [filter_cons_of_neg (by simp)]
      omega
    · have := ih h
      by_cases hn : first.name = fragment.name
      · rw [filter_cons_of_neg (by simpa using hn)]
        omega
      · rw [filter_cons_of_pos (by simpa using hn), weight, map_cons, sum_cons, ← weight]
        omega

/-- Selections that lead only to some fragments are nested less deep than these weigh. -/
theorem shallow_of_weight (ha : documents.Acyclic) (bound : ℕ) : ∀ rest selections,
      (∀ name fragment, documents.Leads selections name →
        documents.fragment? name = some fragment → fragment ∈ rest) →
      weight rest + Selection.sizeOfAll selections < bound →
        Shallow documents bound selections := by
  induction bound with
  | zero =>
    intro rest selections _ hb
    omega
  | succ bound ih =>
    intro rest selections hl hb selection hm
    have hsz := size_le_sizeOfAll hm
    have hnm := spreadNames_subset hm
    -- Selections inside of this one lead to nothing new.
    have hi : ∀ inner, Selection.spreadNamesOfAll inner ⊆ selection.spreadNames →
        Selection.sizeOfAll inner < selection.size → Shallow documents bound inner := by
      intro inner hs hls
      refine ih rest inner (fun name fragment hn => hl name fragment ?_) (by omega)
      obtain ⟨first, hfr, hc⟩ := hn
      exact ⟨first, hnm (hs hfr), hc⟩
    match selection with
    | .field _ _ _ _ none => trivial
    | .field _ _ _ _ (some inner) | .inline _ _ inner =>
      refine hi inner ?_ ?_
      · exact List.Subset.refl _
      · rw [Selection.size]
        omega
    | .spread name directives =>
      intro fragment hf
      have hs : name ∈ Selection.spreadNamesOfAll selections :=
        hnm (by simp [Selection.spreadNames])
      have hm : fragment ∈ rest := hl name fragment ⟨name, hs, .refl⟩ hf
      have hn : fragment.name = name := by simpa using find?_some hf
      have hls := weight_filter_lt hm
      refine ih (rest.filter fun other => decide (other.name ≠ fragment.name)) _
        (fun other fragment' ho hf' => ?_) (by omega)
      obtain ⟨first, hfr, hc⟩ := ho
      have hst : documents.Spreads name first := ⟨fragment, hf, hfr⟩
      rw [mem_filter, decide_eq_true_iff]
      refine ⟨hl other fragment' ⟨name, hs, .head hst hc⟩ hf', ?_⟩
      -- The fragment does not lead back to itself.
      have hn' : fragment'.name = other := by simpa using find?_some hf'
      rw [hn', hn]
      rintro rfl
      exact ha other (.head' hst hc)

/-- Several selections in a row have the size of all. -/
theorem sizeOfAll_append (first second : List Selection) : Selection.sizeOfAll (first ++ second) =
    Selection.sizeOfAll first + Selection.sizeOfAll second := by
  induction first with
  | nil => simp [Selection.sizeOfAll]
  | cons selection rest ih =>
    rw [cons_append, Selection.sizeOfAll, Selection.sizeOfAll]
    omega

/-- Some fragments weigh as much as their selections and their number. -/
theorem weight_eq (fragments : List SourcedFragment) : weight fragments =
    Selection.sizeOfAll (fragments.flatMap (·.selections)) + fragments.length := by
  induction fragments with
  | nil => rfl
  | cons first rest ih =>
    rw [weight, map_cons, sum_cons, ← weight, flatMap_cons, sizeOfAll_append, length_cons]
    omega

/-- If no fragment leads back to itself, selections are nested less deep than they and all fragments
weigh. -/
theorem Documents.Acyclic.shallow (h : documents.Acyclic)
    (hb : weight documents.fragments + Selection.sizeOfAll selections < bound) :
    Shallow documents bound selections :=
  shallow_of_weight h bound documents.fragments selections
    (fun _ _ _ hf => mem_of_find?_eq_some hf) hb

/-- The depth of a setting exceeds the weight of its fragments and of selections that are not larger
than the documents. -/
theorem weight_lt_depth (hsz : Selection.sizeOfAll selections ≤ setting.documents.size) :
    weight setting.documents.fragments + Selection.sizeOfAll selections < setting.depth := by
  have hw := weight_eq setting.documents.fragments
  have hf : Selection.sizeOfAll (setting.documents.fragments.flatMap (·.selections)) ≤
      setting.documents.size := Nat.le_add_left _ _
  rw [Setting.depth]
  generalize setting.documents.fragments.length = fragments at hw ⊢
  generalize setting.documents.size = size at hsz hf ⊢
  generalize setting.system.types.length = types
  have hs : size + fragments + size <
      (size + fragments + 1 + 1) * (size + fragments + 1 + 1) := by
    nlinarith
  calc weight setting.documents.fragments + Selection.sizeOfAll selections
      ≤ size + fragments + size := by omega
    _ < (size + fragments + 1 + 1) * (size + fragments + 1 + 1) := hs
    _ ≤ (fragments + 1) * (size + fragments + 1 + 1) * (size + fragments + 1 + 1) := by
        gcongr
        exact Nat.le_mul_of_pos_left _ (Nat.succ_pos _)
    _ ≤ (fragments + 1) * (size + fragments + 1 + 1) * (size + fragments + 1 + 1) * (types + 1) :=
        Nat.le_mul_of_pos_right _ (Nat.succ_pos _)

theorem sizeOfAll_le_flatMap {elements : List α} {element : α} (h : element ∈ elements)
    {inside : α → List Selection} :
    Selection.sizeOfAll (inside element) ≤ Selection.sizeOfAll (elements.flatMap inside) := by
  obtain ⟨before, after, rfl⟩ := append_of_mem h
  rw [flatMap_append, flatMap_cons, sizeOfAll_append, sizeOfAll_append]
  omega

theorem sizeOfAll_operation_le {operation : NamedOperation} (h : operation ∈ documents.operations) :
    Selection.sizeOfAll operation.selections ≤ documents.size :=
  (sizeOfAll_le_flatMap h).trans (Nat.le_add_right _ _)

theorem sizeOfAll_fragment_le (h : fragment ∈ documents.fragments) :
    Selection.sizeOfAll fragment.selections ≤ documents.size :=
  (sizeOfAll_le_flatMap h).trans (Nat.le_add_left _ _)

/-! ## Reading to the end -/

theorem nesting_shallow :
    Nesting fun bound _ selections => Shallow documents bound selections where
  mono h hl _ := h.mono hl
  append h h' := h.append h'
  one {bound _ _ _} h hm := by
    cases bound with
    | zero => exact h.elim
    | succ bound =>
      exact forall_mem_singleton.mpr (h _ hm)
  field h := h _ (mem_singleton_self _)
  inline h := h _ (mem_singleton_self _)

/-- What is spread in the selections of a fragment that is being merged is reached from it. -/
def SpreadsBelow (documents : Documents) (merging : List String) (selections : List Selection) :
    Prop :=
  ∀ name ∈ Selection.spreadNamesOfAll selections,
    ∀ opened ∈ merging, TransGen documents.Spreads opened name

theorem spreadsBelow_nil (selections : List Selection) :
    SpreadsBelow documents [] selections := nofun

theorem spreadsBelow_of_fragment? {name : String} (h : documents.fragment? name = some fragment) :
    SpreadsBelow documents [name] fragment.selections :=
  fun _ ho => forall_mem_singleton.mpr (.single ⟨fragment, h, ho⟩)

/-- If no fragment leads back to itself, selections below a bound are read to the end, and nothing
is noted about fragments in themselves. -/
theorem variation_shallow (ha : setting.documents.Acyclic) (record? : String → Option String) :
    Variation setting setting.documents record? record?
      (fun bound merging selections => Shallow setting.documents bound selections ∧
        SpreadsBelow setting.documents merging selections)
      True (Note.Plain setting (·.isEnum)) where
  toNesting := nesting_shallow.and (nesting_spreads
    fun {merging merging' name} hsb (hn : ∀ opened ∈ merging,
      TransGen setting.documents.Spreads opened name) opened ho =>
        hn opened (hsb ho))
  fragment? := rfl
  plain := id
  fail hf := hf.1.elim
  entry _ := rfl
  cyclic {_ _ name _} hf hm := (ha name (hf.2 name
    (by simp [Selection.spreadNamesOfAll, Selection.spreadNames]) name hm)).elim
  merged {_ _ name _ fragment} hf hfr _ _ _ := by
    refine ⟨hf.1 _ (mem_singleton_self _) fragment hfr, ?_⟩
    intro other hot opened ho
    have hs : setting.documents.Spreads name other := ⟨fragment, hfr, hot⟩
    rcases mem_cons.mp ho with rfl | ho
    · exact .single hs
    · exact .tail (hf.2 name (by simp [Selection.spreadNamesOfAll, Selection.spreadNames])
        opened ho) hs

/-- The schema of selections that are not larger than the documents is made. -/
theorem exists_run_schemaOf (hac : setting.documents.Acyclic) {merging : List String}
    (type : NamedType) (hs : Selection.sizeOfAll selections ≤ setting.documents.size)
    (hb : SpreadsBelow setting.documents merging selections) (start : Progress) :
    ∃ schema notes, readSchema setting (Assoc.get? start.fragmentEntries) merging type selections =
        some (schema, notes) ∧
      (schemaOf setting merging type selections).run start = .ok (schema, start.noteAll notes) ∧
        ∀ note ∈ notes, note.Plain setting (·.isEnum) := by
  have ha := (variation_shallow hac (Assoc.get? start.fragmentEntries)).readSchema
    (Nat.le_refl _) type ⟨hac.shallow (weight_lt_depth hs), hb⟩
  have hrn := (gives_schemaOf merging setting type selections).run start rfl
  cases hr : readSchema setting (Assoc.get? start.fragmentEntries) merging type selections with
  | none =>
    rw [hr] at ha
    exact (ha trivial).elim
  | some given =>
    rw [hr] at ha hrn
    exact ⟨given.1, given.2, rfl, hrn, ha.2.1⟩

/-- Selections below a bound are read to the end, whatever is noted. -/
theorem variation_reads (setting : Setting) (record? : String → Option String) :
    Variation setting setting.documents record? record?
      (fun bound _ selections => Shallow setting.documents bound selections) True
      fun _ => True where
  toNesting := nesting_shallow
  fragment? := rfl
  plain _ := trivial
  fail hf := hf.elim
  entry _ := rfl
  cyclic _ _ := trivial
  merged hf hfragment _ _ _ := hf _ (mem_singleton_self _) _ hfragment

/-- If no fragment leads back to itself, the schema of any selections is made, and it is the same
for all depths beyond the weight of the fragments and the selections. -/
theorem exists_run_selectionSchema (h : setting.documents.Acyclic) (merging : List String)
    (parent : NamedType) (selections : List Selection) (start : Progress) :
    ∃ schema final, ∀ fuel,
      weight setting.documents.fragments + Selection.sizeOfAll selections < fuel →
        (selectionSchema setting (collect setting fuel) merging parent (some selections)).run
          start = .ok (schema, final) := by
  have hv := variation_reads setting (Assoc.get? start.fragmentEntries)
  generalize hb : weight setting.documents.fragments + Selection.sizeOfAll selections = bound
  have hs : Shallow setting.documents (bound + 1) selections := h.shallow (by omega)
  have ha : ∀ fuel, bound < fuel → Noted.Alike True (fun _ => True) (fun _ => True)
      (readWhole setting (readAll setting _ (bound + 1)) merging parent selections)
      (readWhole setting (readAll setting _ fuel) merging parent selections) :=
    fun _ hf => hv.readWhole (hv.readAll _ hf) parent hs
  cases hr : readWhole setting (readAll setting _ (bound + 1)) merging parent selections with
  | none =>
    have hn := ha _ (Nat.lt_succ_self _)
    rw [hr] at hn
    exact (hn trivial).elim
  | some given =>
    refine ⟨given.1, start.noteAll given.2, fun fuel hf => ?_⟩
    have hsm := ha fuel hf
    rw [hr] at hsm
    rw [(gives_selectionSchema (collects_readAll fuel) merging parent selections).run start rfl,
      hsm.1]
    rfl

end ApiSchema.GraphQL
