/-
# Walks through selections

The walk that lists enumerations goes through the selections of operations and then of fragments.
Inside one definition it looks at each selection once; a fragment that is spread there is walked
through when it is first met, on its own type. So the walk lists what the definitions themselves
read, and walking through a definition again lists nothing new.
-/
import ApiSchema.Proofs.GraphQL.Depth
import ApiSchema.Proofs.GraphQL.FragmentLookup

namespace ApiSchema.GraphQL

open List

variable {type parent : NamedType} {met result : Met} {fuel fuel' : ℕ} {others : Documents}
  {selection : Selection} {selections : List Selection} {body : NamedType × List Selection}
  {bodies : List (NamedType × List Selection)}

namespace TypeSystem

/-! ## Looking at a selection -/

/-- What a walk finds at a selection: nothing, an enumeration, selections on a type, or the spread
of a fragment. -/
inductive Look
  | nothing
  | enumeration (type : NamedType)
  | nested (type : NamedType) (selections : List Selection)
  | fragment (name : String)
deriving Inhabited

/-- Looks at a selection on a type. -/
def look (system : TypeSystem) : NamedType → Selection → Look
  | parent, .field _ name _ _ inner =>
    (((parent.fieldType? name).bind fun type => system.type? type.baseName).map fun type =>
      if type.isEnum then .enumeration type
      else if type.isComposite then (inner.map (Look.nested type)).getD .nothing
      else .nothing).getD .nothing
  | _, .spread name _ => .fragment name
  | parent, .inline condition _ inner => .nested ((condition.bind system.type?).getD parent) inner

/-- The type and the selections of a fragment that is walked through. -/
def fragmentBody? (system : TypeSystem) (fragment : SourcedFragment) :
    Option (NamedType × List Selection) :=
  ((system.type? fragment.condition).filter (·.isComposite)).map (·, fragment.selections)

/-- The walk goes on with what it finds. A fragment is entered when it is first met. -/
def Look.follow (system : TypeSystem) (documents : Documents) (fuel : ℕ) (met : Met) : Look → Met
  | nothing => met
  | enumeration type => ⟨met.fragments, met.enums ++ [type]⟩
  | nested type selections => system.reachEnums documents fuel type met selections
  | fragment name =>
    if (documents.fragment? name).isNone || met.fragments.contains name then met
    else
      (((documents.fragment? name).bind system.fragmentBody?).map fun body =>
        system.reachEnums documents fuel body.1 ⟨met.fragments ++ [name], met.enums⟩ body.2).getD
          ⟨met.fragments ++ [name], met.enums⟩

/-- The selections, or selections inside of them, are looked at with this outcome. -/
inductive Reads (system : TypeSystem) : NamedType → List Selection → Look → Prop
  | here {parent : NamedType} {selections : List Selection} {selection : Selection} {look : Look}
      (hmem : selection ∈ selections) (hlook : system.look parent selection = look) :
      Reads system parent selections look
  | deeper {parent : NamedType} {selections : List Selection} {selection : Selection}
      {type : NamedType} {inner : List Selection} {look : Look} (hmem : selection ∈ selections)
      (hlook : system.look parent selection = .nested type inner)
      (hinner : Reads system type inner look) : Reads system parent selections look

section

variable {system : TypeSystem} {documents : Documents}

/-- A walk looks at one selection after the other. -/
theorem reachEnums_succ (parent : NamedType) (met : Met) (selections : List Selection) :
    system.reachEnums documents (fuel + 1) parent met selections =
      selections.foldl (fun met selection =>
        (system.look parent selection).follow system documents fuel met) met := by
  rw [reachEnums]
  congr 1
  funext met selection
  cases selection with
  | field responseName name arguments directives inner =>
    dsimp only [look]
    cases (parent.fieldType? name).bind fun type => system.type? type.baseName with
    | none => rfl
    | some type =>
      dsimp only [Option.map_some, Option.getD_some]
      split
      · rfl
      · cases inner with
        | none =>
          dsimp only
          split <;> rfl
        | some inner =>
          dsimp only
          split <;> rfl
  | spread name directives =>
    dsimp only [look, Look.follow]
    cases documents.fragment? name with
    | none => rfl
    | some fragment =>
      dsimp only [Option.isNone_some, Option.bind_some, fragmentBody?]
      simp only [Bool.false_or]
      split
      · rfl
      · cases system.type? fragment.condition with
        | none => rfl
        | some type =>
          dsimp only
          rw [Option.filter_some]
          split <;> rfl
  | inline condition directives inner => rfl

/-- The selections that are found at a selection are smaller. -/
theorem sizeOfAll_lt_of_look {inner : List Selection}
    (h : system.look parent selection = .nested type inner) :
    Selection.sizeOfAll inner < selection.size := by
  cases selection with
  | field responseName name arguments directives below =>
    dsimp only [look] at h
    cases hf : (parent.fieldType? name).bind fun type => system.type? type.baseName with
    | none => simp [hf] at h
    | some found =>
      simp only [hf, Option.map_some, Option.getD_some] at h
      split at h
      · cases h
      · split at h
        · cases below with
          | none => cases h
          | some below =>
            cases h
            rw [Selection.size]
            omega
        · cases h
  | spread name directives => cases h
  | inline condition directives below =>
    cases h
    rw [Selection.size]
    omega

/-! ## What is listed stays listed -/

/-- More has been met. -/
structure Grew (met result : Met) : Prop where
  fragments : met.fragments ⊆ result.fragments
  enums : met.enums ⊆ result.enums

theorem Grew.refl (met : Met) : Grew met met := ⟨List.Subset.refl _, List.Subset.refl _⟩

theorem Grew.trans {middle : Met} (h : Grew met middle) (h' : Grew middle result) :
    Grew met result :=
  ⟨List.Subset.trans h.fragments h'.fragments, List.Subset.trans h.enums h'.enums⟩

theorem grew_foldl {α : Type} {step : Met → α → Met}
    (h : ∀ met element, Grew met (step met element))
    (elements : List α) (met : Met) : Grew met (elements.foldl step met) :=
  List.foldlRecOn (motive := Grew met) elements step (.refl met) fun _ hm element _ =>
    hm.trans (h _ element)

/-- Going on only lists more, if walks to the depth do. -/
theorem Look.grew_follow
    (h : ∀ parent met selections, Grew met (system.reachEnums documents fuel parent met selections))
    {look : Look} : Grew met (look.follow system documents fuel met) := by
  have he : ∀ name, Grew met ⟨met.fragments ++ [name], met.enums⟩ :=
    fun name => ⟨subset_append_left _ _, List.Subset.refl _⟩
  cases look with
  | nothing => exact .refl met
  | enumeration type => exact ⟨List.Subset.refl _, subset_append_left _ _⟩
  | nested type selections => exact h type met selections
  | fragment name =>
    dsimp only [follow]
    split
    · exact .refl met
    · cases (documents.fragment? name).bind system.fragmentBody? with
      | none => exact he name
      | some body => exact (he name).trans (h body.1 _ body.2)

/-- A walk only lists more. -/
theorem grew_reachEnums : ∀ parent met selections,
    Grew met (system.reachEnums documents fuel parent met selections) := by
  induction fuel with
  | zero => exact fun parent met selections => .refl met
  | succ fuel ih =>
    intro parent met selections
    rw [reachEnums_succ]
    exact grew_foldl (fun met selection => Look.grew_follow ih) selections met

theorem exists_grew_follow (h : selection ∈ selections) :
    ∃ middle, Grew ((system.look parent selection).follow system documents fuel middle)
      (system.reachEnums documents (fuel + 1) parent met selections) := by
  obtain ⟨before, after, rfl⟩ := append_of_mem h
  rw [reachEnums_succ, foldl_append]
  exact ⟨_, grew_foldl (fun met selection => Look.grew_follow grew_reachEnums) after _⟩

/-- What is read in the selections is followed, if the depth exceeds their size. -/
theorem Reads.exists_grew_follow {look : Look} (h : system.Reads parent selections look)
    (documents : Documents) :
    ∀ fuel met, Selection.sizeOfAll selections < fuel →
      ∃ fuel' middle, Grew (look.follow system documents fuel' middle)
        (system.reachEnums documents fuel parent met selections) := by
  induction h with
  | here hmm hl =>
    rintro (_ | fuel) met hf
    · omega
    · obtain ⟨middle, hm⟩ := TypeSystem.exists_grew_follow hmm
      rw [hl] at hm
      exact ⟨fuel, middle, hm⟩
  | deeper hmm hl _ ih =>
    rintro (_ | fuel) met hf
    · omega
    · have hs := size_le_sizeOfAll hmm
      have hls := sizeOfAll_lt_of_look hl
      obtain ⟨middle, hm⟩ := TypeSystem.exists_grew_follow hmm
      rw [hl] at hm
      obtain ⟨fuel', middle', hi⟩ := ih fuel middle (by omega)
      exact ⟨fuel', middle', hi.trans hm⟩

theorem Reads.mem_enums
    (h : system.Reads parent selections (.enumeration type)) (met : Met)
    (hf : Selection.sizeOfAll selections < fuel) :
    type ∈ (system.reachEnums documents fuel parent met selections).enums := by
  obtain ⟨fuel', middle, hg⟩ := h.exists_grew_follow documents fuel met hf
  exact hg.enums (mem_append_right _ (mem_singleton_self type))

/-- A fragment that is spread is entered. -/
theorem Reads.mem_fragments {name : String} (h : system.Reads parent selections (.fragment name))
    (hn : (documents.fragment? name).isSome) (met : Met)
    (hf : Selection.sizeOfAll selections < fuel) :
    name ∈ (system.reachEnums documents fuel parent met selections).fragments := by
  obtain ⟨fuel', middle, hg⟩ := h.exists_grew_follow documents fuel met hf
  refine hg.fragments ?_
  dsimp only [Look.follow]
  split
  · rename_i hm
    rw [Bool.or_eq_true, Option.isNone_iff_eq_none] at hm
    rcases hm with hnn | hm
    · simp [hnn] at hn
    · simpa using hm
  · cases (documents.fragment? name).bind system.fragmentBody? with
    | none => simp
    | some body => exact (grew_reachEnums _ _ _).fragments (by simp)

/-! ## What is listed is read -/

/-- A walk through selections whose fragments have all been met lists just what is read there. -/
theorem exists_reachEnums_eq : ∀ parent met selections,
    (∀ name, system.Reads parent selections (.fragment name) →
      (documents.fragment? name).isSome → name ∈ met.fragments) →
    ∃ more, system.reachEnums documents fuel parent met selections =
        ⟨met.fragments, met.enums ++ more⟩ ∧
      ∀ type ∈ more, system.Reads parent selections (.enumeration type) := by
  induction fuel with
  | zero => exact fun parent met selections _ => ⟨[], by simp [reachEnums], by simp⟩
  | succ fuel ih =>
    intro parent met selections hmt
    rw [reachEnums_succ]
    refine List.foldlRecOn (motive := fun result : Met => ∃ more,
      result = ⟨met.fragments, met.enums ++ more⟩ ∧
        ∀ type ∈ more, system.Reads parent selections (.enumeration type)) selections _
      ⟨[], by simp, by simp⟩ ?_
    rintro _ ⟨more, rfl, hm⟩ selection hmm
    cases hl : system.look parent selection with
    | nothing => exact ⟨more, rfl, hm⟩
    | enumeration type =>
      exact ⟨more ++ [type], by simp [Look.follow], forall_mem_concat hm (.here hmm hl)⟩
    | nested type inner =>
      obtain ⟨more', hw, hm'⟩ := ih type ⟨met.fragments, met.enums ++ more⟩ inner
        fun name hn => hmt name (.deeper hmm hl hn)
      exact ⟨more ++ more', by simp [Look.follow, hw], forall_mem_append.mpr
        ⟨hm, fun other ho => .deeper hmm hl (hm' other ho)⟩⟩
    | fragment name =>
      refine ⟨more, ?_, hm⟩
      dsimp only [Look.follow]
      rw [if_pos]
      cases hf : documents.fragment? name with
      | none => simp
      | some fragment =>
        have hn := hmt name (.here hmm hl) (by rw [hf]; rfl)
        simpa using hn

/-- The enumeration is read in a fragment that can be spread. -/
def FragmentReads (system : TypeSystem) (documents : Documents) (type : NamedType) : Prop :=
  ∃ name fragment body, documents.fragment? name = some fragment ∧
    system.fragmentBody? fragment = some body ∧ system.Reads body.1 body.2 (.enumeration type)

/-- A walk lists only what is read in its selections or in a fragment. -/
theorem of_mem_reachEnums : ∀ parent met selections,
    ∀ type ∈ (system.reachEnums documents fuel parent met selections).enums, type ∈ met.enums ∨
      system.Reads parent selections (.enumeration type) ∨ system.FragmentReads documents type := by
  induction fuel with
  | zero => exact fun parent met selections type ht => Or.inl ht
  | succ fuel ih =>
    intro parent met selections
    rw [reachEnums_succ]
    refine List.foldlRecOn (motive := fun result : Met => ∀ type ∈ result.enums,
      type ∈ met.enums ∨ system.Reads parent selections (.enumeration type) ∨
        system.FragmentReads documents type) selections _ (fun type ht => Or.inl ht) ?_
    intro result hr selection hm type ht
    cases hl : system.look parent selection with
    | nothing =>
      rw [hl] at ht
      exact hr type ht
    | enumeration found =>
      rw [hl] at ht
      rcases mem_append.mp ht with ht | ht
      · exact hr type ht
      · rw [mem_singleton.mp ht]
        exact Or.inr (Or.inl (.here hm hl))
    | nested found inner =>
      rw [hl] at ht
      rcases ih found result inner type ht with ht | hrd | hf
      · exact hr type ht
      · exact Or.inr (Or.inl (.deeper hm hl hrd))
      · exact Or.inr (Or.inr hf)
    | fragment name =>
      rw [hl] at ht
      dsimp only [Look.follow] at ht
      split at ht
      · exact hr type ht
      · cases hb : (documents.fragment? name).bind system.fragmentBody? with
        | none =>
          rw [hb] at ht
          exact hr type ht
        | some body =>
          rw [hb] at ht
          obtain ⟨fragment, hf, hb⟩ := Option.bind_eq_some_iff.mp hb
          rcases ih body.1 _ body.2 type ht with ht | hrd | hf
          · exact hr type ht
          · exact Or.inr (Or.inr ⟨name, fragment, body, hf, hb, hrd⟩)
          · exact Or.inr (Or.inr hf)

/-! ## The depth makes no difference -/

/-- The fragments that have not been met. -/
def unmet (documents : Documents) (met : Met) : List SourcedFragment :=
  documents.fragments.filter fun fragment => decide (fragment.name ∉ met.fragments)

theorem weight_unmet_le (h : Grew met result) :
    weight (unmet documents result) ≤ weight (unmet documents met) := by
  refine List.Sublist.sum_le_sum (List.Sublist.map _ ?_) fun _ _ => Nat.zero_le _
  refine monotone_filter_right _ fun fragment hf => ?_
  rw [decide_eq_true_iff] at hf ⊢
  exact fun hm => hf (h.fragments hm)

/-- When a fragment is entered, less is left, by more than its selections. -/
theorem weight_unmet_lt {fragment : SourcedFragment}
    (hf : documents.fragment? fragment.name = some fragment)
    (hn : fragment.name ∉ met.fragments) (enums : List NamedType) :
    weight (unmet documents ⟨met.fragments ++ [fragment.name], enums⟩) +
      Selection.sizeOfAll fragment.selections < weight (unmet documents met) := by
  have hm : fragment ∈ unmet documents met :=
    mem_filter.mpr ⟨mem_of_find?_eq_some hf, by simpa using hn⟩
  have hs : unmet documents ⟨met.fragments ++ [fragment.name], enums⟩ =
      (unmet documents met).filter fun other => decide (other.name ≠ fragment.name) := by
    unfold unmet
    rw [filter_filter]
    refine filter_congr fun other _ => ?_
    simp [not_or, and_comm]
  rw [hs]
  exact weight_filter_lt hm

/-- Walks to two depths are the same, if both exceed the size of what is left. -/
def WalksAlike (system : TypeSystem) (documents : Documents) (fuel fuel' : ℕ) : Prop :=
  ∀ parent met selections, weight (unmet documents met) + Selection.sizeOfAll selections < fuel →
    weight (unmet documents met) + Selection.sizeOfAll selections < fuel' →
      system.reachEnums documents fuel parent met selections =
        system.reachEnums documents fuel' parent met selections

/-- What is found at a selection is followed in the same way to both depths. -/
theorem WalksAlike.follow_eq (h : WalksAlike system documents fuel fuel')
    (hfl : weight (unmet documents met) + selection.size < fuel + 1)
    (hf' : weight (unmet documents met) + selection.size < fuel' + 1) :
    (system.look parent selection).follow system documents fuel met =
      (system.look parent selection).follow system documents fuel' met := by
  cases hlk : system.look parent selection with
  | nothing => rfl
  | enumeration type => rfl
  | nested type inner =>
    have hl := sizeOfAll_lt_of_look hlk
    exact h type met inner (by omega) (by omega)
  | fragment name =>
    dsimp only [Look.follow]
    split
    · rfl
    · rename_i hnw
      cases hb : (documents.fragment? name).bind system.fragmentBody? with
      | none => rfl
      | some body =>
        obtain ⟨fragment, hf, hb⟩ := Option.bind_eq_some_iff.mp hb
        obtain ⟨type, -, rfl⟩ := Option.map_eq_some_iff.mp hb
        have hn : fragment.name = name := by simpa using find?_some hf
        subst hn
        have hn' : fragment.name ∉ met.fragments := by simpa [hf] using hnw
        have hl := weight_unmet_lt hf hn' met.enums
        exact h type _ fragment.selections (by omega) (by omega)

/-- Selections are followed one after the other in the same way to both depths. -/
theorem WalksAlike.foldl_eq (h : WalksAlike system documents fuel fuel') : ∀ met,
    weight (unmet documents met) + Selection.sizeOfAll selections < fuel + 1 →
    weight (unmet documents met) + Selection.sizeOfAll selections < fuel' + 1 →
      selections.foldl (fun met selection =>
        (system.look parent selection).follow system documents fuel met) met =
      selections.foldl (fun met selection =>
        (system.look parent selection).follow system documents fuel' met) met := by
  induction selections with
  | nil => exact fun _ _ _ => rfl
  | cons selection rest ih =>
    intro met hf hf'
    rw [Selection.sizeOfAll] at hf hf'
    rw [foldl_cons, h.follow_eq (by omega) (by omega)]
    have hg : Grew met
        ((system.look parent selection).follow system documents fuel' met) :=
      Look.grew_follow grew_reachEnums
    have hl : weight (unmet documents _) ≤ weight (unmet documents met) :=
      weight_unmet_le hg
    exact ih _ (by omega) (by omega)

/-- A walk does not depend on its depth, if this exceeds the size of what is left. -/
theorem reachEnums_eq : ∀ fuel', WalksAlike system documents fuel fuel' := by
  induction fuel with
  | zero =>
    intro fuel' parent met selections hf
    omega
  | succ fuel ih =>
    rintro (_ | fuel') parent met selections hf hf'
    · omega
    · rw [reachEnums_succ, reachEnums_succ]
      exact (ih fuel').foldl_eq met hf hf'

/-! ## Definitions -/

/-- The types and the selections of the operations that are walked through. -/
def operationBodies (system : TypeSystem) (operations : List NamedOperation) :
    List (NamedType × List Selection) :=
  operations.filterMap fun operation => (system.root? operation.kind).map (·, operation.selections)

/-- A walk through the selections of several definitions. -/
def walkBodies (system : TypeSystem) (documents : Documents) (met : Met)
    (bodies : List (NamedType × List Selection)) : Met :=
  bodies.foldl (fun met body => system.reachEnums documents
    (2 * documents.size + documents.fragments.length + 2) body.1 met body.2) met

/-- All enumerations are listed in a walk through the operations and then through the fragments. -/
theorem enumsOf_eq (documents : Documents) :
    system.enumsOf documents = (system.walkBodies documents
      (system.walkBodies documents ⟨[], []⟩ (system.operationBodies documents.operations))
      (documents.fragments.filterMap system.fragmentBody?)).enums := by
  unfold enumsOf walkBodies operationBodies
  dsimp only
  rw [foldl_filterMap, foldl_filterMap]
  congr 2
  · funext met fragment
    unfold fragmentBody?
    cases system.type? fragment.condition with
    | none => rfl
    | some type =>
      dsimp only
      rw [Option.filter_some]
      split <;> rfl
  · congr 1
    funext met operation
    cases system.root? operation.kind <;> rfl

theorem walkBodies_append (bodies more : List (NamedType × List Selection)) :
    system.walkBodies documents met (bodies ++ more) =
      system.walkBodies documents (system.walkBodies documents met bodies) more :=
  foldl_append

/-- What is read in the selections has been listed, and what is spread there has been entered. -/
structure Absorbed (system : TypeSystem) (documents : Documents) (met : Met)
    (body : NamedType × List Selection) : Prop where
  enums : ∀ type, system.Reads body.1 body.2 (.enumeration type) → type ∈ met.enums
  fragments : ∀ name, system.Reads body.1 body.2 (.fragment name) →
    (documents.fragment? name).isSome → name ∈ met.fragments

theorem Absorbed.mono (h : system.Absorbed documents met body)
    (hg : Grew met result) : system.Absorbed documents result body :=
  ⟨fun type hr => hg.enums (h.enums type hr),
    fun name hr hn => hg.fragments (h.fragments name hr hn)⟩

/-- A walk through several definitions absorbs each of them. -/
theorem absorbed_of_mem (hb : body ∈ bodies)
    (hs : Selection.sizeOfAll body.2 ≤ documents.size) (met : Met) :
    system.Absorbed documents (system.walkBodies documents met bodies) body := by
  obtain ⟨before, after, rfl⟩ := append_of_mem hb
  rw [walkBodies_append, walkBodies, foldl_cons]
  refine Absorbed.mono ⟨?_, ?_⟩
    (grew_foldl (fun met body => grew_reachEnums body.1 met body.2) after _)
  · exact fun type hr => hr.mem_enums _ (by omega)
  · exact fun name hr hn => hr.mem_fragments hn _ (by omega)

theorem sizeOfAll_le_of_mem_operationBodies
    (h : body ∈ system.operationBodies documents.operations) :
    Selection.sizeOfAll body.2 ≤ documents.size := by
  obtain ⟨operation, ho, hb⟩ := mem_filterMap.mp h
  obtain ⟨root, -, rfl⟩ := Option.map_eq_some_iff.mp hb
  exact sizeOfAll_operation_le ho

theorem sizeOfAll_le_of_mem_fragmentBodies
    (h : body ∈ documents.fragments.filterMap system.fragmentBody?) :
    Selection.sizeOfAll body.2 ≤ documents.size := by
  obtain ⟨fragment, hf, hb⟩ := mem_filterMap.mp h
  obtain ⟨type, -, rfl⟩ := Option.map_eq_some_iff.mp hb
  exact sizeOfAll_fragment_le hf

/-- The walk looks only at which fragment is found under a name. -/
theorem reachEnums_congr (h : documents.fragment? = others.fragment?)
    (fuel : ℕ) : system.reachEnums documents fuel = system.reachEnums others fuel := by
  induction fuel with
  | zero => rfl
  | succ fuel ih =>
    funext parent met selections
    rw [reachEnums_succ, reachEnums_succ]
    congr 1
    funext met selection
    cases system.look parent selection with
    | nothing => rfl
    | enumeration type => rfl
    | nested type inner => exact congrFun (congrFun (congrFun ih type) met) inner
    | fragment name =>
      dsimp only [Look.follow]
      rw [h, ih]

/-- The walk is the same in documents that find the same fragments and are not smaller. -/
theorem walkBodies_of_includes (h : documents.Includes others)
    (hs : ∀ body ∈ bodies, Selection.sizeOfAll body.2 ≤ others.size) (met : Met) :
    system.walkBodies documents met bodies = system.walkBodies others met bodies := by
  induction bodies generalizing met with
  | nil => rfl
  | cons body rest ih =>
    have hlf : weight (unmet others met) ≤ weight others.fragments :=
      List.Sublist.sum_le_sum (filter_sublist.map _) fun _ _ => Nat.zero_le _
    have hw := weight_eq others.fragments
    have hfr : Selection.sizeOfAll (others.fragments.flatMap (·.selections)) ≤
        others.size := Nat.le_add_left _ _
    have hb := hs body (mem_cons_self ..)
    have hl := h.size
    have hm := h.fragments
    have hf : system.reachEnums documents
        (2 * documents.size + documents.fragments.length + 2) body.1 met body.2 =
          system.reachEnums others (2 * others.size + others.fragments.length + 2) body.1 met
            body.2 := by
      rw [reachEnums_congr h.fragment?]
      exact reachEnums_eq _ _ _ _ (by omega) (by omega)
    unfold walkBodies
    rw [foldl_cons, hf]
    exact ih (forall_mem_cons.mp hs).2 _

/-- A walk through several definitions lists only what is read in one of them or in a fragment. -/
theorem of_mem_walkBodies
    (h : type ∈ (system.walkBodies documents met bodies).enums) :
    type ∈ met.enums ∨ (∃ body ∈ bodies, system.Reads body.1 body.2 (.enumeration type)) ∨
      system.FragmentReads documents type := by
  induction bodies generalizing met with
  | nil => exact Or.inl h
  | cons body rest ih =>
    rcases ih h with hm | ⟨other, ho, hr⟩ | hf
    · rcases of_mem_reachEnums body.1 met body.2 type hm with hm | hr | hf
      · exact Or.inl hm
      · exact Or.inr (Or.inl ⟨body, mem_cons_self .., hr⟩)
      · exact Or.inr (Or.inr hf)
    · exact Or.inr (Or.inl ⟨other, mem_cons_of_mem _ ho, hr⟩)
    · exact Or.inr (Or.inr hf)

/-- The enumerations that are listed are those that an operation or a fragment reads. -/
theorem mem_enumsOf_iff : type ∈ system.enumsOf documents ↔
      ∃ body ∈ system.operationBodies documents.operations ++
        documents.fragments.filterMap system.fragmentBody?,
        system.Reads body.1 body.2 (.enumeration type) := by
  rw [enumsOf_eq, ← walkBodies_append]
  constructor
  · intro h
    rcases of_mem_walkBodies h with hm | hb | ⟨name, fragment, body, hf, hb, hr⟩
    · cases hm
    · exact hb
    · refine ⟨body, mem_append_right _ (mem_filterMap.mpr ⟨fragment, ?_, hb⟩), hr⟩
      exact mem_of_find?_eq_some hf
  · rintro ⟨body, hb, hr⟩
    refine (absorbed_of_mem hb ?_ ⟨[], []⟩).enums type hr
    rcases mem_append.mp hb with hb | hb
    · exact sizeOfAll_le_of_mem_operationBodies hb
    · exact sizeOfAll_le_of_mem_fragmentBodies hb

/-- What is found as an enumeration is one. -/
theorem isEnum_of_look (h : system.look parent selection = .enumeration type) : type.isEnum := by
  match selection with
  | .field _ name _ _ inner =>
    rw [look] at h
    cases ht : (parent.fieldType? name).bind fun type => system.type? type.baseName with
    | none => simp [ht] at h
    | some found =>
      simp only [ht, Option.map_some, Option.getD_some] at h
      split at h
      · rename_i he
        rw [← Look.enumeration.inj h]
        exact he
      · cases inner <;> split at h <;> simp at h
  | .spread name directives => cases h
  | .inline condition directives inner => cases h

theorem Reads.isEnum (h : system.Reads parent selections (.enumeration type)) : type.isEnum := by
  generalize hl : Look.enumeration type = look at h
  induction h with
  | here _ hf => exact isEnum_of_look (hf.trans hl.symm)
  | deeper _ _ _ ih => exact ih hl

end

end TypeSystem

end ApiSchema.GraphQL
