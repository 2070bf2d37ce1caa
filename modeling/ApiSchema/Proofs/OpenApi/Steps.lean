/-
# Making entries, step by step

A catalog of operations is made in steps of a few kinds: a component gets its entry or is left out
because its name is taken, and an operation, in each of its roles, gets its entry or finds its name
taken. What every such step keeps holds of the catalog.
-/
import ApiSchema.Proofs.Claims
import ApiSchema.Proofs.OpenApi.Conversion

namespace ApiSchema.OpenApi

open List

variable {setting : Setting} {name other base : String} {operation : Operation} {role : Role}
  {operations after : List Operation} {progress : Progress}

/-! ## States -/

/-- The names that are taken after one more is taken. -/
theorem Progress.mem_taken_take (progress : Progress) (name other : String) :
    other ∈ (progress.take name).taken ↔ other ∈ progress.taken ∨ other = name := by
  unfold Progress.take
  split
  · rename_i ht
    constructor
    · exact Or.inl
    · rintro (ho | rfl)
      · exact ho
      · simpa using ht
  · simp

theorem Progress.take_entries (progress : Progress) (name : String) : (progress.take name).entries =
    progress.entries ∧ (progress.take name).pending = progress.pending := by
  unfold Progress.take
  split <;> exact ⟨rfl, rfl⟩

theorem Progress.warn_fields (progress : Progress) (text : String) :
    (progress.warn text).entries = progress.entries ∧ (progress.warn text).taken = progress.taken ∧
      (progress.warn text).pending = progress.pending := by
  unfold Progress.warn
  split <;> exact ⟨rfl, rfl, rfl⟩

theorem Progress.ensure_fields (progress : Progress) (name : String) :
    (progress.ensure name).entries = progress.entries ∧
      (progress.ensure name).taken = progress.taken ∧
      (progress.ensure name).warnings = progress.warnings := by
  unfold Progress.ensure
  split <;> exact ⟨rfl, rfl, rfl⟩

theorem Progress.of_mem_warn {text : String}
    (h : other ∈ (progress.warn text).warnings) : other ∈ progress.warnings ∨ other = text := by
  unfold Progress.warn at h
  split at h
  · exact Or.inl h
  · exact (mem_append.mp h).imp id mem_singleton.mp

theorem Progress.of_mem_ensure
    (h : other ∈ (progress.ensure name).pending) : other ∈ progress.pending ∨ other = name := by
  unfold Progress.ensure at h
  split at h
  · exact Or.inl h
  · exact (mem_append.mp h).imp id mem_singleton.mp

/-- The name is that of a component. -/
def IsComponentName (setting : Setting) (name : String) : Prop :=
  ∃ item, setting.componentName? item = some (.text name)

section

variable {α : Type} {step : Builder α} {progress later : Progress} {result : α}

/-- A quiet step keeps what warnings keep and the queueing of components. -/
theorem Quiet.keeps (h : Quiet setting step) {holds : Progress → Prop}
    (hw : ∀ progress text, holds progress → holds (progress.warn text))
    (he : ∀ progress name, IsComponentName setting name → holds progress →
      holds (progress.ensure name)) : Ensures holds step fun _ => holds := by
  have ho : Oblivious setting fun progress _ => holds progress :=
    ⟨fun hs text => hw _ text hs, fun hs hn => he _ _ ⟨_, hn⟩ hs⟩
  intro start result final hst hr
  obtain ⟨-, -, hf⟩ := h _ ho start start result final hst hr
  exact hf

/-- A quiet step leaves the entries and the names that are taken alone, and queues only components.
-/
theorem Quiet.frame (h : Quiet setting step) (hr : step.run progress = .ok (result, later)) :
    later.entries = progress.entries ∧ later.taken = progress.taken ∧
      ∀ name ∈ later.pending, name ∈ progress.pending ∨ IsComponentName setting name := by
  have hk : Ensures (fun state => state.entries = progress.entries ∧
      state.taken = progress.taken ∧
      ∀ name ∈ state.pending, name ∈ progress.pending ∨ IsComponentName setting name) step
      fun _ state => state.entries = progress.entries ∧ state.taken = progress.taken ∧
        ∀ name ∈ state.pending, name ∈ progress.pending ∨ IsComponentName setting name := by
    refine h.keeps ?warn ?ensure
    case warn =>
      rintro state text ⟨he, ht, hq⟩
      obtain ⟨he', ht', hp'⟩ := state.warn_fields text
      exact ⟨he'.trans he, ht'.trans ht, hp' ▸ hq⟩
    case ensure =>
      rintro state name hn ⟨he, ht, hq⟩
      obtain ⟨he', ht', -⟩ := state.ensure_fields name
      refine ⟨he'.trans he, ht'.trans ht, fun other ho => ?_⟩
      rcases Progress.of_mem_ensure ho with ho | rfl
      · exact hq other ho
      · exact Or.inr hn
  exact hk progress result later ⟨rfl, rfl, fun _ hn => Or.inl hn⟩ hr

end

/-! ## Names that operations ask for -/

/-- An operation asks for a name only if it has something in the role, and the name has the end of
the role. -/
theorem Operation.exists_of_claim? (h : operation.claim? role = some name) :
    operation.has role ∧ ∃ base, name = base ++ role.ending := by
  unfold claim? at h
  split at h
  · rename_i hh
    obtain ⟨base, -, rfl⟩ := Option.map_eq_some_iff.mp h
    exact ⟨hh, base, rfl⟩
  · cases h

theorem Operation.claim?_eq_some (hb : operation.entryBase = .ok base)
    (hh : operation.has role) : operation.claim? role = some (base ++ role.ending) := by
  unfold claim?
  rw [if_pos hh, hb]
  rfl

/-! ## Steps -/

/-- Adds the entry of an operation in a role, if it has something there and the name is not taken.
-/
def answerClaim (setting : Setting) (base : String) (operation : Operation) (role : Role) :
    Builder Unit := do
  if !operation.has role || (← get).taken.contains (base ++ role.ending) then return
  else
    let schema ← operation.conversion setting role
    modify (·.add (base ++ role.ending) schema role.category)

/-- An operation is answered in its three roles. -/
theorem addOperation_eq (setting : Setting) (operation : Operation) :
    addOperation setting operation = (do
      let base ← operation.entryBase
      answerClaim setting base operation .request
      answerClaim setting base operation .response
      answerClaim setting base operation .params) := by
  unfold addOperation addPart addParameters answerClaim
  simp only [Operation.has, Operation.conversion, Operation.step, Role.ending, Role.category,
    Bool.not_not, bind_assoc, pure_bind]
  rfl

/-- A state from which a queued component may have been taken out. -/
structure Popped (name : String) (before progress : Progress) : Prop where
  entries : progress.entries = before.entries
  taken : progress.taken = before.taken
  warnings : progress.warnings = before.warnings
  pending : progress.pending ⊆ before.pending
  rest : ∀ other ∈ before.pending, other = name ∨ other ∈ progress.pending

/-- A property of states and of the operations that have asked for names which every step keeps: a
component whose name is free gets its entry, a component whose name is taken is left out, and an
operation gets its entry or finds its name taken. -/
structure Kept (setting : Setting) (operations : List Operation) (fit : String → Prop)
    (invariant : (Role → List Operation) → Progress → Prop) : Prop where
  queued : ∀ {asked progress}, invariant asked progress → ∀ name ∈ progress.pending, fit name
  left : ∀ {asked before progress name}, invariant asked before → Popped name before progress →
    name ∈ progress.taken → invariant asked progress
  component : ∀ {asked before progress later name schema}, invariant asked before →
    Popped name before progress → fit name → name ∉ progress.taken →
    (schemaOf setting (some name) (setting.component name)).run (progress.take name) =
      .ok (schema, later) → invariant asked (later.add name schema .component)
  refused : ∀ {asked progress role operation}, invariant asked progress → operation ∈ operations →
    (operation.has role = true → (operation.claim? role).isSome) →
    (∀ name, operation.claim? role = some name → name ∈ progress.taken) →
      invariant (ask asked role operation) progress
  answered : ∀ {asked progress later role operation name schema after},
    invariant asked progress → operations = asked role ++ operation :: after →
    operation.claim? role = some name → name ∉ progress.taken →
    (operation.conversion setting role).run progress = .ok (schema, later) →
      invariant (ask asked role operation) (later.add name schema role.category)

namespace Kept

variable {setting : Setting} {operations : List Operation} {fit : String → Prop}
  {invariant : (Role → List Operation) → Progress → Prop} {asked : Role → List Operation}
  (h : Kept setting operations fit invariant) {used : List String}

include h

theorem ensures_addComponent (hn : fit name) :
    Ensures (fun progress => ∃ before, invariant asked before ∧ Popped name before progress)
      (addComponent setting name) fun _ => invariant asked := by
  refine ensures_get_bind fun current => ?_
  split
  · rename_i ht
    refine ensures_pure fun progress hst => ?_
    obtain ⟨rfl, before, hb, hp⟩ := hst
    exact h.left hb hp (by simpa using ht)
  · rename_i ht
    rintro progress _ final ⟨rfl, before, hb, hp⟩ hr
    rw [StateT.run_bind] at hr
    obtain ⟨⟨_, state⟩, htk, hr⟩ := of_bind_eq_ok hr
    cases htk
    obtain ⟨⟨schema, later⟩, hs, ha⟩ := of_bind_eq_ok hr
    cases ha
    exact h.component hb hp hn (by simpa using ht) hs

theorem ensures_addPending (fuel : ℕ) :
    Ensures (invariant asked) (addPending setting fuel) fun _ progress =>
      invariant asked progress ∧ progress.pending = [] := by
  induction fuel with
  | zero =>
    refine ensures_get_bind fun current => ?_
    split
    · rename_i he
      refine ensures_pure fun progress hs => ?_
      obtain ⟨rfl, hs⟩ := hs
      exact ⟨hs, isEmpty_iff.mp he⟩
    · exact ensures_throw _
  | succ fuel ih =>
    refine ensures_get_bind fun current => ?_
    split
    · rename_i he
      refine ensures_pure fun progress hs => ?_
      obtain ⟨rfl, hs⟩ := hs
      exact ⟨hs, he⟩
    · rename_i name rest hp
      have hpp : Ensures (fun progress => progress = current ∧ invariant asked progress)
          (modify fun progress => { progress with pending := rest } : Builder Unit)
          fun _ progress => (∃ before, invariant asked before ∧ Popped name before progress) ∧
            fit name := by
        refine ensures_modify fun progress hs => ?_
        obtain ⟨rfl, hs⟩ := hs
        refine ⟨⟨progress, hs, rfl, rfl, rfl, ?_, ?_⟩, h.queued hs name ?_⟩
        · rw [hp]
          exact subset_cons_self ..
        · rw [hp]
          exact fun other ho => mem_cons.mp ho
        · rw [hp]
          exact mem_cons_self ..
      refine ensures_bind hpp fun _ => ensures_of_fact fun hn => ?_
      exact ensures_bind (h.ensures_addComponent hn) fun _ => ih

theorem ensures_answerClaim
    (hb : operation.entryBase = .ok base)
    (hsp : operations = asked role ++ operation :: after) :
    Ensures (invariant asked) (answerClaim setting base operation role) fun _ =>
      invariant (ask asked role operation) := by
  refine ensures_get_bind fun current => ?_
  split
  · rename_i hsk
    refine ensures_pure fun progress hs => ?_
    obtain ⟨rfl, hs⟩ := hs
    refine h.refused hs (by simp [hsp]) (fun hh => ?_) fun name hc => ?_
    · rw [Operation.claim?_eq_some hb hh]
      rfl
    have hh := (Operation.exists_of_claim? hc).1
    rw [Operation.claim?_eq_some hb hh] at hc
    rw [← Option.some.inj hc]
    simpa [hh] using hsk
  · rename_i hf
    rw [Bool.or_eq_true, not_or] at hf
    have hc : operation.claim? role = some (base ++ role.ending) :=
      Operation.claim?_eq_some hb (by simpa using hf.1)
    rintro progress _ final ⟨rfl, hs⟩ hr
    obtain ⟨⟨schema, later⟩, hsc, ha⟩ := of_bind_eq_ok hr
    cases ha
    exact h.answered hs hsp hc (by simpa using hf.2) hsc

theorem ensures_addOperation
    {done : List Operation} (hs : operations = done ++ operation :: after) :
    Ensures (invariant fun _ => done) (addOperation setting operation) fun _ =>
      invariant fun _ => done ++ [operation] := by
  have ha : ask (ask (ask (fun _ => done) Role.request operation) .response operation) .params
      operation = fun _ => done ++ [operation] := by
    funext role
    cases role <;> rfl
  rw [addOperation_eq, ← ha]
  refine ensures_lift_bind fun base hb => ?_
  refine ensures_bind (h.ensures_answerClaim hb hs) fun _ => ?_
  refine ensures_bind (h.ensures_answerClaim hb hs) fun _ => ?_
  exact h.ensures_answerClaim hb hs

/-- What holds when the used components have their entries, and every step keeps, holds in the end,
when every operation has asked and no component is queued. -/
theorem ensures_addAll_of_used
    (hu : usedComponents setting operations = .ok used) {pre : Progress → Prop}
    (hf : Ensures pre (used.forM (addComponent setting)) fun _ => invariant fun _ => []) :
    Ensures pre (addAll setting operations) fun _ progress =>
      invariant (fun _ => operations) progress ∧ progress.pending = [] := by
  refine ensures_lift_bind fun used' hu' => ?_
  cases hu.symm.trans hu'
  refine ensures_bind hf fun _ => ?_
  refine ensures_bind ((h.ensures_addPending _).consequence (fun _ hs => hs)
    fun _ _ hs => hs.1) fun _ => ?_
  refine ensures_bind (ensures_forM_done (fun done => invariant fun _ => done) operations
    fun before operation after hsp => h.ensures_addOperation hsp) fun _ => ?_
  exact h.ensures_addPending _

/-- A component that was not queued. -/
theorem ensures_addComponent_self (hn : fit name) : Ensures (invariant asked)
    (addComponent setting name) fun _ => invariant asked :=
  (h.ensures_addComponent hn).consequence (fun progress hs => ⟨progress, hs, rfl, rfl,
    rfl, List.Subset.refl _, fun _ ho => Or.inr ho⟩) fun _ _ hs => hs

/-- What every step keeps holds in the end. -/
theorem ensures_addAll
    (hu : usedComponents setting operations = .ok used) (hf : ∀ name ∈ used, fit name) :
    Ensures (invariant fun _ => []) (addAll setting operations) fun _ progress =>
      invariant (fun _ => operations) progress ∧ progress.pending = [] :=
  h.ensures_addAll_of_used hu (ensures_forM used fun name hn =>
    h.ensures_addComponent_self (hf name hn))

end Kept

/-- A component has its name taken. -/
theorem ensures_taken_addComponent : Ensures (fun _ => True)
    (addComponent setting name) fun _ progress => name ∈ progress.taken := by
  refine ensures_get_bind fun current => ?_
  split
  · rename_i ht
    refine ensures_pure fun progress hs => ?_
    rw [hs.1]
    simpa using ht
  · rintro start _ final - hr
    rw [StateT.run_bind] at hr
    obtain ⟨⟨_, state⟩, -, hr⟩ := of_bind_eq_ok hr
    obtain ⟨⟨schema, later⟩, -, ha⟩ := of_bind_eq_ok hr
    cases ha
    exact (later.mem_taken_take name name).mpr (Or.inr rfl)

/-- The making of a catalog starts with the search for used components. -/
theorem exists_used_of_addAll (h : (addAll setting operations).run .start = .ok ((), progress)) :
    ∃ used, usedComponents setting operations = .ok used := by
  obtain ⟨⟨used, state⟩, hf, -⟩ := of_bind_eq_ok h
  obtain ⟨used', hu, -⟩ := of_bind_eq_ok hf
  exact ⟨used', hu⟩

end ApiSchema.OpenApi
