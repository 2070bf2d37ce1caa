/-
# Steps that can fail

Rules for computations that change a state and can fail. `Ensures pre step post` says that a run
which starts in a state with `pre` and gives a result ends with `post`; of a run that fails it says
nothing.

`Attains pre step post` says that every run from a state with `pre` does give a result, with `post`.
Two rules compare runs. `Uniform agree step` says that from states that agree the step gives the
same result, and `Refines step step'` that the second step gives all that the first one gives.
-/
import Mathlib.Data.List.Forall2

namespace ApiSchema

open List

variable {σ ε α β : Type} {attempt : Except ε α} {step : StateT σ (Except ε) α}
  {next next' : α → StateT σ (Except ε) β} {holds : α → Prop} {result value : α} {elements : List α}
  {results : List β} {change : σ → σ} {make : α → β} {middle : α → σ → Prop} {made : α → β → Prop}

/-- A computation that succeeds has steps that succeed. -/
theorem of_bind_eq_ok {next : α → Except ε β} {result : β} (h : attempt >>= next = .ok result) :
    ∃ value, attempt = .ok value ∧ next value = .ok result := by
  cases attempt with
  | error fault => cases h
  | ok value => exact ⟨value, rfl, h⟩

theorem run_get_bind (next : σ → StateT σ (Except ε) α) (state : σ) :
    (get >>= next).run state = (next state).run state := rfl

theorem exists_ok_of_isOk (h : attempt.isOk) : ∃ value, attempt = .ok value := by
  cases attempt with
  | error fault => cases h
  | ok value => exact ⟨value, rfl⟩

/-- What each of several attempts keeps, all of them keep. -/
theorem holds_of_foldlM_eq_ok {holds : β → Prop} {step : β → α → Except ε β}
    (h : ∀ element ∈ elements, ∀ value result, holds value → step value element = .ok result →
      holds result) {value result : β} (hv : holds value)
    (hr : elements.foldlM step value = .ok result) : holds result := by
  induction elements generalizing value with
  | nil =>
    cases hr
    exact hv
  | cons first rest ih =>
    obtain ⟨middle, hf, hrs⟩ := of_bind_eq_ok hr
    exact ih (forall_mem_cons.mp h).2
      (h first (mem_cons_self ..) value middle hv hf) hrs

/-- What is made of a list has something made of each element. -/
theorem exists_mem_of_forall₂
    (h : List.Forall₂ made elements results) {element : α} (hm : element ∈ elements) :
    ∃ result ∈ results, made element result := by
  induction h with
  | nil => exact absurd hm not_mem_nil
  | cons hf _ ih =>
    rcases mem_cons.mp hm with rfl | hm
    · exact ⟨_, mem_cons_self .., hf⟩
    · obtain ⟨result, hr, hmd⟩ := ih hm
      exact ⟨result, mem_cons_of_mem _ hr, hmd⟩

theorem forall_mem_of_forall₂ {holds : β → Prop}
    (h : Forall₂ (fun _ result => holds result) elements results) :
    ∀ result ∈ results, holds result := by
  intro result hr
  obtain ⟨_, -, hh⟩ := exists_mem_of_forall₂ h.flip hr
  exact hh

/-- The results of several attempts have what the result of each of them has. -/
theorem forall₂_of_mapM_eq_ok {step : α → Except ε β} (h : elements.mapM step = .ok results)
    (hm : ∀ element ∈ elements, ∀ result, step element = .ok result → made element result) :
    Forall₂ made elements results := by
  induction elements generalizing results with
  | nil =>
    cases h
    exact .nil
  | cons first rest ih =>
    rw [mapM_cons] at h
    obtain ⟨value, hv, h⟩ := of_bind_eq_ok h
    obtain ⟨others, ho, h⟩ := of_bind_eq_ok h
    cases h
    exact .cons (hm first (mem_cons_self ..) value hv)
      (ih ho (forall_mem_cons.mp hm).2)

/-- The attempt gives a result with the property, or it fails and is allowed to. -/
def Fares (excuse : Prop) (holds : α → Prop) : Except ε α → Prop
  | .ok value => holds value
  | .error _ => excuse

section

variable {excuse excuse' : Prop}

theorem fares_of_forall (h : ∀ value, holds value) : Fares True holds attempt := by
  cases attempt with
  | error fault => trivial
  | ok value => exact h value

section

variable (h : Fares excuse holds attempt)
include h

/-- A result is as it should be. -/
theorem Fares.of_eq_ok (hv : attempt = .ok value) : holds value := by
  rwa [hv] at h

/-- Without an excuse there is a result. -/
theorem Fares.exists_eq_ok (he : ¬ excuse) : ∃ value, attempt = .ok value := by
  cases attempt with
  | error fault => exact absurd h he
  | ok value => exact ⟨value, rfl⟩

theorem Fares.imp {holds' : α → Prop} (he : excuse → excuse')
    (hi : ∀ value, holds value → holds' value) : Fares excuse' holds' attempt := by
  cases attempt with
  | error fault => exact he h
  | ok value => exact hi value h

/-- Two steps fare well if each does. -/
theorem Fares.bind {next : α → Except ε β} {holds' : β → Prop}
    (hn : ∀ value, holds value → Fares excuse holds' (next value)) :
    Fares excuse holds' (attempt >>= next) := by
  cases attempt with
  | error fault => exact h
  | ok value => exact hn value h

end

/-- Several attempts give results with what each result has. -/
theorem fares_mapM {step : α → Except ε β}
    (h : ∀ element ∈ elements, Fares excuse (made element) (step element)) :
    Fares excuse (Forall₂ made elements) (elements.mapM step) := by
  induction elements with
  | nil => exact Forall₂.nil
  | cons first rest ih =>
    rw [forall_mem_cons] at h
    rw [mapM_cons]
    exact h.1.bind fun _ hf => (ih h.2).bind fun _ hr => Forall₂.cons hf hr

end

/-- Steps that agree for each element give the same results. -/
theorem mapM_congr_of_mem {m : Type → Type} [Monad m] [LawfulMonad m] {step step' : α → m β}
    (h : ∀ element ∈ elements, step element = step' element) :
    elements.mapM step = elements.mapM step' := by
  induction elements with
  | nil => rfl
  | cons element rest ih =>
    rw [mapM_cons, mapM_cons, h element (mem_cons_self ..), ih (forall_mem_cons.mp h).2]

/-- and each result is that of one of them. -/
theorem exists_of_mem_of_mapM_eq_ok {step : α → Except ε β} (h : elements.mapM step = .ok results)
    {result : β} (hr : result ∈ results) : ∃ element ∈ elements, step element = .ok result :=
  exists_mem_of_forall₂ (forall₂_of_mapM_eq_ok h fun _ _ _ hs => hs).flip hr

/-- Every run from a state with `pre` that gives a result ends with `post`. -/
def Ensures (pre : σ → Prop) (step : StateT σ (Except ε) α) (post : α → σ → Prop) : Prop :=
  ∀ start result final, pre start → step.run start = .ok (result, final) → post result final

variable {pre pre' : σ → Prop} {post post' : α → σ → Prop}

/-! ## Single steps -/

theorem ensures_pure (h : ∀ state, pre state → post result state) :
    Ensures pre (pure result : StateT σ (Except ε) α) post := by
  intro start _ _ hp hr
  cases hr
  exact h start hp

/-- A step that fails ensures anything. -/
theorem ensures_throw (fault : ε) : Ensures pre (throw fault : StateT σ (Except ε) α) post := by
  intro start result final _ hr
  cases hr

theorem ensures_modify {post : PUnit → σ → Prop} (h : ∀ state, pre state → post ⟨⟩ (change state)) :
    Ensures pre (modify change : StateT σ (Except ε) PUnit) post := by
  intro start _ _ hp hr
  cases hr
  exact h start hp

/-- A step that leaves the state alone. -/
theorem ensures_lift (h : ∀ result state, attempt = .ok result → pre state → post result state) :
    Ensures pre (liftM attempt : StateT σ (Except ε) α) post := by
  intro start result final hp hrn
  obtain ⟨value, ha, hr⟩ := of_bind_eq_ok hrn
  cases hr
  exact h result start ha hp

/-! ## Combinations -/

/-- A precondition may be stronger, a postcondition weaker. -/
theorem Ensures.consequence (h : Ensures pre step post) (hpr : ∀ state, pre' state → pre state)
    (hp : ∀ result state, post result state → post' result state) : Ensures pre' step post' := by
  intro start result final hs hr
  exact hp _ _ (h start result final (hpr start hs) hr)

theorem Ensures.and (h : Ensures pre step post) (h' : Ensures pre step post') :
    Ensures pre step fun result state => post result state ∧ post' result state := by
  intro start result final hs hr
  exact ⟨h start result final hs hr, h' start result final hs hr⟩

theorem Ensures.of_bind_pure {post : β → σ → Prop}
    (h : Ensures pre (do return make (← step)) post) :
    Ensures pre step fun result => post (make result) := by
  intro start result final hs hr
  refine h start (make result) final hs ?_
  rw [StateT.run_bind, hr]
  rfl

/-- A part of the precondition that is about no state is a fact. -/
theorem ensures_of_fact {fact : Prop} (h : fact → Ensures pre step post) :
    Ensures (fun state => pre state ∧ fact) step post :=
  fun start result final hs hr => h hs.2 start result final hs.1 hr

/-- One step after the other. -/
theorem ensures_bind {post : β → σ → Prop} (hs : Ensures pre step middle)
    (hn : ∀ result, Ensures (middle result) (next result) post) :
    Ensures pre (step >>= next) post := by
  intro start result final hp hrn
  obtain ⟨⟨value, state⟩, hf, hr⟩ := of_bind_eq_ok hrn
  exact hn value state result final (hs start value state hp hf) hr

theorem ensures_lift_bind {post : β → σ → Prop}
    (h : ∀ value, attempt = .ok value → Ensures pre (next value) post) :
    Ensures pre (liftM attempt >>= next) post := by
  intro start result final hp hrn
  obtain ⟨⟨value, state⟩, hf, hr⟩ := of_bind_eq_ok hrn
  obtain ⟨value', ha, hv⟩ := of_bind_eq_ok hf
  cases hv
  exact h value ha start result final hp hr

/-- A step that looks at the state knows it. -/
theorem ensures_get_bind {next : σ → StateT σ (Except ε) α}
    (h : ∀ current, Ensures (fun state => state = current ∧ pre state) (next current) post) :
    Ensures pre (get >>= next) post :=
  fun start result final hp hr => h start start result final ⟨rfl, hp⟩ hr

/-- One step for each element: what a step makes of an element, the steps make of the elements. -/
theorem ensures_mapM_forall₂ {invariant : σ → Prop} {step : α → StateT σ (Except ε) β}
    (elements : List α)
    (h : ∀ element ∈ elements, Ensures invariant (step element) fun result state =>
      invariant state ∧ made element result) :
    Ensures invariant (elements.mapM step) fun results state =>
      invariant state ∧ List.Forall₂ made elements results := by
  induction elements with
  | nil =>
    exact ensures_pure fun _ hs => ⟨hs, .nil⟩
  | cons first rest ih =>
    rw [mapM_cons]
    refine ensures_bind (h first (mem_cons_self ..)) fun result => ?_
    have hr := ih (forall_mem_cons.mp h).2
    intro start results final hst hrn
    obtain ⟨⟨more, state⟩, hmr, hl⟩ := of_bind_eq_ok hrn
    obtain ⟨hs, hm⟩ := hr start more state hst.1 hmr
    cases hl
    exact ⟨hs, .cons hst.2 hm⟩

/-- One step for each element; the elements that are done take part in the invariant. -/
theorem ensures_forM_done {step : α → StateT σ (Except ε) PUnit} (invariant : List α → σ → Prop)
    (elements : List α)
    (h : ∀ before element after, elements = before ++ element :: after →
      Ensures (invariant before) (step element) fun _ => invariant (before ++ [element])) :
    Ensures (invariant []) (elements.forM step) fun _ => invariant elements := by
  suffices hr : ∀ rest done, elements = done ++ rest →
      Ensures (invariant done) (rest.forM step) fun _ => invariant elements from
    hr elements [] rfl
  intro rest
  induction rest with
  | nil =>
    intro done hd
    rw [append_nil] at hd
    subst hd
    exact ensures_pure fun _ hs => hs
  | cons first rest ih =>
    intro done hd
    refine ensures_bind (h done first rest hd) fun _ => ih (done ++ [first]) ?_
    rw [hd, append_assoc, singleton_append]

/-- What each step keeps, all steps keep. -/
theorem ensures_forM {step : α → StateT σ (Except ε) PUnit} (elements : List α)
    (h : ∀ element ∈ elements, Ensures pre (step element) fun _ => pre) :
    Ensures pre (elements.forM step) fun _ => pre :=
  ensures_forM_done (fun _ => pre) elements fun _ element _ hs => h element (by simp [hs])

/-! ## Steps that succeed -/

/-- Every run from a state with `pre` gives a result and ends with `post`. -/
def Attains (pre : σ → Prop) (step : StateT σ (Except ε) α) (post : α → σ → Prop) : Prop :=
  ∀ start, pre start → ∃ result final, step.run start = .ok (result, final) ∧ post result final

theorem attains_pure (h : ∀ state, pre state → post result state) :
    Attains pre (pure result : StateT σ (Except ε) α) post :=
  fun start hp => ⟨result, start, rfl, h start hp⟩

theorem attains_modify {post : PUnit → σ → Prop} (h : ∀ state, pre state → post ⟨⟩ (change state)) :
    Attains pre (modify change : StateT σ (Except ε) PUnit) post :=
  fun start hp => ⟨⟨⟩, change start, rfl, h start hp⟩

/-- A precondition may be stronger, a postcondition weaker. -/
theorem Attains.consequence (h : Attains pre step post) (hpr : ∀ state, pre' state → pre state)
    (hp : ∀ result state, post result state → post' result state) : Attains pre' step post' := by
  intro start hs
  obtain ⟨result, final, hr, hf⟩ := h start (hpr start hs)
  exact ⟨result, final, hr, hp result final hf⟩

/-- One step after the other. -/
theorem attains_bind {post : β → σ → Prop} (hs : Attains pre step middle)
    (hn : ∀ result, Attains (middle result) (next result) post) :
    Attains pre (step >>= next) post := by
  intro start hpr
  obtain ⟨value, state, hf, hm⟩ := hs start hpr
  obtain ⟨result, final, hr, hp⟩ := hn value state hm
  refine ⟨result, final, ?_, hp⟩
  rw [StateT.run_bind, hf]
  exact hr

/-- A step that looks at the state knows it. -/
theorem attains_get_bind {next : σ → StateT σ (Except ε) α}
    (h : ∀ current, Attains (fun state => state = current ∧ pre state) (next current) post) :
    Attains pre (get >>= next) post :=
  fun start hp => h start start ⟨rfl, hp⟩

/-- One step for each element without results; the elements done so far take part in the
invariant. -/
theorem attains_forM {step : α → StateT σ (Except ε) PUnit} (invariant : List α → σ → Prop)
    (elements : List α)
    (h : ∀ before element after, elements = before ++ element :: after →
      Attains (invariant before) (step element) fun _ => invariant (before ++ [element])) :
    Attains (invariant []) (elements.forM step) fun _ => invariant elements := by
  have hr : ∀ rest before, elements = before ++ rest →
      Attains (invariant before) (rest.forM step) fun _ => invariant elements := by
    intro rest
    induction rest with
    | nil =>
      intro before hs
      rw [append_nil] at hs
      rw [hs]
      exact attains_pure fun _ hst => hst
    | cons first rest ih =>
      intro before hs
      refine attains_bind (h before first rest hs) fun _ => ih _ ?_
      rw [hs, append_assoc, singleton_append]
  exact hr elements [] rfl

/-! ## Results that depend on a part of the state -/

/-- If a run from one of two states that agree gives a result, the run from the other one gives the
same, and the runs end in states that agree. -/
def Uniform (agree : σ → σ → Prop) (step : StateT σ (Except ε) α) : Prop :=
  ∀ start start' result final, agree start start' → step.run start = .ok (result, final) →
    ∃ final', step.run start' = .ok (result, final') ∧ agree final final'

section

variable {agree : σ → σ → Prop}

theorem uniform_pure (result : α) : Uniform agree (pure result : StateT σ (Except ε) α) := by
  intro start start' _ _ ha hr
  cases hr
  exact ⟨start', rfl, ha⟩

/-- A step that fails does so in all states. -/
theorem uniform_throw (fault : ε) : Uniform agree (throw fault : StateT σ (Except ε) α) := by
  intro start start' _ _ _ hr
  cases hr

theorem uniform_modify
    (h : ∀ state state', agree state state' → agree (change state) (change state')) :
    Uniform agree (modify change : StateT σ (Except ε) PUnit) := by
  intro start start' _ _ ha hr
  cases hr
  exact ⟨change start', rfl, h start start' ha⟩

theorem uniform_lift_bind (h : ∀ value, attempt = .ok value → Uniform agree (next value)) :
    Uniform agree (liftM attempt >>= next) := by
  intro start start' result final hag hrn
  obtain ⟨⟨value, state⟩, hfr, hr⟩ := of_bind_eq_ok hrn
  obtain ⟨value', ha, hv⟩ := of_bind_eq_ok hfr
  cases hv
  obtain ⟨final', hr', hf⟩ := h value ha start start' result final hag hr
  have ha' : attempt = .ok value := ha
  refine ⟨final', ?_, hf⟩
  rw [ha']
  exact hr'

/-- One uniform step after the other. -/
theorem Uniform.bind (hs : Uniform agree step) (hn : ∀ result, Uniform agree (next result)) :
    Uniform agree (step >>= next) := by
  intro start start' result final ha hrn
  obtain ⟨⟨value, state⟩, hfr, hr⟩ := of_bind_eq_ok hrn
  obtain ⟨state', hf', ha'⟩ := hs start start' value state ha hfr
  obtain ⟨final', hr', hf⟩ := hn value state state' result final ha' hr
  refine ⟨final', ?_, hf⟩
  rw [StateT.run_bind, hf']
  exact hr'

end

/-! ## Steps that succeed more often -/

/-- Whatever the first step gives, the second one gives as well. -/
def Refines (step step' : StateT σ (Except ε) α) : Prop :=
  ∀ start result, step.run start = .ok result → step'.run start = .ok result

theorem Refines.refl (step : StateT σ (Except ε) α) : Refines step step := fun _ _ hr => hr

/-- Everything refines a step that fails. -/
theorem refines_throw (fault : ε) (step : StateT σ (Except ε) α) : Refines (throw fault) step := by
  intro start result hr
  cases hr

/-- Steps are refined one by one. -/
theorem Refines.bind {step' : StateT σ (Except ε) α}
    (hs : Refines step step') (hn : ∀ result, Refines (next result) (next' result)) :
    Refines (step >>= next) (step' >>= next') := by
  intro start result hr
  rw [StateT.run_bind] at hr ⊢
  obtain ⟨⟨value, state⟩, hf, hrs⟩ := of_bind_eq_ok hr
  rw [hs start _ hf]
  exact hn value state result hrs

/-- A loop is refined by a loop of refined steps. -/
theorem refines_forM {step step' : α → StateT σ (Except ε) PUnit} (elements : List α)
    (h : ∀ element ∈ elements, Refines (step element) (step' element)) :
    Refines (elements.forM step) (elements.forM step') := by
  induction elements with
  | nil => exact Refines.refl _
  | cons first rest ih =>
    exact (h first (mem_cons_self ..)).bind fun _ =>
      ih (forall_mem_cons.mp h).2

end ApiSchema
