/-
# Parts that can be reached

From the schemas of operations, the search for components and conversion together reach certain
parts. Only components among them are met: found by the search, or queued in a conversion.
-/
import ApiSchema.Proofs.OpenApi.Dangling
import Mathlib.Logic.Relation

namespace ApiSchema.OpenApi

open List

open Relation (ReflTransGen)

variable {parts : List Item} {part : Item} {reached result : Reached} {fuel : ℕ}
  {operations : List Operation} {used : List String}

/-! ## The search as a fold -/

/-- A map that has not been entered is met, and then the search goes on with its parts. -/
theorem reach_node (setting : Setting) (fuel id : ℕ) (reached : Reached) :
    reach setting (fuel + 1) reached (.node id) =
      (if !setting.graph.isMap (.node id) || reached.seen.contains id then .ok reached
      else do
        let met ← Reached.meet { reached with seen := id :: reached.seen } setting (.node id)
        (walkedGroups setting.graph (.node id)).foldlM
          (fun reached group => do (← group).foldlM (reach setting fuel) reached) met) := by
  have hm : ∀ (item : Item) (reached : Reached) (next : Reached → Reading Reached),
      (mapsOf setting.graph item).foldlM (reach setting fuel) reached >>= next =
        if setting.graph.isMap item then reach setting fuel reached item >>= next
        else pure reached >>= next := by
    intro item reached next
    unfold mapsOf
    split
    · exact congrArg (· >>= next) (bind_pure _)
    · rfl
  rw [reach]
  split
  · rfl
  · simp only [walkedGroups, map_cons, map_nil, cons_append, nil_append,
      foldlM_cons, foldlM_nil, bind_assoc, pure_bind, bind_pure]
    simp only [hm, pure_bind]

/-! ## Components that are met -/

/-- A schema leads to its parts, in either sense. -/
def HoldsPart (graph : Graph) (schema part : Item) : Prop :=
  graph.isMap schema = true ∧ (part ∈ walkedParts graph schema ∨ part ∈ describedParts graph schema)

/-- The part can be reached from one of the roots. -/
def Reaches (graph : Graph) (roots : List Item) (part : Item) : Prop :=
  ∃ root ∈ roots, ReflTransGen (HoldsPart graph) root part

/-- The name is that of a component which can be reached. -/
def Meets (setting : Setting) (roots : List Item) (name : String) : Prop :=
  ∃ item, Reaches setting.graph roots item ∧ setting.graph.isMap item = true ∧
    setting.componentName? item = some (.text name)

section

variable {setting : Setting} {roots : List Item}

theorem Reaches.tail {graph : Graph} {schema : Item} (h : Reaches graph roots schema)
    (hp : HoldsPart graph schema part) : Reaches graph roots part := by
  obtain ⟨root, hr, hpt⟩ := h
  exact ⟨root, hr, hpt.tail hp⟩

/-- Items that have the roots and the parts of each other among them are all that can be reached. -/
theorem mem_of_reaches {graph : Graph} {items : List Item} (hr : roots ⊆ items)
    (hp : ∀ schema ∈ items, walkedParts graph schema ++ describedParts graph schema ⊆ items)
    (h : Reaches graph roots part) : part ∈ items := by
  obtain ⟨root, hrt, hpt⟩ := h
  induction hpt with
  | refl => exact hr hrt
  | tail _ hs ih => exact hp _ ih (mem_append.mpr hs.2)

/-- Parts that may be gone through, with the names of the components among them: a part inside of
such a part is one of them. -/
structure Walkable (setting : Setting) (allowed : Item → Prop) (named : String → Prop) : Prop where
  part : ∀ {schema part}, allowed schema → setting.graph.isMap schema = true →
    part ∈ walkedParts setting.graph schema → allowed part
  name : ∀ {schema name}, allowed schema → setting.graph.isMap schema = true →
    setting.componentName? schema = some (.text name) → named name

theorem walkable_reaches :
    Walkable setting (Reaches setting.graph roots) (Meets setting roots) where
  part hs hm hp := hs.tail ⟨hm, Or.inl hp⟩
  name hs hm hn := ⟨_, hs, hm, hn⟩

/-- Only components that are named have been met. -/
def AllNamed (named : String → Prop) (reached : Reached) : Prop :=
  ∀ name ∈ reached.used, named name

variable {allowed : Item → Prop} {named : String → Prop}

/-- Noting the component that a map is. -/
theorem Walkable.meet (hw : Walkable setting allowed named) {item : Item}
    (hi : allowed item) (hm : setting.graph.isMap item)
    (hr : AllNamed named reached) (h : reached.meet setting item = .ok result) :
    AllNamed named result := by
  unfold Reached.meet at h
  cases hn : setting.componentName? item with
  | none =>
    rw [hn] at h
    cases h
    exact hr
  | some atom =>
    rw [hn] at h
    obtain ⟨text, ht, hrs⟩ := of_bind_eq_ok h
    split at hrs
    · cases hrs
      exact hr
    · cases hrs
      exact forall_mem_concat hr
        (hw.name hi hm (by rw [hn, eq_text_of_entryName ht]))

/-- Going through any part that may be gone through, to this depth, meets components that are named.
-/
def WalksSound (setting : Setting) (allowed : Item → Prop) (named : String → Prop) (fuel : ℕ) :
    Prop :=
  ∀ item, allowed item → ∀ reached result, AllNamed named reached →
    reach setting fuel reached item = .ok result → AllNamed named result

theorem WalksSound.all (h : WalksSound setting allowed named fuel)
    (hp : ∀ part ∈ parts, allowed part)
    (hr : AllNamed named reached)
    (hrs : parts.foldlM (reach setting fuel) reached = .ok result) :
    AllNamed named result :=
  holds_of_foldlM_eq_ok (fun part hpr => h part (hp part hpr)) hr hrs

/-- Going through a part that may be gone through meets components that are named. -/
theorem Walkable.walksSound (hw : Walkable setting allowed named) (fuel : ℕ) :
    WalksSound setting allowed named fuel := by
  induction fuel with
  | zero =>
    intro item _ reached result hr h
    cases h
    exact hr
  | succ fuel ih =>
    intro item hi reached result hr h
    cases item with
    | atom value =>
      cases h
      exact hr
    | node id =>
      rw [reach_node] at h
      split at h
      · cases h
        exact hr
      · rename_i he
        have hm : setting.graph.isMap (.node id) := by
          by_contra hm
          exact he (by simp [hm])
        obtain ⟨met, hme, h⟩ := of_bind_eq_ok h
        have he' : AllNamed named ⟨id :: reached.seen, reached.used⟩ := hr
        have hmt : AllNamed named met := hw.meet hi hm he' hme
        refine holds_of_foldlM_eq_ok (fun group hg value result hv hs => ?_) hmt h
        obtain ⟨parts, hp, hs⟩ := of_bind_eq_ok hs
        refine ih.all (fun part hpr => ?_) hv hs
        exact hw.part hi hm (subset_walkedParts hg hp hpr)

/-- The components that are used are named, if all roots may be gone through. -/
theorem Walkable.of_mem_used (hw : Walkable setting allowed named)
    (hrt : ∀ root ∈ operations.flatMap (·.schemas setting.graph), allowed root)
    (h : usedComponents setting operations = .ok used) :
    ∀ name ∈ used, named name := by
  obtain ⟨reached, hr, hu⟩ := of_bind_eq_ok h
  cases hu
  refine (hw.walksSound _).all hrt ?_ hr
  intro name hn
  exact absurd hn not_mem_nil

theorem meets_of_usedComponents (h : usedComponents setting operations = .ok used) : ∀ name ∈ used,
    Meets setting (operations.flatMap (·.schemas setting.graph)) name :=
  walkable_reaches.of_mem_used (fun root hr => ⟨root, hr, .refl⟩) h

/-- Conversion of a part that can be reached keeps what a warning keeps and the queueing of a
component that can be reached. -/
theorem ensures_convert {invariant : Progress → Prop}
    (hw : ∀ progress text, invariant progress → invariant (progress.warn text))
    (he : ∀ progress name, Meets setting roots name → invariant progress →
      invariant (progress.ensure name)) (fuel : ℕ) :
    ∀ current item, Reaches setting.graph roots item →
      Ensures invariant (convert setting fuel current item) fun _ => invariant := by
  refine convert_induction (motive := fun _ item step => Reaches setting.graph roots item →
    Ensures invariant step fun _ => invariant) ?endless ?unknown ?component ?full fuel
  case endless => exact fun _ _ _ => ensures_throw _
  case unknown => exact fun _ _ _ => ensures_pure fun _ hs => hs
  case component =>
    intro _ item name hm hn hi
    refine ensures_lift_bind fun text ht => ?_
    have hmt : Meets setting roots text :=
      ⟨item, hi, hm, by rw [hn, eq_text_of_entryName ht]⟩
    have hq : Ensures invariant (modify (·.ensure text) : Builder Unit) fun _ => invariant :=
      ensures_modify fun progress hs => he progress text hmt hs
    exact ensures_bind hq fun _ => ensures_pure fun _ hs => hs
  case full =>
    intro _ item convert hm ih hi
    have hf := (describes_fullSchema setting item).ensures (fun _ => invariant)
      (fun _ => hw) (fun _ part hp => ih part hp (hi.tail ⟨hm, Or.inr hp⟩)) []
    exact hf.consequence (fun _ hs => hs) fun _ _ hs => hs.elim fun _ h => h.2

end

end ApiSchema.OpenApi
