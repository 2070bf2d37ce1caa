/-
# What a part describes

The schema of a part does not depend on what was converted before it: entries, names and warnings
are only written while a part is converted. So a part has one description, and every entry can be
compared with the description of the part it was made for.
-/
import ApiSchema.Proofs.Assoc
import ApiSchema.Proofs.OpenApi.Parts

namespace ApiSchema.OpenApi

open List

variable {α : Type} {start final : Progress}

/-! ## The state is only written -/

/-- A relation between states that a warning keeps and the queueing of a component, if both are done
in both states. -/
structure Oblivious (setting : Setting) (agree : Progress → Progress → Prop) : Prop where
  warn : ∀ {progress other}, agree progress other → ∀ text,
    agree (progress.warn text) (other.warn text)
  ensure : ∀ {progress other item name}, agree progress other →
    setting.componentName? item = some (.text name) →
      agree (progress.ensure name) (other.ensure name)

/-- Whatever states a step starts in, it gives the same result, and the same warnings and components
to both. -/
def Quiet {α : Type} (setting : Setting) (step : Builder α) : Prop :=
  ∀ agree, Oblivious setting agree → Uniform agree step

theorem eq_text_of_entryName {name : Atom} {text : String} (h : entryName name = .ok text) :
    name = .text text := by
  cases name with
  | text other =>
    cases h
    rfl
  | _ => cases h

variable {setting : Setting}

theorem uniform_convert {agree : Progress → Progress → Prop}
    (ha : Oblivious setting agree) {fuel : ℕ} {current : Option String} {item : Item} :
    Uniform agree (convert setting fuel current item) := by
  refine convert_induction (motive := fun _ _ => Uniform agree) ?endless ?unknown ?component ?full
    fuel current item
  case endless => exact fun _ _ => uniform_throw _
  case unknown => exact fun _ _ => uniform_pure _
  case component =>
    intro _ item name _ hn
    refine uniform_lift_bind fun text ht => ?_
    rw [eq_text_of_entryName ht] at hn
    exact (uniform_modify fun _ _ h => ha.ensure h hn).bind fun _ => uniform_pure _
  case full =>
    intro _ item convert _ ih
    exact (describes_fullSchema setting item).uniform ha.warn ih

section

variable {setting : Setting}

theorem quiet_schemaOf (current : Option String) (item : Item) :
    Quiet setting (schemaOf setting current item) :=
  fun _ ha => uniform_convert ha

end

/-! ## Descriptions -/

/-- The result of a step, without the state. -/
def outcome {α : Type} (step : Builder α) : Reading α := step.run' .start

theorem outcome_map {β : Type} {step : Builder α} {make : α → β} :
    outcome (step >>= fun result => pure (make result)) = do return make (← outcome step) := by
  change ((fun pair => pair.1) <$> (step.run .start >>= fun pair => .ok (make pair.1, pair.2))) =
    ((fun pair => pair.1) <$> step.run .start) >>= fun result => .ok (make result)
  cases step.run .start <;> rfl

/-- Every run of a quiet step gives its outcome. -/
theorem Quiet.outcome_eq {step : Builder α}
    (h : Quiet setting step) {result : α}
    (hr : step.run start = .ok (result, final)) : outcome step = .ok result := by
  have ha : Oblivious setting fun _ _ => True := ⟨fun _ _ => trivial, fun _ _ => trivial⟩
  obtain ⟨final', hr', -⟩ := h _ ha start .start result final trivial hr
  show (fun pair : α × Progress => pair.1) <$> step.run .start = .ok result
  rw [hr']
  rfl

theorem Quiet.ensures {step : Builder α} (h : Quiet setting step)
    (pre : Progress → Prop) : Ensures pre step fun result _ => outcome step = .ok result :=
  fun _ _ _ _ hr => h.outcome_eq hr

/-- The schema that a part describes. A component other than `current` is described by a reference.
-/
def description (setting : Setting) (current : Option String) (item : Item) : Reading Schema :=
  outcome (schemaOf setting current item)

/-- The schema of an object with a field for each of some parameters. -/
def parametersDescription (setting : Setting) (parameters : List Item) : Reading Schema := do
  let fields := Assoc.ofList (← outcome (parameters.mapM (parameterField setting)))
  return .object (fields.map fun field => ⟨field.1, field.2.1, field.2.2⟩) .dropped []

/-! ## Parts of operations -/

/-- What an entry of an operation is for. -/
inductive Role
  | request
  | response
  | params
deriving DecidableEq, Inhabited

namespace Role

/-- The end of the name of an entry. -/
def ending : Role → String
  | request => "Request"
  | response => "Response"
  | params => "Params"

/-- The category of an entry. -/
def category : Role → Category
  | request => .input
  | response => .response
  | params => .params

end Role

namespace Operation

/-- Whether there is something to describe. -/
def has (operation : Operation) : Role → Bool
  | .request => !operation.request.isNull
  | .response => !operation.response.isNull
  | .params => !operation.parameters.isEmpty

/-- What the operation has in a role describes this schema. -/
def description (setting : Setting) (operation : Operation) : Role → Reading Schema
  | .request => OpenApi.description setting none operation.request
  | .response => OpenApi.description setting none operation.response
  | .params => parametersDescription setting operation.parameters

/-- The name that the operation asks for, if it has something in the role. -/
def claim? (operation : Operation) (role : Role) : Option String :=
  if operation.has role then operation.entryBase.toOption.map (· ++ role.ending) else none

end Operation

/-! ## Conversion for operations -/

/-- The field for a parameter, given the schemas of parts. -/
def parameterStep (setting : Setting) (convert : Converter) (parameter : Item) :
    Builder (Atom × Schema × Bool) := do
  let graph := setting.graph
  let schema ← field graph parameter "schema"
  let schema ← if graph.isMap schema then convert schema else pure .unknown
  let required := !graph.isBlank (← field graph parameter "required")
  match graph.get? parameter "name" with
  | none => throw .nameMissing
  | some name => return (← keyOf name, schema, isIn graph "path" parameter || required)

namespace Operation

/-- The conversion of what an operation has in a role, given the schemas of parts. -/
def step (setting : Setting) (operation : Operation) (convert : Converter) : Role → Builder Schema
  | .request => convert operation.request
  | .response => convert operation.response
  | .params => do
    let fields := Assoc.ofList (← operation.parameters.mapM (parameterStep setting convert))
    return .object (fields.map fun (key, schema, required) => Field.mk key schema required)
      .dropped []

/-- The conversion of what an operation has in a role. -/
def conversion (setting : Setting) (operation : Operation) (role : Role) : Builder Schema :=
  operation.step setting (schemaOf setting none) role

end Operation

section

variable {setting : Setting}

theorem describes_parameterStep (parameter : Item) :
    Describes (mapsOf setting.graph (under setting.graph parameter "schema"))
      (fun field => field.2.1.mentions) fun convert => parameterStep setting convert parameter := by
  have hl : ∀ {parts asked} {schema : Schema}, Speaks parts asked schema.mentions →
      Composed parts (fun asked' (field : Atom × Schema × Bool) =>
        Speaks parts (asked ++ asked') field.2.1.mentions) fun _ => (do
          let required := !setting.graph.isBlank (← field setting.graph parameter "required")
          match setting.graph.get? parameter "name" with
          | none => throw .nameMissing
          | some name =>
            return (← keyOf name, schema, isIn setting.graph "path" parameter || required)) := by
    intro parts asked schema hs
    refine .read (tame_field _ _) fun required _ => ?_
    split
    · exact .fail nofun
    · exact .read tame_keyOf fun key _ => .done (by rwa [append_nil])
  refine describes_read (tame_field _ _) fun schema hsc => ?_
  rw [← eq_under_of_field hsc]
  by_cases hm : setting.graph.isMap schema
  · have hp : mapsOf setting.graph schema = [schema] := if_pos hm
    simp only [hm, hp, if_true]
    exact Composed.bind (describes_convert schema) fun _ _ hs => hl hs
  · have hp : mapsOf setting.graph schema = [] := if_neg hm
    simp only [hm, hp, if_false, pure_bind, Bool.false_eq_true]
    exact @hl _ [] _ (by simpa [Schema.mentions] using Speaks.nil)

/-- Conversion for an operation asks for schemas of the operation only, and mentions only what they
mention. -/
theorem Operation.composed_step (operation : Operation) (role : Role) :
    Composed (operation.schemas setting.graph)
      (fun asked schema => schema.mentions ⊆ asked.flatMap (·.2.mentions))
      fun convert => operation.step setting convert role := by
  cases role with
  | request =>
    exact (describes_convert operation.request).mono (by simp [Operation.schemas])
      fun _ _ hs => hs.only
  | response =>
    exact (describes_convert operation.response).mono (by simp [Operation.schemas])
      fun _ _ hs => hs.only
  | params =>
    have hf := describes_mapM operation.parameters fun parameter _ =>
      @describes_parameterStep setting parameter
    refine Composed.bind (hf.mono (fun part hpr => ?_) fun _ _ h => h)
      fun asked fields hs => .done ?_
    · obtain ⟨parameter, hp, hpr⟩ := mem_flatMap.mp hpr
      obtain ⟨hm, rfl⟩ := mem_mapsOf.mp hpr
      refine mem_cons_of_mem _ (mem_cons_of_mem _ (mem_filterMap.mpr ?_))
      exact ⟨parameter, hp, get?_eq_some_of_isMap_under hm⟩
    · rw [append_nil]
      intro name hn
      simp only [Schema.mentions, Schema.mentionsOfFields_eq_flatMap, Schema.mentionsOfUndeclared,
        append_nil, flatMap_map, mem_flatMap] at hn
      obtain ⟨field, hfl, hn⟩ := hn
      -- A parameter that is given twice has one field, with the schema of one of the two.
      obtain ⟨written, hw, hv⟩ := (Assoc.value_of_mem_putAll hfl).resolve_right (by simp)
      refine hs.only (mem_flatMap.mpr ⟨written, hw, ?_⟩)
      rwa [← hv]

/-- The conversion of what an operation has is quiet. -/
theorem Operation.quiet_conversion (operation : Operation) (role : Role) :
    Quiet setting (operation.conversion setting role) :=
  fun agree ha => (operation.composed_step role).uniform ha.warn
    fun part _ => quiet_schemaOf none part agree ha

/-- What an operation has is described by its conversion. -/
theorem Operation.description_of_conversion {operation : Operation} {role : Role} {schema : Schema}
    (h : (operation.conversion setting role).run start = .ok (schema, final)) :
    operation.description setting role = .ok schema := by
  rw [← (operation.quiet_conversion role).outcome_eq h]
  cases role with
  | request => rfl
  | response => rfl
  | params =>
    exact outcome_map.symm

end

end ApiSchema.OpenApi
