/-
# How selections are read

While the schema of selections is made, the state is looked at for the entries of fragments only,
and what is done to it is noted: a warning is given, or an enumeration is queued. So the reading of
selections can be told apart from the state, as a schema with its notes, or nothing if selections
are nested too deep.
-/
import ApiSchema.Proofs.GraphQL.Outline

namespace ApiSchema.GraphQL

open List

variable {α β : Type} {setting : Setting} {text : String}

/-! ## Notes -/

/-- What is done to a state while a schema is made. -/
inductive Note
  | warning (text : String)
  | queued (type : NamedType)

namespace Progress

/-- The state after a note. -/
def note (progress : Progress) : Note → Progress
  | .warning text => progress.warn text
  | .queued type => progress.ensure type

/-- The state after some notes. -/
def noteAll (progress : Progress) (notes : List Note) : Progress := notes.foldl note progress

/-- Notes are made one after the other. -/
theorem noteAll_append (progress : Progress) (notes more : List Note) :
    (progress.noteAll notes).noteAll more = progress.noteAll (notes ++ more) :=
  foldl_append.symm

/-- What each note keeps, all notes keep. -/
theorem noteAll_induction {invariant : Progress → Prop} {notes : List Note}
    (h : ∀ progress, ∀ note ∈ notes, invariant progress → invariant (progress.note note))
    {progress : Progress} (hp : invariant progress) : invariant (progress.noteAll notes) :=
  foldlRecOn notes note hp fun state hs note hn => h state note hn hs

/-- Notes leave the entries and the record of fragments as they are. -/
theorem entries_noteAll (progress : Progress) (notes : List Note) :
    (progress.noteAll notes).entries = progress.entries ∧
      (progress.noteAll notes).fragmentEntries = progress.fragmentEntries := by
  refine @noteAll_induction (fun state => state.entries = progress.entries ∧
    state.fragmentEntries = progress.fragmentEntries) notes (fun state note _ hs => ?_)
    progress ⟨rfl, rfl⟩
  rw [← hs.1, ← hs.2]
  cases note <;> simp only [Progress.note, warn, ensure] <;> split <;> exact ⟨rfl, rfl⟩

/-- Only notes add warnings. -/
theorem mem_warnings_noteAll {progress : Progress} {notes : List Note} :
    text ∈ (progress.noteAll notes).warnings ↔
      text ∈ progress.warnings ∨ .warning text ∈ notes := by
  induction notes generalizing progress with
  | nil => simp [noteAll]
  | cons first rest ih =>
    have hf : text ∈ (progress.note first).warnings ↔
        text ∈ progress.warnings ∨ .warning text = first := by
      cases first <;> simp only [note, warn, ensure] <;> split <;> simp_all
    rw [noteAll, foldl_cons, ← noteAll, ih, hf, mem_cons, or_assoc]

theorem has_iff (progress : Progress) (name : String) :
    progress.has name ↔ name ∈ progress.entries.map (·.name) := by
  simp [Progress.has]

/-- Notes add no entry. -/
theorem has_noteAll (progress : Progress) (notes : List Note) (name : String) :
    (progress.noteAll notes).has name = progress.has name := by
  rw [has, (progress.entries_noteAll notes).1, has]

/-- The name is that of an entry or of a queued type. -/
def Holds (progress : Progress) (name : String) : Prop :=
  name ∈ progress.entries.map (·.name) ∨ name ∈ progress.pending.map (·.name)

/-- A type that is queued is held from then on. -/
theorem holds_noteAll {progress : Progress} {notes : List Note} {name : String} :
    (progress.noteAll notes).Holds name ↔
      progress.Holds name ∨ ∃ type, .queued type ∈ notes ∧ type.name = name := by
  induction notes generalizing progress with
  | nil => simp [noteAll]
  | cons first rest ih =>
    have hf : (progress.note first).Holds name ↔
        progress.Holds name ∨ ∃ type, .queued type = first ∧ type.name = name := by
      cases first with
      | warning text =>
        simp only [note, warn, reduceCtorEq, false_and, exists_false, or_false]
        split <;> rfl
      | queued type =>
        simp only [note, ensure, Note.queued.injEq, exists_eq_left]
        split
        · rename_i hh
          rw [Bool.or_eq_true, has_iff, any_eq_true] at hh
          refine ⟨Or.inl, fun h => h.elim id fun hn => hn ▸ hh.imp id ?_⟩
          rintro ⟨other, ho, hs⟩
          exact mem_map.mpr ⟨other, ho, eq_of_beq hs⟩
        · simp [Holds, or_assoc, eq_comm]
    rw [noteAll, foldl_cons, ← noteAll, ih, hf, or_assoc]
    simp only [mem_cons, or_and_right, exists_or]

theorem pending_subset_noteAll (progress : Progress) (notes : List Note) :
    progress.pending ⊆ (progress.noteAll notes).pending := by
  refine @noteAll_induction (fun state => progress.pending ⊆ state.pending) notes
    (fun state note _ hs => List.Subset.trans hs ?_) progress (List.Subset.refl _)
  cases note <;> simp only [Progress.note, warn, ensure] <;> split <;> simp

/-- Only the types that are noted are queued. -/
theorem of_mem_pending_noteAll {progress : Progress} {notes : List Note} {type : NamedType} :
    type ∈ (progress.noteAll notes).pending → type ∈ progress.pending ∨ .queued type ∈ notes := by
  refine @noteAll_induction (fun state => type ∈ state.pending →
    type ∈ progress.pending ∨ .queued type ∈ notes) notes (fun state note hn hs => ?_)
    progress Or.inl
  cases note <;> simp only [Progress.note, warn, ensure] <;> split
  · exact hs
  · exact hs
  · exact hs
  · intro hm
    rcases mem_append.mp hm with hm | hm
    · exact hs hm
    · exact Or.inr (mem_singleton.mp hm ▸ hn)

end Progress

/-- A result with the notes on the way to it, if there is one. -/
def Noted (α : Type) : Type := Option (α × List Note)

namespace Noted

instance monad : Monad Noted where
  pure result := some (result, [])
  bind noted next :=
    Option.bind noted fun given => (next given.1).map fun more => (more.1, given.2 ++ more.2)

instance lawful : LawfulMonad Noted :=
  .mk' Noted
    (fun noted => by
      cases noted with
      | none => rfl
      | some given => exact congrArg (fun notes => some (given.1, notes)) (append_nil _))
    (fun result next => by
      change Option.map _ (next result) = _
      cases next result <;> rfl)
    (fun noted next last => by
      cases noted with
      | none => rfl
      | some given =>
        change Option.bind (Option.map _ (next given.1)) _ =
          Option.map _ (Option.bind (next given.1) _)
        cases next given.1 with
        | none => rfl
        | some more =>
          change Option.map _ (last more.1) = Option.map _ (Option.map _ (last more.1))
          cases last more.1 <;> simp)

/-- The result with its notes. -/
def of (given : α × List Note) : Noted α := some given

theorem map_of (change : α → β) (given : α × List Note) :
    change <$> of given = of (change given.1, given.2) :=
  congrArg (fun notes => some (change given.1, notes)) (append_nil given.2)

/-- What the result has if the notes are allowed. -/
def Tells (allowed : Note → Prop) (holds : α → Prop) (noted : Noted α) : Prop :=
  ∀ result notes, noted = some (result, notes) → (∀ note ∈ notes, allowed note) → holds result

section

variable {allowed : Note → Prop} {holds : α → Prop} {holds' : β → Prop} {noted : Noted α}
  {next : α → Noted β}

theorem of_bind_eq_some {result : β} {notes : List Note}
    (h : noted >>= next = some (result, notes)) :
    ∃ middle first second, noted = some (middle, first) ∧ next middle = some (result, second) ∧
      notes = first ++ second := by
  cases noted with
  | none => cases h
  | some given =>
    obtain ⟨more, hm, he⟩ := Option.map_eq_some_iff.mp h
    cases he
    exact ⟨given.1, given.2, more.2, rfl, hm, rfl⟩

theorem tells_of {given : α × List Note} (h : (∀ note ∈ given.2, allowed note) → holds given.1) :
    Tells allowed holds (.of given) := by
  intro _ _ he
  cases he
  exact h

theorem tells_pure {result : α} (h : holds result) : Tells allowed holds (pure result) :=
  tells_of fun _ => h

theorem Tells.imp {holds' : α → Prop} (h : Tells allowed holds noted)
    (hi : ∀ result, holds result → holds' result) : Tells allowed holds' noted :=
  fun result notes he ha => hi result (h result notes he ha)

/-- What is read step by step. -/
theorem Tells.bind (h : Tells allowed holds noted)
    (hn : ∀ result, holds result → Tells allowed holds' (next result)) :
    Tells allowed holds' (noted >>= next) := by
  intro result notes he ha
  obtain ⟨middle, first, second, hf, hs, rfl⟩ := of_bind_eq_some he
  have hb := forall_mem_append.mp ha
  exact hn middle (h middle first hf hb.1) result second hs hb.2

theorem Tells.map {change : α → β} (h : Tells allowed holds noted)
    (hc : ∀ result, holds result → holds' (change result)) :
    Tells allowed holds' (change <$> noted) := by
  rw [← bind_pure_comp]
  exact h.bind fun result hr => tells_pure (hc result hr)

/-- What is read for each element. -/
theorem tells_mapM {step : α → Noted β} {made : α → β → Prop} (elements : List α)
    (h : ∀ element ∈ elements, Tells allowed (made element) (step element)) :
    Tells allowed (Forall₂ made elements) (elements.mapM step) := by
  induction elements with
  | nil => exact tells_pure .nil
  | cons first rest ih =>
    rw [mapM_cons]
    exact (h first (mem_cons_self ..)).bind fun _ hf =>
      (ih (forall_mem_cons.mp h).2).bind fun _ hr => tells_pure (.cons hf hr)

end

end Noted

/-! ## Selections -/

/-- What is collected from selections on a type: a portion, and what is selected for object
types. -/
structure Tally extends Portion where
  pieces : List (String × List Selection)

namespace Tally

def empty : Tally := ⟨.empty, []⟩

/-- One response key. -/
def key (key : String) (schema : Schema) (required : Bool) : Tally :=
  ⟨⟨[(key, ⟨schema, required⟩)], []⟩, []⟩

/-- Several tallies in a row. -/
def join (tallies : List Tally) : Tally :=
  ⟨⟨tallies.flatMap (·.keys), tallies.flatMap (·.spreads)⟩, tallies.flatMap (·.pieces)⟩

end Tally

namespace Selected

/-- Adds a tally to what was selected before. -/
def extendBy (selected : Selected) (tally : Tally) : Selected :=
  selected.extend tally.toPortion tally.pieces

theorem extendBy_join_cons (selected : Selected) (tally : Tally) (tallies : List Tally) :
    selected.extendBy (.join (tally :: tallies)) =
      (selected.extendBy tally).extendBy (.join tallies) := by
  simp [extendBy, extend_extend, Tally.join, Portion.append]

/-- All that is in the object for an object type is its type name or in one of the tallies. -/
theorem member_eq_object (common own : Tally) (type : String) :
    let all := Tally.join [.key typeNameKey (textLiteral type) true, common, own]
    ∃ selected, (empty.extendBy common).member type own.toPortion = object selected ∧
      (∀ pair ∈ selected.keys, pair ∈ all.keys) ∧
        ∀ name ∈ selected.spreads, name ∈ all.spreads := by
  refine ⟨_, member_eq _ _ _, fun pair hp => ?_, fun name hn => ?_⟩
  · have hc : ∀ pair ∈ (empty.extendBy common).keys, pair ∈ common.keys :=
      fun _ => Assoc.mem_of_mem_ofList
    have hm := Assoc.mem_of_mem_ofList hp
    simp only [Tally.join, Tally.key, flatMap_cons, flatMap_nil, append_nil, mem_append, mem_cons]
      at hm ⊢
    tauto
  · simpa [extendBy, extend, empty, mem_unionNames, Tally.join, Tally.key] using hn

/-- The schema of what is selected on a type if nothing is selected for object types only. -/
def alone (selected : Selected) (parent : NamedType) : Schema × List Note :=
  if parent.isAbstract then
    if parent.isUnion then
      (.unknown, [.warning ("Union type \"" ++ parent.name ++ "\" has no inline fragments. " ++
        "Consider adding \"... on TypeName \x7b fields \x7d\" to select specific fields.")])
    else if selected.keys.isEmpty && selected.spreads.isEmpty then
      (.unknown, [.warning ("Interface type \"" ++ parent.name ++
        "\" has no selected fields or inline fragments, using unknown")])
    else (selected.object, [])
  else (selected.object, [])

end Selected

/-- The schema of objects for several types: a single one stands for itself. -/
def united : List Schema → Schema
  | [member] => member
  | members => .union members

/-- The warning that a fragment is spread inside of itself. -/
def cyclicNotice (name : String) : String := "Cyclic spread of fragment \"" ++ name ++ "\" ignored"

/-- What a selection amounts to: a tally, a response key with what is selected on a type under it,
or other selections on a type, in which the given fragments are being merged. -/
inductive Step
  | done (tally : Tally) (notes : List Note)
  | field (key : String) (type : TypeRef) (base : NamedType) (selections : List Selection)
  | enter (merging : List String) (type : NamedType) (selections : List Selection)

/-- A response key of a type, where the schema of its named type is known. -/
def Step.leaf (key : String) (type : TypeRef) (schema : Schema) (notes : List Note) : Step :=
  .done (.key key (type.wrap schema) type.isNonNull) notes

def fieldStep (setting : Setting) (parent : NamedType) (key name : String)
    (selections : Option (List Selection)) : Step :=
  if name = typeNameKey then
    .done (.key key (if parent.isObject then textLiteral parent.name else .text) true) []
  else
    match parent.fieldType? name with
    | none =>
      .done (.key key .unknown false) [.warning ("Unknown field \"" ++ name ++ "\" on type \"" ++
        parent.name ++ "\", using unknown")]
    | some type =>
      match setting.system.type? type.baseName with
      | none => .leaf key type .unknown []
      | some base =>
        match base.kind with
        | .scalar =>
          match setting.registry.get? type.baseName with
          | some schema => .leaf key type schema []
          | none =>
            .leaf key type .unknown [.warning ("Unknown scalar type \"" ++ type.baseName ++
              "\", using unknown. Consider adding a scalar mapping.")]
        | .enum _ => .leaf key type (.ref base.name) [.queued base]
        | _ =>
          match selections with
          | none => .leaf key type .unknown []
          | some selections => .field key type base selections

def spreadStep (setting : Setting) (record? : String → Option String) (merging : List String)
    (parent : NamedType) (name : String) (spread : Selection) : Step :=
  match setting.documents.fragment? name with
  | none => .done .empty [.warning ("Unknown fragment \"" ++ name ++ "\"")]
  | some fragment =>
    let type := setting.system.type? fragment.condition
    if type.any (narrows parent) then .done ⟨.empty, [(fragment.condition, [spread])]⟩ []
    else
      match record? name with
      | some entry => .done ⟨⟨[], [entry]⟩, []⟩ []
      | none =>
        if merging.contains name then .done .empty [.warning (cyclicNotice name)]
        else
          match type.filter (·.isComposite) with
          | none => .done .empty []
          | some type => .enter (name :: merging) (conditioned parent type) fragment.selections

/-- What a selection on a type amounts to, given which fragments have their entries and which are
being merged. -/
def stepOf (setting : Setting) (record? : String → Option String) (merging : List String)
    (parent : NamedType) : Selection → Step
  | .field responseName name _ _ selections =>
    fieldStep setting parent (responseName.getD name) name selections
  | .spread name directives =>
    spreadStep setting record? merging parent name (.spread name directives)
  | .inline condition _ selections =>
    let type := setting.conditionType parent condition
    if narrows parent type then .done ⟨.empty, [(type.name, selections)]⟩ []
    else .enter merging (conditioned parent type) selections

/-- A way to read selections on a type, given the fragments that are being merged in place. -/
abbrev SelectionReader := List String → NamedType → List Selection → Noted Tally

section

variable (setting : Setting) (read : SelectionReader) (merging : List String)

def readMember (common : Selected) (name : String) (selections : List Selection) : Noted Schema :=
  match setting.system.type? name with
  | none => return .unknown
  | some type => do return common.member name (← read merging type selections).toPortion

/-- The schema of selections on a type. -/
def readWhole (parent : NamedType) (selections : List Selection) : Noted Schema := do
  let selected ← Selected.empty.extendBy <$> read merging parent selections
  if parent.isAbstract && !selected.narrowed.isEmpty then
    united <$> selected.narrowed.mapM fun piece =>
      readMember setting read merging selected piece.1 piece.2
  else .of (selected.alone parent)

def readStep : Step → Noted Tally
  | .done tally notes => .of (tally, notes)
  | .field key type base selections =>
    (fun schema => .key key (type.wrap schema) type.isNonNull) <$>
      readWhole setting read merging base selections
  | .enter merging type selections => read merging type selections

end

/-- Reads selections to a depth. -/
def readAll (setting : Setting) (record? : String → Option String) : ℕ → SelectionReader
  | 0, _, _, _ => none
  | fuel + 1, merging, parent, selections =>
    Tally.join <$> selections.mapM fun selection =>
      readStep setting (readAll setting record? fuel) merging
        (stepOf setting record? merging parent selection)

/-- The schema of the selections of an operation or a fragment, with its notes. -/
def readSchema (setting : Setting) (record? : String → Option String) (merging : List String)
    (type : NamedType) (selections : List Selection) : Noted Schema :=
  readWhole setting (readAll setting record? setting.depth) merging type selections

/-! ## The state around a reading -/

/-- In a state with the entries of fragments, the step does what is noted. -/
structure Gives (record? : String → Option String) (step : Builder α) (noted : Noted α) : Prop where
  run : ∀ start : Progress, Assoc.get? start.fragmentEntries = record? →
    step.run start =
      Option.elim noted (.error .endless) fun given => .ok (given.1, start.noteAll given.2)

section

variable {record? : String → Option String} {step : Builder α} {noted : Noted α}

theorem gives_pure (result : α) : Gives record? (pure result) (pure result) :=
  ⟨fun _ _ => rfl⟩

theorem Gives.congr {noted' : Noted α} (h : Gives record? step noted) (he : noted = noted') :
    Gives record? step noted' := he ▸ h

/-- One step after the other. -/
theorem Gives.bind {next : α → Builder β} {next' : α → Noted β} (h : Gives record? step noted)
    (hn : ∀ result, Gives record? (next result) (next' result)) :
    Gives record? (step >>= next) (noted >>= next') := by
  refine ⟨fun start hs => ?_⟩
  rw [StateT.run_bind, h.run start hs]
  cases noted with
  | none => rfl
  | some given =>
    have hl : Assoc.get? (start.noteAll given.2).fragmentEntries = record? := by
      rw [(start.entries_noteAll given.2).2, hs]
    change (next given.1).run (start.noteAll given.2) =
      Option.elim (Option.map _ (next' given.1)) _ _
    rw [(hn given.1).run _ hl]
    cases next' given.1 with
    | none => rfl
    | some more =>
      change Except.ok (more.1, (start.noteAll given.2).noteAll more.2) = .ok (more.1, _)
      rw [Progress.noteAll_append]

theorem Gives.map (h : Gives record? step noted) (change : α → β) :
    Gives record? (change <$> step) (change <$> noted) := by
  rw [← bind_pure_comp, ← bind_pure_comp]
  exact h.bind fun result => gives_pure (change result)

theorem Gives.bind_pure {given : α × List Note} (h : Gives record? step (.of given))
    (change : α → β) :
    Gives record? (do return change (← step)) (.of (change given.1, given.2)) := by
  rw [bind_pure_comp]
  exact (h.map change).congr (Noted.map_of ..)

/-- One step for each element. -/
theorem gives_mapM {step : α → Builder β} {noted : α → Noted β} (elements : List α)
    (h : ∀ element ∈ elements, Gives record? (step element) (noted element)) :
    Gives record? (elements.mapM step) (elements.mapM noted) := by
  induction elements with
  | nil => exact gives_pure []
  | cons first rest ih =>
    rw [mapM_cons, mapM_cons]
    exact (h first (mem_cons_self ..)).bind fun _ =>
      (ih (forall_mem_cons.mp h).2).bind fun _ => gives_pure _

theorem gives_mapM_of {step : α → Builder β} {value : α → β} {notes : α → List Note}
    (elements : List α)
    (h : ∀ element ∈ elements, Gives record? (step element) (.of (value element, notes element))) :
    Gives record? (elements.mapM step) (.of (elements.map value, elements.flatMap notes)) := by
  refine (gives_mapM elements h).congr ?_
  clear h
  induction elements with
  | nil => rfl
  | cons first rest ih =>
    rw [mapM_cons, ih]
    simp only [bind_pure_comp, Noted.map_of]
    rfl

theorem gives_get_bind {next : Progress → Builder α}
    (h : ∀ current : Progress, Assoc.get? current.fragmentEntries = record? →
      Gives record? (next current) noted) : Gives record? (get >>= next) noted :=
  ⟨fun start hs => (h start hs).run start hs⟩

/-- A run that gives a result gives the one that is noted. -/
theorem Gives.of_run {start final : Progress} {result : α}
    (h : Gives (Assoc.get? start.fragmentEntries) step noted)
    (hr : step.run start = .ok (result, final)) :
    ∃ notes, noted = some (result, notes) ∧ final = start.noteAll notes := by
  rw [h.run start rfl] at hr
  cases noted with
  | none => cases hr
  | some given =>
    cases hr
    exact ⟨given.2, rfl, rfl⟩

theorem Gives.run' {start : Progress} {given : α × List Note}
    (h : Gives (Assoc.get? start.fragmentEntries) step (.of given)) :
    step.run' start = .ok given.1 := by
  change Prod.fst <$> step.run start = _
  rw [h.run start rfl]
  rfl

theorem attains_of_gives {given : α × List Note} {pre : Progress → Prop}
    {post : α → Progress → Prop} (h : ∀ record?, Gives record? step (.of given))
    (hp : ∀ start, pre start → post given.1 (start.noteAll given.2)) : Attains pre step post :=
  fun start hs => ⟨given.1, start.noteAll given.2, (h _).run start rfl, hp start hs⟩

/-- Selections are collected as they are read. -/
def Collects (record? : String → Option String) (collect : Collector) (read : SelectionReader) :
    Prop :=
  ∀ merging parent selected selections,
    Gives record? (collect merging parent selected selections)
      (selected.extendBy <$> read merging parent selections)

variable {collect : Collector} {read : SelectionReader} (hcollect : Collects record? collect read)
  (merging : List String) (parent : NamedType)

include hcollect

/-- The object for an object type that is picked out is as it is read. -/
theorem gives_memberSchema (common : Selected) (name : String) (selections : List Selection) :
    Gives record? (memberSchema setting collect merging common name selections)
      (readMember setting read merging common name selections) := by
  unfold memberSchema readMember
  cases setting.system.type? name with
  | none => exact gives_pure _
  | some type => exact ((hcollect ..).bind fun _ => gives_pure _).congr (bind_map_left ..)

/-- The schema of selections is as it is read. -/
theorem gives_selectionSchema (selections : List Selection) :
    Gives record? (selectionSchema setting collect merging parent (some selections))
      (readWhole setting read merging parent selections) := by
  refine (hcollect ..).bind fun selected => ?_
  unfold abstractSchema Selected.alone
  cases parent.isAbstract with
  | false => exact gives_pure _
  | true =>
    cases he : selected.narrowed.isEmpty with
    | true =>
      rw [Bool.true_and, Bool.not_true, if_pos rfl, if_pos rfl, if_neg Bool.false_ne_true,
        if_pos rfl]
      split
      · exact ⟨fun _ _ => rfl⟩
      · split <;> exact ⟨fun _ _ => rfl⟩
    | false =>
      refine Gives.congr ((gives_mapM selected.narrowed fun piece _ =>
        gives_memberSchema hcollect merging selected piece.1 piece.2).bind fun members => ?_)
          (bind_pure_comp united _)
      rcases members with _ | ⟨member, _ | ⟨other, rest⟩⟩ <;> exact gives_pure _

/-- A selection is collected as it is read. -/
theorem gives_collectOne (selected : Selected) (selection : Selection) :
    Gives record? (collectOne setting collect merging parent selected selection)
      (selected.extendBy <$>
        readStep setting read merging (stepOf setting record? merging parent selection)) := by
  cases selection with
  | field responseName name arguments directives selections =>
    rw [collectOne, stepOf]
    unfold collectField fieldStep
    split
    · exact ⟨fun _ _ => rfl⟩
    · cases parent.fieldType? name with
      | none => exact ⟨fun _ _ => rfl⟩
      | some type =>
        dsimp only
        rw [TypeRef.schema_eq_map]
        unfold outputLeaf
        cases setting.system.type? type.baseName with
        | none => exact ⟨fun _ _ => rfl⟩
        | some base =>
          dsimp only
          cases base.kind with
          | scalar =>
            dsimp only
            unfold scalarSchema
            cases setting.registry.get? type.baseName <;> exact ⟨fun _ _ => rfl⟩
          | enum values => exact ⟨fun _ _ => rfl⟩
          | object | interface | union | input =>
            cases selections with
            | none => exact ⟨fun _ _ => rfl⟩
            | some selections =>
              refine Gives.congr (((gives_selectionSchema hcollect merging base selections).map
                type.wrap).bind fun _ => gives_pure _) ?_
              rw [bind_map_left, readStep, Functor.map_map]
              exact bind_pure_comp ..
  | spread name directives =>
    rw [collectOne, stepOf]
    unfold collectSpread spreadStep
    cases setting.documents.fragment? name with
    | none => exact ⟨fun _ _ => rfl⟩
    | some fragment =>
      dsimp only
      split
      · exact gives_pure _
      · refine gives_get_bind fun current hc => ?_
        rw [hc]
        cases record? name with
        | some entry =>
          dsimp only
          rw [← Selected.extend_spread]
          exact gives_pure _
        | none =>
          dsimp only
          split
          · exact ⟨fun _ _ => rfl⟩
          · cases setting.system.type? fragment.condition with
            | none => exact gives_pure _
            | some type =>
              rw [Option.filter_some]
              dsimp only
              split
              · exact hcollect ..
              · exact gives_pure _
  | inline condition directives selections =>
    rw [collectOne, stepOf, ← Setting.conditionType]
    split
    · exact gives_pure _
    · exact hcollect ..

omit hcollect

/-- At every depth selections are collected as they are read. -/
theorem collects_readAll (fuel : ℕ) :
    Collects record? (GraphQL.collect setting fuel) (readAll setting record? fuel) := by
  induction fuel with
  | zero => exact fun _ _ _ _ => ⟨fun _ _ => rfl⟩
  | succ fuel ih =>
    intro merging parent selected selections
    rw [GraphQL.collect, readAll]
    induction selections generalizing selected with
    | nil => exact gives_pure _
    | cons first rest ihrest =>
      refine Gives.congr ((gives_collectOne ih merging parent selected first).bind fun selected =>
        ihrest selected) ?_
      simp only [mapM_cons, ← bind_pure_comp, bind_assoc, pure_bind, Selected.extendBy_join_cons]

/-- The schema of selections is read at the depth of the setting. -/
theorem gives_schemaOf (setting : Setting) (type : NamedType) (selections : List Selection) :
    Gives record? (schemaOf setting merging type selections)
      (readSchema setting record? merging type selections) :=
  gives_selectionSchema (collects_readAll _) merging type selections

end

/-! ## Readings and outlines -/

namespace Tally

/-- The tally of a selection whose fragments have their entries. -/
def ofSelection (setting : Setting) (parent : NamedType) (selection : Selection) : Tally :=
  ⟨(outline setting parent selection).toPortion, GraphQL.pieces setting parent selection⟩

/-- The tally of selections whose fragments have their entries. -/
def ofAll (setting : Setting) (parent : NamedType) (selections : List Selection) : Tally :=
  ⟨(outlineAll setting parent selections).toPortion, piecesOfAll setting parent selections⟩

theorem join_map_ofSelection (parent : NamedType) (selections : List Selection) :
    join (selections.map (ofSelection setting parent)) = ofAll setting parent selections := by
  induction selections with
  | nil => rfl
  | cons selection rest ih =>
    have hc : ofAll setting parent (selection :: rest) =
        join [ofSelection setting parent selection, ofAll setting parent rest] := by
      simp [join, ofAll, ofSelection, outlineAll, piecesOfAll, Outline.append, Portion.append]
    rw [hc, ← ih]
    simp [join]

end Tally

/-- The fragment has its entry, if it is on a known type. -/
def Recorded (setting : Setting) (record? : String → Option String) (name : String) : Prop :=
  record? name = setting.spreadRecord? name

/-- The step amounts to the tally, if selections have their outlines. -/
def Step.Outlines (setting : Setting) (tally : Tally) (spreads : List String) : Step → Prop
  | .done given _ => given = tally
  | .field key type base selections =>
    .key key (type.wrap ((outlineAll setting base selections).schema base)) type.isNonNull = tally ∧
      Selection.spreadNamesOfAll selections ⊆ spreads
  | .enter _ type selections =>
    .ofAll setting type selections = tally ∧ Selection.spreadNamesOfAll selections ⊆ spreads

section

variable {record? : String → Option String} {read : SelectionReader} {merging : List String}
  {parent : NamedType} {selections : List Selection} {name : String}

/-- A field amounts to what it is described as. -/
theorem outlines_fieldStep (key : String) (selections : Option (List Selection))
    {below : NamedType → Schema} (hb : ∀ type, below type =
      selections.elim .unknown fun inner => (outlineAll setting type inner).schema type) :
    (fieldStep setting parent key name selections).Outlines setting
      ⟨⟨[(key, describe setting parent name below)], []⟩, []⟩
      (selections.elim [] Selection.spreadNamesOfAll) := by
  unfold fieldStep describe
  split
  · rfl
  · cases parent.fieldType? name with
    | none => rfl
    | some type =>
      dsimp only
      unfold leafSchema
      cases setting.system.type? type.baseName with
      | none => rfl
      | some base =>
        dsimp only
        cases base.kind with
        | scalar =>
          dsimp only
          cases setting.registry.get? type.baseName <;> rfl
        | enum values => rfl
        | object | interface | union | input =>
          dsimp only
          rw [hb]
          cases selections with
          | none => rfl
          | some inner => exact ⟨rfl, Subset.refl _⟩

/-- The spread of a fragment amounts to its entry. -/
theorem outlines_spreadStep {directives : List Directive}
    (hr : Recorded setting record? name) :
    (spreadStep setting record? merging parent name (.spread name directives)).Outlines setting
      (.ofSelection setting parent (.spread name directives)) [name] := by
  unfold Recorded Setting.spreadRecord? at hr
  rw [Tally.ofSelection, outline, pieces]
  unfold spreadStep
  unfold Setting.spreadType? at hr ⊢
  cases hfr : setting.documents.fragment? name with
  | none => rfl
  | some fragment =>
    rw [hfr, Option.bind_some] at hr
    rw [hr, Option.bind_some]
    dsimp only
    cases hf : (setting.system.type? fragment.condition).filter (·.isComposite) with
    | none =>
      have ha : (setting.system.type? fragment.condition).any (narrows parent) = false := by
        rw [Option.any_eq_false]
        intro type ht
        have hc := Option.filter_eq_none_iff.mp hf type ht
        cases ho : type.isObject <;>
          simp_all [narrows, NamedType.isComposite]
      rw [ha, if_neg Bool.false_ne_true]
      dsimp only [Option.map_none]
      split <;> rfl
    | some type =>
      obtain ⟨ht, -⟩ := Option.filter_eq_some_iff.mp hf
      rw [ht, Option.any_some]
      dsimp only
      split
      · rw [TypeSystem.name_of_type? ht]
        rfl
      · rfl

/-- A selection amounts to its outline, if the fragments that it spreads are recorded. -/
theorem outlines_stepOf {selection : Selection}
    (hr : ∀ name ∈ selection.spreadNames, Recorded setting record? name) :
    (stepOf setting record? merging parent selection).Outlines setting
      (.ofSelection setting parent selection) selection.spreadNames := by
  cases selection with
  | field responseName name arguments directives selections =>
    cases selections with
    | none =>
      rw [Tally.ofSelection, outline, pieces]
      exact outlines_fieldStep _ none fun _ => rfl
    | some inner =>
      rw [Tally.ofSelection, outline, pieces]
      exact outlines_fieldStep _ (some inner) fun _ => rfl
  | spread name directives =>
    exact outlines_spreadStep (hr name (by simp [Selection.spreadNames]))
  | inline condition directives selections =>
    rw [stepOf, Tally.ofSelection, outline, pieces]
    split
    · rfl
    · exact ⟨rfl, Subset.refl _⟩

theorem Noted.tells_mapM_eq {step : α → Noted β} {change : α → β} (elements : List α)
    (h : ∀ element ∈ elements, Noted.Tells (fun _ => True) (· = change element) (step element)) :
    Noted.Tells (fun _ => True) (· = elements.map change) (elements.mapM step) := by
  refine (tells_mapM elements h).imp fun results ha => ?_
  rw [← forall₂_eq_eq_eq, forall₂_map_right_iff]
  exact ha.flip

/-- Selections are read as their outline says, if the fragments that they spread are recorded. -/
def ReadsOutlines (setting : Setting) (record? : String → Option String) (read : SelectionReader) :
    Prop :=
  ∀ merging parent selections,
    (∀ name ∈ Selection.spreadNamesOfAll selections, Recorded setting record? name) →
      Noted.Tells (fun _ => True) (· = Tally.ofAll setting parent selections)
        (read merging parent selections)

/-- The objects for the object types that are picked out are made of their own portions. -/
theorem ReadsOutlines.members (hrd : ReadsOutlines setting record? read) {common : Selected}
    {narrowed : List (String × List Selection)}
    (hr : ∀ name ∈ Selection.spreadNamesOfAll selections, Recorded setting record? name) :
    Noted.Tells (fun _ => True)
      (· = (gather Portion.append .empty [] (outlineAll setting parent selections).narrowed).map
        fun piece => common.member piece.1 piece.2)
      ((gather (· ++ ·) [] [] (piecesOfAll setting parent selections)).mapM fun piece =>
        readMember setting read merging { common with narrowed := narrowed } piece.1 piece.2) := by
  have hm := map_gather portionOn_append (portionOn_nil setting)
    (piecesOfAll setting parent selections) []
  rw [map_nil] at hm
  rw [narrowed_outlineAll, ← hm, map_map]
  refine Noted.tells_mapM_eq _ fun piece hp => ?_
  obtain ⟨⟨type, hty⟩, hn⟩ := of_mem_gather_pieces hr piece hp
  unfold readMember
  simp only [Function.comp_apply, portionOn, hty]
  exact (hrd merging type piece.2 hn).bind fun _ ht => Noted.tells_pure (ht ▸ rfl)

/-- The schema of selections on a type is that of their outline. -/
theorem ReadsOutlines.readWhole (hrd : ReadsOutlines setting record? read)
    (hr : ∀ name ∈ Selection.spreadNamesOfAll selections, Recorded setting record? name) :
    Noted.Tells (fun _ => True) (· = (outlineAll setting parent selections).schema parent)
      (GraphQL.readWhole setting read merging parent selections) := by
  have he : (gather (· ++ ·) [] [] (piecesOfAll setting parent selections)).isEmpty =
      (outlineAll setting parent selections).narrowed.isEmpty := by
    rw [narrowed_outlineAll, isEmpty_map]
    exact isEmpty_gather _ _ _
  rw [GraphQL.readWhole, bind_map_left]
  refine (hrd merging parent selections hr).bind ?_
  rintro _ rfl
  have hs : Selected.empty.extendBy (.ofAll setting parent selections) =
      { Selected.ofPortion (outlineAll setting parent selections).toPortion with
        narrowed := gather (· ++ ·) [] [] (piecesOfAll setting parent selections) } := rfl
  rw [hs]
  unfold Outline.schema Selected.alone
  dsimp only
  rw [he]
  cases parent.isAbstract with
  | false => exact Noted.tells_of fun _ => rfl
  | true =>
    cases (outlineAll setting parent selections).narrowed.isEmpty with
    | true =>
      cases parent.isUnion with
      | true => exact Noted.tells_of fun _ => rfl
      | false =>
        refine Noted.tells_of fun _ => ?_
        rw [Bool.false_or, if_pos rfl, if_neg Bool.false_ne_true]
        split <;> rfl
    | false => exact (hrd.members hr).map fun _ hm => hm ▸ rfl

/-- Selections are read to their outlines at every depth. -/
theorem readsOutlines_readAll (fuel : ℕ) :
    ReadsOutlines setting record? (readAll setting record? fuel) := by
  induction fuel with
  | zero => exact fun _ _ _ _ _ _ he => by cases he
  | succ fuel ih =>
    intro merging parent selections hr
    refine (@Noted.tells_mapM_eq _ _ _ (Tally.ofSelection setting parent) selections
      fun selection hm => ?_).map fun _ ha => ha ▸ Tally.join_map_ofSelection parent selections
    have hi : ∀ name ∈ selection.spreadNames, Recorded setting record? name := by
      intro name hn
      refine hr name ?_
      rw [spreadNamesOfAll_eq_flatMap]
      exact mem_flatMap.mpr ⟨selection, hm, hn⟩
    have hs : (stepOf setting record? merging parent selection).Outlines setting _ _ :=
      outlines_stepOf hi
    cases hc : stepOf setting record? merging parent selection with
    | done tally notes =>
      rw [hc] at hs
      exact Noted.tells_of fun _ => hs
    | field key type base inner =>
      rw [hc] at hs
      exact (ih.readWhole fun name hn => hi name (hs.2 hn)).map
        fun _ hsc => hsc ▸ hs.1
    | enter merging type inner =>
      rw [hc] at hs
      exact (ih merging type inner fun name hn => hi name (hs.2 hn)).imp
        fun _ ht => ht.trans hs.1

end

end ApiSchema.GraphQL
