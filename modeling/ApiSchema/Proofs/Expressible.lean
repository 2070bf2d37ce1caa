/-
# Schemas that every library can express

A well-typed schema has an expression in every library, and if the names of the entries are
distinct, the module of their schemas can be written.
-/
import Mathlib.Data.List.Nodup
import ApiSchema.Proofs.Emission

namespace ApiSchema

open List

variable {fields : List (Field Schema)} {spreads : List String} {value : Value}
  {members : List Schema} {exprs : List Expr} {field : String}
  {definition : Except EmitError (Option String)} {attempt : Except EmitError Expr}
  {schema : Schema} {entries : List Entry}

open TypeScript

/-! ## Dialects -/

theorem Zod.complete : Zod.dialect.Complete := by
  intro format h
  cases format with
  | other name => cases h
  | _ => exact ⟨_, rfl⟩

theorem Valibot.complete : Valibot.dialect.Complete := by
  intro format h
  cases format with
  | other name => cases h
  | _ => exact ⟨_, rfl⟩

theorem Effect.complete : Effect.dialect.Complete := by
  intro format h
  cases format with
  | other name => cases h
  | _ => exact ⟨_, rfl⟩

/-! ## Texts in the notation -/

namespace Arktype

/-- A plain value has a form in the notation, or is refused because of its characters. -/
theorem fares_literalText? : Fares (¬ value.isPlain) (fun _ => True) (literalText? value) := by
  cases ha : literalText? value with
  | ok text => trivial
  | error fault =>
    intro hp
    cases value with
    | atom atom =>
      cases atom with
      | int n =>
        unfold literalText? at ha
        dsimp only at ha
        rw [Atom.unwritable?_int hp] at ha
        cases ha
      | text _ | bool _ | float _ => cases ha
      | _ => cases hp
    | _ => cases hp

/-- Whether several schemas have forms in the notation can be decided if this can be decided of each
of them. -/
theorem fares_notatedAll? {excuse : Prop} (schemas : List Schema)
    (h : ∀ schema ∈ schemas, Fares excuse (fun _ => True) (notated? schema)) :
    Fares excuse (fun _ => True) (notatedAll? schemas) := by
  match schemas with
  | [] =>
    trivial
  | [schema] =>
    exact (h schema (mem_singleton_self _)).bind fun _ _ => trivial
  | schema :: second :: rest =>
    rw [forall_mem_cons] at h
    rw [notatedAll?]
    · exact h.1.bind fun _ _ => (fares_notatedAll? (second :: rest) h.2).bind fun _ _ => trivial
    · rintro ⟨⟩

/-- Whether a well-typed schema has a form in the notation can be decided. -/
theorem fares_notated? (schema : Schema) :
    Fares (¬ schema.WellTyped) (fun _ => True) (notated? schema) := by
  induction schema using Schema.induction_children with
  | _ schema ih =>
  have hc : ∀ child ∈ schema.children,
      Fares (¬ schema.WellTyped) (fun _ => True) (notated? child) := fun child hm =>
    (ih child hm).imp (mt fun h => h.of_part (Schema.part_of_mem_children hm)) fun _ h => h
  match schema with
  | .string none | .string (some _) | .number _ | .keyword _ =>
    trivial
  | .object .. | .tuple _ | .record .. | .enumeration _ | .ref _ | .raw _ | .unsupported _ =>
    trivial
  | .literal value =>
    exact fares_literalText?.imp (mt fun h => h.admissible) fun _ h => h
  | .array items =>
    exact (hc items (mem_singleton_self _)).bind fun _ _ => trivial
  | .union members | .intersection members =>
    exact (fares_notatedAll? members hc).bind fun _ _ => trivial

/-! ## Expressions -/

/-- The key under which a property is written. -/
def objectKey (name : String) (required : Bool) : String :=
  if required then Name.propertyKey name else Text.quote (name ++ "?")

/-- The value of a key. -/
def expressValue (schema : Schema) : Except EmitError Expr :=
  textOr (notated? schema) (expressed false schema)

/-- The value of a field: where a key may be missing, the widening is said by the key. -/
def expressFieldValue (required : Bool) (schema : Schema) : Except EmitError Expr :=
  if required then expressValue schema
  else do
    let definition ← notated? schema.stripNullability
    let expr ← definedOr (.ok definition) (expressed true schema)
    return orNull schema definition expr

theorem expressAll_eq_mapM (schemas : List Schema) : expressAll schemas = schemas.mapM express := by
  induction schemas with
  | nil => rw [expressAll, mapM_nil]; rfl
  | cons schema rest ih => rw [expressAll, mapM_cons, ih]; rfl

theorem valueAll_eq_mapM (schemas : List Schema) :
    valueAll schemas = schemas.mapM expressValue := by
  induction schemas with
  | nil => rw [valueAll, mapM_nil]; rfl
  | cons schema rest ih => rw [valueAll, mapM_cons, ih]; rfl

/-- The fields of an object have texts for their keys, and are written one by one. -/
theorem fares_expressFields {excuse : Prop} {made : Field Schema → String × Expr → Prop}
    (hk : ∀ field ∈ fields, (∀ name, field.key ≠ .text name) → excuse)
    (h : ∀ field ∈ fields, ∀ name, field.key = .text name →
      Fares excuse (fun value => made field (objectKey name field.required, value))
        (expressFieldValue field.required field.schema)) :
    Fares excuse (Forall₂ made fields) (expressFields fields) := by
  induction fields with
  | nil =>
    exact Forall₂.nil
  | cons field rest ih =>
    rw [forall_mem_cons] at h hk
    obtain ⟨key, schema, required⟩ := field
    have hr := ih hk.2 h.2
    cases key with
    | text name =>
      have hc : expressFields (⟨.text name, schema, required⟩ :: rest) = do
          let value ← expressFieldValue required schema
          return (objectKey name required, value) :: (← expressFields rest) := by
        cases required <;> simp [expressFields, expressFieldValue, expressValue, objectKey]
      rw [hc]
      exact (h.1 name rfl).bind fun _ hv => hr.bind fun _ ho => .cons hv ho
    | _ =>
      have hf := hk.1 (by simp)
      cases ha : expressFields _ with
      | error fault => exact hf
      | ok pairs =>
        cases required with
        | true => cases ha
        | false =>
          rw [expressFields] at ha
          · obtain ⟨_, -, ha⟩ := of_bind_eq_ok ha
            cases ha
          · rintro _ ⟨⟩

theorem fares_expressUndeclared {excuse : Prop} {holds : Expr → Prop}
    {undeclared : Undeclared Schema}
    (ht : ∀ text, holds (.text text))
    (h : ∀ schema ∈ undeclared.schemas, Fares excuse holds (expressValue schema)) :
    Fares excuse (fun last => holds last.2 ∧
        last.1 = Text.quote (if undeclared.schemas.isEmpty then "+" else "[string]"))
      (expressUndeclared undeclared) := by
  cases undeclared with
  | dropped | marked _ =>
    exact ⟨ht _, rfl⟩
  | checked inner =>
    exact (h inner (mem_singleton_self _)).bind fun _ hv => ⟨hv, rfl⟩

/-- A schema whose concrete member has no text in the notation is no text with a word for its
format. -/
theorem formatWord?_of_notated?_stripNullability (h : notated? schema.stripNullability = .ok none) :
    ∀ format, schema = .string (some format) → formatWord? format = none := by
  rintro format rfl
  rw [Schema.stripNullability] at h
  · exact Except.ok.inj h
  · rintro _ ⟨⟩

theorem formatWord?_of_notated? (h : notated? schema = .ok none) :
    ∀ format, schema = .string (some format) → formatWord? format = none := by
  rintro format rfl
  exact Except.ok.inj h

/-- What the expression of a schema has apart from the expressions of its children. -/
def Own (T : Bool → Expr → Prop) (later : Bool) : Schema → Prop
  | .ref name => T later (reference name)
  | .object _ _ spreads => T later (.block [] []) ∨ ∃ name ∈ spreads, T later (reference name)
  | .raw code => T later (.verbatim code)
  | _ => False

theorem isKey_objectKey {name : String} {required : Bool} :
    Expr.IsKey (objectKey name required) := by
  cases required with
  | true => exact ⟨name, Or.inl rfl⟩
  | false => exact ⟨_, Or.inr rfl⟩

section

variable {T : Bool → Expr → Prop} {later bare : Bool} {excuse : Prop}

open Expr

section

variable (hT : Inherited T)
include hT

theorem not_defined {text : String} : ¬ T later (defined text) :=
  ((madeOf_apply _).trans madeOf_text).lacks hT (forall_mem_nil _)

/-- Expressions joined by a method one after the other. -/
theorem not_joined (h : isPath field) {first : Expr} {others : List Expr}
    (hf : ¬ T later first) (ho : ∀ other ∈ others, ¬ T later other) :
    ¬ T later (others.foldl (fun expr other => expr.method field [other]) first) :=
  (madeOf_foldl (fun expr other => madeOf_method expr [other] h) first others).lacks hT
    (forall_mem_cons.mpr ⟨hf, ho⟩)

theorem not_unite (h : ∀ expr ∈ exprs, ¬ T later expr) : ¬ T later (unite bare members exprs) := by
  unfold unite
  split
  · rename_i modifier inner _ hi
    have hm : inner ∈ exprs := by
      obtain ⟨pair, hp, rfl⟩ := Option.map_eq_some_iff.mp hi
      exact (of_mem_zip (mem_of_find?_eq_some hp)).2
    split
    · exact h inner hm
    · exact not_joined hT (by decide) (h inner hm) (forall_mem_map.mpr fun _ _ => not_defined hT)
  · split
    · exact not_defined hT
    · rw [forall_mem_cons] at h
      exact not_joined hT (by decide) h.1 h.2

theorem not_intersect (h : ∀ expr ∈ exprs, ¬ T later expr) : ¬ T later (intersect exprs) := by
  cases exprs with
  | nil => exact not_defined hT
  | cons first rest =>
    rw [forall_mem_cons] at h
    exact not_joined hT (by decide) h.1 h.2

theorem not_assemble {pairs : List (String × Expr)}
    (hpr : ∀ pair ∈ pairs, ¬ T later pair.2 ∧ IsKey pair.1)
    (he : ¬ T later (.block [] [])) (hs : ∀ name ∈ spreads, ¬ T later (reference name)) :
    ¬ T later (assemble pairs spreads) := by
  induction spreads with
  | nil =>
    refine (madeOf_apply _).lacks hT (forall_mem_singleton.mpr ?_)
    rw [hT.block fun pair hp => (hpr pair hp).2]
    rintro (hb | ⟨pair, hp, hh⟩)
    · exact he hb
    · exact (hpr pair hp).1 hh
  | cons name rest ih =>
    rw [forall_mem_cons] at hs
    exact (madeOf_method _ _).lacks hT
      (forall_mem_cons.mpr ⟨hs.1, forall_mem_singleton.mpr (ih hs.2)⟩)

/-- A definition by a text, or by an expression where there is no text. -/
theorem fares_definedOr (hd : Fares excuse (fun _ => True) definition)
    (h : definition = .ok none → Fares excuse (¬ T later ·) attempt) :
    Fares excuse (¬ T later ·) (definedOr definition attempt) := by
  rcases definition with fault | (_ | text)
  · exact hd
  · exact h rfl
  · exact not_defined hT

/-- A text, or an expression where there is no text. -/
theorem fares_textOr (hd : Fares excuse (fun _ => True) definition)
    (h : definition = .ok none → Fares excuse (¬ T later ·) attempt) :
    Fares excuse (¬ T later ·) (textOr definition attempt) := by
  rcases definition with fault | (_ | text)
  · exact hd
  · exact h rfl
  · exact hT.text

/-- The value of a key that may be missing. -/
theorem not_orNull {definition : Option String} {expr : Expr}
    (h : ¬ T later expr) : ¬ T later (orNull schema definition expr) := by
  unfold orNull
  split
  · exact hT.text
  · exact h
  · exact hT.text
  · exact not_joined hT (by decide) h (forall_mem_singleton.mpr (not_defined hT))

/-- The expression of a schema has nothing inherited that no part of the schema has. A well-typed
schema has an expression, unless it is a text whose format has a word. -/
theorem fares_expressed (bare : Bool) (schema : Schema)
    (hw : ∀ format, schema = .string (some format) → formatWord? format = none)
    (ho : ¬ schema.Somewhere (Own T later)) :
    Fares (¬ schema.WellTyped) (¬ T later ·) (expressed bare schema) := by
  induction schema using Schema.induction_children generalizing bare with
  | _ schema ih =>
  rw [Schema.somewhere_iff, not_or] at ho
  have hch : ∀ child ∈ schema.children, ∀ bare,
      (∀ format, child = .string (some format) → formatWord? format = none) →
        Fares (¬ schema.WellTyped) (¬ T later ·) (expressed bare child) :=
          fun child hm bare hw =>
    (ih child hm bare hw fun hs => ho.2 ⟨child, hm, hs⟩).imp
      (mt fun h => h.of_part (Schema.part_of_mem_children hm)) fun _ h => h
  have hnt : ∀ part, Schema.Part part schema →
      Fares (¬ schema.WellTyped) (fun _ => True) (notated? part) := fun part hp =>
    (fares_notated? part).imp (mt fun h => h.of_part hp) fun _ h => h
  have hex : ∀ child ∈ schema.children,
      Fares (¬ schema.WellTyped) (¬ T later ·) (express child) :=
    fun child hm => fares_definedOr hT (hnt child (Schema.part_of_mem_children hm))
      fun hn => hch child hm false (formatWord?_of_notated? hn)
  have hv : ∀ child ∈ schema.children,
      Fares (¬ schema.WellTyped) (¬ T later ·) (expressValue child) :=
    fun child hm => fares_textOr hT (hnt child (Schema.part_of_mem_children hm))
      fun hn => hch child hm false (formatWord?_of_notated? hn)
  match schema with
  | .string none | .number _ | .keyword _ | .unsupported _ =>
    exact not_defined hT
  | .string (some format) =>
    rw [expressed, patterned]
    split
    · exact not_defined hT
    · rename_i hpt
      intro ht
      have hk := ht.admissible
      have hn := hw format rfl
      cases format with
      | date | time => cases hpt
      | other name => cases hk
      | _ => cases hn
  | .object fields undeclared spreads =>
    have hf : ∀ field ∈ fields, Fares (¬ (Schema.object fields undeclared spreads).WellTyped)
        (¬ T later ·) (expressFieldValue field.required field.schema) := by
      intro field hf
      have hm : field.schema ∈ (Schema.object fields undeclared spreads).children :=
        mem_append_left _ (mem_map_of_mem hf)
      rw [expressFieldValue]
      split
      · exact hv _ hm
      · have hp := field.schema.part_stripNullability.trans (Schema.part_of_mem_children hm)
        have hfr := hnt _ hp
        cases hd : notated? field.schema.stripNullability with
        | error fault => exact (hd ▸ hfr :)
        | ok definition =>
          exact (@fares_definedOr (.ok definition) _ _ _ _ hT trivial fun hn =>
            hch _ hm true
              (formatWord?_of_notated?_stripNullability (hd.trans hn))).bind
            fun expr hexp => not_orNull hT hexp
    refine (@fares_expressFields _ _ (fun _ pair => ¬ T later pair.2 ∧ IsKey pair.1)
      (fun field hm hky ht => ?_) fun field hm name _ => (hf field hm).imp id
        fun _ hh => ⟨hh, isKey_objectKey⟩).bind fun pairs hpr =>
      (fares_expressUndeclared (fun _ => hT.text) fun inner hm =>
        hv inner (mem_append_right _ hm)).bind fun last hl => ?_
    · obtain ⟨name, hnm⟩ := ht.admissible field hm
      exact hky name hnm
    · exact not_assemble hT
        (forall_mem_concat (forall_mem_of_forall₂ hpr) ⟨hl.1, _, Or.inr hl.2⟩)
        (fun hb => ho.1 (Or.inl hb)) fun name hnm hh =>
          ho.1 (Or.inr ⟨name, hnm, hh⟩)
  | .array items =>
    exact (hex items (mem_singleton_self _)).bind fun inner hi =>
      (madeOf_method _ _).lacks hT (forall_mem_singleton.mpr hi)
  | .tuple items =>
    rw [expressed, valueAll_eq_mapM]
    exact (fares_mapM hv).bind fun exprs he =>
      ((madeOf_apply _).trans madeOf_array).lacks hT (forall_mem_of_forall₂ he)
  | .record key value =>
    refine (hnt key (.key .whole)).bind fun text _ =>
      (hv value (mem_cons_of_mem _ (mem_singleton_self _))).bind fun inner hi =>
        (madeOf_apply _).lacks hT (forall_mem_singleton.mpr ?_)
    rw [hT.inlineObject (forall_mem_singleton.mpr ⟨_, Or.inr rfl⟩)]
    simpa using hi
  | .enumeration values =>
    rw [expressed, enumerated]
    split
    · exact not_defined hT
    · split
      · exact ((madeOf_apply _).dropAll (madeOf_literals ‹_›)).lacks hT
          (forall_mem_nil _)
      · rename_i hc
        intro ht
        rw [Value.firstUnwritable?_of_isPlain ht.admissible] at hc
        cases hc
  | .literal value =>
    rw [expressed]
    split
    · exact ((madeOf_apply _).dropAll (madeOf_literal ‹_›)).lacks hT (forall_mem_nil _)
    · rename_i hc
      intro ht
      rw [Value.unwritable?_of_isPlain ht.admissible] at hc
      cases hc
  | .union members | .intersection members =>
    rw [expressed, expressAll_eq_mapM]
    first
      | exact (fares_mapM hex).bind fun _ he => not_unite hT (forall_mem_of_forall₂ he)
      | exact (fares_mapM hex).bind fun _ he =>
        not_intersect hT (forall_mem_of_forall₂ he)
  | .ref _ | .raw _ =>
    exact ho.1

theorem fares_express (ho : ¬ schema.Somewhere (Own T later)) :
    Fares (¬ schema.WellTyped) (¬ T later ·) (express schema) :=
  fares_definedOr hT (fares_notated? schema)
    fun hn => fares_expressed hT false schema (formatWord?_of_notated? hn) ho

end

end

theorem not_somewhere_own_uses (hr : schema.RawFree) {name : String} :
    ¬ schema.Somewhere (Own (Expr.Uses (Name.binding name)) true) := by
  rintro ⟨part, hp, ho⟩
  cases part with
  | ref name => simp [Own, reference] at ho
  | object fields undeclared spreads => simp [Own, reference] at ho
  | raw code => exact hr code hp
  | _ => exact ho

end Arktype

/-! ## Modules -/

/-- A well-typed schema has an expression in every library. -/
theorem Library.exists_express (library : Library) (scope : Scope) (h : schema.WellTyped) :
    ∃ expr, library.express scope schema = .ok expr := by
  have hdl {d : Dialect} (hd : d.Transparent) (hc : d.Complete) :
      ∃ expr, d.express scope false schema = .ok expr :=
    (Dialect.fares_express hd false schema).exists_eq_ok fun hi => hi hc h
  cases library with
  | zod => exact hdl Zod.transparent Zod.complete
  | valibot => exact hdl Valibot.transparent Valibot.complete
  | arktype =>
    exact (Arktype.fares_express (Expr.inherited_uses "")
      (Arktype.not_somewhere_own_uses h.rawFree)).exists_eq_ok (not_not_intro h)
  | effect => exact hdl Effect.transparent Effect.complete

/-- Entries with well-typed schemas can be declared. -/
theorem exists_declareAll (library : Library) (spreadable : List String)
    (h : ∀ entry ∈ entries, entry.schema.WellTyped) :
    ∀ declared, ∃ declarations,
      declareAll library spreadable declared entries = .ok declarations := by
  induction entries with
  | nil => exact fun declared => ⟨[], rfl⟩
  | cons entry rest ih =>
    intro declared
    obtain ⟨expr, he⟩ :=
      library.exists_express ⟨spreadable, declared⟩ (h entry (mem_cons_self ..))
    obtain ⟨others, ho⟩ :=
      ih (forall_mem_cons.mp h).2 (entry.name :: declared)
    rw [declareAll, he, ho]
    exact ⟨_, rfl⟩

/-- A pass over entries that are objects if they have one of the names. -/
theorem exists_spreadPass : ∀ {names : List String},
      (∀ entry ∈ entries, entry.name ∈ names → entry.schema.isObject) →
      ∃ next, spreadPass entries names = .ok next := by
  induction entries with
  | nil => exact fun _ => ⟨_, rfl⟩
  | cons entry rest ih =>
    intro names h
    have hr : ∀ other ∈ rest, other.name ∈ names → other.schema.isObject :=
      (forall_mem_cons.mp h).2
    rw [spreadPass]
    split
    · rename_i hn
      have ho := h entry (mem_cons_self ..) (by simpa using hn)
      split
      · split
        · exact ih hr
        · exact ih fun other hot hm => hr other hot (mem_of_mem_filter hm)
      · rename_i hnt
        cases hs : entry.schema with
        | object fields undeclared spreads =>
          exact absurd hs (hnt fields undeclared spreads)
        | _ =>
          rw [hs] at ho
          cases ho
    · exact ih hr

theorem exists_spreadFixpoint (fuel : Nat) : ∀ {names : List String},
      (∀ entry ∈ entries, entry.name ∈ names → entry.schema.isObject) →
      ∃ result, spreadFixpoint entries fuel names = .ok result := by
  induction fuel with
  | zero => exact fun _ => ⟨_, rfl⟩
  | succ fuel ih =>
    intro names h
    obtain ⟨next, hn⟩ := exists_spreadPass h
    have hs := sublist_of_spreadPass hn
    simp only [spreadFixpoint, hn]
    split
    · exact ⟨_, rfl⟩
    · exact ih fun entry he hnm => h entry he (hs.subset hnm)

theorem exists_spreadableNames (hd : (entries.map (·.name)).Nodup) :
    ∃ names, spreadableNames entries = .ok names := by
  refine exists_spreadFixpoint _ fun entry he hn => ?_
  obtain ⟨other, hot, ho, heq⟩ := (mem_objectNames entry.name).mp hn
  rwa [inj_on_of_nodup_map hd hot he heq] at ho

/-- The module of entries with distinct names and well-typed schemas can be written. -/
theorem exists_emitModule (library : Library) (hds : (entries.map (·.name)).Nodup)
    (h : ∀ entry ∈ entries, entry.schema.WellTyped) :
    ∃ generated, emitModule library entries = .ok generated := by
  obtain ⟨spreadable, hs⟩ := exists_spreadableNames hds
  obtain ⟨declarations, hd⟩ := exists_declareAll library spreadable h []
  simp only [emitModule, hs, bind, Except.bind, hd]
  exact ⟨_, rfl⟩

end ApiSchema
