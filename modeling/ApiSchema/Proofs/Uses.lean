/-
# Names that expressions use

An expression uses a name at once, or later if the name stands in the body of a function. What the
expression of a schema uses can be read off the schema: a reference uses the binding of its entry,
at once if this is declared and later if it is not, and an object uses at once the bindings of the
entries that it spreads. The libraries that can defer a reference differ in how they write the kinds
of schemas, but all of them write a kind with the names that its parts use and no others.
-/
import Mathlib.Data.List.Forall2
import ApiSchema.Proofs.Ensures
import ApiSchema.Proofs.WellTyped
import ApiSchema.Validator.Effect
import ApiSchema.Validator.Valibot
import ApiSchema.Validator.Zod

namespace ApiSchema

open List

variable {items parts exprs : List Expr} {spreads : List String} {other word name : String}
  {fields : List (String × Expr)} {expr part : Expr} {schema : Schema} {members : List Schema}
  {T : Bool → Expr → Prop} {later : Bool}

namespace TypeScript.Expr

/-! ## Uses -/

/-- The expression uses the name, at once or, if the flag is set, later. Code that is taken over as
it stands can use any name. -/
@[mk_iff]
inductive Uses (path : String) : Bool → Expr → Prop
  | name : Uses path false (.name path)
  | receiver {later : Bool} {receiver : Expr} {field : String} (h : Uses path later receiver) :
      Uses path later (.member receiver field)
  | callee {later : Bool} {callee : Expr} {arguments : List Expr} (h : Uses path later callee) :
      Uses path later (.call callee arguments)
  | argument {later : Bool} {callee argument : Expr} {arguments : List Expr}
      (hmem : argument ∈ arguments) (h : Uses path later argument) :
      Uses path later (.call callee arguments)
  | item {later : Bool} {item : Expr} {items : List Expr} (hmem : item ∈ items)
      (h : Uses path later item) : Uses path later (.array items)
  | body {later : Bool} {body : Expr} (h : Uses path later body) : Uses path true (.thunk body)
  | inlineField {later : Bool} {field : String × Expr} {fields : List (String × Expr)}
      (hmem : field ∈ fields) (h : Uses path later field.2) : Uses path later (.inlineObject fields)
  | spread {later : Bool} {spread : Expr} {spreads : List Expr} {fields : List (String × Expr)}
      (hmem : spread ∈ spreads) (h : Uses path later spread) :
      Uses path later (.block spreads fields)
  | blockField {later : Bool} {spreads : List Expr} {field : String × Expr}
      {fields : List (String × Expr)} (hmem : field ∈ fields) (h : Uses path later field.2) :
      Uses path later (.block spreads fields)
  | verbatim {later : Bool} {code : String} : Uses path later (.verbatim code)

section

variable {path : String} {later : Bool}

/-- A name uses itself, and at once. -/
@[simp] theorem uses_name_iff : Uses path later (.name other) ↔ later = false ∧ other = path := by
  rw [uses_iff]
  simp

@[simp] theorem not_uses_text {value : String} : ¬ Uses path later (.text value) := nofun

@[simp] theorem not_uses_literal {value : Value} : ¬ Uses path later (.literal value) := nofun

@[simp] theorem not_uses_regex {pattern : String} : ¬ Uses path later (.regex pattern) := nofun

@[simp] theorem uses_member_iff {receiver : Expr} {field : String} :
    Uses path later (.member receiver field) ↔ Uses path later receiver := by
  rw [uses_iff]
  simp

/-- A call uses what its callee and its arguments use. -/
@[simp] theorem uses_call_iff {callee : Expr} {arguments : List Expr} :
    Uses path later (.call callee arguments) ↔
      Uses path later callee ∨ ∃ argument ∈ arguments, Uses path later argument := by
  rw [uses_iff]
  simp

@[simp] theorem uses_array_iff :
    Uses path later (.array items) ↔ ∃ item ∈ items, Uses path later item := by
  rw [uses_iff]
  simp

/-- What a function uses is used later. -/
@[simp] theorem uses_thunk_iff {body : Expr} :
    Uses path later (.thunk body) ↔ later ∧ ∃ flag, Uses path flag body := by
  rw [uses_iff]
  simp [and_comm]

@[simp] theorem uses_inlineObject_iff :
    Uses path later (.inlineObject fields) ↔ ∃ field ∈ fields, Uses path later field.2 := by
  rw [uses_iff]
  simp

@[simp] theorem uses_block_iff {spreads : List Expr} : Uses path later (.block spreads fields) ↔
    (∃ spread ∈ spreads, Uses path later spread) ∨ ∃ field ∈ fields, Uses path later field.2 := by
  rw [uses_iff]
  simp

end

/-! ## Bindings and words -/

/-- Whether a name consists of identifiers, with points between them. -/
def isPath (name : String) : Bool := name.toList.all fun c => Name.isIdentifierPart c || c = '.'

/-- Whether a name is a path that does not end like a binding. -/
def isWord (name : String) : Bool := isPath name && !"Schema".toList.isSuffixOf name.toList

/-- The text is a key of an object literal. -/
def IsKey (key : String) : Prop := ∃ name, key = Name.propertyKey name ∨ key = Text.quote name

theorem isKey_of_isIdentifier (h : Name.isIdentifier name) : IsKey name :=
  ⟨name, Or.inl (if_pos h).symm⟩

/-- No binding is a word. -/
theorem binding_ne_of_isWord (h : isWord word) : Name.binding name ≠ word := by
  rintro rfl
  have hs : "Schema".toList.isSuffixOf (Name.binding name).toList := by
    rw [Name.binding, String.toList_append, isSuffixOf_iff_suffix]
    exact suffix_append ..
  rw [isWord, hs, Bool.not_true, Bool.and_false] at h
  cases h

/-- A property of expressions, at once or later, that words, keys and literals do not have and that
other expressions have by way of their parts. Nothing is said of functions, of the entries that a
block spreads, and of code that is taken over as it stands. -/
structure Inherited (T : Bool → Expr → Prop) : Prop where
  word : ∀ {later word}, isWord word = true → ¬ T later (.name word)
  text : ∀ {later value}, ¬ T later (.text value)
  literal : ∀ {later value}, value.unwritable? = none → ¬ T later (.literal value)
  regex : ∀ {later pattern} {format : Format}, format.pattern? = some pattern →
    ¬ T later (.regex pattern)
  member : ∀ {later receiver field}, isPath field = true →
    (T later (.member receiver field) ↔ T later receiver)
  call : ∀ {later callee arguments}, T later (.call callee arguments) ↔
    T later callee ∨ ∃ argument ∈ arguments, T later argument
  array : ∀ {later items}, T later (.array items) ↔ ∃ item ∈ items, T later item
  inlineObject : ∀ {later fields}, (∀ field ∈ fields, IsKey field.1) →
    (T later (.inlineObject fields) ↔ ∃ field ∈ fields, T later field.2)
  block : ∀ {later spreads fields}, (∀ field ∈ fields, IsKey field.1) →
    (T later (.block spreads fields) ↔
      T later (.block spreads []) ∨ ∃ field ∈ fields, T later field.2)

/-- The use of a binding is inherited. -/
theorem inherited_uses (name : String) : Inherited (Uses (Name.binding name)) where
  word h := by
    rw [uses_name_iff]
    exact fun hu => binding_ne_of_isWord h hu.2.symm
  text := not_uses_text
  literal _ := not_uses_literal
  regex _ := not_uses_regex
  member _ := uses_member_iff
  call := uses_call_iff
  array := uses_array_iff
  inlineObject _ := uses_inlineObject_iff
  block _ := by simp

/-- The expression inherits from the parts, and from nothing else. -/
def MadeOf (expr : Expr) (parts : List Expr) : Prop :=
  ∀ T, Inherited T → ∀ later, T later expr ↔ ∃ part ∈ parts, T later part

/-- A word of a library is made of nothing. -/
theorem madeOf_word (h : isWord word := by decide) : MadeOf (.name word) [] := by
  intro T hT later
  simp [hT.word h]

/-- A call of a word is made of its arguments. -/
theorem madeOf_apply (arguments : List Expr) (h : isWord word := by decide) :
    MadeOf (.apply word arguments) arguments := by
  intro T hT later
  rw [apply, hT.call, or_iff_right (hT.word h)]

/-- A call of a method is made of its receiver and its arguments. -/
theorem madeOf_method {field : String} (receiver : Expr) (arguments : List Expr)
    (h : isPath field := by decide) :
    MadeOf (receiver.method field arguments) (receiver :: arguments) := by
  intro T hT later
  simp only [method, hT.call, hT.member h, mem_cons, exists_eq_or_imp]

theorem madeOf_array : MadeOf (.array items) items :=
  fun _ hT _ => hT.array

/-- What no part inherits is not inherited. -/
theorem MadeOf.lacks (h : MadeOf expr parts)
    (hT : Inherited T) (hp : ∀ part ∈ parts, ¬ T later part) : ¬ T later expr := by
  rw [h T hT later]
  rintro ⟨part, hpr, hh⟩
  exact hp part hpr hh

theorem MadeOf.trans (h : MadeOf expr [part]) (h' : MadeOf part parts) : MadeOf expr parts := by
  intro T hT later
  rw [h T hT later, ← h' T hT later]
  simp only [mem_singleton, exists_eq_left]

/-- A part is replaced by its own parts. -/
theorem MadeOf.replace {others : List Expr}
    (h : MadeOf expr (part :: others)) (h' : MadeOf part parts) :
    MadeOf expr (parts ++ others) := by
  intro T hT later
  simp only [h T hT later, mem_cons, exists_eq_or_imp, h' T hT later]
  simp only [mem_append, or_and_right, exists_or]

theorem MadeOf.congr {parts' : List Expr} (h : MadeOf expr parts)
    (hp : ∀ part, part ∈ parts ↔ part ∈ parts') : MadeOf expr parts' := by
  intro T hT later
  simp only [h T hT later, hp]

theorem MadeOf.swap {first second : Expr} (h : MadeOf expr [first, second]) :
    MadeOf expr [second, first] :=
  h.congr fun part => by
    simp only [mem_cons, not_mem_nil, or_false]
    exact or_comm

/-- A part that is made of nothing is left out. -/
theorem MadeOf.drop (h : MadeOf expr (part :: parts)) (h' : MadeOf part []) : MadeOf expr parts :=
  h.replace h'

/-- What is joined step by step is made of all that is joined. -/
theorem madeOf_foldl {join : Expr → Expr → Expr}
    (h : ∀ expr other, MadeOf (join expr other) [expr, other]) (first : Expr)
    (others : List Expr) : MadeOf (others.foldl join first) (first :: others) := by
  induction others generalizing first with
  | nil =>
    intro T hT later
    simp only [foldl_nil, mem_singleton, exists_eq_left]
  | cons other rest ih => exact (ih (join first other)).replace (h first other)

theorem madeOf_self : MadeOf expr [expr] := by
  intro T hT later
  simp only [mem_singleton, exists_eq_left]

theorem MadeOf.dropAll (h : MadeOf expr parts) (hp : ∀ part ∈ parts, MadeOf part []) :
    MadeOf expr [] := by
  intro T hT later
  rw [h T hT later]
  refine iff_of_false ?_ (by simp)
  rintro ⟨part, hpr, hh⟩
  exact (hp part hpr).lacks hT (forall_mem_nil _) hh

theorem madeOf_text {value : String} : MadeOf (.text value) [] := by
  intro T hT later
  simp [hT.text]

theorem madeOf_literal {value : Value} (h : value.unwritable? = none) :
    ∀ part ∈ [literal value], MadeOf part [] := by
  refine forall_mem_singleton.mpr fun T hT later => ?_
  simp [hT.literal h]

/-- Values that can be written are made of nothing. -/
theorem madeOf_literals {values : List Value} (h : Value.firstUnwritable? values = none) :
    ∀ part ∈ values.map literal, MadeOf part [] := by
  intro part hp
  obtain ⟨value, hv, rfl⟩ := mem_map.mp hp
  exact madeOf_literal (Value.firstUnwritable?_eq_none_iff.mp h value hv) _
    (mem_singleton_self _)

end TypeScript.Expr

/-! ## Dialects -/

section

open TypeScript Expr

/-- Every form of the dialect inherits from its parts, and from nothing else; a deferred reference
is the body of a function. -/
structure Dialect.Transparent (d : Dialect) : Prop where
  text : d.text.MadeOf []
  format : ∀ format expr, d.format format = some expr → expr.MadeOf []
  number : ∀ integer, (d.number integer).MadeOf []
  keyword : ∀ word, (d.keyword word).MadeOf []
  array : ∀ items, (d.array items).MadeOf [items]
  tuple : ∀ items, (d.tuple items).MadeOf items
  record : ∀ key value, (d.record key value).MadeOf [key, value]
  enumeration : ∀ values, Value.firstUnwritable? values = none → (d.enumeration values).MadeOf []
  literal : ∀ value, value.unwritable? = none → (d.literal value).MadeOf []
  widened : ∀ modifier inner, (d.widened modifier inner).MadeOf [inner]
  union : ∀ members, (d.union members).MadeOf members
  intersection : ∀ first others, (d.intersection first others).MadeOf (first :: others)
  deferred : ∀ target, (d.deferred target).MadeOf [.thunk target]
  missing : ∀ value, (d.missing value).MadeOf [value]
  fields : isPath d.fields = true
  object : ∀ body undeclared, (d.object body undeclared).MadeOf (body :: undeclared.schemas)
  merged : ∀ others body, (d.merged others body).MadeOf (others ++ [body])

theorem Zod.madeOf_literal {value : Value} (h : value.unwritable? = none) :
    (Zod.literal value).MadeOf [] :=
  (madeOf_apply _).dropAll (TypeScript.Expr.madeOf_literal h)

/-- Zod writes schemas as calls on the expressions of their parts. -/
theorem Zod.transparent : Zod.dialect.Transparent where
  text := madeOf_apply []
  format := by
    intro format expr h
    cases format <;> cases h <;> exact madeOf_apply []
  number := by
    rintro (_ | _)
    · exact madeOf_apply []
    · exact (madeOf_method _ _).trans (madeOf_apply [])
  keyword := by
    intro word
    cases word <;> exact madeOf_apply []
  array items := madeOf_apply [items]
  tuple items := (madeOf_apply _).trans madeOf_array
  record key value := madeOf_apply [key, value]
  enumeration values h := by
    change (Zod.enumeration values).MadeOf []
    unfold Zod.enumeration
    split
    · exact (madeOf_apply _).trans (madeOf_array.dropAll (madeOf_literals h))
    · split
      · exact (madeOf_apply _).dropAll (madeOf_literals h)
      · refine (madeOf_apply _).trans (madeOf_array.dropAll fun part hp => ?_)
        obtain ⟨value, hv, rfl⟩ := mem_map.mp hp
        exact Zod.madeOf_literal (Value.firstUnwritable?_eq_none_iff.mp h value hv)
  literal _ := Zod.madeOf_literal
  widened modifier inner := madeOf_method inner [] (by cases modifier <;> decide)
  union members := (madeOf_apply _).trans madeOf_array
  intersection := madeOf_foldl fun expr other => madeOf_method expr [other]
  deferred target := madeOf_apply [.thunk target]
  missing value := madeOf_method value []
  fields := by decide
  object body undeclared := by
    have ho := @madeOf_apply "z.object" [body] (by decide)
    cases undeclared with
    | dropped => exact ho
    | marked mark =>
      have hw : isWord (if (Undeclared.marked mark : Undeclared Expr).isKept then
          "z.looseObject" else "z.object") := by
        split <;> decide
      exact madeOf_apply [body] hw
    | checked rest => exact (madeOf_method _ [rest]).replace ho
  merged others body := by
    have hj : ∀ expr other : Expr, (other.method "and" [expr]).MadeOf [expr, other] :=
      fun expr other => (madeOf_method other [expr]).swap
    exact (madeOf_foldl hj body others).congr (by simp [or_comm])

/-- Valibot writes schemas as calls on the expressions of their parts. -/
theorem Valibot.transparent : Valibot.dialect.Transparent where
  text := madeOf_apply []
  format := by
    intro format expr h
    have hp : ∀ word, isWord ("v." ++ word) → (Valibot.plain word).MadeOf [] :=
      fun word hw => madeOf_apply [] hw
    have hpp := fun parts => @madeOf_apply "v.pipe" parts (by decide)
    cases format <;> cases h <;>
      exact (((hpp _).drop (hp "string" (by decide))).drop (hp _ (by decide)))
  number := by
    rintro (_ | _)
    · exact madeOf_apply []
    · exact ((madeOf_apply _).drop (madeOf_apply [])).drop
        (madeOf_apply [])
  keyword := by
    intro word
    cases word <;> exact madeOf_apply []
  array items := madeOf_apply [items]
  tuple items := (madeOf_apply _).trans madeOf_array
  record key value := madeOf_apply [key, value]
  enumeration values h :=
    (madeOf_apply _).trans (madeOf_array.dropAll (madeOf_literals h))
  literal value h := (madeOf_apply _).dropAll (madeOf_literal h)
  widened modifier inner := by
    cases modifier <;> exact madeOf_apply [inner]
  union members := (madeOf_apply _).trans madeOf_array
  intersection first others := by
    change (Valibot.intersection first others).MadeOf (first :: others)
    rw [Valibot.intersection]
    split
    · rename_i he
      rw [isEmpty_iff.mp he]
      exact madeOf_self
    · exact (madeOf_apply _).trans madeOf_array
  deferred target := madeOf_apply [.thunk target]
  missing value := madeOf_apply [value]
  fields := by decide
  object body undeclared := by
    cases undeclared with
    | dropped => exact madeOf_apply [body]
    | marked mark =>
      have hw : isWord (if (Undeclared.marked mark : Undeclared Expr).isKept then
          "v.looseObject" else "v.object") := by
        split <;> decide
      exact madeOf_apply [body] hw
    | checked rest => exact madeOf_apply [body, rest]
  merged others body := by
    change (if others.isEmpty then body else _).MadeOf (others ++ [body])
    split
    · rename_i he
      rw [isEmpty_iff.mp he]
      exact madeOf_self
    · exact (madeOf_apply _).trans madeOf_array

theorem Effect.madeOf_record (key value : Expr) :
    (Effect.record key value).MadeOf [key, value] := by
  have hk : ∀ field ∈ [("key", key), ("value", value)], IsKey field.1 :=
    forall_mem_cons.mpr ⟨@isKey_of_isIdentifier "key" rfl,
      forall_mem_singleton.mpr (@isKey_of_isIdentifier "value" rfl)⟩
  refine (madeOf_apply _).trans ?_
  intro T hT later
  simp [hT.inlineObject hk]

/-- Effect writes schemas as members of `Schema` and calls on the expressions of their parts. -/
theorem Effect.transparent : Effect.dialect.Transparent where
  text := madeOf_word
  format := by
    intro format expr h
    have hp : ∀ {pattern}, format.pattern? = some pattern →
        ((Effect.plain "String").method "pipe"
          [.apply "Schema.pattern" [.regex pattern]]).MadeOf [] := by
      intro pattern hp
      refine ((madeOf_method _ _).drop madeOf_word).trans ?_
      intro T hT later
      rw [madeOf_apply _ (by decide) T hT later]
      simp [hT.regex hp]
    cases format <;> cases h <;> first | exact madeOf_word | exact hp rfl
  number := by
    rintro (_ | _)
    · exact madeOf_word
    · exact ((madeOf_method _ _).drop madeOf_word).trans
        (madeOf_apply [])
  keyword := by
    intro word
    cases word <;> exact madeOf_word
  array items := madeOf_apply [items]
  tuple items := madeOf_apply items
  record key value := Effect.madeOf_record key value
  enumeration values h := (madeOf_apply _).dropAll (madeOf_literals h)
  literal value h := (madeOf_apply _).dropAll (madeOf_literal h)
  widened modifier inner := by
    cases modifier <;> exact madeOf_apply [inner]
  union members := madeOf_apply members
  intersection := madeOf_foldl fun expr other => madeOf_apply [expr, other]
  deferred target := madeOf_apply [.thunk target]
  missing value := (madeOf_apply _).trans (madeOf_apply [value])
  fields := by decide
  object body undeclared := by
    have hs := @madeOf_apply "Schema.Struct" [body] (by decide)
    cases undeclared with
    | dropped => exact hs
    | marked mark =>
      change (if (Undeclared.marked mark : Undeclared Expr).isKept then
        (Expr.apply "Schema.Struct" [body]).method "annotations" [Effect.keepUndeclared]
        else Expr.apply "Schema.Struct" [body]).MadeOf [body]
      split
      · have ho : Effect.keepUndeclared.MadeOf [] := by
          intro T hT later
          have hk : ∀ key, Name.isIdentifier key → ∀ value,
              (T later (.inlineObject [(key, value)]) ↔ T later value) := by
            intro key hk value
            rw [hT.inlineObject (forall_mem_singleton.mpr (isKey_of_isIdentifier hk))]
            simp
          rw [Effect.keepUndeclared, hk _ (by decide), hk _ (by decide)]
          simp [hT.text]
        have hm := (@madeOf_method "annotations" _ [Effect.keepUndeclared] (by decide)).replace hs
        exact hm.swap.drop ho
      · exact hs
    | checked rest =>
      have hr := (Effect.madeOf_record (Effect.plain "String") rest).drop
        madeOf_word
      have hb := (@madeOf_apply "Schema.Struct"
        [body, Effect.record (Effect.plain "String") rest] (by decide)).swap
      exact (hb.replace hr).swap
  merged others body := by
    have hj : ∀ expr other : Expr,
        (Expr.apply "Schema.extend" [other, expr]).MadeOf [expr, other] :=
      fun expr other => (madeOf_apply [other, expr]).swap
    exact (madeOf_foldl hj body others).congr (by simp [or_comm])

end

open TypeScript

/-! ## What schemas use -/

namespace Schema

/-- Some part of the schema has the property. -/
def Somewhere (P : Schema → Prop) (schema : Schema) : Prop := ∃ part, Part part schema ∧ P part

/-- Something holds somewhere if it holds here or inside of a child. -/
theorem somewhere_iff {P : Schema → Prop} :
    schema.Somewhere P ↔ P schema ∨ ∃ child ∈ schema.children, child.Somewhere P := by
  simp only [Somewhere, @part_iff _ schema, or_and_right, exists_or, exists_eq_left]
  refine or_congr_right ⟨?_, ?_⟩
  · rintro ⟨part, ⟨child, hc, hp⟩, h⟩
    exact ⟨child, hc, part, hp, h⟩
  · rintro ⟨child, hc, part, hp, h⟩
    exact ⟨part, ⟨child, hc, hp⟩, h⟩

/-- What a schema uses apart from its parts, when some entries are declared: a reference uses the
binding of its entry, later if this is not declared, and an object uses at once the bindings of the
entries that it spreads. -/
def UsesItself (declared : List String) (path : String) (later : Bool) : Schema → Prop
  | .ref name => Name.binding name = path ∧ (later = true ↔ name ∉ declared)
  | .object _ _ spreads => later = false ∧ ∃ name ∈ spreads, Name.binding name = path
  | _ => False

/-- The schema uses the binding, itself or in one of its parts. -/
def Yields (declared : List String) (path : String) (later : Bool) (schema : Schema) : Prop :=
  schema.Somewhere (UsesItself declared path later)

end Schema

/-! ## Expressions of schemas -/

namespace Dialect

variable {scope : Scope} {d : Dialect}

/-- What the expression of a schema has apart from the expressions of its children: a reference, the
entries that an object spreads, or code that is taken over as it stands. -/
def Own (d : Dialect) (scope : Scope) (T : Bool → Expr → Prop) (later : Bool) : Schema → Prop
  | .ref name => T later (d.reference scope name)
  | .object _ _ spreads => T later (d.assemble scope spreads [] .dropped)
  | .raw code => T later (.verbatim code)
  | _ => False

/-- What is inherited, the expression has from the parts of the schema. -/
def Composes (d : Dialect) (scope : Scope) (schema : Schema) (expr : Expr) : Prop :=
  ∀ T, Expr.Inherited T → ∀ later, T later expr ↔ schema.Somewhere (d.Own scope T later)

/-- One of several expressions has what is inherited exactly if one of the schemas does. -/
theorem exists_mem_iff_of_composes {schemas : List Schema}
    (h : List.Forall₂ (d.Composes scope) schemas exprs)
    (hT : Expr.Inherited T) :
    (∃ expr ∈ exprs, T later expr) ↔
      ∃ schema ∈ schemas, schema.Somewhere (d.Own scope T later) := by
  induction h with
  | nil => simp
  | cons hc _ ih => simp only [mem_cons, exists_eq_or_imp, ih, hc T hT later]

/-- An expression that is made of those of the children, and of what the schema itself adds. -/
theorem Composes.of_children
    (own : List Expr) (h : expr.MadeOf (own ++ exprs))
    (ho : ∀ T later, d.Own scope T later schema ↔ ∃ expr ∈ own, T later expr)
    (hc : List.Forall₂ (d.Composes scope) schema.children exprs) :
    d.Composes scope schema expr := by
  intro T hT later
  rw [h T hT later, Schema.somewhere_iff, ho T later, ← exists_mem_iff_of_composes hc hT]
  simp only [mem_append, or_and_right, exists_or]

/-- A schema that adds nothing to its children. -/
theorem Composes.of_madeOf
    (ho : ∀ T later, ¬ d.Own scope T later schema) (h : expr.MadeOf exprs)
    (hc : List.Forall₂ (d.Composes scope) schema.children exprs) :
    d.Composes scope schema expr :=
  .of_children [] h (fun T later => by simp [ho T later]) hc

theorem exists_concrete_of_modifier? {modifier : Modifier}
    (h : Schema.modifier? members = some modifier) :
    ∃ member, members.filter Schema.isConcrete = [member] := by
  rw [Schema.modifier?] at h
  split at h <;> first | exact ⟨_, (Prod.mk.inj ‹_›).1⟩ | cases h

/-- The result for the only concrete member of a union. -/
theorem concreteResult?_of_filter {member : Schema}
    {inner : Expr} {P : Schema → Expr → Prop} (h : List.Forall₂ P members exprs)
    (hm : members.filter Schema.isConcrete = [member])
    (hi : Schema.concreteResult? members exprs = some inner) : P member inner := by
  induction h with
  | nil => cases hm
  | @cons first expr rest others hf _ ih =>
    rw [Schema.concreteResult?, zip_cons_cons, find?_cons] at hi
    by_cases hc : first.isConcrete
    · rw [filter_cons_of_pos hc] at hm
      simp only [hc, Option.map_some, Option.some.injEq] at hi
      obtain rfl := (List.cons.inj hm).1
      exact hi ▸ hf
    · rw [filter_cons_of_neg hc] at hm
      simp only [hc] at hi
      exact ih hm hi

/-- A union adds nothing to its members. -/
theorem composes_unite (hd : d.Transparent) {bare : Bool}
    (h : List.Forall₂ (d.Composes scope) members exprs) :
    d.Composes scope (.union members) (d.unite bare members exprs) := by
  unfold unite
  split
  · rename_i modifier inner hmd hi
    -- The other members are null or the undefined value, and their expressions are not used.
    obtain ⟨member, hm⟩ := exists_concrete_of_modifier? hmd
    have hc := concreteResult?_of_filter h hm hi
    intro T hT later
    have hon : (Schema.union members).Somewhere (d.Own scope T later) ↔
        member.Somewhere (d.Own scope T later) := by
      rw [Schema.somewhere_iff]
      constructor
      · rintro (ho | ⟨other, hot, hs⟩)
        · exact ho.elim
        · have hcn : other.isConcrete := by
            by_contra hnt
            cases other with
            | keyword word =>
              obtain ho | ⟨_, hn, -⟩ := Schema.somewhere_iff.mp hs
              · exact ho
              · cases hn
            | _ => exact hnt rfl
          have hf : other ∈ members.filter Schema.isConcrete :=
            mem_filter.mpr ⟨hot, hcn⟩
          rw [hm, mem_singleton] at hf
          exact hf ▸ hs
      · exact fun hs => Or.inr
          ⟨member, mem_of_mem_filter (hm ▸ mem_singleton_self member), hs⟩
    rw [hon, ← hc T hT later]
    cases bare with
    | true => rfl
    | false =>
      rw [if_neg (by simp), hd.widened modifier inner T hT later]
      simp
  · refine .of_madeOf (fun _ _ h => h) ?_ h
    split
    · exact hd.keyword .never
    · exact Expr.madeOf_self
    · exact hd.union exprs

/-- An object is made of the entries that it spreads and of the expressions of its fields. -/
theorem madeOf_assemble (hd : d.Transparent) {undeclared : Undeclared Expr}
    (hk : ∀ field ∈ fields, Expr.IsKey field.1) :
    (d.assemble scope spreads fields undeclared).MadeOf
      ([d.assemble scope spreads [] .dropped] ++ (fields.map (·.2) ++ undeclared.schemas)) := by
  intro T hT later
  have hb : ∀ plain, T later (.block plain fields) ↔ _ := fun _ => hT.block hk
  simp only [mem_append, or_and_right, exists_or, exists_eq_left, assemble,
    hd.merged _ _ T hT later, hd.object _ _ T hT later, mem_cons, hb, Undeclared.schemas,
    not_mem_nil, or_false, mem_map, exists_exists_and_eq_and, or_assoc]

/-- The key and the expression of a field. -/
def expressField (d : Dialect) (scope : Scope) : Field Schema → Except EmitError (String × Expr)
  | ⟨.text key, schema, required⟩ => do
    let expr ← d.express scope (!required) schema
    return (Name.propertyKey key, if required then expr else d.missing expr)
  | _ => .error .keyNotText

theorem expressAll_eq_mapM (d : Dialect) (scope : Scope) (schemas : List Schema) :
    d.expressAll scope schemas = schemas.mapM (d.express scope false) := by
  induction schemas with
  | nil => rw [expressAll, mapM_nil]; rfl
  | cons schema rest ih => rw [expressAll, mapM_cons, ih]

theorem expressFields_eq_mapM (scope : Scope) (fields : List (Field Schema)) :
    d.expressFields scope fields = fields.mapM (d.expressField scope) := by
  induction fields with
  | nil => rw [expressFields, mapM_nil]; rfl
  | cons field rest ih =>
    obtain ⟨key, schema, required⟩ := field
    cases key with
    | text key => simp only [expressFields, mapM_cons, ih, expressField, bind_assoc, pure_bind]
    | _ => rw [mapM_cons]; rfl

/-- The dialect has a form for every format with a meaning. -/
def Complete (d : Dialect) : Prop :=
  ∀ format : Format, format.isKnown = true → ∃ expr, d.format format = some expr

/-- The expression of a schema has what is inherited from the parts of the schema. A well-typed
schema has an expression. -/
theorem fares_express (hd : d.Transparent) (bare : Bool) (schema : Schema) :
    Fares (d.Complete → ¬ schema.WellTyped) (d.Composes scope schema)
      (d.express scope bare schema) := by
  induction schema using Schema.induction_children generalizing bare with
  | _ schema ih =>
  have hch : ∀ child ∈ schema.children, ∀ bare, Fares (d.Complete → ¬ schema.WellTyped)
      (d.Composes scope child) (d.express scope bare child) := fun child hm bare =>
    (ih child hm bare).imp (fun hil hc ht => hil hc
      (ht.of_part (Schema.part_of_mem_children hm))) fun _ hcm => hcm
  have ha : Fares (d.Complete → ¬ schema.WellTyped)
      (List.Forall₂ (d.Composes scope) schema.children) (d.expressAll scope schema.children) := by
    rw [expressAll_eq_mapM]
    exact fares_mapM fun child hm => hch child hm false
  match schema with
  | .string none =>
    exact Composes.of_madeOf (fun _ _ h => h) hd.text .nil
  | .string (some format) =>
    rw [express, string]
    split
    · rename_i hfn
      exact Composes.of_madeOf (fun _ _ h => h) (hd.format format _ hfn) .nil
    · rename_i hn
      intro hc ht
      obtain ⟨expr, he⟩ := hc format ht.admissible
      cases hn.symm.trans he
  | .number integer =>
    exact Composes.of_madeOf (fun _ _ h => h) (hd.number integer) .nil
  | .keyword word =>
    exact Composes.of_madeOf (fun _ _ h => h) (hd.keyword word) .nil
  | .object fields undeclared spreads =>
    have hf : ∀ field ∈ fields, Fares
        (d.Complete → ¬ (Schema.object fields undeclared spreads).WellTyped)
        (fun pair => Expr.IsKey pair.1 ∧ d.Composes scope field.schema pair.2)
        (d.expressField scope field) := by
      intro field hf
      have hv := hch field.schema (mem_append_left _ (mem_map_of_mem hf))
        (!field.required)
      have hk (_ : d.Complete) (ht : (Schema.object fields undeclared spreads).WellTyped) :=
        ht.admissible field hf
      obtain ⟨key, schema, required⟩ := field
      cases key with
      | text key =>
        refine hv.bind fun expr he => ⟨⟨key, Or.inl rfl⟩, ?_⟩
        cases required with
        | true => exact he
        | false =>
          intro T hT later
          rw [← he T hT later]
          exact (hd.missing expr T hT later).trans (by simp)
      | _ => exact fun hc ht => by simpa using hk hc ht
    have hu : Fares (d.Complete → ¬ (Schema.object fields undeclared spreads).WellTyped)
        (fun others => List.Forall₂ (d.Composes scope) undeclared.schemas others.schemas)
        (d.expressUndeclared scope undeclared) := by
      cases undeclared with
      | checked inner =>
        exact (hch inner (mem_append_right _ (mem_singleton_self _)) false).bind
          fun _ hi => .cons hi .nil
      | _ =>
        exact Forall₂.nil
    rw [express, expressFields_eq_mapM]
    refine (fares_mapM hf).bind fun pairs hpr => hu.bind fun others ho => ?_
    refine Composes.of_children _ (madeOf_assemble hd fun pair hp => ?_) (by simp [Own])
      (rel_append ?_ ho)
    · obtain ⟨field, -, hk, -⟩ := exists_mem_of_forall₂ hpr.flip hp
      exact hk
    · rw [forall₂_map_left_iff, forall₂_map_right_iff]
      exact hpr.imp fun _ _ hp => hp.2
  | .array items =>
    exact (hch items (mem_singleton_self _) false).bind fun inner hi =>
      Composes.of_madeOf (fun _ _ h => h) (hd.array inner) (.cons hi .nil)
  | .tuple items =>
    exact ha.bind fun exprs => Composes.of_madeOf (fun _ _ h => h) (hd.tuple exprs)
  | .record key value =>
    exact (hch key (mem_cons_self ..) false).bind fun keyExpr hk =>
      (hch value (mem_cons_of_mem _ (mem_singleton_self _)) false).bind fun valueExpr hv =>
        Composes.of_madeOf (fun _ _ h => h) (hd.record keyExpr valueExpr)
          (.cons hk (.cons hv .nil))
  | .enumeration values =>
    rw [express, enumerated]
    split
    · exact Composes.of_madeOf (fun _ _ h => h) (hd.keyword .never) .nil
    · split
      · exact Composes.of_madeOf (fun _ _ h => h) (hd.enumeration values ‹_›) .nil
      · rename_i hcs
        intro _ ht
        rw [Value.firstUnwritable?_of_isPlain ht.admissible] at hcs
        cases hcs
  | .literal value =>
    rw [express]
    split
    · exact Composes.of_madeOf (fun _ _ h => h) (hd.literal value ‹_›) .nil
    · rename_i hcs
      intro _ ht
      rw [Value.unwritable?_of_isPlain ht.admissible] at hcs
      cases hcs
  | .union members =>
    exact ha.bind fun exprs => composes_unite hd
  | .intersection members =>
    refine ha.bind fun exprs => Composes.of_madeOf (fun _ _ h => h) ?_
    cases exprs with
    | nil => exact hd.keyword .unknown
    | cons first rest => exact hd.intersection first rest
  | .ref _ | .raw _ =>
    exact Composes.of_children [_] Expr.madeOf_self (by simp [Own]) .nil
  | .unsupported _ =>
    exact Composes.of_madeOf (fun _ _ h => h) (hd.keyword .unknown) .nil

/-- The expression of a schema is composed of those of its parts. -/
theorem composes_express (hd : d.Transparent) (bare : Bool) (schema : Schema)
    (h : d.express scope bare schema = .ok expr) : d.Composes scope schema expr :=
  (fares_express hd bare schema).of_eq_ok h

/-- The expression uses the bindings that the schema uses. -/
def Writes (scope : Scope) (schema : Schema) (expr : Expr) : Prop :=
  ∀ name later, Expr.Uses (Name.binding name) later expr ↔
    schema.Yields scope.declared (Name.binding name) later

/-- A reference uses its binding, later if this is not declared. -/
theorem uses_reference_iff (hd : d.Transparent) :
    Expr.Uses (Name.binding name) later (d.reference scope other) ↔
      Name.binding other = Name.binding name ∧ (later ↔ other ∉ scope.declared) := by
  rw [reference, Scope.isForward]
  by_cases ho : other ∈ scope.declared
  · simp [ho, and_comm]
  · have hc : scope.declared.contains other = false := by simpa using ho
    simp only [hc, Bool.not_false, if_true, hd.deferred _ _ (Expr.inherited_uses name) later]
    simp [ho, and_comm]

/-- The bindings of spread entries are used at once, in the block or around it. -/
theorem uses_assemble_iff (hd : d.Transparent) :
    Expr.Uses (Name.binding name) later (d.assemble scope spreads [] .dropped) ↔
      later = false ∧ ∃ spread ∈ spreads, Name.binding spread = Name.binding name := by
  have hT := Expr.inherited_uses name
  rw [assemble, hd.merged _ _ _ hT later]
  simp only [mem_append, or_and_right, exists_or, mem_map, mem_filter,
    exists_exists_and_eq_and, Expr.uses_name_iff, exists_eq_left, hd.object _ _ _ hT later,
    mem_cons, Undeclared.schemas, Expr.uses_block_iff, Expr.uses_member_iff, not_mem_nil,
    false_and, exists_false, or_false]
  constructor
  · rintro (⟨spread, ⟨hs, -⟩, hl, hn⟩ | ⟨spread, ⟨hs, -⟩, hl, hn⟩)
    · exact ⟨hl, spread, hs, hn⟩
    · exact ⟨hl, spread, hs, hn⟩
  · rintro ⟨hl, spread, hs, hn⟩
    by_cases hsp : scope.spreadable.contains spread
    · exact Or.inr ⟨spread, ⟨hs, hsp⟩, hl, hn⟩
    · exact Or.inl ⟨spread, ⟨hs, by simpa using hsp⟩, hl, hn⟩

/-- The expression of a schema uses the bindings that the schema uses. -/
theorem writes_express (hd : d.Transparent) (bare : Bool) (schema : Schema) (hr : schema.RawFree)
    (h : d.express scope bare schema = .ok expr) : Writes scope schema expr := by
  intro name later
  rw [composes_express hd bare schema h _ (Expr.inherited_uses name) later]
  refine exists_congr fun part => and_congr_right fun hp => ?_
  cases part with
  | ref other => exact uses_reference_iff hd
  | object fields undeclared spreads => exact uses_assemble_iff hd
  | raw code => exact absurd hp (hr code)
  | _ => exact Iff.rfl

end Dialect

end ApiSchema
