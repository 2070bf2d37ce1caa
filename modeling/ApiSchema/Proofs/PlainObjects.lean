/-
# Plain objects

In a library that can spread the fields of an object, an entry is written as a plain object or as an
intersection of a plain object with entries that it spreads. The spreadable names are the greatest
set of names of objects that spread only entries of the set, and exactly their entries are written
as plain objects. So the fields of an entry are only taken where the entry is a plain object.
-/
import Mathlib.Order.Bounds.Defs
import ApiSchema.Proofs.Deferral

namespace ApiSchema

open List

open TypeScript

variable {entries others : List Entry} {names spreadable : List String} {library : Library}
  {expr : Expr} {declarations : List Declaration}

/-! ## Sets closed under spreading -/

/-- Every name of the set is the name of an object that spreads only entries of the set. -/
def SpreadClosed (entries : List Entry) (names : Set String) : Prop :=
  ∀ name ∈ names, ∃ entry ∈ entries, entry.name = name ∧ entry.schema.isObject = true ∧
    ∀ spread ∈ entry.schema.spreads, spread ∈ names

/-- The members of a greatest consistent list are the greatest set that is closed under
spreading. -/
theorem GreatestConsistent.isGreatest
    (hd : (entries.map (·.name)).Nodup)
    (h : GreatestConsistent entries (objectNames entries) names) :
    IsGreatest {set | SpreadClosed entries set} {name | name ∈ names} := by
  constructor
  · intro name hn
    obtain ⟨entry, he, ho, rfl⟩ := (mem_objectNames name).mp (h.within hn)
    exact ⟨entry, he, rfl, ho, (h.consistent entry he hn).2⟩
  · classical
    intro set hst name hn
    -- The names of objects that are in the set, as a list.
    have hm : ∀ other, other ∈ (objectNames entries).filter (fun other => decide (other ∈ set)) ↔
        other ∈ set := by
      intro other
      rw [mem_filter, decide_eq_true_iff, and_iff_right_iff_imp]
      intro hot
      obtain ⟨entry, he, heq, ho, -⟩ := hst other hot
      exact (mem_objectNames other).mpr ⟨entry, he, ho, heq⟩
    refine h.greatest (fun entry he hot => ?_) (filter_subset_self _)
      ((hm name).mpr hn)
    obtain ⟨witness, hw, heq, ho, hs⟩ := hst entry.name ((hm _).mp hot)
    obtain rfl := inj_on_of_nodup_map hd hw he heq
    exact ⟨ho, fun spread hsp => (hm spread).mpr (hs spread hsp)⟩

theorem SpreadClosed.of_perm {names : Set String}
    (h : SpreadClosed entries names) (hp : entries.Perm others) : SpreadClosed others names := by
  intro name hn
  obtain ⟨entry, he, hentryName⟩ := h name hn
  exact ⟨entry, hp.mem_iff.mp he, hentryName⟩

/-- The same names are spreadable in rearranged entries. -/
theorem exists_spreadableNames_perm
    (hd : (entries.map (·.name)).Nodup) (hnm : spreadableNames entries = .ok names)
    (hp : entries.Perm others) :
    ∃ names', spreadableNames others = .ok names' ∧ ∀ name, name ∈ names' ↔ name ∈ names := by
  have hd' : (others.map (·.name)).Nodup := (hp.map _).nodup_iff.mp hd
  obtain ⟨names', hn'⟩ := exists_spreadableNames hd'
  have hg := (greatestConsistent_spreadableNames hnm).isGreatest hd
  have hg' := (greatestConsistent_spreadableNames hn').isGreatest hd'
  refine ⟨names', hn', fun name => ⟨fun hn => ?_, fun hn => ?_⟩⟩
  · exact hg.2 (hg'.1.of_perm hp.symm) hn
  · exact hg'.2 (hg.1.of_perm hp) hn

/-- An object is spreadable if and only if it spreads only spreadable entries. -/
theorem mem_spreadableNames_iff
    (hd : (entries.map (·.name)).Nodup) (hnm : spreadableNames entries = .ok names)
    {entry : Entry} (he : entry ∈ entries) (ho : entry.schema.isObject) :
    entry.name ∈ names ↔ entry.schema.spreads ⊆ names := by
  have hg := greatestConsistent_spreadableNames hnm
  refine ⟨fun hn => (hg.consistent entry he hn).2, fun hs => ?_⟩
  have hc : Consistent entries (entry.name :: names) := by
    intro other hot hn
    rcases mem_cons.mp hn with hn | hn
    · obtain rfl := inj_on_of_nodup_map hd hot he hn
      exact ⟨ho, subset_cons_of_subset _ hs⟩
    · obtain ⟨hk, hoth⟩ := hg.consistent other hot hn
      exact ⟨hk, subset_cons_of_subset _ hoth⟩
  have hw : entry.name :: names ⊆ objectNames entries :=
    cons_subset.mpr
      ⟨(mem_objectNames _).mpr ⟨entry, he, ho, rfl⟩, hg.within⟩
  exact hg.greatest hc hw (mem_cons_self ..)

/-! ## Forms of objects -/

namespace Library

/-- The constructors of plain objects. -/
def objectConstructors : Library → List String
  | zod => ["z.object", "z.looseObject"]
  | valibot => ["v.object", "v.looseObject", "v.objectWithRest"]
  | effect => ["Schema.Struct"]
  | arktype => []

/-- The methods that say what becomes of undeclared keys and give a plain object again. -/
def objectMethods : Library → List String
  | zod => ["catchall"]
  | effect => ["annotations"]
  | valibot | arktype => []

/-- The member of a plain object that holds its fields, so that another object can spread them. -/
def fieldsMember? : Library → Option String
  | zod => some "shape"
  | valibot => some "entries"
  | effect => some "fields"
  | arktype => none

/-- The expression is a plain object: a constructor on a block of fields, and possibly methods that
keep the fields. -/
inductive IsPlainObject (library : Library) : Expr → Prop
  | constructed {word : String} {spreads : List Expr} {fields : List (String × Expr)}
      {others : List Expr} (h : word ∈ library.objectConstructors) :
      IsPlainObject library (.apply word (.block spreads fields :: others))
  | changed {expr : Expr} {field : String} {arguments : List Expr} (h : IsPlainObject library expr)
      (hfield : field ∈ library.objectMethods) : IsPlainObject library (expr.method field arguments)

/-- The expression is an intersection, and the binding of the given entry is a member of it. -/
inductive IsIntersectionWith (name : String) : Library → Expr → Prop
  | zod {expr : Expr} :
      IsIntersectionWith name zod ((Expr.name (Name.binding name)).method "and" [expr])
  | valibot {members : List Expr} (h : .name (Name.binding name) ∈ members) :
      IsIntersectionWith name valibot (.apply "v.intersect" [.array members])
  | effect {expr : Expr} :
      IsIntersectionWith name effect (.apply "Schema.extend" [.name (Name.binding name), expr])

/-- An intersection is no plain object. -/
theorem IsIntersectionWith.not_isPlainObject {name : String}
    (h : IsIntersectionWith name library expr) : ¬ IsPlainObject library expr := by
  intro hp
  cases h with
  | zod =>
    cases hp with
    | changed _ hf => simp [objectMethods] at hf
  | valibot => cases hp
  | effect => cases hp

end Library

/-! ## What expressions spread -/

namespace TypeScript.Expr

/-- All expressions that are spread in blocks of the expression, at any depth, have the property. -/
inductive SpreadsOnly (P : Expr → Prop) : Expr → Prop
  | name {path : String} : SpreadsOnly P (.name path)
  | text {value : String} : SpreadsOnly P (.text value)
  | literal {value : Value} : SpreadsOnly P (.literal value)
  | regex {pattern : String} : SpreadsOnly P (.regex pattern)
  | member {receiver : Expr} {field : String} (h : SpreadsOnly P receiver) :
      SpreadsOnly P (.member receiver field)
  | call {callee : Expr} {arguments : List Expr} (hcallee : SpreadsOnly P callee)
      (h : ∀ argument ∈ arguments, SpreadsOnly P argument) : SpreadsOnly P (.call callee arguments)
  | array {items : List Expr} (h : ∀ item ∈ items, SpreadsOnly P item) :
      SpreadsOnly P (.array items)
  | thunk {body : Expr} (h : SpreadsOnly P body) : SpreadsOnly P (.thunk body)
  | inlineObject {fields : List (String × Expr)} (h : ∀ field ∈ fields, SpreadsOnly P field.2) :
      SpreadsOnly P (.inlineObject fields)
  | block {spreads : List Expr} {fields : List (String × Expr)}
      (hspreads : ∀ spread ∈ spreads, P spread) (hinner : ∀ spread ∈ spreads, SpreadsOnly P spread)
      (hfields : ∀ field ∈ fields, SpreadsOnly P field.2) : SpreadsOnly P (.block spreads fields)
  | verbatim {code : String} : SpreadsOnly P (.verbatim code)

variable {P Q : Expr → Prop}

/-- A weaker property holds of what is spread, too. -/
theorem SpreadsOnly.mono (h : SpreadsOnly P expr)
    (hi : ∀ spread, P spread → Q spread) : SpreadsOnly Q expr := by
  induction h with
  | name => exact .name
  | text => exact .text
  | literal => exact .literal
  | regex => exact .regex
  | member _ ih => exact .member ih
  | call _ _ ihcallee ih => exact .call ihcallee ih
  | array _ ih => exact .array ih
  | thunk _ ih => exact .thunk ih
  | inlineObject _ ih => exact .inlineObject ih
  | block hs _ _ ihinner ihfields =>
    exact .block (fun spread hsp => hi spread (hs spread hsp)) ihinner ihfields
  | verbatim => exact .verbatim

/-- To spread something else is inherited. -/
theorem inherited_not_spreadsOnly :
    Inherited fun _ expr => ¬ SpreadsOnly P expr where
  word _ := not_not_intro .name
  text := not_not_intro .text
  literal _ := not_not_intro .literal
  regex _ := not_not_intro .regex
  member _ := not_congr ⟨fun h => by cases h; assumption, .member⟩
  call {_ callee arguments} := by
    have hi : SpreadsOnly P (.call callee arguments) ↔
        SpreadsOnly P callee ∧ ∀ argument ∈ arguments, SpreadsOnly P argument :=
      ⟨fun h => by cases h with | call hc h => exact ⟨hc, h⟩, fun h => .call h.1 h.2⟩
    simp only [hi, not_and_or, not_forall, exists_prop]
  array {_ items} := by
    have hi : SpreadsOnly P (.array items) ↔ ∀ item ∈ items, SpreadsOnly P item :=
      ⟨fun h => by cases h; assumption, .array⟩
    simp only [hi, not_forall, exists_prop]
  inlineObject {_ fields} _ := by
    have hi : SpreadsOnly P (.inlineObject fields) ↔ ∀ field ∈ fields, SpreadsOnly P field.2 :=
      ⟨fun h => by cases h; assumption, .inlineObject⟩
    simp only [hi, not_forall, exists_prop]
  block {_ spreads fields} _ := by
    have hi : SpreadsOnly P (.block spreads fields) ↔
        SpreadsOnly P (.block spreads []) ∧ ∀ field ∈ fields, SpreadsOnly P field.2 := by
      constructor
      · intro h
        cases h with
        | block hs hin hf => exact ⟨.block hs hin (by simp), hf⟩
      · rintro ⟨h, hf⟩
        cases h with
        | block hs hin => exact .block hs hin hf
    simp only [hi, not_and_or, not_forall, exists_prop]

/-- An expression spreads only what its parts spread. -/
theorem MadeOf.spreadsOnly {parts : List Expr}
    (h : expr.MadeOf parts) (hp : ∀ part ∈ parts, SpreadsOnly P part) : SpreadsOnly P expr := by
  exact not_not.mp (@MadeOf.lacks _ _ _ false h inherited_not_spreadsOnly fun part hpr =>
    not_not_intro (hp part hpr))

end TypeScript.Expr

/-! ## Dialects -/

open Expr

namespace Dialect

variable {d : Dialect} {scope : Scope}

/-- The fields of a spreadable entry. -/
def IsFieldsOfSpreadable (d : Dialect) (spreadable : List String) (expr : Expr) : Prop :=
  ∃ name ∈ spreadable, expr = .member (.name (Name.binding name)) d.fields

/-- An object has the fields of the spreadable entries that it spreads in its block, and stands
together with the other entries that it spreads. -/
theorem assemble_eq (spreads : List String) (fields : List (String × Expr))
    (undeclared : Undeclared Expr) :
    d.assemble scope spreads fields undeclared =
      d.merged ((spreads.filter (!scope.spreadable.contains ·)).map fun other =>
          .name (Name.binding other))
        (d.object (.block ((spreads.filter scope.spreadable.contains).map fun other =>
          .member (.name (Name.binding other)) d.fields) fields) undeclared) := by
  rw [assemble, map_map]
  rfl

/-- The expression of a schema spreads only the fields of spreadable entries. -/
theorem spreadsOnly_express (hd : d.Transparent) {bare : Bool} {schema : Schema}
    (h : d.express scope bare schema = .ok expr) :
    SpreadsOnly (d.IsFieldsOfSpreadable scope.spreadable) expr := by
  by_contra hn
  obtain ⟨part, -, ho⟩ := (composes_express hd bare schema h _
    inherited_not_spreadsOnly false).mp hn
  cases part with
  | ref name =>
    apply ho
    rw [reference]
    split
    · exact (hd.deferred _).spreadsOnly (by simpa using .thunk .name)
    · exact .name
  | object fields undeclared spreads =>
    apply ho
    rw [assemble_eq]
    refine (hd.merged _ _).spreadsOnly (forall_mem_append.mpr ⟨fun other hot => ?_,
      forall_mem_singleton.mpr ((hd.object _ _).spreadsOnly
        (forall_mem_singleton.mpr (.block (fun spread hs => ?_)
          (fun spread hs => ?_) (by simp))))⟩)
    · obtain ⟨target, -, rfl⟩ := mem_map.mp hot
      exact .name
    · obtain ⟨target, ht, rfl⟩ := mem_map.mp hs
      exact ⟨target, by simpa using (mem_filter.mp ht).2, rfl⟩
    · obtain ⟨target, -, rfl⟩ := mem_map.mp hs
      exact .member .name
  | raw code => exact ho .verbatim
  | _ => exact ho

/-- How a dialect writes objects: as a plain object, and with other entries as an intersection. -/
structure WritesObjects (d : Dialect) : Prop where
  fields : d.library.fieldsMember? = some d.fields
  plain : ∀ spreads fields undeclared,
    d.library.IsPlainObject (d.object (.block spreads fields) undeclared)
  alone : ∀ body, d.merged [] body = body
  together : ∀ names body, names ≠ [] → ∃ name ∈ names, Library.IsIntersectionWith name d.library
      (d.merged (names.map fun name => .name (Name.binding name)) body)

/-- An object that spreads only spreadable entries is written as a plain object, and any other one
as an intersection with an entry that is not spreadable. -/
theorem isPlainObject_or_isIntersectionWith (hd : d.WritesObjects)
    {spreads : List String} {fields : List (String × Expr)} {undeclared : Undeclared Expr} :
    (spreads ⊆ scope.spreadable ∧
        d.library.IsPlainObject (d.assemble scope spreads fields undeclared)) ∨
      (¬ spreads ⊆ scope.spreadable ∧ ∃ name ∈ spreads, name ∉ scope.spreadable ∧
        Library.IsIntersectionWith name d.library
          (d.assemble scope spreads fields undeclared)) := by
  by_cases ha : spreads ⊆ scope.spreadable
  · have ho : spreads.filter (!scope.spreadable.contains ·) = [] := by
      rw [filter_eq_nil_iff]
      intro name hn
      simpa using ha hn
    refine Or.inl ⟨ha, ?_⟩
    rw [assemble_eq, ho, map_nil, hd.alone]
    exact hd.plain _ _ _
  · have ho : spreads.filter (!scope.spreadable.contains ·) ≠ [] := by
      intro hnl
      rw [filter_eq_nil_iff] at hnl
      exact ha fun name hn => by simpa using hnl name hn
    obtain ⟨name, hn, hj⟩ := hd.together _ _ ho
    obtain ⟨hs, hm⟩ := mem_filter.mp hn
    exact Or.inr ⟨ha, name, hs, by simpa using hm, hj⟩

end Dialect

/-- The last of several names is the outermost in an expression that joins them one by one. -/
theorem exists_foldl_eq_join {join : Expr → Expr → Expr} (hn : names ≠ []) {body : Expr} :
    ∃ last ∈ names, ∃ inner,
      (names.map fun other => Expr.name (Name.binding other)).foldl join body =
        join inner (.name (Name.binding last)) := by
  obtain ⟨init, last, rfl⟩ := (eq_nil_or_concat names).resolve_left hn
  refine ⟨last, by simp, (init.map fun other => Expr.name (Name.binding other)).foldl join body, ?_⟩
  simp

theorem Zod.writesObjects : Zod.dialect.WritesObjects where
  fields := rfl
  plain spreads fields undeclared := by
    cases undeclared with
    | dropped => exact .constructed (by decide)
    | marked mark =>
      refine .constructed ?_
      split <;> decide
    | checked rest => exact .changed (.constructed (by decide)) (by decide)
  alone _ := rfl
  together names body hn := by
    obtain ⟨last, hl, inner, he⟩ :=
      exists_foldl_eq_join hn
    refine ⟨last, hl, ?_⟩
    change Library.IsIntersectionWith last .zod (List.foldl _ body _)
    rw [he]
    exact .zod

theorem Valibot.writesObjects : Valibot.dialect.WritesObjects where
  fields := rfl
  plain spreads fields undeclared := by
    cases undeclared with
    | dropped => exact .constructed (by decide)
    | marked mark =>
      refine .constructed ?_
      split <;> decide
    | checked rest => exact .constructed (by decide)
  alone _ := rfl
  together names body hn := by
    cases names with
    | nil => exact absurd rfl hn
    | cons first rest => exact ⟨first, mem_cons_self .., .valibot (by simp)⟩

theorem Effect.writesObjects : Effect.dialect.WritesObjects where
  fields := rfl
  plain spreads fields undeclared := by
    have hs : ∀ others, Library.effect.IsPlainObject
        (.apply "Schema.Struct" (.block spreads fields :: others)) :=
      fun _ => .constructed (by decide)
    cases undeclared with
    | dropped => exact hs []
    | marked mark =>
      change Library.effect.IsPlainObject
        (if (Undeclared.marked mark : Undeclared Expr).isKept then
          (Expr.apply "Schema.Struct" [.block spreads fields]).method "annotations"
            [Effect.keepUndeclared]
        else Expr.apply "Schema.Struct" [.block spreads fields])
      split
      · exact .changed (hs []) (by decide)
      · exact hs []
    | checked rest => exact hs [Effect.record (Effect.plain "String") rest]
  alone _ := rfl
  together names body hn := by
    obtain ⟨last, hl, inner, he⟩ := exists_foldl_eq_join hn
    refine ⟨last, hl, ?_⟩
    change Library.IsIntersectionWith last .effect (List.foldl _ body _)
    rw [he]
    exact .effect

/-- The libraries that can spread fields are written by dialects. -/
theorem Library.exists_dialect (h : library ≠ .arktype) :
    ∃ d : Dialect, d.library = library ∧ d.WritesObjects ∧ d.Transparent ∧
      ∀ scope schema, library.express scope schema = d.express scope false schema := by
  cases library with
  | zod => exact ⟨Zod.dialect, rfl, Zod.writesObjects, Zod.transparent, fun _ _ => rfl⟩
  | valibot =>
    exact ⟨Valibot.dialect, rfl, Valibot.writesObjects, Valibot.transparent, fun _ _ => rfl⟩
  | arktype => exact absurd rfl h
  | effect =>
    exact ⟨Effect.dialect, rfl, Effect.writesObjects, Effect.transparent, fun _ _ => rfl⟩

/-! ## Modules -/

/-- The declarations agree with the spreadable names: the objects with such names are declared as
plain objects and the others as intersections with an entry that they spread, and whatever is spread
are the fields of an entry that is declared as a plain object. -/
structure DeclaresPlainly (library : Library) (spreadable : List String) (entries : List Entry)
    (declarations : List Declaration) : Prop where
  plain_iff : ∀ entry ∈ entries, entry.schema.isObject = true →
    ∀ declaration ∈ declarations, declaration.name = entry.name →
      (library.IsPlainObject declaration.expr ↔ entry.name ∈ spreadable)
  intersection_iff : ∀ entry ∈ entries, entry.schema.isObject = true →
    ∀ declaration ∈ declarations, declaration.name = entry.name → ((∃ spread ∈ entry.schema.spreads,
        Library.IsIntersectionWith spread library declaration.expr) ↔ entry.name ∉ spreadable)
  spread : ∀ declaration ∈ declarations, SpreadsOnly
    (fun expr => ∃ target ∈ declarations, ∃ field, library.fieldsMember? = some field ∧
      expr = .member (.name (Name.binding target.name)) field ∧
        library.IsPlainObject target.expr) declaration.expr

/-- An object is declared as a plain object if it spreads only spreadable entries, and else as an
intersection with an entry that it spreads. -/
theorem isPlainObject_or_isIntersectionWith_of_express
    (hl : library ≠ .arktype) {scope : Scope} {schema : Schema}
    (ho : schema.isObject) (h : library.express scope schema = .ok expr) :
    (schema.spreads ⊆ scope.spreadable ∧ library.IsPlainObject expr) ∨
      (¬ schema.spreads ⊆ scope.spreadable ∧
        ∃ spread ∈ schema.spreads, Library.IsIntersectionWith spread library expr) := by
  obtain ⟨d, rfl, hd, -, he⟩ := Library.exists_dialect hl
  cases schema with
  | object fields undeclared spreads =>
    rw [he] at h
    obtain ⟨pairs, -, h⟩ := of_bind_eq_ok h
    obtain ⟨rest, -, h⟩ := of_bind_eq_ok h
    cases h
    refine (Dialect.isPlainObject_or_isIntersectionWith hd).imp_right ?_
    rintro ⟨hs, spread, hsp, -, hj⟩
    exact ⟨hs, spread, hsp, hj⟩
  | _ => cases ho

/-- Each declaration is the expression of an entry. -/
theorem exists_express_of_mem_declareAll
    (h : declareAll library spreadable [] entries = .ok declarations) {declaration : Declaration}
    (hd : declaration ∈ declarations) :
    ∃ entry ∈ entries, entry.name = declaration.name ∧ ∃ declared,
      library.express ⟨spreadable, declared⟩ entry.schema = .ok declaration.expr := by
  obtain ⟨earlier, later, rfl⟩ := append_of_mem hd
  obtain ⟨before, entry, after, rfl, -, hn, he⟩ := exists_entry_of_declareAll h rfl
  exact ⟨entry, by simp, hn, _, he⟩

/-- The declarations of a module agree with the spreadable names. -/
theorem declaresPlainly_of_declareAll (hl : library ≠ .arktype)
    (hds : (entries.map (·.name)).Nodup)
    (hs : spreadableNames entries = .ok spreadable)
    (h : declareAll library spreadable [] entries = .ok declarations) :
    DeclaresPlainly library spreadable entries declarations := by
  have hf : ∀ entry ∈ entries, entry.schema.isObject →
      ∀ declaration ∈ declarations, declaration.name = entry.name →
        (entry.name ∈ spreadable ∧ library.IsPlainObject declaration.expr) ∨
          (entry.name ∉ spreadable ∧ ∃ spread ∈ entry.schema.spreads,
            Library.IsIntersectionWith spread library declaration.expr) := by
    intro entry he ho declaration hdc hn
    obtain ⟨other, hoth, hotherName, declared, hex⟩ :=
      exists_express_of_mem_declareAll h hdc
    obtain rfl := inj_on_of_nodup_map hds hoth he (hotherName.trans hn)
    rw [mem_spreadableNames_iff hds hs he ho]
    exact isPlainObject_or_isIntersectionWith_of_express hl ho hex
  refine ⟨fun entry he ho declaration hdc hn => ?_,
    fun entry he ho declaration hdc hn => ?_, fun declaration hm => ?_⟩
  · rcases hf entry he ho declaration hdc hn with
      ⟨hi, hp⟩ | ⟨hot, spread, -, hj⟩
    · exact ⟨fun _ => hi, fun _ => hp⟩
    · exact ⟨fun hp => absurd hp hj.not_isPlainObject, fun hi => absurd hi hot⟩
  · rcases hf entry he ho declaration hdc hn with
      ⟨hi, hp⟩ | ⟨hot, hj⟩
    · exact ⟨fun ⟨_, _, hj⟩ => absurd hp hj.not_isPlainObject,
        fun hot => absurd hi hot⟩
    · exact ⟨fun _ => hot, fun _ => hj⟩
  · obtain ⟨entry, -, -, declared, hex⟩ := exists_express_of_mem_declareAll h hm
    obtain ⟨d, rfl, hd, ht, hexp⟩ := Library.exists_dialect hl
    rw [hexp] at hex
    refine (Dialect.spreadsOnly_express ht hex).mono ?_
    rintro spread ⟨name, hn, rfl⟩
    -- A spreadable name is the name of an object among the entries, which is declared.
    obtain ⟨target, htr, ho, rfl⟩ := (mem_objectNames name).mp
      ((greatestConsistent_spreadableNames hs).within hn)
    have hde : target.name ∈ declarations.map (·.name) := by
      rw [map_name_declareAll h]
      exact mem_map_of_mem htr
    obtain ⟨other, hoth, hotherName⟩ := mem_map.mp hde
    rcases hf target htr ho other hoth hotherName with ⟨-, hp⟩ | ⟨hot, -⟩
    · exact ⟨other, hoth, d.fields, hd.fields, by rw [hotherName], hp⟩
    · exact absurd hn hot

/-- The spreadable names of entries with distinct names are the greatest set of names of objects
that spread only entries of the set, in whatever order the entries are given. In a library that can
spread fields, exactly the objects with these names are written as plain objects, and all others as
intersections; so the fields that are spread are those of plain objects. -/
theorem spreadable_iff_plain_object {entries : List Entry}
    (hdistinct : (entries.map (·.name)).Nodup) :
    ∃ spreadable, spreadableNames entries = .ok spreadable ∧
      IsGreatest {names | SpreadClosed entries names} {name | name ∈ spreadable} ∧
      (∀ others, entries.Perm others → ∃ spreadable', spreadableNames others = .ok spreadable' ∧
        ∀ name, name ∈ spreadable' ↔ name ∈ spreadable) ∧
      ∀ library, library ≠ .arktype → ∀ generated, emitModule library entries = .ok generated →
        ∃ declarations, Declares library entries generated declarations ∧
          DeclaresPlainly library spreadable entries declarations := by
  obtain ⟨spreadable, hs⟩ := exists_spreadableNames hdistinct
  refine ⟨spreadable, hs,
    (greatestConsistent_spreadableNames hs).isGreatest hdistinct,
    fun others hp => exists_spreadableNames_perm hdistinct hs hp,
    fun library hl generated he => ?_⟩
  obtain ⟨declarations, hdc⟩ := exists_declares_of_emitModule he
  refine ⟨declarations, hdc, declaresPlainly_of_declareAll hl hdistinct hs ?_⟩
  have hd := hdc.declared
  rw [declarationsOf, hs] at hd
  exact hd

/-- Objects that spread each other and themselves, and objects that spread a union or a missing
entry. -/
def fragmentEntries : List Entry :=
  [Entry.of "Left" (.object [⟨.text "id", .text, true⟩] .dropped ["Right"]) .fragment [],
    Entry.of "Right" (.object [⟨.text "size", .number true, false⟩] .kept ["Left", "Right"])
      .fragment [],
    Entry.of "Choice" (.union [.text, .ref "Left"]) .fragment [],
    Entry.of "Mixed" (.object [] .dropped ["Left", "Choice"]) .fragment [],
    Entry.of "Top" (.object [⟨.text "left", .array (.ref "Left"), true⟩] (.checked .text)
      ["Mixed", "Right"]) .response [],
    Entry.of "Lost" (.object [] .dropped ["Elsewhere"]) .response []]

/-- Of these entries, the two that spread each other are spreadable, and all three libraries write
them and no others as plain objects. -/
theorem spreadable_fragmentEntries : spreadableNames fragmentEntries = .ok ["Left", "Right"] ∧
      ∀ library ∈ [Library.zod, .valibot, .effect], ∃ generated,
        emitModule library fragmentEntries = .ok generated ∧ ∃ declarations,
          Declares library fragmentEntries generated declarations ∧
            DeclaresPlainly library ["Left", "Right"] fragmentEntries declarations := by
  have hs : spreadableNames fragmentEntries = .ok ["Left", "Right"] := by rfl
  obtain ⟨spreadable, hok, -, -, he⟩ :=
    @spreadable_iff_plain_object fragmentEntries (by decide +kernel)
  obtain rfl : ["Left", "Right"] = spreadable := Except.ok.inj (hs.symm.trans hok)
  refine ⟨hs, fun library hl => ?_⟩
  have hw : ∀ library ∈ [Library.zod, .valibot, .effect],
      library ≠ .arktype ∧ (emitModule library fragmentEntries).isOk = true := by
    decide +kernel
  obtain ⟨hne, hisOk⟩ := hw library hl
  obtain ⟨generated, hem⟩ := exists_ok_of_isOk hisOk
  exact ⟨generated, hem, he library hne generated hem⟩

end ApiSchema
