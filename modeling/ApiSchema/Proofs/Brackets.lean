/-
# Brackets of expressions

A reader goes through the text of an expression and keeps the brackets that are open; what stands in
a quoted text counts for nothing. The text of every expression that a library writes for a schema
without foreign code closes all its quoted texts and brackets, and has no comma outside of them.
-/
import ApiSchema.Proofs.PropertyKeys

namespace ApiSchema

open List TypeScript

variable {before middle after : List Char} {text rest : String}

namespace Text

/-! ## Reading brackets -/

/-- Where a reader stands, below some open brackets, of which the closing ones are kept: in code, in
a quoted text, or behind a backslash there. -/
inductive Scan
  | code (closers : List Char)
  | literal (closers : List Char)
  | escape (closers : List Char)
deriving DecidableEq

/-- The bracket that closes a bracket. -/
def closing? (c : Char) : Option Char :=
  if c = '(' then some ')' else if c = '[' then some ']' else if c = '{' then some '}' else none

/-- Reads a character. A line break must not stand in a quoted text. -/
def Scan.next : Scan → Char → Option Scan
  | code closers, c =>
    if c = '"' then some (literal closers)
    else if c = ',' then if closers = [] then none else some (code closers)
    else if c = ')' ∨ c = ']' ∨ c = '}' then
      if closers.head? = some c then some (code closers.tail) else none
    else some (code ((closing? c).toList ++ closers))
  | literal closers, c =>
    if c = '"' then some (code closers)
    else if c = '\\' then some (escape closers)
    else if c = '\n' then none
    else some (literal closers)
  | escape closers, _ => some (literal closers)

def Scan.run (scan : Scan) (cs : List Char) : Option Scan := cs.foldlM next scan

/-- All quoted texts are closed, the brackets outside of them match, and no comma stands outside of
brackets. -/
def IsWellBracketed (text : String) : Prop := (Scan.code []).run text.toList = some (.code [])

instance decidableIsWellBracketed : DecidablePred IsWellBracketed :=
  fun _ => inferInstanceAs (Decidable (_ = _))

theorem Scan.run_append (scan : Scan) (cs ds : List Char) :
    scan.run (cs ++ ds) = (scan.run cs).bind (·.run ds) := by
  simp [run]

/-- The text takes some open brackets to others, whatever is open outside of them. -/
def Takes (before : List Char) (text : String) (after : List Char) : Prop :=
  ∀ closers, (Scan.code (before ++ closers)).run text.toList = some (.code (after ++ closers))

/-- The text leaves the brackets as they are. -/
def IsClosed (text : String) : Prop := Takes [] text []

theorem Takes.append (h : Takes before text middle) (h' : Takes middle rest after) :
    Takes before (text ++ rest) after := by
  intro closers
  rw [String.toList_append, Scan.run_append, h closers]
  exact h' closers

/-- Texts with closed brackets one after the other. -/
theorem IsClosed.append (h : IsClosed text) (h' : IsClosed rest) : IsClosed (text ++ rest) :=
  Takes.append h h'

theorem IsClosed.within (h : IsClosed text) (closer : Char) : Takes [closer] text [closer] :=
  fun closers => h (closer :: closers)

/-- Texts with closed brackets, with separators between them, inside of brackets. -/
theorem takes_intercalate {separator : String} {closer : Char} {parts : List String}
    (hs : Takes [closer] separator [closer])
    (h : ∀ part ∈ parts, Takes [closer] part [closer]) :
    Takes [closer] (separator.intercalate parts) [closer] := by
  induction parts with
  | nil => exact fun _ => rfl
  | cons part parts ih =>
    rw [forall_mem_cons] at h
    cases parts with
    | nil =>
      exact h.1
    | cons next others =>
      rw [String.intercalate_cons_cons]
      exact (h.1.append hs).append (ih h.2)

theorem isClosed_commaSeparated {opening closing : String} {closer : Char} {parts : List String}
    (ho : Takes [] opening [closer]) (hc : Takes [closer] closing [])
    (h : ∀ part ∈ parts, IsClosed part) : IsClosed (opening ++ commaSeparated parts ++ closing) :=
  (ho.append (takes_intercalate (fun _ => rfl) fun part hp => (h part hp).within closer)).append hc

variable {cs : List Char}

theorem Scan.run_flatMap {scan : Scan} {f : Char → List Char}
    (h : ∀ c ∈ cs, scan.run (f c) = some scan) : scan.run (cs.flatMap f) = some scan := by
  induction cs with
  | nil => rfl
  | cons c cs ih =>
    rw [forall_mem_cons] at h
    rw [flatMap_cons, run_append, h.1]
    exact ih h.2

/-- Whether a character means nothing to the reader of code. -/
def isQuiet (c : Char) : Bool := !(['"', ',', '(', ')', '[', ']', '{', '}'].contains c)

/-- A text without quotes and brackets is closed. -/
theorem isClosed_of_isQuiet (h : text.toList.all isQuiet) : IsClosed text := by
  intro closers
  rw [← flatMap_singleton' text.toList]
  refine Scan.run_flatMap fun c hc => ?_
  have hc := all_eq_true.mp h c hc
  simp only [isQuiet, contains_cons, contains_nil, Bool.or_false, Bool.not_eq_true',
    Bool.or_eq_false_iff, beq_eq_false_iff_ne] at hc
  simp only [Scan.run, foldlM_cons, foldlM_nil, Scan.next, closing?, hc, if_false, or_self]
  rfl

theorem isQuiet_of_isIdentifierPart {c : Char} (h : Name.isIdentifierPart c) : isQuiet c := by
  have hm : ['"', ',', '(', ')', '[', ']', '{', '}'].all (!Name.isIdentifierPart ·) := by decide
  rw [isQuiet, Bool.not_eq_true', contains_eq_mem, decide_eq_false_iff_not]
  intro hc
  simpa [h] using all_eq_true.mp hm c hc

theorem all_isQuiet_of_all_isIdentifierPart (h : cs.all Name.isIdentifierPart) : cs.all isQuiet :=
  all_eq_true.mpr fun c hc => isQuiet_of_isIdentifierPart (all_eq_true.mp h c hc)

theorem Scan.run_escapeUnit (closers : List Char) (n : Nat) :
    (literal closers).run (escapeUnit n) = some (literal closers) := by
  have hd : ∀ n < 16, n.digitChar ≠ '"' ∧ n.digitChar ≠ '\\' ∧ n.digitChar ≠ '\n' := by
    decide
  have hn : ∀ m, (literal closers).next (m % 16).digitChar = some (literal closers) := by
    intro m
    simp [next, hd (m % 16) (Nat.mod_lt m (by decide))]
  have he : (literal closers).run ['\\', 'u'] = some (literal closers) := rfl
  have ha : escapeUnit n = ['\\', 'u'] ++ hex4 n := rfl
  rw [ha, run_append, he]
  simp [hex4, run, hn]

/-- An escaped character ends no literal. -/
theorem Scan.run_escapeChar (closers : List Char) (c : Char) :
    (literal closers).run (escapeChar c) = some (literal closers) := by
  unfold escapeChar
  iterate 7 (split; exact rfl)
  split
  · exact run_escapeUnit _ _
  split
  · simp only [run, foldlM_cons, foldlM_nil, next, *]
    rfl
  split
  · exact run_escapeUnit _ _
  · rw [run_append, run_escapeUnit, Option.bind_some, run_escapeUnit]

/-- A quoted text is closed, whatever its characters are. -/
theorem isClosed_quote (s : String) : IsClosed (quote s) := by
  intro closers
  have hb := Scan.run_flatMap fun c (_ : c ∈ s.toList) => Scan.run_escapeChar closers c
  rw [quote, String.toList_ofList, quoteChars, ← singleton_append, Scan.run_append]
  change (Scan.literal closers).run _ = _
  rw [Scan.run_append, hb]
  rfl

theorem all_isQuiet_toDigits (n : Nat) : (Nat.toDigits 10 n).all isQuiet := by
  rw [all_eq_true]
  have hd : ∀ m < 10, isQuiet m.digitChar = true := by decide
  exact Numeral.forall_mem_toDigits hd n

theorem all_isQuiet_stripZeros {place : Int} (h : cs.all isQuiet) :
    (Double.stripZeros cs place).1.all isQuiet := by
  fun_induction Double.stripZeros cs place with
  | case1 c rest place ih =>
    rw [all_cons, Bool.and_eq_true] at h
    exact ih h.2
  | case2 => rwa [all_reverse]

/-- A decimal is laid out without brackets. -/
theorem all_isQuiet_write {layout : Double.Layout} {digits : List Char} {place : Int}
    (h : digits.all isQuiet) : (layout.write digits place).all isQuiet := by
  have hm : isQuiet '0' ∧ isQuiet '.' ∧ isQuiet 'e' ∧ isQuiet '+' ∧ isQuiet '-' := by decide
  have he : ∀ n, (Double.exponentText n).all isQuiet := by
    intro n
    have hd := all_isQuiet_toDigits n.natAbs
    simp only [Double.exponentText]
    split_ifs <;> simp only [all_cons, hm, hd, Bool.and_self]
  have hz : ∀ n, (replicate n '0').all isQuiet := fun n => by simp [hm]
  have hp : ∀ n, (digits.take n).all isQuiet ∧ (digits.drop n).all isQuiet := by
    intro n
    rwa [← Bool.and_eq_true_iff, ← all_append, take_append_drop]
  unfold Double.Layout.write
  dsimp only
  split
  · split_ifs <;> simp only [all_append, all_cons, all_nil, h, hz, hp, hm,
      Bool.and_self]
  · split
    · rfl
    all_goals
      rw [all_cons, Bool.and_eq_true] at h
      simp only [all_append, all_cons, h, hm, he, Bool.and_self]

/-- A number is closed. -/
theorem isClosed_float (x : Double) : IsClosed (x.text jsonWords) := by
  refine isClosed_of_isQuiet ?_
  cases x with
  | nan => decide
  | infinite negative => cases negative <;> decide
  | finite negative mantissa exponent =>
    have hs : (if negative then "-" else "").toList.all isQuiet := by
      cases negative <;> decide
    rw [Double.text, String.toList_append, String.toList_ofList, all_append, hs]
    split
    · exact all_isQuiet_write (by decide)
    · refine all_isQuiet_write (all_isQuiet_stripZeros ?_)
      rw [all_reverse]
      exact all_isQuiet_toDigits _

end Text

/-! ## Values -/

open Text

theorem Atom.isClosed_jsonText {atom : Atom} (h : atom.unwritable? = none) :
    IsClosed atom.jsonText := by
  cases atom with
  | null => exact isClosed_of_isQuiet (by decide)
  | bool b => cases b <;> exact isClosed_of_isQuiet (by decide)
  | int n =>
    refine isClosed_of_isQuiet ?_
    rw [jsonText, Json.toList_toString, all_append, all_isQuiet_toDigits]
    split <;> decide
  | float x => exact isClosed_float x
  | text s => exact isClosed_quote s
  | _ => cases h

theorem Atom.isClosed_jsonKey (atom : Atom) : IsClosed atom.jsonKey := by
  cases atom <;> exact isClosed_quote _

namespace Value

mutual

/-- The JSON form of a value closes its brackets. -/
theorem isClosed_jsonText (value : Value) (h : value.unwritable? = none) :
    IsClosed value.jsonText := by
  match value with
  | .atom a => exact Atom.isClosed_jsonText h
  | .list items | .tuple items =>
    exact isClosed_commaSeparated (fun _ => rfl) (fun _ => rfl) (isClosed_jsonTexts items h)
  | .map entries =>
    exact isClosed_commaSeparated (fun _ => rfl) (fun _ => rfl) (isClosed_jsonEntryTexts entries h)
  | .set _ | .again _ => cases h

theorem isClosed_jsonTexts (items : List Value) (h : firstUnwritable? items = none) :
    ∀ part ∈ jsonTexts items, IsClosed part := by
  match items with
  | [] => exact forall_mem_nil _
  | item :: rest =>
    rw [firstUnwritable?_eq_none_iff, forall_mem_cons, ← firstUnwritable?_eq_none_iff] at h
    exact forall_mem_cons.mpr ⟨isClosed_jsonText item h.1, isClosed_jsonTexts rest h.2⟩

theorem isClosed_jsonEntryTexts (entries : List (Atom × Value))
    (h : firstUnwritableEntry? entries = none) :
    ∀ part ∈ jsonEntryTexts entries, IsClosed part := by
  match entries with
  | [] => exact forall_mem_nil _
  | (key, value) :: rest =>
    have h : (key.unwritable? = none ∧ value.unwritable? = none) ∧
        firstUnwritableEntry? rest = none := by
      simpa [ firstUnwritableEntry?] using h
    exact forall_mem_cons.mpr ⟨(key.isClosed_jsonKey.append
      (isClosed_of_isQuiet (by decide))).append
      (isClosed_jsonText value h.1.2), isClosed_jsonEntryTexts rest h.2⟩

end

end Value

/-! ## Expressions -/

variable {expr : Expr}

namespace TypeScript.Expr

/-- The expressions that stand directly inside of an expression. -/
def children : Expr → List Expr
  | .member receiver _ => [receiver]
  | .call callee arguments => callee :: arguments
  | .array items => items
  | .thunk body => [body]
  | .inlineObject fields => fields.map (·.2)
  | .block spreads fields => spreads ++ fields.map (·.2)
  | _ => []

/-- What the expression adds to those inside of it closes its brackets, and is not taken over as it
stands. -/
def IsTightItself : Expr → Prop
  | .name path => IsClosed path
  | .literal value => value.unwritable? = none
  | .regex pattern => IsClosed pattern
  | .member _ field => IsClosed field
  | .inlineObject fields => ∀ field ∈ fields, IsClosed field.1
  | .block _ fields => ∀ field ∈ fields, IsClosed field.1
  | .verbatim _ => False
  | _ => True

/-- All expressions inside of the expression are tight, and so is it itself. -/
inductive IsTight : Expr → Prop
  | intro {expr : Expr} (hitself : expr.IsTightItself)
      (h : ∀ child ∈ expr.children, IsTight child) : IsTight expr

theorem not_isTight_iff (h : expr.IsTightItself) :
    ¬ IsTight expr ↔ ∃ child ∈ expr.children, ¬ IsTight child := by
  have hi : IsTight expr ↔ ∀ child ∈ expr.children, IsTight child :=
    ⟨fun ht => by cases ht; assumption, .intro h⟩
  simp only [hi, not_forall, exists_prop]

theorem isClosed_renderFields {fields : List (String × Expr)} {depth : Nat}
    (hk : ∀ field ∈ fields, IsClosed field.1)
    (h : ∀ field ∈ fields, IsClosed (field.2.render depth)) :
    ∀ part ∈ renderFields depth fields, IsClosed part := by
  rw [renderFields_eq_map, forall_mem_map]
  exact fun field hf =>
    ((hk field hf).append (isClosed_of_isQuiet (by decide))).append (h field hf)

/-- The text of a tight expression closes its brackets. -/
theorem IsTight.isClosed_render (h : IsTight expr) : ∀ depth, IsClosed (expr.render depth) := by
  have hin : ∀ depth, IsClosed (indent depth) := by
    intro depth
    refine isClosed_of_isQuiet ?_
    rw [indent, String.toList_ofList, all_eq_true]
    exact fun c hc => eq_of_mem_replicate hc ▸ rfl
  induction h with
  | @intro expr hi _ ih =>
  intro depth
  match expr with
  | .name _ => exact hi
  | .text _ => exact isClosed_quote _
  | .literal _ => exact Value.isClosed_jsonText _ hi
  | .regex _ =>
    have hs : IsClosed "/" := fun _ => rfl
    exact (hs.append hi).append hs
  | .member receiver _ =>
    have hp : IsClosed "." := fun _ => rfl
    exact ((ih receiver (mem_singleton_self _) depth).append hp).append hi
  | .call callee arguments =>
    simp only [children, forall_mem_cons] at ih
    rw [render, renderAll_eq_map]
    exact isClosed_commaSeparated (Takes.append (ih.1 depth) fun _ => rfl) (fun _ => rfl)
      (forall_mem_map.mpr fun argument hm => ih.2 argument hm depth)
  | .array items =>
    rw [render, renderAll_eq_map]
    exact isClosed_commaSeparated (fun _ => rfl) (fun _ => rfl)
      (forall_mem_map.mpr fun item hm => ih item hm depth)
  | .thunk body => exact IsClosed.append (fun _ => rfl) (ih body (mem_singleton_self _) depth)
  | .inlineObject fields =>
    rw [children, forall_mem_map] at ih
    exact isClosed_commaSeparated (fun _ => rfl) (fun _ => rfl)
      (isClosed_renderFields hi fun field hm => ih field hm depth)
  | .block spreads fields =>
    rw [children, forall_mem_append, forall_mem_map] at ih
    rw [render, renderAll_eq_map]
    split
    · exact fun _ => rfl
    · have hd : IsClosed "..." := fun _ => rfl
      have hl : ∀ line ∈ (spreads.map (render (depth + 1))).map ("..." ++ ·) ++
          renderFields (depth + 1) fields, IsClosed line := by
        rw [forall_mem_append, forall_mem_map, forall_mem_map]
        exact ⟨fun spread hm => hd.append (ih.1 spread hm (depth + 1)),
          isClosed_renderFields hi fun field hm => ih.2 field hm (depth + 1)⟩
      have hcm : Takes ['}'] "," ['}'] := fun _ => rfl
      have hinn := @takes_intercalate "\n" '}' _ (fun _ => rfl) (forall_mem_map.mpr
        fun line hln => (((hin (depth + 1)).append (hl line hln)).within '}').append
          hcm)
      exact (((Takes.append (fun _ => rfl) hinn).append (fun _ => rfl)).append
        ((hin depth).within '}')).append fun _ => rfl

theorem isClosed_of_isPath {path : String} (h : isPath path) : IsClosed path := by
  refine isClosed_of_isQuiet (all_eq_true.mpr fun c hc => ?_)
  have hc := all_eq_true.mp h c hc
  simp only [Bool.or_eq_true, decide_eq_true_eq] at hc
  obtain hc | rfl := hc
  · exact isQuiet_of_isIdentifierPart hc
  · rfl

theorem IsKey.isClosed {key : String} (h : IsKey key) : IsClosed key := by
  have he : ∀ name, Name.isExportable name → IsClosed name := fun name hn =>
    isClosed_of_isQuiet (all_isQuiet_of_all_isIdentifierPart (Bool.and_eq_true_iff.mp hn).2)
  obtain ⟨name, rfl | rfl⟩ := h
  · rw [Name.propertyKey]
    split
    · rename_i hn
      obtain hn | ⟨stem, hs, rfl⟩ := Name.isIdentifier_iff.mp hn
      · exact he name hn
      · exact (he stem hs).append fun _ => rfl
    · exact isClosed_quote name
  · exact isClosed_quote name

set_option maxRecDepth 4000 in
theorem isClosed_pattern {format : Format} {pattern : String} (h : format.pattern? = some pattern) :
    IsClosed pattern := by
  intro closers
  cases format <;> cases h <;> rfl

/-- To have something that does not close its brackets is inherited. -/
theorem inherited_not_isTight : Inherited fun _ expr => ¬ IsTight expr where
  word h := not_not_intro
    (.intro (isClosed_of_isPath (Bool.and_eq_true_iff.mp h).1) (forall_mem_nil _))
  text := not_not_intro (.intro trivial (forall_mem_nil _))
  literal h := not_not_intro (.intro h (forall_mem_nil _))
  regex h := not_not_intro (.intro (isClosed_pattern h) (forall_mem_nil _))
  member {_ receiver field} h := by
    rw [@not_isTight_iff (.member receiver field) (isClosed_of_isPath h)]
    simp only [children, mem_singleton, exists_eq_left]
  call {_ callee arguments} := by
    rw [@not_isTight_iff (.call callee arguments) trivial]
    simp only [children, mem_cons, exists_eq_or_imp]
  array {_ items} := @not_isTight_iff (.array items) trivial
  inlineObject {_ fields} hk := by
    rw [@not_isTight_iff (.inlineObject fields) fun field hf => (hk field hf).isClosed]
    simp only [children, mem_map, exists_exists_and_eq_and]
  block {_ spreads fields} hk := by
    rw [@not_isTight_iff (.block spreads fields) fun field hf => (hk field hf).isClosed,
      @not_isTight_iff (.block spreads []) (forall_mem_nil _)]
    simp only [children, mem_append, or_and_right, exists_or, mem_map, exists_exists_and_eq_and,
      map_nil, append_nil]

/-- An expression is tight if its parts are. -/
theorem MadeOf.isTight {parts : List Expr} (h : expr.MadeOf parts)
    (hp : ∀ part ∈ parts, IsTight part) : IsTight expr :=
  not_not.mp (@MadeOf.lacks _ _ _ false h inherited_not_isTight fun part hpr =>
    not_not_intro (hp part hpr))

end TypeScript.Expr

/-! ## Schemas -/

open Expr

theorem isTight_binding {name : String} (h : name.toList.all Name.isIdentifierPart) :
    IsTight (.name (Name.binding name)) := by
  have hl : ∀ code < 128, Name.isIdentifierPart (Char.ofNat code) →
      isQuiet (Char.ofNat code).toLower := by decide
  refine .intro (isClosed_of_isQuiet ?_) (forall_mem_nil _)
  rw [Name.binding, String.toList_append, String.toList_ofList, all_append, Bool.and_eq_true]
  refine ⟨?_, by decide⟩
  cases hch : name.toList with
  | nil => rfl
  | cons c cs =>
    rw [hch, all_cons, Bool.and_eq_true] at h
    have ha := lt_of_isIdentifierPart h.1
    have hc := hl c.toNat ha
    rw [Char.ofNat_toNat] at hc
    rw [lowerFirst, lowerChar_of_lt ha, singleton_append, all_cons, hc h.1]
    exact all_isQuiet_of_all_isIdentifierPart h.2

/-- The expressions of a dialect are tight. -/
theorem Dialect.isTight_express {d : Dialect} (hd : d.Transparent) {scope : Scope} {bare : Bool}
    {schema : Schema} (hr : schema.RawFree)
    (hnm : ∀ name ∈ schema.mentions, name.toList.all Name.isIdentifierPart)
    (h : d.express scope bare schema = .ok expr) : IsTight expr := by
  by_contra hnt
  obtain ⟨part, hp, ho⟩ :=
    (composes_express hd bare schema h _ inherited_not_isTight false).mp hnt
  cases part with
  | ref name =>
    have ht := isTight_binding (hnm name hp.ref_mem_mentions)
    apply ho
    rw [reference]
    split
    · exact (hd.deferred _).isTight
        (forall_mem_singleton.mpr (.intro trivial (forall_mem_singleton.mpr ht)))
    · exact ht
  | object fields undeclared spreads =>
    have ht : ∀ name ∈ spreads, IsTight (.name (Name.binding name)) := fun name hn =>
      isTight_binding (hnm name (hp.spread_mem_mentions hn))
    apply ho
    refine (hd.merged _ _).isTight (forall_mem_append.mpr ⟨?_, forall_mem_singleton.mpr
      ((hd.object _ _).isTight (forall_mem_singleton.mpr (.intro (forall_mem_nil _) ?_)))⟩)
    · simp only [mem_map, mem_filter]
      rintro _ ⟨name, ⟨hn, -⟩, rfl⟩
      exact ht name hn
    · simp only [children, map_nil, append_nil, mem_map, mem_filter]
      rintro _ ⟨_, ⟨name, ⟨hn, -⟩, rfl⟩, rfl⟩
      exact .intro (isClosed_of_isPath hd.fields) (forall_mem_singleton.mpr (ht name hn))
  | raw code => exact hr code hp
  | _ => exact ho

/-- Expressions with texts in the notation are tight. -/
theorem Arktype.isTight_express {schema : Schema} (hr : schema.RawFree)
    (hn : ∀ name ∈ schema.mentions, name.toList.all Name.isIdentifierPart)
    (h : express schema = .ok expr) : IsTight expr := by
  refine not_not.mp ((@fares_express _ _ false inherited_not_isTight ?_).of_eq_ok h)
  rintro ⟨part, hp, ho⟩
  cases part with
  | ref name => exact ho (isTight_binding (hn name hp.ref_mem_mentions))
  | object fields undeclared spreads =>
    obtain ho | ⟨name, hnm, ho⟩ := ho
    · exact ho (.intro (forall_mem_nil _) (forall_mem_nil _))
    · exact ho (isTight_binding (hn name (hp.spread_mem_mentions hnm)))
  | raw code => exact hr code hp
  | _ => exact ho

/-- The expression of a schema without foreign code has matching brackets, in every library and
scope and at every depth, if the names of entries in it have the characters of identifiers. A
well-typed schema has an expression. -/
theorem emitted_text_is_well_bracketed (library : Library) (scope : Scope) {schema : Schema}
    (hraw : schema.RawFree)
    (hnames : ∀ name ∈ schema.mentions, name.toList.all Name.isIdentifierPart) :
    (∀ expr, library.express scope schema = .ok expr →
      ∀ depth, IsWellBracketed (expr.render depth)) ∧
    (schema.WellTyped → ∃ expr, library.express scope schema = .ok expr) := by
  refine ⟨fun expr h depth => IsTight.isClosed_render ?_ depth [], library.exists_express scope⟩
  cases library with
  | zod => exact Dialect.isTight_express Zod.transparent hraw hnames h
  | valibot => exact Dialect.isTight_express Valibot.transparent hraw hnames h
  | arktype => exact Arktype.isTight_express hraw hnames h
  | effect => exact Dialect.isTight_express Effect.transparent hraw hnames h

/-- Keys and values that hold marks of the notation. -/
def Schema.hostile : Schema :=
  .object [⟨.text "a\"]", .enumeration [.atom (.text "(\\")], false⟩,
    ⟨.text "self", .ref "Node", true⟩]
    .dropped ["Base"]

theorem hostile_text_is_well_bracketed :
    ∃ expr, Library.effect.express ⟨["Base"], []⟩ .hostile = .ok expr ∧
      IsWellBracketed (expr.render 2) := by
  have ht : Schema.hostile.WellTyped := by
    have hv : (Schema.enumeration [.atom (.text "(\\")]).WellTyped :=
      (Schema.wellTyped_iff_of_isLeaf rfl).mpr (forall_mem_singleton.mpr rfl)
    have hr : (Schema.ref "Node").WellTyped := (Schema.wellTyped_iff_of_isLeaf rfl).mpr trivial
    simp [Schema.hostile, Undeclared.schemas, hv, hr]
  obtain ⟨hb, he⟩ :=
    emitted_text_is_well_bracketed .effect ⟨["Base"], []⟩ ht.rawFree (by decide)
  obtain ⟨expr, hex⟩ := he ht
  exact ⟨expr, hex, hb expr hex 2⟩

end ApiSchema
