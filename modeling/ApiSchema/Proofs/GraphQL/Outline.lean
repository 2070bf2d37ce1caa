/-
# Outlines of selections

What selections amount to, by recursion on the selections and without any state: the response keys
with what is under them, the entries of fragments whose fields are merged, and both of these for
each object type that is picked out of an interface or a union.
-/
import ApiSchema.GraphQL.Catalog
import ApiSchema.Proofs.Assoc
import ApiSchema.Proofs.Ensures
import ApiSchema.Proofs.GraphQL.Inputs

namespace ApiSchema.GraphQL

open List

variable {type parent : NamedType} {name : String} {α : Type} {join : α → α → α} {nothing : α}
  {selections : List Selection} {below : NamedType → Schema}

/-! ## Types -/

/-- The schema of a type reference around the schema of its named type. -/
def TypeRef.wrap : TypeRef → Schema → Schema
  | named _, schema => schema.nullable
  | list item, schema => (Schema.array (item.wrap schema)).nullable
  | nonNull (named _), schema => schema
  | nonNull (list item), schema => .array (item.wrap schema)
  | nonNull (nonNull inner), schema => (nonNull inner).wrap schema

/-- A type reference asks for the schema of its named type once. -/
theorem TypeRef.schema_eq_map {m : Type → Type} [Monad m] [LawfulMonad m] (leaf : String → m Schema)
    (type : TypeRef) : type.schema leaf = type.wrap <$> leaf type.baseName := by
  induction type using TypeRef.schema.induct with
  | case1 name => simp [schema, wrap, baseName]
  | case2 item ih => simp [schema, wrap, baseName, ih]
  | case3 name => simp [schema, wrap, baseName]
  | case4 item ih => simp [schema, wrap, baseName, ih]
  | case5 inner ih => simpa [schema, wrap, baseName] using ih

/-- The schema of a named type stands in the schema of a type reference around it. -/
theorem TypeRef.part_wrap (type : TypeRef) (schema : Schema) :
    Schema.Part schema (type.wrap schema) := by
  induction type using TypeRef.schema.induct with
  | case1 name => exact .alternative (mem_cons_self ..) .whole
  | case2 item ih => exact .alternative (mem_cons_self ..) (.items ih)
  | case3 name => exact .whole
  | case4 item ih => exact .items ih
  | case5 inner ih => exact ih

/-- The schema of a named type in an output position, given the schemas of composite types. -/
def leafSchema (setting : Setting) (below : NamedType → Schema) (name : String) : Schema :=
  match setting.system.type? name with
  | none => .unknown
  | some type =>
    match type.kind with
    | .scalar => (setting.registry.get? name).getD .unknown
    | .enum _ => .ref type.name
    | _ => below type

/-- Whether nothing can be selected on the type because it is a scalar or an enumeration. -/
def NamedType.isLeaf (type : NamedType) : Bool :=
  match type.kind with
  | .scalar => true
  | .enum _ => true
  | _ => false

theorem NamedType.isLeaf_eq_false (h : type.isComposite) : type.isLeaf = false := by
  unfold isComposite isObject isAbstract at h
  unfold isLeaf
  cases hk : type.kind <;> simp [hk] at h ⊢

variable {setting : Setting}

theorem leafSchema_of_isLeaf_eq_false
    (ht : setting.system.type? name = some type)
    (hl : type.isLeaf = false) : leafSchema setting below name = below type := by
  unfold leafSchema NamedType.isLeaf at *
  rw [ht]
  cases hk : type.kind <;> simp [hk] at hl ⊢

/-- What is under the response key of a field, given the schemas of composite types. -/
def describe (setting : Setting) (parent : NamedType) (name : String)
    (below : NamedType → Schema) : Described :=
  if name = typeNameKey then ⟨if parent.isObject then textLiteral parent.name else .text, true⟩
  else
    match parent.fieldType? name with
    | none => ⟨.unknown, false⟩
    | some type => ⟨type.wrap (leafSchema setting below type.baseName), type.isNonNull⟩

/-! ## Gathering -/

/-- Joins what is given for the same name to what has been gathered. -/
def gather {α : Type} (join : α → α → α) (nothing : α) (gathered pieces : List (String × α)) :
    List (String × α) :=
  pieces.foldl
    (fun gathered piece =>
      Assoc.put gathered piece.1 (join ((Assoc.get? gathered piece.1).getD nothing) piece.2))
    gathered

/-! ## Outlines -/

/-- What is selected on one type, in order and with repetitions: response keys with what is under
them, and entries of fragments. -/
structure Portion where
  keys : List (String × Described)
  spreads : List String
deriving Inhabited

/-- What is selected on a type, and for each object type that is picked out of it. -/
structure Outline extends Portion where
  narrowed : List (String × Portion)
deriving Inhabited

namespace Portion

/-- Nothing. -/
def empty : Portion := ⟨[], []⟩

/-- One portion after the other. -/
def append (first second : Portion) : Portion :=
  ⟨first.keys ++ second.keys, first.spreads ++ second.spreads⟩

end Portion

namespace Outline

/-- Nothing. -/
def empty : Outline := ⟨.empty, []⟩

/-- One outline after the other. -/
def append (first second : Outline) : Outline :=
  ⟨first.toPortion.append second.toPortion, first.narrowed ++ second.narrowed⟩

end Outline

namespace Selected

/-- Writes a portion over what was selected before, and gathers selections for object types. -/
def extend (selected : Selected) (portion : Portion) (pieces : List (String × List Selection)) :
    Selected :=
  ⟨Assoc.putAll selected.keys portion.keys, unionNames selected.spreads portion.spreads,
    gather (· ++ ·) [] selected.narrowed pieces⟩

/-- What a portion alone amounts to. -/
def ofPortion (portion : Portion) : Selected := empty.extend portion []

/-- The object for one object type, of what is selected for all types and for this one. -/
def member (common : Selected) (type : String) (portion : Portion) : Schema :=
  let marked := Selected.empty.put typeNameKey (textLiteral type) true
  let start : Selected := ⟨Assoc.putAll marked.keys common.keys, common.spreads, []⟩
  ((start.extend portion []).put typeNameKey (textLiteral type) true).object

/-- The type name of the object is written before all other keys and once more after them. -/
theorem member_eq (common : Selected) (type : String) (portion : Portion) :
    common.member type portion = Selected.object
      ⟨Assoc.ofList ((typeNameKey, ⟨textLiteral type, true⟩) :: common.keys ++ portion.keys ++
        [(typeNameKey, ⟨textLiteral type, true⟩)]), unionNames common.spreads portion.spreads,
        []⟩ := by
  simp [member, extend, Selected.put, Assoc.ofList, Assoc.putAll, Assoc.put, empty, gather]

end Selected

/-- The schema of an outline on a type. -/
def Outline.schema (outline : Outline) (parent : NamedType) : Schema :=
  let common := Selected.ofPortion outline.toPortion
  if parent.isAbstract then
    if outline.narrowed.isEmpty then
      if parent.isUnion || common.keys.isEmpty && common.spreads.isEmpty then .unknown
      else common.object
    else
      match (gather Portion.append .empty [] outline.narrowed).map fun piece =>
          common.member piece.1 piece.2 with
      | [member] => member
      | members => .union members
  else common.object

/-- The type of a fragment that has an entry. -/
def Setting.spreadType? (setting : Setting) (name : String) : Option NamedType :=
  (setting.documents.fragment? name).bind fun fragment =>
    (setting.system.type? fragment.condition).filter (·.isComposite)

/-- The entry of a fragment that has one. -/
def Setting.spreadRecord? (setting : Setting) (name : String) : Option String :=
  (setting.spreadType? name).map fun _ => Name.fragmentEntry name

/-- The type on which the selections under a condition are read, if it is a known type. -/
def Setting.conditionType (setting : Setting) (parent : NamedType) (condition : Option String) :
    NamedType :=
  (condition.bind setting.system.type?).getD parent

mutual

/-- The outline of a selection on a type. -/
def outline (setting : Setting) : NamedType → Selection → Outline
  | parent, .field responseName name _ _ (some selections) =>
    ⟨⟨[(responseName.getD name,
        describe setting parent name fun type => (outlineAll setting type selections).schema type)],
      []⟩, []⟩
  | parent, .field responseName name _ _ none =>
    ⟨⟨[(responseName.getD name, describe setting parent name fun _ => .unknown)], []⟩, []⟩
  | parent, .spread name _ =>
    match setting.spreadType? name with
    | none => .empty
    | some type =>
      if narrows parent type then ⟨.empty, [(type.name, ⟨[], [Name.fragmentEntry name]⟩)]⟩
      else ⟨⟨[], [Name.fragmentEntry name]⟩, []⟩
  | parent, .inline condition _ selections =>
    let type := setting.conditionType parent condition
    if narrows parent type then
      ⟨.empty, [(type.name, (outlineAll setting type selections).toPortion)]⟩
    else outlineAll setting (conditioned parent type) selections

/-- The outline of several selections on a type. -/
def outlineAll (setting : Setting) : NamedType → List Selection → Outline
  | _, [] => .empty
  | parent, selection :: rest =>
    (outline setting parent selection).append (outlineAll setting parent rest)

end

mutual

/-- The selections that a selection picks out for object types. -/
def pieces (setting : Setting) : NamedType → Selection → List (String × List Selection)
  | _, .field .. => []
  | parent, .spread name directives =>
    match setting.spreadType? name with
    | none => []
    | some type => if narrows parent type then [(type.name, [.spread name directives])] else []
  | parent, .inline condition _ selections =>
    let type := setting.conditionType parent condition
    if narrows parent type then [(type.name, selections)]
    else piecesOfAll setting (conditioned parent type) selections

/-- The selections that several selections pick out for object types. -/
def piecesOfAll (setting : Setting) : NamedType → List Selection → List (String × List Selection)
  | _, [] => []
  | parent, selection :: rest => pieces setting parent selection ++ piecesOfAll setting parent rest

end

/-! ## Laws of outlines -/

namespace Selected

theorem extend_extend (selected : Selected) (first second : Portion)
    (some more : List (String × List Selection)) :
    (selected.extend first some).extend second more =
      selected.extend (first.append second) (some ++ more) := by
  simp [extend, Portion.append, Assoc.putAll, unionNames, gather]

/-- Merging the fields of a fragment's entry is extending by it. -/
theorem extend_spread (selected : Selected) (entry : String) :
    selected.extend ⟨[], [entry]⟩ [] = selected.spread entry := by
  unfold spread
  split
  · rename_i h
    simp only [extend, unionNames, foldl_cons, if_pos h]
    rfl
  · rename_i h
    simp only [extend, unionNames, foldl_cons, if_neg h]
    rfl

end Selected

theorem spreadNamesOfAll_eq_flatMap (selections : List Selection) :
    Selection.spreadNamesOfAll selections = selections.flatMap Selection.spreadNames := by
  induction selections with
  | nil => rfl
  | cons selection rest ih => rw [Selection.spreadNamesOfAll, ih, flatMap_cons]

/-- The type under a condition is the one around it, or is found by its name. -/
theorem Setting.conditionType_eq_or (setting : Setting) (parent : NamedType)
    (condition : Option String) :
    setting.conditionType parent condition = parent ∨
      setting.system.type? (setting.conditionType parent condition).name =
        some (setting.conditionType parent condition) := by
  unfold conditionType
  cases hc : condition.bind setting.system.type? with
  | none => exact Or.inl rfl
  | some type =>
    obtain ⟨name, -, ht⟩ := Option.bind_eq_some_iff.mp hc
    exact Or.inr (TypeSystem.type?_name ht)

/-! ## Portions for object types -/

/-- What some selections amount to on the type of a name. -/
def portionOn (setting : Setting) (name : String) (selections : List Selection) : Portion :=
  match setting.system.type? name with
  | none => .empty
  | some type => (outlineAll setting type selections).toPortion

theorem narrows_self (type : NamedType) : narrows type type = false := by
  simp [narrows]

/-- A type under a condition that is picked out of the one around it is found by its name. -/
theorem Setting.type?_conditionType {condition : Option String}
    (h : narrows parent (setting.conditionType parent condition)) :
    setting.system.type? (setting.conditionType parent condition).name =
      some (setting.conditionType parent condition) := by
  refine (setting.conditionType_eq_or parent condition).resolve_left fun he => ?_
  rw [he, narrows_self] at h
  cases h

/-- Selections in a row have one outline after the other. -/
theorem outlineAll_append (setting : Setting) (parent : NamedType) (first second : List Selection) :
    outlineAll setting parent (first ++ second) =
      (outlineAll setting parent first).append (outlineAll setting parent second) := by
  induction first with
  | nil => rfl
  | cons selection rest ih =>
    rw [cons_append, outlineAll, ih, outlineAll]
    simp [Outline.append, Portion.append]

/-- Selections in a row have one portion after the other. -/
theorem portionOn_append (name : String) (first second : List Selection) :
    portionOn setting name (first ++ second) =
      (portionOn setting name first).append (portionOn setting name second) := by
  unfold portionOn
  cases setting.system.type? name with
  | none => rfl
  | some type =>
    dsimp only
    rw [outlineAll_append]
    rfl

theorem portionOn_nil (setting : Setting) (name : String) : portionOn setting name [] = .empty := by
  unfold portionOn
  cases setting.system.type? name <;> rfl

theorem Setting.type?_of_spreadType? (h : setting.spreadType? name = some type) :
    setting.system.type? type.name = some type ∧ type.isComposite := by
  obtain ⟨fragment, -, hf⟩ := Option.bind_eq_some_iff.mp h
  obtain ⟨ht, hc⟩ := Option.filter_eq_some_iff.mp hf
  exact ⟨TypeSystem.type?_name ht, hc⟩

mutual

/-- The portions for object types are those of the selections that are picked out for them. -/
theorem narrowed_outline (setting : Setting) (parent : NamedType) (selection : Selection) :
    (outline setting parent selection).narrowed =
      (pieces setting parent selection).map fun piece =>
        (piece.1, portionOn setting piece.1 piece.2) := by
  match selection with
  | .field _ _ _ _ (some _) => simp [outline, pieces]
  | .field _ _ _ _ none => simp [outline, pieces]
  | .spread name directives =>
    rw [outline, pieces]
    cases ht : setting.spreadType? name with
    | none => rfl
    | some type =>
      dsimp only
      split
      · -- On its own type the fragment is merged through its entry.
        have hp : portionOn setting type.name [.spread name directives] =
            ⟨[], [Name.fragmentEntry name]⟩ := by
          rw [portionOn, (Setting.type?_of_spreadType? ht).1]
          simp [outlineAll, outline, ht, narrows_self, Outline.append, Portion.append,
            Outline.empty, Portion.empty]
        simp [hp]
      · rfl
  | .inline condition directives selections =>
    rw [outline, pieces]
    split
    · rename_i hn
      simp [portionOn, Setting.type?_conditionType hn]
    · exact narrowed_outlineAll setting _ selections

theorem narrowed_outlineAll (setting : Setting) (parent : NamedType) (selections : List Selection) :
    (outlineAll setting parent selections).narrowed =
      (piecesOfAll setting parent selections).map fun piece =>
        (piece.1, portionOn setting piece.1 piece.2) := by
  match selections with
  | [] => simp [outlineAll, piecesOfAll, Outline.empty]
  | selection :: rest =>
    rw [piecesOfAll, map_append, ← narrowed_outline setting parent selection,
      ← narrowed_outlineAll setting parent rest]
    rfl

end

/-- Gathering and then changing what is gathered is changing the pieces and then gathering, if the
change goes through joints. -/
theorem map_gather {β : Type} {join' : β → β → β} {nothing' : β} {change : String → α → β}
    (hj : ∀ name first second, change name (join first second) =
      join' (change name first) (change name second))
    (hn : ∀ name, change name nothing = nothing') (pieces : List (String × α)) :
    ∀ gathered : List (String × α),
      (gather join nothing gathered pieces).map (fun piece => (piece.1, change piece.1 piece.2)) =
        gather join' nothing' (gathered.map fun piece => (piece.1, change piece.1 piece.2))
          (pieces.map fun piece => (piece.1, change piece.1 piece.2)) := by
  induction pieces with
  | nil => exact fun gathered => rfl
  | cons piece rest ih =>
    intro gathered
    rw [gather, foldl_cons, ← gather, ih, Assoc.map_put, hj, map_cons, gather,
      gather, foldl_cons, Assoc.get?_map]
    cases Assoc.get? gathered piece.1 with
    | none => simp [hn]
    | some old => simp

/-- What holds of all pieces, and stays true when pieces are joined, holds of what is gathered. -/
theorem of_mem_gather (property : String → α → Prop)
    (hj : ∀ name first second, property name first → property name second →
      property name (join first second))
    (hn : ∀ name second, property name second → property name (join nothing second))
    (pieces : List (String × α)) :
    ∀ gathered : List (String × α), (∀ piece ∈ gathered, property piece.1 piece.2) →
      (∀ piece ∈ pieces, property piece.1 piece.2) →
        ∀ piece ∈ gather join nothing gathered pieces, property piece.1 piece.2 := by
  induction pieces with
  | nil => exact fun gathered hg _ => hg
  | cons first rest ih =>
    intro gathered hg hpc
    have hf := hpc first (mem_cons_self ..)
    refine ih _ (fun piece hp => ?_) (forall_mem_cons.mp hpc).2
    -- What is written is the first piece, joined to what was there under its name.
    have hw : property first.1
        (join ((Assoc.get? gathered first.1).getD nothing) first.2) := by
      cases hgt : Assoc.get? gathered first.1 with
      | none => exact hn first.1 first.2 hf
      | some old =>
        exact hj _ _ _ (hg _ (Assoc.mem_of_get?_eq_some hgt)) hf
    rcases Assoc.mem_put hp with rfl | hp
    · exact hw
    · exact hg piece hp

theorem isEmpty_gather (join : α → α → α) (nothing : α) (pieces : List (String × α)) :
    (gather join nothing [] pieces).isEmpty = pieces.isEmpty := by
  rcases eq_nil_or_concat pieces with rfl | ⟨rest, piece, rfl⟩
  · rfl
  · rw [concat_eq_append, gather, foldl_append, foldl_cons, foldl_nil, Assoc.isEmpty_put]
    simp

mutual

/-- Selections are picked out for object types that are known, and spread nothing new. -/
theorem of_mem_pieces (setting : Setting) (parent : NamedType) (selection : Selection) :
    ∀ piece ∈ pieces setting parent selection,
      (∃ type, setting.system.type? piece.1 = some type ∧ type.isObject) ∧
        Selection.spreadNamesOfAll piece.2 ⊆ selection.spreadNames := by
  intro piece hp
  match selection with
  | .field .. => simp [pieces] at hp
  | .spread name directives =>
    rw [pieces] at hp
    cases ht : setting.spreadType? name with
    | none => simp [ht] at hp
    | some type =>
      simp only [ht] at hp
      split at hp
      · rename_i hn
        rw [mem_singleton.mp hp]
        simp only [narrows, Bool.and_eq_true] at hn
        refine ⟨⟨type, (Setting.type?_of_spreadType? ht).1, hn.1.2⟩, ?_⟩
        simp [Selection.spreadNamesOfAll]
      · cases hp
  | .inline condition directives selections =>
    rw [pieces] at hp
    split at hp
    · rename_i hn
      have ht := Setting.type?_conditionType hn
      rw [mem_singleton.mp hp]
      simp only [narrows, Bool.and_eq_true] at hn
      exact ⟨⟨_, ht, hn.1.2⟩, fun _ hnm => hnm⟩
    · exact of_mem_piecesOfAll setting _ selections piece hp

theorem of_mem_piecesOfAll (setting : Setting) (parent : NamedType) (selections : List Selection) :
    ∀ piece ∈ piecesOfAll setting parent selections,
      (∃ type, setting.system.type? piece.1 = some type ∧ type.isObject) ∧
        Selection.spreadNamesOfAll piece.2 ⊆ Selection.spreadNamesOfAll selections := by
  intro piece hp
  match selections with
  | [] => simp [piecesOfAll] at hp
  | selection :: rest =>
    rw [piecesOfAll, mem_append] at hp
    rcases hp with hp | hp
    · obtain ⟨ht, hn⟩ := of_mem_pieces setting parent selection piece hp
      exact ⟨ht, fun _ hnm => mem_append_left _ (hn hnm)⟩
    · obtain ⟨ht, hn⟩ := of_mem_piecesOfAll setting parent rest piece hp
      exact ⟨ht, fun _ hnm => mem_append_right _ (hn hnm)⟩

end

/-- What is gathered for an object type is for a known type, and spreads what has its entry. -/
theorem of_mem_gather_pieces {recorded : String → Prop}
    (hr : ∀ name ∈ Selection.spreadNamesOfAll selections, recorded name) :
    ∀ piece ∈ gather (· ++ ·) [] [] (piecesOfAll setting parent selections),
      (∃ type, setting.system.type? piece.1 = some type) ∧
        ∀ spread ∈ Selection.spreadNamesOfAll piece.2, recorded spread := by
  apply of_mem_gather fun name selections =>
    (∃ type, setting.system.type? name = some type) ∧
      ∀ spread ∈ Selection.spreadNamesOfAll selections, recorded spread
  · rintro name first second ⟨ht, hf⟩ ⟨-, hsc⟩
    refine ⟨ht, fun spread hs => ?_⟩
    rw [spreadNamesOfAll_eq_flatMap, flatMap_append, mem_append,
      ← spreadNamesOfAll_eq_flatMap, ← spreadNamesOfAll_eq_flatMap] at hs
    exact hs.elim (hf spread) (hsc spread)
  · exact fun _ _ hsc => hsc
  · simp
  · intro piece hp
    obtain ⟨⟨type, ht, -⟩, hn⟩ := of_mem_piecesOfAll setting parent selections piece hp
    exact ⟨⟨type, ht⟩, fun spread hs => hr spread (hn hs)⟩

end ApiSchema.GraphQL
