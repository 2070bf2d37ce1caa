/-
# Keys of object literals

A property is written under its name if this is an identifier, and else under the name in quotes. A
reader of object literals finds the name again, except that the test for identifiers lets a line
break at the very end pass, which means nothing to the reader.
-/
import Mathlib.Data.List.TakeWhile
import ApiSchema.Proofs.Expressible
import ApiSchema.Proofs.Identifiers
import ApiSchema.Proofs.ReadBack

namespace ApiSchema

open List

variable {name : String} {cs : List Char}

/-! ## Property names -/

theorem Json.parse_quote (s : String) : Json.parse (Text.quote s) = .ok (.atom (.text s)) := by
  have hs : Json.skip (Text.quote s).toList = (Text.quote s).toList := by
    rw [Text.quote, String.toList_ofList]
    rfl
  have hv := Json.value_text s [] (Text.quote s).toList.length
  rw [append_nil] at hv
  rw [Json.parse]
  simp only [hs, hv]
  rfl

namespace Name

/-- The name is an identifier with a line break behind it. -/
def IsBroken (name : String) : Prop := ∃ stem, isExportable stem = true ∧ name = stem ++ "\n"

theorem isIdentifierRest_iff : isIdentifierRest cs ↔
    cs.all isIdentifierPart ∨ ∃ before, before.all isIdentifierPart ∧ cs = before ++ ['\n'] := by
  fun_induction isIdentifierRest cs with
  | case1 => simp
  | case2 => exact iff_of_true rfl (Or.inr ⟨[], rfl, rfl⟩)
  | case3 c cs hl ih =>
    rw [Bool.and_eq_true, ih, all_cons, Bool.and_eq_true, and_or_left]
    refine or_congr_right ⟨?_, ?_⟩
    · rintro ⟨hc, before, hb, rfl⟩
      exact ⟨c :: before, by simp [hc, hb], rfl⟩
    · rintro ⟨_ | ⟨d, before⟩, hb, he⟩
      · exact absurd (cons.inj he).1 fun hc => hl hc (cons.inj he).2
      · rw [all_cons, Bool.and_eq_true] at hb
        rw [(cons.inj he).1]
        exact ⟨hb.1, before, hb.2, (cons.inj he).2⟩

theorem isExportable_iff : isExportable name ↔
    ∃ c cs, name.toList = c :: cs ∧ isIdentifierStart c ∧ cs.all isIdentifierPart := by
  rw [isExportable]
  cases name.toList with
  | nil => simp
  | cons c cs =>
    simp only [head?_cons, Option.any_some, all_cons, Bool.and_eq_true, cons.injEq,
      and_assoc, exists_and_left, exists_eq_left']
    refine and_congr_right fun hc => and_iff_right ?_
    rw [isIdentifierPart, hc, Bool.true_or]

/-- The test for identifiers lets a line break at the end pass. -/
theorem isIdentifier_iff : isIdentifier name ↔ isExportable name ∨ IsBroken name := by
  have hb : IsBroken name ↔ ∃ c cs, name.toList = c :: cs ∧ isIdentifierStart c ∧
      ∃ before, before.all isIdentifierPart ∧ cs = before ++ ['\n'] := by
    constructor
    · rintro ⟨stem, hs, rfl⟩
      obtain ⟨c, cs, hcs, hc, ha⟩ := isExportable_iff.mp hs
      exact ⟨c, cs ++ ['\n'], by rw [String.toList_append, hcs]; rfl, hc, cs, ha, rfl⟩
    · rintro ⟨c, cs, hcs, hc, before, ha, rfl⟩
      refine ⟨String.ofList (c :: before), isExportable_iff.mpr ⟨c, before, ?_, hc, ha⟩, ?_⟩
      · rw [String.toList_ofList]
      · rw [← String.toList_inj, hcs, String.toList_append, String.toList_ofList]
        rfl
  rw [isExportable_iff, hb, isIdentifier]
  cases name.toList with
  | nil => simp
  | cons c cs =>
    simp only [Bool.and_eq_true, isIdentifierRest_iff, and_or_left, cons.injEq, and_assoc,
      exists_and_left, exists_eq_left']

theorem IsBroken.not_isExportable (h : IsBroken name) : ¬ isExportable name := by
  obtain ⟨stem, -, rfl⟩ := h
  rw [isExportable]
  simp [show isIdentifierPart '\n' = false by decide]

theorem IsBroken.propertyKey_eq (h : IsBroken name) : propertyKey name = name :=
  if_pos (isIdentifier_iff.mpr (Or.inr h))

theorem head?_ne_of_isIdentifier (h : isIdentifier name) : name.toList.head? ≠ some '"' := by
  rw [isIdentifier] at h
  cases hn : name.toList with
  | nil => simp
  | cons c cs =>
    rw [hn, Bool.and_eq_true] at h
    rintro ⟨⟩
    exact absurd h.1 (by decide)

theorem head?_quote (s : String) : (Text.quote s).toList.head? = some '"' := by
  rw [Text.quote, String.toList_ofList]
  rfl

/-- A written key denotes a property if it is the name, which is then an identifier, or a JSON text
that is read as the name. -/
def Denotes (written name : String) : Prop :=
  written = name ∧ isExportable name = true ∨
    written.toList.head? = some '"' ∧ Json.parse written = .ok (.atom (.text name))

/-- Every name but an identifier with a line break behind it is denoted by its key. Such a name is
written as it is. -/
theorem propertyKey_denotes_iff (name : String) :
    (Denotes (propertyKey name) name ↔ ¬ IsBroken name) ∧
      (IsBroken name → propertyKey name = name) := by
  refine ⟨⟨?_, fun hs => ?_⟩, IsBroken.propertyKey_eq⟩
  · rintro hd hb
    rw [hb.propertyKey_eq] at hd
    obtain ⟨-, hn⟩ | ⟨hq, -⟩ := hd
    · exact hb.not_isExportable hn
    · exact head?_ne_of_isIdentifier (isIdentifier_iff.mpr (Or.inr hb)) hq
  · by_cases hn : isIdentifier name
    · rw [propertyKey, if_pos hn]
      exact Or.inl ⟨rfl, (isIdentifier_iff.mp hn).resolve_right hs⟩
    · rw [propertyKey, if_neg hn]
      exact Or.inr ⟨head?_quote name, Json.parse_quote name⟩

theorem a_with_line_break_is_not_denoted : ¬ Denotes (propertyKey "a\n") "a\n" := by
  rintro (⟨-, hn⟩ | ⟨hq, -⟩)
  · exact absurd hn (by decide)
  · exact absurd hq (by decide)

/-- The key of an object literal: the text that stands in quotes, or else an identifier, after which
a line break means nothing. -/
def readKey? (written : String) : Option String :=
  if written.toList.head? = some '"' then
    match Json.parse written with
    | .ok value => value.text?
    | .error _ => none
  else
    let rest := written.toList.dropWhile isIdentifierPart
    if rest = [] ∨ rest = ['\n'] then
      some (String.ofList (written.toList.takeWhile isIdentifierPart))
    else none

theorem readKey?_quote (s : String) : readKey? (Text.quote s) = some s := by
  rw [readKey?, if_pos (head?_quote s), Json.parse_quote]
  rfl

/-- A name is read from its key, unless a line break at its end is lost. -/
theorem readKey?_propertyKey (h : ¬ IsBroken name) : readKey? (propertyKey name) = some name := by
  by_cases hn : isIdentifier name
  · have ha := (Bool.and_eq_true_iff.mp ((isIdentifier_iff.mp hn).resolve_right h)).2
    rw [all_eq_true] at ha
    rw [propertyKey, if_pos hn, readKey?, if_neg (head?_ne_of_isIdentifier hn),
      dropWhile_eq_nil_iff.mpr ha, takeWhile_eq_self_iff.mpr ha, String.ofList_toList]
    exact if_pos (Or.inl rfl)
  · rw [propertyKey, if_neg hn, readKey?_quote]

theorem readKey?_propertyKey_of_isBroken {stem : String} (h : isExportable stem) :
    readKey? (propertyKey (stem ++ "\n")) = some stem := by
  have hb : IsBroken (stem ++ "\n") := ⟨stem, h, rfl⟩
  have hh := head?_ne_of_isIdentifier (isIdentifier_iff.mpr (Or.inr hb))
  have ha := all_eq_true.mp (Bool.and_eq_true_iff.mp h).2
  rw [hb.propertyKey_eq, readKey?, if_neg hh, String.toList_append,
    dropWhile_append_of_pos ha, takeWhile_append_of_pos ha]
  change some (String.ofList (stem.toList ++ [])) = some stem
  rw [append_nil, String.ofList_toList]

end Name

/-! ## Keys of ArkType objects -/

namespace Arktype

open Name TypeScript

variable {fields : List (Field Schema)} {pairs : List (String × Expr)} {last : String × Expr}

/-- What a key of an object definition stands for. -/
inductive ObjectKey
  | property (name : String) (required : Bool)
  | undeclared
deriving DecidableEq

/-- Reads a key: two keys are about undeclared properties, and a question mark at the end says that
a property may be missing. -/
def readObjectKey? (written : String) : Option ObjectKey := do
  let key ← readKey? written
  if key = "+" ∨ key = "[string]" then some .undeclared
  else if key.toList.getLast? = some '?' then
    some (.property (String.ofList key.toList.dropLast) false)
  else some (.property key true)

/-- The key of the field that a written key stands for. -/
def ObjectKey.field? : ObjectKey → Option Atom
  | property name _ => some (.text name)
  | undeclared => none

/-- The name is not one of the marks of the notation for keys, and does not end in one. -/
def IsClear (name : String) : Prop :=
  name ≠ "+" ∧ name ≠ "[string]" ∧ name.toList.getLast? ≠ some '?' ∧ ¬ IsBroken name

/-- A property that may be missing is read back from its key, and one that is required exactly if
its name is clear. -/
theorem readObjectKey?_objectKey_iff (name : String) (required : Bool) :
    readObjectKey? (objectKey name required) = some (.property name required) ↔
      (required → IsClear name) := by
  have hr {written key : String} (h : readKey? written = some key) :
      readObjectKey? written = if key = "+" ∨ key = "[string]" then some .undeclared
        else if key.toList.getLast? = some '?' then
          some (.property (String.ofList key.toList.dropLast) false)
        else some (.property key true) := by
    rw [readObjectKey?, h]
    rfl
  cases required with
  | false =>
    have hl : (name ++ "?").toList = name.toList ++ ['?'] := String.toList_append
    have hm : ¬ (name ++ "?" = "+" ∨ name ++ "?" = "[string]") := by
      rintro (h | h) <;> simpa [h] using congrArg getLast? hl
    rw [objectKey, if_neg Bool.false_ne_true, hr (readKey?_quote _), if_neg hm]
    simp
  | true =>
    rw [objectKey, if_pos rfl]
    by_cases hb : IsBroken name
    · refine iff_of_false ?_ fun h => (h rfl).2.2.2 hb
      obtain ⟨stem, hs, rfl⟩ := hb
      rw [hr (readKey?_propertyKey_of_isBroken hs)]
      have hln : stem ≠ stem ++ "\n" := fun h => by
        simpa using congrArg String.length h
      split_ifs <;> simp [hln]
    · rw [hr (readKey?_propertyKey hb), IsClear]
      split_ifs with hm hl
      · exact iff_of_false (by simp) fun h => hm.elim (h rfl).1 (h rfl).2.1
      · simp [hl]
      · simp [not_or.mp hm, hl, hb]

/-- Name and requirement of the field are read from the key of the pair. -/
def IsRead (field : Field Schema) (pair : String × Expr) : Prop :=
  ∃ name, field.key = .text name ∧ readObjectKey? pair.1 = some (.property name field.required)

/-- The fields of an object can be read from keys that are distinct, also from the last key. -/
def KeysAreClear (fields : List (Field Schema)) (pairs : List (String × Expr))
    (last : String × Expr) : Prop :=
  ((pairs ++ [last]).map (·.1)).Nodup ∧ Forall₂ IsRead fields pairs

/-- The key about undeclared properties is read as such. -/
theorem readObjectKey?_of_expressUndeclared {undeclared : Undeclared Schema}
    (h : expressUndeclared undeclared = .ok last) :
    readObjectKey? last.1 = some .undeclared := by
  have hr : ∀ mark, mark = "+" ∨ mark = "[string]" →
      readObjectKey? (Text.quote mark) = some .undeclared := by
    intro mark hm
    rw [readObjectKey?, readKey?_quote]
    exact if_pos hm
  have hl := (fares_expressUndeclared (fun _ => trivial) fun _ _ =>
    fares_of_forall fun _ => trivial).of_eq_ok h
  rw [hl.2]
  split
  · exact hr "+" (Or.inl rfl)
  · exact hr "[string]" (Or.inr rfl)

/-- The fields of an object can be read from their keys exactly if the names of those that are
required are clear. -/
theorem forall₂_isRead_iff (h : expressFields fields = .ok pairs) : Forall₂ IsRead fields pairs ↔
    ∀ field ∈ fields, field.required → ∀ name, field.key = .text name → IsClear name := by
  have hk : Forall₂ (fun (field : Field Schema) (pair : String × Expr) => ∃ name,
      field.key = .text name ∧ pair.1 = objectKey name field.required) fields pairs :=
    (fares_expressFields (fun _ _ _ => trivial) fun _ _ name hn =>
      fares_of_forall fun _ => ⟨name, hn, rfl⟩).of_eq_ok h
  clear h
  induction hk with
  | nil => simp
  | @cons field pair _ _ hky _ ih =>
    obtain ⟨name, hn, hw⟩ := hky
    have hi := readObjectKey?_objectKey_iff name field.required
    rw [forall₂_cons, IsRead, hw]
    simp [hn, hi, ih]

/-- Keys from which the fields can be read are distinct if the fields are. -/
theorem nodup_keys (hd : (fields.map (·.key)).Nodup) (h : Forall₂ IsRead fields pairs)
    (hl : readObjectKey? last.1 = some .undeclared) : ((pairs ++ [last]).map (·.1)).Nodup := by
  have hf : pairs.map (fun pair => (readObjectKey? pair.1).bind ObjectKey.field?) =
      (fields.map (·.key)).map some := by
    clear hd
    induction h with
    | nil => rfl
    | cons hr _ ih =>
      obtain ⟨name, hn, hr⟩ := hr
      rw [map_cons, map_cons, ih, hr, hn]
      rfl
  refine Nodup.of_map (fun written => (readObjectKey? written).bind ObjectKey.field?) ?_
  rw [map_map, map_append]
  change (pairs.map (fun pair => (readObjectKey? pair.1).bind ObjectKey.field?) ++
    [(readObjectKey? last.1).bind ObjectKey.field?]).Nodup
  rw [hf, hl, nodup_append_comm, singleton_append, nodup_cons]
  exact ⟨by simp [ObjectKey.field?], hd.map fun _ _ => Option.some.inj⟩

/-- The keys of an object are clear exactly if the names of its required properties are. The last
key is about undeclared properties. -/
theorem object_keys_are_clear_iff {undeclared : Undeclared Schema} {expr : Expr}
    (hdistinct : (fields.map (·.key)).Nodup)
    (h : express (.object fields undeclared []) = .ok expr) :
    ∃ pairs last, expr = .apply "type" [.block [] (pairs ++ [last])] ∧
      readObjectKey? last.1 = some .undeclared ∧
      (KeysAreClear fields pairs last ↔ ∀ field ∈ fields, field.required →
        ∀ name, field.key = .text name → IsClear name) := by
  have he : expressed false (.object fields undeclared []) = .ok expr := by
    exact h
  obtain ⟨pairs, hp, he⟩ := of_bind_eq_ok he
  obtain ⟨last, hl, he⟩ := of_bind_eq_ok he
  cases he
  have hr := readObjectKey?_of_expressUndeclared hl
  have hrd := forall₂_isRead_iff hp
  refine ⟨pairs, last, rfl, hr, fun hc => hrd.mp hc.2, fun hc => ?_⟩
  exact ⟨nodup_keys hdistinct (hrd.mpr hc) hr, hrd.mpr hc⟩

/-- A required property and one that may be missing, with clear names. -/
theorem keys_of_id_and_tag_are_clear :
    ∃ pairs last, express (.object [⟨.text "id", .text, true⟩, ⟨.text "tag?", .text, false⟩]
        .dropped []) = .ok (.apply "type" [.block [] (pairs ++ [last])]) ∧
      KeysAreClear [⟨.text "id", .text, true⟩, ⟨.text "tag?", .text, false⟩] pairs last := by
  have h : express (.object [⟨.text "id", .text, true⟩, ⟨.text "tag?", .text, false⟩] .dropped []) =
      .ok (.apply "type" [.block [] [("id", .text "string"),
        (Text.quote "tag??", .text "string | null"), (Text.quote "+", .text "delete")]]) := rfl
  obtain ⟨pairs, last, he, -, hc⟩ := object_keys_are_clear_iff (by decide) h
  refine ⟨pairs, last, he ▸ h, hc.mpr ?_⟩
  have hid : IsClear "id" := by
    refine ⟨by decide, by decide, by decide, ?_⟩
    rintro ⟨stem, -, hs⟩
    have hl := congrArg (fun name => name.toList.getLast?) hs
    simp at hl
  simp [hid]

/-- A required property whose name ends in a question mark, and one without it that may be missing,
are written under the same key. -/
theorem required_and_missing_key_collide :
    express (.object [⟨.text "a?", .text, true⟩, ⟨.text "a", .text, false⟩] .dropped []) =
      .ok (.apply "type" [.block [] [(Text.quote "a?", .text "string"),
        (Text.quote "a?", .text "string | null"), (Text.quote "+", .text "delete")]]) :=
  rfl

end Arktype

end ApiSchema
