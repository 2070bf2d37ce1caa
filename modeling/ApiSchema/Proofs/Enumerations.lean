/-
# Enumerations are written without loss

Every library writes the values of an enumeration one after the other, with the same words around
them. A reader that knows these words and reads JSON values between them gets back exactly the
values, in their order, although the values may hold the very marks that stand between them.
-/
import ApiSchema.Proofs.ArktypeGrammar
import ApiSchema.Proofs.Expressible
import ApiSchema.Proofs.ReadBack

namespace ApiSchema

open List TypeScript

variable {values : List Value} {listing : Listing} {value : Value} {rest : List Char}
  {write : Value → Expr} {before after : String} {depth : Nat}

/-! ## Reading -/

/-- The words around the values of an enumeration: before all of them, before and after each of
them, and after all of them. -/
structure Listing where
  opening : String
  before : String
  after : String
  closing : String

namespace Listing

/-- Arguments of a function. -/
def arguments (function : String) : Listing := ⟨function ++ "(", "", "", ")"⟩

/-- Items of a list that is the only argument of a function. -/
def array (function before after : String) : Listing :=
  ⟨function ++ "(" ++ "[", before, after, "]" ++ ")"⟩

/-- The text of some values. -/
def written (listing : Listing) (values : List Value) : String :=
  listing.opening ++
    commaSeparated (values.map fun value => listing.before ++ value.jsonText ++ listing.after) ++
    listing.closing

/-- Reads values up to what stands after all of them. The first argument bounds their number. -/
def values? (listing : Listing) : Nat → List Char → Option (List Value)
  | 0, _ => none
  | fuel + 1, cs => do
    let cs ← Json.word? listing.before.toList cs
    let (value, cs) ← (Json.value (cs.length + 1) cs).toOption
    let cs ← Json.word? listing.after.toList cs
    if cs = listing.closing.toList then return [value]
    else
      let cs ← Json.word? [',', ' '] cs
      return value :: (← listing.values? fuel cs)

/-- Reads a text with these words. -/
def read? (listing : Listing) (text : String) : Option (List Value) := do
  listing.values? (text.length + 1) (← Json.word? listing.opening.toList text.toList)

end Listing

/-- The ways in which a library writes enumerations: as arguments of a function, as a list that is
its only argument, or each value as a call in such a list. -/
def Library.listings : Library → List Listing
  | .zod => [.array "z.enum" "" "", .arguments "z.literal",
      .array "z.union" ("z.literal" ++ "(") ")"]
  | .valibot => [.array "v.picklist" "" ""]
  | .arktype => [.arguments "type.enumerated"]
  | .effect => [.arguments "Schema.Literal"]

/-- The values of an enumeration that a library has written. -/
def Library.enumeration? (library : Library) (text : String) : Option (List Value) :=
  library.listings.findSome? (·.read? text)

/-! ## Reading what is written -/

/-- A simple value that can be written is read back. -/
theorem Json.value_jsonText (hs : Arktype.isSimple value)
    (hw : value.unwritable? = none)
    (h : Json.Stops rest) (fuel : Nat) :
    Json.value (fuel + 1) (value.jsonText.toList ++ rest) = .ok (value, rest) := by
  cases value with
  | atom atom =>
    cases atom with
    | text s => exact Json.value_text s rest fuel
    | bool b => cases b <;> rfl
    | int n =>
      refine Json.value_int ?_ h fuel
      by_contra hl
      rw [Value.unwritable?, Atom.unwritable?, Numeral.isWritable, if_neg (by simpa using hl)]
        at hw
      cases hw
    | _ => cases hs
  | _ => cases hs

namespace Listing

/-- Only brackets stand behind the values. -/
def IsClear (listing : Listing) : Prop :=
  listing.after ∈ ["", ")"] ∧ listing.closing ∈ [")", "])"]

/-- No number goes on where a value ends, and the closing words are no comma. -/
theorem IsClear.stops (h : listing.IsClear) :
    (∀ rest, Json.Stops (listing.after.toList ++ ([',', ' '] ++ rest)) ∧
      [',', ' '] ++ rest ≠ listing.closing.toList) ∧
      Json.Stops (listing.after.toList ++ listing.closing.toList) := by
  obtain ⟨opening, before, after, closing⟩ := listing
  simp only [IsClear, mem_cons, not_mem_nil, or_false] at h
  obtain ⟨rfl | rfl, rfl | rfl⟩ := h <;> simp [Json.Stops] <;> decide

/-- One value is read back from its text. -/
theorem values?_value (hs : Arktype.isSimple value) (hw : value.unwritable? = none)
    (h : Json.Stops (listing.after.toList ++ rest)) (fuel : Nat) :
    listing.values? (fuel + 1)
      (listing.before.toList ++ value.jsonText.toList ++ listing.after.toList ++ rest) =
      if rest = listing.closing.toList then some [value]
      else (Json.word? [',', ' '] rest).bind fun cs =>
        (listing.values? fuel cs).map (value :: ·) := by
  rw [append_assoc, append_assoc, values?]
  simp only [Option.bind_eq_bind, Option.bind_some, Json.value_jsonText hs hw h,
    Except.toOption, Json.word?_append]
  split
  · rfl
  · simp only [Option.map_eq_bind]
    rfl

/-- The values are read back from their text. -/
theorem values?_intercalate (hc : listing.IsClear)
    (hs : ∀ value ∈ values, Arktype.isSimple value)
    (hw : ∀ value ∈ values, value.unwritable? = none) (hn : values ≠ []) {fuel : Nat}
    (hf : values.length ≤ fuel) :
    listing.values? fuel ([',', ' '].intercalate (values.map fun value =>
      listing.before.toList ++ value.jsonText.toList ++ listing.after.toList) ++
        listing.closing.toList) = some values := by
  induction values generalizing fuel with
  | nil => exact absurd rfl hn
  | cons value values ih =>
    obtain ⟨hv, hvl⟩ := forall_mem_cons.mp hs
    obtain ⟨hv', hvl'⟩ := forall_mem_cons.mp hw
    obtain ⟨fuel, rfl⟩ : ∃ before, fuel = before + 1 := ⟨fuel - 1, by simp at hf; omega⟩
    cases values with
    | nil =>
      rw [map_cons, map_nil, intercalate_singleton, values?_value hv hv' hc.stops.2,
        if_pos rfl]
    | cons second values =>
      have hr := ih hvl hvl' (cons_ne_nil _ _) (by simpa using hf)
      rw [map_cons] at hr
      rw [map_cons, map_cons, intercalate_cons_cons, append_assoc _ _ (String.toList _),
        append_assoc _ [',', ' '], values?_value hv hv' (hc.stops.1 _).1,
        if_neg (hc.stops.1 _).2, Json.word?_append, Option.bind_some, hr]
      rfl

theorem length_le_length_intercalate (parts : List (List Char)) :
    parts.length ≤ ([',', ' '].intercalate parts).length + 1 := by
  induction parts with
  | nil => exact Nat.zero_le _
  | cons part rest ih =>
    cases rest with
    | nil => exact Nat.le_add_left ..
    | cons second rest =>
      rw [intercalate_cons_cons]
      simp only [length_append, length_cons, length_nil] at ih ⊢
      omega

/-- What is written with clear words is read back. -/
theorem read?_written (hc : listing.IsClear)
    (hs : ∀ value ∈ values, Arktype.isSimple value)
    (hw : ∀ value ∈ values, value.unwritable? = none) (hn : values ≠ []) :
    listing.read? (listing.written values) = some values := by
  have ht : (listing.written values).toList = listing.opening.toList ++
      ([',', ' '].intercalate (values.map fun value =>
        listing.before.toList ++ value.jsonText.toList ++ listing.after.toList) ++
        listing.closing.toList) := by
    simp [written, commaSeparated, String.toList_intercalate, Function.comp_def]
  rw [read?, ht, Json.word?_append]
  refine values?_intercalate hc hs hw hn ?_
  have hl := length_le_length_intercalate (values.map fun value =>
    listing.before.toList ++ value.jsonText.toList ++ listing.after.toList)
  rw [← String.length_toList, ht]
  simp only [length_map, length_append] at hl ⊢
  omega

end Listing

theorem Library.isClear (library : Library) : ∀ listing ∈ library.listings, listing.IsClear := by
  cases library <;> simp [listings, Listing.IsClear, Listing.array, Listing.arguments]

/-- Literals, with nothing or with a call around each of them, have the texts that are listed. -/
theorem renderAll_map
    (h : ∀ value, (write value).render depth = before ++ value.jsonText ++ after) :
    Expr.renderAll depth (values.map write) =
      values.map fun value => before ++ value.jsonText ++ after := by
  rw [Expr.renderAll_eq_map, map_map]
  exact map_congr_left fun value _ => h value

theorem render_arguments
    (h : ∀ value, (write value).render depth = before ++ value.jsonText ++ after)
    (function : String) : (Expr.apply function (values.map write)).render depth =
      (Listing.mk (function ++ "(") before after ")").written values := by
  simp only [Expr.apply, Expr.render, renderAll_map h, Listing.written]

theorem render_array
    (h : ∀ value, (write value).render depth = before ++ value.jsonText ++ after)
    (function : String) : (Expr.apply function [.array (values.map write)]).render depth =
      (Listing.array function before after).written values := by
  simp only [Expr.apply, Expr.render, Expr.renderAll, renderAll_map h, Listing.array,
    Listing.written, commaSeparated, String.intercalate_singleton, String.append_assoc]

theorem render_literal (value : Value) (depth : Nat) :
    (Expr.literal value).render depth = "" ++ value.jsonText ++ "" := by
  rw [String.append_empty]
  rfl

theorem Library.express_enumeration (library : Library) (scope : Scope) (hn : values ≠ []) :
    library.express scope (.enumeration values) =
      match Value.firstUnwritable? values with
      | none => .ok (match library with
        | .zod => Zod.enumeration values
        | .valibot => .apply "v.picklist" [.array (values.map .literal)]
        | .arktype => .apply "type.enumerated" (values.map .literal)
        | .effect => .apply "Schema.Literal" (values.map .literal))
      | some cause => .error (.valueNotWritable cause) := by
  have he : values.isEmpty = false := by simpa using hn
  cases library with
  | arktype =>
    rw [express, Arktype.express, Arktype.expressed, Arktype.enumerated, he]
    rfl
  | _ =>
    rw [express, Dialect.express, Dialect.enumerated, he]
    rfl

/-- An enumeration is written with words of the library that differ from the words before them. -/
theorem Library.exists_listing (library : Library) (scope : Scope) (hn : values ≠ [])
    (hw : Value.firstUnwritable? values = none) :
    ∃ expr, library.express scope (.enumeration values) = .ok expr ∧ ∃ before listing after,
      library.listings = before ++ listing :: after ∧
      (∀ depth, expr.render depth = listing.written values) ∧
        ∀ other ∈ before, other.read? (listing.written values) = none := by
  refine ⟨_, by rw [library.express_enumeration scope hn, hw], ?_⟩
  cases library with
  | zod =>
    dsimp only
    unfold Zod.enumeration
    split
    · exact ⟨[], _, _, rfl, fun depth => render_array (render_literal · depth) "z.enum", by simp⟩
    · split
      · exact ⟨[_], _, _, rfl,
          fun depth => @render_arguments [_] _ _ _ depth (render_literal · depth) "z.literal", by
            simp [Listing.read?, Listing.written, Listing.array, Listing.arguments, Json.word?]⟩
      · exact ⟨[_, _], _, _, rfl, fun depth => render_array (fun value => rfl) "z.union", by
            simp [Listing.read?, Listing.written, Listing.array, Listing.arguments, Json.word?]⟩
  | valibot =>
    exact ⟨[], _, _, rfl, fun depth => render_array (render_literal · depth) "v.picklist", by simp⟩
  | arktype =>
    exact ⟨[], _, _, rfl, fun depth => render_arguments (render_literal · depth) "type.enumerated",
      by simp⟩
  | effect =>
    exact ⟨[], _, _, rfl, fun depth => render_arguments (render_literal · depth) "Schema.Literal",
      by simp⟩

/-- The first number that is too long is found among simple values. -/
theorem firstUnwritable?_eq_tooLong (hs : ∀ value ∈ values, Arktype.isSimple value) {n : Int}
    (hm : .atom (.int n) ∈ values) (hn : Numeral.isWritable n = false) :
    Value.firstUnwritable? values = some .tooLong := by
  induction values with
  | nil => cases hm
  | cons value values ih =>
    obtain ⟨hv, hvl⟩ := forall_mem_cons.mp hs
    rw [Value.firstUnwritable?]
    rcases mem_cons.mp hm with rfl | hm
    · rw [Value.unwritable?, Atom.unwritable?, hn]
      rfl
    · rw [ih hvl hm]
      -- What stands before it can be written, or is too long as well.
      cases value with
      | atom atom =>
        cases atom with
        | int m =>
          rw [Value.unwritable?, Atom.unwritable?]
          split <;> rfl
        | text _ | bool _ => rfl
        | _ => cases hv
      | _ => cases hv

/-- The text of an enumeration of simple values is read back, in every library. Only a whole number
with too many digits cannot be written. -/
theorem enumeration_is_read_back (library : Library) (scope : Scope) {values : List Value}
    (hne : values ≠ []) (hsimple : ∀ value ∈ values, Arktype.isSimple value) :
    ((∀ n, .atom (.int n) ∈ values → Numeral.isWritable n) →
      ∃ expr, library.express scope (.enumeration values) = .ok expr ∧
        ∀ depth, library.enumeration? (expr.render depth) = some values) ∧
    ∀ n, .atom (.int n) ∈ values → Numeral.isWritable n = false →
      library.express scope (.enumeration values) = .error (.valueNotWritable .tooLong) := by
  refine ⟨fun hints => ?_, fun n hm hn => ?_⟩
  · have hp : ∀ value ∈ values, value.isPlain := by
      intro value hv
      have hk := hsimple value hv
      cases value with
      | atom atom =>
        cases atom with
        | int n => exact hints n hv
        | text _ | bool _ => rfl
        | _ => cases hk
      | _ => cases hk
    obtain ⟨expr, he, before, listing, after, hl, ht, hb⟩ :=
      library.exists_listing scope hne (Value.firstUnwritable?_of_isPlain hp)
    refine ⟨expr, he, fun depth => ?_⟩
    have hr := Listing.read?_written (library.isClear listing (by simp [hl])) hsimple
      (fun value hv => Value.unwritable?_of_isPlain (hp value hv)) hne
    rw [Library.enumeration?, hl, ht, findSome?_append, findSome?_eq_none_iff.mpr hb,
      findSome?_cons, hr]
    rfl
  · rw [library.express_enumeration scope hne, firstUnwritable?_eq_tooLong hsimple hm hn]

theorem tricky_enumeration_is_read_back :
    let values : List Value := [.atom (.text "\"), z.literal(\\"), .atom (.int (-3)),
      .atom (.bool true)]
    ∃ expr, Library.zod.express ⟨[], []⟩ (.enumeration values) = .ok expr ∧
      ∀ depth, Library.zod.enumeration? (expr.render depth) = some values := by
  refine (enumeration_is_read_back .zod ⟨[], []⟩ (cons_ne_nil _ _) (by decide)).1 fun n hn => ?_
  obtain rfl : n = -3 := by simpa using hn
  decide +kernel

end ApiSchema
