/-
# Texts of translators

The text of a translator starts with a comment that names the collection, and then declares a
function whose name is made of the name of the collection. The name is written into the comment as
it is. So the comment ends where it should exactly if the name has no comment end in it, and the
function has an identifier for its name exactly if the words of the collection's name are of
characters of identifiers.
-/
import Mathlib.Data.List.Infix
import ApiSchema.Predicate
import ApiSchema.Proofs.PropertyKeys

namespace ApiSchema

open List

variable {cs ds rest : List Char} {c : Char}

/-! ## Comments -/

/-- The end of a comment. -/
def commentEnd : List Char := ['*', '/']

/-- What follows the first comment end. -/
def afterEnd? : List Char → Option (List Char)
  | [] => none
  | c :: cs => if commentEnd <+: c :: cs then some (cs.drop 1) else afterEnd? cs

/-- What follows the comment with which a text starts. -/
def afterComment? : List Char → Option (List Char)
  | '/' :: '*' :: cs => afterEnd? cs
  | _ => none

/-- A comment end that goes over a character that is not in it does not go over it. -/
theorem commentEnd_infix_append_cons_iff (h : c ∉ commentEnd) :
    commentEnd <:+: cs ++ c :: ds ↔ commentEnd <:+: cs ∨ commentEnd <:+: ds := by
  simp only [commentEnd, mem_cons, not_mem_nil, or_false, not_or] at h
  induction cs with
  | nil => simp [commentEnd, infix_cons_iff, cons_prefix_cons, Ne.symm h.1]
  | cons d cs ih =>
    rw [cons_append, infix_cons_iff, ih, infix_cons_iff, or_assoc]
    cases cs <;> simp [commentEnd, cons_prefix_cons, Ne.symm h.2]

/-- A text after which a comment ends is passed over exactly if no comment ends in it. -/
theorem afterEnd?_append_iff :
    afterEnd? (cs ++ commentEnd ++ rest) = some rest ↔ ¬ commentEnd <:+: cs := by
  induction cs with
  | nil => exact iff_of_true rfl (by simp [commentEnd])
  | cons c cs ih =>
    rw [cons_append, cons_append, afterEnd?, infix_cons_iff]
    split
    · rename_i he
      -- A comment that ends too early leaves more than the rest.
      obtain ⟨rfl, hn⟩ := cons_prefix_cons.mp he
      cases cs with
      | nil => simp [commentEnd] at hn
      | cons d cs =>
        obtain ⟨rfl, -⟩ := cons_prefix_cons.mp hn
        refine iff_of_false (fun heq => ?_) (not_not.mpr (Or.inl ⟨cs, rfl⟩))
        have hl := congrArg length (Option.some.inj heq)
        simp only [cons_append, drop_one, tail_cons, length_append, commentEnd,
          length_cons] at hl
        omega
    · rename_i he
      have hlt : ¬ commentEnd <+: c :: cs := fun her => he (her.trans ?_)
      · rw [ih, or_iff_right hlt]
      · rw [append_assoc]
        exact prefix_append ..

/-! ## Translators -/

namespace Predicate

/-- What the comment of a translator says about its wording. -/
def label : Wording → String
  | .restSimple => "query parameters"
  | .jsonApi => "JSON:API query parameters"
  | .hasura => "Hasura GraphQL variables"
  | .prisma => "Prisma GraphQL variables"

/-- The text of a translator after its comment. -/
def declared (collection : Collection) (rest : String) : String :=
  "\nfunction " ++ (translatorName collection ++ ("(\n\toptions?: LoadSubsetOptions\n): " ++ rest))

theorem exists_translatorText_eq (collection : Collection) (wording : Wording)
    (paramsType : Option String) (helpers : Bool) :
    ∃ rest, translatorText collection wording paramsType helpers =
      "/**\n * Translate collection predicates to " ++ (collection.name ++ (" " ++ (label wording ++
        ("\n */" ++ declared collection rest)))) := by
  cases wording <;> exact ⟨_, rfl⟩

/-- The comment before a function ends where it should exactly if the name that stands in it has no
comment end. -/
theorem afterComment?_translatorText_iff (collection : Collection) (wording : Wording)
    (after : String) :
    afterComment? ("/**\n * Translate collection predicates to " ++ (collection.name ++ (" " ++
        (label wording ++ ("\n */" ++ after))))).toList = some after.toList ↔
      ¬ commentEnd <:+: collection.name.toList := by
  have ht : ("/**\n * Translate collection predicates to " ++ (collection.name ++ (" " ++
      (label wording ++ ("\n */" ++ after))))).toList = '/' :: '*' ::
        ("*\n * Translate collection predicates to".toList ++ ' ' :: (collection.name.toList ++
          ' ' :: (label wording ++ "\n ").toList) ++ commentEnd ++ after.toList) := by
    simp [commentEnd]
  have hl : ¬ commentEnd <:+: (label wording ++ "\n ").toList := by
    cases wording <;> decide
  rw [ht, afterComment?, afterEnd?_append_iff, commentEnd_infix_append_cons_iff (by decide),
    commentEnd_infix_append_cons_iff (by decide), or_iff_left hl, or_iff_right (by decide)]

/-- The name of a translator is an identifier exactly if the words of the collection's name are of
characters of identifiers. -/
theorem isIdentifier_translatorName_iff (collection : Collection) :
    Name.isIdentifier (translatorName collection) ↔
      Name.hasPresentableWords true collection.name.toList := by
  have ht : (translatorName collection).toList =
      "translate".toList ++ Name.pascalChars collection.name.toList ++ "Predicates".toList := by
    have hw : (Name.pascalCase collection.name).toList = _ := String.toList_ofList
    rw [translatorName, String.toList_append, String.toList_append, hw]
  have hs : ¬ Name.IsBroken (translatorName collection) := by
    rintro ⟨stem, -, hst⟩
    have hl := congrArg (fun name => name.toList.getLast?) hst
    simp only [ht, String.toList_append] at hl
    rw [getLast?_append_of_ne_nil _ (by decide), getLast?_append_of_ne_nil _ (by decide)] at hl
    exact absurd hl (by decide)
  have he : "translate".toList.all Name.isIdentifierPart ∧
      "Predicates".toList.all Name.isIdentifierPart := by
    decide
  rw [Name.isIdentifier_iff, or_iff_left hs, ← Name.pascalChars_spec.1, Name.isExportable,
    ht, all_append, all_append, he.2, Bool.and_true]
  exact Bool.and_eq_true_iff.trans (and_iff_right (by decide : Name.isIdentifierStart 't'))

/-- The text of a translator starts with a comment, which is followed by the declaration of the
function. The function has an identifier for its name exactly if the words of the collection's name
are of characters of identifiers, and the comment ends where it should exactly if the collection's
name has no comment end in it. -/
theorem translator_is_well_formed_iff (collection : Collection) (paramsType : Option String)
    (source : Source) (helpers : Bool) :
    ∃ rest, (translator collection paramsType source helpers).content =
        "/**\n * Translate collection predicates to " ++ (collection.name ++ (" " ++
          (label (translator collection paramsType source helpers).wording ++
            ("\n */" ++ declared collection rest)))) ∧
      (Name.isIdentifier (translatorName collection) ↔
        Name.hasPresentableWords true collection.name.toList) ∧
      (afterComment? (translator collection paramsType source helpers).content.toList =
          some (declared collection rest).toList ↔
        ¬ commentEnd <:+: collection.name.toList) := by
  obtain ⟨rest, hc⟩ : ∃ rest, (translator collection paramsType source helpers).content =
      "/**\n * Translate collection predicates to " ++ (collection.name ++ (" " ++
        (label (translator collection paramsType source helpers).wording ++
          ("\n */" ++ declared collection rest)))) := by
    rw [translator]
    split
    · exact exists_translatorText_eq ..
    · exact exists_translatorText_eq ..
  refine ⟨rest, hc, isIdentifier_translatorName_iff collection, ?_⟩
  rw [hc]
  exact afterComment?_translatorText_iff ..

/-- The name `users*/` ends the comment, and the name of its function is no identifier. -/
theorem users_end_comment : Name.isIdentifier (translatorName { name := "users*/" }) = false ∧
      ∃ rest, afterComment? (translator { name := "users*/" } none .openApi true).content.toList =
        some (" query parameters\n */" ++ rest).toList := by
  obtain ⟨rest, hc⟩ := exists_translatorText_eq { name := "users*/" } .restSimple none true
  refine ⟨by decide +kernel, declared { name := "users*/" } rest, ?_⟩
  have ht : (translator { name := "users*/" } none .openApi true).content.toList = '/' :: '*' ::
      ("*\n * Translate collection predicates to users".toList ++ commentEnd ++
        (" query parameters\n */" ++ declared { name := "users*/" } rest).toList) := by
    change (translatorText { name := "users*/" } .restSimple none true).toList = _
    rw [hc]
    simp [commentEnd, label]
  rw [ht]
  exact afterEnd?_append_iff.mpr (by decide)

end Predicate

end ApiSchema
