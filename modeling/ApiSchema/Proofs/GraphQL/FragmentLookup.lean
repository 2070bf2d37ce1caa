/-
# Documents with the same fragments

Of the documents of a setting, the making of entries looks only at which fragment is found under a
name, and the depth of selections is bounded by the size of the documents. So with other documents
that find the same fragments and are not smaller, every entry that comes about with these comes
about in the same way.
-/
import ApiSchema.Proofs.GraphQL.Variation

namespace ApiSchema.GraphQL

/-- Under every name the documents find the fragment that others find, and they are not smaller. -/
structure Documents.Includes (documents others : Documents) : Prop where
  fragment? : documents.fragment? = others.fragment?
  size : others.size ≤ documents.size
  fragments : others.fragments.length ≤ documents.fragments.length

/-- More documents allow for no less depth. -/
theorem Documents.Includes.depth_le {setting : Setting} {documents : Documents}
    (h : documents.Includes setting.documents) : setting.depth ≤ (setting.on documents).depth := by
  have hs := h.size
  have hf := h.fragments
  unfold Setting.depth
  dsimp only
  refine Nat.mul_le_mul_right _ (Nat.mul_le_mul (Nat.mul_le_mul ?_ ?_) ?_) <;> omega

section

variable {setting : Setting} {documents : Documents}

variable (hincludes : documents.Includes setting.documents)

include hincludes

/-- A schema stays as it is when documents are added. -/
theorem refines_schemaOf (merging : List String) (type : NamedType) (selections : List Selection) :
    Refines (schemaOf setting merging type selections)
      (schemaOf (setting.on documents) merging type selections) := by
  rintro start ⟨schema, final⟩ hrn
  obtain ⟨notes, hr, rfl⟩ := (gives_schemaOf merging setting type selections).of_run hrn
  obtain ⟨hr', -⟩ := (variation_of_fragment? hincludes.fragment? _).of_readSchema
    hincludes.depth_le trivial hr
  rw [(gives_schemaOf merging (setting.on documents) type selections).run start rfl, hr']
  rfl

theorem refines_addFragmentEntry {fragment : SourcedFragment} :
    Refines (addFragmentEntry setting fragment)
      (addFragmentEntry (setting.on documents) fragment) := by
  unfold addFragmentEntry
  dsimp only
  split
  · exact .refl _
  · split
    · exact .refl _
    · refine (Refines.refl _).bind fun progress => ?_
      split
      · exact (refines_schemaOf hincludes _ _ _).bind fun _ => .refl _
      · exact .refl _

/-- A fragment is added as before, with no less fuel. -/
theorem refines_addFragment (fuel : ℕ) : ∀ fuel' opened fragment, fuel ≤ fuel' →
    Refines (addFragment setting fuel opened fragment)
      (addFragment (setting.on documents) fuel' opened fragment) := by
  induction fuel with
  | zero => exact fun _ _ _ _ => refines_throw _ _
  | succ fuel ih =>
    rintro (_ | fuel') opened fragment hl
    · omega
    · refine (Refines.refl _).bind fun progress => ?_
      split
      · exact .refl _
      · rw [hincludes.fragment?]
        exact (refines_forM _ fun spread _ => ih fuel' _ spread (by omega)).bind fun _ =>
          refines_addFragmentEntry hincludes

/-- A response is added as before. -/
theorem refines_addResponse {operation : NamedOperation} :
    Refines (addResponse setting operation) (addResponse (setting.on documents) operation) := by
  unfold addResponse
  dsimp only
  split
  · exact .refl _
  · refine (Refines.refl _).bind fun progress => ?_
    split
    · exact (refines_schemaOf hincludes _ _ _).bind fun _ => .refl _
    · exact .refl _

omit hincludes

/-- Queued types do not depend on the documents. -/
theorem addPending_on (documents : Documents) (fuel : ℕ) :
    addPending (setting.on documents) fuel = addPending setting fuel := by
  induction fuel with
  | zero => rfl
  | succ fuel ih =>
    rw [addPending, ih]
    rfl

end

end ApiSchema.GraphQL
