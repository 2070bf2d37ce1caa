/-
# Names that are asked for

Several claimants may ask for names, each in several roles. The first one to ask for a name in a
role is served, and stays the first when others ask after it.
-/
import Mathlib.Logic.Function.Basic

namespace ApiSchema

open List

section

variable {ω : Type} {claim? : ω → Option String} {claimants : List ω} {name : String} {claimant : ω}

/-- The first of some claimants that asks for a name. -/
def firstClaimant? (claim? : ω → Option String) (claimants : List ω) (name : String) : Option ω :=
  claimants.find? fun claimant => claim? claimant == some name

section

variable (h : firstClaimant? claim? claimants name = some claimant)
include h

theorem claim?_of_firstClaimant? : claim? claimant = some name := by
  simpa using find?_some h

theorem mem_of_firstClaimant? : claimant ∈ claimants :=
  mem_of_find?_eq_some h

end

theorem firstClaimant?_eq_some_iff : firstClaimant? claim? claimants name = some claimant ↔
      claim? claimant = some name ∧ ∃ before after, claimants = before ++ claimant :: after ∧
        ∀ earlier ∈ before, claim? earlier ≠ some name := by
  unfold firstClaimant?
  rw [find?_eq_some_iff_append]
  simp

end

/-! ## Asking one after the other -/

section

variable {ρ ω : Type} [DecidableEq ρ] {asked : ρ → List ω} {role role' : ρ} {claimant : ω}
  {claim? : ω → Option String} {name : String}

/-- One more claimant has asked in a role. -/
def ask (asked : ρ → List ω) (role : ρ) (claimant : ω) : ρ → List ω :=
  Function.update asked role (asked role ++ [claimant])

/-- Who has asked is the new one, in its role, or has asked before. -/
theorem of_mem_ask {other : ω} (h : other ∈ ask asked role claimant role') :
    other ∈ asked role' ∨ role' = role ∧ other = claimant := by
  unfold ask at h
  by_cases hr : role' = role
  · subst hr
    rw [Function.update_self] at h
    rcases mem_append.mp h with h | h
    · exact Or.inl h
    · exact Or.inr ⟨rfl, mem_singleton.mp h⟩
  · rw [Function.update_of_ne hr] at h
    exact Or.inl h

/-- Who has asked stays so when another one asks. -/
theorem mem_ask {other : ω} (h : other ∈ asked role') : other ∈ ask asked role claimant role' := by
  unfold ask
  by_cases hr : role' = role
  · subst hr
    rw [Function.update_self]
    exact mem_append_left _ h
  · rw [Function.update_of_ne hr]
    exact h

theorem mem_ask_self : claimant ∈ ask asked role claimant role := by
  unfold ask
  rw [Function.update_self]
  exact mem_append_right _ (mem_singleton_self _)

/-- The first claimant stays the first when another one asks. -/
theorem firstClaimant?_ask {first : ω} (h : firstClaimant? claim? (asked role') name = some first) :
    firstClaimant? claim? (ask asked role claimant role') name = some first := by
  unfold ask firstClaimant? at *
  by_cases hr : role' = role
  · subst hr
    rw [Function.update_self, find?_append, h]
    rfl
  · rw [Function.update_of_ne hr]
    exact h

theorem firstClaimant?_ask_self
    (hn : ∀ earlier ∈ asked role, claim? earlier ≠ some name)
    (hc : claim? claimant = some name) :
    firstClaimant? claim? (ask asked role claimant role) name = some claimant := by
  rw [ask, Function.update_self, firstClaimant?_eq_some_iff]
  exact ⟨hc, asked role, [], rfl, hn⟩

/-- The first claimant was the first before another one asked, or it is this one, whose name nobody
has asked for before. -/
theorem of_firstClaimant?_ask {first : ω}
    (h : firstClaimant? claim? (ask asked role claimant role') name = some first) :
    firstClaimant? claim? (asked role') name = some first ∨ role' = role ∧ first = claimant ∧
      claim? claimant = some name ∧ ∀ earlier ∈ asked role, claim? earlier ≠ some name := by
  by_cases hr : role' = role
  · subst hr
    have hc := claim?_of_firstClaimant? h
    unfold ask at h
    rw [Function.update_self] at h
    unfold firstClaimant? at h ⊢
    rw [find?_append, Option.or_eq_some_iff] at h
    rcases h with h | ⟨hn, h⟩
    · exact Or.inl h
    · obtain rfl : first = claimant := mem_singleton.mp (mem_of_find?_eq_some h)
      refine Or.inr ⟨rfl, rfl, hc, fun earlier he hs => ?_⟩
      exact find?_eq_none.mp hn earlier he (by simpa using hs)
  · unfold ask at h
    rw [Function.update_of_ne hr] at h
    exact Or.inl h

end

end ApiSchema
