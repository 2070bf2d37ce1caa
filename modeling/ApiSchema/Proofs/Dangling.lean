/-
# Dangling names

No name dangles in a list of entries if every name that occurs in an entry is the name of an entry.
While entries are still being made, a name may instead be promised: its entry comes later. Once no
promise is open, ordering the entries leaves no dangling name.
-/
import ApiSchema.Proofs.Order

namespace ApiSchema

open List

variable {name : String} {entries : List Entry} {promised : List String}

/-- Each entry has a name of its own, and every name that occurs in an entry, as a reference or as a
spread fragment at any depth of its schema or among its dependencies, is the name of an entry. -/
structure NoDangling (entries : List Entry) : Prop where
  distinct : (entries.map (·.name)).Nodup
  references : ∀ entry ∈ entries, ∀ name, Schema.Part (.ref name) entry.schema →
    name ∈ entries.map (·.name)
  spreads : ∀ entry ∈ entries, ∀ fields undeclared spreads,
    Schema.Part (.object fields undeclared spreads) entry.schema →
      ∀ name ∈ spreads, name ∈ entries.map (·.name)
  dependencies : ∀ entry ∈ entries, ∀ name ∈ entry.dependencies, name ∈ entries.map (·.name)

/-! ## Promised names -/

/-- The name has an entry, or one is promised. -/
def Provided (entries : List Entry) (promised : List String) (name : String) : Prop :=
  name ∈ entries.map (·.name) ∨ name ∈ promised

theorem Provided.of_promised {promised' : List String}
    (h : ∀ name ∈ promised, Provided entries promised' name)
    (hn : Provided entries promised name) : Provided entries promised' name := by
  rcases hn with he | hp
  · exact Or.inl he
  · exact h name hp

theorem Provided.append (h : Provided entries promised name) (more : List Entry) :
    Provided (entries ++ more) promised name := by
  refine h.imp (fun he => ?_) id
  rw [map_append]
  exact mem_append_left _ he

/-- Every name that occurs in an entry is provided, and so are the names in `known`. -/
structure Closed (entries : List Entry) (promised known : List String) : Prop where
  mentioned : ∀ entry ∈ entries, ∀ name ∈ entry.schema.mentions, Provided entries promised name
  depended : ∀ entry ∈ entries, ∀ name ∈ entry.dependencies, Provided entries promised name
  known : ∀ name ∈ known, Provided entries promised name

namespace Closed

variable {entries : List Entry} {promised promised' queue awaited known known' : List String}

theorem nil : Closed [] promised [] :=
  ⟨by simp, by simp, by simp⟩

section

variable (h : Closed entries promised known)
include h

theorem mono (hs : known' ⊆ known) : Closed entries promised known' :=
  ⟨h.mentioned, h.depended, fun name hn => h.known name (hs hn)⟩

theorem cons
    (hn : Provided entries promised name) : Closed entries promised (name :: known) := by
  refine ⟨h.mentioned, h.depended, ?_⟩
  intro other ho
  rcases mem_cons.mp ho with rfl | ho
  · exact hn
  · exact h.known other ho

/-- Promises may be passed on. -/
theorem of_promised (hp : ∀ name ∈ promised, Provided entries promised' name) :
    Closed entries promised' known where
  mentioned entry he name hn :=
    Provided.of_promised hp (h.mentioned entry he name hn)
  depended entry he name hn :=
    Provided.of_promised hp (h.depended entry he name hn)
  known name hn := Provided.of_promised hp (h.known name hn)

/-- More promises may be made. -/
theorem promise (hs : promised ⊆ promised') : Closed entries promised' known :=
  h.of_promised fun _ hn => Or.inr (hs hn)

end

theorem await (h : Closed entries (queue ++ awaited) known) (name : String) :
    Closed entries (queue ++ name :: awaited) known :=
  h.promise fun other => by simp +contextual [or_imp]

/-- A name that has an entry need no longer be awaited. -/
theorem keep (h : Closed entries (queue ++ name :: awaited) known)
    (hn : name ∈ entries.map (·.name)) : Closed entries (queue ++ awaited) known := by
  refine h.of_promised fun other ho => ?_
  rcases mem_append.mp ho with ho | ho
  · exact Or.inr (mem_append_left _ ho)
  · rcases mem_cons.mp ho with rfl | ho
    · exact Or.inl hn
    · exact Or.inr (mem_append_right _ ho)

theorem push (h : Closed entries (queue ++ awaited) known) (name : String) :
    Closed entries (queue ++ [name] ++ awaited) (name :: known) := by
  refine cons ?_ (Or.inr (by simp))
  rw [append_assoc]
  exact h.await name

/-- A name that is taken out of the queue is awaited. -/
theorem pop (h : Closed entries (name :: queue ++ awaited) known) :
    Closed entries (queue ++ name :: awaited) known :=
  h.promise perm_middle.symm.subset

/-- An entry whose names are provided may be added, and its name is no longer awaited. -/
theorem add {schema : Schema} {extra : List String}
    (h : Closed entries (queue ++ name :: awaited) (schema.mentions ++ known))
    (hex : ∀ other ∈ extra, Provided entries (queue ++ name :: awaited) other)
    (category : Category) :
    Closed (entries ++ [Entry.of name schema category extra]) (queue ++ awaited) known := by
  -- First the name stays awaited, also for the new entry itself, which may refer to itself.
  have hm : ∀ other, Provided entries (queue ++ name :: awaited) other →
      Provided (entries ++ [Entry.of name schema category extra]) (queue ++ name :: awaited)
        other := fun other ho => ho.append _
  have ha : Closed (entries ++ [Entry.of name schema category extra])
      (queue ++ name :: awaited) known := by
    refine ⟨?_, ?_, ?_⟩
    · refine forall_mem_concat (fun entry he other ho =>
        hm other (h.mentioned entry he other ho)) fun other ho => ?_
      exact hm other (h.known other (mem_append_left _ ho))
    · refine forall_mem_concat (fun entry he other ho =>
        hm other (h.depended entry he other ho)) fun other ho => ?_
      rcases ((Entry.mem_dependencies_of ..).mp ho).1 with hmn | hi
      · exact hm other (h.known other (mem_append_left _ hmn))
      · exact hm other (hex other hi)
    · intro other ho
      exact hm other (h.known other (mem_append_right _ ho))
  exact ha.keep (by simp [Entry.of])

/-- Once no promise is open, no name dangles in the ordered entries. -/
theorem noDangling (h : Closed entries [] known) : NoDangling (topologicalSort entries) := by
  -- Ordering keeps the names, so what is provided has an entry in the result.
  have hn : ∀ name, Provided entries [] name →
      name ∈ (topologicalSort entries).map (·.name) := by
    rintro name (he | hpr)
    · exact (mem_names_topologicalSort entries name).mpr he
    · exact absurd hpr (by simp)
  refine ⟨nodup_names_topologicalSort entries, ?_, ?_, ?_⟩
  · intro entry he name hp
    exact hn name
      (h.mentioned entry (mem_of_mem_topologicalSort he) name hp.ref_mem_mentions)
  · intro entry he fields undeclared spreads hp name hnm
    exact hn name (h.mentioned entry (mem_of_mem_topologicalSort he) name
      (hp.spread_mem_mentions hnm))
  · intro entry he name hnm
    exact hn name (h.depended entry (mem_of_mem_topologicalSort he) name hnm)

end Closed

end ApiSchema
