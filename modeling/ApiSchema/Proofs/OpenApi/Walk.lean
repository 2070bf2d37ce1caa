/-
# The walk through a document

The rules by which references are followed and replaced, without any bound: an alias is followed to
the part it stands for, a place is settled, and a walk goes through the places of a node and below
them. Following references and walking end on every document, and the outcome is the one that is
computed: the bounds on the depth are never reached.
-/
import ApiSchema.OpenApi.Reference
import ApiSchema.Proofs.Graph
import ApiSchema.Proofs.Remaining

namespace ApiSchema.OpenApi

open List

variable {graph : Graph} {item : Item} {pointer : String} {state state' : Replacing} {id fuel : ℕ}

/-! ## Following references -/

/-- Follows references from an item until there is none. `seen` are the pointers met on the way from
`start`; a pointer that comes back is a fault. -/
inductive Follows (graph : Graph) (start : String) :
    List String → Item → Except ReferenceError Item → Prop
  | arrived {seen : List String} {item : Item} (h : pointer? graph item = none) :
      Follows graph start seen item (.ok item)
  | circular {seen : List String} {item : Item} {pointer : String}
      (h : pointer? graph item = some pointer) (hseen : pointer ∈ seen) :
      Follows graph start seen item (.error (.circular start))
  | lost {seen : List String} {item : Item} {pointer : String} {error : ReferenceError}
      (h : pointer? graph item = some pointer) (hnew : pointer ∉ seen)
      (htarget : target graph pointer = .error error) : Follows graph start seen item (.error error)
  | next {seen : List String} {item part : Item} {pointer : String}
      {outcome : Except ReferenceError Item} (h : pointer? graph item = some pointer)
      (hnew : pointer ∉ seen) (htarget : target graph pointer = .ok part)
      (hrest : Follows graph start (pointer :: seen) part outcome) :
      Follows graph start seen item outcome

/-- The nodes with a pointer that has not been seen. -/
def unseen (graph : Graph) (seen : List String) : List ℕ :=
  (List.range graph.nodes.size).filter fun id =>
    (pointer? graph (.node id)).any fun pointer => !seen.contains pointer

/-- The pointer of a reference is in a node of the graph. -/
theorem exists_of_pointer? (h : pointer? graph item = some pointer) : ∃ id, item = .node id ∧
    id < graph.nodes.size := by
  cases item with
  | atom value => simp [pointer?, Graph.get?, Graph.map?, Graph.node?] at h
  | node id =>
    refine ⟨id, rfl, ?_⟩
    by_contra hl
    have hn : graph.nodes[id]? = none := Array.getElem?_eq_none (Nat.le_of_not_lt hl)
    simp [pointer?, Graph.get?, Graph.map?, Graph.node?, hn] at h

/-- Once a pointer has been seen, there is a node less with a pointer that has not. -/
theorem length_unseen_cons_lt {seen : List String}
    (h : pointer? graph item = some pointer) (hn : pointer ∉ seen) :
    (unseen graph (pointer :: seen)).length < (unseen graph seen).length := by
  obtain ⟨id, rfl, hi⟩ := exists_of_pointer? h
  have hf : unseen graph (pointer :: seen) = (unseen graph seen).filter fun id =>
      (pointer? graph (.node id)).any fun pointer' => decide (pointer' ≠ pointer) := by
    rw [unseen, unseen, filter_filter]
    congr 1
    funext other
    cases pointer? graph (.node other) with
    | none => rfl
    | some pointer' => simp
  rw [hf, length_filter_lt_length_iff_exists]
  refine ⟨id, ?_, by simp [h]⟩
  rw [unseen, mem_filter, mem_range, h]
  exact ⟨hi, by simpa using hn⟩

/-- What is computed with enough depth is what following the references gives. -/
theorem follows_chase {start : String} : ∀ seen item, (unseen graph seen).length < fuel →
    Follows graph start seen item (chase graph start fuel seen item) := by
  induction fuel with
  | zero =>
    intro seen item hf
    omega
  | succ fuel ih =>
    intro seen item hf
    rw [chase]
    cases hp : pointer? graph item with
    | none => exact .arrived hp
    | some pointer =>
      dsimp only
      split
      · rename_i hs
        exact .circular hp (by simpa using hs)
      · rename_i hs
        have hn : pointer ∉ seen := by simpa using hs
        have hl := length_unseen_cons_lt hp hn
        cases ht : target graph pointer with
        | error error => exact .lost hp hn ht
        | ok part => exact .next hp hn ht (ih _ _ (by omega))

/-- Looks a pointer up and follows the references found there. -/
inductive Resolves (graph : Graph) (pointer : String) : Except ReferenceError Item → Prop
  | lost {error : ReferenceError} (h : target graph pointer = .error error) :
      Resolves graph pointer (.error error)
  | found {item : Item} {outcome : Except ReferenceError Item}
      (h : target graph pointer = .ok item)
      (hfollows : Follows graph pointer [pointer] item outcome) : Resolves graph pointer outcome

/-- Every pointer is resolved, with the outcome that is computed. -/
theorem resolves_resolve (graph : Graph) (pointer : String) :
    Resolves graph pointer (resolve graph pointer) := by
  rw [resolve]
  cases ht : target graph pointer with
  | error error => exact .lost ht
  | ok item =>
    refine .found ht (follows_chase _ _ ?_)
    have hl := length_filter_le
      (fun id => (pointer? graph (.node id)).any fun other => !([pointer].contains other))
      (List.range graph.nodes.size)
    rw [length_range] at hl
    exact Nat.lt_succ_of_le hl

/-! ## Settling places -/

/-- Settles a place: a reference is replaced by the part that its pointer leads to, which stays the
same once it is known. -/
inductive Settles (state : Replacing) (id position : ℕ) (item : Item) :
    Except ReferenceError (Item × Replacing) → Prop
  | kept (h : pointer? state.graph item = none) : Settles state id position item (.ok (item, state))
  | known {pointer : String} {part : Item} (h : pointer? state.graph item = some pointer)
      (hknown : Assoc.get? state.resolved pointer = some part) :
      Settles state id position item
        (.ok (part, { state with graph := state.graph.setAt id position part }))
  | found {pointer : String} {part : Item} (h : pointer? state.graph item = some pointer)
      (hnew : Assoc.get? state.resolved pointer = none)
      (hresolves : Resolves state.graph pointer (.ok part)) :
      Settles state id position item
        (.ok (part, { state with
          graph := state.graph.setAt id position part
          resolved := Assoc.put state.resolved pointer part }))
  | failed {pointer : String} {error : ReferenceError}
      (h : pointer? state.graph item = some pointer)
      (hnew : Assoc.get? state.resolved pointer = none)
      (hresolves : Resolves state.graph pointer (.error error)) :
      Settles state id position item (.error error)

/-- Every place is settled, with the outcome that is computed. -/
theorem settles_settle (state : Replacing) (id position : ℕ) (item : Item) :
    Settles state id position item (state.settle id position item) := by
  rw [Replacing.settle]
  cases hp : pointer? state.graph item with
  | none => exact .kept hp
  | some pointer =>
    dsimp only
    rw [Replacing.resolve]
    have hr := resolves_resolve state.graph pointer
    cases hk : Assoc.get? state.resolved pointer with
    | some part => exact .known hp hk
    | none =>
      cases hrs : resolve state.graph pointer with
      | error error =>
        rw [hrs] at hr
        exact .failed hp hk hr
      | ok part =>
        rw [hrs] at hr
        exact .found hp hk hr

/-! ## Walking -/

/-- What is left to do: to walk below an item, or through some places of a node. -/
inductive Task
  | item (item : Item)
  | places (id : ℕ) (rest : List (Item × ℕ))

/-- Walks below an item: a node is entered once, and each of its places is settled and then walked
below. -/
inductive Walks : Replacing → Task → Except ReferenceError Replacing → Prop
  | atom {state : Replacing} {value : Atom} : Walks state (.item (.atom value)) (.ok state)
  | again {state : Replacing} {id : ℕ} (h : id ∈ state.visited) :
      Walks state (.item (.node id)) (.ok state)
  | missing {state : Replacing} {id : ℕ} (h : state.graph.nodes[id]? = none) :
      Walks state (.item (.node id)) (.ok state)
  | enter {state : Replacing} {id : ℕ} {node : Node} {outcome : Except ReferenceError Replacing}
      (hnew : id ∉ state.visited) (hnode : state.graph.nodes[id]? = some node)
      (hplaces : Walks { state with visited := id :: state.visited }
        (.places id node.places.zipIdx) outcome) : Walks state (.item (.node id)) outcome
  | done {state : Replacing} {id : ℕ} : Walks state (.places id []) (.ok state)
  | failed {state : Replacing} {id position : ℕ} {item : Item} {rest : List (Item × ℕ)}
      {error : ReferenceError} (hsettles : Settles state id position item (.error error)) :
      Walks state (.places id ((item, position) :: rest)) (.error error)
  | failedBelow {state state' : Replacing} {id position : ℕ} {item part : Item}
      {rest : List (Item × ℕ)} {error : ReferenceError}
      (hsettles : Settles state id position item (.ok (part, state')))
      (hbelow : Walks state' (.item part) (.error error)) :
      Walks state (.places id ((item, position) :: rest)) (.error error)
  | next {state state' state'' : Replacing} {id position : ℕ} {item part : Item}
      {rest : List (Item × ℕ)} {outcome : Except ReferenceError Replacing}
      (hsettles : Settles state id position item (.ok (part, state')))
      (hbelow : Walks state' (.item part) (.ok state''))
      (hrest : Walks state'' (.places id rest) outcome) :
      Walks state (.places id ((item, position) :: rest)) outcome

theorem Settles.visited_eq {position : ℕ} {part : Item}
    (h : Settles state id position item (.ok (part, state'))) :
    state'.visited = state.visited ∧ state'.graph.nodes.size = state.graph.nodes.size := by
  cases h <;> simp [Graph.setAt]

/-- A walk only enters more nodes and adds none. -/
theorem Walks.visited_subset {task : Task}
    {outcome : Except ReferenceError Replacing} (h : Walks state task outcome) :
    ∀ final, outcome = .ok final → state.visited ⊆ final.visited ∧
      final.graph.nodes.size = state.graph.nodes.size := by
  induction h with
  | atom | again | missing | done =>
    rintro _ ⟨⟩
    exact ⟨fun _ hi => hi, rfl⟩
  | enter hnw hn hp ih =>
    intro final hf
    obtain ⟨hs, hsz⟩ := ih final hf
    exact ⟨fun _ hi => hs (mem_cons_of_mem _ hi), hsz⟩
  | failed | failedBelow => exact fun _ hf => nomatch hf
  | next hst hb hr ihbelow ihrest =>
    intro final hf
    obtain ⟨hv, hsz⟩ := hst.visited_eq
    obtain ⟨hs, hsz'⟩ := ihbelow _ rfl
    obtain ⟨hs', hs''⟩ := ihrest final hf
    rw [hv] at hs
    exact ⟨fun _ hi => hs' (hs hi), by omega⟩

/-- The nodes that have not been entered. -/
def unvisited (state : Replacing) : List ℕ :=
  remaining (List.range state.graph.nodes.size) state.visited

theorem length_unvisited_le (hsb : state.visited ⊆ state'.visited)
    (hs : state'.graph.nodes.size = state.graph.nodes.size) :
    (unvisited state').length ≤ (unvisited state).length := by
  rw [unvisited, hs]
  exact length_remaining_le _ hsb

theorem length_unvisited_cons_lt {node : Node}
    (hnw : id ∉ state.visited) (hn : state.graph.nodes[id]? = some node) :
    (unvisited { state with visited := id :: state.visited }).length <
      (unvisited state).length := by
  have hi : id < state.graph.nodes.size := (Array.getElem?_eq_some_iff.mp hn).1
  exact length_remaining_cons_lt (mem_range.mpr hi) hnw

/-- A walk through places is made of the walks below them. -/
theorem walks_foldlM (hb : ∀ state item, (unvisited state).length < fuel →
      Walks state (.item item) (replaceBelow fuel state item)) (rest : List (Item × ℕ)) :
    ∀ state, (unvisited state).length < fuel → Walks state (.places id rest) (rest.foldlM
        (fun state place => do
          let settled ← state.settle id place.2 place.1
          replaceBelow fuel settled.2 settled.1) state) := by
  induction rest with
  | nil => exact fun state _ => .done
  | cons place rest ih =>
    intro state hf
    obtain ⟨item, position⟩ := place
    rw [foldlM_cons]
    have hs := settles_settle state id position item
    cases hst : state.settle id position item with
    | error error =>
      rw [hst] at hs
      exact .failed hs
    | ok settled =>
      obtain ⟨part, state'⟩ := settled
      rw [hst] at hs
      obtain ⟨hv, hsz⟩ := hs.visited_eq
      have hl := length_unvisited_le (fun _ hi => hv ▸ hi) hsz
      have hw := hb state' part (by omega)
      show Walks state _ (replaceBelow fuel state' part >>= _)
      cases hr : replaceBelow fuel state' part with
      | error error =>
        rw [hr] at hw
        exact .failedBelow hs hw
      | ok state'' =>
        rw [hr] at hw
        obtain ⟨hsb, hs'⟩ := hw.visited_subset _ rfl
        have hl' := length_unvisited_le hsb hs'
        exact .next hs hw (ih state'' (by omega))

/-- What is computed with enough depth is the outcome of the walk. -/
theorem walks_replaceBelow : ∀ state item, (unvisited state).length < fuel →
    Walks state (.item item) (replaceBelow fuel state item) := by
  induction fuel with
  | zero =>
    intro state item hf
    omega
  | succ fuel ih =>
    intro state item hf
    cases item with
    | atom value => exact .atom
    | node id =>
      rw [replaceBelow]
      split
      · rename_i hv
        exact .again (by simpa using hv)
      · rename_i hv
        have hnw : id ∉ state.visited := by simpa using hv
        cases hn : state.graph.nodes[id]? with
        | none => exact .missing hn
        | some node =>
          have hl := length_unvisited_cons_lt hnw hn
          exact .enter hnw hn (walks_foldlM ih _ _ (by omega))

/-- The walk through a document ends, with the outcome that is computed. -/
theorem exists_walks_dereference : ∃ outcome, Walks ⟨graph, [],
    []⟩ (.item graph.root) outcome ∧ dereference graph = outcome.map (·.graph) := by
  have hw := walks_replaceBelow ⟨graph, [], []⟩ graph.root (by
    have hl := length_filter_le (fun id : ℕ => !([] : List ℕ).contains id)
      (List.range graph.nodes.size)
    rw [length_range] at hl
    exact Nat.lt_succ_of_le hl)
  refine ⟨_, hw, ?_⟩
  rw [dereference]
  cases replaceBelow (graph.nodes.size + 1) ⟨graph, [], []⟩ graph.root <;> rfl

end ApiSchema.OpenApi
