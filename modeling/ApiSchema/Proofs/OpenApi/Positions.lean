/-
# Positions in lists

A token of digits asks a list for a position. If the list is too short, or if the digits give no
number, references cannot be replaced, and the fault does not name the pointer. Every other fault
does. Since a pointer is looked up while references are replaced, this is about all that may come to
stand in the places of the document.
-/
import ApiSchema.Proofs.OpenApi.Dereference

namespace ApiSchema.OpenApi

open List

variable {outcome : Except ReferenceError Item} {graph origin : Graph} {item part : Item}
  {pointer token : String} {state : Replacing} {tokens : List String} {error : ReferenceError}
  {α : Type}

/-! ## Faults -/

/-- Whether the fault names a pointer of the document. -/
def ReferenceError.namesPointer : ReferenceError → Bool
  | .external _ | .unresolvable _ | .circular _ => true
  | .pastEnd | .notANumber _ => false

/-- A token of digits is no position of a list of the given length, and the fault says why. -/
inductive Misses (length : ℕ) (token : String) : ReferenceError → Prop
  | pastEnd {position : Int} (hread : Numeral.whole .decimal token.toList = .ok position)
      (hlength : length ≤ position.toNat) : Misses length token .pastEnd
  | notANumber {fault : Numeral.Fault}
      (hdigits : token.toList.all Text.isDigitOfAnyScript = true)
      (hread : Numeral.whole .decimal token.toList = .error fault) :
      Misses length token (.notANumber fault)

/-- A step fails without the name of the pointer only at a list, which has no such position. -/
theorem misses_of_step (h : step graph pointer item token = .error error) : error.namesPointer ∨
    ∃ items, graph.list? item = some items ∧ Misses items.length token error := by
  unfold step at h
  dsimp only at h
  split at h
  · rename_i items hn
    split at h
    · rename_i hd
      refine Or.inr ⟨items, by rw [Graph.list?, hn], ?_⟩
      split at h
      · rename_i fault hr
        cases h
        exact .notANumber (Bool.and_eq_true_iff.mp hd).2 hr
      · rename_i position hr
        split at h
        · cases h
        · rename_i hp
          cases h
          exact .pastEnd hr (getElem?_eq_none_iff.mp hp)
    · cases h
      exact Or.inl rfl
  · split at h
    · cases h
    · cases h
      exact Or.inl rfl
  · cases h
    exact Or.inl rfl

/-- A list is as long in a graph of the same shape. -/
theorem list?_of_sameShape (h : origin.SameShape graph) {items : List Item}
    (hi : graph.list? item = some items) :
    ∃ items', origin.list? item = some items' ∧ items'.length = items.length := by
  cases item with
  | atom value => cases hi
  | node id =>
    unfold Graph.list? at hi ⊢
    split at hi
    · rename_i list hn
      cases hi
      obtain ⟨node, hn', hs⟩ := h.symm.exists_node hn
      have hl := Node.length_places_of_shape hs
      cases node with
      | list items => exact ⟨items, by rw [Graph.node?, hn'], hl⟩
      | _ => simp [Node.shape] at hs
    · cases hi

/-! ## What may come about -/

mutual

/-- The tokens, the last one first, may lead from the start of the document to an item. -/
inductive MayReach (graph : Graph) : List String → Item → Prop
  | start : MayReach graph [] graph.root
  | step {path : List String} {token : String} {item next part : Item} {id k : ℕ}
      (hpath : MayReach graph path item) (hslot : slot? graph token item = some (id, k))
      (hplace : graph.place? id k = some next) (hstands : MayStand graph next part) :
      MayReach graph (token :: path) part

/-- The second item may come to stand where the first one stands. -/
inductive MayStand (graph : Graph) : Item → Item → Prop
  | same (item : Item) : MayStand graph item item
  | replaced {item middle part : Item} {pointer : String} {tokens : List String}
      (hpoint : MayPoint graph item pointer) (htokens : pointerTokens? pointer = some tokens)
      (hreach : MayReach graph tokens.reverse middle) (hrest : MayStand graph middle part) :
      MayStand graph item part

/-- The item may become a reference with the pointer. -/
inductive MayPoint (graph : Graph) : Item → String → Prop
  | mk {item next : Item} {pointer : String} {id k : ℕ}
      (hslot : slot? graph "$ref" item = some (id, k)) (hplace : graph.place? id k = some next)
      (hstands : MayStand graph next (.text pointer)) : MayPoint graph item pointer

end

theorem MayStand.trans : ∀ {first second third : Item},
    MayStand graph first second → MayStand graph second third → MayStand graph first third
  | _, _, _, .same _, h => h
  | _, _, _, .replaced hp ht hr hrs, h =>
    .replaced hp ht hr (hrs.trans h)

/-- A pointer that may come about asks a list that it may lead to for a position that is missing. -/
def Amiss (graph : Graph) (error : ReferenceError) : Prop :=
  ∃ item pointer path token rest list items, MayPoint graph item pointer ∧
    pointerTokens? pointer = some (path.reverse ++ token :: rest) ∧ MayReach graph path list ∧
      graph.list? list = some items ∧ Misses items.length token error

/-- The outcome is a result with a property, or a fault that names a pointer or says what is
amiss. -/
def Accounts (graph : Graph) (holds : α → Prop) : Except ReferenceError α → Prop
  | .ok result => holds result
  | .error error => error.namesPointer = true ∨ Amiss graph error

/-- What may have come about during the walk. -/
structure Possible (origin : Graph) (state : Replacing) : Prop where
  shape : origin.SameShape state.graph
  places : origin.Traces (MayStand origin) state.graph
  resolved : ∀ pointer part, Assoc.get? state.resolved pointer = some part →
    ∀ item, MayPoint origin item pointer → MayStand origin item part

namespace Possible

variable (h : Possible origin state)

include h

theorem mayPoint (hp : pointer? state.graph item = some pointer) :
    MayPoint origin item pointer := by
  obtain ⟨id, k, hs, hpl⟩ := (pointer?_eq_some_iff ..).mp hp
  obtain ⟨next, hn, hst⟩ := h.places.exists_origin h.shape hpl
  rw [slot?_of_sameShape h.shape] at hs
  exact .mk hs hn hst

/-- The rest of the tokens leads to what may come to stand in place of the reference. -/
theorem descends {path rest : List String} {found : Item} (hp : MayPoint origin item pointer)
    (ht : pointerTokens? pointer = some (path.reverse ++ rest))
    (hr : MayReach origin path found) :
    Accounts origin (MayStand origin item) (rest.foldlM (step state.graph pointer) found) := by
  induction rest generalizing path found with
  | nil =>
    refine .replaced hp ht ?_ (.same found)
    rwa [append_nil, reverse_reverse]
  | cons token rest ih =>
    rw [foldlM_cons]
    cases hst : step state.graph pointer found token with
    | error error =>
      refine (misses_of_step hst).imp id ?_
      rintro ⟨items, hi, hm⟩
      obtain ⟨items', hi', hl⟩ := list?_of_sameShape h.shape hi
      exact ⟨item, pointer, path, token, rest, found, items', hp, ht, hr, hi',
        hl ▸ hm⟩
    | ok next =>
      obtain ⟨id, k, hs, hpl⟩ := (step_eq_ok_iff ..).mp hst
      obtain ⟨first, hf, hsta⟩ := h.places.exists_origin h.shape hpl
      rw [slot?_of_sameShape h.shape] at hs
      refine ih ?_ (.step hr hs hf hsta)
      rw [ht, reverse_cons, append_assoc, singleton_append]

theorem target (hp : MayPoint origin item pointer) :
    Accounts origin (MayStand origin item) (target state.graph pointer) := by
  unfold OpenApi.target
  cases ht : pointerTokens? pointer with
  | none => exact Or.inl rfl
  | some tokens =>
    rw [h.shape.root]
    exact h.descends hp (ht.trans rfl) .start

theorem follows {start : String} {seen : List String}
    (hf : Follows state.graph start seen item outcome) :
    Accounts origin (MayStand origin item) outcome := by
  induction hf with
  | arrived => exact .same _
  | circular => exact Or.inl rfl
  | lost hp _ ht => exact ht ▸ h.target (h.mayPoint hp)
  | @next _ item part pointer outcome hp _ ht _ ih =>
    have hs : MayStand origin item part := by
      have ha := h.target (h.mayPoint hp)
      rwa [ht] at ha
    cases outcome with
    | ok last => exact hs.trans ih
    | error error => exact ih

theorem resolves (hp : MayPoint origin item pointer)
    (hr : Resolves state.graph pointer outcome) :
    Accounts origin (MayStand origin item) outcome := by
  have ht := h.target hp
  cases hr with
  | lost hl => rwa [hl] at ht
  | found hfn hf =>
    rw [hfn] at ht
    have hrs := h.follows hf
    cases outcome with
    | ok part => exact ht.trans hrs
    | error error => exact hrs

/-- Settling a place brings into it what may come to stand there. -/
theorem settles {id k : ℕ} {first : Item} {outcome : Except ReferenceError (Item × Replacing)}
    (hf : origin.place? id k = some first) (hst : MayStand origin first item)
    (hs : Settles state id k item outcome) :
    Accounts origin (fun settled => Possible origin settled.2) outcome := by
  have hse : ∀ {part resolved}, MayStand origin item part →
      (∀ pointer part, Assoc.get? resolved pointer = some part →
        ∀ item, MayPoint origin item pointer → MayStand origin item part) →
      Possible origin ⟨state.graph.setAt id k part, resolved, state.visited⟩ :=
    fun hpr hrs => ⟨h.shape.setAt id k _, h.places.setAt hf (hst.trans hpr),
      hrs⟩
  cases hs with
  | kept => exact h
  | @known pointer part hp hk =>
    exact hse (h.resolved pointer part hk item (h.mayPoint hp)) h.resolved
  | @found pointer part hp hn hr =>
    exact hse (h.resolves (h.mayPoint hp) hr)
      (Assoc.forall_get?_put h.resolved fun _ ho => h.resolves ho hr)
  | failed hp _ hr => exact h.resolves (h.mayPoint hp) hr

end Possible

/-- What a walk has still to settle may have come to stand there. -/
def Task.Foreseen (origin : Graph) : Task → Prop
  | .item _ => True
  | .places id rest => ∀ place ∈ rest, ∃ first, origin.place? id place.2 = some first ∧
      MayStand origin first place.1

theorem Walks.accounts {task : Task} {outcome : Except ReferenceError Replacing}
    (h : Walks state task outcome) :
    Possible origin state → task.Foreseen origin → Accounts origin (Possible origin) outcome := by
  induction h with
  | atom | again | missing | done => exact fun hp _ => hp
  | @enter state id node outcome hnw hn hpla ih =>
    intro hp _
    refine ih ⟨hp.shape, hp.places, hp.resolved⟩ fun place hpl => ?_
    refine hp.places.exists_origin hp.shape ?_
    rw [Graph.place?, hn]
    exact mem_zipIdx_iff_getElem?.mp hpl
  | failed hs =>
    intro hp hf
    obtain ⟨first, hfr, hst⟩ := hf _ (mem_cons_self ..)
    exact hp.settles hfr hst hs
  | failedBelow hs hb ih =>
    intro hp hf
    obtain ⟨first, hfr, hst⟩ := hf _ (mem_cons_self ..)
    exact ih (hp.settles hfr hst hs) trivial
  | next hs hb hr ihbelow ihrest =>
    intro hp hf
    obtain ⟨first, hfr, hst⟩ := hf _ (mem_cons_self ..)
    exact ihrest (ihbelow (hp.settles hfr hst hs) trivial)
      (forall_mem_cons.mp hf).2

/-- Replacing the references of a document ends. It gives a document, or a fault that names a
pointer, or one that tells which position is missing in a list. -/
theorem dereference_accounts (graph : Graph) :
    (∃ outcome, Walks ⟨graph, [], []⟩ (.item graph.root) outcome ∧
      dereference graph = outcome.map (·.graph)) ∧
    ((∃ result, dereference graph = .ok result) ∨ ∃ error, dereference graph = .error error ∧
        (error.namesPointer = true ∨ Amiss graph error)) := by
  obtain ⟨outcome, hw, ho⟩ := exists_walks_dereference
  refine ⟨⟨outcome, hw, ho⟩, ?_⟩
  have hs : Possible graph ⟨graph, [], []⟩ :=
    ⟨.refl graph, .refl graph .same, by simp⟩
  have ha := hw.accounts hs trivial
  rw [ho]
  cases outcome with
  | ok final => exact Or.inl ⟨final.graph, rfl⟩
  | error error => exact Or.inr ⟨error, rfl, ha⟩

/-- A document with one pet in a list and a reference with the pointer. -/
def listedPet (pointer : String) : Graph where
  nodes := #[.map [(.text "pets", .node 1), (.text "first", .node 2)], .list [.node 3],
    .map [(.text "$ref", .text pointer)],
    .map []]
  root := .node 0

/-- The document in which the pet stands for the reference. -/
def pointedPet : Graph where
  nodes := #[.map [(.text "pets", .node 1), (.text "first", .node 3)], .list [.node 3],
    .map [(.text "$ref", .text "#/pets/0")],
    .map []]
  root := .node 0

/-- With a pointer to the pet, the walk ends and the pet stands for the reference. -/
theorem dereference_listedPet : dereference (listedPet "#/pets/0") = .ok pointedPet ∧
    ∃ final, Walks ⟨listedPet "#/pets/0", [], []⟩ (.item (.node 0)) (.ok final) ∧
      final.graph = pointedPet := by
  have hr : dereference (listedPet "#/pets/0") = .ok pointedPet := rfl
  obtain ⟨outcome, hw, ho⟩ := (dereference_accounts (listedPet "#/pets/0")).1
  refine ⟨hr, ?_⟩
  cases outcome with
  | ok final => exact ⟨final, hw, Except.ok.inj (ho.symm.trans hr)⟩
  | error error => cases ho.symm.trans hr

/-- There is no sixth pet, and a raised two is a digit but no number: neither fault names the
pointer. -/
theorem dereference_pastEnd : dereference (listedPet "#/pets/5") = .error .pastEnd ∧
    ∃ fault, dereference (listedPet "#/pets/²") = .error (.notANumber fault) :=
  ⟨rfl, _, rfl⟩

end ApiSchema.OpenApi
