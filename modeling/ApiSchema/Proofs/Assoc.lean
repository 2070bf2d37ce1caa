/-
# Laws of maps

What reading, writing and building a map in insertion order have to do with each other. The keys of
a map that is built by writing are distinct, and each key has the value that was written last.
-/
import Mathlib.Data.List.Induction
import Mathlib.Data.List.Nodup
import Mathlib.Data.List.Perm.Subperm
import ApiSchema.Assoc

namespace ApiSchema.Assoc

open List

variable {κ α β : Type} [BEq κ] [LawfulBEq κ] {entries extra : List (κ × α)} {key : κ} {value : α}
  {entry : κ × α}

/-- The keys of a map, in order. -/
def keys (entries : List (κ × α)) : List κ := entries.map (·.1)

/-! ## Reading -/

/-- What is read is an entry of the map. -/
theorem mem_of_get?_eq_some (h : get? entries key = some value) : (key, value) ∈ entries := by
  induction entries with
  | nil => simp at h
  | cons entry rest ih =>
    obtain ⟨k, old⟩ := entry
    rw [get?_cons] at h
    by_cases hk : k = key
    · subst hk
      simp at h
      simp [h]
    · rw [if_neg (by simpa using hk)] at h
      exact mem_cons_of_mem _ (ih h)

/-- The keys that can be read are the keys of the map. -/
theorem has_iff_mem_keys (entries : List (κ × α)) (key : κ) :
    has entries key ↔ key ∈ keys entries := by
  induction entries with
  | nil => simp [has, keys]
  | cons entry rest ih =>
    obtain ⟨k, old⟩ := entry
    rw [has, get?_cons]
    by_cases hk : k = key
    · simp [hk, keys]
    · rw [if_neg (by simpa using hk), ← has, ih]
      simp [keys, Ne.symm hk]

theorem get?_eq_none_iff (entries : List (κ × α)) (key : κ) :
    get? entries key = none ↔ key ∉ keys entries := by
  rw [← has_iff_mem_keys, has]
  simp

/-- With distinct keys, each entry is read under its key. -/
theorem get?_eq_some_iff_mem (h : (keys entries).Nodup) :
    get? entries key = some value ↔ (key, value) ∈ entries := by
  refine ⟨mem_of_get?_eq_some, fun hm => ?_⟩
  induction entries with
  | nil => cases hm
  | cons entry rest ih =>
    obtain ⟨k, old⟩ := entry
    obtain ⟨hn, hr⟩ := nodup_cons.mp h
    rw [get?_cons]
    rcases mem_cons.mp hm with he | hm
    · simp [(Prod.mk.inj he).1, (Prod.mk.inj he).2]
    · have hk : k ≠ key := fun hk => hn (mem_map.mpr ⟨_, hm, hk.symm⟩)
      rw [if_neg (by simpa using hk)]
      exact ih hr hm

/-! ## Writing -/

/-- Writing adds the key at the end, unless it is there. -/
theorem keys_put (entries : List (κ × α)) (key : κ) (value : α) : keys (put entries key value) =
    keys entries ∨ key ∉ keys entries ∧ keys (put entries key value) = keys entries ++ [key] := by
  induction entries with
  | nil => simp [keys, put]
  | cons entry rest ih =>
    obtain ⟨k, old⟩ := entry
    by_cases hk : k = key
    · left
      simp [keys, put, hk]
    · rw [put, if_neg (by simpa using hk)]
      rcases ih with h | ⟨hky, h⟩
      · left
        simpa [keys] using h
      · right
        refine ⟨?_, by simpa [keys] using h⟩
        simp only [keys, map_cons, mem_cons, not_or]
        exact ⟨Ne.symm hk, hky⟩

/-- Writing keeps the keys distinct. -/
theorem nodup_keys_put (h : (keys entries).Nodup) : (keys (put entries key value)).Nodup := by
  rcases keys_put entries key value with hk | ⟨hky, hk⟩
  · rw [hk]
    exact h
  · rw [hk, nodup_append]
    refine ⟨h, nodup_singleton key, ?_⟩
    rintro k hk _ hm rfl
    exact hky (mem_singleton.mp hm ▸ hk)

theorem mem_keys_put (entries : List (κ × α)) (key other : κ) (value : α) :
    other ∈ keys (put entries key value) ↔ other ∈ keys entries ∨ other = key := by
  by_cases h : key = other
  · subst h
    simp [← has_iff_mem_keys, has, get?_put_self]
  · rw [← has_iff_mem_keys, has, get?_put_of_ne entries value h, ← has, has_iff_mem_keys]
    simp [Ne.symm h]

/-- What holds of what is read before writing, and of what is written, holds of what is read
after. -/
theorem forall_get?_put {holds : κ → α → Prop}
    (h : ∀ key value, get? entries key = some value → holds key value) (hn : holds key value) :
    ∀ other found, get? (put entries key value) other = some found → holds other found := by
  intro other found hf
  by_cases ho : key = other
  · subst ho
    rw [get?_put_self] at hf
    exact Option.some.inj hf ▸ hn
  · rw [get?_put_of_ne _ _ ho] at hf
    exact h other found hf

/-- An entry after writing is the one written, or one from before. -/
theorem mem_put (h : entry ∈ put entries key value) : entry = (key, value) ∨ entry ∈ entries := by
  induction entries with
  | nil => exact Or.inl (mem_singleton.mp h)
  | cons first rest ih =>
    obtain ⟨k, old⟩ := first
    rw [put] at h
    split at h
    · rename_i hk
      rcases mem_cons.mp h with rfl | h
      · exact Or.inl (by rw [eq_of_beq hk])
      · exact Or.inr (mem_cons_of_mem _ h)
    · rcases mem_cons.mp h with rfl | h
      · exact Or.inr (mem_cons_self ..)
      · exact (ih h).imp id (mem_cons_of_mem _)

omit [LawfulBEq κ] in
/-- There is an entry after writing. -/
theorem isEmpty_put (entries : List (κ × α)) (key : κ) (value : α) :
    (put entries key value).isEmpty = false := by
  cases entries with
  | nil => rfl
  | cons entry rest =>
    obtain ⟨k, old⟩ := entry
    rw [put]
    split <;> rfl

omit [LawfulBEq κ] in
/-- A value after writing is the one written, or one from before. -/
theorem value_of_mem_put (h : entry ∈ put entries key value) :
    entry.2 = value ∨ entry ∈ entries := by
  induction entries with
  | nil =>
    rw [mem_singleton.mp h]
    exact Or.inl rfl
  | cons first rest ih =>
    obtain ⟨k, old⟩ := first
    rw [put] at h
    split at h
    · rcases mem_cons.mp h with rfl | h
      · exact Or.inl rfl
      · exact Or.inr (mem_cons_of_mem _ h)
    · rcases mem_cons.mp h with rfl | h
      · exact Or.inr (mem_cons_self ..)
      · exact (ih h).imp id (mem_cons_of_mem _)

omit [LawfulBEq κ] in
/-- A value after writing several is one of those, or one from before. -/
theorem value_of_mem_putAll : ∀ {entries : List (κ × α)} {entry : κ × α},
    entry ∈ putAll entries extra → (∃ written ∈ extra, entry.2 = written.2) ∨ entry ∈ entries := by
  induction extra with
  | nil => exact fun h => Or.inr h
  | cons first rest ih =>
    intro entries entry h
    rcases ih (h : entry ∈ putAll (put entries first.1 first.2) rest) with ⟨written, hm, h⟩ | h
    · exact Or.inl ⟨written, mem_cons_of_mem _ hm, h⟩
    · rcases value_of_mem_put h with h | h
      · exact Or.inl ⟨first, mem_cons_self .., h⟩
      · exact Or.inr h

/-- An entry after writing several is one of those, or one from before. -/
theorem mem_putAll : ∀ {entries : List (κ × α)} {entry : κ × α}, entry ∈ putAll entries extra →
    entry ∈ extra ∨ entry ∈ entries := by
  induction extra with
  | nil => exact fun h => Or.inr h
  | cons first rest ih =>
    intro entries entry h
    rcases ih (h : entry ∈ putAll (put entries first.1 first.2) rest) with h | h
    · exact Or.inl (mem_cons_of_mem _ h)
    · rcases mem_put h with rfl | h
      · exact Or.inl (mem_cons_self ..)
      · exact Or.inr h

/-! ## Building -/

theorem mem_of_mem_ofList (h : entry ∈ ofList entries) : entry ∈ entries :=
  (mem_putAll h).resolve_right (by simp)

omit [LawfulBEq κ] in
theorem ofList_concat (entries : List (κ × α)) (entry : κ × α) :
    ofList (entries ++ [entry]) = put (ofList entries) entry.1 entry.2 := by
  rw [ofList, putAll, foldl_append]
  rfl

omit [LawfulBEq κ] in
/-- Writing to a key that is not there adds an entry at the end. -/
theorem put_eq_append (h : ∀ entry ∈ entries, (entry.1 == key) = false) (value : α) :
    put entries key value = entries ++ [(key, value)] := by
  induction entries with
  | nil => rfl
  | cons entry rest ih =>
    obtain ⟨k, old⟩ := entry
    have hk : (k == key) = false := h (k, old) (mem_cons_self ..)
    rw [put, hk, ih (forall_mem_cons.mp h).2]
    rfl

omit [LawfulBEq κ] in
/-- A map that is built from entries in which no key repeats has these entries. -/
theorem ofList_eq_self (h : entries.Pairwise fun entry other => (entry.1 == other.1) = false) :
    ofList entries = entries := by
  induction entries using List.reverseRecOn with
  | nil => rfl
  | append_singleton entries entry ih =>
    rw [pairwise_append] at h
    rw [ofList_concat, ih h.1]
    exact put_eq_append
      (fun other ho => h.2.2 other ho entry (mem_singleton_self _)) _

theorem nodup_keys_ofList (entries : List (κ × α)) : (keys (ofList entries)).Nodup := by
  induction entries using List.reverseRecOn with
  | nil => exact nodup_nil
  | append_singleton entries entry ih =>
    rw [ofList_concat]
    exact nodup_keys_put ih

theorem mem_keys_ofList (entries : List (κ × α)) (key : κ) :
    key ∈ keys (ofList entries) ↔ key ∈ keys entries := by
  induction entries using List.reverseRecOn with
  | nil => rfl
  | append_singleton entries entry ih =>
    rw [ofList_concat, mem_keys_put, ih]
    simp [keys]

theorem length_ofList_le (entries : List (κ × α)) : (ofList entries).length ≤ entries.length := by
  have hs : keys (ofList entries) ⊆ keys entries :=
    fun key h => (mem_keys_ofList entries key).mp h
  have hl := (subperm_of_subset (nodup_keys_ofList entries) hs).length_le
  simpa [keys] using hl

/-- The last element of a list is the last one after any split, or the element at the split. -/
theorem concat_eq_append_cons_iff {front before after : List β} {last middle : β} :
    front ++ [last] = before ++ middle :: after ↔ (after = [] ∧ front = before ∧ last = middle) ∨
        ∃ inner, after = inner ++ [last] ∧ front = before ++ middle :: inner := by
  constructor
  · intro h
    rcases eq_nil_or_concat after with rfl | ⟨inner, final, rfl⟩
    · obtain ⟨hf, hl⟩ := append_inj' h rfl
      exact Or.inl ⟨rfl, hf, by simpa using hl⟩
    · rw [concat_eq_append, ← cons_append, ← append_assoc] at h
      obtain ⟨hf, hl⟩ := append_inj' h rfl
      refine Or.inr ⟨inner, ?_, hf⟩
      rw [concat_eq_append, hl]
  · rintro (⟨rfl, rfl, rfl⟩ | ⟨inner, rfl, rfl⟩)
    · rfl
    · simp

/-- A map that is built gives for a key the value of its last entry. -/
theorem get?_ofList_eq_some_iff (entries : List (κ × α)) (key : κ) (value : α) :
    get? (ofList entries) key = some value ↔
      ∃ before after, entries = before ++ (key, value) :: after ∧ key ∉ keys after := by
  induction entries using List.reverseRecOn with
  | nil => simp [ofList, putAll]
  | append_singleton entries entry ih =>
    obtain ⟨k, last⟩ := entry
    -- Induction from the end, because the last entry is the one that is written last.
    rw [ofList_concat]
    simp only [concat_eq_append_cons_iff]
    by_cases hk : k = key
    · subst hk
      rw [get?_put_self]
      constructor
      · rintro ⟨⟩
        exact ⟨entries, [], Or.inl ⟨rfl, rfl, rfl⟩, by simp [keys]⟩
      · rintro ⟨before, after, ⟨rfl, rfl, hl⟩ | ⟨inner, rfl, -⟩, ha⟩
        · rw [(Prod.mk.inj hl).2]
        · exact absurd (by simp [keys]) ha
    · -- The last entry has another key, so it can be added after any split.
      rw [get?_put_of_ne _ _ hk, ih]
      constructor
      · rintro ⟨before, after, rfl, ha⟩
        refine ⟨before, after ++ [(k, last)], Or.inr ⟨after, rfl, rfl⟩, ?_⟩
        simp only [keys, map_append, map_cons, map_nil, mem_append, mem_singleton, not_or]
        exact ⟨ha, Ne.symm hk⟩
      · rintro ⟨before, after, ⟨rfl, rfl, hl⟩ | ⟨inner, rfl, rfl⟩, ha⟩
        · exact absurd (Prod.mk.inj hl).1 hk
        · refine ⟨before, inner, rfl, fun hm => ha ?_⟩
          rw [keys, map_append]
          exact mem_append_left _ hm

/-- A map that is built from elements has the value of the last element with the key. -/
theorem get?_ofList_map_eq_some_iff {ω : Type} (pair : ω → κ × α) (elements : List ω) (key : κ)
    (value : α) :
    get? (ofList (elements.map pair)) key = some value ↔ ∃ before element after,
      elements = before ++ element :: after ∧ pair element = (key, value) ∧
        ∀ other ∈ after, (pair other).1 ≠ key := by
  rw [get?_ofList_eq_some_iff]
  constructor
  · rintro ⟨before, after, heq, ha⟩
    obtain ⟨before, rest, rfl, -, hr⟩ := map_eq_append_iff.mp heq
    obtain ⟨element, after, rfl, he, rfl⟩ := map_eq_cons_iff.mp hr
    refine ⟨before, element, after, rfl, he, fun other ho hk => ha ?_⟩
    rw [keys, map_map]
    exact mem_map.mpr ⟨other, ho, hk⟩
  · rintro ⟨before, element, after, rfl, he, ha⟩
    refine ⟨before.map pair, after.map pair, by simp [he], ?_⟩
    rw [keys, map_map, mem_map]
    rintro ⟨other, ho, hk⟩
    exact ha other ho hk

/-- After writing several entries, a key has the value that was written last, or the one from
before. -/
theorem get?_putAll (entries extra : List (κ × α)) (key : κ) :
    get? (putAll entries extra) key = (get? (ofList extra) key).or (get? entries key) := by
  induction extra using List.reverseRecOn with
  | nil => rfl
  | append_singleton extra entry ih =>
    have hl : putAll entries (extra ++ [entry]) =
        put (putAll entries extra) entry.1 entry.2 := by
      rw [putAll, foldl_append]
      rfl
    rw [hl, ofList_concat]
    by_cases hk : entry.1 = key
    · rw [← hk, get?_put_self, get?_put_self]
      rfl
    · rw [get?_put_of_ne _ _ hk, get?_put_of_ne _ _ hk, ih]

/-- Building a map from one with distinct keys changes nothing. -/
theorem get?_ofList_of_nodup (h : (keys entries).Nodup) (key : κ) :
    get? (ofList entries) key = get? entries key := by
  ext value
  rw [get?_ofList_eq_some_iff, get?_eq_some_iff_mem h]
  constructor
  · rintro ⟨before, after, rfl, -⟩
    simp
  · intro hm
    obtain ⟨before, after, rfl⟩ := append_of_mem hm
    refine ⟨before, after, rfl, ?_⟩
    rw [keys, map_append] at h
    exact h.of_append_right.notMem

/-! ## Changing the values -/

/-- Writing and then changing each value is changing each value and then writing. -/
theorem map_put (change : κ → α → β) (entries : List (κ × α)) (key : κ) (value : α) :
    (put entries key value).map (fun entry => (entry.1, change entry.1 entry.2)) =
      put (entries.map fun entry => (entry.1, change entry.1 entry.2)) key (change key value) := by
  induction entries with
  | nil => rfl
  | cons entry rest ih =>
    obtain ⟨k, old⟩ := entry
    by_cases h : k = key
    · simp [put, h]
    · simp [put, h, ih]

/-- Reading after each value is changed is reading and then changing. -/
theorem get?_map (change : κ → α → β) (entries : List (κ × α)) (key : κ) :
    get? (entries.map fun entry => (entry.1, change entry.1 entry.2)) key =
      (get? entries key).map (change key) := by
  induction entries with
  | nil => rfl
  | cons entry rest ih =>
    obtain ⟨k, old⟩ := entry
    by_cases h : k = key
    · simp [get?_cons, h]
    · simp [get?_cons, h, ih]

end ApiSchema.Assoc
