import Mathlib

/-!
# Kv.SortedMap — an ordered map as a list sorted by key

An ordered map (a `BTreeMap`, or a key-value column iterated in key order) is its list of entries,
strictly increasing by key; the structure carries the order, so every operation keeps it.
`insert` replaces the value of a present key; `below k` keeps the keys under `k` (what
`split_off(k)` leaves behind); `erase` removes one key.  Lookups are `List.lookup` on the entries.
-/

namespace Kv

/-- An ordered map: its entries, strictly increasing by key. -/
structure SortedMap (α β : Type) [LinearOrder α] where
  entries : List (α × β)
  sorted : entries.Pairwise fun a b => a.1 < b.1
deriving DecidableEq

namespace SortedMap

variable {α β : Type} [LinearOrder α]

def empty : SortedMap α β := ⟨[], List.Pairwise.nil⟩

/-- Insert into the sorted entries, replacing the entry of the same key. -/
def insertEntries (k : α) (v : β) : List (α × β) → List (α × β)
  | [] => [(k, v)]
  | (k', v') :: rest =>
    if k < k' then (k, v) :: (k', v') :: rest
    else if k = k' then (k, v) :: rest
    else (k', v') :: insertEntries k v rest

theorem mem_insertEntries {k : α} {v : β} {a : α × β} {xs : List (α × β)}
    (h : a ∈ insertEntries k v xs) : a = (k, v) ∨ a ∈ xs := by
  induction xs with
  | nil => simpa [insertEntries] using h
  | cons x xs ih =>
    obtain ⟨k', v'⟩ := x
    unfold insertEntries at h
    split_ifs at h with hlt heq
    · simpa using h
    · rcases List.mem_cons.mp h with h | h
      · exact Or.inl h
      · exact Or.inr (List.mem_cons_of_mem _ h)
    · rcases List.mem_cons.mp h with h | h
      · exact Or.inr (h ▸ List.mem_cons_self)
      · exact (ih h).imp_right (List.mem_cons_of_mem _)

theorem sorted_insertEntries (k : α) (v : β) {xs : List (α × β)}
    (hs : xs.Pairwise fun a b => a.1 < b.1) :
    (insertEntries k v xs).Pairwise fun a b => a.1 < b.1 := by
  induction xs with
  | nil => exact List.pairwise_singleton _ _
  | cons x xs ih =>
    obtain ⟨k', v'⟩ := x
    have hrest : ∀ a ∈ xs, k' < a.1 := fun a ha => List.rel_of_pairwise_cons hs ha
    unfold insertEntries
    split_ifs with hlt heq
    · refine hs.cons fun a ha => ?_
      rcases List.mem_cons.mp ha with rfl | ha
      · exact hlt
      · exact lt_trans hlt (hrest _ ha)
    · subst heq
      exact hs.of_cons.cons fun a ha => hrest _ ha
    · refine (ih hs.of_cons).cons fun a ha => ?_
      rcases mem_insertEntries ha with rfl | ha
      · exact lt_of_le_of_ne (not_lt.mp hlt) (Ne.symm heq)
      · exact hrest _ ha

def insert (k : α) (v : β) (m : SortedMap α β) : SortedMap α β :=
  ⟨insertEntries k v m.entries, sorted_insertEntries k v m.sorted⟩

def erase (k : α) (m : SortedMap α β) : SortedMap α β :=
  ⟨m.entries.filter fun a => a.1 ≠ k, m.sorted.filter _⟩

/-- The keys under `k`: what `split_off(k)` leaves in the map. -/
def below (k : α) (m : SortedMap α β) : SortedMap α β :=
  ⟨m.entries.filter fun a => a.1 < k, m.sorted.filter _⟩

def lookup (k : α) (m : SortedMap α β) : Option β := m.entries.lookup k

def keys (m : SortedMap α β) : List α := m.entries.map Prod.fst

/-- The largest key. -/
def lastKey (m : SortedMap α β) : Option α := m.entries.getLast?.map Prod.fst

/-! ## Lookups -/

theorem lookup_cons (k k' : α) (v : β) (xs : List (α × β)) :
    ((k', v) :: xs).lookup k = if k = k' then some v else xs.lookup k := by
  simp only [List.lookup]
  by_cases h : k = k'
  · simp [h]
  · simp [beq_false_of_ne h, h]

@[simp] theorem lookup_empty (k : α) : (empty : SortedMap α β).lookup k = none := rfl

theorem mem_of_lookup {k : α} {v : β} {xs : List (α × β)} (h : xs.lookup k = some v) :
    (k, v) ∈ xs := by
  induction xs with
  | nil => simp at h
  | cons x xs ih =>
    obtain ⟨k', v'⟩ := x
    rw [lookup_cons] at h
    split_ifs at h with hk
    · cases h
      subst hk
      exact List.mem_cons_self
    · exact List.mem_cons_of_mem _ (ih h)

theorem lookup_insertEntries (k k' : α) (v : β) (xs : List (α × β)) :
    (insertEntries k v xs).lookup k' = if k' = k then some v else xs.lookup k' := by
  induction xs with
  | nil => exact lookup_cons k' k v []
  | cons x xs ih =>
    obtain ⟨k'', v''⟩ := x
    unfold insertEntries
    by_cases hlt : k < k''
    · rw [if_pos hlt, lookup_cons, lookup_cons]
    · rw [if_neg hlt]
      by_cases heq : k = k''
      · -- the entry of the same key is replaced
        subst heq
        rw [if_pos rfl, lookup_cons, lookup_cons]
        by_cases h : k' = k <;> simp [h]
      · rw [if_neg heq, lookup_cons, lookup_cons, ih]
        by_cases h : k' = k
        · subst h
          simp [heq]
        · simp [h]

@[simp] theorem lookup_insert (k k' : α) (v : β) (m : SortedMap α β) :
    (m.insert k v).lookup k' = if k' = k then some v else m.lookup k' :=
  lookup_insertEntries k k' v m.entries

theorem lookup_filter (p : α → Prop) [DecidablePred p] (k : α) (xs : List (α × β)) :
    (xs.filter fun a => p a.1).lookup k = if p k then xs.lookup k else none := by
  induction xs with
  | nil => simp
  | cons x xs ih =>
    obtain ⟨k', v'⟩ := x
    by_cases hp : p k'
    · rw [List.filter_cons_of_pos (by simpa using hp), lookup_cons, lookup_cons, ih]
      by_cases hk : k = k'
      · subst hk
        simp [hp]
      · simp [hk]
    · rw [List.filter_cons_of_neg (by simpa using hp), ih, lookup_cons]
      by_cases hk : k = k'
      · subst hk
        simp [hp]
      · simp [hk]

@[simp] theorem lookup_erase (k k' : α) (m : SortedMap α β) :
    (m.erase k).lookup k' = if k' = k then none else m.lookup k' := by
  unfold erase lookup
  rw [lookup_filter (· ≠ k)]
  by_cases h : k' = k <;> simp [h]

@[simp] theorem lookup_below (k k' : α) (m : SortedMap α β) :
    (m.below k).lookup k' = if k' < k then m.lookup k' else none :=
  lookup_filter (· < k) k' m.entries

theorem lookup_foldl_erase (ks : List α) (k : α) (m : SortedMap α β) :
    (ks.foldl (fun m i => m.erase i) m).lookup k = if k ∈ ks then none else m.lookup k := by
  induction ks generalizing m with
  | nil => simp
  | cons i ks ih =>
    rw [List.foldl_cons, ih, lookup_erase]
    by_cases h₁ : k ∈ ks
    · simp [h₁]
    · by_cases h₂ : k = i <;> simp [h₁, h₂]

/-- A key inserted along a fold, or present before it, is present after it. -/
theorem isSome_lookup_foldl_insert {ks : List α} {k : α} (v : β) {m : SortedMap α β}
    (h : k ∈ ks ∨ (m.lookup k).isSome) :
    ((ks.foldl (fun m i => m.insert i v) m).lookup k).isSome := by
  induction ks generalizing m with
  | nil => simpa using h
  | cons i ks ih =>
    rw [List.foldl_cons]
    refine ih ?_
    rcases h with h | h
    · rcases List.mem_cons.mp h with rfl | h
      · exact Or.inr (by simp)
      · exact Or.inl h
    · right
      rw [lookup_insert]
      split_ifs <;> simp [h]

/-- A map with no largest key is empty. -/
theorem lookup_of_lastKey_eq_none {m : SortedMap α β} (h : m.lastKey = none) (k : α) :
    m.lookup k = none := by
  unfold lastKey at h
  unfold lookup
  rw [Option.map_eq_none_iff, List.getLast?_eq_none_iff] at h
  rw [h]
  rfl

/-! ## Keys -/

theorem mem_keys_iff (k : α) (m : SortedMap α β) : k ∈ m.keys ↔ (m.lookup k).isSome := by
  unfold keys lookup
  induction m.entries with
  | nil => simp
  | cons x xs ih =>
    obtain ⟨k', v'⟩ := x
    rw [lookup_cons]
    by_cases h : k = k' <;> simp [h, ih]

end SortedMap

end Kv
