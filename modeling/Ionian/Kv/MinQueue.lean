import Mathlib

/-!
# Kv.MinQueue — a priority queue of distinct items, least priority on top

The `priority-queue` crate's `PriorityQueue<I, Reverse<P>>`, as its documentation describes it.
The queue holds each item at most once, with a priority (`get_priority`, here `lookup`), and
counts its items (`len`).  `push` inserts an item, or updates the priority of the one present;
`change_priority` updates the priority of an item present and does nothing otherwise; `remove`
takes an item out.  `peek` gives an item of least priority (the greatest `Reverse`), and `pop`
gives one and takes it out.  The old priorities that `push`, `remove` and `change_priority`
return are not modelled: no caller reads them.

`MinQueue Q α β` is that description on a queue type `Q` left open: the operations, and as its
fields the laws the documentation states.  Which of several items of least priority `peek` and
`pop` give is not specified, nor that the two give the same one.  A development that uses the
crate takes a `MinQueue` as a parameter and assumes nothing else of it.  `ListQueue`, a list of
entries with distinct items, meets the laws (`ListQueue.minQueue`); it is the queue that concrete
runs evaluate.
-/

namespace Kv

/-! ## Lookups in a list of entries -/

section Lookup

variable {α β : Type} [DecidableEq α]

theorem lookup_cons (i k : α) (v : β) (xs : List (α × β)) :
    ((k, v) :: xs).lookup i = if i = k then some v else xs.lookup i := by
  by_cases h : i = k
  · simp [List.lookup, h]
  · simp [List.lookup, beq_false_of_ne h, h]

theorem lookup_filter_ne (i j : α) (xs : List (α × β)) :
    (xs.filter (·.1 ≠ i)).lookup j = if j = i then none else xs.lookup j := by
  induction xs with
  | nil => simp
  | cons e rest ih =>
    obtain ⟨k, v⟩ := e
    by_cases hk : k = i
    · rw [List.filter_cons_of_neg (by simpa using hk), ih, lookup_cons]
      subst hk
      by_cases hj : j = k <;> simp [hj]
    · rw [List.filter_cons_of_pos (by simpa using hk), lookup_cons, lookup_cons, ih]
      by_cases hj : j = k
      · subst hj
        simp [hk]
      · simp [hj]

theorem lookup_append_singleton (i j : α) (p : β) (xs : List (α × β))
    (hi : xs.lookup i = none) :
    (xs ++ [(i, p)]).lookup j = if j = i then some p else xs.lookup j := by
  induction xs with
  | nil => rw [List.nil_append, lookup_cons]
  | cons e rest ih =>
    obtain ⟨k, v⟩ := e
    rw [lookup_cons] at hi
    by_cases hk : i = k
    · simp [hk] at hi
    · rw [if_neg hk] at hi
      rw [List.cons_append, lookup_cons, lookup_cons, ih hi]
      by_cases hj : j = k
      · subst hj
        simp [Ne.symm hk]
      · simp [hj]

end Lookup

/-! ## The interface -/

/-- A priority queue of distinct items with least priority on top: the operations of
`PriorityQueue<I, Reverse<P>>` and the laws its documentation states. -/
structure MinQueue (Q α β : Type) [LinearOrder β] where
  /-- `PriorityQueue::new` -/
  empty : Q
  /-- `get_priority` -/
  lookup : Q → α → Option β
  /-- `len` -/
  length : Q → Nat
  push : Q → α → β → Q
  /-- `remove` -/
  erase : Q → α → Q
  changePriority : Q → α → β → Q
  peek : Q → Option (α × β)
  pop : Q → Option ((α × β) × Q)
  lookup_empty (i : α) : lookup empty i = none
  length_empty : length empty = 0
  /-- `push` inserts the item, or updates its priority when it is present. -/
  lookup_push_self (q : Q) (i : α) (p : β) : lookup (push q i p) i = some p
  lookup_push_ne (q : Q) {i j : α} (p : β) : j ≠ i → lookup (push q i p) j = lookup q j
  length_push (q : Q) (i : α) (p : β) :
    length (push q i p) = if (lookup q i).isSome then length q else length q + 1
  /-- `remove` takes the item out. -/
  lookup_erase_self (q : Q) (i : α) : lookup (erase q i) i = none
  lookup_erase_ne (q : Q) {i j : α} : j ≠ i → lookup (erase q i) j = lookup q j
  length_erase (q : Q) (i : α) :
    length (erase q i) + (if (lookup q i).isSome then 1 else 0) = length q
  /-- `change_priority` changes the priority of an item present, and nothing else. -/
  lookup_changePriority_self (q : Q) (i : α) (p : β) :
    lookup (changePriority q i p) i = (lookup q i).map fun _ => p
  lookup_changePriority_ne (q : Q) {i j : α} (p : β) :
    j ≠ i → lookup (changePriority q i p) j = lookup q j
  length_changePriority (q : Q) (i : α) (p : β) : length (changePriority q i p) = length q
  /-- `peek` gives an item of least priority, and nothing only on an empty queue. -/
  peek_eq_none_iff (q : Q) : peek q = none ↔ ∀ i, lookup q i = none
  lookup_of_peek {q : Q} {i : α} {p : β} : peek q = some (i, p) → lookup q i = some p
  le_of_peek {q : Q} {i j : α} {p p' : β} : peek q = some (i, p) → lookup q j = some p' → p ≤ p'
  /-- `pop` takes out an item of least priority, and nothing only on an empty queue. -/
  pop_eq_none_iff (q : Q) : pop q = none ↔ ∀ i, lookup q i = none
  lookup_of_pop {q q' : Q} {i : α} {p : β} : pop q = some ((i, p), q') → lookup q i = some p
  le_of_pop {q q' : Q} {i j : α} {p p' : β} :
    pop q = some ((i, p), q') → lookup q j = some p' → p ≤ p'
  lookup_pop {q q' : Q} {i : α} {p : β} (j : α) :
    pop q = some ((i, p), q') → lookup q' j = lookup (erase q i) j
  length_pop {q q' : Q} {i : α} {p : β} :
    pop q = some ((i, p), q') → length q' = length (erase q i)

namespace MinQueue

variable {Q α β : Type} [LinearOrder β] (mq : MinQueue Q α β)

theorem lookup_push [DecidableEq α] (q : Q) (i j : α) (p : β) :
    mq.lookup (mq.push q i p) j = if j = i then some p else mq.lookup q j := by
  by_cases h : j = i
  · subst h
    rw [if_pos rfl, mq.lookup_push_self]
  · rw [if_neg h, mq.lookup_push_ne q p h]

theorem lookup_erase [DecidableEq α] (q : Q) (i j : α) :
    mq.lookup (mq.erase q i) j = if j = i then none else mq.lookup q j := by
  by_cases h : j = i
  · subst h
    rw [if_pos rfl, mq.lookup_erase_self]
  · rw [if_neg h, mq.lookup_erase_ne q h]

/-- A queue that holds an item loses one to its removal. -/
theorem length_erase_of_isSome {q : Q} {i : α} (h : (mq.lookup q i).isSome) :
    mq.length (mq.erase q i) + 1 = mq.length q := by
  have := mq.length_erase q i
  rwa [if_pos h] at this

/-- `pop` takes one item out. -/
theorem length_pop_lt {q q' : Q} {i : α} {p : β} (h : mq.pop q = some ((i, p), q')) :
    mq.length q' < mq.length q := by
  have hsome : (mq.lookup q i).isSome := by rw [mq.lookup_of_pop h]; rfl
  have := mq.length_erase_of_isSome hsome
  rw [mq.length_pop h]
  omega

/-- A queue with an item on top pops one. -/
theorem exists_pop_of_peek {q : Q} {e : α × β} (h : mq.peek q = some e) :
    ∃ e' q', mq.pop q = some (e', q') := by
  cases hpop : mq.pop q with
  | some r => exact ⟨r.1, r.2, rfl⟩
  | none =>
    rw [(mq.peek_eq_none_iff q).mpr ((mq.pop_eq_none_iff q).mp hpop)] at h
    cases h

end MinQueue

/-! ## A list of entries -/

/-- A priority queue as its list of entries, each item once. -/
structure ListQueue (α β : Type) where
  entries : List (α × β)
  nodup : (entries.map Prod.fst).Nodup

namespace ListQueue

variable {α β : Type}

def empty : ListQueue α β := ⟨[], List.nodup_nil⟩

def keys (q : ListQueue α β) : List α := q.entries.map Prod.fst

def length (q : ListQueue α β) : Nat := q.entries.length

/-- The first entry of least priority. -/
def peekEntries [LinearOrder β] : List (α × β) → Option (α × β)
  | [] => none
  | e :: rest =>
    match peekEntries rest with
    | none => some e
    | some b => if b.2 < e.2 then some b else some e

def peek [LinearOrder β] (q : ListQueue α β) : Option (α × β) := peekEntries q.entries

section Items

variable [DecidableEq α]

def lookup (i : α) (q : ListQueue α β) : Option β := q.entries.lookup i

/-- `remove`: the queue without the item `i`. -/
def erase (i : α) (q : ListQueue α β) : ListQueue α β :=
  ⟨q.entries.filter (·.1 ≠ i), (List.Sublist.map Prod.fst List.filter_sublist).nodup q.nodup⟩

/-- `push`: the item with its new priority, in place of an entry of the same item. -/
def push (i : α) (p : β) (q : ListQueue α β) : ListQueue α β :=
  ⟨(q.erase i).entries ++ [(i, p)], by
    rw [List.map_append, List.nodup_append]
    refine ⟨(q.erase i).nodup, by simp, fun a ha b hb => ?_⟩
    simp only [erase, List.mem_map, List.mem_filter, decide_eq_true_eq] at ha
    obtain ⟨e, ⟨-, he⟩, rfl⟩ := ha
    simp only [List.map_cons, List.map_nil, List.mem_singleton] at hb
    rw [hb]
    exact he⟩

/-- `change_priority`: a new priority for an item in the queue; nothing for another. -/
def changePriority (i : α) (p : β) (q : ListQueue α β) : ListQueue α β :=
  if i ∈ q.keys then q.push i p else q

def pop [LinearOrder β] (q : ListQueue α β) : Option ((α × β) × ListQueue α β) :=
  q.peek.map fun e => (e, q.erase e.1)

/-! ### Keys and lookups -/

theorem mem_keys_iff_lookup (i : α) (q : ListQueue α β) : i ∈ q.keys ↔ (q.lookup i).isSome := by
  simp [keys, lookup]

@[simp] theorem lookup_erase (i j : α) (q : ListQueue α β) :
    (q.erase i).lookup j = if j = i then none else q.lookup j :=
  lookup_filter_ne i j q.entries

@[simp] theorem lookup_push (i j : α) (p : β) (q : ListQueue α β) :
    (q.push i p).lookup j = if j = i then some p else q.lookup j := by
  have h0 := lookup_erase i i q
  rw [if_pos rfl] at h0
  have h := lookup_append_singleton i j p (q.erase i).entries h0
  unfold lookup push
  rw [h]
  have hj := lookup_erase i j q
  unfold lookup at hj
  rw [hj]
  by_cases hji : j = i <;> simp [hji]

@[simp] theorem lookup_changePriority (i j : α) (p : β) (q : ListQueue α β) :
    (q.changePriority i p).lookup j =
      if j = i ∧ i ∈ q.keys then some p else q.lookup j := by
  unfold changePriority
  by_cases hi : i ∈ q.keys
  · simp [hi]
  · simp [hi]

theorem lookup_of_mem {q : ListQueue α β} {e : α × β} (he : e ∈ q.entries) :
    q.lookup e.1 = some e.2 := by
  obtain ⟨entries, nodup⟩ := q
  unfold lookup
  simp only at he ⊢
  induction entries with
  | nil => simp at he
  | cons x rest ih =>
    rw [List.map_cons, List.nodup_cons] at nodup
    obtain ⟨k, v⟩ := x
    rw [lookup_cons]
    rcases List.mem_cons.mp he with rfl | hrest
    · simp
    · have hne : e.1 ≠ k := fun h => nodup.1 (List.mem_map.mpr ⟨e, hrest, h⟩)
      rw [if_neg hne]
      exact ih nodup.2 hrest

theorem mem_of_lookup {q : ListQueue α β} {i : α} {p : β} (h : q.lookup i = some p) :
    (i, p) ∈ q.entries := by
  obtain ⟨entries, nodup⟩ := q
  unfold lookup at h
  simp only at h ⊢
  clear nodup
  induction entries with
  | nil => simp at h
  | cons x rest ih =>
    obtain ⟨k, v⟩ := x
    rw [lookup_cons] at h
    by_cases hi : i = k
    · rw [if_pos hi, Option.some.injEq] at h
      subst hi h
      exact List.mem_cons_self
    · rw [if_neg hi] at h
      exact List.mem_cons_of_mem _ (ih h)

/-- A queue is empty exactly when it holds no item. -/
theorem entries_eq_nil_iff (q : ListQueue α β) : q.entries = [] ↔ ∀ i, q.lookup i = none := by
  constructor
  · intro h i
    simp [lookup, h]
  · intro h
    cases hq : q.entries with
    | nil => rfl
    | cons e rest =>
      have := lookup_of_mem (q := q) (e := e) (by rw [hq]; exact List.mem_cons_self)
      rw [h e.1] at this
      cases this

/-! ### Lengths -/

theorem length_filter_ne_of_not_mem {xs : List (α × β)} {i : α} (hi : i ∉ xs.map Prod.fst) :
    (xs.filter (·.1 ≠ i)).length = xs.length := by
  rw [List.filter_eq_self.mpr]
  intro e he
  have : e.1 ≠ i := fun h => hi (h ▸ List.mem_map_of_mem he)
  simpa using this

theorem length_filter_ne_of_mem {xs : List (α × β)} {i : α} (hnd : (xs.map Prod.fst).Nodup)
    (hi : i ∈ xs.map Prod.fst) : (xs.filter (·.1 ≠ i)).length + 1 = xs.length := by
  induction xs with
  | nil => simp at hi
  | cons e rest ih =>
    rw [List.map_cons, List.nodup_cons] at hnd
    by_cases hk : e.1 = i
    · -- the entry of `i`; no other entry of `rest` has it
      rw [List.filter_cons_of_neg (by simpa using hk), List.length_cons,
        length_filter_ne_of_not_mem (hk ▸ hnd.1)]
    · have hrest : i ∈ rest.map Prod.fst := by
        rw [List.map_cons, List.mem_cons] at hi
        exact hi.resolve_left (Ne.symm hk)
      rw [List.filter_cons_of_pos (by simpa using hk), List.length_cons, List.length_cons,
        ← ih hnd.2 hrest]

theorem length_erase (i : α) (q : ListQueue α β) :
    (q.erase i).length + (if i ∈ q.keys then 1 else 0) = q.length := by
  by_cases hi : i ∈ q.keys
  · rw [if_pos hi]
    exact length_filter_ne_of_mem q.nodup hi
  · rw [if_neg hi, Nat.add_zero]
    exact length_filter_ne_of_not_mem hi

theorem length_push (i : α) (p : β) (q : ListQueue α β) :
    (q.push i p).length = if i ∈ q.keys then q.length else q.length + 1 := by
  have h : (q.push i p).length = (q.erase i).length + 1 := by
    simp [length, push]
  have herase := length_erase i q
  by_cases hi : i ∈ q.keys
  · rw [if_pos hi] at herase ⊢
    omega
  · rw [if_neg hi] at herase ⊢
    omega

theorem length_changePriority (i : α) (p : β) (q : ListQueue α β) :
    (q.changePriority i p).length = q.length := by
  unfold changePriority
  by_cases hi : i ∈ q.keys
  · rw [if_pos hi, length_push, if_pos hi]
  · rw [if_neg hi]

end Items

/-! ### The top of the queue -/

section Top

variable [LinearOrder β]

theorem peekEntries_eq_none_iff (xs : List (α × β)) : peekEntries xs = none ↔ xs = [] := by
  cases xs with
  | nil => simp [peekEntries]
  | cons e rest =>
    simp only [peekEntries, reduceCtorEq, iff_false]
    split
    · simp
    · split <;> simp

/-- The top is an entry, of a priority no entry goes below. -/
theorem peekEntries_spec {xs : List (α × β)} {e : α × β} (h : peekEntries xs = some e) :
    e ∈ xs ∧ ∀ e' ∈ xs, e.2 ≤ e'.2 := by
  induction xs generalizing e with
  | nil => simp [peekEntries] at h
  | cons x rest ih =>
    simp only [peekEntries] at h
    split at h
    · rename_i hnone
      rw [peekEntries_eq_none_iff] at hnone
      subst hnone
      cases h
      simp
    · rename_i b hb
      obtain ⟨hbmem, hble⟩ := ih hb
      split at h
      · rename_i hlt
        cases h
        refine ⟨List.mem_cons_of_mem _ hbmem, fun e' he' => ?_⟩
        rcases List.mem_cons.mp he' with rfl | he'
        · exact le_of_lt hlt
        · exact hble e' he'
      · rename_i hlt
        cases h
        refine ⟨List.mem_cons_self, fun e' he' => ?_⟩
        rcases List.mem_cons.mp he' with rfl | he'
        · exact le_rfl
        · exact le_trans (not_lt.mp hlt) (hble e' he')

variable [DecidableEq α]

theorem peek_eq_none_iff (q : ListQueue α β) : q.peek = none ↔ ∀ i, q.lookup i = none :=
  (peekEntries_eq_none_iff q.entries).trans (entries_eq_nil_iff q)

/-- What `peek` gives: an item of the queue with its priority, and no priority below it. -/
theorem peek_spec {q : ListQueue α β} {i : α} {p : β} (h : q.peek = some (i, p)) :
    q.lookup i = some p ∧ ∀ j p', q.lookup j = some p' → p ≤ p' := by
  obtain ⟨hmem, hle⟩ := peekEntries_spec h
  exact ⟨lookup_of_mem hmem, fun j p' hj => hle (j, p') (mem_of_lookup hj)⟩

theorem pop_eq_some_iff {q q' : ListQueue α β} {e : α × β} :
    q.pop = some (e, q') ↔ q.peek = some e ∧ q' = q.erase e.1 := by
  unfold pop
  cases q.peek with
  | none => simp
  | some x =>
    simp only [Option.map_some, Option.some.injEq, Prod.mk.injEq]
    constructor
    · rintro ⟨rfl, rfl⟩
      exact ⟨rfl, rfl⟩
    · rintro ⟨rfl, rfl⟩
      exact ⟨rfl, rfl⟩

theorem pop_eq_none_iff (q : ListQueue α β) : q.pop = none ↔ ∀ i, q.lookup i = none := by
  unfold pop
  rw [Option.map_eq_none_iff, peek_eq_none_iff]

/-- The list of entries meets the laws of the interface. -/
def minQueue : MinQueue (ListQueue α β) α β where
  empty := empty
  lookup q i := q.lookup i
  length := length
  push q i p := q.push i p
  erase q i := q.erase i
  changePriority q i p := q.changePriority i p
  peek := peek
  pop := pop
  lookup_empty _ := rfl
  length_empty := rfl
  lookup_push_self q i p := by simp
  lookup_push_ne q i j p h := by simp [h]
  length_push q i p := by simp only [length_push, mem_keys_iff_lookup]
  lookup_erase_self q i := by simp
  lookup_erase_ne q i j h := by simp [h]
  length_erase q i := by
    have := length_erase i q
    simpa only [mem_keys_iff_lookup] using this
  lookup_changePriority_self q i p := by
    simp only [lookup_changePriority, mem_keys_iff_lookup, true_and]
    cases q.lookup i <;> rfl
  lookup_changePriority_ne q i j p h := by simp [h]
  length_changePriority q i p := length_changePriority i p q
  peek_eq_none_iff := peek_eq_none_iff
  lookup_of_peek h := (peek_spec h).1
  le_of_peek h hj := (peek_spec h).2 _ _ hj
  pop_eq_none_iff := pop_eq_none_iff
  lookup_of_pop h := (peek_spec (pop_eq_some_iff.mp h).1).1
  le_of_pop h hj := (peek_spec (pop_eq_some_iff.mp h).1).2 _ _ hj
  lookup_pop j h := by rw [(pop_eq_some_iff.mp h).2]
  length_pop h := by rw [(pop_eq_some_iff.mp h).2]

end Top

end ListQueue

end Kv
