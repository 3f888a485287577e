import Ionian.Sync.TxStore
import Ionian.Slice.Vec
import Ionian.Refine.Fold

/-!
# Sync.Queues — the pending and ready queues are two disjoint sets

The keys of one `TxStore` represent a list without duplicates (`Represents`): `count` is its
length, `index2seq` reads it by index and holds nothing at or beyond `count`, and `seq2index` is
the inverse.  `add` pushes (`Represents.exec_addOps`), `remove` swap-removes
(`Represents.remove_of_mem`), and the writes of one store leave the keys of the other alone
(`Represents.exec_other`).

Over that, the config store holds two disjoint sets of `tx_seq`s (`Queues`, `Abs`), and each call
of `SyncStore` does to them what its abstract counterpart does, returning `true` exactly when it
changed a set (`step_spec`, `changed_iff`).  So every run of calls from an empty store keeps the
two index maps consistent and the sets disjoint, and `random_tx` draws an element
(`syncStore_queues_spec`).
-/

namespace Ionian.Sync

open Kv Slice TxStore

/-! ## What the keys of one `TxStore` represent -/

section Represents

variable {ν : Type} {s s' : ConfigStore ν} {name : ν} {xs : List Nat}

/-- The keys of `name` represent the list `xs` of its elements by index: `count` is its length,
`index2seq` reads it and holds no key at or beyond `count`, and `seq2index` is its inverse. -/
structure Represents (s : ConfigStore ν) (name : ν) (xs : List Nat) : Prop where
  nodup : xs.Nodup
  count_eq : count s name = xs.length
  atIndex_eq : ∀ i, atIndex s name i = xs[i]?
  indexOf_eq : ∀ x i, indexOf s name x = some i ↔ xs[i]? = some x

theorem represents_empty (name : ν) : Represents (fun _ => none) name [] where
  nodup := List.nodup_nil
  count_eq := rfl
  atIndex_eq _ := rfl
  indexOf_eq _ _ := by simp [indexOf]

/-- Only the keys of `name` matter. -/
theorem Represents.congr (h : Represents s name xs)
    (hs : ∀ k : TxKey ν, k.name = name → s' k = s k) : Represents s' name xs where
  nodup := h.nodup
  count_eq := by rw [count, hs (keyCount name) rfl]; exact h.count_eq
  atIndex_eq i := by rw [atIndex, hs (keyIndexToSeq name i) rfl]; exact h.atIndex_eq i
  indexOf_eq x i := by rw [indexOf, hs (keySeqToIndex name x) rfl]; exact h.indexOf_eq x i

theorem Represents.isSome_indexOf_iff (h : Represents s name xs) {x : Nat} :
    (indexOf s name x).isSome ↔ x ∈ xs := by
  rw [Option.isSome_iff_exists, List.mem_iff_getElem?]
  exact exists_congr fun i => h.indexOf_eq x i

theorem Represents.has_eq (h : Represents s name xs) (x : Nat) :
    has s name x = decide (x ∈ xs) := by
  rw [has, Bool.eq_iff_iff, decide_eq_true_iff]
  exact h.isSome_indexOf_iff

theorem Represents.indexOf_eq_none (h : Represents s name xs) {x : Nat} (hx : x ∉ xs) :
    indexOf s name x = none :=
  Option.not_isSome_iff_eq_none.mp fun hs => hx (h.isSome_indexOf_iff.mp hs)

theorem Represents.count_eq_card (h : Represents s name xs) :
    count s name = xs.toFinset.card := by
  rw [h.count_eq, List.toFinset_card_of_nodup h.nodup]

/-- A store whose keys of `name` read as after pushing `x` represents `xs ++ [x]`. -/
theorem Represents.of_push (h : Represents s name xs) {x : Nat} (hx : x ∉ xs)
    (hcount : count s' name = xs.length + 1)
    (hat : ∀ j, atIndex s' name j = if j = xs.length then some x else atIndex s name j)
    (hidx : ∀ y, indexOf s' name y = if y = x then some xs.length else indexOf s name y) :
    Represents s' name (xs ++ [x]) where
  nodup := List.nodup_append.mpr ⟨h.nodup, List.nodup_singleton x,
    fun a ha b hb => by rw [List.mem_singleton.mp hb]; exact fun e => hx (e ▸ ha)⟩
  count_eq := by rw [hcount, List.length_append, List.length_singleton]
  atIndex_eq j := by
    rw [hat, h.atIndex_eq, List.getElem?_append]
    by_cases hj : j = xs.length
    · subst hj
      simp
    · rw [if_neg hj]
      split_ifs with hlt
      · rfl
      · rw [List.getElem?_eq_none (by omega), List.getElem?_eq_none (by simp; omega)]
  indexOf_eq y k := by
    rw [hidx, getElem?_append_singleton_eq_some]
    by_cases hy : y = x
    · -- the pushed element is found at the old length only
      subst hy
      rw [if_pos rfl, Option.some_inj]
      exact ⟨fun hk => Or.inr ⟨hk.symm, rfl⟩,
        fun hk => hk.elim (fun hk => absurd (List.mem_of_getElem? hk) hx) fun hk => hk.1.symm⟩
    · rw [if_neg hy, h.indexOf_eq]
      exact ⟨Or.inl, fun hk => hk.elim id fun hk => absurd hk.2.symm hy⟩

/-- A store whose keys of `name` read as after swap-removing position `i` represents
`swapRemove xs i`. -/
theorem Represents.of_swapRemove (h : Represents s name xs) {i : Nat} (hi : i < xs.length)
    (hcount : count s' name = xs.length - 1)
    (hat : ∀ j, atIndex s' name j = if j = xs.length - 1 then none
      else if j = i then some xs[xs.length - 1] else atIndex s name j)
    (hidx : ∀ y, indexOf s' name y = if y = xs[i] then none
      else if y = xs[xs.length - 1] then some i else indexOf s name y) :
    Represents s' name (swapRemove xs i) where
  nodup := nodup_swapRemove hi h.nodup
  count_eq := by rw [hcount, length_swapRemove hi]
  atIndex_eq j := by
    rw [hat, h.atIndex_eq, getElem?_swapRemove hi, List.getLast?_eq_getElem?]
    by_cases h₁ : j = xs.length - 1
    · rw [if_pos h₁, if_neg (by omega)]
    · by_cases h₂ : j = i
      · subst h₂
        rw [if_neg h₁, if_pos rfl, if_pos (by omega), if_pos rfl,
          List.getElem?_eq_getElem (by omega)]
      · rw [if_neg h₁, if_neg h₂, if_neg h₂]
        split_ifs with hj
        · rfl
        · exact List.getElem?_eq_none (by omega)
  indexOf_eq y k := by
    rw [hidx, getElem?_swapRemove_eq_some h.nodup hi]
    by_cases h₁ : y = xs[i]
    · simp [h₁]
    · by_cases h₂ : y = xs[xs.length - 1]
      · rw [if_neg h₁, if_pos h₂, if_pos h₂, Option.some_inj]
        exact ⟨fun hk => ⟨h₁, hk.symm⟩, fun hk => hk.2.symm⟩
      · rw [if_neg h₁, if_neg h₂, if_neg h₂, h.indexOf_eq]
        exact ⟨fun hk => ⟨h₁, hk⟩, And.right⟩

end Represents

/-! ## The writes of `add` and `remove` -/

section Writes

variable {ν : Type} [DecidableEq ν] {s : ConfigStore ν} {name : ν} {xs : List Nat}

/-- **Frame**: a batch of writes to the keys of `n` leaves every other store's keys. -/
theorem exec_frame {tx : ConfigTx ν} {n : ν} (hkeys : ∀ op ∈ tx, op.key.name = n)
    {k : TxKey ν} (hk : k.name ≠ n) : exec s tx k = s k :=
  exec_of_forall_ne fun op hop heq => hk (heq ▸ hkeys op hop)

theorem Represents.exec_other (h : Represents s name xs) {tx : ConfigTx ν} {n : ν}
    (hkeys : ∀ op ∈ tx, op.key.name = n) (hne : n ≠ name) : Represents (exec s tx) name xs :=
  h.congr fun _ hk => exec_frame hkeys (hk ▸ hne.symm)

omit [DecidableEq ν] in
theorem name_key_addOps (s : ConfigStore ν) (name : ν) (x : Nat) :
    ∀ op ∈ addOps s name x, op.key.name = name := by
  simp [addOps, Op.key, keyIndexToSeq, keySeqToIndex, keyCount, TxKey.name]

omit [DecidableEq ν] in
/-- `add` plans its writes from `count` alone. -/
theorem addOps_congr {s' : ConfigStore ν} (hc : count s' name = count s name) (x : Nat) :
    addOps s' name x = addOps s name x := by
  simp only [addOps, hc]

/-- The writes of `add` push `x`. -/
theorem Represents.exec_addOps (h : Represents s name xs) {x : Nat} (hx : x ∉ xs) :
    Represents (exec s (addOps s name x)) name (xs ++ [x]) := by
  -- `count` is read through its key only, and stands folded in the planned writes
  refine h.of_push hx ?_ (fun j => ?_) (fun y => ?_)
  · show (exec s (addOps s name x) (keyCount name)).getD 0 = xs.length + 1
    simp [addOps, keyCount, keyIndexToSeq, keySeqToIndex, h.count_eq]
  · simp [atIndex, addOps, keyCount, keyIndexToSeq, keySeqToIndex, h.count_eq,
      Function.update_apply]
  · by_cases hy : y = x
    · simp [indexOf, addOps, keyCount, keyIndexToSeq, keySeqToIndex, h.count_eq, hy]
    · simp [indexOf, addOps, keyCount, keyIndexToSeq, keySeqToIndex, hy]

/-- `add` of an element already there changes nothing. -/
theorem Represents.add_of_mem (h : Represents s name xs) {x : Nat} (hx : x ∈ xs)
    (dbTx : Option (ConfigTx ν)) : add s name dbTx x = (s, dbTx, false) := by
  simp [add, h.has_eq, hx]

/-- `add` of a new element plans the writes of a push. -/
theorem Represents.add_of_not_mem (h : Represents s name xs) {x : Nat} (hx : x ∉ xs)
    (dbTx : Option (ConfigTx ν)) :
    add s name dbTx x =
      ((commit s dbTx (addOps s name x)).1, (commit s dbTx (addOps s name x)).2, true) := by
  simp [add, h.has_eq, hx]

/-- The writes of `remove` swap-remove position `i`, whether it is the last one or not. -/
theorem Represents.removeOps_spec (h : Represents s name xs) {i : Nat} (hi : i < xs.length) :
    ∃ tx, removeOps s name xs[i] i = some tx ∧ (∀ op ∈ tx, op.key.name = name) ∧
      Represents (exec s tx) name (swapRemove xs i) := by
  have hpos : 0 < count s name := by rw [h.count_eq]; omega
  have hn : xs.length - 1 < xs.length := by omega
  -- `x` and the last element are one element exactly when `i` is the last position
  have hne : xs[i] = xs[xs.length - 1] ↔ i = xs.length - 1 := h.nodup.getElem_inj_iff
  by_cases hlast : i = xs.length - 1
  · -- the last element: its slot goes
    have hl : i = count s name - 1 := by rw [h.count_eq]; exact hlast
    refine ⟨_, by simp only [removeOps, if_pos hpos, if_pos hl]; rfl,
      by simp [Op.key, keyCount, keySeqToIndex, keyIndexToSeq, TxKey.name], ?_⟩
    refine h.of_swapRemove hi ?_ (fun j => ?_) (fun y => ?_)
    · show (exec s _ (keyCount name)).getD 0 = xs.length - 1
      simp [keyCount, keySeqToIndex, keyIndexToSeq, h.count_eq]
    · by_cases hj : j = xs.length - 1
      · simp [atIndex, keyCount, keySeqToIndex, keyIndexToSeq, hj, hlast, h.count_eq]
      · simp [atIndex, keyCount, keySeqToIndex, keyIndexToSeq, hj, hlast, h.count_eq]
    · by_cases hy : y = xs[i]
      · simp [indexOf, keyCount, keySeqToIndex, keyIndexToSeq, hy, h.count_eq]
      · have hy' : y ≠ xs[xs.length - 1] := by simpa [hlast] using hy
        simp [indexOf, keyCount, keySeqToIndex, keyIndexToSeq, hy, hy', h.count_eq]
  · -- the last element moves into the slot
    have hl : ¬ i = count s name - 1 := by rw [h.count_eq]; exact hlast
    have hat : atIndex s name (count s name - 1) = some xs[xs.length - 1] := by
      rw [h.atIndex_eq, h.count_eq, List.getElem?_eq_getElem hn]
    refine ⟨_, by simp only [removeOps, if_pos hpos, if_neg hl, hat, Option.map_some]; rfl,
      by simp [Op.key, keyCount, keySeqToIndex, keyIndexToSeq, TxKey.name], ?_⟩
    refine h.of_swapRemove hi ?_ (fun j => ?_) (fun y => ?_)
    · show (exec s _ (keyCount name)).getD 0 = xs.length - 1
      simp [keyCount, keySeqToIndex, keyIndexToSeq, h.count_eq]
    · by_cases hj : j = xs.length - 1
      · simp [atIndex, keyCount, keySeqToIndex, keyIndexToSeq, hj,
          h.count_eq]
      · by_cases hji : j = i
        · simp [atIndex, keyCount, keySeqToIndex, keyIndexToSeq, hji, hlast,
            h.count_eq]
        · simp [atIndex, keyCount, keySeqToIndex, keyIndexToSeq, hj, hji,
            h.count_eq]
    · have hxl : xs[i] ≠ xs[xs.length - 1] := fun e => hlast (hne.mp e)
      by_cases hy : y = xs[i]
      · simp [indexOf, keyCount, keySeqToIndex, keyIndexToSeq, hy, hxl, h.count_eq]
      · by_cases hy' : y = xs[xs.length - 1]
        · simp [indexOf, keyCount, keySeqToIndex, keyIndexToSeq, hy', hxl.symm]
        · simp [indexOf, keyCount, keySeqToIndex, keyIndexToSeq, hy, hy', h.count_eq]

/-- `remove` of an element that is not there changes nothing. -/
theorem Represents.remove_of_not_mem (h : Represents s name xs) {x : Nat} (hx : x ∉ xs)
    (dbTx : Option (ConfigTx ν)) : remove s name dbTx x = some (s, dbTx, false) := by
  simp [remove, h.indexOf_eq_none hx]

/-- `remove` of the element at position `i` plans the writes of a swap-remove. -/
theorem Represents.remove_of_mem (h : Represents s name xs) {i : Nat} (hi : i < xs.length)
    (dbTx : Option (ConfigTx ν)) :
    ∃ tx, remove s name dbTx xs[i] =
        some ((commit s dbTx tx).1, (commit s dbTx tx).2, true) ∧
      (∀ op ∈ tx, op.key.name = name) ∧ Represents (exec s tx) name (swapRemove xs i) := by
  obtain ⟨tx, hops, hkeys, hrep⟩ := h.removeOps_spec hi
  have hidx : indexOf s name xs[i] = some i := (h.indexOf_eq _ _).mpr (List.getElem?_eq_getElem hi)
  exact ⟨tx, by simp [remove, hidx, hops], hkeys, hrep⟩

omit [DecidableEq ν] in
/-- `random` draws an element, and finds none only in an empty store. -/
theorem Represents.random_spec (h : Represents s name xs) {pick : Nat → Nat}
    (hpick : ∀ n, 0 < n → pick n < n) :
    ∃ r, random s name pick = some r ∧ (r = none ↔ xs = []) ∧ ∀ y, r = some y → y ∈ xs := by
  by_cases hnil : xs = []
  · subst hnil
    exact ⟨none, by simp [random, h.count_eq], by simp, by simp⟩
  · have hlen : 0 < xs.length := List.length_pos_iff.mpr hnil
    have hp := hpick _ hlen
    refine ⟨some xs[pick xs.length], ?_, by simp [hnil], fun y hy => ?_⟩
    · simp [random, h.count_eq, hnil, h.atIndex_eq, List.getElem?_eq_getElem hp]
    · rw [Option.some_inj] at hy
      exact hy ▸ List.getElem_mem hp

end Writes

/-! ## The two queues -/

/-- The pending and the ready `tx_seq`s: two disjoint sets. -/
@[ext]
structure Queues where
  pending : Finset Nat
  ready : Finset Nat
  disjoint : Disjoint pending ready

namespace Queues

def empty : Queues := ⟨∅, ∅, Finset.disjoint_empty_left _⟩

/-- `add_pending_tx`: a `tx_seq` in neither set joins the pending one. -/
def addPending (q : Queues) (x : Nat) : Queues × Bool :=
  if h : x ∈ q.ready ∨ x ∈ q.pending then (q, false)
  else (⟨insert x q.pending, q.ready,
    Finset.disjoint_insert_left.mpr ⟨fun hx => h (Or.inl hx), q.disjoint⟩⟩, true)

/-- `upgrade_tx_to_ready`: a pending `tx_seq` becomes ready. -/
def upgrade (q : Queues) (x : Nat) : Queues × Bool :=
  if x ∈ q.pending then (⟨q.pending.erase x, insert x q.ready,
    Finset.disjoint_insert_right.mpr
      ⟨Finset.notMem_erase x _, q.disjoint.mono_left (Finset.erase_subset x _)⟩⟩, true)
  else (q, false)

/-- `downgrade_tx_to_pending`: a ready `tx_seq` becomes pending. -/
def downgrade (q : Queues) (x : Nat) : Queues × Bool :=
  if x ∈ q.ready then (⟨insert x q.pending, q.ready.erase x,
    Finset.disjoint_insert_left.mpr
      ⟨Finset.notMem_erase x _, q.disjoint.mono_right (Finset.erase_subset x _)⟩⟩, true)
  else (q, false)

/-- `remove_tx`: a `tx_seq` leaves the set it is in. -/
def remove (q : Queues) (x : Nat) : Queues × Bool :=
  if x ∈ q.ready then
    (⟨q.pending, q.ready.erase x, q.disjoint.mono_right (Finset.erase_subset x _)⟩, true)
  else if x ∈ q.pending then
    (⟨q.pending.erase x, q.ready, q.disjoint.mono_left (Finset.erase_subset x _)⟩, true)
  else (q, false)

variable (q : Queues) (x : Nat)

theorem upgrade_union :
    (q.upgrade x).1.pending ∪ (q.upgrade x).1.ready = q.pending ∪ q.ready := by
  unfold upgrade
  split_ifs with hx
  · ext y
    by_cases hy : y = x <;> simp [hy, hx]
  · rfl

theorem downgrade_union :
    (q.downgrade x).1.pending ∪ (q.downgrade x).1.ready = q.pending ∪ q.ready := by
  unfold downgrade
  split_ifs with hx
  · ext y
    by_cases hy : y = x <;> simp [hy, hx]
  · rfl

end Queues

/-! ## The calls of `SyncStore` on the queues -/

/-- The config store holds the queues `q`. -/
structure Abs (s : ConfigStore Queue) (q : Queues) : Prop where
  pending : ∃ xs, Represents s .pending xs ∧ xs.toFinset = q.pending
  ready : ∃ ys, Represents s .ready ys ∧ ys.toFinset = q.ready

theorem abs_empty : Abs (fun _ => none) Queues.empty :=
  ⟨⟨[], represents_empty _, rfl⟩, ⟨[], represents_empty _, rfl⟩⟩

section SyncStoreOps

open SyncStore

variable {s : ConfigStore Queue} {q : Queues}

theorem toFinset_push (xs : List Nat) (x : Nat) : (xs ++ [x]).toFinset = insert x xs.toFinset := by
  ext y
  simp

theorem addPendingTx_spec (habs : Abs s q) (x : Nat) :
    Abs (addPendingTx s x).1 (q.addPending x).1 ∧ (addPendingTx s x).2 = (q.addPending x).2 := by
  obtain ⟨p, r, hd⟩ := q
  obtain ⟨⟨xs, hxs, rfl⟩, ⟨ys, hys, rfl⟩⟩ := habs
  by_cases hr : x ∈ ys
  · -- already in ready queue
    have hq : x ∈ ys.toFinset ∨ x ∈ xs.toFinset := Or.inl (List.mem_toFinset.mpr hr)
    simp only [addPendingTx, hys.has_eq, hr, decide_true, if_true, Queues.addPending, dif_pos hq]
    exact ⟨⟨⟨xs, hxs, rfl⟩, ⟨ys, hys, rfl⟩⟩, by simp⟩
  by_cases hp : x ∈ xs
  · -- already in pending queue
    have hq : x ∈ ys.toFinset ∨ x ∈ xs.toFinset := Or.inr (List.mem_toFinset.mpr hp)
    simp only [addPendingTx, hys.has_eq, hr, decide_false, hxs.add_of_mem hp, Queues.addPending,
      dif_pos hq]
    exact ⟨⟨⟨xs, hxs, rfl⟩, ⟨ys, hys, rfl⟩⟩, by simp⟩
  · -- a new pending element
    have hq : ¬ (x ∈ ys.toFinset ∨ x ∈ xs.toFinset) := by simp [hr, hp]
    simp only [addPendingTx, hys.has_eq, hr, decide_false, hxs.add_of_not_mem hp, commit,
      Queues.addPending, dif_neg hq]
    exact ⟨⟨⟨xs ++ [x], hxs.exec_addOps hp, toFinset_push xs x⟩,
      ⟨ys, hys.exec_other (name_key_addOps s .pending x) (by decide), rfl⟩⟩, by simp⟩

/-- Moving a `tx_seq` that is not in the source queue changes nothing. -/
theorem moveTx_of_not_mem {src dst : Queue} {xs : List Nat} (hsrc : Represents s src xs)
    {x : Nat} (hx : x ∉ xs) : moveTx src dst s x = some (s, false) := by
  simp [moveTx, hsrc.remove_of_not_mem hx]

/-- Moving a `tx_seq` of the source queue, not in the target one: one transaction removes it
from the first and pushes it on the second. -/
theorem moveTx_of_mem {src dst : Queue} (hsd : src ≠ dst) {xs ys : List Nat}
    (hsrc : Represents s src xs) (hdst : Represents s dst ys) {x : Nat} (hx : x ∈ xs)
    (hy : x ∉ ys) :
    ∃ s', moveTx src dst s x = some (s', true) ∧
      (∃ xs', Represents s' src xs' ∧ xs'.toFinset = xs.toFinset.erase x) ∧
      Represents s' dst (ys ++ [x]) := by
  obtain ⟨i, hi, rfl⟩ := List.getElem_of_mem hx
  obtain ⟨tx, hremove, hkeys, hrep⟩ := hsrc.remove_of_mem hi (some [])
  -- both writes are planned on the store before either is executed
  have hdst' : Represents (exec s tx) dst ys := hdst.exec_other hkeys hsd
  have hcount : count (exec s tx) dst = count s dst := by rw [hdst'.count_eq, hdst.count_eq]
  refine ⟨exec (exec s tx) (addOps s dst xs[i]), ?_, ⟨swapRemove xs i,
    hrep.exec_other (name_key_addOps s dst _) (Ne.symm hsd), toFinset_swapRemove hi hsrc.nodup⟩,
    ?_⟩
  · simp [moveTx, hremove, commit, hdst.add_of_not_mem hy, exec_append]
  · rw [← addOps_congr hcount]
    exact hdst'.exec_addOps hy

theorem upgradeTxToReady_spec (habs : Abs s q) (x : Nat) :
    ∃ s', upgradeTxToReady s x = some (s', (q.upgrade x).2) ∧ Abs s' (q.upgrade x).1 := by
  obtain ⟨⟨xs, hxs, hxq⟩, ⟨ys, hys, hyq⟩⟩ := habs
  by_cases hx : x ∈ xs
  · have hy : x ∉ ys := fun hy => Finset.disjoint_left.mp q.disjoint
      (hxq ▸ List.mem_toFinset.mpr hx) (hyq ▸ List.mem_toFinset.mpr hy)
    obtain ⟨s', hmove, ⟨xs', hxs', hxs'q⟩, hys'⟩ := moveTx_of_mem (by decide) hxs hys hx hy
    have hq : x ∈ q.pending := hxq ▸ List.mem_toFinset.mpr hx
    refine ⟨s', by simp [upgradeTxToReady, hmove, Queues.upgrade, hq], ?_⟩
    simp only [Queues.upgrade, if_pos hq]
    exact ⟨⟨xs', hxs', by rw [hxs'q, hxq]⟩, ⟨ys ++ [x], hys', by rw [toFinset_push, hyq]⟩⟩
  · have hq : x ∉ q.pending := fun h => hx (List.mem_toFinset.mp (hxq ▸ h))
    refine ⟨s, by simp [upgradeTxToReady, moveTx_of_not_mem hxs hx, Queues.upgrade, hq], ?_⟩
    simp only [Queues.upgrade, if_neg hq]
    exact ⟨⟨xs, hxs, hxq⟩, ⟨ys, hys, hyq⟩⟩

theorem downgradeTxToPending_spec (habs : Abs s q) (x : Nat) :
    ∃ s', downgradeTxToPending s x = some (s', (q.downgrade x).2) ∧ Abs s' (q.downgrade x).1 := by
  obtain ⟨⟨xs, hxs, hxq⟩, ⟨ys, hys, hyq⟩⟩ := habs
  by_cases hy : x ∈ ys
  · have hx : x ∉ xs := fun hx => Finset.disjoint_left.mp q.disjoint
      (hxq ▸ List.mem_toFinset.mpr hx) (hyq ▸ List.mem_toFinset.mpr hy)
    obtain ⟨s', hmove, ⟨ys', hys', hys'q⟩, hxs'⟩ := moveTx_of_mem (by decide) hys hxs hy hx
    have hq : x ∈ q.ready := hyq ▸ List.mem_toFinset.mpr hy
    refine ⟨s', by simp [downgradeTxToPending, hmove, Queues.downgrade, hq], ?_⟩
    simp only [Queues.downgrade, if_pos hq]
    exact ⟨⟨xs ++ [x], hxs', by rw [toFinset_push, hxq]⟩, ⟨ys', hys', by rw [hys'q, hyq]⟩⟩
  · have hq : x ∉ q.ready := fun h => hy (List.mem_toFinset.mp (hyq ▸ h))
    refine ⟨s, by simp [downgradeTxToPending, moveTx_of_not_mem hys hy, Queues.downgrade, hq], ?_⟩
    simp only [Queues.downgrade, if_neg hq]
    exact ⟨⟨xs, hxs, hxq⟩, ⟨ys, hys, hyq⟩⟩

theorem removeTx_spec (habs : Abs s q) (x : Nat) :
    ∃ s', removeTx s x = some (s', (q.remove x).2) ∧ Abs s' (q.remove x).1 := by
  obtain ⟨⟨xs, hxs, hxq⟩, ⟨ys, hys, hyq⟩⟩ := habs
  by_cases hy : x ∈ ys
  · -- removed in ready queue
    obtain ⟨i, hi, rfl⟩ := List.getElem_of_mem hy
    obtain ⟨tx, hremove, hkeys, hrep⟩ := hys.remove_of_mem hi none
    have hq : ys[i] ∈ q.ready := hyq ▸ List.mem_toFinset.mpr hy
    refine ⟨exec s tx, by simp [removeTx, hremove, commit, Queues.remove, hq], ?_⟩
    simp only [Queues.remove, if_pos hq]
    exact ⟨⟨xs, hxs.exec_other hkeys (by decide), hxq⟩,
      ⟨swapRemove ys i, hrep, by rw [toFinset_swapRemove hi hys.nodup, hyq]⟩⟩
  have hq : x ∉ q.ready := fun h => hy (List.mem_toFinset.mp (hyq ▸ h))
  by_cases hx : x ∈ xs
  · -- removed in pending queue
    obtain ⟨i, hi, rfl⟩ := List.getElem_of_mem hx
    obtain ⟨tx, hremove, hkeys, hrep⟩ := hxs.remove_of_mem hi none
    have hq' : xs[i] ∈ q.pending := hxq ▸ List.mem_toFinset.mpr hx
    refine ⟨exec s tx, by simp [removeTx, hys.remove_of_not_mem hy, hremove, commit,
      Queues.remove, hq, hq'], ?_⟩
    simp only [Queues.remove, if_neg hq, if_pos hq']
    exact ⟨⟨swapRemove xs i, hrep, by rw [toFinset_swapRemove hi hxs.nodup, hxq]⟩,
      ⟨ys, hys.exec_other hkeys (by decide), hyq⟩⟩
  · have hq' : x ∉ q.pending := fun h => hx (List.mem_toFinset.mp (hxq ▸ h))
    refine ⟨s, by simp [removeTx, hys.remove_of_not_mem hy, hxs.remove_of_not_mem hx,
      Queues.remove, hq, hq'], ?_⟩
    simp only [Queues.remove, if_neg hq, if_neg hq']
    exact ⟨⟨xs, hxs, hxq⟩, ⟨ys, hys, hyq⟩⟩

/-- `random_tx` draws a ready `tx_seq`, else a pending one, and finds none only when both sets
are empty. -/
theorem randomTx_spec (habs : Abs s q) {pick : Nat → Nat} (hpick : ∀ n, 0 < n → pick n < n) :
    ∃ r, randomTx s pick = some r ∧ (r = none ↔ q.ready = ∅ ∧ q.pending = ∅) ∧
      ∀ y, r = some y → y ∈ q.ready ∨ y ∈ q.pending := by
  obtain ⟨p, r, hd⟩ := q
  obtain ⟨⟨xs, hxs, rfl⟩, ⟨ys, hys, rfl⟩⟩ := habs
  obtain ⟨r₁, hr₁, hnone₁, hmem₁⟩ := hys.random_spec hpick
  cases r₁ with
  | some y =>
    -- try to find a tx in ready queue with high priority
    have hne : ys ≠ [] := fun h => Option.some_ne_none y (hnone₁.mpr h)
    refine ⟨some y, by simp [randomTx, hr₁], by simp [hne], fun y' hy' => ?_⟩
    rw [Option.some_inj] at hy'
    exact Or.inl (List.mem_toFinset.mpr (hy' ▸ hmem₁ y rfl))
  | none =>
    -- otherwise, find tx in pending queue
    have hys' : ys = [] := hnone₁.mp rfl
    obtain ⟨r₂, hr₂, hnone₂, hmem₂⟩ := hxs.random_spec hpick
    refine ⟨r₂, by simp [randomTx, hr₁, hr₂], ?_, fun y hy => Or.inr
      (List.mem_toFinset.mpr (hmem₂ y hy))⟩
    subst hys'
    simp [hnone₂]

end SyncStoreOps

/-! ## Runs of calls -/

/-- A call of `SyncStore` that changes the queues. -/
inductive SyncOp
  | addPendingTx (txSeq : Nat)
  | upgradeTxToReady (txSeq : Nat)
  | downgradeTxToPending (txSeq : Nat)
  | removeTx (txSeq : Nat)
deriving DecidableEq, Repr

namespace SyncOp

/-- The call on the config store: the new store and the result. -/
def step (s : ConfigStore Queue) : SyncOp → Option (ConfigStore Queue × Bool)
  | addPendingTx x => some (SyncStore.addPendingTx s x)
  | upgradeTxToReady x => SyncStore.upgradeTxToReady s x
  | downgradeTxToPending x => SyncStore.downgradeTxToPending s x
  | removeTx x => SyncStore.removeTx s x

/-- What the call does to the queues, and what it returns. -/
def absStep (q : Queues) : SyncOp → Queues × Bool
  | addPendingTx x => q.addPending x
  | upgradeTxToReady x => q.upgrade x
  | downgradeTxToPending x => q.downgrade x
  | removeTx x => q.remove x

/-- Every call returns `true` exactly when it changed a set. -/
theorem changed_iff (q : Queues) (op : SyncOp) :
    (op.absStep q).2 = true ↔ (op.absStep q).1 ≠ q := by
  cases op with
  | addPendingTx x =>
    simp only [absStep, Queues.addPending]
    split_ifs with h
    · simp
    · simp only [true_iff]
      exact fun heq => h (Or.inr (congrArg Queues.pending heq ▸ Finset.mem_insert_self x _))
  | upgradeTxToReady x =>
    simp only [absStep, Queues.upgrade]
    split_ifs with h
    · simp only [true_iff]
      exact fun heq => Finset.notMem_erase x _ (congrArg Queues.pending heq ▸ h)
    · simp
  | downgradeTxToPending x =>
    simp only [absStep, Queues.downgrade]
    split_ifs with h
    · simp only [true_iff]
      exact fun heq => Finset.notMem_erase x _ (congrArg Queues.ready heq ▸ h)
    · simp
  | removeTx x =>
    simp only [absStep, Queues.remove]
    split_ifs with h h'
    · simp only [true_iff]
      exact fun heq => Finset.notMem_erase x _ (congrArg Queues.ready heq ▸ h)
    · simp only [true_iff]
      exact fun heq => Finset.notMem_erase x _ (congrArg Queues.pending heq ▸ h')
    · simp

end SyncOp

/-- **One call** on a store that holds `q` does what its abstract counterpart does. -/
theorem step_spec {s : ConfigStore Queue} {q : Queues} (habs : Abs s q) (op : SyncOp) :
    ∃ s', op.step s = some (s', (op.absStep q).2) ∧ Abs s' (op.absStep q).1 := by
  cases op with
  | addPendingTx x =>
    obtain ⟨habs', hres⟩ := addPendingTx_spec habs x
    exact ⟨_, by rw [SyncOp.step, SyncOp.absStep, ← hres], habs'⟩
  | upgradeTxToReady x => exact upgradeTxToReady_spec habs x
  | downgradeTxToPending x => exact downgradeTxToPending_spec habs x
  | removeTx x => exact removeTx_spec habs x

theorem step_simulatesRel :
    Refine.SimulatesRel (fun s op => (SyncOp.step s op).map Prod.fst)
      (fun q op => (SyncOp.absStep q op).1) Abs fun _ => True := by
  intro s q op habs _
  obtain ⟨s', hstep, habs'⟩ := step_spec habs op
  exact ⟨s', by simp only [hstep, Option.map_some], habs'⟩

/-- The config store after a run of calls on an empty one. -/
def runSync (ops : List SyncOp) : Option (ConfigStore Queue) :=
  ops.foldlM (fun s op => (SyncOp.step s op).map Prod.fst) fun _ => none

/-- The queues after the run. -/
def absRunSync (ops : List SyncOp) : Queues :=
  ops.foldl (fun q op => (SyncOp.absStep q op).1) Queues.empty

/-- **The queues over every run**: every run of calls from an empty config store succeeds; the
store then holds two disjoint sets, each kept by a `count` equal to its size, an `index2seq` that
lists it by the indices below `count` and nothing beyond, and a `seq2index` inverse to it; every
further call succeeds, returns `true` exactly when it changed a set, and an upgrade or downgrade
moves one element without changing the union; and `random_tx` returns an element of a set, or
`None` when both are empty. -/
theorem syncStore_queues_spec (ops : List SyncOp) :
    ∃ s q, runSync ops = some s ∧ absRunSync ops = q ∧ Abs s q ∧
      count s .pending = q.pending.card ∧ count s .ready = q.ready.card ∧
      (∀ op : SyncOp, ∃ s', op.step s = some (s', (op.absStep q).2) ∧ Abs s' (op.absStep q).1 ∧
        ((op.absStep q).2 = true ↔ (op.absStep q).1 ≠ q)) ∧
      (∀ x, (q.upgrade x).1.pending ∪ (q.upgrade x).1.ready = q.pending ∪ q.ready ∧
        (q.downgrade x).1.pending ∪ (q.downgrade x).1.ready = q.pending ∪ q.ready) ∧
      ∀ pick : Nat → Nat, (∀ n, 0 < n → pick n < n) → ∃ r, SyncStore.randomTx s pick = some r ∧
        (r = none ↔ q.ready = ∅ ∧ q.pending = ∅) ∧ ∀ y, r = some y → y ∈ q.ready ∨ y ∈ q.pending := by
  obtain ⟨s, hrun, habs⟩ := step_simulatesRel.run ops abs_empty fun _ _ => trivial
  obtain ⟨xs, hxs, hxq⟩ := habs.pending
  obtain ⟨ys, hys, hyq⟩ := habs.ready
  refine ⟨s, _, hrun, rfl, habs, ?_, ?_, fun op => ?_, fun x => ⟨Queues.upgrade_union _ x,
    Queues.downgrade_union _ x⟩, fun pick hpick => randomTx_spec habs hpick⟩
  · rw [hxs.count_eq_card, hxq]
    rfl
  · rw [hys.count_eq_card, hyq]
    rfl
  · obtain ⟨s', hstep, habs'⟩ := step_spec habs op
    exact ⟨s', hstep, habs', SyncOp.changed_iff _ op⟩

end Ionian.Sync
