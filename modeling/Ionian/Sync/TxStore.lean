import Ionian.Kv.Batch

/-!
# Sync.TxStore — the pending and ready queues of the auto-sync manager

A `TxStore` keeps an enumerable set of `tx_seq`s in the config store under three families of
keys: `sync.manager.txs.{name}.count`, `….seq2index.{tx_seq}` and `….index2seq.{index}`
(`TxKey`).  Its writes are batched into a `ConfigTx`, executed at once or handed to the caller's
transaction (`db_tx`).  `SyncStore` keeps two of them, `pending` and `ready`, and moves a
`tx_seq` between them by one transaction that holds a removal from one and an insertion into the
other, both planned against the store as it was before either write.

Values are the decoded `u64`/`usize` numbers; the store's reads do not fail.  `assert!` and
`expect` are `none`.  The index drawn by `rand::thread_rng().gen_range(0..count)` is the value of
a function `pick` at `count`.
-/

namespace Ionian.Sync

open Kv

/-- The config keys of the `TxStore` named `name`. -/
inductive TxKey (ν : Type)
  | count (name : ν)
  | seqToIndex (name : ν) (txSeq : Nat)
  | indexToSeq (name : ν) (index : Nat)
deriving DecidableEq, Repr

/-- The store a key belongs to. -/
def TxKey.name {ν : Type} : TxKey ν → ν
  | .count name => name
  | .seqToIndex name _ => name
  | .indexToSeq name _ => name

/-- The config store, as far as the queues use it. -/
abbrev ConfigStore (ν : Type) := TxKey ν → Option Nat

/-- `ConfigTx`: the writes of one transaction. -/
abbrev ConfigTx (ν : Type) := List (Op (TxKey ν) Nat)

namespace TxStore

variable {ν : Type} [DecidableEq ν]

def keyCount (name : ν) : TxKey ν := .count name

def keySeqToIndex (name : ν) (txSeq : Nat) : TxKey ν := .seqToIndex name txSeq

def keyIndexToSeq (name : ν) (index : Nat) : TxKey ν := .indexToSeq name index

def indexOf (s : ConfigStore ν) (name : ν) (txSeq : Nat) : Option Nat := s (keySeqToIndex name txSeq)

/-- `TxStore::at` (`at` is a keyword here). -/
def atIndex (s : ConfigStore ν) (name : ν) (index : Nat) : Option Nat :=
  s (keyIndexToSeq name index)

def has (s : ConfigStore ν) (name : ν) (txSeq : Nat) : Bool := (indexOf s name txSeq).isSome

def count (s : ConfigStore ν) (name : ν) : Nat := (s (keyCount name)).getD 0

/-- Execute the writes at once, or append them to the caller's transaction. -/
def commit (s : ConfigStore ν) (dbTx : Option (ConfigTx ν)) (tx : ConfigTx ν) :
    ConfigStore ν × Option (ConfigTx ν) :=
  match dbTx with
  | some dbTx => (s, some (dbTx ++ tx))
  | none => (exec s tx, none)

/-- The writes of `add`: the new element takes index `count`. -/
def addOps (s : ConfigStore ν) (name : ν) (txSeq : Nat) : ConfigTx ν :=
  let count := count s name
  [.insert (keyIndexToSeq name count) txSeq, .insert (keySeqToIndex name txSeq) count,
    .insert (keyCount name) (count + 1)]

/-- `TxStore::add`: the store, the caller's transaction and whether `tx_seq` was new. -/
def add (s : ConfigStore ν) (name : ν) (dbTx : Option (ConfigTx ν)) (txSeq : Nat) :
    ConfigStore ν × Option (ConfigTx ν) × Bool :=
  -- already exists
  if has s name txSeq then (s, dbTx, false)
  else
    let (s', dbTx') := commit s dbTx (addOps s name txSeq)
    (s', dbTx', true)

/-- `TxStore::random`, with the drawn index `pick count`. -/
def random (s : ConfigStore ν) (name : ν) (pick : Nat → Nat) : Option (Option Nat) :=
  let count := count s name
  if count = 0 then some none
  else (atIndex s name (pick count)).map some

/-- The writes of `remove` for `tx_seq` at `index`: the last element moves into its slot. -/
def removeOps (s : ConfigStore ν) (name : ν) (txSeq index : Nat) : Option (ConfigTx ν) :=
  let count := count s name
  -- assert!(count > 0, "data corruption")
  if 0 < count then
    -- update `count` value, remove `seq2index` index
    let tx : ConfigTx ν := [.insert (keyCount name) (count - 1), .delete (keySeqToIndex name txSeq)]
    if index = count - 1 then
      -- remove `index2seq` index for the last element
      some (tx ++ [.delete (keyIndexToSeq name index)])
    else
      -- swap `back` to the `removed` slot
      (atIndex s name (count - 1)).map fun lastTx =>
        tx ++ [.insert (keyIndexToSeq name index) lastTx, .delete (keyIndexToSeq name (count - 1)),
          .insert (keySeqToIndex name lastTx) index]
  else none

/-- `TxStore::remove`: the store, the caller's transaction and whether `tx_seq` was there. -/
def remove (s : ConfigStore ν) (name : ν) (dbTx : Option (ConfigTx ν)) (txSeq : Nat) :
    Option (ConfigStore ν × Option (ConfigTx ν) × Bool) :=
  match indexOf s name txSeq with
  | none => some (s, dbTx, false)
  | some index => (removeOps s name txSeq index).map fun tx =>
    let (s', dbTx') := commit s dbTx tx
    (s', dbTx', true)

end TxStore

/-! ## `SyncStore` -/

/-- The two `TxStore`s of a `SyncStore`. -/
inductive Queue
  | pending
  | ready
deriving DecidableEq, Repr

namespace SyncStore

open TxStore

def addPendingTx (s : ConfigStore Queue) (txSeq : Nat) : ConfigStore Queue × Bool :=
  -- already in ready queue
  if has s .ready txSeq then (s, false)
  else
    -- always add in pending queue
    let (s', _, added) := add s .pending none txSeq
    (s', added)

/-- Move `tx_seq` from queue `src` to queue `dst` in one transaction: the body of
`upgrade_tx_to_ready` (`src = pending`) and of `downgrade_tx_to_pending` (`src = ready`). -/
def moveTx (src dst : Queue) (s : ConfigStore Queue) (txSeq : Nat) :
    Option (ConfigStore Queue × Bool) :=
  (remove s src (some []) txSeq).bind fun (_, tx, removed) =>
    -- not in the source queue
    if !removed then some (s, false)
    else
      let (_, tx, added) := add s dst tx txSeq
      some (exec s (tx.getD []), added)

def upgradeTxToReady (s : ConfigStore Queue) (txSeq : Nat) : Option (ConfigStore Queue × Bool) :=
  moveTx .pending .ready s txSeq

def downgradeTxToPending (s : ConfigStore Queue) (txSeq : Nat) :
    Option (ConfigStore Queue × Bool) :=
  moveTx .ready .pending s txSeq

def randomTx (s : ConfigStore Queue) (pick : Nat → Nat) : Option (Option Nat) :=
  (random s .ready pick).bind fun r =>
    match r with
    -- try to find a tx in ready queue with high priority
    | some val => some (some val)
    -- otherwise, find tx in pending queue
    | none => random s .pending pick

def removeTx (s : ConfigStore Queue) (txSeq : Nat) : Option (ConfigStore Queue × Bool) :=
  (remove s .ready none txSeq).bind fun (s₁, _, removed) =>
    -- removed in ready queue
    if removed then some (s₁, true)
    -- otherwise, try to remove in pending queue
    else (remove s₁ .pending none txSeq).map fun (s₂, _, removed) => (s₂, removed)

end SyncStore

end Ionian.Sync
