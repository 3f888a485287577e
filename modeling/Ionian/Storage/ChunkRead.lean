import Ionian.Storage.Flow
import Ionian.Storage.EntryBatchOps

/-!
# Storage.ChunkRead — reading the entries of a transaction from the flow

`FlowStore::get_entries(start, end)` reads the flow load by load, cut at the load boundaries by
`batch_iter`, and returns `None` as soon as a load or one of its bytes is missing.  The first
entry of the flow is never read: a part that starts at flow index `0` is read from index `1`
("Tempfix: for first chunk, its offset is always 1").

`get_chunks_by_tx_and_index_range(tx_seq, s, e)` of the log manager shifts `[s, e)` by the
transaction's `start_entry_index` and hands it to `get_entries`; it never compares `e` with the
transaction's size.  So the read is the flow's read (`getChunksByTxAndIndexRange_eq`), with the
start index set back to `s` (`getChunksByTxAndIndexRange_eq_some_iff`), and a read past the end
of a transaction returns the entries stored after it (`getChunksByTxAndIndexRange_past_tx_end`).

The transaction store is the lookup `getTxBySeqNumber`; its database errors are not modelled.
The shift by `start_entry_index` is a `Nat` sum; the `u64` sums of `batch_iter` panic past
`u64::MAX`, as in the debug build the storage modules model.
-/

namespace Ionian.Storage

open Kv

/-- `Transaction`, with the fields the reads use; `stream_ids`, `data` and `data_merkle_root` are
left out. -/
structure Transaction where
  /-- `(subtree_depth, subtree_root)` -/
  merkleNodes : List (Nat × H256)
  startEntryIndex : Nat
  size : Nat
  seq : Nat
deriving DecidableEq, Repr

/-- `TxID` -/
structure TxID where
  seq : Nat
  hash : H256
deriving DecidableEq, Repr

namespace Transaction

/-- `num_entries_of_node(depth)`: `1 << (depth - 1)`. -/
def numEntriesOfNode (depth : Nat) : Nat := 2 ^ (depth - 1)

/-- `num_entries`: the entries of the padded file, one subtree after another. -/
def numEntries (tx : Transaction) : Nat :=
  tx.merkleNodes.foldl (fun size node => size + numEntriesOfNode node.1) 0

/-- `Transaction::id`, over the hash of the transaction's encoding. -/
def id (hash : Transaction → H256) (tx : Transaction) : TxID := ⟨tx.seq, hash tx⟩

end Transaction

namespace FlowStore

variable (keccak : List UInt8 → H256)

/-- The loop of `get_entries` over the parts of the range, one per load: `some none` once a load
or a byte is missing. -/
def getEntriesLoop (s : FlowStore) : List (Nat × Nat) → List UInt8 → Option (Option (List UInt8))
  | [], data => some (some data)
  | (startEntryIndex, endEntryIndex) :: rest, data =>
    let chunkIndex := startEntryIndex / sectorsPerLoad
    let offset := startEntryIndex - chunkIndex * sectorsPerLoad
    let length := endEntryIndex - startEntryIndex
    -- Tempfix: for first chunk, its offset is always 1
    let (offset, length) := if chunkIndex = 0 ∧ offset = 0 then (1, length - 1) else (offset, length)
    match s.getEntryBatch chunkIndex with
    | none => some none
    | some entryBatch =>
      (entryBatch.getUnsealedData keccak offset length).bind fun r =>
        match r with
        | none => some none
        | some entryBatchData => getEntriesLoop s rest (data ++ entryBatchData)

/-- `FlowRead::get_entries(index_start, index_end)`: `Ok(None)` if only partial data are
available. -/
def getEntries (s : FlowStore) (indexStart indexEnd : Nat) :
    Option (Except String (Option ChunkArray)) :=
  if indexEnd ≤ indexStart then
    some (.error ("invalid entry index: start=" ++ toString indexStart ++ " end=" ++
      toString indexEnd))
  else
    (batchIter indexStart indexEnd sectorsPerLoad).bind fun batches =>
    (getEntriesLoop keccak s batches []).map fun r => .ok (r.map fun data => ⟨data, indexStart⟩)

end FlowStore

/-! ## The reads of `LogStoreChunkRead` -/

section Read

variable (keccak : List UInt8 → H256) (s : FlowStore) (getTxBySeqNumber : Nat → Option Transaction)

/-- `get_chunks_by_tx_and_index_range(tx_seq, index_start, index_end)`. -/
def getChunksByTxAndIndexRange (txSeq indexStart indexEnd : Nat) :
    Option (Except String (Option ChunkArray)) :=
  match getTxBySeqNumber txSeq with
  | none => some (.ok none)
  | some tx =>
    let startFlowIndex := tx.startEntryIndex + indexStart
    let endFlowIndex := tx.startEntryIndex + indexEnd
    (s.getEntries keccak startFlowIndex endFlowIndex).map fun r =>
      match r with
      | .error e => .error e
      | .ok none => .ok none
      -- the start index set back to the offset in the transaction
      | .ok (some txChunk) =>
        .ok (some { txChunk with startIndex := txChunk.startIndex - tx.startEntryIndex })

/-- `get_chunk_by_tx_and_index(tx_seq, index)`: the range of one entry, which must be one chunk
of `CHUNK_SIZE` bytes (`try_into`). -/
def getChunkByTxAndIndex (txSeq index : Nat) : Option (Except String (Option (List UInt8))) :=
  (getChunksByTxAndIndexRange keccak s getTxBySeqNumber txSeq index (index + 1)).map fun r =>
    match r with
    | .error e => .error e
    | .ok none => .ok none
    | .ok (some singleChunkArray) =>
      if singleChunkArray.data.length = chunkSize then .ok (some singleChunkArray.data)
      else .error "could not convert slice to array"

variable {keccak s getTxBySeqNumber}

/-- `get_entries` names the range it was asked for as the start of what it returns. -/
theorem startIndex_of_getEntries {a b : Nat} {c : ChunkArray}
    (h : s.getEntries keccak a b = some (.ok (some c))) : c.startIndex = a := by
  unfold FlowStore.getEntries at h
  split_ifs at h
  · cases h
  · obtain ⟨batches, -, h⟩ := Option.bind_eq_some_iff.mp h
    obtain ⟨r, -, hr⟩ := Option.map_eq_some_iff.mp h
    obtain ⟨data, -, rfl⟩ := Option.map_eq_some_iff.mp (Except.ok.inj hr)
    rfl

/-- The read of a stored transaction is the flow's read of its range shifted by the
transaction's start, with the start set back: nothing else of the transaction is read. -/
theorem getChunksByTxAndIndexRange_eq {txSeq : Nat} {tx : Transaction}
    (htx : getTxBySeqNumber txSeq = some tx) (indexStart indexEnd : Nat) :
    getChunksByTxAndIndexRange keccak s getTxBySeqNumber txSeq indexStart indexEnd =
      (s.getEntries keccak (tx.startEntryIndex + indexStart) (tx.startEntryIndex + indexEnd)).map
        (Except.map (Option.map fun c => { c with startIndex := c.startIndex - tx.startEntryIndex })) := by
  unfold getChunksByTxAndIndexRange
  rw [htx]
  dsimp only
  congr 1
  funext r
  rcases r with e | _ | c <;> rfl

/-- **A read is the flow's read.**  The read of `[s, e)` of a transaction returns some entries
exactly when the transaction is stored and the flow returns them for its range
`[start + s, start + e)`: the data are the flow's, and the start index is `s`. -/
theorem getChunksByTxAndIndexRange_eq_some_iff {txSeq indexStart indexEnd : Nat}
    {c : ChunkArray} :
    getChunksByTxAndIndexRange keccak s getTxBySeqNumber txSeq indexStart indexEnd =
        some (.ok (some c)) ↔
      c.startIndex = indexStart ∧ ∃ tx, getTxBySeqNumber txSeq = some tx ∧
        s.getEntries keccak (tx.startEntryIndex + indexStart) (tx.startEntryIndex + indexEnd) =
          some (.ok (some ⟨c.data, tx.startEntryIndex + indexStart⟩)) := by
  cases htx : getTxBySeqNumber txSeq with
  | none => simp [getChunksByTxAndIndexRange, htx]
  | some tx =>
    rw [getChunksByTxAndIndexRange_eq htx]
    constructor
    · intro h
      obtain ⟨r, hr, heq⟩ := Option.map_eq_some_iff.mp h
      -- only an `Ok(Some _)` of the flow maps to an `Ok(Some _)`
      rcases r with e | _ | c'
      · cases heq
      · cases heq
      · have hc' := startIndex_of_getEntries hr
        cases Except.ok.inj heq
        refine ⟨by simp [hc'], tx, rfl, ?_⟩
        rw [hr, ← hc']
    · rintro ⟨hstart, tx', htx', hflow⟩
      cases Option.some.inj htx'
      obtain ⟨data, startIndex⟩ := c
      cases hstart
      rw [hflow, Option.map_some]
      simp [Except.map]

set_option maxRecDepth 4000 in
/-- A transaction of one entry at flow index `16`, and the next one at `17`, each appended to the
flow: the read of the entries `[0, 2)` of the first one returns its entry and the entry of the
next transaction, though it has one entry. -/
theorem getChunksByTxAndIndexRange_past_tx_end (keccak : List UInt8 → H256) :
    ∃ s₁ s₂ : FlowStore,
      FlowStore.new.appendEntries keccak ⟨List.replicate 256 7, 16⟩ = some (s₁, .ok ()) ∧
      s₁.appendEntries keccak ⟨List.replicate 256 9, 17⟩ = some (s₂, .ok ()) ∧
      getChunksByTxAndIndexRange keccak s₂ (fun _ => some ⟨[(1, H256.zero)], 16, 256, 0⟩) 0 0 2 =
        some (.ok (some ⟨List.replicate 256 7 ++ List.replicate 256 9, 0⟩)) ∧
      (⟨[(1, H256.zero)], 16, 256, 0⟩ : Transaction).numEntries < 2 :=
  ⟨⟨SortedMap.empty.insert 0 ⟨SealInfo.new 0, .incomplete [⟨16, List.replicate 256 7⟩]⟩, .empty, 0⟩,
    ⟨SortedMap.empty.insert 0
      ⟨SealInfo.new 0, .incomplete [⟨16, List.replicate 256 7 ++ List.replicate 256 9⟩]⟩, .empty, 0⟩,
    rfl, rfl, rfl, by decide⟩

end Read

end Ionian.Storage
