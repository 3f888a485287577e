import Ionian.Storage.ChunkRead

/-!
# Storage.LogManager — putting chunks, finalizing a transaction, copying a duplicate file

The write path of `LogManager` over the flow store and the transaction store.  `put_chunks_with_tx_hash`
writes the chunks of a transaction at its place in the flow, after checking the hash and that the
chunks stay inside the transaction's padded size.  `finalize_tx` first writes the zero padding
after the file, up to the padded size, segment by segment (`padding_rear_data`), and only then
checks that every entry of the file is stored; `finalize_tx_with_hash` does the same after
checking the hash.  `finalize_tx` then copies the data to the later transactions of the same data
root (`copy_tx_data`); `finalize_tx_with_hash` does not.

A failed `finalize_tx` keeps the padding it wrote, and the padding written twice overlaps itself,
so once a finalization has failed for missing data, no finalization of that transaction succeeds
(`finalizeTx_fails_after_missing`).  `finalize_tx_with_hash`, which the upload and the sync paths
call, marks no other transaction completed (`finalizeTxWithHash_keeps_other_completed`).

The build is a debug one, as in every storage module.  The range check of `put_chunks` is `u64`
arithmetic: a saturating product, then a sum and a shift by the transaction's start that overflow
(a panic in a debug build, `none` here; a release build would wrap).  Without an overflow it compares the chunks' end with the padded size
(`putTxChunks_of_lt`); from the start index `2^64 / ENTRY_SIZE` on, the sum overflows for any data
(`putChunks_overflow`).

The merkle trees that `append_entries` updates (`last_chunk_merkle`, `pora_chunks_merkle`) are
not modelled, nor are the database errors of the stores.  The transaction store keeps each
transaction with its `data_merkle_root`, which the `Transaction` model leaves out.  The
subtractions of `padding_rear_data` and `copy_tx_data` do not underflow on the paths the sizes
allow, and are `Nat` subtractions here.
-/

namespace Ionian.Storage

open Kv

/-- `PORA_CHUNK_SIZE`: the entries of a segment. -/
def poraChunkSize : Nat := 1024

/-- `merkle_light::next_pow2`: the least power of two at least `n`, for `n ≥ 1`. -/
def nextPow2 (n : Nat) : Nat :=
  let n := n - 1
  let n := n ||| n >>> 1
  let n := n ||| n >>> 2
  let n := n ||| n >>> 4
  let n := n ||| n >>> 8
  let n := n ||| n >>> 16
  let n := n ||| n >>> 32
  n + 1

/-- `u64::saturating_mul` -/
def saturatingMul (a b : Nat) : Nat := min (a * b) (2 ^ 64 - 1)

/-- `*` on `usize`, which panics on overflow: `none`. -/
def checkedMul (a b : Nat) : Option Nat := if a * b < 2 ^ 64 then some (a * b) else none

/-- `compute_padded_chunk_size`: the chunks of the padded file, and the next power of two. -/
def computePaddedChunkSize (sizeBytes : Nat) : Nat × Nat :=
  let chunkLen := bytesToChunks sizeBytes
  let chunksNextPow2 := nextPow2 chunkLen
  if chunksNextPow2 = chunkLen then (chunksNextPow2, chunksNextPow2)
  else
    let minChunk := if chunksNextPow2 < 16 then 1 else chunksNextPow2 >>> 4
    let paddedChunks := ((chunkLen - 1) / minChunk + 1) * minChunk
    (paddedChunks, chunksNextPow2)

/-- `compute_segment_size`: the segments, and the chunks of the last one. -/
def computeSegmentSize (chunks chunksPerSegment : Nat) : Nat × Nat :=
  if chunks % chunksPerSegment = 0 then (chunks / chunksPerSegment, chunksPerSegment)
  else (chunks / chunksPerSegment + 1, chunks % chunksPerSegment)

structure LogManager where
  flowStore : FlowStore
  /-- `COL_TX`: each transaction by its `seq`, with its `data_merkle_root`. -/
  txs : SortedMap Nat (Transaction × H256)
  /-- `COL_TX_DATA_ROOT_INDEX`: the `seq`s of the transactions of each data root, in order. -/
  dataRootIndex : List (H256 × List Nat)
  /-- `COL_TX_COMPLETED` -/
  completed : List Nat
deriving DecidableEq

namespace LogManager

variable (keccak : List UInt8 → H256) (hash : Transaction → H256)

def getTxBySeqNumber (m : LogManager) (seq : Nat) : Option Transaction :=
  (m.txs.lookup seq).map Prod.fst

def checkTxCompleted (m : LogManager) (txSeq : Nat) : Bool := decide (txSeq ∈ m.completed)

/-- `TransactionStore::finalize_tx`: the completion flag is put. -/
def txStoreFinalizeTx (m : LogManager) (txSeq : Nat) : LogManager :=
  { m with completed := txSeq :: m.completed }

def getTxSeqListByDataRoot (m : LogManager) (dataRoot : H256) : List Nat :=
  (m.dataRootIndex.lookup dataRoot).getD []

def getChunkByFlowIndex (m : LogManager) (index length : Nat) :
    Option (Except String (Option ChunkArray)) :=
  m.flowStore.getEntries keccak index (index + length)

/-- `append_entries`, on the flow store. -/
def appendEntries (m : LogManager) (flowEntryArray : ChunkArray) :
    Option (LogManager × Except String Unit) :=
  (m.flowStore.appendEntries keccak flowEntryArray).map fun (flowStore, r) => ({ m with flowStore }, r)

/-- The range check and the write that `put_chunks` and `put_chunks_with_tx_hash` share. -/
def putTxChunks (m : LogManager) (txSeq : Nat) (tx : Transaction) (chunks : ChunkArray) :
    Option (LogManager × Except String Unit) :=
  let chunksForProof := (computePaddedChunkSize tx.size).1
  (checkedAdd (saturatingMul chunks.startIndex entrySize) chunks.data.length).bind fun dataEnd =>
    (checkedMul chunksForProof entrySize).bind fun txEnd =>
      if dataEnd > txEnd then
        some (m, .error ("put chunks with data out of tx range: tx_seq=" ++ toString txSeq ++
          " start_index=" ++ toString chunks.startIndex ++ " data_len=" ++
          toString chunks.data.length))
      else
        (checkedAdd chunks.startIndex tx.startEntryIndex).bind fun startIndex =>
          m.appendEntries keccak { chunks with startIndex }

/-- `put_chunks` -/
def putChunks (m : LogManager) (txSeq : Nat) (chunks : ChunkArray) :
    Option (LogManager × Except String Unit) :=
  match m.getTxBySeqNumber txSeq with
  | none => some (m, .error ("put chunks with missing tx: tx_seq=" ++ toString txSeq))
  | some tx => m.putTxChunks keccak txSeq tx chunks

/-- `put_chunks_with_tx_hash` -/
def putChunksWithTxHash (m : LogManager) (txSeq : Nat) (txHash : H256) (chunks : ChunkArray) :
    Option (LogManager × Except String Bool) :=
  match m.getTxBySeqNumber txSeq with
  | none => some (m, .error ("put chunks with missing tx: tx_seq=" ++ toString txSeq))
  | some tx =>
    if hash tx ≠ txHash then some (m, .ok false)
    else (m.putTxChunks keccak txSeq tx chunks).map fun (m, r) => (m, r.map fun () => true)

/-- The loop of `padding_rear_data` over the segments of the file from `segmentsForFile` on, up
to the last segment of the padded file: the zeros after the file in each of them.  It runs
`fuel = segmentsForProof + 1 - segmentsForFile` times, so the fuel ends where the loop does. -/
def paddingLoop (m : LogManager) (tx : Transaction) (txSeq segmentsForProof
    lastSegmentSizeForProof : Nat) : Nat → Nat → Nat → Option (LogManager × Except String Unit)
  | 0, _, _ => some (m, .ok ())
  | fuel + 1, segmentsForFile, lastSegmentSizeForFile =>
    if segmentsForFile ≤ segmentsForProof then
      let paddingSize :=
        if segmentsForFile = segmentsForProof then
          (lastSegmentSizeForProof - lastSegmentSizeForFile) * entrySize
        else (poraChunkSize - lastSegmentSizeForFile) * entrySize
      let put : Option (LogManager × Except String Unit) :=
        if paddingSize > 0 then
          -- This tx hash is guaranteed to be consistent.
          (m.putChunksWithTxHash keccak hash txSeq (hash tx) ⟨List.replicate paddingSize 0,
            (segmentsForFile - 1) * poraChunkSize + lastSegmentSizeForFile⟩).map
            fun (m, r) => (m, r.map fun _ => ())
        else some (m, .ok ())
      put.bind fun (m, r) =>
        match r with
        | .error e => some (m, .error e)
        | .ok () =>
          paddingLoop m tx txSeq segmentsForProof lastSegmentSizeForProof fuel (segmentsForFile + 1) 0
    else some (m, .ok ())

/-- `padding_rear_data` -/
def paddingRearData (m : LogManager) (tx : Transaction) (txSeq : Nat) :
    Option (LogManager × Except String Unit) :=
  let chunks := (computePaddedChunkSize tx.size).1
  let (segmentsForProof, lastSegmentSizeForProof) := computeSegmentSize chunks poraChunkSize
  let chunksForFile := bytesToEntries tx.size
  let (segmentsForFile, lastSegmentSizeForFile) := computeSegmentSize chunksForFile poraChunkSize
  paddingLoop keccak hash m tx txSeq segmentsForProof lastSegmentSizeForProof
    (segmentsForProof + 1 - segmentsForFile) segmentsForFile lastSegmentSizeForFile

/-- The part `finalize_tx` and `finalize_tx_with_hash` share: the rear padding written, then every
entry of the file checked present, and the transaction marked completed. -/
def padAndComplete (m : LogManager) (tx : Transaction) (txSeq : Nat) :
    Option (LogManager × Except String Unit) :=
  (m.paddingRearData keccak hash tx txSeq).bind fun (m, r) =>
    match r with
    | .error e => some (m, .error e)
    | .ok () =>
      let txEndIndex := tx.startEntryIndex + bytesToEntries tx.size
      (m.flowStore.getEntries keccak tx.startEntryIndex txEndIndex).map fun r =>
        match r with
        | .error e => (m, .error e)
        | .ok none => (m, .error ("finalize tx with data missing: tx_seq=" ++ toString txSeq))
        | .ok (some _) => (m.txStoreFinalizeTx txSeq, .ok ())

/-! ### `copy_tx_data` -/

/-- The first loop of `copy_tx_data`: the offsets of the transactions not yet completed. -/
def copyOffsets (m : LogManager) (oldTx : Transaction) : List Nat → Except String (List (Nat × Nat))
  | [] => .ok []
  | seq :: rest =>
    -- No need to copy data for completed tx.
    if m.checkTxCompleted seq then copyOffsets m oldTx rest
    else
      match m.getTxBySeqNumber seq with
      | none => .error "to tx missing"
      | some tx => (copyOffsets m oldTx rest).map
          ((tx.seq, tx.startEntryIndex - oldTx.startEntryIndex) :: ·)

/-- The inner loop of `copy_tx_data`: one batch appended at each offset. -/
def copyBatch (m : LogManager) (batchData : ChunkArray) :
    List (Nat × Nat) → Option (LogManager × Except String Unit)
  | [] => some (m, .ok ())
  | (_, offset) :: rest =>
    (m.appendEntries keccak { batchData with startIndex := batchData.startIndex + offset }).bind
      fun (m, r) =>
        match r with
        | .error e => some (m, .error e)
        | .ok () => copyBatch m batchData rest

/-- The outer loop of `copy_tx_data`: the old transaction's entries, segment by segment. -/
def copyBatches (m : LogManager) (toTxOffsetList : List (Nat × Nat)) :
    List (Nat × Nat) → Option (LogManager × Except String Unit)
  | [] => some (m, .ok ())
  | (batchStart, batchEnd) :: rest =>
    (m.getChunkByFlowIndex keccak batchStart (batchEnd - batchStart)).bind fun r =>
      match r with
      | .error e => some (m, .error e)
      | .ok none => some (m, .error "tx data missing")
      | .ok (some batchData) =>
        (m.copyBatch keccak batchData toTxOffsetList).bind fun (m, r) =>
          match r with
          | .error e => some (m, .error e)
          | .ok () => copyBatches m toTxOffsetList rest

/-- `copy_tx_data` -/
def copyTxData (m : LogManager) (fromTxSeq : Nat) (toTxSeqList : List Nat) :
    Option (LogManager × Except String Unit) :=
  match m.getTxBySeqNumber fromTxSeq with
  | none => some (m, .error "from tx missing")
  | some oldTx =>
    match m.copyOffsets oldTx toTxSeqList with
    | .error e => some (m, .error e)
    | .ok [] => some (m, .ok ())
    | .ok toTxOffsetList =>
      (batchIter oldTx.startEntryIndex (oldTx.startEntryIndex + oldTx.numEntries)
          poraChunkSize).bind fun batches =>
      (m.copyBatches keccak toTxOffsetList batches).map fun (m, r) =>
        match r with
        | .error e => (m, .error e)
        -- num_entries() includes the rear padding data, so no need for more padding.
        | .ok () => (toTxOffsetList.foldl (fun m p => m.txStoreFinalizeTx p.1) m, .ok ())

/-! ### Finalizing -/

/-- `finalize_tx` -/
def finalizeTx (m : LogManager) (txSeq : Nat) : Option (LogManager × Except String Unit) :=
  match m.txs.lookup txSeq with
  | none => some (m, .error ("finalize_tx with tx missing: tx_seq=" ++ toString txSeq))
  | some (tx, dataMerkleRoot) =>
    (m.padAndComplete keccak hash tx txSeq).bind fun (m, r) =>
      match r with
      | .error e => some (m, .error e)
      | .ok () =>
        let sameRootSeqList := m.getTxSeqListByDataRoot dataMerkleRoot
        -- Check if there are other same-root transaction not finalized.
        if sameRootSeqList.head? = some txSeq then m.copyTxData keccak txSeq sameRootSeqList.tail
        else some (m, .ok ())

/-- `finalize_tx_with_hash` -/
def finalizeTxWithHash (m : LogManager) (txSeq : Nat) (txHash : H256) :
    Option (LogManager × Except String Bool) :=
  match m.getTxBySeqNumber txSeq with
  | none => some (m, .error ("finalize_tx with tx missing: tx_seq=" ++ toString txSeq))
  | some tx =>
    if hash tx ≠ txHash then some (m, .ok false)
    else (m.padAndComplete keccak hash tx txSeq).map fun (m, r) => (m, r.map fun () => true)

/-! ## The range check of `put_chunks` -/

theorem checkedMul_of_lt {a b : Nat} (h : a * b < 2 ^ 64) : checkedMul a b = some (a * b) :=
  if_pos h

theorem saturatingMul_of_lt {a b : Nat} (h : a * b < 2 ^ 64) : saturatingMul a b = a * b :=
  min_eq_left (by omega)

variable {keccak} in
/-- Without an overflow the check is a comparison of the chunks' end with the padded size: an
error past it, and otherwise the chunks appended at the transaction's start. -/
theorem putTxChunks_of_lt {m : LogManager} {txSeq : Nat} {tx : Transaction} {chunks : ChunkArray}
    (hsum : chunks.startIndex * entrySize + chunks.data.length < 2 ^ 64)
    (hpad : (computePaddedChunkSize tx.size).1 * entrySize < 2 ^ 64)
    (hstart : chunks.startIndex + tx.startEntryIndex < 2 ^ 64) :
    ((chunks.startIndex * entrySize + chunks.data.length >
        (computePaddedChunkSize tx.size).1 * entrySize) →
      ∃ e, m.putTxChunks keccak txSeq tx chunks = some (m, .error e)) ∧
    ((chunks.startIndex * entrySize + chunks.data.length ≤
        (computePaddedChunkSize tx.size).1 * entrySize) →
      m.putTxChunks keccak txSeq tx chunks =
        m.appendEntries keccak { chunks with startIndex := chunks.startIndex + tx.startEntryIndex }) := by
  have hmul : chunks.startIndex * entrySize < 2 ^ 64 := by omega
  unfold putTxChunks
  simp only [saturatingMul_of_lt hmul, checkedAdd_of_lt hsum, checkedMul_of_lt hpad,
    Option.bind_some]
  refine ⟨fun hgt => ⟨_, if_pos hgt⟩, fun hle => ?_⟩
  rw [if_neg (by omega), checkedAdd_of_lt hstart, Option.bind_some]

variable {keccak} in
/-- **A start index from `2^64 / ENTRY_SIZE` on overflows the range check.**  The saturated
product is `u64::MAX`, and adding the length of any data overflows: `put_chunks` and
`put_chunks_with_tx_hash` panic for every stored transaction. -/
theorem putChunks_overflow {m : LogManager} {txSeq : Nat} {tx : Transaction} {chunks : ChunkArray}
    (htx : m.getTxBySeqNumber txSeq = some tx) (hstart : 2 ^ 56 ≤ chunks.startIndex)
    (hlen : 0 < chunks.data.length) :
    m.putChunks keccak txSeq chunks = none ∧
      m.putChunksWithTxHash keccak hash txSeq (hash tx) chunks = none := by
  have hsat : saturatingMul chunks.startIndex entrySize = 2 ^ 64 - 1 := by
    unfold saturatingMul entrySize
    omega
  have hput : m.putTxChunks keccak txSeq tx chunks = none := by
    unfold putTxChunks
    rw [hsat, checkedAdd, if_neg (by omega), Option.bind_none]
  constructor
  · simp only [putChunks, htx, hput]
  · simp only [putChunksWithTxHash, htx, ne_eq, not_true_eq_false, if_false, hput, Option.map_none]

/-! ## The transaction store across the flow writes -/

/-- Two states with the same transaction store: the same transactions, data root index and
completion flags. -/
def SameTxStore (m m' : LogManager) : Prop :=
  m'.txs = m.txs ∧ m'.dataRootIndex = m.dataRootIndex ∧ m'.completed = m.completed

theorem SameTxStore.refl (m : LogManager) : SameTxStore m m := ⟨rfl, rfl, rfl⟩

theorem SameTxStore.trans {m₁ m₂ m₃ : LogManager} (h₁₂ : SameTxStore m₁ m₂)
    (h₂₃ : SameTxStore m₂ m₃) : SameTxStore m₁ m₃ :=
  ⟨h₂₃.1.trans h₁₂.1, h₂₃.2.1.trans h₁₂.2.1, h₂₃.2.2.trans h₁₂.2.2⟩

variable {keccak hash}

theorem appendEntries_sameTxStore {m m' : LogManager} {a : ChunkArray} {r : Except String Unit}
    (h : m.appendEntries keccak a = some (m', r)) : SameTxStore m m' := by
  obtain ⟨_, -, h⟩ := Option.map_eq_some_iff.mp h
  cases h
  exact SameTxStore.refl m

theorem putTxChunks_sameTxStore {m m' : LogManager} {txSeq : Nat} {tx : Transaction}
    {chunks : ChunkArray} {r : Except String Unit}
    (h : m.putTxChunks keccak txSeq tx chunks = some (m', r)) : SameTxStore m m' := by
  unfold putTxChunks at h
  obtain ⟨_, -, h⟩ := Option.bind_eq_some_iff.mp h
  obtain ⟨_, -, h⟩ := Option.bind_eq_some_iff.mp h
  -- the range error returns the state it was given; otherwise the flow is written
  split at h
  · cases h
    exact SameTxStore.refl _
  · obtain ⟨_, -, h⟩ := Option.bind_eq_some_iff.mp h
    exact appendEntries_sameTxStore h

theorem putChunksWithTxHash_sameTxStore {m m' : LogManager} {txSeq : Nat} {txHash : H256}
    {chunks : ChunkArray} {r : Except String Bool}
    (h : m.putChunksWithTxHash keccak hash txSeq txHash chunks = some (m', r)) :
    SameTxStore m m' := by
  unfold putChunksWithTxHash at h
  -- every branch but the write returns the state it was given
  split at h
  · cases h
    exact SameTxStore.refl _
  · split at h
    · cases h
      exact SameTxStore.refl _
    · obtain ⟨⟨m₁, r₁⟩, h₁, h⟩ := Option.map_eq_some_iff.mp h
      simp only [Prod.mk.injEq] at h
      obtain ⟨rfl, -⟩ := h
      exact putTxChunks_sameTxStore h₁

/-- The padding of one segment writes only the flow. -/
theorem padSegment_sameTxStore {m m₁ : LogManager} {tx : Transaction} {txSeq n start : Nat}
    {r₁ : Except String Unit}
    (h : (if n > 0 then (m.putChunksWithTxHash keccak hash txSeq (hash tx)
        ⟨List.replicate n 0, start⟩).map (fun x => (x.1, x.2.map fun _ => ()))
      else some (m, .ok ())) = some (m₁, r₁)) : SameTxStore m m₁ := by
  split at h
  · obtain ⟨⟨m₀, r₀⟩, h₀, h⟩ := Option.map_eq_some_iff.mp h
    simp only [Prod.mk.injEq] at h
    obtain ⟨rfl, -⟩ := h
    exact putChunksWithTxHash_sameTxStore h₀
  · cases h
    exact SameTxStore.refl _

/-- The padding loop writes only the flow. -/
theorem paddingLoop_sameTxStore {tx : Transaction} {txSeq segmentsForProof lastSegmentSizeForProof : Nat}
    {fuel segmentsForFile lastSegmentSizeForFile : Nat} {m m' : LogManager} {r : Except String Unit}
    (h : paddingLoop keccak hash m tx txSeq segmentsForProof lastSegmentSizeForProof fuel
      segmentsForFile lastSegmentSizeForFile = some (m', r)) : SameTxStore m m' := by
  induction fuel generalizing m segmentsForFile lastSegmentSizeForFile with
  | zero =>
    cases h
    exact SameTxStore.refl _
  | succ fuel ih =>
    unfold paddingLoop at h
    dsimp only at h
    split at h
    · -- the segment's padding put, then the next segments
      obtain ⟨⟨m₁, r₁⟩, hput, h⟩ := Option.bind_eq_some_iff.mp h
      have h₁ : SameTxStore m m₁ := padSegment_sameTxStore hput
      cases r₁ with
      | error e =>
        cases h
        exact h₁
      | ok u => exact h₁.trans (ih h)
    · cases h
      exact SameTxStore.refl _

theorem paddingRearData_sameTxStore {m m' : LogManager} {tx : Transaction} {txSeq : Nat}
    {r : Except String Unit} (h : m.paddingRearData keccak hash tx txSeq = some (m', r)) :
    SameTxStore m m' :=
  paddingLoop_sameTxStore h

/-- The shared part of finalizing marks the transaction completed when it succeeds, and leaves
the transaction store alone when it fails. -/
theorem padAndComplete_txStore {m m' : LogManager} {tx : Transaction} {txSeq : Nat}
    {r : Except String Unit} (h : m.padAndComplete keccak hash tx txSeq = some (m', r)) :
    ∃ m₁, SameTxStore m m₁ ∧ ((r = .ok () ∧ m' = m₁.txStoreFinalizeTx txSeq) ∨ m' = m₁) := by
  obtain ⟨⟨m₁, r₁⟩, hpad, h⟩ := Option.bind_eq_some_iff.mp h
  have h₁ := paddingRearData_sameTxStore hpad
  refine ⟨m₁, h₁, ?_⟩
  cases r₁ with
  | error e =>
    cases h
    exact Or.inr rfl
  | ok u =>
    obtain ⟨res, -, h⟩ := Option.map_eq_some_iff.mp h
    -- one case per answer of the completeness check
    rcases res with e | _ | _
    · cases h
      exact Or.inr rfl
    · cases h
      exact Or.inr rfl
    · cases h
      exact Or.inl ⟨rfl, rfl⟩

/-- `finalize_tx_with_hash` marks at most its own transaction completed. -/
theorem completed_finalizeTxWithHash {m m' : LogManager} {txSeq : Nat} {txHash : H256}
    {r : Except String Bool} (h : m.finalizeTxWithHash keccak hash txSeq txHash = some (m', r)) :
    m'.completed = txSeq :: m.completed ∨ m'.completed = m.completed := by
  unfold finalizeTxWithHash at h
  split at h
  · cases h
    exact Or.inr rfl
  · split_ifs at h
    · cases h
      exact Or.inr rfl
    · obtain ⟨⟨m₁, r₁⟩, h₁, h⟩ := Option.map_eq_some_iff.mp h
      cases h
      obtain ⟨m₂, ⟨-, -, hc⟩, ⟨-, rfl⟩ | rfl⟩ := padAndComplete_txStore h₁
      · exact Or.inl (by simp [txStoreFinalizeTx, hc])
      · exact Or.inr hc

/-- **`finalize_tx_with_hash` finalizes no duplicate.**  Whatever it returns, the completion flag
of every other transaction is as it was: the later transactions of the same data root are not
copied to, nor marked completed. -/
theorem finalizeTxWithHash_keeps_other_completed {m m' : LogManager} {txSeq : Nat} {txHash : H256}
    {r : Except String Bool} (h : m.finalizeTxWithHash keccak hash txSeq txHash = some (m', r))
    {seq : Nat} (hne : seq ≠ txSeq) : m'.checkTxCompleted seq = m.checkTxCompleted seq := by
  rcases completed_finalizeTxWithHash h with hc | hc
  · simp [checkTxCompleted, hc, hne]
  · simp [checkTxCompleted, hc]

end LogManager

open LogManager

set_option maxRecDepth 4000 in
/-- A transaction of one entry at flow index `16`, and 256 bytes put at the start index `2^56`:
the range check overflows. -/
theorem putChunks_overflow_example :
    (⟨FlowStore.new, SortedMap.empty.insert 0 (⟨[(1, H256.zero)], 16, 256, 0⟩, H256.zero), [], []⟩ :
        LogManager).getTxBySeqNumber 0 = some ⟨[(1, H256.zero)], 16, 256, 0⟩ ∧
      2 ^ 56 ≤ 2 ^ 56 ∧ 0 < 256 ∧
      ((⟨FlowStore.new, SortedMap.empty.insert 0 (⟨[(1, H256.zero)], 16, 256, 0⟩, H256.zero), [], []⟩ :
          LogManager).putChunks (fun _ => H256.zero) 0 ⟨List.replicate 256 0, 2 ^ 56⟩ = none ∧
        (⟨FlowStore.new, SortedMap.empty.insert 0 (⟨[(1, H256.zero)], 16, 256, 0⟩, H256.zero), [], []⟩ :
          LogManager).putChunksWithTxHash (fun _ => H256.zero) (fun _ => H256.zero) 0 H256.zero
            ⟨List.replicate 256 0, 2 ^ 56⟩ = none) :=
  ⟨rfl, le_rfl, by decide, LogManager.putChunks_overflow (fun _ => H256.zero) rfl le_rfl (by decide)⟩

set_option maxRecDepth 20000 in
/-- Two transactions of one entry and the same data root, at flow indices `16` and `17`, the entry
of the first stored: `finalize_tx_with_hash` of the first succeeds, and the second stays not
completed. -/
theorem finalizeTxWithHash_keeps_other_completed_example :
    ∃ m' : LogManager,
      LogManager.finalizeTxWithHash (fun _ => H256.zero) (fun _ => H256.zero)
          ⟨⟨SortedMap.empty.insert 0 ⟨SealInfo.new 0, .incomplete [⟨16, List.replicate 256 7⟩]⟩, .empty, 0⟩,
            (SortedMap.empty.insert 0 (⟨[(1, H256.zero)], 16, 256, 0⟩, H256.zero)).insert 1
              (⟨[(1, H256.zero)], 17, 256, 1⟩, H256.zero), [(H256.zero, [0, 1])], []⟩ 0 H256.zero =
        some (m', .ok true) ∧ m'.checkTxCompleted 0 = true ∧ (1 : Nat) ≠ 0 ∧
      m'.checkTxCompleted 1 = false := by
  refine ⟨⟨⟨SortedMap.empty.insert 0 ⟨SealInfo.new 0, .incomplete [⟨16, List.replicate 256 7⟩]⟩, .empty, 0⟩,
    (SortedMap.empty.insert 0 (⟨[(1, H256.zero)], 16, 256, 0⟩, H256.zero)).insert 1
      (⟨[(1, H256.zero)], 17, 256, 1⟩, H256.zero), [(H256.zero, [0, 1])], [0]⟩, ?_⟩
  have h : LogManager.finalizeTxWithHash (fun _ => H256.zero) (fun _ => H256.zero)
      ⟨⟨SortedMap.empty.insert 0 ⟨SealInfo.new 0, .incomplete [⟨16, List.replicate 256 7⟩]⟩, .empty, 0⟩,
        (SortedMap.empty.insert 0 (⟨[(1, H256.zero)], 16, 256, 0⟩, H256.zero)).insert 1
          (⟨[(1, H256.zero)], 17, 256, 1⟩, H256.zero), [(H256.zero, [0, 1])], []⟩ 0 H256.zero =
      some (⟨⟨SortedMap.empty.insert 0 ⟨SealInfo.new 0, .incomplete [⟨16, List.replicate 256 7⟩]⟩,
        .empty, 0⟩, (SortedMap.empty.insert 0 (⟨[(1, H256.zero)], 16, 256, 0⟩, H256.zero)).insert 1
          (⟨[(1, H256.zero)], 17, 256, 1⟩, H256.zero), [(H256.zero, [0, 1])], [0]⟩, .ok true) := rfl
  exact ⟨h, rfl, by decide, finalizeTxWithHash_keeps_other_completed h (by decide)⟩

set_option maxRecDepth 20000 in
/-- A transaction of 17 entries at flow index `16`, padded to 18, none of its entries stored:
`finalize_tx` fails for the missing data, after writing the padding entry at flow index `33`.
Once the 17 entries are put, `finalize_tx` writes the padding again, over itself, and fails. -/
theorem finalizeTx_fails_after_missing (keccak : List UInt8 → H256) :
    ∃ m₁ m₂ : LogManager,
      LogManager.finalizeTx keccak (fun _ => H256.zero)
          ⟨FlowStore.new, SortedMap.empty.insert 0
            (⟨[(5, H256.zero), (2, H256.zero)], 16, 17 * 256, 0⟩, H256.zero), [(H256.zero, [0])], []⟩ 0 =
        some (m₁, .error "finalize tx with data missing: tx_seq=0") ∧
      m₁.flowStore ≠ FlowStore.new ∧
      m₁.putChunksWithTxHash keccak (fun _ => H256.zero) 0 H256.zero ⟨List.replicate (17 * 256) 1, 0⟩ =
        some (m₂, .ok true) ∧
      m₂.finalizeTx keccak (fun _ => H256.zero) 0 =
        some (m₂, .error "start position overlapped with existing batch: start 16, len 4608") :=
  ⟨⟨⟨SortedMap.empty.insert 0 ⟨SealInfo.new 0, .incomplete [⟨33, List.replicate 256 0⟩]⟩, .empty, 0⟩,
      SortedMap.empty.insert 0 (⟨[(5, H256.zero), (2, H256.zero)], 16, 17 * 256, 0⟩, H256.zero),
      [(H256.zero, [0])], []⟩,
    ⟨⟨SortedMap.empty.insert 0
        ⟨SealInfo.new 0, .incomplete [⟨16, List.replicate (17 * 256) 1 ++ List.replicate 256 0⟩]⟩,
        SortedMap.empty.insert 1 0, 0⟩,
      SortedMap.empty.insert 0 (⟨[(5, H256.zero), (2, H256.zero)], 16, 17 * 256, 0⟩, H256.zero),
      [(H256.zero, [0])], []⟩,
    rfl, by decide, rfl, rfl⟩

end Ionian.Storage
