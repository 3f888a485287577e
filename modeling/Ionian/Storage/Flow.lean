import Ionian.Storage.EntryBatch
import Ionian.Kv.SortedMap

/-!
# Storage.Flow — the flow store: loads in a column, and the seals to do

`FlowStore` keeps every load (`EntryBatch`) of the flow under its index in the column
`COL_ENTRY_BATCH` (`db`), and in memory the seals that are ready to be sealed, each with the
version of the store it was listed at (`to_seal_set`, `to_seal_version`).

* `append_entries` cuts a chunk array at load boundaries, inserts each part into its load and lists
  the seals the part completes; the loads are then written in one transaction, which building the
  root of a complete first load fails.  A part that overlaps present data ends the call with an
  error, after the seals of the parts before it are listed and before any load is written.
* `truncate` cuts the load holding the cut and deletes the loads after it, drops the listed seals
  from the cut's seal on, and lists at a new version the seals the cut unsealed.
* `pull_seal_chunk` hands out the listed seals of the first listed seal's load;
  `submit_seal_result` writes the answers that still carry their seal's listed version, load by
  load, and unlists their seals.

The batch size is `SECTORS_PER_LOAD` (`FlowConfig::default`).  Batch roots (`COL_ENTRY_BATCH_ROOT`)
are not modelled, only whether building one fails; nor are failures to read or decode the
database.

The storage modules model a debug build.  Panics (`expect`, `assert!`, and the `u64` overflow of a
batch end in `batch_iter`, which a debug build checks) are `none`; the other index sums are kept
in `Nat`.
-/

namespace Ionian.Storage

open Kv

/-- `ChunkArray`: entries from `start_index`. -/
structure ChunkArray where
  data : List UInt8
  startIndex : Nat
deriving DecidableEq, Repr

def entrySize : Nat := 256

def bytesToEntries (sizeBytes : Nat) : Nat :=
  if sizeBytes % entrySize = 0 then sizeBytes / entrySize else sizeBytes / entrySize + 1

/-- `ChunkArray::sub_array(start, end)`. -/
def ChunkArray.subArray (c : ChunkArray) (start endIndex : Nat) : Option ChunkArray :=
  if start ≥ c.data.length / chunkSize + c.startIndex ∨ start < c.startIndex ∨
      endIndex > c.data.length / chunkSize + c.startIndex ∨ endIndex ≤ c.startIndex ∨
      endIndex ≤ start then none
  else
    let startOffset := (start - c.startIndex) * chunkSize
    let endOffset := (endIndex - c.startIndex) * chunkSize
    some ⟨(c.data.drop startOffset).take (endOffset - startOffset), start⟩

/-- `+` on `u64`, which panics on overflow in a debug build: `none`. -/
def checkedAdd (a b : Nat) : Option Nat := if a + b < 2 ^ 64 then some (a + b) else none

theorem checkedAdd_of_lt {a b : Nat} (h : a + b < 2 ^ 64) : checkedAdd a b = some (a + b) :=
  if_pos h

theorem checkedAdd_of_le {a b : Nat} (h : 2 ^ 64 ≤ a + b) : checkedAdd a b = none :=
  if_neg (Nat.not_lt.mpr h)

/-- `batch_iter(start, end, batch_size)`: the range cut at the multiples of `batch_size`.  The
`step_by` of a zero batch size panics, and so does the `u64` sum `i + batch_size` of a batch that
ends past `u64::MAX`. -/
def batchIter (start endIndex batchSize : Nat) : Option (List (Nat × Nat)) :=
  if batchSize = 0 then none
  else
    let first := start / batchSize * batchSize
    (List.range ((endIndex - first + batchSize - 1) / batchSize)).mapM fun k =>
      let i := first + k * batchSize
      (checkedAdd i batchSize).map fun batchEnd => (max start i, min endIndex batchEnd)

/-- `itertools::group_by`: the runs of consecutive elements with the same key. -/
def groupByKey {α : Type} (key : α → Nat) : List α → List (Nat × List α)
  | [] => []
  | a :: as =>
    match groupByKey key as with
    | (k, g) :: gs => if key a = k then (k, a :: g) :: gs else (key a, [a]) :: (k, g) :: gs
    | [] => [(key a, [a])]

structure SealTask where
  sealIndex : Nat
  version : Nat
  nonSealedData : List UInt8
deriving DecidableEq, Repr

namespace EntryBatch

variable (keccak : List UInt8 → H256)

/-- `EntryBatch::build_root`, as far as it fails or panics; the root itself is not modelled. -/
def buildRoot (b : EntryBatch) (isFirstChunk : Bool) : Option (Except String Unit) :=
  if isFirstChunk then
    match b.data with
    | .complete _ => some (.error "Unexpected first batch")
    | .incomplete _ => (b.getUnsealedData keccak 1 (sectorsPerLoad - 1)).map fun _ => .ok ()
  else (b.getUnsealedData keccak 0 sectorsPerLoad).map fun _ => .ok ()

end EntryBatch

structure FlowStore where
  /-- `COL_ENTRY_BATCH`: the loads by index. -/
  db : SortedMap Nat EntryBatch
  toSealSet : SortedMap Nat Nat
  toSealVersion : Nat
deriving DecidableEq

namespace FlowStore

variable (keccak : List UInt8 → H256)

def new : FlowStore := ⟨.empty, .empty, 0⟩

def getEntryBatch (s : FlowStore) (batchIndex : Nat) : Option EntryBatch := s.db.lookup batchIndex

/-- `FlowDBStore::put_entry_batch_list`: every load written, unless building a root fails. -/
def putEntryBatchList (s : FlowStore) (batchList : List (Nat × EntryBatch)) :
    Option (FlowStore × Except String Unit) :=
  let roots : Option (Except String Unit) := batchList.foldlM (fun r (batchIndex, batch) =>
    match r with
    | .error e => some (.error e)
    | .ok () => batch.buildRoot keccak (batchIndex == 0)) (.ok ())
  roots.map fun r =>
    match r with
    | .error e => (s, .error e)
    | .ok () => ({ s with db := batchList.foldl (fun db (i, batch) => db.insert i batch) s.db }, .ok ())

/-- The loop of `append_entries` over the parts of the chunk array, one per load. -/
def appendBatches (s : FlowStore) (data : ChunkArray) :
    List (Nat × Nat) → List (Nat × EntryBatch) →
      Option (FlowStore × Except String (List (Nat × EntryBatch)))
  | [], batchList => some (s, .ok batchList.reverse)
  | (startEntryIndex, endEntryIndex) :: rest, batchList =>
    -- expect("in range")
    (data.subArray startEntryIndex endEntryIndex).bind fun chunk =>
      let chunkIndex := chunk.startIndex / sectorsPerLoad
      let batch := (s.getEntryBatch chunkIndex).getD (EntryBatch.new chunkIndex)
      (batch.insertData (chunk.startIndex % sectorsPerLoad) chunk.data).bind fun (batch, r) =>
        match r with
        | .error e => some (s, .error e)
        | .ok completedSeals =>
          let toSealSet := completedSeals.foldl
            (fun m x => m.insert (chunkIndex * sealsPerLoad + x) s.toSealVersion) s.toSealSet
          appendBatches { s with toSealSet } data rest ((chunkIndex, batch) :: batchList)

def appendEntries (s : FlowStore) (data : ChunkArray) : Option (FlowStore × Except String Unit) :=
  if data.data.length % bytesPerSector ≠ 0 then some (s, .error "append_entries: invalid data size")
  else
    (batchIter data.startIndex (data.startIndex + bytesToEntries data.data.length)
      sectorsPerLoad).bind fun batches =>
    (appendBatches s data batches []).bind fun (s, r) =>
      match r with
      | .error e => some (s, .error e)
      | .ok batchList => putEntryBatchList keccak s batchList

/-- `FlowDBStore::truncate(start_index)`: the column after the cut, and the seals to seal again. -/
def truncateDb (db : SortedMap Nat EntryBatch) (startIndex : Nat) :
    Option (SortedMap Nat EntryBatch × List Nat) :=
  let startBatchIndex := startIndex / sectorsPerLoad
  let firstBatchOffset := startIndex % sectorsPerLoad
  -- the write of the first load, cut inside; the seals it unsealed; the first load to delete
  let first : Option ((SortedMap Nat EntryBatch → SortedMap Nat EntryBatch) × List Nat × Nat) :=
    if firstBatchOffset ≠ 0 then
      match db.lookup startBatchIndex with
      | none => some (id, [], startBatchIndex + 1)
      | some firstBatch => (firstBatch.truncate keccak firstBatchOffset).map fun (firstBatch, toReseal) =>
        (if !firstBatch.isEmpty then (·.insert startBatchIndex firstBatch)
          else (·.erase startBatchIndex),
          toReseal.map (startBatchIndex * sealsPerLoad + ·), startBatchIndex + 1)
    else some (id, [], startBatchIndex)
  first.map fun (write, indexToReseal, startBatchIndex) =>
    match db.lastKey with
    -- the db has no data: the transaction is dropped
    | none => (db, indexToReseal)
    | some endIndex =>
      ((List.range' startBatchIndex (endIndex + 1 - startBatchIndex)).foldl
        (fun db batchIndex => db.erase batchIndex) (write db), indexToReseal)

def truncate (s : FlowStore) (startIndex : Nat) : Option FlowStore :=
  (truncateDb keccak s.db startIndex).map fun (db, toReseal) =>
    let toSealVersion := s.toSealVersion + 1
    { db, toSealVersion,
      toSealSet := toReseal.foldl (fun m x => m.insert x toSealVersion)
        (s.toSealSet.below (startIndex / sectorsPerSeal)) }

def pullSealChunk (s : FlowStore) (sealIndexMax : Nat) : Option (Option (List SealTask)) :=
  match s.toSealSet.entries with
  | [] => some none
  | (firstIndex, firstVersion) :: rest =>
    if firstIndex ≥ sealIndexMax then some none
    else
      -- expect("Lost data chunk in to_seal_set")
      (s.getEntryBatch (firstIndex / sealsPerLoad)).bind fun batchData =>
        let sameLoad := rest.filter fun e =>
          decide (firstIndex / sealsPerLoad = e.1 / sealsPerLoad ∧ e.1 < sealIndexMax)
        (((firstIndex, firstVersion) :: sameLoad).mapM fun (sealIndex, version) =>
          -- expect("Lost seal chunk in to_seal_set")
          (batchData.getNonSealedData (sealIndex % sealsPerLoad)).bind fun r =>
            r.map fun nonSealedData => (⟨sealIndex, version, nonSealedData⟩ : SealTask)).map some

def submitSealResult (s : FlowStore) (answers : List SealAnswer) : Option FlowStore :=
  let consistent := answers.filter fun answer =>
    decide (s.toSealSet.lookup answer.sealIndex = some answer.version)
  let updatedChunk := (groupByKey (·.sealIndex / sealsPerLoad) consistent).mapM
    fun (loadIndex, answersInChunk) =>
      -- expect("Can not find chunk data")
      (s.getEntryBatch loadIndex).bind fun batchChunk =>
        (answersInChunk.foldlM EntryBatch.submitSealResult batchChunk).map fun b => (loadIndex, b)
  updatedChunk.map fun updatedChunk =>
    { s with
      toSealSet := (consistent.map (·.sealIndex)).foldl (fun m i => m.erase i) s.toSealSet
      db := updatedChunk.foldl (fun db (i, b) => db.insert i b) s.db }

end FlowStore

end Ionian.Storage
