import Ionian.Slice.Search

/-!
# Storage.ChunkData — `EntryBatchData`, the bytes of one load

A load of `BYTES_PER_LOAD` bytes is filled sector by sector.  Until every sector is present it is
`Incomplete`: a list of `PartialBatch`es, runs of sectors ordered by `start_sector`.  `insert_data`
places a run where it meets no present sector, merging it with the runs it touches, and turns the
load `Complete` once a single run holds every sector; `truncate` forgets every byte from a sector
on.  Panics (`assert!`, an index out of range) are `none`.  The `usize` values stay below
`BYTES_PER_LOAD` on every path the asserts let through.
-/

namespace Ionian.Storage

/-! ## `ionian_spec` -/

def kb : Nat := 1024
def bytesPerSector : Nat := 256
def bytesPerSeal : Nat := 4 * kb
def bytesPerLoad : Nat := 256 * kb
def sectorsPerLoad : Nat := bytesPerLoad / bytesPerSector
def sectorsPerSeal : Nat := bytesPerSeal / bytesPerSector
def sealsPerLoad : Nat := bytesPerLoad / bytesPerSeal

/-- `shared_types::CHUNK_SIZE`. -/
def chunkSize : Nat := 256

@[simp] theorem bytesPerSector_eq : bytesPerSector = 256 := rfl
@[simp] theorem bytesPerSeal_eq : bytesPerSeal = 4096 := rfl
@[simp] theorem bytesPerLoad_eq : bytesPerLoad = 262144 := rfl
@[simp] theorem sectorsPerLoad_eq : sectorsPerLoad = 1024 := rfl
@[simp] theorem sectorsPerSeal_eq : sectorsPerSeal = 16 := rfl
@[simp] theorem sealsPerLoad_eq : sealsPerLoad = 64 := rfl
@[simp] theorem chunkSize_eq : chunkSize = 256 := rfl

/-- `shared_types::bytes_to_chunks`. -/
def bytesToChunks (sizeBytes : Nat) : Nat :=
  if sizeBytes % chunkSize = 0 then sizeBytes / chunkSize else sizeBytes / chunkSize + 1

theorem bytesToChunks_of_dvd {n : Nat} (h : n % bytesPerSector = 0) :
    bytesToChunks n = n / bytesPerSector := by
  simp_all [bytesToChunks]

/-- `x as u16`. -/
def asU16 (n : Nat) : Nat := n % 2 ^ 16

/-! ## `PartialBatch` -/

/-- A run of sectors from `start_sector`, an offset in the load. -/
structure PartialBatch where
  startSector : Nat
  data : List UInt8
deriving DecidableEq, Repr

namespace PartialBatch

def endSector (p : PartialBatch) : Nat := p.startSector + bytesToChunks p.data.length

/-- The index `find` looks at: the match of the search, or the batch before the insertion point
(`Err(0)` returns at once). -/
def possibleIndex : Except Nat Nat → Option Nat
  | .ok x => some x
  | .error 0 => none
  | .error (x + 1) => some x

/-- `PartialBatch::find`: `Ok` of the batch holding `sector_index`, or `Err` of the position
a batch starting there would take. -/
def find (dataList : List PartialBatch) (sectorIndex : Nat) : Option (Except Nat Nat) :=
  match possibleIndex (Slice.binarySearchByKey startSector sectorIndex dataList) with
  | none => some (.error 0)
  | some i =>
    dataList[i]?.map fun p => if sectorIndex < p.endSector then .ok i else .error (i + 1)

end PartialBatch

/-! ## `EntryBatchData` -/

inductive EntryBatchData
  | complete (data : List UInt8)
  /-- All `PartialBatch`s are ordered by `start_sector`. -/
  | incomplete (dataList : List PartialBatch)
deriving DecidableEq, Repr

namespace EntryBatchData

open PartialBatch

def new : EntryBatchData := .incomplete []

def isEmpty : EntryBatchData → Bool
  | .incomplete [] => true
  | _ => false

/-- `get(start_byte, length_byte)`: `some none` when a byte of the range is missing. -/
def get (d : EntryBatchData) (startByte lengthByte : Nat) : Option (Option (List UInt8)) :=
  if startByte + lengthByte ≤ bytesPerLoad then
    match d with
    | .complete data => some (Slice.getRange data startByte (startByte + lengthByte))
    | .incomplete dataList =>
      (find dataList (startByte / bytesPerSector)).bind fun r =>
        match r with
        | .error _ => some none
        | .ok i => dataList[i]?.map fun p =>
          -- rebase the start byte on the batch that holds it
          let startByte := startByte - p.startSector * bytesPerSector
          Slice.getRange p.data startByte (startByte + lengthByte)
  else none

/-- `truncate(truncated_byte)`: forget every byte from `truncated_byte` on. -/
def truncate (d : EntryBatchData) (truncatedByte : Nat) : Option EntryBatchData :=
  if truncatedByte % bytesPerSector = 0 then
    match d with
    | .complete data => some (.incomplete [⟨0, data.take truncatedByte⟩])
    | .incomplete batchList =>
      (find batchList (truncatedByte / bytesPerSector)).bind fun r =>
        match r with
        | .error x => some (.incomplete (batchList.take x))
        | .ok x => batchList[x]?.map fun p =>
          let truncatedByte := truncatedByte - p.startSector * bytesPerSector
          let p : PartialBatch := { p with data := p.data.take truncatedByte }
          let partialBatchTruncate := if p.data = [] then x else x + 1
          .incomplete ((batchList.set x p).take partialBatchTruncate)
  else none

/-- The error of a run that overlaps the batch `p` at its `which` end. -/
def overlapMessage (which : String) (p : PartialBatch) : String :=
  which ++ " position overlapped with existing batch: start " ++ toString p.startSector ++
    ", len " ++ toString p.data.length

/-- The position of the new run in `list`, or the error of an overlap. -/
def insertPosition (list : List PartialBatch) (startSector endSector : Nat) :
    Option (Except String Nat) :=
  match find list startSector with
  | none => none
  | some (.ok x) => list[x]?.map fun p => .error (overlapMessage "start" p)
  | some (.error startInsertPosition) =>
    match find list (endSector - 1) with
    | none => none
    | some (.ok x) => list[x]?.map fun p => .error (overlapMessage "end" p)
    | some (.error endInsertPosition) =>
      if startInsertPosition ≠ endInsertPosition then
        some (.error "data overlapped with existing batches")
      else some (.ok startInsertPosition)

/-- The four cases of the merge at `position`: the new list and the updated batch. -/
def mergeInsert (list : List PartialBatch) (position startSector endSector : Nat)
    (data : List UInt8) : Option (List PartialBatch × PartialBatch) :=
  let mergePrev := decide (position ≠ 0) &&
    list[position - 1]?.map PartialBatch.endSector == some startSector
  let mergeNext := decide (position ≠ list.length) &&
    list[position]?.map PartialBatch.startSector == some endSector
  match mergePrev, mergeNext with
  | false, false =>
    let p : PartialBatch := ⟨startSector, data⟩
    some (list.insertIdx position p, p)
  | true, false => list[position - 1]?.map fun prev =>
    let p : PartialBatch := { prev with data := prev.data ++ data }
    (list.set (position - 1) p, p)
  | false, true => list[position]?.map fun next =>
    let p : PartialBatch := ⟨startSector, data ++ next.data⟩
    (list.set position p, p)
  | true, true =>
    -- merge the new data with the two batches around it into a single one
    (list[position - 1]?.bind fun prev => list[position]?.map fun next => (prev, next)).map
      fun (prev, next) =>
        let p : PartialBatch := { prev with data := prev.data ++ data ++ next.data }
        ((list.set (position - 1) p).eraseIdx position, p)

/-- `Complete` once a single batch from sector zero holds every sector. -/
def completeIfFull (list : List PartialBatch) : EntryBatchData :=
  match list with
  | [p] =>
    if p.startSector = 0 ∧ bytesToChunks p.data.length = sectorsPerLoad then .complete p.data
    else .incomplete list
  | _ => .incomplete list

/-- `get_intact_sealing_index`: the seals that lie inside a run. -/
def getIntactSealingIndex (startSector lengthSector : Nat) : List Nat :=
  let startIndex := asU16 ((startSector + sectorsPerSeal - 1) / sectorsPerSeal)
  let endIndex := asU16 ((startSector + lengthSector) / sectorsPerSeal)
  List.range' startIndex (endIndex - startIndex)

/-- `get_covered_sealing_index`: the seals that meet a run. -/
def getCoveredSealingIndex (startSector lengthSector : Nat) : List Nat :=
  let startIndex := asU16 (startSector / sectorsPerSeal)
  let endIndex := asU16 ((startSector + lengthSector + sectorsPerSeal - 1) / sectorsPerSeal)
  List.range' startIndex (endIndex - startIndex)

/-- `insert_data(start_byte, data)`: the new state and the seals the data made ready. -/
def insertData (d : EntryBatchData) (startByte : Nat) (data : List UInt8) :
    Option (EntryBatchData × Except String (List Nat)) :=
  if startByte % bytesPerSector ≠ 0 ∨ data.length % bytesPerSector ≠ 0 then none
  else if data = [] then some (d, .ok [])
  else
    match d with
    | .complete _ => some (d, .error "overwriting a completed PoRA Chunk with partial data")
    | .incomplete list =>
      let startSector := startByte / bytesPerSector
      let endSector := startSector + data.length / bytesPerSector
      let lengthSector := data.length / bytesPerSector
      match insertPosition list startSector endSector with
      | none => none
      | some (.error e) => some (d, .error e)
      | some (.ok position) =>
        (mergeInsert list position startSector endSector data).map fun (list', updated) =>
          let intactSealIdxs :=
            getIntactSealingIndex updated.startSector (updated.data.length / bytesPerSector)
          (completeIfFull list',
            .ok ((getCoveredSealingIndex startSector lengthSector).filter
              (· ∈ intactSealIdxs)))

/-- `available_range_entries`: `(start, length)` in sectors of every present run. -/
def availableRangeEntries : EntryBatchData → List (Nat × Nat)
  | .complete data => [(0, data.length / bytesPerSector)]
  | .incomplete batchList => batchList.map fun b => (b.startSector, b.data.length / bytesPerSector)

end EntryBatchData

end Ionian.Storage
