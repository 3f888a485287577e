import Ionian.Storage.Seal

/-!
# Storage.EntryBatch — a load with its seals

`EntryBatch` pairs the bytes of a load (`EntryBatchData`) with its `SealInfo`.  `get_mut` hands out
a mutable slice; here it takes the caller's update of the slice (`EntryBatchData.getMut`).  Reads
undo the seals (`get_unsealed_data`): an unaligned start inside a sealed seal loads the sealed word
before it as the mask seed for the rest of that seal, and every seal from the next boundary on is
unsealed whole.  A sealer's answer overwrites its seal and records its context
(`submit_seal_result`); a truncation unseals the seals it cuts into and forgets their contexts
(`truncate_seal`).
-/

namespace Ionian.Storage

open PartialBatch

/-- `xs` with the values from position `a` replaced by `ys` (`copy_from_slice` into a
sub-slice). -/
def setRange (xs : List UInt8) (a : Nat) (ys : List UInt8) : List UInt8 :=
  xs.take a ++ ys ++ xs.drop (a + ys.length)

namespace EntryBatchData

/-- The caller's update of a mutable slice: it writes in place, so it keeps the length
(`copy_from_slice` asserts it). -/
def updateSlice (f : List UInt8 → Option (List UInt8)) (slice : List UInt8) : Option (List UInt8) :=
  (f slice).bind fun slice' => if slice'.length = slice.length then some slice' else none

/-- `get_mut(start_byte, length_byte)` followed by the caller's update `f` of the slice:
`some none` when `get_mut` returns `None`. -/
def getMut (d : EntryBatchData) (startByte lengthByte : Nat)
    (f : List UInt8 → Option (List UInt8)) : Option (Option EntryBatchData) :=
  if startByte + lengthByte ≤ bytesPerLoad then
    match d with
    | .complete data =>
      match Slice.getRange data startByte (startByte + lengthByte) with
      | none => some none
      | some slice => (updateSlice f slice).map fun slice' =>
        some (.complete (setRange data startByte slice'))
    | .incomplete dataList =>
      (find dataList (startByte / bytesPerSector)).bind fun r =>
        match r with
        | .error _ => some none
        | .ok index => (dataList[index]?).bind fun p =>
          -- rebase the start byte on the batch that holds it
          let startByte := startByte - p.startSector * bytesPerSector
          match Slice.getRange p.data startByte (startByte + lengthByte) with
          | none => some none
          | some slice => (updateSlice f slice).map fun slice' =>
            some (.incomplete (dataList.set index { p with data := setRange p.data startByte slice' }))
  else none

end EntryBatchData

structure EntryBatch where
  /-- The field `seal` (`seal` is a command here). -/
  sealInfo : SealInfo
  data : EntryBatchData
deriving DecidableEq, Repr

namespace EntryBatch

variable (keccak : List UInt8 → H256)

def new (loadIndexGlobal : Nat) : EntryBatch := ⟨SealInfo.new loadIndexGlobal, .new⟩

def isEmpty (b : EntryBatch) : Bool := b.data.isEmpty

def getSealedData (b : EntryBatch) (sealIndex : Nat) : Option (Option (List UInt8)) :=
  if b.sealInfo.isSealed sealIndex then b.data.get (sealIndex * bytesPerSeal) bytesPerSeal
  else some none

def getNonSealedData (b : EntryBatch) (sealIndex : Nat) : Option (Option (List UInt8)) :=
  if !b.sealInfo.isSealed sealIndex then b.data.get (sealIndex * bytesPerSeal) bytesPerSeal
  else some none

/-- The loop of `get_unsealed_data` over the `n` chunks of `BYTES_PER_SEAL` bytes (the last one
possibly shorter) from seal `startSeal` on. -/
def unsealChunks (b : EntryBatch) (startSeal : Nat) : Nat → List UInt8 → Option (List UInt8)
  | 0, _ => some []
  | n + 1, data =>
    (b.sealInfo.unsealAt keccak (data.take bytesPerSeal) (asU16 startSeal)).bind fun chunk =>
      (unsealChunks b (startSeal + 1) n (data.drop bytesPerSeal)).map (chunk ++ ·)

/-- `get_unsealed_data(start_sector, length_sector)`: `some none` when a byte is missing. -/
def getUnsealedData (b : EntryBatch) (startSector lengthSector : Nat) :
    Option (Option (List UInt8)) :=
  -- one more word before an unaligned start in a sealed seal, as the mask seed
  let advancedByOne :=
    if startSector % sectorsPerSeal = 0 then false
    else b.sealInfo.isSealed (startSector / sectorsPerSeal)
  let startByte := startSector * bytesPerSector
  let lengthByte := lengthSector * bytesPerSector
  let loaded : Option (Option (List UInt8 × Option (List UInt8))) :=
    if advancedByOne then
      (b.data.get (startByte - 32) (lengthByte + 32)).map
        (·.map fun withHint => (withHint.drop 32, some (withHint.take 32)))
    else (b.data.get startByte lengthByte).map (·.map fun data => (data, none))
  loaded.bind fun r =>
    match r with
    | none => some none
    | some (loadedData, unsealMaskSeed) =>
      let firstSealChunkLength := bytesPerSeal - startByte % bytesPerSeal
      -- unseal the first incomplete sealing chunk (if exists)
      let first : Option (List UInt8) :=
        match unsealMaskSeed with
        | none => some loadedData
        | some seed =>
          if loadedData.length < firstSealChunkLength then
            unsealWithMaskSeed keccak loadedData seed
          else (unsealWithMaskSeed keccak (loadedData.take firstSealChunkLength) seed).map
            (· ++ loadedData.drop firstSealChunkLength)
      first.bind fun loadedData =>
        if loadedData.length > firstSealChunkLength then
          let completeChunks := loadedData.drop firstSealChunkLength
          let startSeal := (startByte + firstSealChunkLength) / bytesPerSeal
          let n := (completeChunks.length + bytesPerSeal - 1) / bytesPerSeal
          (unsealChunks keccak b startSeal n completeChunks).map fun chunks =>
            some (loadedData.take firstSealChunkLength ++ chunks)
        else some (some loadedData)

def insertData (b : EntryBatch) (offset : Nat) (data : List UInt8) :
    Option (EntryBatch × Except String (List Nat)) :=
  (b.data.insertData (offset * bytesPerSector) data).map fun (data, r) => ({ b with data }, r)

/-- The loop of `truncate_seal` over the seals `unsealIndex, …` (`count` of them): unseal the
sealed ones up to the cut, and collect them. -/
def unsealTruncated (b : EntryBatch) (truncatedSector : Nat) :
    Nat → Nat → Option (EntryBatchData × List Nat)
  | _, 0 => some (b.data, [])
  | unsealIndex, count + 1 =>
    let rest := unsealTruncated b truncatedSector (unsealIndex + 1) count
    if !b.sealInfo.isSealed unsealIndex then rest
    else
      let truncatedByte := truncatedSector * bytesPerSector
      let firstUnsealByte := unsealIndex * bytesPerSeal
      let length := min (truncatedByte - firstUnsealByte) bytesPerSeal
      -- expect("Sealed chunk should be complete")
      (b.data.getMut firstUnsealByte length (b.sealInfo.unsealAt keccak · unsealIndex)).bind fun r =>
        r.bind fun data =>
          (unsealTruncated { b with data } truncatedSector (unsealIndex + 1) count).map
            fun (data, toReseal) => (data, unsealIndex :: toReseal)

def truncateSeal (b : EntryBatch) (truncatedSector : Nat) : Option (EntryBatch × List Nat) :=
  let revertedSealIndex := asU16 (truncatedSector / sectorsPerSeal)
  (b.sealInfo.truncatedSealIndex revertedSealIndex).bind fun firstUnsealIndex =>
    let lastUnsealIndex := asU16 ((truncatedSector - 1) / sectorsPerSeal)
    (unsealTruncated keccak b truncatedSector firstUnsealIndex
        (lastUnsealIndex + 1 - firstUnsealIndex)).bind fun (data, toResealSet) =>
      -- truncate the bitmap
      (b.sealInfo.truncate revertedSealIndex).map fun si => (⟨si, data⟩, toResealSet)

def truncate (b : EntryBatch) (truncatedSector : Nat) : Option (EntryBatch × List Nat) :=
  if 0 < truncatedSector ∧ truncatedSector < sectorsPerLoad then
    (b.data.truncate (truncatedSector * bytesPerSector)).bind fun data =>
      truncateSeal keccak { b with data } truncatedSector
  else none

def submitSealResult (b : EntryBatch) (answer : SealAnswer) : Option EntryBatch :=
  let localSealIndex := answer.sealIndex % sealsPerLoad
  -- "Duplicated sealing"
  if b.sealInfo.isSealed localSealIndex then none
  else if answer.sealIndex / sealsPerLoad ≠ b.sealInfo.loadIndex then none
  else
    (b.sealInfo.setSealContext answer.sealContext answer.contextEndSeal answer.minerId).bind fun si =>
      -- expect("Sealing segment should exist")
      (b.data.getMut (localSealIndex * bytesPerSeal) bytesPerSeal
          fun _ => some answer.sealedData.toList).bind fun r =>
        r.map fun data => ⟨si.markSealed localSealIndex, data⟩

end EntryBatch

end Ionian.Storage
