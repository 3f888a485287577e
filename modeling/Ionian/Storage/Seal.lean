import Ionian.Storage.ChunkData

/-!
# Storage.Seal — `ionian_seal` and `SealInfo`

A seal is 4 KiB of a load, masked word by word: the first 32-byte word is xor-ed with
`keccak(first_mask_seed)`, and every later word with the keccak of the sealed word before it
(`sealWords`).  Unsealing runs the same chain on the sealed words (`unsealWords`).  The hash is a
parameter `keccak` (`Keccak::v256`, 32 bytes out).

`SealInfo` records which seals of a load are sealed (a `u64` bitmap, here its value as a `Nat`),
the miner id, and the seal contexts: `(context_digest, end_seal_index)` pairs that should be
ordered by end, local to the load.  A seal reads its context as the first one ending after it
(`context_index`).  `set_seal_context` brings a global end into the load by a subtraction, a cast
to `u16` and a `min` with `SEALS_PER_LOAD`, in that order.  Overflowing `u16` and `u64`
arithmetic, `assert!`, `expect` and `unwrap` are `none`; `as u16` is `% 2 ^ 16`.
-/

namespace Ionian.Storage

/-- `H256`. -/
abbrev H256 := Vector UInt8 32

def H256.zero : H256 := Vector.replicate 32 0

/-! ## `ionian_seal` -/

section IonianSeal

variable (keccak : List UInt8 → H256)

/-- `u64::to_be_bytes`. -/
def toBeBytes (n : Nat) : List UInt8 := (List.range 8).reverse.map fun i => UInt8.ofNat (n / 256 ^ i)

def computeFirstMaskSeed (minerId contextDigest : H256) (startSector : Nat) : List UInt8 :=
  minerId.toList ++ contextDigest.toList ++ List.replicate 24 0 ++ toBeBytes startSector

/-- One word xor-ed with a mask, byte by byte. -/
def xorWord (word : List UInt8) (mask : H256) : List UInt8 :=
  word.mapIdx fun i x => x ^^^ (mask.toList[i]?.getD 0)

/-- The loop of `seal_with_mask` over `n` words: the next mask is the keccak of the sealed word. -/
def sealWords : Nat → List UInt8 → H256 → List UInt8
  | 0, _, _ => []
  | n + 1, data, mask =>
    let word := xorWord (data.take 32) mask
    word ++ sealWords n (data.drop 32) (keccak word)

/-- The loop of `unseal_with_mask`: the next mask is the keccak of the word before unsealing. -/
def unsealWords : Nat → List UInt8 → H256 → List UInt8
  | 0, _, _ => []
  | n + 1, data, mask =>
    let word := data.take 32
    xorWord word mask ++ unsealWords n (data.drop 32) (keccak word)

def sealWithMask (data : List UInt8) (firstMask : H256) : Option (List UInt8) :=
  if data.length % 32 = 0 then some (sealWords keccak (data.length / 32) data firstMask) else none

def unsealWithMask (data : List UInt8) (firstMask : H256) : Option (List UInt8) :=
  if data.length % 32 = 0 then some (unsealWords keccak (data.length / 32) data firstMask)
  else none

def sealWithMaskSeed (data firstMaskSeed : List UInt8) : Option (List UInt8) :=
  sealWithMask keccak data (keccak firstMaskSeed)

def unsealWithMaskSeed (data firstMaskSeed : List UInt8) : Option (List UInt8) :=
  unsealWithMask keccak data (keccak firstMaskSeed)

/-- `ionian_seal::seal` (`seal` is a command here). -/
def ionianSeal (data : List UInt8) (minerId contextDigest : H256) (startSector : Nat) :
    Option (List UInt8) :=
  sealWithMaskSeed keccak data (computeFirstMaskSeed minerId contextDigest startSector)

/-- `ionian_seal::unseal`. -/
def ionianUnseal (data : List UInt8) (minerId contextDigest : H256) (startSector : Nat) :
    Option (List UInt8) :=
  unsealWithMaskSeed keccak data (computeFirstMaskSeed minerId contextDigest startSector)

end IonianSeal

/-! ## `SealInfo` -/

structure SealContextInfo where
  /-- The context digest for this seal group. -/
  contextDigest : H256
  /-- The end position (exclusive) indexed by seals. -/
  endSealIndex : Nat
deriving DecidableEq, Repr

structure SealInfo where
  /-- Which seals of the load are sealed: the value of the `u64` bitmap. -/
  bitmap : Nat
  /-- The index of the load the seal info belongs to. -/
  loadIndex : Nat
  /-- The miner id; zero when none is set. -/
  minerId : H256
  sealContexts : List SealContextInfo
deriving DecidableEq, Repr

/-- The fields of an answer `submit_seal_result` reads. -/
structure SealAnswer where
  sealIndex : Nat
  version : Nat
  sealedData : Vector UInt8 bytesPerSeal
  minerId : H256
  sealContext : H256
  contextEndSeal : Nat

namespace SealInfo

def new (loadIndex : Nat) : SealInfo := ⟨0, loadIndex, H256.zero, []⟩

def isSealed (si : SealInfo) (sealIndex : Nat) : Bool := si.bitmap.testBit sealIndex

def markSealed (si : SealInfo) (sealIndex : Nat) : SealInfo :=
  { si with bitmap := si.bitmap ||| 2 ^ sealIndex }

def globalSealSector (si : SealInfo) (index : Nat) : Nat :=
  si.loadIndex * sectorsPerLoad + index * sectorsPerSeal

/-- The position of the first context ending after `sealIndex`. -/
def contextIndex (si : SealInfo) (sealIndex : Nat) : Nat :=
  match Slice.binarySearchByKey SealContextInfo.endSealIndex (sealIndex + 1) si.sealContexts with
  | .ok x | .error x => x

def getSealContextDigest (si : SealInfo) (sealIndex : Nat) : Option H256 :=
  (si.sealContexts[si.contextIndex sealIndex]?).map (·.contextDigest)

def setSealContext (si : SealInfo) (contextDigest : H256) (globalEndSealIndex : Nat)
    (minerId : H256) : Option SealInfo :=
  -- 1. Check consistency of the miner id.
  let si? : Option SealInfo :=
    if si.minerId = H256.zero then some { si with minerId }
    else if si.minerId = minerId then some si
    else none
  si?.bind fun si =>
    -- 2. Compute the local end_seal_index: `u64` subtraction, `as u16`, then `min`
    if globalEndSealIndex < si.loadIndex * sealsPerLoad then none
    else
      let endSealIndex := min ((globalEndSealIndex - si.loadIndex * sealsPerLoad) % 2 ^ 16)
        sealsPerLoad
      let newContext : SealContextInfo := ⟨contextDigest, endSealIndex⟩
      -- `end_seal_index - 1` in `u16`
      if endSealIndex = 0 then none
      else
        -- 3. Update the seal context array by cases
        let insertPosition := si.contextIndex (endSealIndex - 1)
        match si.sealContexts[insertPosition]? with
        | some existingContext =>
          -- Case 1: the new context is consistent with existing contexts (nothing to do)
          if existingContext.contextDigest = newContext.contextDigest then some si
          -- Case 2: the new context should be inserted in the middle
          else some { si with sealContexts := si.sealContexts.insertIdx insertPosition newContext }
        -- Case 3: the new context exceeds the upper bound of existing contexts
        | none => some { si with sealContexts := si.sealContexts ++ [newContext] }

def truncatedSealIndex (si : SealInfo) (revertedSealIndex : Nat) : Option Nat :=
  let truncatedContext := si.contextIndex revertedSealIndex
  if truncatedContext = 0 then some 0
  else (si.sealContexts[truncatedContext - 1]?).map (·.endSealIndex)

/-- `TruncateBitmap for u64`: clear the bits from `index` on; `1 << index` overflows from 64. -/
def truncateBitmap (bitmap index : Nat) : Option Nat :=
  if index < 64 then some (bitmap % 2 ^ index) else none

def truncate (si : SealInfo) (revertedSealIndex : Nat) : Option SealInfo :=
  let truncatedContextIndex := si.contextIndex revertedSealIndex
  (si.truncatedSealIndex revertedSealIndex).bind fun truncatedSealIndex =>
    (truncateBitmap si.bitmap truncatedSealIndex).map fun bitmap =>
      { si with bitmap, sealContexts := si.sealContexts.take truncatedContextIndex }

/-- `SealInfo::unseal`. -/
def unsealAt (keccak : List UInt8 → H256) (si : SealInfo) (data : List UInt8) (index : Nat) :
    Option (List UInt8) :=
  if !si.isSealed index then some data
  else
    -- expect("cannot unseal non-sealed data")
    (si.getSealContextDigest index).bind fun sealContext =>
      ionianUnseal keccak data si.minerId sealContext (si.globalSealSector index)

end SealInfo

end Ionian.Storage
