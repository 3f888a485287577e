import Ionian.Ssz.Codec
import Ionian.Storage.EntryBatchOps

/-!
# Storage.Serde — the database encoding of an entry batch

A batch is stored as the SSZ container of its seal info and its data, by
`#[derive(Encode, Decode)]` over the vendored `SszEncoder` and `SszDecoderBuilder`.  The seal
info is the container of the `u64` bitmap (`WrappedBitmap`), the load index, the miner id and
the list of seal contexts, each the fixed container of a digest and a `u16` end.
`EntryBatchData` is written by hand (`serde.rs`): a type byte, then the bytes of a complete load
or the list of partial batches; a `PartialBatch` is its start sector, big-endian in
`size_of::<usize>()` bytes (a 64-bit target), then its bytes.

A batch whose fields fit the widths of the code and whose encoding fits the 4-byte offsets reads
back as itself (`EntryBatch.sszDecode_sszEncode`).  The hand-written lengths are short:
`PartialBatch::ssz_bytes_len` counts one byte for the start sector, which takes eight, so a
partial batch's length is short by 7 and an incomplete load's by 7 per batch
(`sszBytesLen_undercounts`).
-/

namespace Ionian.Storage

open Ssz Bytes Extent

def completeBatchType : UInt8 := 0

def incompleteBatchType : UInt8 := 1

/-- `mem::size_of::<usize>()` on a 64-bit target. -/
def sizeOfUsize : Nat := 8

/-! ## `PartialBatch` and `EntryBatchData` -/

namespace PartialBatch

def sszEncode : Encode PartialBatch where
  isSszFixedLen := false
  sszFixedLen := bytesPerLengthOffset
  sszAppend p := Bytes.toBeBytes sizeOfUsize p.startSector ++ p.data
  sszBytesLen p := 1 + p.data.length

def sszDecode : Decode PartialBatch where
  isSszFixedLen := false
  sszFixedLen := bytesPerLengthOffset
  fromSszBytes bytes :=
    -- `bytes[..size_of::<usize>()].try_into().unwrap()` panics on fewer bytes
    if bytes.length < sizeOfUsize then abort
    else pure ⟨fromBeBytes (bytes.take sizeOfUsize), bytes.drop sizeOfUsize⟩
  fixedLen_pos := Decode.variable_fixedLen_pos

theorem sszDecode_sszEncode {p : PartialBatch} (h : p.startSector < 2 ^ 64) :
    sszDecode.fromSszBytes (sszEncode.sszAppend p) = pure p := by
  have hlen : (Bytes.toBeBytes sizeOfUsize p.startSector).length = sizeOfUsize :=
    Bytes.length_toBeBytes _ _
  simp only [sszDecode, sszEncode, List.length_append, hlen, List.take_left' hlen,
    List.drop_left' hlen, fromBeBytes_toBeBytes_of_lt (show p.startSector < 2 ^ (8 * sizeOfUsize) from h)]
  rw [if_neg (by omega)]

/-- What `ssz_append` writes: the eight bytes of the start sector, then the data. -/
theorem length_sszAppend (p : PartialBatch) :
    (sszEncode.sszAppend p).length = sszEncode.sszBytesLen p + 7 := by
  simp only [sszEncode, List.length_append, Bytes.length_toBeBytes, sizeOfUsize]
  omega

theorem sum_length_sszAppend (dataList : List PartialBatch) :
    (dataList.map fun p => (sszEncode.sszAppend p).length).sum =
      (dataList.map sszEncode.sszBytesLen).sum + 7 * dataList.length := by
  induction dataList with
  | nil => rfl
  | cons p rest ih =>
    rw [List.map_cons, List.sum_cons, length_sszAppend, ih, List.map_cons, List.sum_cons,
      List.length_cons]
    ring

end PartialBatch

namespace EntryBatchData

def sszEncode : Encode EntryBatchData where
  isSszFixedLen := false
  sszFixedLen := bytesPerLengthOffset
  sszAppend
    | .complete data => completeBatchType :: data
    | .incomplete dataList =>
      incompleteBatchType :: (vecEncode PartialBatch.sszEncode).asSszBytes dataList
  sszBytesLen
    | .complete data => 1 + data.length
    | .incomplete dataList => 1 + (vecEncode PartialBatch.sszEncode).sszBytesLen dataList

def sszDecode : Decode EntryBatchData where
  isSszFixedLen := false
  sszFixedLen := bytesPerLengthOffset
  fromSszBytes
    | [] => throw .zeroLengthItem
    | b :: rest =>
      if b = completeBatchType then pure (.complete rest)
      else if b = incompleteBatchType then do
        let dataList ← (vecDecode PartialBatch.sszDecode).fromSszBytes rest
        pure (.incomplete dataList)
      else throw (.bytesInvalid ("Unrecognized EntryBatchData indentifier " ++ toString b.toNat))
  fixedLen_pos := Decode.variable_fixedLen_pos

/-- A load reads back when its partial batches' start sectors fit a `usize` and its encoding
fits the 4-byte offsets of the list. -/
theorem sszDecode_sszEncode {d : EntryBatchData}
    (hstart : ∀ dataList, d = .incomplete dataList → ∀ p ∈ dataList, p.startSector < 2 ^ 64)
    (hfit : (sszEncode.sszAppend d).length < 2 ^ 32) :
    sszDecode.fromSszBytes (sszEncode.sszAppend d) = pure d := by
  cases d with
  | complete data => simp [sszDecode, sszEncode]
  | incomplete dataList =>
    have hvec : (vecDecode PartialBatch.sszDecode).fromSszBytes
        ((vecEncode PartialBatch.sszEncode).sszAppend dataList) = pure dataList := by
      refine vecDecode_vecEncode_variable rfl rfl
        (fun p hp => PartialBatch.sszDecode_sszEncode (hstart _ rfl p hp)) ?_
      simp only [sszEncode, Encode.asSszBytes, List.length_cons] at hfit
      omega
    simp [sszDecode, sszEncode, Encode.asSszBytes, hvec, completeBatchType, incompleteBatchType]

end EntryBatchData

/-- **The hand-written lengths are short.**  `ssz_bytes_len` of a partial batch counts one byte
for its start sector, which `ssz_append` writes in eight, and that of an incomplete load adds
the same for each of its batches: the `Encode` contract, `ssz_bytes_len() ==
as_ssz_bytes().len()`, fails for every partial batch and every incomplete load that has one. -/
theorem sszBytesLen_undercounts (p : PartialBatch) (dataList : List PartialBatch) :
    PartialBatch.sszEncode.sszBytesLen p + 7 = (PartialBatch.sszEncode.asSszBytes p).length ∧
      EntryBatchData.sszEncode.sszBytesLen (.incomplete dataList) + 7 * dataList.length =
        (EntryBatchData.sszEncode.asSszBytes (.incomplete dataList)).length := by
  refine ⟨(PartialBatch.length_sszAppend p).symm, ?_⟩
  have hlen : (EntryBatchData.sszEncode.asSszBytes (.incomplete dataList)).length =
      1 + (bytesPerLengthOffset * dataList.length +
        (dataList.map fun p => (PartialBatch.sszEncode.sszAppend p).length).sum) := by
    rw [← length_vecEncode_variable PartialBatch.sszEncode rfl dataList]
    simp [EntryBatchData.sszEncode, Encode.asSszBytes, Nat.add_comm]
  have hcount : EntryBatchData.sszEncode.sszBytesLen (.incomplete dataList) =
      1 + ((dataList.map PartialBatch.sszEncode.sszBytesLen).sum +
        bytesPerLengthOffset * dataList.length) := rfl
  rw [hlen, hcount, PartialBatch.sum_length_sszAppend]
  omega

/-- A batch of one sector at sector `0`: 257 bytes counted, 264 written. -/
example : PartialBatch.sszEncode.sszBytesLen ⟨0, List.replicate 256 0⟩ = 257 ∧
    (PartialBatch.sszEncode.asSszBytes ⟨0, List.replicate 256 0⟩).length = 264 := by
  decide +kernel

/-! ## The seal info -/

/-- `Encode` of `WrappedBitmap<SEALS_PER_LOAD>`: its `u64` value. -/
def wrappedBitmapEncode : Encode Nat where
  isSszFixedLen := true
  sszFixedLen := u64Encode.sszFixedLen
  sszAppend value := u64Encode.asSszBytes value
  sszBytesLen _ := u64Encode.sszFixedLen

/-- `Decode` of `WrappedBitmap<SEALS_PER_LOAD>`: `Bitmap::from_value` of the `u64`. -/
def wrappedBitmapDecode : Decode Nat where
  isSszFixedLen := true
  sszFixedLen := u64Decode.sszFixedLen
  fromSszBytes bytes := u64Decode.fromSszBytes bytes
  fixedLen_pos _ := by decide

namespace SealContextInfo

def sszEncode : Encode SealContextInfo where
  isSszFixedLen := h256Encode.isSszFixedLen && u16Encode.isSszFixedLen
  sszFixedLen := h256Encode.sszFixedLen + u16Encode.sszFixedLen
  sszAppend c :=
    (((SszEncoder.container [] (h256Encode.sszFixedLen + u16Encode.sszFixedLen)).append
      h256Encode c.contextDigest).append u16Encode c.endSealIndex).finalize
  sszBytesLen _ := h256Encode.sszFixedLen + u16Encode.sszFixedLen

def sszDecode : Decode SealContextInfo where
  isSszFixedLen := h256Decode.isSszFixedLen && u16Decode.isSszFixedLen
  sszFixedLen := h256Decode.sszFixedLen + u16Decode.sszFixedLen
  fromSszBytes bytes := do
    let builder ← (SszDecoderBuilder.new bytes).registerType h256Decode
    let builder ← builder.registerType u16Decode
    let items ← builder.build
    let (contextDigest, items) ← decodeNext h256Decode items
    let (endSealIndex, _) ← decodeNext u16Decode items
    pure ⟨contextDigest, endSealIndex⟩
  fixedLen_pos _ := by decide

/-- A seal context is its digest, then its end in two bytes. -/
theorem sszAppend_eq (c : SealContextInfo) :
    sszEncode.sszAppend c = c.contextDigest.toList ++ toLeBytes 2 c.endSealIndex := by
  simp [sszEncode, SszEncoder.append, SszEncoder.appendParameterized, SszEncoder.container,
    SszEncoder.finalize, h256Encode, u16Encode, uintEncode]

theorem length_sszAppend (c : SealContextInfo) :
    (sszEncode.sszAppend c).length = sszDecode.sszFixedLen := by
  rw [sszAppend_eq]
  simp [sszDecode, h256Decode, u16Decode, uintDecode]

theorem sszDecode_sszEncode {c : SealContextInfo} (h : c.endSealIndex < 2 ^ 16) :
    sszDecode.fromSszBytes (sszEncode.sszAppend c) = pure c := by
  rw [sszAppend_eq]
  have h1 : (SszDecoderBuilder.new (c.contextDigest.toList ++ toLeBytes 2 c.endSealIndex)).registerType
      h256Decode = pure ⟨c.contextDigest.toList ++ toLeBytes 2 c.endSealIndex,
        [c.contextDigest.toList], [], 32⟩ :=
    SszDecoderBuilder.registerTypeParameterized_fixed_at [] _ (toLeBytes 2 c.endSealIndex)
      (by simp [SszDecoderBuilder.new]) rfl (by simp [h256Decode])
  have h2 : (⟨c.contextDigest.toList ++ toLeBytes 2 c.endSealIndex, [c.contextDigest.toList], [],
      32⟩ : SszDecoderBuilder).registerType u16Decode =
        pure ⟨c.contextDigest.toList ++ toLeBytes 2 c.endSealIndex,
          [c.contextDigest.toList, toLeBytes 2 c.endSealIndex], [], 34⟩ :=
    SszDecoderBuilder.registerTypeParameterized_fixed_at c.contextDigest.toList _ [] (by simp)
      (by simp) (by simp [u16Decode, uintDecode])
  -- no variable-length field: the fixed part is the whole
  have hbuild : SszDecoderBuilder.build ⟨c.contextDigest.toList ++ toLeBytes 2 c.endSealIndex,
      [c.contextDigest.toList, toLeBytes 2 c.endSealIndex], [], 34⟩ =
        pure [c.contextDigest.toList, toLeBytes 2 c.endSealIndex] := by
    simp [SszDecoderBuilder.build, SszDecoderBuilder.finalize]
  have hdigest : h256Decode.fromSszBytes c.contextDigest.toList = pure c.contextDigest :=
    h256Decode_h256Encode _
  simp only [sszDecode, h1, h2, hbuild, pure_bind, decodeNext_cons hdigest,
    decodeNext_cons (u16Decode_toLeBytes h)]

end SealContextInfo

namespace SealInfo

def sszEncode : Encode SealInfo where
  isSszFixedLen := wrappedBitmapEncode.isSszFixedLen && u64Encode.isSszFixedLen &&
    h256Encode.isSszFixedLen && (vecEncode SealContextInfo.sszEncode).isSszFixedLen
  sszFixedLen := bytesPerLengthOffset
  sszAppend si :=
    let offset := wrappedBitmapEncode.sszFixedLen + u64Encode.sszFixedLen + h256Encode.sszFixedLen +
      (vecEncode SealContextInfo.sszEncode).sszFixedLen
    ((((SszEncoder.container [] offset).append wrappedBitmapEncode si.bitmap).append u64Encode
      si.loadIndex).append h256Encode si.minerId |>.append (vecEncode SealContextInfo.sszEncode)
        si.sealContexts).finalize
  sszBytesLen si :=
    wrappedBitmapEncode.sszFixedLen + u64Encode.sszFixedLen + h256Encode.sszFixedLen +
      (bytesPerLengthOffset + (vecEncode SealContextInfo.sszEncode).sszBytesLen si.sealContexts)

def sszDecode : Decode SealInfo where
  isSszFixedLen := wrappedBitmapDecode.isSszFixedLen && u64Decode.isSszFixedLen &&
    h256Decode.isSszFixedLen && (vecDecode SealContextInfo.sszDecode).isSszFixedLen
  sszFixedLen := bytesPerLengthOffset
  fromSszBytes bytes := do
    let builder ← (SszDecoderBuilder.new bytes).registerType wrappedBitmapDecode
    let builder ← builder.registerType u64Decode
    let builder ← builder.registerType h256Decode
    let builder ← builder.registerType (vecDecode SealContextInfo.sszDecode)
    let items ← builder.build
    let (bitmap, items) ← decodeNext wrappedBitmapDecode items
    let (loadIndex, items) ← decodeNext u64Decode items
    let (minerId, items) ← decodeNext h256Decode items
    let (sealContexts, _) ← decodeNext (vecDecode SealContextInfo.sszDecode) items
    pure ⟨bitmap, loadIndex, minerId, sealContexts⟩
  fixedLen_pos h := absurd h (by decide)

/-- The seal info: the bitmap, the load index, the miner id, the offset `52` of the contexts,
then the contexts. -/
theorem sszAppend_eq (si : SealInfo) :
    sszEncode.sszAppend si =
      toLeBytes 8 si.bitmap ++ toLeBytes 8 si.loadIndex ++ si.minerId.toList ++ encodeLength 52 ++
        (vecEncode SealContextInfo.sszEncode).sszAppend si.sealContexts := by
  simp [sszEncode, SszEncoder.append, SszEncoder.appendParameterized, SszEncoder.container,
    SszEncoder.finalize, wrappedBitmapEncode, u64Encode, uintEncode, h256Encode, Encode.asSszBytes,
    vecEncode, bytesPerLengthOffset]

/-- A seal info reads back when its bitmap and load index fit a `u64` and every context's end a
`u16`. -/
theorem sszDecode_sszEncode {si : SealInfo} (hbitmap : si.bitmap < 2 ^ 64)
    (hload : si.loadIndex < 2 ^ 64) (hends : ∀ c ∈ si.sealContexts, c.endSealIndex < 2 ^ 16) :
    sszDecode.fromSszBytes (sszEncode.sszAppend si) = pure si := by
  rw [sszAppend_eq]
  set contexts := (vecEncode SealContextInfo.sszEncode).sszAppend si.sealContexts
  set bytes := toLeBytes 8 si.bitmap ++ toLeBytes 8 si.loadIndex ++ si.minerId.toList ++
    encodeLength 52 ++ contexts with hbytes
  have hlen : 52 ≤ bytes.length := by
    simp only [hbytes, List.length_append, length_toLeBytes, Vector.length_toList,
      length_encodeLength, bytesPerLengthOffset]
    omega
  -- three fixed fields, then the offset of the contexts
  have h1 : (SszDecoderBuilder.new bytes).registerType wrappedBitmapDecode =
      pure ⟨bytes, [toLeBytes 8 si.bitmap], [], 8⟩ :=
    SszDecoderBuilder.registerTypeParameterized_fixed_at [] _
      (toLeBytes 8 si.loadIndex ++ si.minerId.toList ++ encodeLength 52 ++ contexts)
      (by simp [SszDecoderBuilder.new, hbytes]) rfl (by simp [wrappedBitmapDecode, u64Decode, uintDecode])
  have h2 : (⟨bytes, [toLeBytes 8 si.bitmap], [], 8⟩ : SszDecoderBuilder).registerType u64Decode =
      pure ⟨bytes, [toLeBytes 8 si.bitmap, toLeBytes 8 si.loadIndex], [], 16⟩ :=
    SszDecoderBuilder.registerTypeParameterized_fixed_at (toLeBytes 8 si.bitmap) _
      (si.minerId.toList ++ encodeLength 52 ++ contexts) (by simp [hbytes]) (by simp)
      (by simp [u64Decode, uintDecode])
  have h3 : (⟨bytes, [toLeBytes 8 si.bitmap, toLeBytes 8 si.loadIndex], [], 16⟩ :
      SszDecoderBuilder).registerType h256Decode =
        pure ⟨bytes, [toLeBytes 8 si.bitmap, toLeBytes 8 si.loadIndex, si.minerId.toList], [], 48⟩ :=
    SszDecoderBuilder.registerTypeParameterized_fixed_at
      (toLeBytes 8 si.bitmap ++ toLeBytes 8 si.loadIndex) _ (encodeLength 52 ++ contexts)
      (by simp [hbytes]) (by simp) (by simp [h256Decode])
  have h4 : (⟨bytes, [toLeBytes 8 si.bitmap, toLeBytes 8 si.loadIndex, si.minerId.toList], [], 48⟩ :
      SszDecoderBuilder).registerType (vecDecode SealContextInfo.sszDecode) =
        pure ⟨bytes, [toLeBytes 8 si.bitmap, toLeBytes 8 si.loadIndex, si.minerId.toList, []],
          [(3, 52)], 52⟩ :=
    SszDecoderBuilder.registerTypeParameterized_variable_at
      (toLeBytes 8 si.bitmap ++ toLeBytes 8 si.loadIndex ++ si.minerId.toList) contexts
      (by simp [hbytes]) (by simp) (by decide) hlen (by simp)
  -- the contexts run from the offset to the end
  have hbuild : SszDecoderBuilder.build ⟨bytes, [toLeBytes 8 si.bitmap, toLeBytes 8 si.loadIndex,
      si.minerId.toList, []], [(3, 52)], 52⟩ =
        pure [toLeBytes 8 si.bitmap, toLeBytes 8 si.loadIndex, si.minerId.toList, contexts] := by
    have hdrop : bytes.drop 52 = contexts := by
      rw [hbytes, List.drop_left' (by simp [bytesPerLengthOffset])]
    simp [SszDecoderBuilder.build, SszDecoderBuilder.finalize, SszDecoderBuilder.fillItems, hdrop]
  have hcontexts : (vecDecode SealContextInfo.sszDecode).fromSszBytes contexts =
      pure si.sealContexts :=
    vecDecode_vecEncode_fixed rfl rfl (fun c _ => SealContextInfo.length_sszAppend c)
      (fun c hc => SealContextInfo.sszDecode_sszEncode (hends c hc))
  have hminer : h256Decode.fromSszBytes si.minerId.toList = pure si.minerId :=
    h256Decode_h256Encode _
  simp only [sszDecode, h1, h2, h3, h4, hbuild, pure_bind,
    decodeNext_cons (show wrappedBitmapDecode.fromSszBytes (toLeBytes 8 si.bitmap) = pure si.bitmap
      from u64Decode_toLeBytes hbitmap),
    decodeNext_cons (u64Decode_toLeBytes hload), decodeNext_cons hminer, decodeNext_cons hcontexts]

end SealInfo

/-! ## `EntryBatch` -/

namespace EntryBatch

def sszEncode : Encode EntryBatch where
  isSszFixedLen := SealInfo.sszEncode.isSszFixedLen && EntryBatchData.sszEncode.isSszFixedLen
  sszFixedLen := bytesPerLengthOffset
  sszAppend b :=
    (((SszEncoder.container [] (SealInfo.sszEncode.sszFixedLen +
      EntryBatchData.sszEncode.sszFixedLen)).append SealInfo.sszEncode b.sealInfo).append
        EntryBatchData.sszEncode b.data).finalize
  sszBytesLen b :=
    (bytesPerLengthOffset + SealInfo.sszEncode.sszBytesLen b.sealInfo) +
      (bytesPerLengthOffset + EntryBatchData.sszEncode.sszBytesLen b.data)

def sszDecode : Decode EntryBatch where
  isSszFixedLen := SealInfo.sszDecode.isSszFixedLen && EntryBatchData.sszDecode.isSszFixedLen
  sszFixedLen := bytesPerLengthOffset
  fromSszBytes bytes := do
    let builder ← (SszDecoderBuilder.new bytes).registerType SealInfo.sszDecode
    let builder ← builder.registerType EntryBatchData.sszDecode
    let items ← builder.build
    let (sealInfo, items) ← decodeNext SealInfo.sszDecode items
    let (data, _) ← decodeNext EntryBatchData.sszDecode items
    pure ⟨sealInfo, data⟩
  fixedLen_pos h := absurd h (by decide)

/-- A batch: the offsets of its two fields, its seal info, its data. -/
theorem sszAppend_eq (b : EntryBatch) :
    sszEncode.sszAppend b =
      encodeLength 8 ++ encodeLength (8 + (SealInfo.sszEncode.sszAppend b.sealInfo).length) ++
        SealInfo.sszEncode.sszAppend b.sealInfo ++ EntryBatchData.sszEncode.sszAppend b.data := by
  have hseal : SealInfo.sszEncode.isSszFixedLen = false := rfl
  have hdata : EntryBatchData.sszEncode.isSszFixedLen = false := rfl
  have hfixed : SealInfo.sszEncode.sszFixedLen + EntryBatchData.sszEncode.sszFixedLen = 8 := rfl
  simp [sszEncode, SszEncoder.append, SszEncoder.appendParameterized, SszEncoder.container,
    SszEncoder.finalize, hseal, hdata, hfixed]

/-- The fields of a batch fit the widths the code keeps them in: the bitmap and the load index a
`u64`, the ends of the seal contexts a `u16`, the start sectors of the partial batches a
`usize`. -/
structure Fits (b : EntryBatch) : Prop where
  bitmap : b.sealInfo.bitmap < 2 ^ 64
  loadIndex : b.sealInfo.loadIndex < 2 ^ 64
  endSealIndex : ∀ c ∈ b.sealInfo.sealContexts, c.endSealIndex < 2 ^ 16
  startSector : ∀ dataList, b.data = .incomplete dataList → ∀ p ∈ dataList, p.startSector < 2 ^ 64

/-- **A batch survives its database encoding**: a batch whose fields fit the widths of the code
and whose encoding fits the 4-byte offsets reads back as itself, with the same seal info and the
same data. -/
theorem sszDecode_sszEncode {b : EntryBatch} (hfits : b.Fits)
    (hsize : (sszEncode.asSszBytes b).length < 2 ^ 32) :
    sszDecode.fromSszBytes (sszEncode.asSszBytes b) = pure b := by
  rw [Encode.asSszBytes, sszAppend_eq] at hsize ⊢
  set sealBytes := SealInfo.sszEncode.sszAppend b.sealInfo
  set dataBytes := EntryBatchData.sszEncode.sszAppend b.data
  set bytes := encodeLength 8 ++ encodeLength (8 + sealBytes.length) ++ sealBytes ++ dataBytes
    with hbytes
  have hlen : bytes.length = 8 + sealBytes.length + dataBytes.length := by
    simp only [hbytes, List.length_append, length_encodeLength, bytesPerLengthOffset]
  -- two variable-length fields: two offsets
  have h1 : (SszDecoderBuilder.new bytes).registerType SealInfo.sszDecode =
      pure ⟨bytes, [[]], [(0, 8)], 4⟩ :=
    SszDecoderBuilder.registerTypeParameterized_variable_at []
      (encodeLength (8 + sealBytes.length) ++ sealBytes ++ dataBytes)
      (by simp [SszDecoderBuilder.new, hbytes]) rfl (by decide)
      (by dsimp only [SszDecoderBuilder.new]; omega) (by simp [SszDecoderBuilder.new])
  have h2 : (⟨bytes, [[]], [(0, 8)], 4⟩ : SszDecoderBuilder).registerType EntryBatchData.sszDecode =
      pure ⟨bytes, [[], []], [(0, 8), (1, 8 + sealBytes.length)], 8⟩ :=
    SszDecoderBuilder.registerTypeParameterized_variable_at (encodeLength 8) (sealBytes ++ dataBytes)
      (by simp [hbytes]) (by simp [bytesPerLengthOffset]) (by omega) (by dsimp only; omega) (by simp)
  -- the seal info runs from the first offset to the second, the data from there to the end
  have hbuild : SszDecoderBuilder.build ⟨bytes, [[], []], [(0, 8), (1, 8 + sealBytes.length)], 8⟩ =
      pure [sealBytes, dataBytes] := by
    have hfront : (encodeLength 8 ++ encodeLength (8 + sealBytes.length)).length = 8 := by
      simp [bytesPerLengthOffset]
    have hseal : (bytes.drop 8).take sealBytes.length = sealBytes := by
      rw [hbytes, List.append_assoc, List.drop_left' hfront, List.take_left]
    have hdata : bytes.drop (8 + sealBytes.length) = dataBytes := by
      rw [hbytes, List.drop_left' (by simp only [List.length_append, hfront])]
    simp [SszDecoderBuilder.build, SszDecoderBuilder.finalize, SszDecoderBuilder.fillItems, hseal,
      hdata]
  have hsealInfo : SealInfo.sszDecode.fromSszBytes sealBytes = pure b.sealInfo :=
    SealInfo.sszDecode_sszEncode hfits.bitmap hfits.loadIndex hfits.endSealIndex
  have hdata : EntryBatchData.sszDecode.fromSszBytes dataBytes = pure b.data :=
    EntryBatchData.sszDecode_sszEncode hfits.startSector (show dataBytes.length < 2 ^ 32 by omega)
  simp only [sszDecode, h1, h2, hbuild, pure_bind, decodeNext_cons hsealInfo, decodeNext_cons hdata]

end EntryBatch

/-! ## The batches the store builds fit -/

namespace SealInfo

/-- `set_seal_context` keeps the bitmap and the load index, and a context it adds ends within the
load. -/
theorem setSealContext_fields {si si' : SealInfo} {contextDigest minerId : H256}
    {globalEndSealIndex : Nat} (h : si.setSealContext contextDigest globalEndSealIndex minerId = some si') :
    si'.bitmap = si.bitmap ∧ si'.loadIndex = si.loadIndex ∧
      ∀ c ∈ si'.sealContexts, c ∈ si.sealContexts ∨ c.endSealIndex ≤ sealsPerLoad := by
  unfold setSealContext at h
  dsimp only at h
  obtain ⟨si₁, h₁, h⟩ := Option.bind_eq_some_iff.mp h
  -- the check of the miner id changes the miner id only
  have hsame : si₁.bitmap = si.bitmap ∧ si₁.loadIndex = si.loadIndex ∧
      si₁.sealContexts = si.sealContexts := by
    split_ifs at h₁ with hzero hminer
    · cases h₁
      exact ⟨rfl, rfl, rfl⟩
    · cases h₁
      exact ⟨rfl, rfl, rfl⟩
  obtain ⟨hbitmap, hload, hcontexts⟩ := hsame
  split_ifs at h with hlt hend
  split at h
  · rename_i existing hexisting
    split_ifs at h
    · -- case 1: the context is there already
      cases h
      exact ⟨hbitmap, hload, fun c hc => .inl (hcontexts ▸ hc)⟩
    · -- case 2: inserted before the context found
      cases h
      have hpos := (List.getElem?_eq_some_iff.mp hexisting).1
      refine ⟨hbitmap, hload, fun c hc => ?_⟩
      rcases (List.mem_insertIdx (Nat.le_of_lt hpos)).mp hc with rfl | hc
      · exact .inr (Nat.min_le_right _ _)
      · exact .inl (hcontexts ▸ hc)
  · -- case 3: pushed at the end
    cases h
    refine ⟨hbitmap, hload, fun c hc => ?_⟩
    rcases List.mem_append.mp hc with hc | hc
    · exact .inl (hcontexts ▸ hc)
    · rw [List.mem_singleton] at hc
      subst hc
      exact .inr (Nat.min_le_right _ _)

/-- `truncate` clears bits of the bitmap and drops contexts. -/
theorem truncate_fields {si si' : SealInfo} {revertedSealIndex : Nat}
    (h : si.truncate revertedSealIndex = some si') :
    si'.bitmap ≤ si.bitmap ∧ si'.loadIndex = si.loadIndex ∧ si'.sealContexts ⊆ si.sealContexts := by
  unfold truncate at h
  obtain ⟨t, -, h⟩ := Option.bind_eq_some_iff.mp h
  obtain ⟨bitmap, hbitmap, rfl⟩ := Option.map_eq_some_iff.mp h
  unfold truncateBitmap at hbitmap
  split_ifs at hbitmap
  cases hbitmap
  exact ⟨Nat.mod_le _ _, rfl, List.take_subset _ _⟩

theorem markSealed_bitmap_lt {si : SealInfo} {sealIndex : Nat} (h : si.bitmap < 2 ^ 64)
    (hj : sealIndex < 64) : (si.markSealed sealIndex).bitmap < 2 ^ 64 :=
  Nat.or_lt_two_pow h (Nat.pow_lt_pow_right (by decide) hj)

end SealInfo

namespace EntryBatch

variable (keccak : List UInt8 → H256)

/-- `insert_data` of a run inside the load keeps the seal info and a well-formed load. -/
theorem insertData_wf {b b' : EntryBatch} {offset : Nat} {data : List UInt8}
    {r : Except String (List Nat)} (hwf : b.data.WF)
    (hin : offset * bytesPerSector + data.length ≤ bytesPerLoad)
    (h : b.insertData offset data = some (b', r)) : b'.sealInfo = b.sealInfo ∧ b'.data.WF := by
  obtain ⟨⟨d, r'⟩, hd, heq⟩ := Option.map_eq_some_iff.mp h
  cases heq
  refine ⟨rfl, ?_⟩
  -- an unaligned run is refused by the assertions
  by_cases hlen : data.length % bytesPerSector = 0
  · obtain ⟨d', r'', hsome, hiff, herr, hok⟩ :=
      EntryBatchData.insertData_spec hwf (Nat.mul_mod_left _ _) hlen hin
    rw [hd] at hsome
    obtain ⟨rfl, rfl⟩ := Prod.mk.inj (Option.some.inj hsome)
    by_cases htouch : Touches b.data.contents (offset * bytesPerSector) data.length
    · show d.WF
      rw [herr (hiff.mpr htouch)]
      exact hwf
    · exact (hok htouch).1
  · unfold EntryBatchData.insertData at hd
    rw [if_pos (Or.inr hlen)] at hd
    cases hd

/-- `truncate` sets the seal info to a `SealInfo::truncate` of it. -/
theorem truncate_sealInfo {b b' : EntryBatch} {truncatedSector : Nat} {toReseal : List Nat}
    (h : b.truncate keccak truncatedSector = some (b', toReseal)) :
    ∃ revertedSealIndex, b.sealInfo.truncate revertedSealIndex = some b'.sealInfo := by
  unfold truncate at h
  split_ifs at h
  obtain ⟨d, -, h⟩ := Option.bind_eq_some_iff.mp h
  unfold truncateSeal at h
  obtain ⟨_, -, h⟩ := Option.bind_eq_some_iff.mp h
  obtain ⟨⟨data, toResealSet⟩, -, h⟩ := Option.bind_eq_some_iff.mp h
  obtain ⟨si, hsi, heq⟩ := Option.map_eq_some_iff.mp h
  cases heq
  exact ⟨_, hsi⟩

/-- The batches the store builds: `EntryBatch::new` of a `u64` load index, then `insert_data` of
a run inside the load, as the flow store calls it, `submit_seal_result` and `truncate`. -/
inductive Reachable : EntryBatch → Prop
  | new {loadIndexGlobal : Nat} : loadIndexGlobal < 2 ^ 64 → Reachable (EntryBatch.new loadIndexGlobal)
  | insertData {b b' : EntryBatch} {offset : Nat} {data : List UInt8} {r : Except String (List Nat)} :
      Reachable b → offset * bytesPerSector + data.length ≤ bytesPerLoad →
        b.insertData offset data = some (b', r) → Reachable b'
  | submitSealResult {b b' : EntryBatch} {answer : SealAnswer} :
      Reachable b → b.submitSealResult answer = some b' → Reachable b'
  | truncate {b b' : EntryBatch} {truncatedSector : Nat} {toReseal : List Nat} :
      Reachable b → b.truncate keccak truncatedSector = some (b', toReseal) → Reachable b'

/-- A well-formed load's partial batches start inside the load. -/
theorem startSector_lt_of_wf {d : EntryBatchData} (hwf : d.WF) :
    ∀ dataList, d = .incomplete dataList → ∀ p ∈ dataList, p.startSector < 2 ^ 64 := by
  rintro dataList rfl p hp
  have hp := hwf.1.batch p hp
  have := hp.start_lt_end
  have := hp.inside
  simp only [sectorsPerLoad_eq] at this
  omega

/-- **Every batch the store builds fits the widths of the code**, and its load is well formed. -/
theorem Reachable.fits {b : EntryBatch} (hb : Reachable keccak b) : b.Fits ∧ b.data.WF := by
  induction hb with
  | new h =>
    exact ⟨⟨by simp [EntryBatch.new, SealInfo.new], h, by simp [EntryBatch.new, SealInfo.new],
      startSector_lt_of_wf EntryBatchData.new_wf⟩, EntryBatchData.new_wf⟩
  | insertData _ hin h ih =>
    obtain ⟨hsame, hwf⟩ := insertData_wf ih.2 hin h
    obtain ⟨hbitmap, hload, hends, -⟩ := ih.1
    exact ⟨⟨hsame ▸ hbitmap, hsame ▸ hload, hsame ▸ hends, startSector_lt_of_wf hwf⟩, hwf⟩
  | submitSealResult _ h ih =>
    obtain ⟨-, -, si, hsi, hseal, hwf, -⟩ := submitSealResult_spec ih.2 h
    obtain ⟨hbitmap, hload, hends, -⟩ := ih.1
    obtain ⟨hsib, hsil, hsic⟩ := SealInfo.setSealContext_fields hsi
    refine ⟨⟨?_, ?_, ?_, startSector_lt_of_wf hwf⟩, hwf⟩
    · rw [hseal]
      exact SealInfo.markSealed_bitmap_lt (hsib ▸ hbitmap) (Nat.mod_lt _ (by decide))
    · rw [hseal]
      exact hsil ▸ hload
    · -- a new context ends within the load, at most 64
      intro c hc
      rw [hseal] at hc
      rcases hsic c hc with hc | hc
      · exact hends c hc
      · simp only [sealsPerLoad_eq] at hc
        omega
  | truncate _ h ih =>
    obtain ⟨⟨hbitmap, hload, hends, -⟩, hwf⟩ := ih
    have hwf' := (truncate_spec keccak _ hwf h).1
    obtain ⟨revertedSealIndex, hsi⟩ := truncate_sealInfo keccak h
    obtain ⟨hsib, hsil, hsic⟩ := SealInfo.truncate_fields hsi
    exact ⟨⟨lt_of_le_of_lt hsib hbitmap, hsil ▸ hload, fun c hc => hends c (hsic hc),
      startSector_lt_of_wf hwf'⟩, hwf'⟩

/-- **A batch the store builds survives its database encoding**, when the encoding fits the
4-byte offsets. -/
theorem Reachable.sszDecode_sszEncode {b : EntryBatch} (hb : Reachable keccak b)
    (hsize : (sszEncode.asSszBytes b).length < 2 ^ 32) :
    sszDecode.fromSszBytes (sszEncode.asSszBytes b) = pure b :=
  EntryBatch.sszDecode_sszEncode (hb.fits keccak).1 hsize

end EntryBatch

end Ionian.Storage
