import Ionian.Bytes.Basic

/-!
# Ssz.Codec — the parts of the vendored `eth2_ssz` the store's encodings use

`Encode` and `Decode` for one type are records of their methods (`is_ssz_fixed_len`,
`ssz_fixed_len`, `ssz_append`, `ssz_bytes_len`, `from_ssz_bytes`); `ssz_append` is the bytes it
appends to the buffer.  A decode is `none` where the code panics, else its `Result`.  Modelled:
the 4-byte little-endian offsets (`encode_length`, `read_offset`, `sanitize_offset`),
`SszEncoder`, `SszDecoderBuilder` and `SszDecoder`, the unsigned integers and `H256`, and
`Vec<T>` both ways with `decode_list_of_variable_length_items`.

A list of variable-length items is one offset per item, each counted from the start of the list,
then the items end to end; it reads back when every item does and the whole fits the 4-byte
offsets (`vecDecode_vecEncode_variable`).  A list of fixed-length items is its items end to end
(`vecDecode_vecEncode_fixed`).
-/

namespace Ionian.Ssz

open Bytes

def bytesPerLengthOffset : Nat := 4

inductive DecodeError
  | invalidByteLength (len expected : Nat)
  | invalidLengthPrefix (len expected : Nat)
  | outOfBoundsByte (i : Nat)
  | offsetIntoFixedPortion (offset : Nat)
  | offsetSkipsVariableBytes (offset : Nat)
  | offsetsAreDecreasing (offset : Nat)
  | offsetOutOfBounds (offset : Nat)
  | invalidListFixedBytesLen (len : Nat)
  | zeroLengthItem
  | bytesInvalid (msg : String)
  | unionSelectorInvalid (selector : Nat)
deriving DecidableEq, Repr

/-- A decode: `none` where the code panics, else its `Result`. -/
abbrev DecodeResult (α : Type) := ExceptT DecodeError Option α

/-- A panic of the code. -/
def abort {α : Type} : DecodeResult α := ExceptT.lift none

/-- The methods of `Encode` for one type. -/
structure Encode (α : Type) where
  isSszFixedLen : Bool
  sszFixedLen : Nat
  /-- The bytes `ssz_append` appends to the buffer. -/
  sszAppend : α → List UInt8
  sszBytesLen : α → Nat

/-- `as_ssz_bytes`: `ssz_append` to an empty buffer. -/
def Encode.asSszBytes {α : Type} (E : Encode α) (x : α) : List UInt8 := E.sszAppend x

/-- The methods of `Decode` for one type.  A fixed-length type is at least a byte long, so that
`chunks` of its length does not panic. -/
structure Decode (α : Type) where
  isSszFixedLen : Bool
  sszFixedLen : Nat
  fromSszBytes : List UInt8 → DecodeResult α
  fixedLen_pos : isSszFixedLen = true → 0 < sszFixedLen

/-- The length check of a variable-length decoder, which has no fixed length, holds vacuously. -/
theorem Decode.variable_fixedLen_pos {n : Nat} (h : false = true) : 0 < n :=
  absurd h Bool.false_ne_true

/-! ## Offsets -/

/-- `encode_length`: the low four bytes of `len`, little-endian. -/
def encodeLength (len : Nat) : List UInt8 := toLeBytes bytesPerLengthOffset len

def decodeOffset (bytes : List UInt8) : DecodeResult Nat :=
  if bytes.length ≠ bytesPerLengthOffset then
    throw (.invalidLengthPrefix bytes.length bytesPerLengthOffset)
  else pure (fromLeBytes bytes)

def readOffset (bytes : List UInt8) : DecodeResult Nat :=
  match sliceRange bytes 0 bytesPerLengthOffset with
  | none => throw (.invalidLengthPrefix bytes.length bytesPerLengthOffset)
  | some slice => decodeOffset slice

def sanitizeOffset (offset : Nat) (previousOffset : Option Nat) (numBytes : Nat)
    (numFixedBytes : Option Nat) : DecodeResult Nat :=
  if numFixedBytes.any fun fixedBytes => decide (offset < fixedBytes) then
    throw (.offsetIntoFixedPortion offset)
  else if previousOffset.isNone && numFixedBytes.any fun fixedBytes => decide (offset ≠ fixedBytes) then
    throw (.offsetSkipsVariableBytes offset)
  else if offset > numBytes then throw (.offsetOutOfBounds offset)
  else if previousOffset.any fun prev => decide (prev > offset) then
    throw (.offsetsAreDecreasing offset)
  else pure offset

@[simp] theorem length_encodeLength (len : Nat) : (encodeLength len).length = bytesPerLengthOffset :=
  length_toLeBytes _ _

/-- An offset that fits four bytes reads back. -/
theorem readOffset_encodeLength {len : Nat} (h : len < 2 ^ 32) (rest : List UInt8) :
    readOffset (encodeLength len ++ rest) = pure len := by
  have hslice : sliceRange (encodeLength len ++ rest) 0 bytesPerLengthOffset =
      some (encodeLength len) := by
    simpa using sliceRange_middle [] (encodeLength len) rest
  rw [readOffset, hslice]
  dsimp only
  rw [decodeOffset, if_neg (by simp), encodeLength, fromLeBytes_toLeBytes_of_lt h]

/-- An offset inside the bytes, past the fixed part and the previous offset, passes. -/
theorem sanitizeOffset_eq_pure {offset numBytes : Nat} {previousOffset numFixedBytes : Option Nat}
    (hfixed : ∀ f ∈ numFixedBytes, f ≤ offset)
    (hskip : previousOffset = none → ∀ f ∈ numFixedBytes, f = offset)
    (hbound : offset ≤ numBytes) (hprev : ∀ p ∈ previousOffset, p ≤ offset) :
    sanitizeOffset offset previousOffset numBytes numFixedBytes = pure offset := by
  cases numFixedBytes with
  | none =>
    cases previousOffset with
    | none => simp [sanitizeOffset, hbound]
    | some p => simp [sanitizeOffset, Nat.not_lt.mpr hbound, Nat.not_lt.mpr (hprev p rfl)]
  | some f =>
    have hf := hfixed f rfl
    cases previousOffset with
    | none => simp [sanitizeOffset, hbound, hskip rfl f rfl]
    | some p =>
      simp [sanitizeOffset, Nat.not_lt.mpr hbound, Nat.not_lt.mpr (hprev p rfl), Nat.not_lt.mpr hf]

/-! ## `SszEncoder` -/

structure SszEncoder where
  offset : Nat
  buf : List UInt8
  variableBytes : List UInt8

namespace SszEncoder

variable {α : Type}

def container (buf : List UInt8) (numFixedBytes : Nat) : SszEncoder := ⟨numFixedBytes, buf, []⟩

def appendParameterized (e : SszEncoder) (isSszFixedLen : Bool) (bytes : List UInt8) :
    SszEncoder :=
  if isSszFixedLen then { e with buf := e.buf ++ bytes }
  else
    { e with buf := e.buf ++ encodeLength (e.offset + e.variableBytes.length),
             variableBytes := e.variableBytes ++ bytes }

def append (e : SszEncoder) (E : Encode α) (item : α) : SszEncoder :=
  e.appendParameterized E.isSszFixedLen (E.sszAppend item)

def finalize (e : SszEncoder) : List UInt8 := e.buf ++ e.variableBytes

end SszEncoder

/-- Where each part starts when the parts follow each other from `start`. -/
def runningOffsets (start : Nat) : List (List UInt8) → List Nat
  | [] => []
  | part :: parts => start :: runningOffsets (start + part.length) parts

@[simp] theorem length_runningOffsets (start : Nat) (parts : List (List UInt8)) :
    (runningOffsets start parts).length = parts.length := by
  induction parts generalizing start with
  | nil => rfl
  | cons part parts ih => simp [runningOffsets, ih]

/-- The offsets of two runs of parts: the second starts after the first. -/
theorem runningOffsets_append (start : Nat) (front back : List (List UInt8)) :
    runningOffsets start (front ++ back) =
      runningOffsets start front ++ runningOffsets (start + front.flatten.length) back := by
  induction front generalizing start with
  | nil => simp [runningOffsets]
  | cons part front ih => simp [runningOffsets, ih, Nat.add_assoc]

theorem length_flatMap_encodeLength (offsets : List Nat) :
    (offsets.flatMap encodeLength).length = offsets.length * bytesPerLengthOffset := by
  induction offsets with
  | nil => rfl
  | cons o offsets ih => simp [ih, Nat.succ_mul, Nat.add_comm]

variable {α : Type}

/-- Appending variable-length items: an offset per item, counted on from the bytes so far, and
the items end to end. -/
theorem foldl_append_variable (E : Encode α) (hE : E.isSszFixedLen = false) (xs : List α)
    (e : SszEncoder) :
    xs.foldl (fun e x => e.append E x) e =
      { e with buf := e.buf ++ (runningOffsets (e.offset + e.variableBytes.length)
                (xs.map E.sszAppend)).flatMap encodeLength,
               variableBytes := e.variableBytes ++ (xs.map E.sszAppend).flatten } := by
  induction xs generalizing e with
  | nil => simp [runningOffsets]
  | cons x xs ih =>
    rw [List.foldl_cons, ih]
    simp [SszEncoder.append, SszEncoder.appendParameterized, hE, runningOffsets, Nat.add_assoc]

/-! ## `Vec<T>` -/

def vecEncode (E : Encode α) : Encode (List α) where
  isSszFixedLen := false
  sszFixedLen := bytesPerLengthOffset
  sszAppend xs :=
    if E.isSszFixedLen then (xs.map E.sszAppend).flatten
    else
      (xs.foldl (fun e x => e.append E x)
        (SszEncoder.container [] (xs.length * bytesPerLengthOffset))).finalize
  sszBytesLen xs :=
    if E.isSszFixedLen then E.sszFixedLen * xs.length
    else (xs.map E.sszBytesLen).sum + bytesPerLengthOffset * xs.length

/-- A list of variable-length items: the offsets, then the items. -/
theorem vecEncode_variable (E : Encode α) (hE : E.isSszFixedLen = false) (xs : List α) :
    (vecEncode E).sszAppend xs =
      (runningOffsets (xs.length * bytesPerLengthOffset) (xs.map E.sszAppend)).flatMap
        encodeLength ++ (xs.map E.sszAppend).flatten := by
  simp only [vecEncode, hE, Bool.false_eq_true, if_false]
  rw [foldl_append_variable E hE]
  simp [SszEncoder.container, SszEncoder.finalize]

theorem length_vecEncode_variable (E : Encode α) (hE : E.isSszFixedLen = false) (xs : List α) :
    ((vecEncode E).sszAppend xs).length =
      bytesPerLengthOffset * xs.length + (xs.map fun x => (E.sszAppend x).length).sum := by
  rw [vecEncode_variable E hE, List.length_append, List.length_flatMap, List.length_flatten]
  simp [List.map_const', List.sum_replicate, Function.comp_def, Nat.mul_comm]

/-- Item `i` of the loop of `decode_list_of_variable_length_items` at `offset`: its range, and
the offset after it; the last item runs to the end. -/
def nextItem (bytes : List UInt8) (firstOffset numItems i offset : Nat) :
    DecodeResult (Option (List UInt8) × Nat) :=
  if i = numItems then pure (sliceFrom bytes offset, offset)
  else do
    -- `&bytes[i * 4..]` is in bounds, as `i * 4 < first_offset ≤ bytes.len()`
    let nextOffset ← readOffset (bytes.drop (i * bytesPerLengthOffset))
    let offset' ← sanitizeOffset nextOffset (some offset) bytes.length (some firstOffset)
    pure (sliceRange bytes offset offset', offset')

/-- The loop over `1..=num_items`, from item `i` at `offset`. -/
def decodeItems (D : Decode α) (bytes : List UInt8) (firstOffset numItems : Nat) :
    List Nat → Nat → DecodeResult (List α)
  | [], _ => pure []
  | i :: rest, offset => do
    let (sliceOption, offset) ← nextItem bytes firstOffset numItems i offset
    let slice ← match sliceOption with
      | some slice => pure slice
      | none => throw (.outOfBoundsByte offset)
    let value ← D.fromSszBytes slice
    let values ← decodeItems D bytes firstOffset numItems rest offset
    pure (value :: values)

/-- `decode_list_of_variable_length_items(bytes, None)`, as `Vec<T>` calls it. -/
def decodeListOfVariableLengthItems (D : Decode α) (bytes : List UInt8) :
    DecodeResult (List α) :=
  if bytes.isEmpty then pure []
  else do
    let firstOffset ← readOffset bytes
    let _ ← sanitizeOffset firstOffset none bytes.length (some firstOffset)
    if firstOffset % bytesPerLengthOffset ≠ 0 ∨ firstOffset < bytesPerLengthOffset then
      throw (.invalidListFixedBytesLen firstOffset)
    let numItems := firstOffset / bytesPerLengthOffset
    decodeItems D bytes firstOffset numItems (List.range' 1 numItems) firstOffset

def vecDecode (D : Decode α) : Decode (List α) where
  isSszFixedLen := false
  sszFixedLen := bytesPerLengthOffset
  fromSszBytes bytes :=
    if bytes.isEmpty then pure []
    else if h : D.isSszFixedLen then
      (chunks D.sszFixedLen (D.fixedLen_pos h) bytes).mapM D.fromSszBytes
    else decodeListOfVariableLengthItems D bytes
  fixedLen_pos := Decode.variable_fixedLen_pos

theorem mapM_eq_pure {β : Type} {f : β → DecodeResult α} {g : β → α} :
    ∀ {l : List β}, (∀ b ∈ l, f b = pure (g b)) → l.mapM f = pure (l.map g)
  | [], _ => rfl
  | b :: l, h => by
    rw [List.mapM_cons, h b (List.mem_cons_self ..),
      mapM_eq_pure fun b' hb' => h b' (List.mem_cons_of_mem _ hb')]
    simp

/-- **A list of fixed-length items reads back.** -/
theorem vecDecode_vecEncode_fixed {E : Encode α} {D : Decode α} (hE : E.isSszFixedLen = true)
    (hD : D.isSszFixedLen = true) {xs : List α}
    (hlen : ∀ x ∈ xs, (E.sszAppend x).length = D.sszFixedLen)
    (hrt : ∀ x ∈ xs, D.fromSszBytes (E.sszAppend x) = pure x) :
    (vecDecode D).fromSszBytes ((vecEncode E).sszAppend xs) = pure xs := by
  have hpos := D.fixedLen_pos hD
  cases xs with
  | nil => simp [vecEncode, vecDecode, hE]
  | cons x xs =>
    -- the first item takes at least a byte, so the list is not empty
    have hne : ((x :: xs).map E.sszAppend).flatten.isEmpty = false := by
      have := hlen x (List.mem_cons_self ..)
      cases hx : E.sszAppend x with
      | nil => rw [hx] at this; simp at this; omega
      | cons b bs => simp [hx]
    have hparts : ∀ p ∈ (x :: xs).map E.sszAppend, p.length = D.sszFixedLen := by
      simpa using hlen
    simp only [vecEncode, vecDecode, hE, hD, if_true, dif_pos, hne, Bool.false_eq_true, if_false]
    rw [chunks_flatten hpos _ hparts, List.mapM_map,
      mapM_eq_pure (f := D.fromSszBytes ∘ E.sszAppend) (g := id) fun x hx => hrt x hx, List.map_id]

section Variable

variable {E : Encode α} {D : Decode α} {xs : List α}

/-- The loop from any item on: with the items before it decoded, it decodes the rest.  The
offsets table takes `4 · xs.length` bytes, so item `i` starts after it and the items before. -/
theorem decodeItems_of_encoded (hrt : ∀ x ∈ xs, D.fromSszBytes (E.sszAppend x) = pure x)
    (hfit : ((runningOffsets (xs.length * bytesPerLengthOffset) (xs.map E.sszAppend)).flatMap
        encodeLength ++ (xs.map E.sszAppend).flatten).length < 2 ^ 32) :
    ∀ pre rest, xs = pre ++ rest →
      decodeItems D ((runningOffsets (xs.length * bytesPerLengthOffset)
          (xs.map E.sszAppend)).flatMap encodeLength ++ (xs.map E.sszAppend).flatten)
        (xs.length * bytesPerLengthOffset) xs.length (List.range' (pre.length + 1) rest.length)
        (xs.length * bytesPerLengthOffset + (pre.map E.sszAppend).flatten.length) = pure rest := by
  set s := xs.length * bytesPerLengthOffset with hs
  set H := (runningOffsets s (xs.map E.sszAppend)).flatMap encodeLength with hH
  have hHlen : H.length = s := by
    rw [hH, length_flatMap_encodeLength, length_runningOffsets, List.length_map]
  intro pre rest hsplit
  induction rest generalizing pre with
  | nil => rfl
  | cons x rest ih =>
    have hx : D.fromSszBytes (E.sszAppend x) = pure x := hrt x (by simp [hsplit])
    -- the bytes: the offsets, the items before, this item, the items after
    have hbytes : H ++ (xs.map E.sszAppend).flatten =
        (H ++ (pre.map E.sszAppend).flatten) ++ E.sszAppend x ++ (rest.map E.sszAppend).flatten := by
      rw [hsplit]
      simp only [List.map_append, List.map_cons, List.flatten_append, List.flatten_cons,
        List.append_assoc]
    have hstart : s + (pre.map E.sszAppend).flatten.length =
        (H ++ (pre.map E.sszAppend).flatten).length := by
      rw [List.length_append, hHlen]
    have hnext := ih (pre ++ [x]) (by rw [hsplit]; simp)
    rw [List.length_append, List.length_singleton] at hnext
    cases rest with
    | nil =>
      -- the last item runs to the end
      have hlast : pre.length + 1 = xs.length := by rw [hsplit]; simp
      have hslice : sliceFrom (H ++ (xs.map E.sszAppend).flatten)
          (s + (pre.map E.sszAppend).flatten.length) = some (E.sszAppend x) := by
        rw [hbytes, hstart, List.map_nil, List.flatten_nil, List.append_nil]
        exact sliceFrom_back _ _
      rw [List.length_singleton, List.range'_one, decodeItems, nextItem, if_pos hlast, pure_bind]
      simp only [hslice, hx, pure_bind, decodeItems]
    | cons y rest =>
      have hlt : pre.length + 1 ≠ xs.length := by rw [hsplit]; simp
      set offset' := s + ((pre ++ [x]).map E.sszAppend).flatten.length with hoffset'
      have hend : offset' = (H ++ (pre.map E.sszAppend).flatten).length + (E.sszAppend x).length := by
        rw [hoffset', List.length_append, hHlen]
        simp [Nat.add_assoc]
      have hlen : (H ++ (xs.map E.sszAppend).flatten).length =
          offset' + ((y :: rest).map E.sszAppend).flatten.length := by
        rw [hbytes, hend]
        simp only [List.length_append]
      -- the offsets from this item's end on follow the offsets of the items up to it
      have hoffsets : H = (runningOffsets s ((pre ++ [x]).map E.sszAppend)).flatMap encodeLength ++
          (encodeLength offset' ++ (runningOffsets (offset' + (E.sszAppend y).length)
            (rest.map E.sszAppend)).flatMap encodeLength) := by
        rw [hH, hsplit, show pre ++ x :: y :: rest = (pre ++ [x]) ++ (y :: rest) by simp,
          List.map_append, runningOffsets_append, List.flatMap_append]
        simp [runningOffsets, hoffset']
      have hfront : ((runningOffsets s ((pre ++ [x]).map E.sszAppend)).flatMap encodeLength).length =
          (pre.length + 1) * bytesPerLengthOffset := by
        rw [length_flatMap_encodeLength, length_runningOffsets]
        simp
      have hread : readOffset ((H ++ (xs.map E.sszAppend).flatten).drop
          ((pre.length + 1) * bytesPerLengthOffset)) = pure offset' := by
        rw [hoffsets, List.append_assoc, List.drop_left' hfront, List.append_assoc,
          readOffset_encodeLength (by rw [← hoffsets] at *; omega)]
      have hsan : sanitizeOffset offset' (some (s + (pre.map E.sszAppend).flatten.length))
          (H ++ (xs.map E.sszAppend).flatten).length (some s) = pure offset' :=
        sanitizeOffset_eq_pure (by simp [hoffset']) (by simp) (by omega)
          (fun p hp => by rw [Option.mem_some_iff] at hp; subst hp; omega)
      have hslice : sliceRange (H ++ (xs.map E.sszAppend).flatten)
          (s + (pre.map E.sszAppend).flatten.length) offset' = some (E.sszAppend x) := by
        rw [hbytes, hstart, hend]
        exact sliceRange_middle _ _ _
      rw [List.length_cons, List.range'_succ, decodeItems, nextItem, if_neg hlt, hread, pure_bind,
        hsan, pure_bind, pure_bind]
      simp only [hslice, hx, pure_bind]
      rw [hnext]
      rfl

/-- **A list of variable-length items reads back**, when every item does and the list fits the
4-byte offsets. -/
theorem vecDecode_vecEncode_variable (hE : E.isSszFixedLen = false) (hD : D.isSszFixedLen = false)
    (hrt : ∀ x ∈ xs, D.fromSszBytes (E.sszAppend x) = pure x)
    (hfit : ((vecEncode E).sszAppend xs).length < 2 ^ 32) :
    (vecDecode D).fromSszBytes ((vecEncode E).sszAppend xs) = pure xs := by
  rw [vecEncode_variable E hE] at hfit ⊢
  have hloop := decodeItems_of_encoded (D := D) hrt hfit [] xs rfl
  simp only [List.length_nil, Nat.zero_add, List.map_nil, List.flatten_nil, List.length_nil,
    Nat.add_zero] at hloop
  cases xs with
  | nil => simp [vecDecode, runningOffsets]
  | cons x xs' =>
    set k := (x :: xs').length with hk
    -- the first offset is the length of the offsets table
    have hfirst : (runningOffsets (k * bytesPerLengthOffset) ((x :: xs').map E.sszAppend)).flatMap
        encodeLength = encodeLength (k * bytesPerLengthOffset) ++
          (runningOffsets (k * bytesPerLengthOffset + (E.sszAppend x).length)
            (xs'.map E.sszAppend)).flatMap encodeLength := by
      simp [runningOffsets]
    have hlen : k * bytesPerLengthOffset ≤ ((runningOffsets (k * bytesPerLengthOffset)
        ((x :: xs').map E.sszAppend)).flatMap encodeLength ++
          ((x :: xs').map E.sszAppend).flatten).length := by
      rw [List.length_append, length_flatMap_encodeLength, length_runningOffsets, List.length_map]
      exact Nat.le_add_right _ _
    have hread : readOffset ((runningOffsets (k * bytesPerLengthOffset)
        ((x :: xs').map E.sszAppend)).flatMap encodeLength ++
          ((x :: xs').map E.sszAppend).flatten) = pure (k * bytesPerLengthOffset) := by
      rw [hfirst, List.append_assoc, readOffset_encodeLength]
      omega
    have hne : ((runningOffsets (k * bytesPerLengthOffset) ((x :: xs').map E.sszAppend)).flatMap
        encodeLength ++ ((x :: xs').map E.sszAppend).flatten).isEmpty = false := by
      rw [hfirst]
      simp [encodeLength, bytesPerLengthOffset, toLeBytes]
    have hk4 : ¬(k * bytesPerLengthOffset % bytesPerLengthOffset ≠ 0 ∨
        k * bytesPerLengthOffset < bytesPerLengthOffset) := by
      simp only [bytesPerLengthOffset, hk, List.length_cons]
      omega
    simp only [vecDecode, hne, hD, Bool.false_eq_true, dif_neg, if_false, not_false_eq_true,
      decodeListOfVariableLengthItems, hread, pure_bind]
    rw [sanitizeOffset_eq_pure (by simp) (by simp) hlen (by simp), pure_bind, if_neg hk4,
      Nat.mul_div_cancel k (show 0 < bytesPerLengthOffset by decide), hloop]

end Variable

/-! ## `SszDecoderBuilder` and `SszDecoder` -/

structure SszDecoderBuilder where
  bytes : List UInt8
  items : List (List UInt8)
  /-- The `(position, offset)` of each variable-length item. -/
  offsets : List (Nat × Nat)
  itemsIndex : Nat

namespace SszDecoderBuilder

def new (bytes : List UInt8) : SszDecoderBuilder := ⟨bytes, [], [], 0⟩

def registerTypeParameterized (b : SszDecoderBuilder) (isSszFixedLen : Bool) (sszFixedLen : Nat) :
    DecodeResult SszDecoderBuilder :=
  if isSszFixedLen then
    match sliceRange b.bytes b.itemsIndex (b.itemsIndex + sszFixedLen) with
    | none => throw (.invalidByteLength b.bytes.length (b.itemsIndex + sszFixedLen))
    | some slice =>
      pure { b with items := b.items ++ [slice], itemsIndex := b.itemsIndex + sszFixedLen }
  else do
    -- `&self.bytes[self.items_index..]` is in bounds: every item registered before was read
    let offset ← readOffset (b.bytes.drop b.itemsIndex)
    let offset ← sanitizeOffset offset (b.offsets.getLast?.map (·.2)) b.bytes.length none
    -- the empty slice is replaced by `finalize`
    pure { b with offsets := b.offsets ++ [(b.items.length, offset)], items := b.items ++ [[]],
                  itemsIndex := b.itemsIndex + bytesPerLengthOffset }

def registerType (b : SszDecoderBuilder) (D : Decode α) : DecodeResult SszDecoderBuilder :=
  b.registerTypeParameterized D.isSszFixedLen D.sszFixedLen

/-- The slices of the variable-length items: each runs to the next offset, the last to the end.
The ranges are in bounds, as every offset was sanitized. -/
def fillItems (bytes : List UInt8) : List (List UInt8) → List (Nat × Nat) → List (List UInt8)
  | items, [] => items
  | items, [last] => items.set last.1 (bytes.drop last.2)
  | items, a :: b :: rest =>
    fillItems bytes (items.set a.1 ((bytes.drop a.2).take (b.2 - a.2))) (b :: rest)

def finalize (b : SszDecoderBuilder) : DecodeResult SszDecoderBuilder :=
  match b.offsets.head? with
  | some first =>
    if first.2 < b.itemsIndex then throw (.offsetIntoFixedPortion first.2)
    else if first.2 > b.itemsIndex then throw (.offsetSkipsVariableBytes first.2)
    else pure { b with items := fillItems b.bytes b.items b.offsets }
  | none =>
    if b.itemsIndex ≠ b.bytes.length then throw (.invalidByteLength b.bytes.length b.itemsIndex)
    else pure b

/-- `build`: the items of the `SszDecoder`. -/
def build (b : SszDecoderBuilder) : DecodeResult (List (List UInt8)) := do
  let b ← b.finalize
  pure b.items

/-- A fixed-length item where the items before it end is cut out as it is. -/
theorem registerTypeParameterized_fixed_at {b : SszDecoderBuilder} (front mid back : List UInt8)
    {n : Nat} (hbytes : b.bytes = front ++ mid ++ back) (hindex : b.itemsIndex = front.length)
    (hn : mid.length = n) :
    b.registerTypeParameterized true n =
      pure { b with items := b.items ++ [mid], itemsIndex := b.itemsIndex + n } := by
  have hslice : sliceRange b.bytes b.itemsIndex (b.itemsIndex + n) = some mid := by
    rw [hbytes, hindex, ← hn]
    exact sliceRange_middle _ _ _
  rw [registerTypeParameterized, if_pos rfl, hslice]

/-- The offset of a variable-length item where the items before it end, inside the bytes and
past the previous offset, is registered. -/
theorem registerTypeParameterized_variable_at {b : SszDecoderBuilder} (front back : List UInt8)
    {n offset : Nat} (hbytes : b.bytes = front ++ encodeLength offset ++ back)
    (hindex : b.itemsIndex = front.length) (hfit : offset < 2 ^ 32)
    (hbound : offset ≤ b.bytes.length) (hprev : ∀ p ∈ b.offsets.getLast?.map (·.2), p ≤ offset) :
    b.registerTypeParameterized false n =
      pure { b with offsets := b.offsets ++ [(b.items.length, offset)], items := b.items ++ [[]],
                    itemsIndex := b.itemsIndex + bytesPerLengthOffset } := by
  have hread : readOffset (b.bytes.drop b.itemsIndex) = pure offset := by
    rw [hbytes, hindex, List.append_assoc, List.drop_left, readOffset_encodeLength hfit]
  rw [registerTypeParameterized, if_neg Bool.false_ne_true, hread, pure_bind,
    sanitizeOffset_eq_pure (by simp) (by simp) hbound hprev, pure_bind]

end SszDecoderBuilder

/-- `SszDecoder::decode_next`: decodes the first item; `remove(0)` panics when none is left. -/
def decodeNext (D : Decode α) : List (List UInt8) → DecodeResult (α × List (List UInt8))
  | [] => abort
  | item :: items => do
    let x ← D.fromSszBytes item
    pure (x, items)

theorem decodeNext_cons {D : Decode α} {item : List UInt8} {x : α}
    (h : D.fromSszBytes item = pure x) (items : List (List UInt8)) :
    decodeNext D (item :: items) = pure (x, items) := by
  rw [decodeNext, h, pure_bind]

/-! ## Unsigned integers and `H256` -/

/-- `Encode` of an unsigned integer of `width` bytes. -/
def uintEncode (width : Nat) : Encode Nat where
  isSszFixedLen := true
  sszFixedLen := width
  sszAppend x := toLeBytes width x
  sszBytesLen _ := width

/-- `Decode` of an unsigned integer of `width` bytes. -/
def uintDecode (width : Nat) (hw : 0 < width) : Decode Nat where
  isSszFixedLen := true
  sszFixedLen := width
  fromSszBytes bytes :=
    if bytes.length ≠ width then throw (.invalidByteLength bytes.length width)
    else pure (fromLeBytes bytes)
  fixedLen_pos _ := hw

def u16Encode : Encode Nat := uintEncode 2

def u16Decode : Decode Nat := uintDecode 2 (by decide)

def u64Encode : Encode Nat := uintEncode 8

def u64Decode : Decode Nat := uintDecode 8 (by decide)

def h256Encode : Encode (Vector UInt8 32) where
  isSszFixedLen := true
  sszFixedLen := 32
  sszAppend x := x.toList
  sszBytesLen _ := 32

def h256Decode : Decode (Vector UInt8 32) where
  isSszFixedLen := true
  sszFixedLen := 32
  fromSszBytes bytes :=
    if h : bytes.length = 32 then pure ⟨bytes.toArray, by simpa using h⟩
    else throw (.invalidByteLength bytes.length 32)
  fixedLen_pos _ := by decide

/-- An integer that fits its width reads back. -/
theorem uintDecode_uintEncode {width x : Nat} (hw : 0 < width) (h : x < 2 ^ (8 * width)) :
    (uintDecode width hw).fromSszBytes ((uintEncode width).sszAppend x) = pure x := by
  simp [uintDecode, uintEncode, fromLeBytes_toLeBytes_of_lt h]

theorem u16Decode_toLeBytes {x : Nat} (h : x < 2 ^ 16) :
    u16Decode.fromSszBytes (toLeBytes 2 x) = pure x :=
  uintDecode_uintEncode _ h

theorem u64Decode_toLeBytes {x : Nat} (h : x < 2 ^ 64) :
    u64Decode.fromSszBytes (toLeBytes 8 x) = pure x :=
  uintDecode_uintEncode _ h

theorem h256Decode_h256Encode (x : Vector UInt8 32) :
    h256Decode.fromSszBytes (h256Encode.sszAppend x) = pure x := by
  obtain ⟨a, ha⟩ := x
  simp only [h256Decode, h256Encode, Vector.toList, Array.toArray_toList, Array.length_toList,
    dif_pos ha]

end Ionian.Ssz
