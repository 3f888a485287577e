import Ionian.Storage.LogManager
import Ionian.Kv.MinQueue

/-!
# ChunkPool.WriteControl — the upload window of a file, and the writes in flight

`ChunkPoolWriteCtrl` tracks, for each file being uploaded, a sliding window of segments
(`CtrlWindow`): the segments below `left_boundary` are written, and each slot of the window is a
segment being written or written out of order.  `write_segment` opens a slot, or returns `Ok`
without one for a segment it has seen (`check_duplicate`); the store write follows with the lock
released, and then `on_write_succeeded` closes the slot and moves the boundary over the finished
run, or `on_write_failed` drops it.

Every interleaving of these calls keeps each window's slots at or above its boundary
(`Inv.run`).  But `write_chunks` calls back after the store write whether or not
`write_segment` opened a slot, so a segment uploaded again after it was written finds no slot to
close: `finish_writing` and `rollback_writing` assert that there is one, and the upload panics,
whatever the store answers (`writeChunks_duplicate_panics`).

The file roots and transaction ids are type parameters, the `HashMap`s are an association list
and a `SortedMap`, and the store write is its answer (`PutAnswer`).  Panics (`assert!`,
`assert_eq!`) are `none`.
-/

namespace Ionian.ChunkPool

open Kv Storage

/-- The segment status in sliding window -/
inductive SlotStatus
  | writing
  | finished
deriving DecidableEq, Repr

structure CtrlWindow where
  size : Nat
  leftBoundary : Nat
  slots : SortedMap Nat SlotStatus
deriving DecidableEq

namespace CtrlWindow

def new (size : Nat) : CtrlWindow := ⟨size, 0, .empty⟩

/-- `check_duplicate`: the segment is written, or has a slot. -/
def checkDuplicate (w : CtrlWindow) (index : Nat) : Bool :=
  decide (index < w.leftBoundary) || (w.slots.lookup index).isSome

/-- `start_writing` -/
def startWriting (w : CtrlWindow) (index : Nat) : Option (CtrlWindow × Except String Unit) :=
  if index < w.leftBoundary then none
  else if index ≥ w.leftBoundary + w.size then
    some (w, .error ("index exceeds window limit, index = " ++ toString index ++
      ", left_boundary = " ++ toString w.leftBoundary ++ ", window_size = " ++ toString w.size))
  else if (w.slots.lookup index).isSome then none
  else some ({ w with slots := w.slots.insert index .writing }, .ok ())

/-- `rollback_writing`: the slot removed, which must have been writing. -/
def rollbackWriting (w : CtrlWindow) (index : Nat) : Option CtrlWindow :=
  if w.slots.lookup index = some .writing then some { w with slots := w.slots.erase index }
  else none

/-- The loop of `finish_writing` that moves the boundary over the finished slots.  Each pass
removes a slot, so `fuel` at least the number of slots runs it to its end. -/
def advance : Nat → SortedMap Nat SlotStatus → Nat → SortedMap Nat SlotStatus × Nat
  | 0, slots, leftBoundary => (slots, leftBoundary)
  | fuel + 1, slots, leftBoundary =>
    if slots.lookup leftBoundary = some .finished then
      advance fuel (slots.erase leftBoundary) (leftBoundary + 1)
    else (slots, leftBoundary)

/-- `finish_writing`: the slot, which must have been writing, finished, and the boundary moved
forward over the leftmost finished slots. -/
def finishWriting (w : CtrlWindow) (index : Nat) : Option CtrlWindow :=
  if w.slots.lookup index = some .writing then
    let slots := w.slots.insert index .finished
    let (slots, leftBoundary) := advance slots.entries.length slots w.leftBoundary
    some { w with slots, leftBoundary }
  else none

end CtrlWindow

structure FileID (ρ τ : Type) where
  root : ρ
  txId : τ
deriving DecidableEq, Repr

/-- `Config`, with the fields the write control reads. -/
structure Config where
  writeWindowSize : Nat
  maxWritings : Nat
deriving DecidableEq, Repr

structure FileWriteCtrl (ρ τ : Type) where
  id : FileID ρ τ
  totalSegments : Nat
  window : CtrlWindow
deriving DecidableEq

def FileWriteCtrl.new {ρ τ : Type} (id : FileID ρ τ) (totalSegments windowSize : Nat) :
    FileWriteCtrl ρ τ :=
  ⟨id, totalSegments, CtrlWindow.new windowSize⟩

structure ChunkPoolWriteCtrl (ρ τ : Type) where
  config : Config
  /-- Windows to control writing processes of files -/
  files : List (ρ × FileWriteCtrl ρ τ)
  /-- Total number of threads that are writing chunks into store. -/
  totalWritings : Nat
deriving DecidableEq

namespace ChunkPoolWriteCtrl

variable {ρ τ : Type} [DecidableEq ρ] [DecidableEq τ]

def new (config : Config) : ChunkPoolWriteCtrl ρ τ := ⟨config, [], 0⟩

/-! ### The map of files -/

def getFile (c : ChunkPoolWriteCtrl ρ τ) (root : ρ) : Option (FileWriteCtrl ρ τ) :=
  c.files.lookup root

/-- The file of `root` set to `f`. -/
def setFile (c : ChunkPoolWriteCtrl ρ τ) (root : ρ) (f : FileWriteCtrl ρ τ) :
    ChunkPoolWriteCtrl ρ τ :=
  { c with files := (root, f) :: c.files.filter (·.1 ≠ root) }

/-- `remove_file` -/
def removeFile (c : ChunkPoolWriteCtrl ρ τ) (root : ρ) : ChunkPoolWriteCtrl ρ τ :=
  { c with files := c.files.filter (·.1 ≠ root) }

/-! ### The calls -/

/-- `write_segment` -/
def writeSegment (c : ChunkPoolWriteCtrl ρ τ) (id : FileID ρ τ) (segIndex totalSegments : Nat) :
    Option (ChunkPoolWriteCtrl ρ τ × Except String Unit) :=
  let fileCtrl := (c.getFile id.root).getD (FileWriteCtrl.new id totalSegments c.config.writeWindowSize)
  let c := c.setFile id.root fileCtrl
  -- ensure the tx_id not changed during file uploading
  if fileCtrl.id ≠ id then
    some (c.removeFile id.root, .error "Transaction reverted when uploading segments, please try again")
  else if fileCtrl.totalSegments ≠ totalSegments then
    some (c, .error ("file size in segment doesn't match with file size declared in previous " ++
      "segment. Previous total segments:" ++ toString fileCtrl.totalSegments ++
      ", current total segments:" ++ toString totalSegments ++ "s"))
  -- Segment already uploaded.
  else if fileCtrl.window.checkDuplicate segIndex then some (c, .ok ())
  -- Limits the number of writing threads.
  else if c.totalWritings ≥ c.config.maxWritings then
    some (c, .error ("too many data writing: " ++ toString c.config.maxWritings))
  else
    (fileCtrl.window.startWriting segIndex).map fun (window, r) =>
      match r with
      | .error e => (c, .error e)
      | .ok () =>
        ({ c.setFile id.root { fileCtrl with window } with totalWritings := c.totalWritings + 1 },
          .ok ())

/-- `on_write_succeeded`: whether every segment of the file is written. -/
def onWriteSucceeded (c : ChunkPoolWriteCtrl ρ τ) (root : ρ) (segIndex : Nat) :
    Option (ChunkPoolWriteCtrl ρ τ × Bool) :=
  match c.getFile root with
  | none => some (c, false)
  | some fileCtrl =>
    (fileCtrl.window.finishWriting segIndex).bind fun window =>
      if c.totalWritings > 0 then
        some ({ c.setFile root { fileCtrl with window } with totalWritings := c.totalWritings - 1 },
          -- All chunks of file written into store.
          decide (window.leftBoundary ≥ fileCtrl.totalSegments))
      else none

/-- `on_write_failed` -/
def onWriteFailed (c : ChunkPoolWriteCtrl ρ τ) (root : ρ) (segIndex : Nat) :
    Option (ChunkPoolWriteCtrl ρ τ) :=
  match c.getFile root with
  | none => some c
  | some fileCtrl =>
    -- Rollback the segment status if failed
    (fileCtrl.window.rollbackWriting segIndex).bind fun window =>
      if c.totalWritings > 0 then
        some { c.setFile root { fileCtrl with window } with totalWritings := c.totalWritings - 1 }
      else none

/-! ### `write_chunks` -/

/-- `SegmentInfo`, with the fields the write control reads. -/
structure SegmentInfo (ρ : Type) where
  root : ρ
  segIndex : Nat
  chunksPerSegment : Nat

/-- What `put_chunks_with_tx_hash` of the segment returns. -/
inductive PutAnswer
  | ok
  /-- `Ok(false)`: the transaction was reverted. -/
  | reverted
  | error (e : String)

/-- `MemoryChunkPool::write_chunks`, with the store's answer: `Ok(true)` when the file is to be
finalized. -/
def writeChunks (c : ChunkPoolWriteCtrl ρ τ) (segInfo : SegmentInfo ρ) (fileId : FileID ρ τ)
    (fileSize : Nat) (answer : PutAnswer) : Option (ChunkPoolWriteCtrl ρ τ × Except String Bool) :=
  let totalChunks := bytesToChunks fileSize
  let totalSegments := (computeSegmentSize totalChunks segInfo.chunksPerSegment).1
  (c.writeSegment fileId segInfo.segIndex totalSegments).bind fun (c, r) =>
    match r with
    | .error e => some (c, .error e)
    | .ok () =>
      match answer with
      | .ok => (c.onWriteSucceeded segInfo.root segInfo.segIndex).map fun (c, allUploaded) =>
          (c, .ok allUploaded)
      -- remove the file if transaction reverted
      | .reverted => (c.onWriteFailed segInfo.root segInfo.segIndex).map fun c =>
          (c.removeFile segInfo.root, .error "Transaction reverted, please upload again")
      | .error e => (c.onWriteFailed segInfo.root segInfo.segIndex).map fun c => (c, .error e)

/-! ### Interleavings -/

/-- The steps of concurrent uploads: each `write_chunks` is a `write_segment`, then, after the
store write with the lock released, one of the callbacks; `remove_file` may come in between. -/
inductive Call (ρ τ : Type)
  | writeSegment (id : FileID ρ τ) (segIndex totalSegments : Nat)
  | onWriteSucceeded (root : ρ) (segIndex : Nat)
  | onWriteFailed (root : ρ) (segIndex : Nat)
  | removeFile (root : ρ)

def step (c : ChunkPoolWriteCtrl ρ τ) : Call ρ τ → Option (ChunkPoolWriteCtrl ρ τ)
  | .writeSegment id segIndex totalSegments => (c.writeSegment id segIndex totalSegments).map (·.1)
  | .onWriteSucceeded root segIndex => (c.onWriteSucceeded root segIndex).map (·.1)
  | .onWriteFailed root segIndex => c.onWriteFailed root segIndex
  | .removeFile root => some (c.removeFile root)

def run (c : ChunkPoolWriteCtrl ρ τ) (calls : List (Call ρ τ)) : Option (ChunkPoolWriteCtrl ρ τ) :=
  calls.foldlM step c

end ChunkPoolWriteCtrl

/-! ## The window keeps its slots at or above its boundary -/

namespace CtrlWindow

variable {w w' : CtrlWindow} {index : Nat}

/-- The slots of the window lie at or above its boundary: the segments below it are written and
have none. -/
def Inv (w : CtrlWindow) : Prop := ∀ k, (w.slots.lookup k).isSome → w.leftBoundary ≤ k

theorem inv_new (size : Nat) : (new size).Inv := fun k h => by simp [new] at h

/-- A written segment has no slot. -/
theorem Inv.lookup_of_lt (hw : w.Inv) {k : Nat} (hk : k < w.leftBoundary) : w.slots.lookup k = none :=
  Option.not_isSome_iff_eq_none.mp fun hs => absurd (hw k hs) (Nat.not_le.mpr hk)

theorem Inv.startWriting (hw : w.Inv) {r : Except String Unit}
    (h : w.startWriting index = some (w', r)) : w'.Inv := by
  unfold CtrlWindow.startWriting at h
  split_ifs at h with hlt
  · cases h
    exact hw
  · cases h
    intro k hk
    simp only [SortedMap.lookup_insert] at hk
    split_ifs at hk with hki
    · show w.leftBoundary ≤ k
      omega
    · exact hw k hk

theorem Inv.rollbackWriting (hw : w.Inv) (h : w.rollbackWriting index = some w') : w'.Inv := by
  unfold CtrlWindow.rollbackWriting at h
  split_ifs at h
  cases h
  intro k hk
  simp only [SortedMap.lookup_erase] at hk
  split_ifs at hk
  · simp at hk
  · exact hw k hk

/-- The boundary moved over finished slots stays below every slot left. -/
theorem advance_inv {fuel : Nat} {slots : SortedMap Nat SlotStatus} {leftBoundary : Nat}
    (hs : ∀ k, (slots.lookup k).isSome → leftBoundary ≤ k) :
    ∀ k, ((advance fuel slots leftBoundary).1.lookup k).isSome →
      (advance fuel slots leftBoundary).2 ≤ k := by
  induction fuel generalizing slots leftBoundary with
  | zero => exact hs
  | succ fuel ih =>
    unfold advance
    split_ifs
    · -- the slot at the boundary is removed, so the next ones are above the next boundary
      refine ih fun k hk => ?_
      simp only [SortedMap.lookup_erase] at hk
      split_ifs at hk with hkb
      · simp at hk
      · have := hs k hk
        omega
    · exact hs

theorem Inv.finishWriting (hw : w.Inv) (h : w.finishWriting index = some w') : w'.Inv := by
  unfold CtrlWindow.finishWriting at h
  split_ifs at h with hwriting
  cases h
  -- the finished slot is the writing one, at or above the boundary
  have hindex : w.leftBoundary ≤ index := hw index (by simp [hwriting])
  refine advance_inv fun k hk => ?_
  simp only [SortedMap.lookup_insert] at hk
  split_ifs at hk with hki
  · exact hki ▸ hindex
  · exact hw k hk

/-- A written segment cannot be finished again: it has no slot. -/
theorem Inv.finishWriting_of_lt (hw : w.Inv) (hk : index < w.leftBoundary) :
    w.finishWriting index = none := by
  simp [CtrlWindow.finishWriting, hw.lookup_of_lt hk]

/-- Nor rolled back. -/
theorem Inv.rollbackWriting_of_lt (hw : w.Inv) (hk : index < w.leftBoundary) :
    w.rollbackWriting index = none := by
  simp [CtrlWindow.rollbackWriting, hw.lookup_of_lt hk]

end CtrlWindow

namespace ChunkPoolWriteCtrl

variable {ρ τ : Type} [DecidableEq ρ] [DecidableEq τ] {c c' : ChunkPoolWriteCtrl ρ τ}

omit [DecidableEq τ] in
@[simp] theorem getFile_setFile (root root' : ρ) (f : FileWriteCtrl ρ τ) :
    (c.setFile root f).getFile root' = if root' = root then some f else c.getFile root' := by
  unfold setFile getFile
  by_cases h : root' = root
  · simp [h]
  · simp only [List.lookup_cons, beq_false_of_ne h, if_neg h]
    exact (lookup_filter_ne root root' c.files).trans (if_neg h)

omit [DecidableEq τ] in
@[simp] theorem getFile_removeFile (root root' : ρ) :
    (c.removeFile root).getFile root' = if root' = root then none else c.getFile root' := by
  exact lookup_filter_ne root root' c.files

/-- Every window of the pool keeps its slots at or above its boundary. -/
def Inv (c : ChunkPoolWriteCtrl ρ τ) : Prop :=
  ∀ root f, c.getFile root = some f → f.window.Inv

omit [DecidableEq τ] in
theorem inv_new (config : Config) : (new config : ChunkPoolWriteCtrl ρ τ).Inv :=
  fun _ _ h => by cases h

omit [DecidableEq τ] in
theorem Inv.setFile (hc : c.Inv) {root : ρ} {f : FileWriteCtrl ρ τ} (hf : f.window.Inv) :
    (c.setFile root f).Inv := by
  intro root' f' h
  rw [getFile_setFile] at h
  split_ifs at h
  · cases h
    exact hf
  · exact hc root' f' h

omit [DecidableEq τ] in
theorem Inv.removeFile (hc : c.Inv) (root : ρ) : (c.removeFile root).Inv := by
  intro root' f' h
  rw [getFile_removeFile] at h
  split_ifs at h
  exact hc root' f' h

omit [DecidableEq τ] in
/-- The counter of writes in flight is not part of the invariant. -/
theorem Inv.withTotalWritings (hc : c.Inv) (n : Nat) : { c with totalWritings := n }.Inv := hc

theorem Inv.writeSegment (hc : c.Inv) {id : FileID ρ τ} {segIndex totalSegments : Nat}
    {r : Except String Unit} (h : c.writeSegment id segIndex totalSegments = some (c', r)) :
    c'.Inv := by
  -- the file's window, found or new, keeps the invariant
  have hf : ((c.getFile id.root).getD (FileWriteCtrl.new id totalSegments
      c.config.writeWindowSize)).window.Inv := by
    cases hfile : c.getFile id.root with
    | none => exact CtrlWindow.inv_new _
    | some f => exact hc id.root f hfile
  have hset : (c.setFile id.root _).Inv := hc.setFile hf
  unfold ChunkPoolWriteCtrl.writeSegment at h
  dsimp only at h
  split_ifs at h
  · cases h
    exact hset.removeFile id.root
  · cases h
    exact hset
  · cases h
    exact hset
  · cases h
    exact hset
  · obtain ⟨⟨window, r'⟩, hstart, h⟩ := Option.map_eq_some_iff.mp h
    cases r' with
    | error e =>
      cases h
      exact hset
    | ok u =>
      cases h
      exact (hset.setFile (hf.startWriting hstart)).withTotalWritings _

omit [DecidableEq τ] in
theorem Inv.onWriteSucceeded (hc : c.Inv) {root : ρ} {segIndex : Nat} {allUploaded : Bool}
    (h : c.onWriteSucceeded root segIndex = some (c', allUploaded)) : c'.Inv := by
  unfold ChunkPoolWriteCtrl.onWriteSucceeded at h
  split at h
  · cases h
    exact hc
  · rename_i f hfile
    obtain ⟨window, hfinish, h⟩ := Option.bind_eq_some_iff.mp h
    split_ifs at h
    cases h
    exact (hc.setFile ((hc root f hfile).finishWriting hfinish)).withTotalWritings _

omit [DecidableEq τ] in
theorem Inv.onWriteFailed (hc : c.Inv) {root : ρ} {segIndex : Nat}
    (h : c.onWriteFailed root segIndex = some c') : c'.Inv := by
  unfold ChunkPoolWriteCtrl.onWriteFailed at h
  split at h
  · cases h
    exact hc
  · rename_i f hfile
    obtain ⟨window, hrollback, h⟩ := Option.bind_eq_some_iff.mp h
    split_ifs at h
    cases h
    exact (hc.setFile ((hc root f hfile).rollbackWriting hrollback)).withTotalWritings _

theorem Inv.step (hc : c.Inv) {call : Call ρ τ} (h : c.step call = some c') : c'.Inv := by
  cases call with
  | writeSegment id segIndex totalSegments =>
    obtain ⟨⟨c₁, r⟩, h₁, rfl⟩ := Option.map_eq_some_iff.mp h
    exact hc.writeSegment h₁
  | onWriteSucceeded root segIndex =>
    obtain ⟨⟨c₁, b⟩, h₁, rfl⟩ := Option.map_eq_some_iff.mp h
    exact hc.onWriteSucceeded h₁
  | onWriteFailed root segIndex => exact hc.onWriteFailed h
  | removeFile root =>
    cases h
    exact hc.removeFile root

/-- **Every interleaving keeps the windows.**  Over any run of the calls of concurrent uploads,
including repeated segments and removed files, every window keeps its slots at or above its
boundary. -/
theorem Inv.run (hc : c.Inv) (calls : List (Call ρ τ)) (h : c.run calls = some c') : c'.Inv := by
  induction calls generalizing c with
  | nil =>
    cases h
    exact hc
  | cons call rest ih =>
    obtain ⟨c₁, h₁, h⟩ := Option.bind_eq_some_iff.mp h
    exact ih (hc.step h₁) h

/-- One whole `write_chunks` keeps the windows. -/
theorem Inv.writeChunks (hc : c.Inv) {segInfo : SegmentInfo ρ} {fileId : FileID ρ τ}
    {fileSize : Nat} {answer : PutAnswer} {r : Except String Bool}
    (h : c.writeChunks segInfo fileId fileSize answer = some (c', r)) : c'.Inv := by
  obtain ⟨⟨c₁, r₁⟩, h₁, h⟩ := Option.bind_eq_some_iff.mp h
  have hc₁ := hc.writeSegment h₁
  cases r₁ with
  | error e =>
    cases h
    exact hc₁
  | ok u =>
    cases answer with
    | ok =>
      obtain ⟨⟨c₂, b⟩, h₂, h⟩ := Option.map_eq_some_iff.mp h
      cases h
      exact hc₁.onWriteSucceeded h₂
    | reverted =>
      obtain ⟨c₂, h₂, h⟩ := Option.map_eq_some_iff.mp h
      cases h
      exact (hc₁.onWriteFailed h₂).removeFile _
    | error e =>
      obtain ⟨c₂, h₂, h⟩ := Option.map_eq_some_iff.mp h
      cases h
      exact hc₁.onWriteFailed h₂

/-! ## A segment uploaded again -/

/-- `write_segment` of a segment the file has written: `Ok`, and no slot is opened. -/
theorem writeSegment_of_written {id : FileID ρ τ} {segIndex totalSegments : Nat}
    {f : FileWriteCtrl ρ τ} (hfile : c.getFile id.root = some f) (hid : f.id = id)
    (htotal : f.totalSegments = totalSegments) (hseg : segIndex < f.window.leftBoundary) :
    c.writeSegment id segIndex totalSegments = some (c.setFile id.root f, .ok ()) := by
  have hdup : f.window.checkDuplicate segIndex = true := by
    simp [CtrlWindow.checkDuplicate, hseg]
  simp [writeSegment, hfile, hid, htotal, hdup]

/-- **A segment uploaded again panics.**  Once a segment of a file is written, a `write_chunks`
of it again, with the file's id and size, gets `Ok` from `write_segment` with no slot, and its
callback finds no slot to close: `finish_writing` or `rollback_writing` panics, whatever the
store answered. -/
theorem writeChunks_duplicate_panics (hc : c.Inv) {segInfo : SegmentInfo ρ} {fileId : FileID ρ τ}
    {fileSize : Nat} {f : FileWriteCtrl ρ τ} (hfile : c.getFile fileId.root = some f)
    (hid : f.id = fileId)
    (htotal : f.totalSegments = (computeSegmentSize (bytesToChunks fileSize) segInfo.chunksPerSegment).1)
    (hroot : segInfo.root = fileId.root) (hseg : segInfo.segIndex < f.window.leftBoundary)
    (answer : PutAnswer) : c.writeChunks segInfo fileId fileSize answer = none := by
  have hw := hc fileId.root f hfile
  have hget : (c.setFile fileId.root f).getFile segInfo.root = some f := by
    simp [hroot]
  have hsucc : (c.setFile fileId.root f).onWriteSucceeded segInfo.root segInfo.segIndex = none := by
    simp [onWriteSucceeded, hget, hw.finishWriting_of_lt hseg]
  have hfail : (c.setFile fileId.root f).onWriteFailed segInfo.root segInfo.segIndex = none := by
    simp [onWriteFailed, hget, hw.rollbackWriting_of_lt hseg]
  unfold writeChunks
  dsimp only
  rw [writeSegment_of_written hfile hid htotal hseg, Option.bind_some]
  cases answer with
  | ok => simp only [hsucc, Option.map_none]
  | reverted => simp only [hfail, Option.map_none]
  | error e => simp only [hfail, Option.map_none]

end ChunkPoolWriteCtrl

open ChunkPoolWriteCtrl

/-- A file of two one-chunk segments: its segment `0` is written, and uploaded again: the second
upload panics. -/
theorem writeChunks_duplicate_panics_example :
    (new ⟨4, 8⟩ : ChunkPoolWriteCtrl Nat Nat).writeChunks ⟨0, 0, 1⟩ ⟨0, 0⟩ 512 .ok =
        some (⟨⟨4, 8⟩, [(0, ⟨⟨0, 0⟩, 2, ⟨4, 1, .empty⟩⟩)], 0⟩, .ok false) ∧
      (⟨⟨4, 8⟩, [(0, ⟨⟨0, 0⟩, 2, ⟨4, 1, .empty⟩⟩)], 0⟩ : ChunkPoolWriteCtrl Nat Nat).writeChunks
        ⟨0, 0, 1⟩ ⟨0, 0⟩ 512 .ok = none := by
  have h₁ : (new ⟨4, 8⟩ : ChunkPoolWriteCtrl Nat Nat).writeChunks ⟨0, 0, 1⟩ ⟨0, 0⟩ 512 .ok =
      some (⟨⟨4, 8⟩, [(0, ⟨⟨0, 0⟩, 2, ⟨4, 1, .empty⟩⟩)], 0⟩, .ok false) := rfl
  exact ⟨h₁, @writeChunks_duplicate_panics Nat Nat _ _ _ ((inv_new _).writeChunks h₁) ⟨0, 0, 1⟩
    ⟨0, 0⟩ 512 ⟨⟨0, 0⟩, 2, ⟨4, 1, .empty⟩⟩ rfl rfl rfl rfl (by decide) .ok⟩

end Ionian.ChunkPool
