import Ionian.Sync.Serial

/-!
# Sync.SerialHandlers — the handlers of a serial sync, and the invariant they keep

The sync service drives a `SerialSyncController` through its handlers: a peer found by an
announcement, a failed dial, a connected or disconnected peer, the response to the chunks request
or its failure, `reset` after a failure, and `transition` (`SyncEvent`, `step`, `run`).  A run is
any sequence of them, in any interleaving.

Every call keeps `Inv` (`Inv.step`, `Inv.run`): the next chunk stays within the file, a download
is always of the range `[next_chunk, min(next_chunk + MAX_CHUNKS_TO_REQUEST, num_chunks))`,
`Completed` means the next chunk is the end of the file, and the controller talks to at most one
peer at a time: at most one peer is connecting or connected, and none is connecting once a
download is under way.  The last part is what keeps `on_dail_failed` from moving a finished sync:
it changes the state only for a peer that was connecting.  Each helper of the loop of
`transition` and each handler has an inversion lemma that says everything it can do
(`tryRequestNext_cases`, `onResponse_cases`, ...), and the invariant lemmas are read off them.

`validate_range_proof`, `put_chunks_with_tx_hash` and `finalize_tx_with_hash` are calls of the
store, which other tasks share; their answers are the event's data (`StoreAnswers`), and the
writes are outputs with the answer they got (`SyncOutput`).  The response is its chunk array: its
proof is read only by `validate_range_proof`.  `DialError` has the one variant the handler
tells apart, and one for all the others.

The controller is modelled as a debug build: the `debug_assert!(from_chunk < to_chunk)` of
`on_response` is checked, and `start_index + data_len / CHUNK_SIZE`, `u64` arithmetic on a
`start_index` the peer chooses, panics on overflow.  Both panics are `none`.
-/

namespace Ionian.Sync

open Storage

/-! ## `update_state_force` -/

namespace SyncPeers

variable {π α : Type} [DecidableEq π]

/-- `update_state_force`: the old state of a known peer, which is now in `state`; unlike
`update_state`, it does not set the time of the change. -/
def updateStateForce (s : SyncPeers π α) (peerId : π) (state : PeerState) :
    SyncPeers π α × Option PeerState :=
  match s.peers.lookup peerId with
  | none => (s, none)
  | some info => (⟨s.peers.replace peerId { info with state }⟩, some info.state)

/-- `update_state` leaves the peers as they are, or moves a peer that was in `fromState`. -/
theorem updateState_cases (s : SyncPeers π α) (peerId : π) (fromState toState : PeerState)
    (now : Nat) :
    (s.updateState peerId fromState toState now).1 = s ∧
        (s.updateState peerId fromState toState now).2 ≠ some true ∨
      s.peerState peerId = some fromState ∧
        (s.updateState peerId fromState toState now).2 = some true := by
  unfold updateState peerState
  cases hinfo : s.peers.lookup peerId with
  | none => exact .inl ⟨rfl, by simp⟩
  | some info =>
    by_cases hs : info.state = fromState
    · exact .inr ⟨by simp [hs], by simp [hs]⟩
    · exact .inl ⟨by simp [hs], by simp [hs]⟩

/-- `update_state` puts no peer into a state other than its target. -/
theorem count_updateState_le (s : SyncPeers π α) (peerId : π) {fromState toState x : PeerState}
    (now : Nat) (hx : toState ≠ x) :
    (s.updateState peerId fromState toState now).1.count [x] ≤ s.count [x] := by
  rcases updateState_cases s peerId fromState toState now with ⟨hsame, -⟩ | ⟨hstate, -⟩
  · rw [hsame]
  · have hcount := count_updateState hstate toState now x
    rw [if_neg hx] at hcount
    omega

/-- `update_state` takes no peer out of a state other than its source. -/
theorem count_updateState_of_ne (s : SyncPeers π α) (peerId : π) {fromState toState x : PeerState}
    (now : Nat) (hf : fromState ≠ x) (ht : toState ≠ x) :
    (s.updateState peerId fromState toState now).1.count [x] = s.count [x] := by
  rcases updateState_cases s peerId fromState toState now with ⟨hsame, -⟩ | ⟨hstate, -⟩
  · rw [hsame]
  · have hcount := count_updateState hstate toState now x
    rw [if_neg hf, if_neg ht] at hcount
    omega

/-- `update_state_force` puts no peer into a state other than its target. -/
theorem count_updateStateForce_le (s : SyncPeers π α) (peerId : π) {state x : PeerState}
    (hx : state ≠ x) : (s.updateStateForce peerId state).1.count [x] ≤ s.count [x] := by
  unfold updateStateForce
  cases hinfo : s.peers.lookup peerId with
  | none => exact le_rfl
  | some info =>
    have hcount := countP_kreplace s.peers.nodupKeys (AList.mem_lookup_iff.mp hinfo)
      { info with state } fun i => decide (i.state ∈ [x])
    simp only [count_eq_countP, AList.replace, List.mem_singleton]
    simp only [List.mem_singleton, hx, decide_false, Bool.false_eq_true, if_false] at hcount
    omega

end SyncPeers

/-! ## The handlers -/

/-- The `DialError` of a failed dial: the outgoing connection limit, or any other error. -/
inductive DialError
  | connectionLimit
  | other
deriving DecidableEq, Repr

/-- The answers of the store to the calls of one `on_response`. -/
structure StoreAnswers where
  validateRangeProof : Except String Bool
  putChunksWithTxHash : Except String Bool
  finalizeTxWithHash : Except String Bool

deriving instance DecidableEq for SyncMessage

/-- What the controller does outside itself: a message to the network, or a write to the store
with the store's answer. -/
inductive SyncOutput (π α : Type)
  | send (msg : SyncMessage π α)
  | putChunksWithTxHash (txSeq : Nat) (txHash : H256) (chunks : ChunkArray)
      (answer : Except String Bool)
  | finalizeTxWithHash (txSeq : Nat) (txHash : H256) (answer : Except String Bool)
deriving DecidableEq

namespace SyncState

variable {π : Type}

/-- Neither `Completed` nor `Failed`. -/
def isActive : SyncState π → Bool
  | .completed | .failed _ => false
  | _ => true

/-- A state before a download: the sync is still finding or connecting a peer. -/
def isEarly : SyncState π → Bool
  | .idle | .findingPeers _ | .foundPeers | .connectingPeers | .awaitingOutgoingConnection _ => true
  | .awaitingDownload | .downloading .. | .completed | .failed _ => false

theorem isActive_of_isEarly {state : SyncState π} (h : state.isEarly) : state.isActive := by
  cases state <;> simp_all [isEarly, isActive]

theorem isEarly_of_isActive_eq_false {state : SyncState π} (h : state.isActive = false) :
    state.isEarly = false :=
  Bool.eq_false_iff.mpr fun hearly => by rw [isActive_of_isEarly hearly] at h; cases h

end SyncState

namespace Round

variable {π α : Type}

/-- The controller a round of the loop leaves, whether it returns or not. -/
def ctrl : Round π α → SerialSyncController π α
  | .ret c _ => c
  | .again c _ => c

/-- The messages a round of the loop sends. -/
def msgs : Round π α → List (SyncMessage π α)
  | .ret _ m => m
  | .again _ m => m

end Round

namespace SerialSyncController

variable {π α : Type} [DecidableEq π]

/-- `SerialSyncController::new` -/
def new (txId : TxID) (numChunks : Nat) : SerialSyncController π α :=
  ⟨txId, numChunks, 0, 0, .idle, ⟨∅⟩⟩

/-- `reset` -/
def reset (c : SerialSyncController π α) (now : Nat) : SerialSyncController π α :=
  -- remove disconnected peers
  { c with nextChunk := 0, failures := 0, state := .idle, peers := c.peers.transition now }

/-- `on_dail_failed` -/
def onDailFailed (c : SerialSyncController π α) (peerId : π) (err : DialError) (now : Nat) :
    SerialSyncController π α :=
  match err with
  | .connectionLimit =>
    let r := c.peers.updateState peerId .connecting .found now
    if r.2 = some true then { c with peers := r.1, state := .awaitingOutgoingConnection now }
    else { c with peers := r.1 }
  | .other =>
    let r := c.peers.updateState peerId .connecting .disconnected now
    if r.2 = some true then { c with peers := r.1, state := .idle } else { c with peers := r.1 }

/-- `on_peer_connected` -/
def onPeerConnected (c : SerialSyncController π α) (peerId : π) (now : Nat) :
    SerialSyncController π α :=
  { c with peers := (c.peers.updateState peerId .connecting .connected now).1 }

/-- `on_peer_disconnected` -/
def onPeerDisconnected (c : SerialSyncController π α) (peerId : π) : SerialSyncController π α :=
  { c with peers := (c.peers.updateStateForce peerId .disconnected).1 }

/-- `handle_on_response_mismatch`: whether a response, or its failure, is unexpected, with the
report then sent. -/
def handleOnResponseMismatch (c : SerialSyncController π α) (fromPeerId : π) :
    Bool × List (SyncMessage π α) :=
  match c.state with
  | .downloading peerId .. =>
    if fromPeerId = peerId then (false, [])
    -- this can happen if we get a response for a timeout request
    else (true, [.reportPeer fromPeerId .lowToleranceError "Peer id mismatch"])
  | _ => (true, [.reportPeer fromPeerId .lowToleranceError "Sync state mismatch"])

/-- The three rejections of `on_response`: ban the peer and re-request. -/
def rejectResponse (c : SerialSyncController π α) (fromPeerId : π) (reason : String) (now : Nat) :
    SerialSyncController π α × List (SyncOutput π α) :=
  let banned := c.banPeer fromPeerId reason now
  ({ banned.1 with state := .idle }, banned.2.map .send)

/-- `on_response` once the proof is valid: store the chunks, then go on or finalize. -/
def storeChunks (c : SerialSyncController π α) (toChunk : Nat) (chunks : ChunkArray)
    (answers : StoreAnswers) : SerialSyncController π α × List (SyncOutput π α) :=
  let c := { c with failures := 0 }
  let put := SyncOutput.putChunksWithTxHash c.txId.seq c.txId.hash chunks
    answers.putChunksWithTxHash
  match answers.putChunksWithTxHash with
  | .ok false => ({ c with state := .failed (.txReverted c.txId) }, [put])
  | .error err => ({ c with state := .failed (.dBError err) }, [put])
  | .ok true =>
    -- prepare to download next
    if toChunk < c.numChunks then ({ c with nextChunk := toChunk, state := .idle }, [put])
    else
      -- finalize tx if all chunks downloaded
      let fin := SyncOutput.finalizeTxWithHash c.txId.seq c.txId.hash answers.finalizeTxWithHash
      match answers.finalizeTxWithHash with
      | .ok true => ({ c with nextChunk := toChunk, state := .completed }, [put, fin])
      | .ok false =>
        ({ c with nextChunk := toChunk, state := .failed (.txReverted c.txId) }, [put, fin])
      | .error err => ({ c with nextChunk := toChunk, state := .failed (.dBError err) }, [put, fin])

/-- `on_response`, with the store's answers to its calls; `none` when the download's range is
empty (`debug_assert!(from_chunk < to_chunk)`) or when the end index of the response overflows
`u64`. -/
def onResponse (c : SerialSyncController π α) (fromPeerId : π) (response : ChunkArray)
    (answers : StoreAnswers) (now : Nat) : Option (SerialSyncController π α × List (SyncOutput π α)) :=
  let mismatch := c.handleOnResponseMismatch fromPeerId
  if mismatch.1 then some (c, mismatch.2.map .send)
  else
    match c.state with
    | .downloading _ fromChunk toChunk _ =>
      let dataLen := response.data.length
      -- debug_assert!(from_chunk < to_chunk, "Invalid chunk boundaries")
      if toChunk ≤ fromChunk then none
      -- invalid chunk array size: ban and re-request
      else if dataLen = 0 ∨ dataLen % chunkSize > 0 then
        some (c.rejectResponse fromPeerId "Invalid chunk response data length" now)
      else if 2 ^ 64 ≤ response.startIndex + dataLen / chunkSize then none
      else
        let endIndex := response.startIndex + dataLen / chunkSize
        -- invalid chunk range: ban and re-request
        if response.startIndex ≠ fromChunk ∨ endIndex ≠ toChunk then
          some (c.rejectResponse fromPeerId "Invalid chunk response range" now)
        else
          match answers.validateRangeProof with
          | .ok true => some (c.storeChunks toChunk response answers)
          -- no root found for the proof yet
          | .ok false => some ({ c with state := .awaitingDownload }, [])
          | .error _ => some (c.rejectResponse fromPeerId "Chunk array validation failed" now)
    | _ => some (c, [])

/-- `on_request_failed` -/
def onRequestFailed (c : SerialSyncController π α) (peerId : π) (now : Nat) :
    SerialSyncController π α × List (SyncMessage π α) :=
  let mismatch := c.handleOnResponseMismatch peerId
  if mismatch.1 then (c, mismatch.2) else c.handleResponseFailure peerId "RPC Error" now

end SerialSyncController

/-- The calls the sync service makes on a controller. -/
inductive SyncEvent (π α : Type)
  | onPeerFound (peerId : π) (addr : α) (now : Nat)
  | onDailFailed (peerId : π) (err : DialError) (now : Nat)
  | onPeerConnected (peerId : π) (now : Nat)
  | onPeerDisconnected (peerId : π)
  | onResponse (fromPeerId : π) (response : ChunkArray) (answers : StoreAnswers) (now : Nat)
  | onRequestFailed (peerId : π) (now : Nat)
  | reset (now : Nat)
  | transition (env : Env π α)

/-- The call that starts the sync over. -/
def SyncEvent.isReset {π α : Type} : SyncEvent π α → Bool
  | .reset _ => true
  | _ => false

/-- The range of chunks of a write that the store accepted. -/
def SyncOutput.storedRange {π α : Type} : SyncOutput π α → Option (Nat × Nat)
  | .putChunksWithTxHash _ _ chunks (.ok true) =>
    some (chunks.startIndex, chunks.startIndex + chunks.data.length / chunkSize)
  | _ => none

/-- The ranges of chunks the store accepted, in order. -/
def storedRanges {π α : Type} (outs : List (SyncOutput π α)) : List (Nat × Nat) :=
  outs.filterMap SyncOutput.storedRange

/-- `[a, b)` cut into non-empty ranges of at most `n` chunks, end to end, in order. -/
def Tiles (n : Nat) : Nat → Nat → List (Nat × Nat) → Prop
  | a, b, [] => a = b
  | a, b, (s, e) :: rest => s = a ∧ a < e ∧ e ≤ a + n ∧ Tiles n e b rest

@[simp] theorem tiles_nil {n a b : Nat} : Tiles n a b [] ↔ a = b := Iff.rfl

theorem Tiles.append {n a b d : Nat} {xs ys : List (Nat × Nat)} (hx : Tiles n a b xs)
    (hy : Tiles n b d ys) : Tiles n a d (xs ++ ys) := by
  induction xs generalizing a with
  | nil =>
    rw [tiles_nil] at hx
    subst hx
    exact hy
  | cons r rest ih =>
    obtain ⟨s, e⟩ := r
    obtain ⟨hs, hlt, hle, hrest⟩ := hx
    exact ⟨hs, hlt, hle, ih hrest⟩

@[simp] theorem storedRanges_append {π α : Type} (xs ys : List (SyncOutput π α)) :
    storedRanges (xs ++ ys) = storedRanges xs ++ storedRanges ys :=
  List.filterMap_append

/-- Messages are no writes. -/
@[simp] theorem storedRanges_map_send {π α : Type} (msgs : List (SyncMessage π α)) :
    storedRanges (msgs.map .send) = [] := by
  induction msgs with
  | nil => rfl
  | cons m rest ih =>
    rw [List.map_cons, ← List.singleton_append, storedRanges_append, ih]
    rfl

namespace SerialSyncController

variable {π α : Type} [DecidableEq π]

/-- The rounds `transition` is given: enough for its loop to return (`transitionLoop_returns`). -/
def transitionFuel (c : SerialSyncController π α) : Nat := c.peers.count [.connected] * 40 + 31

/-- One call of the service on the controller. -/
def step (c : SerialSyncController π α) :
    SyncEvent π α → Option (SerialSyncController π α × List (SyncOutput π α))
  | .onPeerFound peerId addr now => some ({ c with peers := (onPeerFound c.peers peerId addr now).1 }, [])
  | .onDailFailed peerId err now => some (c.onDailFailed peerId err now, [])
  | .onPeerConnected peerId now => some (c.onPeerConnected peerId now, [])
  | .onPeerDisconnected peerId => some (c.onPeerDisconnected peerId, [])
  | .onResponse fromPeerId response answers now => c.onResponse fromPeerId response answers now
  | .onRequestFailed peerId now =>
    let r := c.onRequestFailed peerId now
    some (r.1, r.2.map .send)
  | .reset now => some (c.reset now, [])
  | .transition env => (c.transition env c.transitionFuel).map fun r => (r.1, r.2.map .send)

/-- A run of calls, with everything the controller did, in order. -/
def run (c : SerialSyncController π α) :
    List (SyncEvent π α) → Option (SerialSyncController π α × List (SyncOutput π α))
  | [] => some (c, [])
  | e :: rest =>
    (c.step e).bind fun r => (r.1.run rest).map fun r' => (r'.1, r.2 ++ r'.2)

/-! ## What each helper of the loop can do -/

section Helpers

variable (env : Env π α) (i : Nat) (c : SerialSyncController π α)

/-- `try_find_peers` keeps the transaction and the chunks. -/
theorem tryFindPeers_frame :
    (tryFindPeers env i c).1.txId = c.txId ∧ (tryFindPeers env i c).1.numChunks = c.numChunks ∧
      (tryFindPeers env i c).1.nextChunk = c.nextChunk :=
  ⟨rfl, rfl, rfl⟩

/-- `try_connect` keeps the transaction and the chunks. -/
theorem tryConnect_frame :
    (tryConnect env i c).1.txId = c.txId ∧ (tryConnect env i c).1.numChunks = c.numChunks ∧
      (tryConnect env i c).1.nextChunk = c.nextChunk := by
  unfold tryConnect
  split <;> exact ⟨rfl, rfl, rfl⟩

/-- `try_request_next` goes idle, or asks a connected peer for the next range and downloads it. -/
theorem tryRequestNext_cases :
    tryRequestNext env i c = ({ c with state := .idle }, []) ∨
      ∃ peerId, c.peers.peerState peerId = some .connected ∧
        tryRequestNext env i c =
          ({ c with state := (.downloading peerId c.nextChunk
              (min (c.nextChunk + maxChunksToRequest) c.numChunks) (env.clock i)) },
            [.sendRequest peerId ⟨c.txId, c.nextChunk,
              min (c.nextChunk + maxChunksToRequest) c.numChunks⟩]) := by
  cases hr : c.peers.randomPeer .connected (env.draw i) with
  | none => exact .inl (by rw [tryRequestNext, hr])
  | some drawn =>
    obtain ⟨peerId, address⟩ := drawn
    exact .inr ⟨peerId, SyncPeers.peerState_of_randomPeer hr, by rw [tryRequestNext, hr]⟩

/-- `handle_response_failure` reports the peer, counts the failure, and either tries again or,
past the limit, bans the peer and goes idle. -/
theorem handleResponseFailure_cases (peerId : π) (reason : String) (now : Nat) :
    c.handleResponseFailure peerId reason now =
        ({ c with failures := c.failures + 1, state := .awaitingDownload },
          [.reportPeer peerId .lowToleranceError reason]) ∨
      c.handleResponseFailure peerId reason now =
        ({ c with failures := c.failures + 1,
                  peers := (c.peers.updateState peerId .connected .disconnecting now).1,
                  state := .idle },
          [.reportPeer peerId .lowToleranceError reason, .banPeer peerId reason]) := by
  by_cases hle : c.failures + 1 ≤ maxRequestFailures
  · exact .inl (by rw [handleResponseFailure, if_pos hle])
  · exact .inr (by rw [handleResponseFailure, if_neg hle]; rfl)

theorem tryRequestNext_frame :
    (tryRequestNext env i c).1.txId = c.txId ∧ (tryRequestNext env i c).1.numChunks = c.numChunks ∧
      (tryRequestNext env i c).1.nextChunk = c.nextChunk := by
  rcases tryRequestNext_cases env i c with h | ⟨_, -, h⟩ <;> rw [h] <;> exact ⟨rfl, rfl, rfl⟩

theorem handleResponseFailure_frame (peerId : π) (reason : String) (now : Nat) :
    (c.handleResponseFailure peerId reason now).1.txId = c.txId ∧
      (c.handleResponseFailure peerId reason now).1.numChunks = c.numChunks ∧
      (c.handleResponseFailure peerId reason now).1.nextChunk = c.nextChunk := by
  rcases handleResponseFailure_cases c peerId reason now with h | h <;> rw [h] <;>
    exact ⟨rfl, rfl, rfl⟩

/-- A round of the loop keeps the transaction and the chunks. -/
theorem loopStep_frame :
    (loopStep env i c).ctrl.txId = c.txId ∧ (loopStep env i c).ctrl.numChunks = c.numChunks ∧
      (loopStep env i c).ctrl.nextChunk = c.nextChunk := by
  cases hs : c.state <;> simp only [loopStep, hs] <;> (try split_ifs) <;>
    first
    | exact ⟨rfl, rfl, rfl⟩
    | exact tryFindPeers_frame env i c
    | exact tryConnect_frame env i c
    | exact tryRequestNext_frame env i c
    | exact handleResponseFailure_frame c _ _ _

theorem tryFindPeers_isActive : (tryFindPeers env i c).1.state.isActive := by
  obtain ⟨-, ⟨since, h⟩, -⟩ := tryFindPeers_spec env i c
  rw [h]
  rfl

theorem tryConnect_isActive : (tryConnect env i c).1.state.isActive := by
  unfold tryConnect
  split <;> rfl

theorem tryRequestNext_isActive : (tryRequestNext env i c).1.state.isActive := by
  rcases tryRequestNext_cases env i c with h | ⟨_, -, h⟩ <;> rw [h] <;> rfl

theorem handleResponseFailure_isActive (peerId : π) (reason : String) (now : Nat) :
    (c.handleResponseFailure peerId reason now).1.state.isActive := by
  rcases handleResponseFailure_cases c peerId reason now with h | h <;> rw [h] <;> rfl

/-- `handle_response_failure` sends a report, and a ban past the limit. -/
theorem handleResponseFailure_msgs (peerId : π) (reason : String) (now : Nat) :
    ∀ m ∈ (c.handleResponseFailure peerId reason now).2,
      m = .reportPeer peerId .lowToleranceError reason ∨ m = .banPeer peerId reason := by
  intro m hm
  rcases handleResponseFailure_cases c peerId reason now with h | h <;> rw [h] at hm
  · exact .inl (List.mem_singleton.mp hm)
  · simpa using hm

/-- The loop never enters `Completed` or `Failed`. -/
theorem loopStep_isActive (h : c.state.isActive) : (loopStep env i c).ctrl.state.isActive := by
  cases hs : c.state <;> simp only [loopStep, hs] <;> (try split_ifs) <;>
    first
    | rfl
    | exact h
    | exact tryFindPeers_isActive env i c
    | exact tryConnect_isActive env i c
    | exact tryRequestNext_isActive env i c
    | exact handleResponseFailure_isActive c _ _ _

/-- From `Completed` or `Failed`, the loop returns at once. -/
theorem loopStep_of_terminal (h : c.state.isActive = false) : loopStep env i c = .ret c [] := by
  -- every other state is active
  cases hs : c.state <;> rw [hs] at h <;> first | (simp only [loopStep, hs]; done) | cases h

/-- `try_find_peers` sends at most a `FindFile` for the transaction. -/
theorem tryFindPeers_msgs : ∀ m ∈ (tryFindPeers env i c).2, m = .findFile c.txId := by
  intro m hm
  unfold tryFindPeers at hm
  dsimp only at hm
  split_ifs at hm
  · exact List.mem_singleton.mp hm
  · cases hm

/-- `try_connect` sends at most a dial. -/
theorem tryConnect_msgs : ∀ m ∈ (tryConnect env i c).2, ∃ address peerId, m = .dialPeer address peerId := by
  intro m hm
  unfold tryConnect at hm
  split at hm
  · cases hm
  · exact ⟨_, _, List.mem_singleton.mp hm⟩

/-- A property that every round keeps, and that every message of a round has, holds when the
loop returns. -/
theorem transitionLoop_induction (P : SerialSyncController π α → Prop)
    (Q : SyncMessage π α → Prop)
    (hround : ∀ i c, P c → P (loopStep env i c).ctrl ∧ ∀ m ∈ (loopStep env i c).msgs, Q m) :
    ∀ fuel i c msgs out, P c → (∀ m ∈ msgs, Q m) → transitionLoop env fuel i c msgs = some out →
      P out.1 ∧ ∀ m ∈ out.2, Q m := by
  intro fuel
  induction fuel with
  | zero => intro i c msgs out _ _ h; cases h
  | succ fuel ih =>
    intro i c msgs out hc hmsgs h
    obtain ⟨hc', hround'⟩ := hround i c hc
    have hall : ∀ m ∈ msgs ++ (loopStep env i c).msgs, Q m := by
      intro m hm
      rcases List.mem_append.mp hm with hm | hm
      exacts [hmsgs m hm, hround' m hm]
    rw [transitionLoop] at h
    cases hstep : loopStep env i c with
    | ret c' m =>
      rw [hstep] at h hc' hall
      cases h
      exact ⟨hc', hall⟩
    | again c' m =>
      rw [hstep] at h hc' hall
      exact ih (i + 1) c' _ out hc' hall h

end Helpers

/-- A ban moves no peer into `Connecting` or `Connected`. -/
theorem count_banPeer_le (c : SerialSyncController π α) (peerId : π) (reason : String) (now : Nat)
    {x : PeerState} (hx : x ≠ .disconnecting) :
    (c.banPeer peerId reason now).1.peers.count [x] ≤ c.peers.count [x] :=
  SyncPeers.count_updateState_le c.peers peerId now (Ne.symm hx)

/-! ## The invariant -/

/-- What every run of the handlers keeps. -/
structure Inv (c : SerialSyncController π α) : Prop where
  nextChunk_le : c.nextChunk ≤ c.numChunks
  /-- A download is of the range from the next chunk. -/
  downloading : ∀ {peerId fromChunk toChunk since},
    c.state = .downloading peerId fromChunk toChunk since →
      fromChunk = c.nextChunk ∧ toChunk = min (c.nextChunk + maxChunksToRequest) c.numChunks
  completed : c.state = .completed → c.nextChunk = c.numChunks
  active : c.state.isActive → c.nextChunk < c.numChunks ∨ c.numChunks = 0
  /-- At most one peer is connecting or connected. -/
  serial : c.peers.count [.connecting, .connected] ≤ 1
  /-- Once a download is under way, no peer is connecting. -/
  quiet : c.state.isEarly = false → c.peers.count [.connecting] = 0

section Inv

variable {c c' : SerialSyncController π α}

omit [DecidableEq π] in
/-- A state before a download keeps the invariant with the chunks of an active state. -/
theorem Inv.of_early (hc : c.Inv) (hnext : c'.nextChunk = c.nextChunk)
    (hnum : c'.numChunks = c.numChunks) (hactive : c.state.isActive) (hearly : c'.state.isEarly)
    (hserial : c'.peers.count [.connecting, .connected] ≤ 1) : c'.Inv where
  nextChunk_le := hnext ▸ hnum ▸ hc.nextChunk_le
  downloading h := by rw [h] at hearly; cases hearly
  completed h := by rw [h] at hearly; cases hearly
  active _ := hnext ▸ hnum ▸ hc.active hactive
  serial := hserial
  quiet h := by rw [hearly] at h; cases h

omit [DecidableEq π] in
/-- Fewer peers connecting, and no more connecting or connected, keep the invariant. -/
theorem Inv.of_peers (hc : c.Inv) (hnext : c'.nextChunk = c.nextChunk)
    (hnum : c'.numChunks = c.numChunks) (hstate : c'.state = c.state)
    (hconnecting : c'.peers.count [.connecting] ≤ c.peers.count [.connecting])
    (hserial : c'.peers.count [.connecting, .connected] ≤ c.peers.count [.connecting, .connected]) :
    c'.Inv where
  nextChunk_le := hnext ▸ hnum ▸ hc.nextChunk_le
  downloading h := hnext ▸ hnum ▸ hc.downloading (hstate ▸ h)
  completed h := hnext ▸ hnum ▸ hc.completed (hstate ▸ h)
  active h := hnext ▸ hnum ▸ hc.active (hstate ▸ h)
  serial := hserial.trans hc.serial
  quiet h := by
    have := hc.quiet (hstate ▸ h)
    omega

omit [DecidableEq π] in
/-- Waiting to download from the peers of an active state in which no peer is connecting. -/
theorem Inv.awaitingDownload (hc : c.Inv) (hnext : c'.nextChunk = c.nextChunk)
    (hnum : c'.numChunks = c.numChunks) (hpeers : c'.peers = c.peers)
    (hstate : c'.state = .awaitingDownload) (hactive : c.state.isActive)
    (hquiet : c.peers.count [.connecting] = 0) : c'.Inv where
  nextChunk_le := hnext ▸ hnum ▸ hc.nextChunk_le
  downloading h := by rw [hstate] at h; cases h
  completed h := by rw [hstate] at h; cases h
  active _ := hnext ▸ hnum ▸ hc.active hactive
  serial := hpeers ▸ hc.serial
  quiet _ := hpeers ▸ hquiet

omit [DecidableEq π] in
/-- A state out of which the sync does not move, on the chunks it ended with. -/
theorem Inv.of_terminal (hnext : c'.nextChunk ≤ c'.numChunks) (hterm : c'.state.isActive = false)
    (hcompleted : c'.state = .completed → c'.nextChunk = c'.numChunks)
    (hquiet : c'.peers.count [.connecting] = 0)
    (hserial : c'.peers.count [.connecting, .connected] ≤ 1) : c'.Inv where
  nextChunk_le := hnext
  downloading h := by rw [h] at hterm; cases hterm
  completed := hcompleted
  active h := by rw [hterm] at h; cases h
  serial := hserial
  quiet _ := hquiet

omit [DecidableEq π] in
/-- A peer connecting means the sync is before a download. -/
theorem Inv.isEarly_of_connecting (hc : c.Inv) (h : 0 < c.peers.count [.connecting]) :
    c.state.isEarly := by
  by_contra hne
  have := hc.quiet (by simpa using hne)
  omega

omit [DecidableEq π] in
/-- Downloading the next range from a peer, while no peer is connecting. -/
theorem Inv.download (hc : c.Inv) (hactive : c.state.isActive)
    (hquiet : c.peers.count [.connecting] = 0) (peerId : π) (since : Nat) :
    ({ c with state := (.downloading peerId c.nextChunk
        (min (c.nextChunk + maxChunksToRequest) c.numChunks) since) } :
      SerialSyncController π α).Inv where
  nextChunk_le := hc.nextChunk_le
  downloading h := by
    obtain ⟨-, rfl, rfl, -⟩ := SyncState.downloading.inj h
    exact ⟨rfl, rfl⟩
  completed h := by cases h
  active _ := hc.active hactive
  serial := hc.serial
  quiet _ := hquiet

/-! ### The helpers of the loop, and one round -/

section Loop

variable (env : Env π α) (i : Nat)

theorem Inv.tryFindPeers (hc : c.Inv) (hactive : c.state.isActive) :
    (tryFindPeers env i c).1.Inv := by
  obtain ⟨-, ⟨since, hstate⟩, hcount⟩ := tryFindPeers_spec env i c
  obtain ⟨-, hnum, hnext⟩ := tryFindPeers_frame env i c
  refine hc.of_early hnext hnum hactive (by rw [hstate]; rfl) ?_
  rw [count_connecting_connected, hcount .connecting (by decide), hcount .connected (by decide),
    ← count_connecting_connected]
  exact hc.serial

/-- `try_connect` is called with no peer connecting or connected, and starts one. -/
theorem Inv.tryConnect (hc : c.Inv) (hactive : c.state.isActive)
    (hnone : c.peers.count [.connecting, .connected] = 0) : (tryConnect env i c).1.Inv := by
  obtain ⟨-, hnum, hnext⟩ := tryConnect_frame env i c
  obtain ⟨-, ⟨hstate, hpeers, -⟩ | ⟨hstate, hconnecting, hconnected⟩⟩ := tryConnect_spec env i c
  · exact hc.of_early hnext hnum hactive (by rw [hstate]; rfl) (hpeers ▸ hc.serial)
  · refine hc.of_early hnext hnum hactive (by rw [hstate]; rfl) ?_
    rw [count_connecting_connected] at hnone ⊢
    omega

theorem Inv.tryRequestNext (hc : c.Inv) (hactive : c.state.isActive)
    (hquiet : c.peers.count [.connecting] = 0) : (tryRequestNext env i c).1.Inv := by
  rcases tryRequestNext_cases env i c with h | ⟨peerId, -, h⟩ <;> rw [h]
  · exact hc.of_early rfl rfl hactive rfl hc.serial
  · exact hc.download hactive hquiet peerId _

omit env i in
theorem Inv.handleResponseFailure (hc : c.Inv) (hactive : c.state.isActive)
    (hquiet : c.peers.count [.connecting] = 0) (peerId : π) (reason : String) (now : Nat) :
    (c.handleResponseFailure peerId reason now).1.Inv := by
  rcases handleResponseFailure_cases c peerId reason now with h | h <;> rw [h]
  · exact hc.awaitingDownload rfl rfl rfl rfl hactive hquiet
  · -- the ban moves the peer out of `Connected` only
    have hconnecting : (c.peers.updateState peerId .connected .disconnecting now).1.count
        [.connecting] ≤ c.peers.count [.connecting] :=
      SyncPeers.count_updateState_le _ _ _ (by decide)
    have hconnected : (c.peers.updateState peerId .connected .disconnecting now).1.count
        [.connected] ≤ c.peers.count [.connected] :=
      SyncPeers.count_updateState_le _ _ _ (by decide)
    have hserial := hc.serial
    refine hc.of_early rfl rfl hactive rfl ?_
    dsimp only
    rw [count_connecting_connected] at hserial ⊢
    omega

/-- **One round of the loop keeps the invariant.** -/
theorem Inv.loopStep (hc : c.Inv) : (loopStep env i c).ctrl.Inv := by
  have hserial := hc.serial
  rw [count_connecting_connected] at hserial
  cases hs : c.state with
  | idle =>
    have hactive : c.state.isActive := by rw [hs]; rfl
    simp only [SerialSyncController.loopStep, hs]
    split_ifs <;> simp only [Round.ctrl]
    · exact hc.of_early rfl rfl hactive rfl hc.serial
    · exact hc.tryFindPeers env i hactive
  | findingPeers since =>
    have hactive : c.state.isActive := by rw [hs]; rfl
    simp only [SerialSyncController.loopStep, hs]
    split_ifs <;> simp only [Round.ctrl]
    · exact hc.of_early rfl rfl hactive rfl hc.serial
    · exact hc.tryFindPeers env i hactive
    · exact hc
  | foundPeers =>
    have hactive : c.state.isActive := by rw [hs]; rfl
    simp only [SerialSyncController.loopStep, hs]
    split_ifs with hpos <;> simp only [Round.ctrl]
    · exact hc.of_early rfl rfl hactive rfl hc.serial
    · exact hc.tryConnect env i hactive (by omega)
  | connectingPeers =>
    have hactive : c.state.isActive := by rw [hs]; rfl
    simp only [SerialSyncController.loopStep, hs]
    split_ifs with hconn <;> simp only [Round.ctrl]
    · -- the connected peer is the only one: none is connecting
      exact hc.awaitingDownload rfl rfl rfl rfl hactive (by omega)
    · exact hc.of_early rfl rfl hactive rfl hc.serial
    · exact hc
  | awaitingOutgoingConnection since =>
    have hactive : c.state.isActive := by rw [hs]; rfl
    simp only [SerialSyncController.loopStep, hs]
    split_ifs <;> simp only [Round.ctrl]
    · exact hc
    · exact hc.of_early rfl rfl hactive rfl hc.serial
  | awaitingDownload =>
    have hactive : c.state.isActive := by rw [hs]; rfl
    simp only [SerialSyncController.loopStep, hs, Round.ctrl]
    exact hc.tryRequestNext env i hactive (hc.quiet (by rw [hs]; rfl))
  | downloading peerId fromChunk toChunk since =>
    have hactive : c.state.isActive := by rw [hs]; rfl
    simp only [SerialSyncController.loopStep, hs]
    split_ifs <;> simp only [Round.ctrl]
    · exact hc.of_early rfl rfl hactive rfl hc.serial
    · exact hc.handleResponseFailure hactive (hc.quiet (by rw [hs]; rfl)) peerId _ _
    · exact hc
  | completed =>
    simp only [SerialSyncController.loopStep, hs, Round.ctrl]
    exact hc
  | failed reason =>
    simp only [SerialSyncController.loopStep, hs, Round.ctrl]
    exact hc

omit i in
/-- `transition` keeps the invariant, whatever its rounds. -/
theorem Inv.transition (hc : c.Inv) (fuel : Nat)
    {out : SerialSyncController π α × List (SyncMessage π α)}
    (h : c.transition env fuel = some out) : out.1.Inv := by
  -- `SyncPeers::transition` only removes peers
  have hpeers : ({ c with peers := c.peers.transition (env.clock 0) } :
      SerialSyncController π α).Inv :=
    hc.of_peers rfl rfl rfl (SyncPeers.count_transition_le _ _ _)
      (SyncPeers.count_transition_le _ _ _)
  exact (transitionLoop_induction env Inv (fun _ => True)
    (fun i _ hc => ⟨hc.loopStep env i, fun _ _ => trivial⟩) fuel 0 _ [] out hpeers
    (fun _ h => by cases h) h).1

/-- The one request a round can send: the next range of the file, from an active state. -/
theorem loopStep_requests (hc : c.Inv) {peerId : π} {request : GetChunksRequest}
    (h : SyncMessage.sendRequest peerId request ∈ (loopStep env i c).msgs) :
    request = ⟨c.txId, c.nextChunk, min (c.nextChunk + maxChunksToRequest) c.numChunks⟩ ∧
      (c.nextChunk < c.numChunks ∨ c.numChunks = 0) := by
  cases hs : c.state
  case awaitingDownload =>
    simp only [SerialSyncController.loopStep, hs, Round.msgs] at h
    rcases tryRequestNext_cases env i c with hr | ⟨p, -, hr⟩ <;> rw [hr] at h
    · cases h
    · obtain ⟨-, rfl⟩ := SyncMessage.sendRequest.inj (List.mem_singleton.mp h)
      exact ⟨rfl, hc.active (by rw [hs]; rfl)⟩
  -- no other round sends a request
  all_goals
    simp only [SerialSyncController.loopStep, hs] at h
    (try split_ifs at h) <;> simp only [Round.msgs] at h <;>
    first
    | cases h
    | cases tryFindPeers_msgs env i c _ h
    | (obtain ⟨_, _, h'⟩ := tryConnect_msgs env i c _ h; cases h')
    | (rcases handleResponseFailure_msgs c _ _ _ _ h with h' | h' <;> cases h')

omit i in
/-- `transition` keeps the transaction and the chunks. -/
theorem transition_frame {fuel : Nat} {out : SerialSyncController π α × List (SyncMessage π α)}
    (h : c.transition env fuel = some out) :
    out.1.txId = c.txId ∧ out.1.numChunks = c.numChunks ∧ out.1.nextChunk = c.nextChunk := by
  refine (transitionLoop_induction env
    (fun c' => c'.txId = c.txId ∧ c'.numChunks = c.numChunks ∧ c'.nextChunk = c.nextChunk)
    (fun _ => True) ?_ fuel 0 { c with peers := c.peers.transition (env.clock 0) } [] out
    ⟨rfl, rfl, rfl⟩ (fun _ h => by cases h) h).1
  intro i c' ⟨htx, hnum, hnext⟩
  obtain ⟨htx', hnum', hnext'⟩ := loopStep_frame env i c'
  exact ⟨⟨htx'.trans htx, hnum'.trans hnum, hnext'.trans hnext⟩, fun _ _ => trivial⟩

omit i in
/-- `transition` never enters `Completed` or `Failed`. -/
theorem transition_isActive (hactive : c.state.isActive) {fuel : Nat}
    {out : SerialSyncController π α × List (SyncMessage π α)}
    (h : c.transition env fuel = some out) : out.1.state.isActive :=
  (transitionLoop_induction env (fun c' => c'.state.isActive) (fun _ => True)
    (fun i _ hc => ⟨loopStep_isActive env i _ hc, fun _ _ => trivial⟩) fuel 0
    { c with peers := c.peers.transition (env.clock 0) } [] out hactive (fun _ h => by cases h) h).1

omit i in
/-- From `Completed` or `Failed`, `transition` only drops peers. -/
theorem transition_of_terminal (hterm : c.state.isActive = false) :
    c.transition env c.transitionFuel = some ({ c with peers := c.peers.transition (env.clock 0) }, []) := by
  show transitionLoop env (c.peers.count [.connected] * 40 + 30 + 1) 0 _ [] = _
  rw [transitionLoop,
    loopStep_of_terminal env 0 { c with peers := c.peers.transition (env.clock 0) } hterm]
  rfl

omit i in
/-- Every request `transition` sends is for the next range of the file, from an active state. -/
theorem transition_requests (hc : c.Inv) {fuel : Nat}
    {out : SerialSyncController π α × List (SyncMessage π α)}
    (h : c.transition env fuel = some out) {peerId : π} {request : GetChunksRequest}
    (hm : SyncMessage.sendRequest peerId request ∈ out.2) :
    request = ⟨c.txId, c.nextChunk, min (c.nextChunk + maxChunksToRequest) c.numChunks⟩ ∧
      (c.nextChunk < c.numChunks ∨ c.numChunks = 0) := by
  -- the rounds keep the invariant and the chunks of `c`
  let P := fun c' : SerialSyncController π α =>
    c'.Inv ∧ c'.txId = c.txId ∧ c'.numChunks = c.numChunks ∧ c'.nextChunk = c.nextChunk
  let Q := fun m : SyncMessage π α => ∀ p r, m = .sendRequest p r →
    r = ⟨c.txId, c.nextChunk, min (c.nextChunk + maxChunksToRequest) c.numChunks⟩ ∧
      (c.nextChunk < c.numChunks ∨ c.numChunks = 0)
  have hround : ∀ i c', P c' → P (loopStep env i c').ctrl ∧ ∀ m ∈ (loopStep env i c').msgs, Q m := by
    rintro i c' ⟨hc', htx, hnum, hnext⟩
    obtain ⟨htx', hnum', hnext'⟩ := loopStep_frame env i c'
    refine ⟨⟨hc'.loopStep env i, htx'.trans htx, hnum'.trans hnum, hnext'.trans hnext⟩, ?_⟩
    rintro m hm p r rfl
    rw [← htx, ← hnum, ← hnext]
    exact loopStep_requests env i hc' hm
  have hpeers : P { c with peers := c.peers.transition (env.clock 0) } :=
    ⟨hc.of_peers rfl rfl rfl (SyncPeers.count_transition_le _ _ _)
      (SyncPeers.count_transition_le _ _ _), rfl, rfl, rfl⟩
  exact (transitionLoop_induction env P Q hround fuel 0 _ [] out hpeers (fun _ h => by cases h)
    h).2 _ hm peerId request rfl

end Loop

end Inv

/-! ## The handlers keep the invariant -/

section Handlers

variable {c : SerialSyncController π α}

/-- A mismatch check that lets a response through was made during a download from its peer. -/
theorem state_of_handleOnResponseMismatch {fromPeerId : π}
    (h : (c.handleOnResponseMismatch fromPeerId).1 = false) :
    ∃ fromChunk toChunk since, c.state = .downloading fromPeerId fromChunk toChunk since := by
  unfold handleOnResponseMismatch at h
  split at h
  · rename_i peerId fromChunk toChunk since hs
    split_ifs at h with heq
    exact ⟨fromChunk, toChunk, since, heq ▸ hs⟩
  · cases h

/-- The mismatch check lets through a response of the download's peer. -/
theorem handleOnResponseMismatch_of_downloading {fromPeerId : π} {fromChunk toChunk since : Nat}
    (hs : c.state = .downloading fromPeerId fromChunk toChunk since) :
    c.handleOnResponseMismatch fromPeerId = (false, []) := by
  rw [handleOnResponseMismatch, hs]
  exact if_pos rfl

/-- A response that the mismatch check reports changes nothing. -/
theorem onResponse_of_mismatch {fromPeerId : π}
    (hm : (c.handleOnResponseMismatch fromPeerId).1 = true) (response : ChunkArray)
    (answers : StoreAnswers) (now : Nat) :
    c.onResponse fromPeerId response answers now =
      some (c, (c.handleOnResponseMismatch fromPeerId).2.map .send) := by
  unfold onResponse
  dsimp only
  rw [if_pos hm]

/-- A response of the download's peer to an empty range fails the debug assertion. -/
theorem onResponse_of_empty_range {fromPeerId : π} {fromChunk toChunk since : Nat}
    (hs : c.state = .downloading fromPeerId fromChunk toChunk since) (hle : toChunk ≤ fromChunk)
    (response : ChunkArray) (answers : StoreAnswers) (now : Nat) :
    c.onResponse fromPeerId response answers now = none := by
  unfold onResponse
  dsimp only
  rw [handleOnResponseMismatch_of_downloading hs, if_neg Bool.false_ne_true, hs]
  dsimp only
  rw [if_pos hle]

/-- `on_response` reports an unexpected response and changes nothing.  Otherwise the sync was
downloading from the responding peer, and it rejects the response, waits for the proof's root,
or stores a response of the requested range. -/
theorem onResponse_cases {fromPeerId : π} {response : ChunkArray} {answers : StoreAnswers}
    {now : Nat} {out : SerialSyncController π α × List (SyncOutput π α)}
    (h : c.onResponse fromPeerId response answers now = some out) :
    (out.1 = c ∧ out.2 = (c.handleOnResponseMismatch fromPeerId).2.map .send) ∨
      ∃ fromChunk toChunk since, c.state = .downloading fromPeerId fromChunk toChunk since ∧
        ((∃ reason, out = c.rejectResponse fromPeerId reason now) ∨
          out = ({ c with state := .awaitingDownload }, []) ∨
          response.startIndex = fromChunk ∧
            response.startIndex + response.data.length / chunkSize = toChunk ∧
            0 < response.data.length / chunkSize ∧ out = c.storeChunks toChunk response answers) := by
  unfold onResponse at h
  dsimp only at h
  by_cases hm : (c.handleOnResponseMismatch fromPeerId).1
  · rw [if_pos hm] at h
    cases h
    exact .inl ⟨rfl, rfl⟩
  · obtain ⟨fromChunk, toChunk, since, hs⟩ :=
      state_of_handleOnResponseMismatch (Bool.eq_false_iff.mpr hm)
    refine .inr ⟨fromChunk, toChunk, since, hs, ?_⟩
    rw [if_neg hm, hs] at h
    dsimp only at h
    -- the overflow is not `some`
    split_ifs at h with hassert hlen hover hrange
    · cases h
      exact .inl ⟨_, rfl⟩
    · cases h
      exact .inl ⟨_, rfl⟩
    · -- a response of the requested range: the proof decides
      have hchunks : 0 < response.data.length / chunkSize := by
        simp only [chunkSize_eq] at hlen ⊢
        omega
      obtain ⟨hstart, hend⟩ : response.startIndex = fromChunk ∧
          response.startIndex + response.data.length / chunkSize = toChunk := by
        simpa only [not_or, not_not] using hrange
      split at h
      · cases h
        exact .inr (.inr ⟨hstart, hend, hchunks, rfl⟩)
      · cases h
        exact .inr (.inl rfl)
      · cases h
        exact .inl ⟨_, rfl⟩

theorem Inv.onPeerFound (hc : c.Inv) (peerId : π) (addr : α) (now : Nat) :
    ({ c with peers := (onPeerFound c.peers peerId addr now).1 } : SerialSyncController π α).Inv := by
  -- a new peer is found, neither connecting nor connected
  have hconnecting := SyncPeers.count_addNewPeer c.peers peerId addr now .connecting
  have hconnected := SyncPeers.count_addNewPeer c.peers peerId addr now .connected
  simp only [reduceCtorEq, and_false, if_false, Nat.add_zero] at hconnecting hconnected
  refine hc.of_peers rfl rfl rfl hconnecting.le ?_
  simp only [SerialSyncController.onPeerFound]
  rw [count_connecting_connected, count_connecting_connected, hconnecting, hconnected]

/-- A failed dial of a connecting peer moves it out of `Connecting`, not into `Connected`, and
sends the sync back before a download. -/
theorem Inv.of_dialFailed (hc : c.Inv) {peerId : π} {toState : PeerState} {now : Nat}
    (hto : toState ≠ .connecting ∧ toState ≠ .connected)
    (hconnecting : c.peers.peerState peerId = some .connecting) (state : SyncState π)
    (hearly : state.isEarly) :
    ({ c with peers := (c.peers.updateState peerId .connecting toState now).1, state } :
      SerialSyncController π α).Inv := by
  -- a connecting peer means the sync was before a download
  have hactive := SyncState.isActive_of_isEarly
    (hc.isEarly_of_connecting (SyncPeers.count_pos_of_peerState hconnecting))
  have hfrom := SyncPeers.count_updateState hconnecting toState now .connecting
  have hto' := SyncPeers.count_updateState hconnecting toState now .connected
  have hserial := hc.serial
  simp only [hto.1, hto.2, if_true, if_false, reduceCtorEq, Nat.add_zero] at hfrom hto'
  refine hc.of_early rfl rfl hactive hearly ?_
  dsimp only
  rw [count_connecting_connected] at hserial ⊢
  omega

theorem Inv.onDailFailed (hc : c.Inv) (peerId : π) (err : DialError) (now : Nat) :
    (c.onDailFailed peerId err now).Inv := by
  cases err with
  | connectionLimit =>
    rcases SyncPeers.updateState_cases c.peers peerId .connecting .found now with
      ⟨hsame, hnot⟩ | ⟨hconnecting, hmoved⟩
    · -- the peer was not connecting: nothing changes
      simp only [SerialSyncController.onDailFailed, if_neg hnot, hsame]
      exact hc
    · simp only [SerialSyncController.onDailFailed, if_pos hmoved]
      exact hc.of_dialFailed ⟨by decide, by decide⟩ hconnecting _ rfl
  | other =>
    rcases SyncPeers.updateState_cases c.peers peerId .connecting .disconnected now with
      ⟨hsame, hnot⟩ | ⟨hconnecting, hmoved⟩
    · simp only [SerialSyncController.onDailFailed, if_neg hnot, hsame]
      exact hc
    · simp only [SerialSyncController.onDailFailed, if_pos hmoved]
      exact hc.of_dialFailed ⟨by decide, by decide⟩ hconnecting _ rfl

theorem Inv.onPeerConnected (hc : c.Inv) (peerId : π) (now : Nat) :
    (c.onPeerConnected peerId now).Inv := by
  refine hc.of_peers rfl rfl rfl (SyncPeers.count_updateState_le _ _ _ (by decide)) ?_
  simp only [SerialSyncController.onPeerConnected]
  rcases SyncPeers.updateState_cases c.peers peerId .connecting .connected now with
    ⟨hsame, -⟩ | ⟨hconnecting, -⟩
  · rw [hsame]
  · -- the peer moves from `Connecting` to `Connected`: the two together stay as many
    have hfrom := SyncPeers.count_updateState hconnecting .connected now .connecting
    have hto := SyncPeers.count_updateState hconnecting .connected now .connected
    simp only [if_true, reduceCtorEq, if_false, Nat.add_zero] at hfrom hto
    rw [count_connecting_connected, count_connecting_connected]
    omega

theorem Inv.onPeerDisconnected (hc : c.Inv) (peerId : π) : (c.onPeerDisconnected peerId).Inv := by
  have hconnecting := SyncPeers.count_updateStateForce_le c.peers peerId
    (by decide : PeerState.disconnected ≠ .connecting)
  have hconnected := SyncPeers.count_updateStateForce_le c.peers peerId
    (by decide : PeerState.disconnected ≠ .connected)
  refine hc.of_peers rfl rfl rfl hconnecting ?_
  simp only [SerialSyncController.onPeerDisconnected]
  rw [count_connecting_connected, count_connecting_connected]
  omega

theorem Inv.reset (hc : c.Inv) (now : Nat) : (c.reset now).Inv where
  nextChunk_le := Nat.zero_le _
  downloading h := by cases h
  completed h := by cases h
  active _ := by
    show 0 < c.numChunks ∨ c.numChunks = 0
    omega
  serial := (SyncPeers.count_transition_le _ _ _).trans hc.serial
  quiet h := by cases h

theorem Inv.onRequestFailed (hc : c.Inv) (peerId : π) (now : Nat) :
    (c.onRequestFailed peerId now).1.Inv := by
  unfold SerialSyncController.onRequestFailed
  dsimp only
  split_ifs with hm
  · exact hc
  · obtain ⟨fromChunk, toChunk, since, hs⟩ :=
      state_of_handleOnResponseMismatch (Bool.eq_false_iff.mpr hm)
    exact hc.handleResponseFailure (by rw [hs]; rfl) (hc.quiet (by rw [hs]; rfl)) peerId _ _

/-- The three rejections of a response ban the peer, which moves out of `Connected` only. -/
theorem Inv.rejectResponse (hc : c.Inv) (hactive : c.state.isActive) (fromPeerId : π)
    (reason : String) (now : Nat) : (c.rejectResponse fromPeerId reason now).1.Inv := by
  have hconnecting : (c.banPeer fromPeerId reason now).1.peers.count [.connecting] ≤
      c.peers.count [.connecting] := count_banPeer_le c fromPeerId reason now (by decide)
  have hconnected : (c.banPeer fromPeerId reason now).1.peers.count [.connected] ≤
      c.peers.count [.connected] := count_banPeer_le c fromPeerId reason now (by decide)
  have hserial := hc.serial
  refine hc.of_early rfl rfl hactive rfl ?_
  show (c.banPeer fromPeerId reason now).1.peers.count [.connecting, .connected] ≤ 1
  rw [count_connecting_connected] at hserial ⊢
  omega

omit [DecidableEq π] in
/-- Storing the chunks of the download goes on from the end of its range, or ends the sync; the
range ends within the file. -/
theorem Inv.storeChunks (hc : c.Inv) {peerId : π} {fromChunk toChunk since : Nat}
    (hs : c.state = .downloading peerId fromChunk toChunk since) (chunks : ChunkArray)
    (answers : StoreAnswers) : (c.storeChunks toChunk chunks answers).1.Inv := by
  obtain ⟨-, hto⟩ := hc.downloading hs
  have hquiet := hc.quiet (by rw [hs]; rfl)
  have hle : toChunk ≤ c.numChunks := hto ▸ Nat.min_le_right _ _
  unfold SerialSyncController.storeChunks
  dsimp only
  split
  · exact Inv.of_terminal hc.nextChunk_le rfl (by intro h; cases h) hquiet hc.serial
  · exact Inv.of_terminal hc.nextChunk_le rfl (by intro h; cases h) hquiet hc.serial
  · split_ifs with hlt
    · exact { nextChunk_le := hle
              downloading := by intro _ _ _ _ h; cases h
              completed := by intro h; cases h
              active := fun _ => .inl hlt
              serial := hc.serial
              quiet := by intro h; cases h }
    · -- every chunk is stored: the range ends at the end of the file
      have hend : toChunk = c.numChunks := by omega
      split
      · exact Inv.of_terminal hle rfl (fun _ => hend) hquiet hc.serial
      · exact Inv.of_terminal hle rfl (by intro h; cases h) hquiet hc.serial
      · exact Inv.of_terminal hle rfl (by intro h; cases h) hquiet hc.serial

theorem Inv.onResponse (hc : c.Inv) {fromPeerId : π} {response : ChunkArray}
    {answers : StoreAnswers} {now : Nat} {out : SerialSyncController π α × List (SyncOutput π α)}
    (h : c.onResponse fromPeerId response answers now = some out) : out.1.Inv := by
  rcases onResponse_cases h with ⟨hout, -⟩ |
    ⟨fromChunk, toChunk, since, hs, ⟨reason, rfl⟩ | rfl | ⟨-, -, -, rfl⟩⟩
  · exact hout ▸ hc
  · exact hc.rejectResponse (by rw [hs]; rfl) _ _ _
  · exact hc.awaitingDownload rfl rfl rfl rfl (by rw [hs]; rfl) (hc.quiet (by rw [hs]; rfl))
  · exact hc.storeChunks hs _ _

/-- The reports of an unexpected response or failure. -/
theorem handleOnResponseMismatch_msgs (fromPeerId : π) :
    ∀ m ∈ (c.handleOnResponseMismatch fromPeerId).2,
      ∃ reason, m = .reportPeer fromPeerId .lowToleranceError reason := by
  intro m hm
  unfold handleOnResponseMismatch at hm
  split at hm
  · split_ifs at hm
    · cases hm
    · exact ⟨_, List.mem_singleton.mp hm⟩
  · exact ⟨_, List.mem_singleton.mp hm⟩

/-- `on_request_failed` reports an unexpected failure and changes nothing; a failure of the
download's peer is a failed response. -/
theorem onRequestFailed_cases (peerId : π) (now : Nat) :
    c.onRequestFailed peerId now = (c, (c.handleOnResponseMismatch peerId).2) ∨
      (∃ fromChunk toChunk since, c.state = .downloading peerId fromChunk toChunk since) ∧
        c.onRequestFailed peerId now = c.handleResponseFailure peerId "RPC Error" now := by
  unfold onRequestFailed
  dsimp only
  by_cases hm : (c.handleOnResponseMismatch peerId).1
  · exact .inl (if_pos hm)
  · exact .inr ⟨state_of_handleOnResponseMismatch (Bool.eq_false_iff.mpr hm), if_neg hm⟩

/-- A failed dial keeps the chunks, and keeps the state unless the peer was connecting; it then
sends the sync back before a download. -/
theorem onDailFailed_spec (peerId : π) (err : DialError) (now : Nat) :
    (c.onDailFailed peerId err now).txId = c.txId ∧
      (c.onDailFailed peerId err now).numChunks = c.numChunks ∧
      (c.onDailFailed peerId err now).nextChunk = c.nextChunk ∧
      ((c.onDailFailed peerId err now).state = c.state ∨
        c.peers.peerState peerId = some .connecting ∧
          (c.onDailFailed peerId err now).state.isEarly) := by
  unfold SerialSyncController.onDailFailed
  cases err <;> dsimp only
  · rcases SyncPeers.updateState_cases c.peers peerId .connecting .found now with
      ⟨-, hnot⟩ | ⟨hconnecting, hmoved⟩
    · rw [if_neg hnot]
      exact ⟨rfl, rfl, rfl, .inl rfl⟩
    · rw [if_pos hmoved]
      exact ⟨rfl, rfl, rfl, .inr ⟨hconnecting, rfl⟩⟩
  · rcases SyncPeers.updateState_cases c.peers peerId .connecting .disconnected now with
      ⟨-, hnot⟩ | ⟨hconnecting, hmoved⟩
    · rw [if_neg hnot]
      exact ⟨rfl, rfl, rfl, .inl rfl⟩
    · rw [if_pos hmoved]
      exact ⟨rfl, rfl, rfl, .inr ⟨hconnecting, rfl⟩⟩

omit [DecidableEq π] in
/-- Storing keeps the transaction and the size of the file and sends nothing; the store accepts
the chunks and the next chunk moves to the end of the range, or the next chunk stays. -/
theorem storeChunks_spec (toChunk : Nat) (chunks : ChunkArray) (answers : StoreAnswers) :
    (c.storeChunks toChunk chunks answers).1.txId = c.txId ∧
      (c.storeChunks toChunk chunks answers).1.numChunks = c.numChunks ∧
      (∀ m, SyncOutput.send m ∉ (c.storeChunks toChunk chunks answers).2) ∧
      ((c.storeChunks toChunk chunks answers).1.nextChunk = toChunk ∧
          storedRanges (c.storeChunks toChunk chunks answers).2 =
            [(chunks.startIndex, chunks.startIndex + chunks.data.length / chunkSize)] ∨
        (c.storeChunks toChunk chunks answers).1.nextChunk = c.nextChunk ∧
          storedRanges (c.storeChunks toChunk chunks answers).2 = []) := by
  unfold SerialSyncController.storeChunks
  cases hput : answers.putChunksWithTxHash with
  | error err => exact ⟨rfl, rfl, by simp, .inr ⟨rfl, rfl⟩⟩
  | ok stored =>
    cases stored
    · exact ⟨rfl, rfl, by simp, .inr ⟨rfl, rfl⟩⟩
    · -- the store accepted the chunks: then the finalization, if every chunk is stored
      dsimp only
      split_ifs
      · exact ⟨rfl, rfl, by simp, .inl ⟨rfl, rfl⟩⟩
      · split <;> exact ⟨rfl, rfl, by simp, .inl ⟨rfl, rfl⟩⟩

omit [DecidableEq π] in
/-- Storing ends the sync as `Completed` only on the last range, after a finalization that
succeeded. -/
theorem storeChunks_completed {toChunk : Nat} {chunks : ChunkArray} {answers : StoreAnswers}
    (h : (c.storeChunks toChunk chunks answers).1.state = .completed) :
    ¬toChunk < c.numChunks ∧ SyncOutput.finalizeTxWithHash c.txId.seq c.txId.hash (.ok true) ∈
      (c.storeChunks toChunk chunks answers).2 := by
  revert h
  unfold SerialSyncController.storeChunks
  cases answers.putChunksWithTxHash with
  | error err => intro h; cases h
  | ok stored =>
    cases stored
    · intro h; cases h
    · dsimp only
      split_ifs with hlt
      · intro h; cases h
      · cases answers.finalizeTxWithHash with
        | error err => intro h; cases h
        | ok finalized =>
          cases finalized
          · intro h; cases h
          · intro _
            exact ⟨hlt, by simp⟩

end Handlers

/-! ## Every run keeps the invariant -/

section Run

variable {c : SerialSyncController π α}

/-- **Every call of the service keeps the invariant.** -/
theorem Inv.step (hc : c.Inv) {e : SyncEvent π α}
    {out : SerialSyncController π α × List (SyncOutput π α)} (h : c.step e = some out) :
    out.1.Inv := by
  cases e with
  | onPeerFound peerId addr now =>
    cases h
    exact hc.onPeerFound peerId addr now
  | onDailFailed peerId err now =>
    cases h
    exact hc.onDailFailed peerId err now
  | onPeerConnected peerId now =>
    cases h
    exact hc.onPeerConnected peerId now
  | onPeerDisconnected peerId =>
    cases h
    exact hc.onPeerDisconnected peerId
  | onResponse fromPeerId response answers now => exact hc.onResponse h
  | onRequestFailed peerId now =>
    cases h
    exact hc.onRequestFailed peerId now
  | reset now =>
    cases h
    exact hc.reset now
  | transition env =>
    obtain ⟨r, hr, rfl⟩ := Option.map_eq_some_iff.mp h
    exact hc.transition env _ hr

/-- A run of `e :: rest` is a step, then the run of `rest`. -/
theorem run_cons_eq_some {e : SyncEvent π α} {rest : List (SyncEvent π α)}
    {out : SerialSyncController π α × List (SyncOutput π α)} (h : c.run (e :: rest) = some out) :
    ∃ r r', c.step e = some r ∧ r.1.run rest = some r' ∧ out = (r'.1, r.2 ++ r'.2) := by
  rw [run] at h
  obtain ⟨r, hr, h⟩ := Option.bind_eq_some_iff.mp h
  obtain ⟨r', hr', rfl⟩ := Option.map_eq_some_iff.mp h
  exact ⟨r, r', hr, hr', rfl⟩

/-- **Every run keeps the invariant.** -/
theorem Inv.run (hc : c.Inv) (events : List (SyncEvent π α))
    {out : SerialSyncController π α × List (SyncOutput π α)} (h : c.run events = some out) :
    out.1.Inv := by
  induction events generalizing c out with
  | nil =>
    cases h
    exact hc
  | cons e rest ih =>
    obtain ⟨r, r', hr, hr', rfl⟩ := run_cons_eq_some h
    have hr'' := ih (hc.step hr) hr'
    exact hr''

omit [DecidableEq π] in
theorem inv_new (txId : TxID) (numChunks : Nat) : (new txId numChunks : SerialSyncController π α).Inv where
  nextChunk_le := Nat.zero_le _
  downloading h := by cases h
  completed h := by cases h
  active _ := by
    show 0 < numChunks ∨ numChunks = 0
    omega
  serial := Nat.zero_le 1
  quiet h := by cases h

end Run

end SerialSyncController

end Ionian.Sync
