import Ionian.Sync.SerialHandlers

/-!
# Sync.SerialRun — what every run of the handlers does to the file

From the invariant of `Sync.SerialHandlers`, one lemma per call says what it does to the chunks,
the state and the writes (`step_tiles`, `step_completed`, `step_of_terminal`, `step_requests`),
and an induction over the calls lifts each to whole runs:

* between two resets, the chunk arrays the store accepted are consecutive ranges from the next
  chunk at the start, each at most `MAX_CHUNKS_TO_REQUEST` long (`run_writes_tile`), and a run
  from the first chunk that completes has stored the whole file and finalized it
  (`run_completed_writes_file`);
* `Completed` and `Failed` are final until `reset`: no handler changes them or writes to the store
  (`run_of_terminal`);
* every request is for the next range of the file, and not empty when the file is not
  (`run_requests`); a file of zero chunks never completes: every request is for the empty range
  `[0, 0)`, which the serving node's `handle_chunks_request_with_db_err` answers by banning the
  requester, and a response of the download's peer fails the debug assertion of `on_response`
  (`run_empty_file`);
* in the debug build that `Sync.SerialHandlers` models, the handlers panic only in `on_response`,
  on a response of the download's peer: at `debug_assert!(from_chunk < to_chunk)`, or where it
  computes `start_index + data_len / CHUNK_SIZE` on a `start_index` the peer chooses
  (`step_eq_none_iff`).
-/

namespace Ionian.Sync

open Storage

namespace SerialSyncController

variable {π α : Type} [DecidableEq π]

/-! ## What one call does to the chunks, the state and the writes -/

section Steps

variable {c : SerialSyncController π α}

/-- No call changes the transaction or the size of the file. -/
theorem step_frame {e : SyncEvent π α} {out : SerialSyncController π α × List (SyncOutput π α)}
    (h : c.step e = some out) : out.1.txId = c.txId ∧ out.1.numChunks = c.numChunks := by
  cases e with
  | onPeerFound peerId addr now =>
    cases h
    exact ⟨rfl, rfl⟩
  | onDailFailed peerId err now =>
    cases h
    obtain ⟨htx, hnum, -⟩ := onDailFailed_spec (c := c) peerId err now
    exact ⟨htx, hnum⟩
  | onPeerConnected peerId now =>
    cases h
    exact ⟨rfl, rfl⟩
  | onPeerDisconnected peerId =>
    cases h
    exact ⟨rfl, rfl⟩
  | onResponse fromPeerId response answers now =>
    rcases onResponse_cases h with ⟨hout, -⟩ | ⟨_, _, _, -, ⟨_, rfl⟩ | rfl | ⟨-, -, -, rfl⟩⟩
    · rw [hout]
      exact ⟨rfl, rfl⟩
    · exact ⟨rfl, rfl⟩
    · exact ⟨rfl, rfl⟩
    · obtain ⟨htx, hnum, -⟩ := storeChunks_spec (c := c) _ response answers
      exact ⟨htx, hnum⟩
  | onRequestFailed peerId now =>
    cases h
    rcases onRequestFailed_cases (c := c) peerId now with hr | ⟨-, hr⟩ <;> rw [hr]
    · exact ⟨rfl, rfl⟩
    · obtain ⟨htx, hnum, -⟩ := handleResponseFailure_frame c peerId "RPC Error" now
      exact ⟨htx, hnum⟩
  | reset now =>
    cases h
    exact ⟨rfl, rfl⟩
  | transition env =>
    obtain ⟨r, hr, rfl⟩ := Option.map_eq_some_iff.mp h
    obtain ⟨htx, hnum, -⟩ := transition_frame env hr
    exact ⟨htx, hnum⟩

/-- A call other than `reset` moves the next chunk only by storing the range from it. -/
theorem step_tiles (hc : c.Inv) {e : SyncEvent π α} (hreset : e.isReset = false)
    {out : SerialSyncController π α × List (SyncOutput π α)} (h : c.step e = some out) :
    Tiles maxChunksToRequest c.nextChunk out.1.nextChunk (storedRanges out.2) := by
  cases e with
  | onPeerFound peerId addr now =>
    cases h
    exact rfl
  | onDailFailed peerId err now =>
    cases h
    exact (onDailFailed_spec (c := c) peerId err now).2.2.1.symm
  | onPeerConnected peerId now =>
    cases h
    exact rfl
  | onPeerDisconnected peerId =>
    cases h
    exact rfl
  | onResponse fromPeerId response answers now =>
    rcases onResponse_cases h with ⟨hout, hmsgs⟩ |
      ⟨fromChunk, toChunk, since, hs, ⟨_, rfl⟩ | rfl | ⟨hstart, hend, hpos, rfl⟩⟩
    · rw [hout, hmsgs, storedRanges_map_send]
      exact rfl
    · exact rfl
    · exact rfl
    · -- the stored range starts at the next chunk and is the download's range
      obtain ⟨hfrom, hto⟩ := hc.downloading hs
      obtain ⟨-, -, -, ⟨hnext, hstored⟩ | ⟨hnext, hstored⟩⟩ :=
        storeChunks_spec (c := c) toChunk response answers
      · rw [hnext, hstored]
        refine ⟨hstart.trans hfrom, by omega, by omega, hend⟩
      · rw [hnext, hstored]
        exact rfl
  | onRequestFailed peerId now =>
    cases h
    rcases onRequestFailed_cases (c := c) peerId now with hr | ⟨-, hr⟩ <;>
      rw [hr, storedRanges_map_send]
    · exact rfl
    · exact (handleResponseFailure_frame c peerId "RPC Error" now).2.2.symm
  | reset now => cases hreset
  | transition env =>
    obtain ⟨r, hr, rfl⟩ := Option.map_eq_some_iff.mp h
    rw [storedRanges_map_send]
    exact (transition_frame env hr).2.2.symm

/-- A call that enters `Completed` stored the last range of the file and finalized it. -/
theorem step_completed (hc : c.Inv) (hnot : c.state ≠ .completed) {e : SyncEvent π α}
    {out : SerialSyncController π α × List (SyncOutput π α)} (h : c.step e = some out)
    (hdone : out.1.state = .completed) :
    c.nextChunk < c.numChunks ∧
      SyncOutput.finalizeTxWithHash c.txId.seq c.txId.hash (.ok true) ∈ out.2 := by
  cases e with
  | onPeerFound peerId addr now =>
    cases h
    exact absurd hdone hnot
  | onDailFailed peerId err now =>
    cases h
    change (c.onDailFailed peerId err now).state = .completed at hdone
    rcases (onDailFailed_spec (c := c) peerId err now).2.2.2 with hs | ⟨-, hearly⟩
    · exact absurd (hs ▸ hdone) hnot
    · rw [hdone] at hearly
      cases hearly
  | onPeerConnected peerId now =>
    cases h
    exact absurd hdone hnot
  | onPeerDisconnected peerId =>
    cases h
    exact absurd hdone hnot
  | onResponse fromPeerId response answers now =>
    rcases onResponse_cases h with ⟨hout, -⟩ |
      ⟨fromChunk, toChunk, since, hs, ⟨_, rfl⟩ | rfl | ⟨hstart, hend, hpos, rfl⟩⟩
    · rw [hout] at hdone
      exact absurd hdone hnot
    · cases hdone
    · cases hdone
    · -- the range is not empty and ends within the file
      obtain ⟨hlast, hfin⟩ := storeChunks_completed hdone
      obtain ⟨hfrom, hto⟩ := hc.downloading hs
      refine ⟨?_, hfin⟩
      omega
  | onRequestFailed peerId now =>
    cases h
    change (c.onRequestFailed peerId now).1.state = .completed at hdone
    rcases onRequestFailed_cases (c := c) peerId now with hr | ⟨-, hr⟩ <;> rw [hr] at hdone
    · exact absurd hdone hnot
    · have hactive := handleResponseFailure_isActive c peerId "RPC Error" now
      rw [hdone] at hactive
      cases hactive
  | reset now =>
    cases h
    cases hdone
  | transition env =>
    obtain ⟨r, hr, rfl⟩ := Option.map_eq_some_iff.mp h
    cases hactive : c.state.isActive
    · -- from `Failed` the state stays
      rw [transition_of_terminal env hactive] at hr
      cases hr
      exact absurd hdone hnot
    · have hactive' := transition_isActive env hactive hr
      rw [hdone] at hactive'
      cases hactive'

/-- From `Completed` or `Failed`, a call other than `reset` keeps the state and the next chunk, and
only sends messages. -/
theorem step_of_terminal (hc : c.Inv) (hterm : c.state.isActive = false) {e : SyncEvent π α}
    (hreset : e.isReset = false) {out : SerialSyncController π α × List (SyncOutput π α)}
    (h : c.step e = some out) :
    out.1.state = c.state ∧ out.1.nextChunk = c.nextChunk ∧
      ∃ msgs : List (SyncMessage π α), out.2 = msgs.map .send := by
  cases e with
  | onPeerFound peerId addr now =>
    cases h
    exact ⟨rfl, rfl, [], rfl⟩
  | onDailFailed peerId err now =>
    cases h
    -- no download is under way, so the peer is not connecting
    have hquiet := hc.quiet (SyncState.isEarly_of_isActive_eq_false hterm)
    obtain ⟨-, -, hnext, hs | ⟨hconnecting, -⟩⟩ := onDailFailed_spec (c := c) peerId err now
    · exact ⟨hs, hnext, [], rfl⟩
    · have := SyncPeers.count_pos_of_peerState hconnecting
      omega
  | onPeerConnected peerId now =>
    cases h
    exact ⟨rfl, rfl, [], rfl⟩
  | onPeerDisconnected peerId =>
    cases h
    exact ⟨rfl, rfl, [], rfl⟩
  | onResponse fromPeerId response answers now =>
    -- a response can only be unexpected
    rcases onResponse_cases h with ⟨hout, hmsgs⟩ | ⟨_, _, _, hs, -⟩
    · rw [hout]
      exact ⟨rfl, rfl, _, hmsgs⟩
    · rw [hs] at hterm
      cases hterm
  | onRequestFailed peerId now =>
    cases h
    rcases onRequestFailed_cases (c := c) peerId now with hr | ⟨⟨_, _, _, hs⟩, -⟩
    · rw [hr]
      exact ⟨rfl, rfl, _, rfl⟩
    · rw [hs] at hterm
      cases hterm
  | reset now => cases hreset
  | transition env =>
    obtain ⟨r, hr, rfl⟩ := Option.map_eq_some_iff.mp h
    rw [transition_of_terminal env hterm] at hr
    cases hr
    exact ⟨rfl, rfl, [], rfl⟩

/-- Every request a call sends is for the next range of the file, sent from an active state. -/
theorem step_requests (hc : c.Inv) {e : SyncEvent π α}
    {out : SerialSyncController π α × List (SyncOutput π α)} (h : c.step e = some out)
    {peerId : π} {request : GetChunksRequest}
    (hm : SyncOutput.send (.sendRequest peerId request) ∈ out.2) :
    request = ⟨c.txId, c.nextChunk, min (c.nextChunk + maxChunksToRequest) c.numChunks⟩ ∧
      (c.nextChunk < c.numChunks ∨ c.numChunks = 0) := by
  cases e with
  | onPeerFound peerId addr now =>
    cases h
    cases hm
  | onDailFailed peerId err now =>
    cases h
    cases hm
  | onPeerConnected peerId now =>
    cases h
    cases hm
  | onPeerDisconnected peerId =>
    cases h
    cases hm
  | onResponse fromPeerId response answers now =>
    rcases onResponse_cases h with ⟨-, hmsgs⟩ |
      ⟨_, _, _, -, ⟨_, rfl⟩ | rfl | ⟨-, -, -, rfl⟩⟩
    · rw [hmsgs] at hm
      obtain ⟨m, hm', heq⟩ := List.mem_map.mp hm
      cases heq
      obtain ⟨_, hreport⟩ := handleOnResponseMismatch_msgs (c := c) _ _ hm'
      cases hreport
    · simp [SerialSyncController.rejectResponse, SerialSyncController.banPeer] at hm
    · cases hm
    · exact absurd hm ((storeChunks_spec (c := c) _ _ _).2.2.1 _)
  | onRequestFailed peerId now =>
    cases h
    obtain ⟨m, hm', heq⟩ := List.mem_map.mp hm
    cases heq
    rcases onRequestFailed_cases (c := c) peerId now with hr | ⟨-, hr⟩ <;> rw [hr] at hm'
    · obtain ⟨_, hreport⟩ := handleOnResponseMismatch_msgs (c := c) _ _ hm'
      cases hreport
    · rcases handleResponseFailure_msgs c _ _ _ _ hm' with h' | h' <;> cases h'
  | reset now =>
    cases h
    cases hm
  | transition env =>
    obtain ⟨r, hr, rfl⟩ := Option.map_eq_some_iff.mp h
    obtain ⟨m, hm', heq⟩ := List.mem_map.mp hm
    cases heq
    exact transition_requests env hc hr hm'

end Steps

/-! ## Whole runs -/

section Runs

variable {c : SerialSyncController π α}

/-- No run changes the transaction or the size of the file. -/
theorem run_frame (events : List (SyncEvent π α))
    {out : SerialSyncController π α × List (SyncOutput π α)} (h : c.run events = some out) :
    out.1.txId = c.txId ∧ out.1.numChunks = c.numChunks := by
  induction events generalizing c out with
  | nil =>
    cases h
    exact ⟨rfl, rfl⟩
  | cons e rest ih =>
    obtain ⟨r, r', hr, hr', rfl⟩ := run_cons_eq_some h
    obtain ⟨htx, hnum⟩ := step_frame hr
    obtain ⟨htx', hnum'⟩ := ih hr'
    exact ⟨htx'.trans htx, hnum'.trans hnum⟩

/-- **Every run from a new controller keeps the invariant**: the next chunk stays within the
file, a download is of the range from the next chunk, `Completed` has every chunk, at most one
peer is connecting or connected, and none is connecting once a download is under way. -/
theorem run_new_inv (txId : TxID) (numChunks : Nat) (events : List (SyncEvent π α))
    {out : SerialSyncController π α × List (SyncOutput π α)}
    (h : (new txId numChunks).run events = some out) : out.1.Inv :=
  (inv_new txId numChunks).run events h

/-- A sync of a file of one chunk from peer `7`: found by an announcement, dialed by the loop,
connected, asked for the chunk, and answering with it. -/
def oneChunkSync : List (SyncEvent Nat Nat) :=
  let env : Env Nat Nat := ⟨fun _ => 0, fun _ => [], fun _ => 0⟩
  [.onPeerFound 7 0 0, .transition env, .onPeerConnected 7 0, .transition env,
    .onResponse 7 ⟨List.replicate 256 0, 0⟩ ⟨.ok true, .ok true, .ok true⟩ 0]

/-- `oneChunkSync` requests the chunk and completes. -/
theorem oneChunkSync_completes :
    ∃ out, (new ⟨0, H256.zero⟩ 1 : SerialSyncController Nat Nat).run oneChunkSync = some out ∧
      out.1.state = .completed ∧
      SyncOutput.send (.sendRequest 7 ⟨⟨0, H256.zero⟩, 0, 1⟩) ∈ out.2 := by
  obtain ⟨out, h⟩ := Option.isSome_iff_exists.mp (by decide +kernel :
    ((new ⟨0, H256.zero⟩ 1 : SerialSyncController Nat Nat).run oneChunkSync).isSome)
  have hout : ((new ⟨0, H256.zero⟩ 1 : SerialSyncController Nat Nat).run oneChunkSync).map
      (fun out => decide (out.1.state = .completed ∧
        SyncOutput.send (.sendRequest 7 ⟨⟨0, H256.zero⟩, 0, 1⟩) ∈ out.2)) = some true := by
    decide +kernel
  rw [h] at hout
  exact ⟨out, h, of_decide_eq_true (Option.some.inj hout)⟩

theorem run_new_inv_oneChunkSync :
    ∃ out, (new ⟨0, H256.zero⟩ 1 : SerialSyncController Nat Nat).run oneChunkSync = some out ∧
      out.1.Inv := by
  obtain ⟨out, h, -⟩ := oneChunkSync_completes
  exact ⟨out, h, run_new_inv _ _ oneChunkSync h⟩

/-- The ranges the store accepted over a run without `reset`, by induction over its calls. -/
theorem tiles_of_run (hc : c.Inv) (events : List (SyncEvent π α))
    (hreset : ∀ e ∈ events, e.isReset = false)
    {out : SerialSyncController π α × List (SyncOutput π α)} (h : c.run events = some out) :
    Tiles maxChunksToRequest c.nextChunk out.1.nextChunk (storedRanges out.2) := by
  induction events generalizing c out with
  | nil =>
    cases h
    exact rfl
  | cons e rest ih =>
    obtain ⟨r, r', hr, hr', rfl⟩ := run_cons_eq_some h
    have hfirst := step_tiles hc (hreset e List.mem_cons_self) hr
    have hrest := ih (hc.step hr) (fun e' he' => hreset e' (List.mem_cons_of_mem e he')) hr'
    rw [storedRanges_append]
    exact hfirst.append hrest

/-- **Between two resets, the store accepts consecutive ranges of the file**: the ranges of the
writes the store accepted run end to end from the next chunk at the start of the run to the next
chunk at its end, each of at most `MAX_CHUNKS_TO_REQUEST` chunks. -/
theorem run_writes_tile (hc : c.Inv) (events : List (SyncEvent π α))
    (hreset : ∀ e ∈ events, e.isReset = false)
    {out : SerialSyncController π α × List (SyncOutput π α)} (h : c.run events = some out) :
    Tiles maxChunksToRequest c.nextChunk out.1.nextChunk (storedRanges out.2) :=
  tiles_of_run hc events hreset h

theorem run_writes_tile_oneChunkSync :
    ∃ out, (new ⟨0, H256.zero⟩ 1 : SerialSyncController Nat Nat).run oneChunkSync = some out ∧
      Tiles maxChunksToRequest 0 out.1.nextChunk (storedRanges out.2) := by
  obtain ⟨out, h, -⟩ := oneChunkSync_completes
  exact ⟨out, h, run_writes_tile (inv_new _ _) oneChunkSync (by decide) h⟩

/-- A run that enters `Completed` is of a file of some chunks, and finalized it. -/
theorem run_finalized (hc : c.Inv) (hnot : c.state ≠ .completed) (events : List (SyncEvent π α))
    {out : SerialSyncController π α × List (SyncOutput π α)} (h : c.run events = some out)
    (hdone : out.1.state = .completed) :
    0 < c.numChunks ∧
      SyncOutput.finalizeTxWithHash c.txId.seq c.txId.hash (.ok true) ∈ out.2 := by
  induction events generalizing c out with
  | nil =>
    cases h
    exact absurd hdone hnot
  | cons e rest ih =>
    obtain ⟨r, r', hr, hr', rfl⟩ := run_cons_eq_some h
    by_cases hmid : r.1.state = .completed
    · -- the first call completed the sync
      obtain ⟨hlt, hfin⟩ := step_completed hc hnot hr hmid
      exact ⟨by omega, List.mem_append_left _ hfin⟩
    · obtain ⟨hpos, hfin⟩ := ih (hc.step hr) hmid hr' hdone
      obtain ⟨htx, hnum⟩ := step_frame hr
      rw [hnum] at hpos
      rw [htx] at hfin
      exact ⟨hpos, List.mem_append_right _ hfin⟩

/-- **A sync that completes stored the whole file**: a run without `reset` from the first chunk
(as `new` starts) that ends `Completed` had the store accept the ranges of the whole file,
`[0, num_chunks)`, end to end, and finalize the transaction. -/
theorem run_completed_writes_file (hc : c.Inv) (hstart : c.nextChunk = 0)
    (hnot : c.state ≠ .completed) (events : List (SyncEvent π α))
    (hreset : ∀ e ∈ events, e.isReset = false)
    {out : SerialSyncController π α × List (SyncOutput π α)} (h : c.run events = some out)
    (hdone : out.1.state = .completed) :
    Tiles maxChunksToRequest 0 c.numChunks (storedRanges out.2) ∧
      SyncOutput.finalizeTxWithHash c.txId.seq c.txId.hash (.ok true) ∈ out.2 := by
  have htiles := tiles_of_run hc events hreset h
  have hend := (hc.run events h).completed hdone
  obtain ⟨-, hnum⟩ := run_frame events h
  rw [hstart, hend, hnum] at htiles
  exact ⟨htiles, (run_finalized hc hnot events h hdone).2⟩

theorem run_completed_writes_file_oneChunkSync :
    ∃ out, (new ⟨0, H256.zero⟩ 1 : SerialSyncController Nat Nat).run oneChunkSync = some out ∧
      out.1.state = .completed ∧ Tiles maxChunksToRequest 0 1 (storedRanges out.2) ∧
      SyncOutput.finalizeTxWithHash 0 H256.zero (.ok true) ∈ out.2 := by
  obtain ⟨out, h, hdone, -⟩ := oneChunkSync_completes
  exact ⟨out, h, hdone,
    run_completed_writes_file (inv_new _ _) rfl (by decide) oneChunkSync (by decide) h hdone⟩

/-- **`Completed` and `Failed` are final until `reset`**: from them, a run without `reset` keeps
the state and the next chunk, writes nothing to the store, and only sends messages. -/
theorem run_of_terminal (hc : c.Inv) (hterm : c.state.isActive = false)
    (events : List (SyncEvent π α)) (hreset : ∀ e ∈ events, e.isReset = false)
    {out : SerialSyncController π α × List (SyncOutput π α)} (h : c.run events = some out) :
    out.1.state = c.state ∧ out.1.nextChunk = c.nextChunk ∧
      ∃ msgs : List (SyncMessage π α), out.2 = msgs.map .send := by
  induction events generalizing c out with
  | nil =>
    cases h
    exact ⟨rfl, rfl, [], rfl⟩
  | cons e rest ih =>
    obtain ⟨r, r', hr, hr', rfl⟩ := run_cons_eq_some h
    obtain ⟨hs, hnext, msgs, hmsgs⟩ := step_of_terminal hc hterm (hreset e List.mem_cons_self) hr
    obtain ⟨hs', hnext', msgs', hmsgs'⟩ := ih (hc.step hr) (hs ▸ hterm)
      (fun e' he' => hreset e' (List.mem_cons_of_mem e he')) hr'
    exact ⟨hs'.trans hs, hnext'.trans hnext, msgs ++ msgs', by rw [hmsgs, hmsgs', List.map_append]⟩

/-- The calls of `oneChunkSync` on a completed sync leave it completed. -/
theorem run_of_terminal_completed :
    let done : SerialSyncController Nat Nat :=
      { new ⟨0, H256.zero⟩ 1 with nextChunk := 1, state := .completed }
    ∃ out, done.run oneChunkSync = some out ∧ out.1.state = .completed ∧ out.1.nextChunk = 1 ∧
      ∃ msgs : List (SyncMessage Nat Nat), out.2 = msgs.map .send := by
  intro done
  have hc : done.Inv :=
    { nextChunk_le := Nat.le_refl 1
      downloading := fun h => by cases h
      completed := fun _ => rfl
      active := fun h => by cases h
      serial := Nat.zero_le 1
      quiet := fun _ => rfl }
  obtain ⟨out, h⟩ := Option.isSome_iff_exists.mp (by decide +kernel : (done.run oneChunkSync).isSome)
  exact ⟨out, h, run_of_terminal hc rfl oneChunkSync (by decide) h⟩

/-- The requests of a run, by induction over its calls. -/
theorem requests_of_run (hc : c.Inv) (events : List (SyncEvent π α))
    {out : SerialSyncController π α × List (SyncOutput π α)} (h : c.run events = some out)
    {peerId : π} {request : GetChunksRequest}
    (hm : SyncOutput.send (.sendRequest peerId request) ∈ out.2) :
    request.txId = c.txId ∧ request.indexStart ≤ c.numChunks ∧
      request.indexEnd = min (request.indexStart + maxChunksToRequest) c.numChunks ∧
      (0 < c.numChunks → request.indexStart < request.indexEnd) := by
  induction events generalizing c out with
  | nil =>
    cases h
    cases hm
  | cons e rest ih =>
    obtain ⟨r, r', hr, hr', rfl⟩ := run_cons_eq_some h
    rcases List.mem_append.mp hm with hm | hm
    · -- a request of the first call
      obtain ⟨rfl, hactive⟩ := step_requests hc hr hm
      refine ⟨rfl, hc.nextChunk_le, rfl, fun hpos => ?_⟩
      dsimp only
      unfold maxChunksToRequest
      omega
    · obtain ⟨htx, hstart, hend, hne⟩ := ih (hc.step hr) hr' hm
      obtain ⟨htx', hnum⟩ := step_frame hr
      rw [htx'] at htx
      rw [hnum] at hstart hend hne
      exact ⟨htx, hstart, hend, hne⟩

/-- **Every request is for the next range of the file**: of the transaction, from a chunk within
the file, up to `MAX_CHUNKS_TO_REQUEST` chunks on or the end of the file, and not empty when the
file is not. -/
theorem run_requests (hc : c.Inv) (events : List (SyncEvent π α))
    {out : SerialSyncController π α × List (SyncOutput π α)} (h : c.run events = some out)
    {peerId : π} {request : GetChunksRequest}
    (hm : SyncOutput.send (.sendRequest peerId request) ∈ out.2) :
    request.txId = c.txId ∧ request.indexStart ≤ c.numChunks ∧
      request.indexEnd = min (request.indexStart + maxChunksToRequest) c.numChunks ∧
      (0 < c.numChunks → request.indexStart < request.indexEnd) :=
  requests_of_run hc events h hm

theorem run_requests_oneChunkSync :
    ∃ out, (new ⟨0, H256.zero⟩ 1 : SerialSyncController Nat Nat).run oneChunkSync = some out ∧
      SyncOutput.send (.sendRequest 7 ⟨⟨0, H256.zero⟩, 0, 1⟩) ∈ out.2 ∧
      (⟨⟨0, H256.zero⟩, 0, 1⟩ : GetChunksRequest).indexStart <
        (⟨⟨0, H256.zero⟩, 0, 1⟩ : GetChunksRequest).indexEnd := by
  obtain ⟨out, h, -, hm⟩ := oneChunkSync_completes
  exact ⟨out, h, hm, (run_requests (inv_new _ _) oneChunkSync h hm).2.2.2 (by decide)⟩

/-- **A file of zero chunks never completes**: every request is for the empty range `[0, 0)` of
the transaction, which the serving node's `handle_chunks_request_with_db_err` answers by banning
the requester, whatever its store holds.  A response from the peer of the download then fails
`debug_assert!(from_chunk < to_chunk)`, and any other response is reported and changes nothing;
no run reaches `Completed`. -/
theorem run_empty_file (hc : c.Inv) (hempty : c.numChunks = 0) (hnot : c.state ≠ .completed)
    (events : List (SyncEvent π α)) {out : SerialSyncController π α × List (SyncOutput π α)}
    (h : c.run events = some out) :
    out.1.state ≠ .completed ∧
      (∀ peerId request, SyncOutput.send (.sendRequest peerId request) ∈ out.2 →
        request = ⟨c.txId, 0, 0⟩ ∧
          ∀ (ρ χ : Type) (store : ChunkStore χ) (hash : Transaction → H256) (requester : π)
            (requestId : ρ), handleChunksRequestWithDbErr store hash requester requestId request =
              ([.banPeer requester "Invalid chunk indices"], .ok ())) ∧
      ∀ fromPeerId response answers now,
        out.1.step (.onResponse fromPeerId response answers now) =
          if (out.1.handleOnResponseMismatch fromPeerId).1 then
            some (out.1, (out.1.handleOnResponseMismatch fromPeerId).2.map .send)
          else none := by
  refine ⟨fun hdone => ?_, fun peerId request hm => ?_, fun fromPeerId response answers now => ?_⟩
  · have hpos := (run_finalized hc hnot events h hdone).1
    omega
  · obtain ⟨htx, hstart, hend, -⟩ := requests_of_run hc events h hm
    have hreq : request = ⟨c.txId, 0, 0⟩ := by
      obtain ⟨txId, indexStart, indexEnd⟩ := request
      rw [hempty] at hstart hend
      dsimp only at htx hstart hend
      obtain rfl : indexStart = 0 := by omega
      rw [htx, hend]
      rfl
    refine ⟨hreq, fun ρ χ store hash requester requestId => ?_⟩
    subst hreq
    rw [handleChunksRequestWithDbErr, if_pos (Nat.le_refl 0)]
  · change out.1.onResponse fromPeerId response answers now = _
    by_cases hm : (out.1.handleOnResponseMismatch fromPeerId).1
    · rw [if_pos hm, onResponse_of_mismatch hm]
    · obtain ⟨fromChunk, toChunk, since, hs⟩ :=
        state_of_handleOnResponseMismatch (Bool.eq_false_iff.mpr hm)
      -- the download of a file of no chunks is of the empty range
      have hto : toChunk = min (out.1.nextChunk + maxChunksToRequest) 0 :=
        (run_frame events h).2.trans hempty ▸ ((hc.run events h).downloading hs).2
      rw [if_neg hm, onResponse_of_empty_range hs (by omega)]

/-- The calls of `oneChunkSync` before its response, on a file of no chunks: the request is for
`[0, 0)`, and the response `oneChunkSync` then gets from the peer of the download panics. -/
theorem run_empty_file_oneChunkSync :
    ∃ out, (new ⟨0, H256.zero⟩ 0 : SerialSyncController Nat Nat).run oneChunkSync.dropLast =
        some out ∧
      out.1.state ≠ .completed ∧
      SyncOutput.send (.sendRequest 7 ⟨⟨0, H256.zero⟩, 0, 0⟩) ∈ out.2 ∧
      out.1.step (.onResponse 7 ⟨List.replicate 256 0, 0⟩ ⟨.ok true, .ok true, .ok true⟩ 0) =
        none := by
  obtain ⟨out, h⟩ := Option.isSome_iff_exists.mp (by decide +kernel :
    ((new ⟨0, H256.zero⟩ 0 : SerialSyncController Nat Nat).run oneChunkSync.dropLast).isSome)
  have hout : ((new ⟨0, H256.zero⟩ 0 : SerialSyncController Nat Nat).run oneChunkSync.dropLast).map
      (fun out => (decide (SyncOutput.send (.sendRequest 7 ⟨⟨0, H256.zero⟩, 0, 0⟩) ∈ out.2),
        (out.1.handleOnResponseMismatch 7).1)) = some (true, false) := by
    decide +kernel
  rw [h] at hout
  obtain ⟨hdone, -, hresponse⟩ :=
    run_empty_file (inv_new _ _) rfl (by decide) oneChunkSync.dropLast h
  have hm : (out.1.handleOnResponseMismatch 7).1 = false := (Prod.mk.inj (Option.some.inj hout)).2
  refine ⟨out, h, hdone, of_decide_eq_true (Prod.mk.inj (Option.some.inj hout)).1, ?_⟩
  rw [hresponse, hm, if_neg Bool.false_ne_true]

end Runs

end SerialSyncController

end Ionian.Sync
