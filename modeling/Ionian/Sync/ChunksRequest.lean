import Ionian.Storage.ChunkRead

/-!
# Sync.ChunksRequest — the answer of the sync service to a `GetChunks` request

`handle_chunks_request_with_db_err` checks the request's range, finds the transaction by its
`seq`, compares the transaction's id with the requested one, checks the range against the
transaction's chunk count and that the transaction is finalized, and then sends the chunks with
their proof.  A failed check bans or reports the peer, or sends an error response, and returns;
a database error returns `Err`, on which `on_get_chunks_request` sends a `ServerError` response.

The id check alone does not return: a reverted transaction gets its error response and the
handler goes on (`serveTx`).  So a request for a transaction of the same `seq` that was reverted
and replaced is answered twice, the second time with the chunks of the new transaction
(`onGetChunksRequest_reverted_answers_twice`).  Every other request gets at most one response
(`responses_onGetChunksRequest_of_id`), and chunks are sent only for a valid range of a
finalized transaction (`onGetChunksRequest_chunks_sent`).

The handler is modelled by the messages it sends, in order, and its `Result`.  The store is its
three reads, each of which may fail with a database error; `tx.id()` hashes the SSZ encoding of
the transaction, here the parameter `hash`.  Peer and request ids, and the chunks with their
proof, are type parameters.
-/

namespace Ionian.Sync

open Storage

structure GetChunksRequest where
  txId : TxID
  indexStart : Nat
  indexEnd : Nat
deriving DecidableEq, Repr

inductive PeerAction
  | fatal
  | lowToleranceError
  | midToleranceError
  | highToleranceError
deriving DecidableEq, Repr

inductive RPCResponseErrorCode
  | rateLimited
  | invalidRequest
  | serverError
  | resourceUnavailable
  | unknown
deriving DecidableEq, Repr

inductive ReportSource
  | gossipsub
  | rpc
  | processor
  | syncService
  | peerManager
deriving DecidableEq, Repr

/-- The `NetworkMessage`s the handler sends; a `SendResponse` carries `Response::Chunks`. -/
inductive NetworkMessage (π ρ χ : Type)
  | sendResponse (peerId : π) (id : ρ) (response : χ)
  | sendErrorResponse (peerId : π) (id : ρ) (error : RPCResponseErrorCode) (reason : String)
  | reportPeer (peerId : π) (action : PeerAction) (source : ReportSource) (msg : String)
deriving DecidableEq, Repr

namespace NetworkMessage

variable {π ρ χ : Type}

/-- A response to a request, of data or of an error. -/
def isResponse : NetworkMessage π ρ χ → Bool
  | sendResponse .. => true
  | sendErrorResponse .. => true
  | reportPeer .. => false

/-- `SyncNetworkContext::report_peer` -/
def reportPeerFrom (peerId : π) (action : PeerAction) (msg : String) : NetworkMessage π ρ χ :=
  reportPeer peerId action .syncService msg

/-- `SyncNetworkContext::ban_peer`: a report of the action `Fatal`. -/
def banPeer (peerId : π) (msg : String) : NetworkMessage π ρ χ := reportPeerFrom peerId .fatal msg

@[simp] theorem isResponse_reportPeerFrom (peerId : π) (action : PeerAction) (msg : String) :
    (reportPeerFrom peerId action msg : NetworkMessage π ρ χ).isResponse = false := rfl

@[simp] theorem isResponse_banPeer (peerId : π) (msg : String) :
    (banPeer peerId msg : NetworkMessage π ρ χ).isResponse = false := rfl

end NetworkMessage

/-- The reads of the log store the handler makes, each of which may fail. -/
structure ChunkStore (χ : Type) where
  getTxBySeqNumber : Nat → Except String (Option Transaction)
  checkTxCompleted : Nat → Except String Bool
  getChunksWithProofByTxAndIndexRange : Nat → Nat → Nat → Except String (Option χ)

open NetworkMessage

section Handler

variable {π ρ χ : Type} (store : ChunkStore χ) (hash : Transaction → H256) (peerId : π)
  (requestId : ρ) (request : GetChunksRequest)

/-- `handle_chunks_request_with_db_err` from the bound check on: what is sent for the stored
transaction `tx`. -/
def serveTx (tx : Transaction) : List (NetworkMessage π ρ χ) × Except String Unit :=
  -- ban peer if chunk index out of bound
  if request.indexEnd > bytesToChunks tx.size then
    ([banPeer peerId "Chunk index out of bound"], .ok ())
  else
    match store.checkTxCompleted request.txId.seq with
    | .error e => ([], .error e)
    | .ok false =>
      ([reportPeerFrom peerId .midToleranceError "Tx not finalized",
        sendErrorResponse peerId requestId .invalidRequest "Tx not finalized"], .ok ())
    | .ok true =>
      match store.getChunksWithProofByTxAndIndexRange request.txId.seq request.indexStart
          request.indexEnd with
      | .error e => ([], .error e)
      | .ok (some chunks) => ([sendResponse peerId requestId chunks], .ok ())
      -- file may be removed during downloading
      | .ok none => ([sendErrorResponse peerId requestId .invalidRequest "Chunks not found"], .ok ())

/-- `handle_chunks_request_with_db_err`: the messages sent, and the result. -/
def handleChunksRequestWithDbErr : List (NetworkMessage π ρ χ) × Except String Unit :=
  -- ban peer for invalid chunk index range
  if request.indexStart ≥ request.indexEnd then ([banPeer peerId "Invalid chunk indices"], .ok ())
  else
    match store.getTxBySeqNumber request.txId.seq with
    | .error e => ([], .error e)
    | .ok none => ([banPeer peerId "Tx not found"], .ok ())
    | .ok (some tx) =>
      -- Transaction may be reverted during file sync: the error is sent, and the handler goes on
      let reverted : List (NetworkMessage π ρ χ) :=
        if tx.id hash ≠ request.txId then
          [sendErrorResponse peerId requestId .invalidRequest "Tx not found (Reverted)"]
        else []
      let served := serveTx store peerId requestId request tx
      (reverted ++ served.1, served.2)

/-- `on_get_chunks_request`: a database error is answered by a `ServerError` response. -/
def onGetChunksRequest : List (NetworkMessage π ρ χ) :=
  let handled := handleChunksRequestWithDbErr store hash peerId requestId request
  match handled.2 with
  | .ok () => handled.1
  | .error _ => handled.1 ++ [sendErrorResponse peerId requestId .serverError "DB error"]

/-! ## How many responses are sent -/

variable {store hash peerId requestId request}

/-- The number of responses among the messages sent. -/
def responses (msgs : List (NetworkMessage π ρ χ)) : Nat := msgs.countP (·.isResponse)

/-- For the stored transaction, at most one response is sent, and none when a read fails. -/
theorem responses_serveTx (tx : Transaction) :
    responses (serveTx store peerId requestId request tx).1 ≤ 1 ∧
      ∀ e, (serveTx store peerId requestId request tx).2 = .error e →
        (serveTx store peerId requestId request tx).1 = [] := by
  unfold serveTx
  split_ifs
  · exact ⟨by simp [responses], fun _ h => by cases h⟩
  · -- one case per answer of the two reads
    split
    · exact ⟨by simp [responses], fun _ _ => rfl⟩
    · exact ⟨by simp [responses, reportPeerFrom, isResponse], fun _ h => by cases h⟩
    · split
      · exact ⟨by simp [responses], fun _ _ => rfl⟩
      · exact ⟨by simp [responses, isResponse], fun _ h => by cases h⟩
      · exact ⟨by simp [responses, isResponse], fun _ h => by cases h⟩

/-- `on_get_chunks_request` of a stored transaction: what `serveTx` sends, after the error of a
reverted transaction, and the `ServerError` response on a database error. -/
theorem onGetChunksRequest_of_tx {tx : Transaction} (hlt : request.indexStart < request.indexEnd)
    (htx : store.getTxBySeqNumber request.txId.seq = .ok (some tx)) :
    onGetChunksRequest store hash peerId requestId request =
      (if tx.id hash ≠ request.txId then
        [sendErrorResponse peerId requestId .invalidRequest "Tx not found (Reverted)"] else []) ++
      match (serveTx store peerId requestId request tx).2 with
      | .ok () => (serveTx store peerId requestId request tx).1
      | .error _ => (serveTx store peerId requestId request tx).1 ++
          [sendErrorResponse peerId requestId .serverError "DB error"] := by
  unfold onGetChunksRequest handleChunksRequestWithDbErr
  rw [if_neg (Nat.not_le.mpr hlt), htx]
  dsimp only
  split <;> simp_all

/-- **One answer for a transaction that was not reverted.**  When the transaction stored at the
requested `seq` (if any) has the requested id, at most one response is sent for the request. -/
theorem responses_onGetChunksRequest_of_id
    (hid : ∀ tx, store.getTxBySeqNumber request.txId.seq = .ok (some tx) →
      tx.id hash = request.txId) :
    responses (onGetChunksRequest store hash peerId requestId request) ≤ 1 := by
  by_cases hlt : request.indexStart < request.indexEnd
  · cases htx : store.getTxBySeqNumber request.txId.seq with
    | error e =>
      -- the failed read sends nothing, then the `ServerError` response
      simp [onGetChunksRequest, handleChunksRequestWithDbErr, Nat.not_le.mpr hlt, htx, responses,
        isResponse]
    | ok r =>
      cases r with
      | none =>
        simp [onGetChunksRequest, handleChunksRequestWithDbErr, Nat.not_le.mpr hlt, htx, responses]
      | some tx =>
        obtain ⟨hle, herr⟩ := @responses_serveTx _ _ _ store peerId requestId request tx
        rw [onGetChunksRequest_of_tx hlt htx, if_neg (not_not.mpr (hid tx htx)), List.nil_append]
        split
        · exact hle
        · rename_i e he
          rw [herr e he]
          simp [responses, isResponse]
  · simp [onGetChunksRequest, handleChunksRequestWithDbErr, Nat.le_of_not_lt hlt, responses]

/-- **Chunks only for a valid range of a finalized transaction.**  When chunks are sent, the range
is non-empty and within the chunks of the transaction stored at the requested `seq`, that
transaction is finalized, and the chunks are the store's for the range. -/
theorem onGetChunksRequest_chunks_sent {peer : π} {id : ρ} {chunks : χ}
    (h : sendResponse peer id chunks ∈ onGetChunksRequest store hash peerId requestId request) :
    request.indexStart < request.indexEnd ∧ ∃ tx,
      store.getTxBySeqNumber request.txId.seq = .ok (some tx) ∧
      request.indexEnd ≤ bytesToChunks tx.size ∧ store.checkTxCompleted request.txId.seq = .ok true ∧
      store.getChunksWithProofByTxAndIndexRange request.txId.seq request.indexStart request.indexEnd =
        .ok (some chunks) := by
  by_cases hlt : request.indexStart < request.indexEnd
  · refine ⟨hlt, ?_⟩
    cases htx : store.getTxBySeqNumber request.txId.seq with
    | error e =>
      simp [onGetChunksRequest, handleChunksRequestWithDbErr, Nat.not_le.mpr hlt, htx] at h
    | ok r =>
      cases r with
      | none =>
        simp [onGetChunksRequest, handleChunksRequestWithDbErr, Nat.not_le.mpr hlt, htx, banPeer,
          reportPeerFrom] at h
      | some tx =>
        rw [onGetChunksRequest_of_tx hlt htx] at h
        -- the response is none of the error responses, so it is the one `serveTx` sends
        have hserved : sendResponse peer id chunks ∈ (serveTx store peerId requestId request tx).1 := by
          rcases List.mem_append.mp h with h | h
          · split_ifs at h <;> simp at h
          · split at h
            · exact h
            · simpa using h
        refine ⟨tx, rfl, ?_⟩
        unfold serveTx at hserved
        split_ifs at hserved with hbound
        · simp [banPeer, reportPeerFrom] at hserved
        · refine ⟨Nat.le_of_not_lt hbound, ?_⟩
          split at hserved
          · simp at hserved
          · simp [reportPeerFrom] at hserved
          · rename_i hfin
            split at hserved
            · simp at hserved
            · rename_i hchunks
              simp only [List.mem_singleton, sendResponse.injEq] at hserved
              obtain ⟨-, -, rfl⟩ := hserved
              exact ⟨hfin, hchunks⟩
            · simp at hserved
  · simp [onGetChunksRequest, handleChunksRequestWithDbErr, Nat.le_of_not_lt hlt, banPeer,
      reportPeerFrom] at h

/-- A request for a transaction that was reverted and replaced by one of the same `seq`, finalized
and long enough: the handler sends the error response "Tx not found (Reverted)", then the chunks
of the new transaction. -/
theorem onGetChunksRequest_reverted_answers_twice {tx : Transaction} {chunks : χ}
    (hlt : request.indexStart < request.indexEnd)
    (htx : store.getTxBySeqNumber request.txId.seq = .ok (some tx))
    (hid : tx.id hash ≠ request.txId) (hbound : request.indexEnd ≤ bytesToChunks tx.size)
    (hfin : store.checkTxCompleted request.txId.seq = .ok true)
    (hchunks : store.getChunksWithProofByTxAndIndexRange request.txId.seq request.indexStart
      request.indexEnd = .ok (some chunks)) :
    onGetChunksRequest store hash peerId requestId request =
      [sendErrorResponse peerId requestId .invalidRequest "Tx not found (Reverted)",
        sendResponse peerId requestId chunks] := by
  have hserve : serveTx store peerId requestId request tx =
      ([sendResponse peerId requestId chunks], .ok ()) := by
    simp only [serveTx, if_neg (Nat.not_lt.mpr hbound), hfin, hchunks]
  rw [onGetChunksRequest_of_tx hlt htx, if_pos hid, hserve]
  rfl

end Handler

/-- The transaction stored at `seq` `0` has the hash `0`, and the request asks for the first
chunk of the transaction of `seq` `0` and hash `1`, the one reverted: the request is answered
twice. -/
theorem onGetChunksRequest_reverted_answers_twice_example :
    onGetChunksRequest (π := Unit) (ρ := Unit)
        ⟨fun _ => .ok (some ⟨[(1, H256.zero)], 0, 256, 0⟩), fun _ => .ok true, fun _ _ _ => .ok (some 7)⟩
        (fun _ => H256.zero) () () ⟨⟨0, Vector.replicate 32 1⟩, 0, 1⟩ =
      [sendErrorResponse () () .invalidRequest "Tx not found (Reverted)", sendResponse () () 7] :=
  onGetChunksRequest_reverted_answers_twice (by decide) rfl
    (by decide) (by decide) rfl rfl

end Ionian.Sync
