import Ionian.Sync.ChunksRequest

/-!
# Sync.Serial — the loop of `SerialSyncController::transition` returns

`transition` first drops the peers whose connection or disconnection timed out, then loops over
the state of the sync: each round either returns or changes the state, and `try_find_peers`,
`try_connect` and a failed download change the peer table on the way (a found peer is added, a
found peer starts connecting, a connected peer is banned).

The loop returns after at most `40 · connected + 31` rounds, for every state, peer table, clock,
content of the location cache and draw of `random_peer` (`transition_terminates`).  The measure
(`measure`) counts the connected peers first, then the failures left before a ban, then how many
rounds the state is from a `return` with those fixed (`rank`): a round that does not return
lowers it (`loopStep_measure`).  Only a download that times out goes back to an earlier state,
and it either counts a failure or bans the peer; the other ways back to `Idle` start from a state
whose peer counts send the loop to a `return` in a few rounds.

The peer table is a map with one entry per peer (`AList`), as the `HashMap` is: a peer that
`random_peer` draws is the one whose state `update_state` then changes.  Times are in
milliseconds.  The messages sent to the network are returned in order; the `timestamp` of a
`FindFile` message and the log lines are left out.
-/

namespace Ionian.Sync

open Storage

/-! ## `SyncPeers` -/

inductive PeerState
  | found
  | connecting
  | connected
  | disconnecting
  | disconnected
deriving DecidableEq, Repr

structure PeerInfo (α : Type) where
  /-- The reported or connected address of the peer. -/
  addr : α
  state : PeerState
  /-- The time of the last change of state. -/
  since : Nat
deriving DecidableEq, Repr

/-- `SyncPeers`: the peers by id. -/
structure SyncPeers (π α : Type) where
  peers : AList fun _ : π => PeerInfo α

namespace SyncPeers

variable {π α : Type} [DecidableEq π]

def peerConnectTimeout : Nat := 5000

def peerDisconnectTimeout : Nat := 5000

def addNewPeer (s : SyncPeers π α) (peerId : π) (addr : α) (now : Nat) : SyncPeers π α × Bool :=
  if peerId ∈ s.peers then (s, false)
  else (⟨s.peers.insert peerId ⟨addr, .found, now⟩⟩, true)

/-- `update_state(peer_id, from, to)`: `None` for an unknown peer, and whether the peer was in
`from`, when it moves to `to`. -/
def updateState (s : SyncPeers π α) (peerId : π) (fromState toState : PeerState) (now : Nat) :
    SyncPeers π α × Option Bool :=
  match s.peers.lookup peerId with
  | none => (s, none)
  | some info =>
    if info.state = fromState then
      (⟨s.peers.replace peerId { info with state := toState, since := now }⟩, some true)
    else (s, some false)

def peerState (s : SyncPeers π α) (peerId : π) : Option PeerState :=
  (s.peers.lookup peerId).map (·.state)

/-- `random_peer(state)`: a peer in `state`, the one at the index `draw` among them, with its
address. -/
def randomPeer (s : SyncPeers π α) (state : PeerState) (draw : Nat) : Option (π × α) :=
  let candidates := s.peers.entries.filter fun e => e.2.state = state
  (candidates[draw % candidates.length]?).map fun e => (e.1, e.2.addr)

def count (s : SyncPeers π α) (states : List PeerState) : Nat :=
  (s.peers.entries.filter fun e => decide (e.2.state ∈ states)).length

/-- A peer that `transition` removes: its connection or disconnection timed out, or it is
disconnected. -/
def isBad (now : Nat) (info : PeerInfo α) : Bool :=
  match info.state with
  | .found | .connected => false
  | .connecting => now - info.since ≥ peerConnectTimeout
  | .disconnecting => now - info.since ≥ peerDisconnectTimeout
  | .disconnected => true

def transition (s : SyncPeers π α) (now : Nat) : SyncPeers π α :=
  let badPeers := (s.peers.entries.filter fun e => isBad now e.2).map (·.1)
  ⟨badPeers.foldl (fun peers peerId => peers.erase peerId) s.peers⟩

/-! ### Counting the peers in a state -/

omit [DecidableEq π] in
theorem count_eq_countP (s : SyncPeers π α) (states : List PeerState) :
    s.count states = s.peers.entries.countP fun e => decide (e.2.state ∈ states) :=
  List.countP_eq_length_filter.symm

/-- A state in a list of distinct states is in its head or in its tail, not both. -/
theorem ite_mem_cons {state x : PeerState} {states : List PeerState} (h : state ∉ states) :
    (if decide (x ∈ state :: states) = true then 1 else 0) =
      (if decide (x ∈ [state]) = true then 1 else 0) +
        (if decide (x ∈ states) = true then 1 else 0) := by
  by_cases hx : x = state
  · subst hx
    simp [h]
  · by_cases hs : x ∈ states <;> simp [hx, hs]

omit [DecidableEq π] in
/-- The peers in a list of distinct states are those in its head and those in its tail. -/
theorem count_cons (s : SyncPeers π α) {state : PeerState} {states : List PeerState}
    (h : state ∉ states) : s.count (state :: states) = s.count [state] + s.count states := by
  simp only [count_eq_countP]
  induction s.peers.entries with
  | nil => rfl
  | cons e rest ih =>
    rw [List.countP_cons, List.countP_cons, List.countP_cons, ih, ite_mem_cons h]
    omega

/-- A peer in a state is counted in it. -/
theorem count_pos_of_peerState {s : SyncPeers π α} {peerId : π} {state : PeerState}
    (h : s.peerState peerId = some state) : 0 < s.count [state] := by
  obtain ⟨info, hinfo, rfl⟩ := Option.map_eq_some_iff.mp h
  have hmem : (⟨peerId, info⟩ : Sigma fun _ : π => PeerInfo α) ∈ s.peers.entries :=
    AList.mem_lookup_iff.mp hinfo
  rw [count_eq_countP, List.countP_pos_iff]
  exact ⟨_, hmem, by simp⟩

/-- A new peer is counted as found. -/
theorem count_addNewPeer (s : SyncPeers π α) (peerId : π) (addr : α) (now : Nat)
    (state : PeerState) :
    (s.addNewPeer peerId addr now).1.count [state] =
      s.count [state] + if (s.addNewPeer peerId addr now).2 ∧ state = .found then 1 else 0 := by
  by_cases hmem : peerId ∈ s.peers
  · simp [addNewPeer, hmem]
  · simp only [addNewPeer, if_neg hmem, count_eq_countP, AList.entries_insert_of_notMem hmem,
      List.countP_cons, List.mem_singleton, true_and]
    by_cases hs : state = .found
    · simp [hs]
    · simp [hs, Ne.symm hs]

/-- Moving a peer from one state to another moves one count. -/
theorem countP_kreplace {l : List (Sigma fun _ : π => PeerInfo α)} (nd : l.NodupKeys)
    {peerId : π} {info : PeerInfo α} (h : ⟨peerId, info⟩ ∈ l) (info' : PeerInfo α)
    (f : PeerInfo α → Bool) :
    (l.kreplace peerId info').countP (fun e => f e.2) + (if f info then 1 else 0) =
      l.countP (fun e => f e.2) + if f info' then 1 else 0 := by
  induction l with
  | nil => simp at h
  | cons e rest ih =>
    obtain ⟨hfresh, hrest⟩ := List.nodupKeys_cons.mp nd
    by_cases hkey : peerId = e.1
    · -- the entry of the peer is the head: the tail does not hold the peer
      have he : e = ⟨peerId, info⟩ := by
        rcases List.mem_cons.mp h with h | h
        · exact h.symm
        · exact absurd (hkey ▸ List.mem_keys_of_mem h) hfresh
      subst he
      rw [List.kreplace, List.lookmap_cons_some
        (b := (⟨peerId, info'⟩ : Sigma fun _ : π => PeerInfo α)) _ _ (if_pos rfl)]
      simp only [List.countP_cons]
      split_ifs <;> omega
    · have hin : ⟨peerId, info⟩ ∈ rest := by
        rcases List.mem_cons.mp h with h | h
        · exact absurd (congrArg Sigma.fst h) hkey
        · exact h
      rw [List.kreplace, List.lookmap_cons_none _ _ (by simp [hkey])]
      simp only [List.countP_cons]
      have := ih hrest hin
      rw [List.kreplace] at this
      omega

/-- The counts after a peer moves from `info.state` to `toState`. -/
theorem count_updateState {s : SyncPeers π α} {peerId : π} {fromState : PeerState}
    (hstate : s.peerState peerId = some fromState) (toState : PeerState) (now : Nat)
    (state : PeerState) :
    (s.updateState peerId fromState toState now).1.count [state] +
        (if fromState = state then 1 else 0) =
      s.count [state] + if toState = state then 1 else 0 := by
  obtain ⟨info, hinfo, hfrom⟩ := Option.map_eq_some_iff.mp hstate
  have hmem := AList.mem_lookup_iff.mp hinfo
  have hcount := countP_kreplace s.peers.nodupKeys hmem { info with state := toState, since := now }
    fun i => decide (i.state ∈ [state])
  simp only [updateState, hinfo, hfrom, if_true, count_eq_countP, AList.replace]
  simpa [hfrom] using hcount

omit [DecidableEq π] in
/-- `random_peer` draws a peer exactly when one is in the state. -/
theorem randomPeer_isSome_iff (s : SyncPeers π α) (state : PeerState) (draw : Nat) :
    (s.randomPeer state draw).isSome ↔ 0 < s.count [state] := by
  simp only [randomPeer, Option.isSome_map, count, List.mem_singleton, isSome_getElem?]
  constructor
  · intro h
    exact lt_of_le_of_lt (Nat.zero_le _) h
  · exact Nat.mod_lt _

theorem peerState_of_randomPeer {s : SyncPeers π α} {state : PeerState} {draw : Nat}
    {peerId : π} {addr : α} (h : s.randomPeer state draw = some (peerId, addr)) :
    s.peerState peerId = some state := by
  simp only [randomPeer] at h
  obtain ⟨e, he, hpair⟩ := Option.map_eq_some_iff.mp h
  obtain ⟨hmem, hstate⟩ := List.mem_filter.mp (List.mem_of_getElem? he)
  have hid : e.1 = peerId := (Prod.mk.inj hpair).1
  subst hid
  have hlookup : s.peers.lookup e.1 = some e.2 := AList.mem_lookup_iff.mpr hmem
  simp only [peerState, hlookup, Option.map_some]
  simpa using hstate

/-- `transition` only removes peers. -/
theorem count_transition_le (s : SyncPeers π α) (now : Nat) (states : List PeerState) :
    (s.transition now).count states ≤ s.count states := by
  unfold transition count
  generalize (s.peers.entries.filter fun e => isBad now e.2).map (·.1) = badPeers
  induction badPeers generalizing s with
  | nil => exact le_rfl
  | cons p rest ih =>
    refine (ih ⟨s.peers.erase p⟩).trans ?_
    exact ((List.kerase_sublist p s.peers.entries).filter _).length_le

end SyncPeers

/-! ## `SerialSyncController` -/

inductive FailureReason
  | dBError (msg : String)
  | txReverted (txId : TxID)
deriving DecidableEq, Repr

inductive SyncState (π : Type)
  | idle
  | findingPeers (since : Nat)
  | foundPeers
  | connectingPeers
  | awaitingOutgoingConnection (since : Nat)
  | awaitingDownload
  | downloading (peerId : π) (fromChunk toChunk : Nat) (since : Nat)
  | completed
  | failed (reason : FailureReason)
deriving DecidableEq, Repr

/-- The messages the controller sends through its network context. -/
inductive SyncMessage (π α : Type)
  | dialPeer (address : α) (peerId : π)
  | sendRequest (peerId : π) (request : GetChunksRequest)
  | findFile (txId : TxID)
  | reportPeer (peerId : π) (action : PeerAction) (reason : String)
  | banPeer (peerId : π) (reason : String)

/-- The fields of `SerialSyncController` that `transition` reads or writes. -/
structure SerialSyncController (π α : Type) where
  txId : TxID
  numChunks : Nat
  nextChunk : Nat
  failures : Nat
  state : SyncState π
  peers : SyncPeers π α

/-- What the loop reads from outside the controller in its round `i`: the clock, the file's
announcements in the location cache, and the draw of `random_peer`. -/
structure Env (π α : Type) where
  clock : Nat → Nat
  announcements : Nat → List (π × α)
  draw : Nat → Nat

/-- The end of a round of the loop: `return`, or round again. -/
inductive Round (π α : Type)
  | ret (c : SerialSyncController π α) (msgs : List (SyncMessage π α))
  | again (c : SerialSyncController π α) (msgs : List (SyncMessage π α))

namespace SerialSyncController

variable {π α : Type} [DecidableEq π] (env : Env π α)

def maxChunksToRequest : Nat := 2 * 1024

def maxRequestFailures : Nat := 3

def peerRequestTimeout : Nat := 5000

def downloadTimeout : Nat := 5000

def waitOutgoingConnectionTimeout : Nat := 10000

/-- `on_peer_found`: whether the peer is new, when it is added as found. -/
def onPeerFound (peers : SyncPeers π α) (peerId : π) (addr : α) (now : Nat) :
    SyncPeers π α × Bool :=
  peers.addNewPeer peerId addr now

/-- The loop of `try_find_peers` over the announcements: `on_peer_found` for each, and whether
one of them was new so far. -/
def onPeersFound (now : Nat) : SyncPeers π α → Bool → List (π × α) → SyncPeers π α × Bool
  | peers, foundNewPeer, [] => (peers, foundNewPeer)
  | peers, foundNewPeer, (peerId, addr) :: rest =>
    let found := onPeerFound peers peerId addr now
    onPeersFound now found.1 (found.2 || foundNewPeer) rest

def tryFindPeers (i : Nat) (c : SerialSyncController π α) :
    SerialSyncController π α × List (SyncMessage π α) :=
  let now := env.clock i
  let found := onPeersFound now c.peers false (env.announcements i)
  let msgs := if !found.2 then [SyncMessage.findFile c.txId] else []
  let state := match c.state with
    | .findingPeers since => .findingPeers since
    | _ => .findingPeers now
  ({ c with peers := found.1, state }, msgs)

def tryConnect (i : Nat) (c : SerialSyncController π α) :
    SerialSyncController π α × List (SyncMessage π α) :=
  match c.peers.randomPeer .found (env.draw i) with
  | none => ({ c with state := .idle }, [])
  | some (peerId, address) =>
    ({ c with peers := (c.peers.updateState peerId .found .connecting (env.clock i)).1,
               state := .connectingPeers }, [.dialPeer address peerId])

def tryRequestNext (i : Nat) (c : SerialSyncController π α) :
    SerialSyncController π α × List (SyncMessage π α) :=
  match c.peers.randomPeer .connected (env.draw i) with
  | none => ({ c with state := .idle }, [])
  | some (peerId, _) =>
    let fromChunk := c.nextChunk
    let toChunk := min (fromChunk + maxChunksToRequest) c.numChunks
    ({ c with state := .downloading peerId fromChunk toChunk (env.clock i) },
      [.sendRequest peerId ⟨c.txId, fromChunk, toChunk⟩])

def banPeer (c : SerialSyncController π α) (peerId : π) (reason : String) (now : Nat) :
    SerialSyncController π α × List (SyncMessage π α) :=
  ({ c with peers := (c.peers.updateState peerId .connected .disconnecting now).1 },
    [.banPeer peerId reason])

def handleResponseFailure (c : SerialSyncController π α) (peerId : π) (reason : String)
    (now : Nat) : SerialSyncController π α × List (SyncMessage π α) :=
  let report := SyncMessage.reportPeer peerId .lowToleranceError reason
  let failures := c.failures + 1
  if failures ≤ maxRequestFailures then ({ c with failures, state := .awaitingDownload }, [report])
  else
    let banned := banPeer { c with failures } peerId reason now
    ({ banned.1 with state := .idle }, report :: banned.2)

/-- One round of the loop of `transition`. -/
def loopStep (i : Nat) (c : SerialSyncController π α) : Round π α :=
  let now := env.clock i
  match c.state with
  | .idle =>
    if c.peers.count [.found, .connecting, .connected] > 0 then
      .again { c with state := .findingPeers now } []
    else
      let r := tryFindPeers env i c
      .again r.1 r.2
  | .findingPeers since =>
    if c.peers.count [.found, .connecting, .connected] > 0 then
      .again { c with state := .foundPeers } []
    else if now - since ≥ peerRequestTimeout then
      -- the file may not have been announced yet: ask again
      let r := tryFindPeers env i c
      .ret r.1 r.2
    else .ret c []
  | .foundPeers =>
    if c.peers.count [.connecting, .connected] > 0 then
      .again { c with state := .connectingPeers } []
    else
      let r := tryConnect env i c
      .again r.1 r.2
  | .connectingPeers =>
    if c.peers.count [.connected] > 0 then .again { c with state := .awaitingDownload } []
    else if c.peers.count [.connecting] = 0 then .again { c with state := .idle } []
    else .ret c []
  | .awaitingOutgoingConnection since =>
    if now - since < waitOutgoingConnectionTimeout then .ret c []
    else .again { c with state := .idle } []
  | .awaitingDownload =>
    let r := tryRequestNext env i c
    .again r.1 r.2
  | .downloading peerId _ _ since =>
    if c.peers.peerState peerId ≠ some .connected then .again { c with state := .idle } []
    else if now - since ≥ downloadTimeout then
      let r := handleResponseFailure c peerId "RPC timeout" now
      .again r.1 r.2
    else .ret c []
  | .completed | .failed _ => .ret c []

/-- The loop of `transition` from round `i`, with the messages sent so far; `none` when `fuel`
rounds do not reach a `return`. -/
def transitionLoop : Nat → Nat → SerialSyncController π α → List (SyncMessage π α) →
    Option (SerialSyncController π α × List (SyncMessage π α))
  | 0, _, _, _ => none
  | fuel + 1, i, c, msgs =>
    match loopStep env i c with
    | .ret c' m => some (c', msgs ++ m)
    | .again c' m => transitionLoop fuel (i + 1) c' (msgs ++ m)

/-- `transition`: `SyncPeers::transition`, then the loop, for at most `fuel` rounds. -/
def transition (fuel : Nat) (c : SerialSyncController π α) :
    Option (SerialSyncController π α × List (SyncMessage π α)) :=
  transitionLoop env fuel 0 { c with peers := c.peers.transition (env.clock 0) } []

/-! ### What each helper of the loop does to the peers and the state -/

theorem count_onPeersFound (now : Nat) {state : PeerState} (h : state ≠ .found)
    (announcements : List (π × α)) :
    ∀ peers foundNewPeer,
      (onPeersFound now peers foundNewPeer announcements).1.count [state] = peers.count [state] := by
  induction announcements with
  | nil => intro peers foundNewPeer; rfl
  | cons a rest ih =>
    intro peers foundNewPeer
    obtain ⟨peerId, addr⟩ := a
    rw [onPeersFound, ih, onPeerFound, SyncPeers.count_addNewPeer]
    simp [h]

/-- `try_find_peers` adds found peers only, keeps the failures, and leaves the loop searching. -/
theorem tryFindPeers_spec (i : Nat) (c : SerialSyncController π α) :
    (tryFindPeers env i c).1.failures = c.failures ∧
      (∃ since, (tryFindPeers env i c).1.state = .findingPeers since) ∧
      ∀ state, state ≠ .found →
        (tryFindPeers env i c).1.peers.count [state] = c.peers.count [state] := by
  refine ⟨rfl, ?_, fun state h => count_onPeersFound _ h _ _ _⟩
  -- a search under way keeps its start
  simp only [tryFindPeers]
  split
  · exact ⟨_, rfl⟩
  · exact ⟨_, rfl⟩

/-- `try_connect` either finds no found peer and goes idle, or starts to connect one. -/
theorem tryConnect_spec (i : Nat) (c : SerialSyncController π α) :
    (tryConnect env i c).1.failures = c.failures ∧
      ((tryConnect env i c).1.state = .idle ∧ (tryConnect env i c).1.peers = c.peers ∧
          c.peers.count [.found] = 0 ∨
        (tryConnect env i c).1.state = .connectingPeers ∧
          (tryConnect env i c).1.peers.count [.connecting] = c.peers.count [.connecting] + 1 ∧
          (tryConnect env i c).1.peers.count [.connected] = c.peers.count [.connected]) := by
  cases hr : c.peers.randomPeer .found (env.draw i) with
  | none =>
    have hfound : c.peers.count [.found] = 0 := by
      have := (SyncPeers.randomPeer_isSome_iff c.peers .found (env.draw i)).not.mp (by simp [hr])
      omega
    rw [tryConnect, hr]
    exact ⟨rfl, .inl ⟨rfl, rfl, hfound⟩⟩
  | some drawn =>
    obtain ⟨peerId, address⟩ := drawn
    have hstate := SyncPeers.peerState_of_randomPeer hr
    have hconnecting := SyncPeers.count_updateState hstate .connecting (env.clock i) .connecting
    have hconnected := SyncPeers.count_updateState hstate .connecting (env.clock i) .connected
    rw [tryConnect, hr]
    refine ⟨rfl, .inr ⟨rfl, ?_, ?_⟩⟩
    · simpa using hconnecting
    · simpa using hconnected

/-- `try_request_next` keeps the peers, and either finds no connected peer and goes idle, or
downloads from a connected one. -/
theorem tryRequestNext_spec (i : Nat) (c : SerialSyncController π α) :
    (tryRequestNext env i c).1.failures = c.failures ∧
      (tryRequestNext env i c).1.peers = c.peers ∧
      ((tryRequestNext env i c).1.state = .idle ∧ c.peers.count [.connected] = 0 ∨
        ∃ peerId fromChunk toChunk since,
          (tryRequestNext env i c).1.state = .downloading peerId fromChunk toChunk since ∧
            c.peers.peerState peerId = some .connected) := by
  cases hr : c.peers.randomPeer .connected (env.draw i) with
  | none =>
    have hconnected : c.peers.count [.connected] = 0 := by
      have := (SyncPeers.randomPeer_isSome_iff c.peers .connected (env.draw i)).not.mp
        (by simp [hr])
      omega
    rw [tryRequestNext, hr]
    exact ⟨rfl, rfl, .inl ⟨rfl, hconnected⟩⟩
  | some drawn =>
    obtain ⟨peerId, address⟩ := drawn
    rw [tryRequestNext, hr]
    exact ⟨rfl, rfl, .inr ⟨_, _, _, _, rfl, SyncPeers.peerState_of_randomPeer hr⟩⟩

/-- A failed download of a connected peer counts a failure, and past the limit bans the peer. -/
theorem handleResponseFailure_spec (c : SerialSyncController π α) (peerId : π) (reason : String)
    (now : Nat) (hconn : c.peers.peerState peerId = some .connected) :
    (handleResponseFailure c peerId reason now).1.failures = c.failures + 1 ∧
      (c.failures + 1 ≤ maxRequestFailures ∧
          (handleResponseFailure c peerId reason now).1.state = .awaitingDownload ∧
          (handleResponseFailure c peerId reason now).1.peers = c.peers ∨
        maxRequestFailures < c.failures + 1 ∧
          (handleResponseFailure c peerId reason now).1.state = .idle ∧
          (handleResponseFailure c peerId reason now).1.peers.count [.connected] + 1 =
            c.peers.count [.connected]) := by
  by_cases hle : c.failures + 1 ≤ maxRequestFailures
  · rw [handleResponseFailure, if_pos hle]
    exact ⟨rfl, .inl ⟨hle, rfl, rfl⟩⟩
  · have hban := SyncPeers.count_updateState hconn .disconnecting now .connected
    rw [handleResponseFailure, if_neg hle]
    refine ⟨rfl, .inr ⟨Nat.lt_of_not_le hle, rfl, ?_⟩⟩
    simpa [banPeer] using hban

/-! ### The measure -/

omit [DecidableEq π] in
theorem count_connecting_connected (s : SyncPeers π α) :
    s.count [.connecting, .connected] = s.count [.connecting] + s.count [.connected] :=
  SyncPeers.count_cons s (by decide)

omit [DecidableEq π] in
theorem count_found_connecting_connected (s : SyncPeers π α) :
    s.count [.found, .connecting, .connected] =
      s.count [.found] + s.count [.connecting] + s.count [.connected] := by
  rw [SyncPeers.count_cons s (by decide), count_connecting_connected, Nat.add_assoc]

/-- How many rounds the state is from a `return`, or from a round that changes the connected
peers or the failures: each round that goes on lowers it, with the peer counts it reads. -/
def rank (c : SerialSyncController π α) : Nat :=
  let found := c.peers.count [.found]
  let connecting := c.peers.count [.connecting]
  let connected := c.peers.count [.connected]
  match c.state with
  | .idle => if 0 < connected then 5 else 3
  | .findingPeers _ => if 0 < connected then 4 else if 0 < found + connecting then 2 else 0
  | .foundPeers => if 0 < connected then 3 else if 0 < connecting + found then 1 else 4
  | .connectingPeers => if 0 < connected then 2 else if connecting = 0 then 4 else 0
  | .awaitingOutgoingConnection _ => if 0 < connected then 6 else 4
  | .awaitingDownload => if 0 < connected then 1 else 4
  | .downloading peerId _ _ _ =>
    if c.peers.peerState peerId = some .connected then 0 else if 0 < connected then 6 else 4
  | .completed | .failed _ => 0

/-- The measure of the loop, in lexicographic order: the connected peers, the failures left
before a ban, the rank. -/
def measure (c : SerialSyncController π α) : Nat :=
  c.peers.count [.connected] * 40 + (maxRequestFailures - c.failures) * 8 + c.rank

theorem rank_le (c : SerialSyncController π α) : c.rank ≤ 6 := by
  unfold rank
  dsimp only
  split <;> (try split_ifs) <;> omega

theorem measure_le (c : SerialSyncController π α) :
    c.measure ≤ c.peers.count [.connected] * 40 + 30 := by
  have hrank := rank_le c
  have hfail : maxRequestFailures - c.failures ≤ 3 := Nat.sub_le 3 c.failures
  unfold measure
  omega

/-- **A round that does not return lowers the measure.** -/
theorem loopStep_measure {i : Nat} {c c' : SerialSyncController π α}
    {msgs : List (SyncMessage π α)} (h : loopStep env i c = .again c' msgs) :
    c'.measure < c.measure := by
  have h3 := count_found_connecting_connected c.peers
  have h2 := count_connecting_connected c.peers
  cases hs : c.state with
  | idle =>
    simp only [loopStep, hs] at h
    split_ifs at h with hpos
    · obtain ⟨rfl, -⟩ := Round.again.inj h
      simp only [measure, rank, hs]
      split_ifs <;> omega
    · -- no peer at all: `try_find_peers` adds found peers only
      obtain ⟨rfl, -⟩ := Round.again.inj h
      obtain ⟨hfail, ⟨since, hstate⟩, hcount⟩ := tryFindPeers_spec env i c
      simp only [measure, rank, hs, hstate, hfail, hcount .connected (by decide),
        hcount .connecting (by decide)]
      split_ifs <;> omega
  | findingPeers since =>
    simp only [loopStep, hs] at h
    split_ifs at h with hpos
    · obtain ⟨rfl, -⟩ := Round.again.inj h
      simp only [measure, rank, hs]
      split_ifs <;> omega
  | foundPeers =>
    simp only [loopStep, hs] at h
    split_ifs at h with hpos
    · obtain ⟨rfl, -⟩ := Round.again.inj h
      simp only [measure, rank, hs]
      split_ifs <;> omega
    · -- no peer connects yet: `try_connect` starts one, or finds none and goes idle
      obtain ⟨rfl, -⟩ := Round.again.inj h
      obtain ⟨hfail, ⟨hstate, hpeers, hfound⟩ | ⟨hstate, hconnecting, hconnected⟩⟩ :=
        tryConnect_spec env i c
      · simp only [measure, rank, hs, hstate, hfail, hpeers]
        split_ifs <;> omega
      · simp only [measure, rank, hs, hstate, hfail]
        split_ifs <;> omega
  | connectingPeers =>
    simp only [loopStep, hs] at h
    split_ifs at h with hpos hzero
    · obtain ⟨rfl, -⟩ := Round.again.inj h
      simp only [measure, rank, hs]
      split_ifs <;> omega
    · obtain ⟨rfl, -⟩ := Round.again.inj h
      simp only [measure, rank, hs]
      split_ifs <;> omega
  | awaitingOutgoingConnection since =>
    simp only [loopStep, hs] at h
    split_ifs at h with hwait
    obtain ⟨rfl, -⟩ := Round.again.inj h
    simp only [measure, rank, hs]
    split_ifs <;> omega
  | awaitingDownload =>
    simp only [loopStep, hs] at h
    obtain ⟨rfl, -⟩ := Round.again.inj h
    obtain ⟨hfail, hpeers, ⟨hstate, hconnected⟩ | ⟨peerId, fromChunk, toChunk, since, hstate, hpeer⟩⟩ :=
      tryRequestNext_spec env i c
    · simp only [measure, rank, hs, hstate, hfail, hpeers]
      split_ifs <;> omega
    · have hpos := SyncPeers.count_pos_of_peerState hpeer
      simp only [measure, rank, hs, hstate, hfail, hpeers, hpeer]
      split_ifs <;> omega
  | downloading peerId fromChunk toChunk since =>
    simp only [loopStep, hs] at h
    split_ifs at h with hpeer htimeout
    · obtain ⟨rfl, -⟩ := Round.again.inj h
      simp only [measure, rank, hs, if_neg hpeer]
      split_ifs <;> omega
    · -- the timeout counts a failure, or bans the peer and loses a connected one
      obtain ⟨rfl, -⟩ := Round.again.inj h
      have hconn : c.peers.peerState peerId = some .connected := not_not.mp hpeer
      have hpos := SyncPeers.count_pos_of_peerState hconn
      obtain ⟨hfail, ⟨hle, hstate, hpeers⟩ | ⟨hlt, hstate, hcount⟩⟩ :=
        handleResponseFailure_spec c peerId "RPC timeout" (env.clock i) hconn
      · simp only [measure, rank, hs, hstate, hfail, hpeers, hconn]
        rw [if_pos hpos]
        omega
      · have hrank := rank_le (handleResponseFailure c peerId "RPC timeout" (env.clock i)).1
        simp only [measure, rank, hs, hfail, hconn, if_true] at hrank ⊢
        omega
  | completed => simp [loopStep, hs] at h
  | failed reason => simp [loopStep, hs] at h

/-! ### The loop returns -/

/-- With more rounds than the measure, the loop returns. -/
theorem transitionLoop_returns (fuel : Nat) :
    ∀ (i : Nat) (c : SerialSyncController π α) (msgs : List (SyncMessage π α)),
      c.measure < fuel → ∃ out, transitionLoop env fuel i c msgs = some out := by
  induction fuel with
  | zero => intro i c msgs h; exact absurd h (Nat.not_lt_zero _)
  | succ fuel ih =>
    intro i c msgs hfuel
    cases hstep : loopStep env i c with
    | ret c' m => exact ⟨(c', msgs ++ m), by rw [transitionLoop, hstep]⟩
    | again c' m =>
      -- the round lowers the measure, so the rounds left still exceed it
      have hlt := loopStep_measure env hstep
      obtain ⟨out, hout⟩ := ih (i + 1) c' (msgs ++ m) (by omega)
      exact ⟨out, by rw [transitionLoop, hstep]; exact hout⟩

/-- A loop that returns within `fuel` rounds returns the same within one more. -/
theorem transitionLoop_succ {fuel : Nat} :
    ∀ {i : Nat} {c : SerialSyncController π α} {msgs : List (SyncMessage π α)} {out},
      transitionLoop env fuel i c msgs = some out →
        transitionLoop env (fuel + 1) i c msgs = some out := by
  induction fuel with
  | zero => intro i c msgs out h; simp [transitionLoop] at h
  | succ fuel ih =>
    intro i c msgs out h
    rw [transitionLoop] at h ⊢
    cases hstep : loopStep env i c with
    | ret c' m => rw [hstep] at h; exact h
    | again c' m => rw [hstep] at h; exact ih h

theorem transitionLoop_of_le {fuel fuel' : Nat} (hle : fuel ≤ fuel') {i : Nat}
    {c : SerialSyncController π α} {msgs : List (SyncMessage π α)} {out}
    (h : transitionLoop env fuel i c msgs = some out) :
    transitionLoop env fuel' i c msgs = some out := by
  induction hle with
  | refl => exact h
  | step _ ih => exact transitionLoop_succ env ih

/-- **`transition` returns**, for every state, peer table, clock, announcements and draws: after
at most `40` rounds per connected peer and `31` more, and with the same result for every larger
bound. -/
theorem transition_terminates (c : SerialSyncController π α) :
    ∃ out, ∀ fuel, c.peers.count [.connected] * 40 + 31 ≤ fuel →
      c.transition env fuel = some out := by
  -- `SyncPeers::transition` only removes peers, so the bound holds after it too
  have hle := measure_le { c with peers := c.peers.transition (env.clock 0) }
  have hpeers := SyncPeers.count_transition_le c.peers (env.clock 0) [.connected]
  obtain ⟨out, hout⟩ := transitionLoop_returns env (c.peers.count [.connected] * 40 + 31) 0
    { c with peers := c.peers.transition (env.clock 0) } [] (by dsimp only at hle; omega)
  exact ⟨out, fun fuel hfuel => transitionLoop_of_le env hfuel hout⟩

end SerialSyncController

end Ionian.Sync
