import Ionian.Kv.AListSum

/-!
# Network.PeerDB — the connection states of `PeerDB` and its two counters

`PeerDB` keeps an info per known peer and two counters beside the map: `disconnected_peers`, the
number of peers in the state `Disconnected`, and `banned_peers_count`, the number of peers in the
state `Banned` with, per IP, the number of banned peers that were seen at it.
`update_connection_state` moves one peer to a new state and updates the counters by hand, one
branch per pair of old and new state; `shrink_to_fit` (module `Network.PeerDBRun`) trusts them to
decide how many peers to drop.

A branch moves the counters in one of four ways (`Counted.leave`, `Counted.ban`,
`Counted.disconnect`, `Counted.keep`), each an instance of one accounting rule: the counters
move by the change of the peer's share (`Counted.update`).  Every branch keeps the counters exact
(`Counted.updateConnectionState`) except one: `Disconnecting` applied to a banned peer, which the
source logs as an error and then carries out without taking the peer off the banned counts
(`Counted.toDisconnecting_banned`, `Counted.updateConnectionState_iff`).

The module models a release build: the `u8` connection counts of `connect_ingoing` and
`connect_outgoing` wrap at `256`, where a debug build would panic.  The counters beside the map
use saturating arithmetic, the same in both builds, or `usize` sums, `Nat`s here.

The score of a peer, its ENR, client, listening addresses, sync status and time to live are left
out: `update_connection_state` only writes the ENR and, on a ban, the score, and no branch reads
them.  Times are `Instant`s in nanoseconds.  The map is an `AList`, one entry per peer, as the
`HashMap` is; its order stands for the map's iteration order, and nothing proved here depends on
it.
-/

namespace Ionian.Network

/-- `PeerConnectionStatus`. -/
inductive PeerConnectionStatus
  | connected (nIn nOut : UInt8)
  | disconnecting (toBan : Bool)
  | disconnected (since : Nat)
  | banned (since : Nat)
  | dialing (since : Nat)
  | unknown
deriving DecidableEq, Repr

inductive ConnectionDirection
  | incoming
  | outgoing
deriving DecidableEq, Repr

/-- The protocols of a `Multiaddr` as `update_connection_state` reads them: an IP, of version 4
or 6, a TCP port, or any other protocol. -/
inductive MultiaddrProtocol (ι : Type)
  | ip (addr : ι)
  | tcp (port : Nat)
  | other
deriving DecidableEq, Repr

/-- The fields of `PeerInfo` that the connection states read and write. -/
structure PeerInfo (ι : Type) where
  connectionStatus : PeerConnectionStatus
  /-- `seen_addresses`, the socket addresses (IP and port) the peer was seen at. -/
  seenAddresses : List (ι × Nat)
  connectionDirection : Option ConnectionDirection
deriving DecidableEq, Repr

namespace PeerInfo

variable {ι : Type}

/-- `PeerInfo::default()`; `trusted_peer_info()` differs from it only in the score and the trust
flag. -/
def default : PeerInfo ι := ⟨.unknown, [], none⟩

def seenIpAddresses (info : PeerInfo ι) : List ι := info.seenAddresses.map Prod.fst

def setConnectionStatus (info : PeerInfo ι) (connectionStatus : PeerConnectionStatus) :
    PeerInfo ι :=
  { info with connectionStatus }

def isDisconnected (info : PeerInfo ι) : Bool :=
  match info.connectionStatus with
  | .disconnected _ => true
  | _ => false

def isBanned (info : PeerInfo ι) : Bool :=
  match info.connectionStatus with
  | .banned _ => true
  | _ => false

def isDialing (info : PeerInfo ι) : Bool :=
  match info.connectionStatus with
  | .dialing _ => true
  | _ => false

theorem isBanned_eq_true {info : PeerInfo ι} :
    info.isBanned = true ↔ ∃ since, info.connectionStatus = .banned since := by
  unfold isBanned
  split <;> simp_all

/-- `set_dialing_peer`: the info after the call, and the call's result; a peer that is connected,
dialing or disconnecting is left as it is, with an error. -/
def setDialingPeer (info : PeerInfo ι) (now : Nat) : PeerInfo ι × Except String Unit :=
  match info.connectionStatus with
  | .connected _ _ => (info, .error "Dialing connected peer")
  | .dialing _ => (info, .error "Dialing an already dialing peer")
  | .disconnecting _ => (info, .error "Dialing a disconnecting peer")
  | .disconnected _ | .banned _ | .unknown => (info.setConnectionStatus (.dialing now), .ok ())

/-- After `set_dialing_peer` the peer is dialing, or was left connected, dialing or
disconnecting. -/
theorem isDisconnected_setDialingPeer (info : PeerInfo ι) (now : Nat) :
    (info.setDialingPeer now).1.isDisconnected = false := by
  unfold setDialingPeer isDisconnected
  cases h : info.connectionStatus <;> simp [setConnectionStatus, h]

theorem isBanned_setDialingPeer (info : PeerInfo ι) (now : Nat) :
    (info.setDialingPeer now).1.isBanned = false := by
  unfold setDialingPeer isBanned
  cases h : info.connectionStatus <;> simp [setConnectionStatus, h]

@[simp] theorem seenAddresses_setConnectionStatus (info : PeerInfo ι) (s : PeerConnectionStatus) :
    (info.setConnectionStatus s).seenAddresses = info.seenAddresses := rfl

@[simp] theorem connectionStatus_setConnectionStatus (info : PeerInfo ι)
    (s : PeerConnectionStatus) : (info.setConnectionStatus s).connectionStatus = s := rfl

variable [DecidableEq ι]

/-- Adds a seen socket address, as the `HashSet` insert does. -/
def insertSeenAddress (info : PeerInfo ι) : Option (ι × Nat) → PeerInfo ι
  | some socketAddr => { info with seenAddresses := info.seenAddresses.insert socketAddr }
  | none => info

/-- `connect_ingoing`; the connection counts are `u8`s and wrap as the release build's do. -/
def connectIngoing (info : PeerInfo ι) (seenAddress : Option (ι × Nat)) : PeerInfo ι :=
  let info := match info.connectionStatus with
    | .connected nIn nOut => info.setConnectionStatus (.connected (nIn + 1) nOut)
    | _ => { info with connectionStatus := .connected 1 0, connectionDirection := some .incoming }
  info.insertSeenAddress seenAddress

/-- `connect_outgoing`. -/
def connectOutgoing (info : PeerInfo ι) (seenAddress : Option (ι × Nat)) : PeerInfo ι :=
  let info := match info.connectionStatus with
    | .connected nIn nOut => info.setConnectionStatus (.connected nIn (nOut + 1))
    | _ => { info with connectionStatus := .connected 0 1, connectionDirection := some .outgoing }
  info.insertSeenAddress seenAddress

/-- The connection of `update_connection_state`'s `Connected` branch, by its direction. -/
def connect (info : PeerInfo ι) : ConnectionDirection → Option (ι × Nat) → PeerInfo ι
  | .incoming => info.connectIngoing
  | .outgoing => info.connectOutgoing

@[simp] theorem connectionStatus_insertSeenAddress (info : PeerInfo ι) (a : Option (ι × Nat)) :
    (info.insertSeenAddress a).connectionStatus = info.connectionStatus := by
  cases a <;> rfl

theorem connectIngoing_connected (info : PeerInfo ι) (a : Option (ι × Nat)) :
    ∃ nIn nOut, (info.connectIngoing a).connectionStatus = .connected nIn nOut := by
  unfold connectIngoing
  cases info.connectionStatus <;> simp

theorem connectOutgoing_connected (info : PeerInfo ι) (a : Option (ι × Nat)) :
    ∃ nIn nOut, (info.connectOutgoing a).connectionStatus = .connected nIn nOut := by
  unfold connectOutgoing
  cases info.connectionStatus <;> simp

theorem connect_connected (info : PeerInfo ι) (direction : ConnectionDirection)
    (a : Option (ι × Nat)) :
    ∃ nIn nOut, (info.connect direction a).connectionStatus = .connected nIn nOut := by
  cases direction
  · exact info.connectIngoing_connected a
  · exact info.connectOutgoing_connected a

theorem isDisconnected_connect (info : PeerInfo ι) (direction : ConnectionDirection)
    (a : Option (ι × Nat)) : (info.connect direction a).isDisconnected = false := by
  obtain ⟨nIn, nOut, hc⟩ := info.connect_connected direction a
  simp [isDisconnected, hc]

theorem isBanned_connect (info : PeerInfo ι) (direction : ConnectionDirection)
    (a : Option (ι × Nat)) : (info.connect direction a).isBanned = false := by
  obtain ⟨nIn, nOut, hc⟩ := info.connect_connected direction a
  simp [isBanned, hc]

end PeerInfo

/-- `BannedPeersCount`. -/
structure BannedPeersCount (ι : Type) where
  bannedPeers : Nat
  /-- `banned_peers_per_ip`; an IP the map lacks reads as `0` wherever the source reads it. -/
  bannedPeersPerIp : ι → Nat

namespace BannedPeersCount

variable {ι : Type} [DecidableEq ι]

/-- `BANNED_PEERS_PER_IP_THRESHOLD`. -/
def bannedPeersPerIpThreshold : Nat := 5

/-- `BannedPeersCount::default()`. -/
def default : BannedPeersCount ι := ⟨0, fun _ => 0⟩

/-- `remove_banned_peer`: both counts go down by saturating subtraction, once per address. -/
def removeBannedPeer (c : BannedPeersCount ι) (ipAddresses : List ι) : BannedPeersCount ι :=
  ⟨c.bannedPeers - 1,
    ipAddresses.foldl (fun m a => Function.update m a (m a - 1)) c.bannedPeersPerIp⟩

/-- `add_banned_peer`. -/
def addBannedPeer (c : BannedPeersCount ι) (ipAddresses : List ι) : BannedPeersCount ι :=
  ⟨c.bannedPeers + 1,
    ipAddresses.foldl (fun m a => Function.update m a (m a + 1)) c.bannedPeersPerIp⟩

/-- `ip_is_banned`: more than `BANNED_PEERS_PER_IP_THRESHOLD` banned peers were seen at it. -/
def ipIsBanned (c : BannedPeersCount ι) (ip : ι) : Bool :=
  decide (bannedPeersPerIpThreshold < c.bannedPeersPerIp ip)

theorem foldl_update_sub (ips : List ι) (m : ι → Nat) (ip : ι) :
    ips.foldl (fun m a => Function.update m a (m a - 1)) m ip = m ip - ips.count ip := by
  induction ips generalizing m with
  | nil => simp
  | cons a rest ih =>
    rw [List.foldl_cons, ih, List.count_cons]
    by_cases h : ip = a
    · subst h
      simp only [Function.update_self, beq_self_eq_true, if_true]
      omega
    · simp [Function.update_of_ne h, Ne.symm h]

theorem foldl_update_add (ips : List ι) (m : ι → Nat) (ip : ι) :
    ips.foldl (fun m a => Function.update m a (m a + 1)) m ip = m ip + ips.count ip := by
  induction ips generalizing m with
  | nil => simp
  | cons a rest ih =>
    rw [List.foldl_cons, ih, List.count_cons]
    by_cases h : ip = a
    · subst h
      simp only [Function.update_self, beq_self_eq_true, if_true]
      omega
    · simp [Function.update_of_ne h, Ne.symm h]

@[simp] theorem bannedPeers_removeBannedPeer (c : BannedPeersCount ι) (ips : List ι) :
    (c.removeBannedPeer ips).bannedPeers = c.bannedPeers - 1 := rfl

@[simp] theorem bannedPeers_addBannedPeer (c : BannedPeersCount ι) (ips : List ι) :
    (c.addBannedPeer ips).bannedPeers = c.bannedPeers + 1 := rfl

@[simp] theorem bannedPeersPerIp_removeBannedPeer (c : BannedPeersCount ι) (ips : List ι)
    (ip : ι) : (c.removeBannedPeer ips).bannedPeersPerIp ip = c.bannedPeersPerIp ip - ips.count ip :=
  foldl_update_sub ips _ ip

@[simp] theorem bannedPeersPerIp_addBannedPeer (c : BannedPeersCount ι) (ips : List ι) (ip : ι) :
    (c.addBannedPeer ips).bannedPeersPerIp ip = c.bannedPeersPerIp ip + ips.count ip :=
  foldl_update_add ips _ ip

end BannedPeersCount

/-- `NewConnectionState`; the ENRs it carries are left out. -/
inductive NewConnectionState (ι : Type)
  | connected (seenAddress : List (MultiaddrProtocol ι)) (direction : ConnectionDirection)
  | disconnecting (toBan : Bool)
  | dialing
  | disconnected
  | banned
  | unbanned
deriving DecidableEq, Repr

/-- `BanOperation`. -/
inductive BanOperation (ι : Type)
  | disconnectThePeer
  | readyToBan (bannedIps : List ι)
  | peerDisconnecting
deriving DecidableEq, Repr

/-- The socket address of a connection: its last IP and its last TCP port, when it has both. -/
def seenSocketAddr {ι : Type} (seenAddress : List (MultiaddrProtocol ι)) : Option (ι × Nat) :=
  let found := seenAddress.foldl (fun (acc : Option ι × Option Nat) protocol =>
    match protocol with
    | .ip addr => (some addr, acc.2)
    | .tcp port => (acc.1, some port)
    | .other => acc) (none, none)
  match found with
  | (some ip, some port) => some (ip, port)
  | _ => none

/-- `PeerDB`. -/
structure PeerDB (π ι : Type) where
  peers : AList fun _ : π => PeerInfo ι
  disconnectedPeers : Nat
  bannedPeersCount : BannedPeersCount ι

namespace PeerDB

variable {π ι : Type} [DecidableEq π]

/-- `PeerDB::new(trusted_peers)`. -/
def new (trustedPeers : List π) : PeerDB π ι :=
  ⟨trustedPeers.foldl (fun m peerId => m.insert peerId .default) ∅, 0, .default⟩

/-- The info of a peer in `peers.entry(peer_id).or_insert_with(PeerInfo::default)`. -/
def entry (db : PeerDB π ι) (peerId : π) : PeerInfo ι := (db.peers.lookup peerId).getD .default

def setInfo (db : PeerDB π ι) (peerId : π) (info : PeerInfo ι) : PeerDB π ι :=
  { db with peers := db.peers.insert peerId info }

@[simp] theorem peers_setInfo (db : PeerDB π ι) (peerId : π) (info : PeerInfo ι) :
    (db.setInfo peerId info).peers = db.peers.insert peerId info := rfl

@[simp] theorem disconnectedPeers_setInfo (db : PeerDB π ι) (peerId : π) (info : PeerInfo ι) :
    (db.setInfo peerId info).disconnectedPeers = db.disconnectedPeers := rfl

@[simp] theorem bannedPeersCount_setInfo (db : PeerDB π ι) (peerId : π) (info : PeerInfo ι) :
    (db.setInfo peerId info).bannedPeersCount = db.bannedPeersCount := rfl

@[simp] theorem entry_setInfo (db : PeerDB π ι) (peerId : π) (info : PeerInfo ι) :
    (db.setInfo peerId info).entry peerId = info := by
  simp [entry, setInfo]

/-! ### A peer's share of each counter -/

/-- A peer's share of `disconnected_peers`. -/
def disconnectedWeight (info : PeerInfo ι) : Nat := if info.isDisconnected then 1 else 0

/-- A peer's share of `banned_peers`. -/
def bannedWeight (info : PeerInfo ι) : Nat := if info.isBanned then 1 else 0

section Weights

variable {f : PeerInfo ι → Nat}

/-- Writing the entry of a peer replaces its share of a sum, whether the map had the peer or
not, for a share that the default info does not have. -/
theorem sumBy_insert_entry (hf : f .default = 0) (db : PeerDB π ι) (peerId : π)
    (info : PeerInfo ι) :
    Kv.sumBy f (db.peers.insert peerId info) + f (db.entry peerId) =
      Kv.sumBy f db.peers + f info := by
  rw [Kv.sumBy_insert]
  cases hl : db.peers.lookup peerId with
  | none =>
    have hentry : db.entry peerId = .default := by simp [entry, hl]
    rw [hentry, hf, Kv.sumBy_erase_of_lookup_eq_none hl]
    omega
  | some b =>
    have hentry : db.entry peerId = b := by simp [entry, hl]
    have := Kv.sumBy_erase_add (f := f) hl
    rw [hentry]
    omega

theorem weight_entry_le (hf : f .default = 0) (db : PeerDB π ι) (peerId : π) :
    f (db.entry peerId) ≤ Kv.sumBy f db.peers := by
  cases hl : db.peers.lookup peerId with
  | none => simp [entry, hl, hf]
  | some b =>
    have hentry : db.entry peerId = b := by simp [entry, hl]
    exact hentry ▸ Kv.le_sumBy hl

end Weights

@[simp] theorem disconnectedWeight_default : disconnectedWeight (.default : PeerInfo ι) = 0 := rfl

@[simp] theorem bannedWeight_default : bannedWeight (.default : PeerInfo ι) = 0 := rfl

variable [DecidableEq ι]

/-- The IPs of a peer that `ReadyToBan` reports: those its seen addresses have and that are
banned, `known_banned_ips` being `banned_ips()`. -/
def bannedIpsOf (c : BannedPeersCount ι) (info : PeerInfo ι) : List ι :=
  info.seenIpAddresses.filter c.ipIsBanned

/-! ### `update_connection_state`, one definition per new state -/

/-- The branch of `update_connection_state` for `Connected`. -/
def toConnected (db : PeerDB π ι) (peerId : π) (info : PeerInfo ι)
    (seenAddress : List (MultiaddrProtocol ι)) (direction : ConnectionDirection) :
    PeerDB π ι × Option (BanOperation ι) :=
  let db := match info.connectionStatus with
    | .disconnected _ => { db with disconnectedPeers := db.disconnectedPeers - 1 }
    | .banned _ =>
      { db with bannedPeersCount := db.bannedPeersCount.removeBannedPeer info.seenIpAddresses }
    | _ => db
  (db.setInfo peerId (info.connect direction (seenSocketAddr seenAddress)), none)

/-- The branch for `Dialing`; the error of a refused `set_dialing_peer` is logged. -/
def toDialing (db : PeerDB π ι) (peerId : π) (info : PeerInfo ι) (now : Nat) :
    PeerDB π ι × Option (BanOperation ι) :=
  let db := match info.connectionStatus with
    | .banned _ =>
      { db with bannedPeersCount := db.bannedPeersCount.removeBannedPeer info.seenIpAddresses }
    | .disconnected _ => { db with disconnectedPeers := db.disconnectedPeers - 1 }
    | _ => db
  (db.setInfo peerId (info.setDialingPeer now).1, none)

/-- The branch for `Disconnected`: a peer disconnecting to be banned is banned now. -/
def toDisconnected (db : PeerDB π ι) (peerId : π) (info : PeerInfo ι) (now : Nat) :
    PeerDB π ι × Option (BanOperation ι) :=
  match info.connectionStatus with
  | .banned _ | .disconnected _ => (db.setInfo peerId info, none)
  | .disconnecting true =>
    let info := info.setConnectionStatus (.banned now)
    let c := db.bannedPeersCount.addBannedPeer info.seenIpAddresses
    ({ db.setInfo peerId info with bannedPeersCount := c }, some (.readyToBan (bannedIpsOf c info)))
  | _ =>
    ({ db.setInfo peerId (info.setConnectionStatus (.disconnected now)) with
        disconnectedPeers := db.disconnectedPeers + 1 }, none)

/-- The branch for `Disconnecting`. -/
def toDisconnecting (db : PeerDB π ι) (peerId : π) (info : PeerInfo ι) (toBan : Bool) :
    PeerDB π ι × Option (BanOperation ι) :=
  match info.connectionStatus with
  -- logged as an error, and carried out with the banned count left as it is
  | .banned _ => (db.setInfo peerId (info.setConnectionStatus (.disconnecting toBan)), none)
  | .disconnected _ =>
    ({ db.setInfo peerId (info.setConnectionStatus (.disconnecting toBan)) with
        disconnectedPeers := db.disconnectedPeers - 1 }, none)
  | _ => (db.setInfo peerId (info.setConnectionStatus (.disconnecting toBan)), none)

/-- The branch for `Banned`; the score's `Fatal` action before it is left out. -/
def toBanned (db : PeerDB π ι) (peerId : π) (info : PeerInfo ι) (now : Nat) :
    PeerDB π ι × Option (BanOperation ι) :=
  match info.connectionStatus with
  | .disconnected _ =>
    let info := info.setConnectionStatus (.banned now)
    let c := db.bannedPeersCount.addBannedPeer info.seenIpAddresses
    ({ db.setInfo peerId info with
        bannedPeersCount := c, disconnectedPeers := db.disconnectedPeers - 1 },
      some (.readyToBan (bannedIpsOf c info)))
  | .disconnecting _ =>
    (db.setInfo peerId (info.setConnectionStatus (.disconnecting true)), some .peerDisconnecting)
  | .banned _ => (db.setInfo peerId info, some (.readyToBan (bannedIpsOf db.bannedPeersCount info)))
  | .connected _ _ | .dialing _ =>
    (db.setInfo peerId (info.setConnectionStatus (.disconnecting true)), some .disconnectThePeer)
  | .unknown =>
    let c := db.bannedPeersCount.addBannedPeer info.seenIpAddresses
    let info := info.setConnectionStatus (.banned now)
    ({ db.setInfo peerId info with bannedPeersCount := c }, some (.readyToBan (bannedIpsOf c info)))

/-- The branch for `Unbanned`: only a banned peer changes, back to disconnected at its ban time. -/
def toUnbanned (db : PeerDB π ι) (peerId : π) (info : PeerInfo ι) :
    PeerDB π ι × Option (BanOperation ι) :=
  match info.connectionStatus with
  | .banned since =>
    ({ db.setInfo peerId (info.setConnectionStatus (.disconnected since)) with
        bannedPeersCount := db.bannedPeersCount.removeBannedPeer info.seenIpAddresses,
        disconnectedPeers := db.disconnectedPeers + 1 }, none)
  | _ => (db.setInfo peerId info, none)

/-- `update_connection_state(peer_id, new_state)`, at the time `now`. -/
def updateConnectionState (db : PeerDB π ι) (peerId : π) (newState : NewConnectionState ι)
    (now : Nat) : PeerDB π ι × Option (BanOperation ι) :=
  let info := db.entry peerId
  match newState with
  | .connected seenAddress direction => db.toConnected peerId info seenAddress direction
  | .dialing => db.toDialing peerId info now
  | .disconnected => db.toDisconnected peerId info now
  | .disconnecting toBan => db.toDisconnecting peerId info toBan
  | .banned => db.toBanned peerId info now
  | .unbanned => db.toUnbanned peerId info

/-! ### The counters are exact -/

/-- A peer's share of the banned count of `ip`: the times it was seen at `ip`, when banned. -/
def bannedIpWeight (ip : ι) (info : PeerInfo ι) : Nat :=
  if info.isBanned then info.seenIpAddresses.count ip else 0

/-- The counters beside the map count what the map holds. -/
structure Counted (db : PeerDB π ι) : Prop where
  disconnected : db.disconnectedPeers = Kv.sumBy disconnectedWeight db.peers
  banned : db.bannedPeersCount.bannedPeers = Kv.sumBy bannedWeight db.peers
  perIp : ∀ ip, db.bannedPeersCount.bannedPeersPerIp ip = Kv.sumBy (bannedIpWeight ip) db.peers

@[simp] theorem bannedIpWeight_default (ip : ι) : bannedIpWeight ip (.default : PeerInfo ι) = 0 :=
  rfl

variable {db : PeerDB π ι} {peerId : π} {info : PeerInfo ι}

theorem Counted.entry_le (h : db.Counted) (hentry : db.entry peerId = info) :
    disconnectedWeight info ≤ db.disconnectedPeers ∧
      bannedWeight info ≤ db.bannedPeersCount.bannedPeers ∧
      ∀ ip, bannedIpWeight ip info ≤ db.bannedPeersCount.bannedPeersPerIp ip := by
  subst hentry
  refine ⟨?_, ?_, fun ip => ?_⟩
  · rw [h.disconnected]
    exact weight_entry_le disconnectedWeight_default db peerId
  · rw [h.banned]
    exact weight_entry_le bannedWeight_default db peerId
  · rw [h.perIp ip]
    exact weight_entry_le (bannedIpWeight_default ip) db peerId

/-- The accounting rule every branch follows: the entry of one peer is rewritten, and each
counter moves by the change of that peer's share. -/
theorem Counted.update {db' : PeerDB π ι} {info' : PeerInfo ι} (h : db.Counted)
    (hentry : db.entry peerId = info) (hpeers : db'.peers = db.peers.insert peerId info')
    (hd : db'.disconnectedPeers + disconnectedWeight info =
      db.disconnectedPeers + disconnectedWeight info')
    (hb : db'.bannedPeersCount.bannedPeers + bannedWeight info =
      db.bannedPeersCount.bannedPeers + bannedWeight info')
    (hip : ∀ ip, db'.bannedPeersCount.bannedPeersPerIp ip + bannedIpWeight ip info =
      db.bannedPeersCount.bannedPeersPerIp ip + bannedIpWeight ip info') :
    db'.Counted := by
  subst hentry
  constructor
  · have := sumBy_insert_entry disconnectedWeight_default db peerId info'
    have := h.disconnected
    rw [hpeers]
    omega
  · have := sumBy_insert_entry bannedWeight_default db peerId info'
    have := h.banned
    rw [hpeers]
    omega
  · intro ip
    have := sumBy_insert_entry (bannedIpWeight_default ip) db peerId info'
    have := h.perIp ip
    have := hip ip
    rw [hpeers]
    omega

/-- The accounting rule of a peer dropped from the map: each counter loses the peer's share. -/
theorem Counted.erase {db' : PeerDB π ι} (h : db.Counted) (hl : db.peers.lookup peerId = some info)
    (hpeers : db'.peers = db.peers.erase peerId)
    (hd : db'.disconnectedPeers + disconnectedWeight info = db.disconnectedPeers)
    (hb : db'.bannedPeersCount.bannedPeers + bannedWeight info = db.bannedPeersCount.bannedPeers)
    (hip : ∀ ip, db'.bannedPeersCount.bannedPeersPerIp ip + bannedIpWeight ip info =
      db.bannedPeersCount.bannedPeersPerIp ip) :
    db'.Counted := by
  constructor
  · have := Kv.sumBy_erase_add (f := disconnectedWeight) hl
    have := h.disconnected
    rw [hpeers]
    omega
  · have := Kv.sumBy_erase_add (f := bannedWeight) hl
    have := h.banned
    rw [hpeers]
    omega
  · intro ip
    have := Kv.sumBy_erase_add (f := bannedIpWeight ip) hl
    have := h.perIp ip
    have := hip ip
    rw [hpeers]
    omega

theorem shares_of_banned {since : Nat} (hs : info.connectionStatus = .banned since) :
    disconnectedWeight info = 0 ∧ bannedWeight info = 1 ∧
      ∀ ip, bannedIpWeight ip info = info.seenIpAddresses.count ip := by
  simp [disconnectedWeight, bannedWeight, bannedIpWeight, PeerInfo.isDisconnected,
    PeerInfo.isBanned, hs]

theorem shares_of_disconnected {since : Nat} (hs : info.connectionStatus = .disconnected since) :
    disconnectedWeight info = 1 ∧ bannedWeight info = 0 ∧ ∀ ip, bannedIpWeight ip info = 0 := by
  simp [disconnectedWeight, bannedWeight, bannedIpWeight, PeerInfo.isDisconnected,
    PeerInfo.isBanned, hs]

/-! ### The four ways a branch moves the counters -/

/-- A peer moved to a state of neither count leaves the count of its old state. -/
theorem Counted.leave {db' : PeerDB π ι} {info' : PeerInfo ι} (h : db.Counted)
    (hentry : db.entry peerId = info) (hpeers : db'.peers = db.peers.insert peerId info')
    (hd' : info'.isDisconnected = false) (hb' : info'.isBanned = false)
    (hd : db'.disconnectedPeers =
      if info.isDisconnected then db.disconnectedPeers - 1 else db.disconnectedPeers)
    (hc : db'.bannedPeersCount =
      if info.isBanned then db.bannedPeersCount.removeBannedPeer info.seenIpAddresses
      else db.bannedPeersCount) :
    db'.Counted := by
  obtain ⟨hle₁, hle₂, hle₃⟩ := h.entry_le hentry
  refine h.update hentry hpeers ?_ ?_ fun ip => ?_
  · have := hle₁
    rw [hd]
    unfold disconnectedWeight at this ⊢
    cases hx : info.isDisconnected <;> simp [hx, hd'] at this ⊢
    omega
  · have := hle₂
    rw [hc]
    unfold bannedWeight at this ⊢
    cases hx : info.isBanned <;> simp [hx, hb'] at this ⊢
    omega
  · have := hle₃ ip
    rw [hc]
    unfold bannedIpWeight at this ⊢
    cases hx : info.isBanned <;> simp [hx, hb'] at this ⊢
    omega

/-- A peer that was not banned is banned: it leaves the disconnected count, if it was in it, and
enters the banned counts with the addresses it was seen at. -/
theorem Counted.ban {db' : PeerDB π ι} {info' : PeerInfo ι} {since : Nat} (h : db.Counted)
    (hentry : db.entry peerId = info) (hpeers : db'.peers = db.peers.insert peerId info')
    (hb : info.isBanned = false) (hs' : info'.connectionStatus = .banned since)
    (hseen : info'.seenAddresses = info.seenAddresses)
    (hd : db'.disconnectedPeers =
      if info.isDisconnected then db.disconnectedPeers - 1 else db.disconnectedPeers)
    (hc : db'.bannedPeersCount = db.bannedPeersCount.addBannedPeer info.seenIpAddresses) :
    db'.Counted := by
  obtain ⟨hle₁, -, -⟩ := h.entry_le hentry
  have hd' : info'.isDisconnected = false := by simp [PeerInfo.isDisconnected, hs']
  have hb' : info'.isBanned = true := by simp [PeerInfo.isBanned, hs']
  have hips : info'.seenIpAddresses = info.seenIpAddresses := by
    simp [PeerInfo.seenIpAddresses, hseen]
  refine h.update hentry hpeers ?_ ?_ fun ip => ?_
  · rw [hd]
    unfold disconnectedWeight at hle₁ ⊢
    cases hx : info.isDisconnected <;> simp [hx, hd'] at hle₁ ⊢
    omega
  · simp [hc, bannedWeight, hb, hb']
  · simp [hc, bannedIpWeight, hb, hb', hips]

/-- A peer that was not disconnected is disconnected: it enters the disconnected count and
leaves the banned counts, if it was in them. -/
theorem Counted.disconnect {db' : PeerDB π ι} {info' : PeerInfo ι} {since : Nat}
    (h : db.Counted) (hentry : db.entry peerId = info)
    (hpeers : db'.peers = db.peers.insert peerId info') (hd : info.isDisconnected = false)
    (hs' : info'.connectionStatus = .disconnected since)
    (hdc : db'.disconnectedPeers = db.disconnectedPeers + 1)
    (hc : db'.bannedPeersCount =
      if info.isBanned then db.bannedPeersCount.removeBannedPeer info.seenIpAddresses
      else db.bannedPeersCount) :
    db'.Counted := by
  obtain ⟨-, hle₂, hle₃⟩ := h.entry_le hentry
  have hd' : info'.isDisconnected = true := by simp [PeerInfo.isDisconnected, hs']
  have hb' : info'.isBanned = false := by simp [PeerInfo.isBanned, hs']
  refine h.update hentry hpeers ?_ ?_ fun ip => ?_
  · simp [hdc, disconnectedWeight, hd, hd']
  · have := hle₂
    rw [hc]
    unfold bannedWeight at this ⊢
    cases hx : info.isBanned <;> simp [hx, hb'] at this ⊢
    omega
  · have := hle₃ ip
    rw [hc]
    unfold bannedIpWeight at this ⊢
    cases hx : info.isBanned <;> simp [hx, hb'] at this ⊢
    omega

/-- A peer whose info is written back as it was. -/
theorem Counted.keep {db' : PeerDB π ι} (h : db.Counted) (hentry : db.entry peerId = info)
    (hpeers : db'.peers = db.peers.insert peerId info)
    (hd : db'.disconnectedPeers = db.disconnectedPeers)
    (hc : db'.bannedPeersCount = db.bannedPeersCount) : db'.Counted :=
  h.update hentry hpeers (by rw [hd]) (by rw [hc]) fun ip => by rw [hc]

/-! ### Each branch keeps the counters exact -/

theorem Counted.toConnected (h : db.Counted) (hentry : db.entry peerId = info)
    (seenAddress : List (MultiaddrProtocol ι)) (direction : ConnectionDirection) :
    (db.toConnected peerId info seenAddress direction).1.Counted := by
  unfold PeerDB.toConnected
  cases hs : info.connectionStatus <;>
    exact h.leave hentry rfl (info.isDisconnected_connect _ _) (info.isBanned_connect _ _)
      (by simp [PeerInfo.isDisconnected, hs]) (by simp [PeerInfo.isBanned, hs])

theorem Counted.toDialing (h : db.Counted) (hentry : db.entry peerId = info) (now : Nat) :
    (db.toDialing peerId info now).1.Counted := by
  unfold PeerDB.toDialing
  cases hs : info.connectionStatus <;>
    exact h.leave hentry rfl (info.isDisconnected_setDialingPeer now)
      (info.isBanned_setDialingPeer now) (by simp [PeerInfo.isDisconnected, hs]) (by simp [PeerInfo.isBanned, hs])

theorem Counted.toDisconnected (h : db.Counted) (hentry : db.entry peerId = info) (now : Nat) :
    (db.toDisconnected peerId info now).1.Counted := by
  unfold PeerDB.toDisconnected
  cases hs : info.connectionStatus with
  | banned _ | disconnected _ => exact h.keep hentry rfl rfl rfl
  | disconnecting toBan =>
    cases toBan
    · exact h.disconnect hentry rfl (by simp [PeerInfo.isDisconnected, hs]) rfl rfl
        (by simp [PeerInfo.isBanned, hs])
    · -- the peer was disconnecting to be banned
      exact h.ban hentry rfl (by simp [PeerInfo.isBanned, hs]) rfl rfl
        (by simp [PeerInfo.isDisconnected, hs]) rfl
  | connected _ _ | dialing _ | unknown =>
    exact h.disconnect hentry rfl (by simp [PeerInfo.isDisconnected, hs]) rfl rfl
      (by simp [PeerInfo.isBanned, hs])

theorem Counted.toDisconnecting (h : db.Counted) (hentry : db.entry peerId = info)
    (hb : info.isBanned = false) (toBan : Bool) :
    (db.toDisconnecting peerId info toBan).1.Counted := by
  unfold PeerDB.toDisconnecting
  cases hs : info.connectionStatus with
  | banned _ => simp [PeerInfo.isBanned, hs] at hb
  | disconnected _ | connected _ _ | disconnecting _ | dialing _ | unknown =>
    exact h.leave hentry rfl rfl rfl (by simp [PeerInfo.isDisconnected, hs])
      (by simp [PeerInfo.isBanned, hs])

theorem Counted.toBanned (h : db.Counted) (hentry : db.entry peerId = info) (now : Nat) :
    (db.toBanned peerId info now).1.Counted := by
  unfold PeerDB.toBanned
  cases hs : info.connectionStatus with
  | disconnected _ | unknown =>
    exact h.ban hentry rfl (by simp [PeerInfo.isBanned, hs]) rfl rfl
      (by simp [PeerInfo.isDisconnected, hs]) rfl
  | banned _ => exact h.keep hentry rfl rfl rfl
  | disconnecting _ | connected _ _ | dialing _ =>
    exact h.leave hentry rfl rfl rfl (by simp [PeerInfo.isDisconnected, hs])
      (by simp [PeerInfo.isBanned, hs])

theorem Counted.toUnbanned (h : db.Counted) (hentry : db.entry peerId = info) :
    (db.toUnbanned peerId info).1.Counted := by
  unfold PeerDB.toUnbanned
  cases hs : info.connectionStatus with
  | banned _ =>
    exact h.disconnect hentry rfl (by simp [PeerInfo.isDisconnected, hs]) rfl rfl
      (by simp [PeerInfo.isBanned, hs])
  | disconnected _ | connected _ _ | disconnecting _ | dialing _ | unknown =>
    exact h.keep hentry rfl rfl rfl

/-- `update_connection_state` keeps the counters exact, unless it is asked to disconnect a banned
peer. -/
theorem Counted.updateConnectionState (h : db.Counted) (newState : NewConnectionState ι)
    (now : Nat) (hban : (db.entry peerId).isBanned = true → ∀ toBan, newState ≠ .disconnecting toBan) :
    (db.updateConnectionState peerId newState now).1.Counted := by
  cases newState with
  | connected seenAddress direction => exact h.toConnected rfl seenAddress direction
  | dialing => exact h.toDialing rfl now
  | disconnected => exact h.toDisconnected rfl now
  | disconnecting toBan =>
    refine h.toDisconnecting rfl ?_ toBan
    cases hb : (db.entry peerId).isBanned
    · rfl
    · exact absurd rfl (hban hb toBan)
  | banned => exact h.toBanned rfl now
  | unbanned => exact h.toUnbanned rfl

/-- Disconnecting a banned peer leaves it in the banned counts: the peer is no longer banned,
but `banned_peers` still counts it, and every IP it was seen at still counts it once per
address. -/
theorem Counted.toDisconnecting_banned {since : Nat} (h : db.Counted)
    (hentry : db.entry peerId = info) (hs : info.connectionStatus = .banned since) (toBan : Bool) :
    let db' := (db.toDisconnecting peerId info toBan).1
    (db'.entry peerId).connectionStatus = .disconnecting toBan ∧
    db'.disconnectedPeers = Kv.sumBy disconnectedWeight db'.peers ∧
      db'.bannedPeersCount.bannedPeers = Kv.sumBy bannedWeight db'.peers + 1 ∧
      ∀ ip, db'.bannedPeersCount.bannedPeersPerIp ip =
        Kv.sumBy (bannedIpWeight ip) db'.peers + info.seenIpAddresses.count ip := by
  set info' := info.setConnectionStatus (.disconnecting toBan)
  have hdb : (db.toDisconnecting peerId info toBan).1 = db.setInfo peerId info' := by
    simp [PeerDB.toDisconnecting, hs, info']
  have hb' : info'.isBanned = false := rfl
  have hd' : info'.isDisconnected = false := rfl
  obtain ⟨o₁, o₂, o₃⟩ := shares_of_banned hs
  have n₁ : disconnectedWeight info' = 0 := by simp [disconnectedWeight, hd']
  have n₂ : bannedWeight info' = 0 := by simp [bannedWeight, hb']
  have n₃ (ip : ι) : bannedIpWeight ip info' = 0 := by simp [bannedIpWeight, hb']
  subst hentry
  simp only [hdb, peers_setInfo, disconnectedPeers_setInfo, bannedPeersCount_setInfo]
  refine ⟨by rw [entry_setInfo]; rfl, ?_, ?_, fun ip => ?_⟩
  · have := sumBy_insert_entry disconnectedWeight_default db peerId info'
    rw [o₁, n₁, ← h.disconnected] at this
    omega
  · have := sumBy_insert_entry bannedWeight_default db peerId info'
    rw [o₂, n₂, ← h.banned] at this
    omega
  · have := sumBy_insert_entry (bannedIpWeight_default ip) db peerId info'
    rw [o₃, n₃, ← h.perIp ip] at this
    omega

omit [DecidableEq ι] in
theorem entries_new_default (trustedPeers : List π) :
    ∀ e ∈ (new trustedPeers : PeerDB π ι).peers.entries, e.2 = .default := by
  suffices ∀ (m : AList fun _ : π => PeerInfo ι), (∀ e ∈ m.entries, e.2 = .default) →
      ∀ e ∈ (trustedPeers.foldl (fun m peerId => m.insert peerId .default) m).entries,
        e.2 = .default from this ∅ (by simp)
  induction trustedPeers with
  | nil => exact fun m hm => hm
  | cons peerId rest ih =>
    intro m hm
    refine ih _ fun e he => ?_
    rw [AList.entries_insert, List.mem_cons] at he
    rcases he with rfl | he
    · rfl
    · exact hm e ((List.kerase_sublist _ _).subset he)

/-- A new database, of trusted peers only, counts nothing. -/
theorem counted_new (trustedPeers : List π) : (new trustedPeers : PeerDB π ι).Counted where
  disconnected := (Kv.sumBy_eq_zero fun e he => by
    rw [entries_new_default trustedPeers e he]; rfl).symm
  banned := (Kv.sumBy_eq_zero fun e he => by
    rw [entries_new_default trustedPeers e he]; rfl).symm
  perIp ip := (Kv.sumBy_eq_zero fun e he => by
    rw [entries_new_default trustedPeers e he]; rfl).symm

/-- **Exactly one request breaks the counters: disconnecting a banned peer.**  That request
leaves the peer `Disconnecting`, no longer banned, but still in `banned_peers` and in the banned
count of every IP it was seen at, once per address. -/
theorem Counted.updateConnectionState_iff (h : db.Counted) (newState : NewConnectionState ι)
    (now : Nat) :
    ((db.updateConnectionState peerId newState now).1.Counted ↔
        ¬((db.entry peerId).isBanned = true ∧ ∃ toBan, newState = .disconnecting toBan)) ∧
      ∀ toBan, (db.entry peerId).isBanned = true → newState = .disconnecting toBan →
        let db' := (db.updateConnectionState peerId newState now).1
        (db'.entry peerId).connectionStatus = .disconnecting toBan ∧
          db'.disconnectedPeers = Kv.sumBy disconnectedWeight db'.peers ∧
          db'.bannedPeersCount.bannedPeers = Kv.sumBy bannedWeight db'.peers + 1 ∧
          ∀ ip, db'.bannedPeersCount.bannedPeersPerIp ip =
            Kv.sumBy (bannedIpWeight ip) db'.peers + (db.entry peerId).seenIpAddresses.count ip := by
  refine ⟨⟨?_, fun hne => ?_⟩, ?_⟩
  · -- the banned count is one above the banned peers of the map
    rintro hc ⟨hb, toBan, rfl⟩
    obtain ⟨since, hs⟩ := PeerInfo.isBanned_eq_true.mp hb
    obtain ⟨-, -, hdrift, -⟩ := h.toDisconnecting_banned rfl hs toBan
    have hexact := hc.banned
    simp only [PeerDB.updateConnectionState] at hexact
    omega
  · exact h.updateConnectionState newState now fun hb toBan heq => hne ⟨hb, toBan, heq⟩
  · rintro toBan hb rfl
    obtain ⟨since, hs⟩ := PeerInfo.isBanned_eq_true.mp hb
    exact h.toDisconnecting_banned rfl hs toBan

/-- A peer first seen banned, then told to disconnect. -/
theorem updateConnectionState_iff_banned :
    let db := ((new [] : PeerDB Nat Nat).updateConnectionState 1 .banned 0).1
    let newState : NewConnectionState Nat := .disconnecting false
    db.Counted ∧
      ((db.updateConnectionState 1 newState 1).1.Counted ↔
          ¬((db.entry 1).isBanned = true ∧ ∃ toBan, newState = .disconnecting toBan)) ∧
        ∀ toBan, (db.entry 1).isBanned = true → newState = .disconnecting toBan →
          let db' := (db.updateConnectionState 1 newState 1).1
          (db'.entry 1).connectionStatus = .disconnecting toBan ∧
            db'.disconnectedPeers = Kv.sumBy disconnectedWeight db'.peers ∧
            db'.bannedPeersCount.bannedPeers = Kv.sumBy bannedWeight db'.peers + 1 ∧
            ∀ ip, db'.bannedPeersCount.bannedPeersPerIp ip =
              Kv.sumBy (bannedIpWeight ip) db'.peers + (db.entry 1).seenIpAddresses.count ip := by
  intro db newState
  have h : db.Counted := (counted_new []).updateConnectionState .banned 0 fun _ _ => by simp
  exact ⟨h, h.updateConnectionState_iff newState 1⟩

/-! ### Only the peer's own entry changes -/

/-- Every branch writes the entry of the peer and no other. -/
theorem updateConnectionState_peers (db : PeerDB π ι) (peerId : π) (newState : NewConnectionState ι)
    (now : Nat) : ∃ info', (db.updateConnectionState peerId newState now).1.peers =
      db.peers.insert peerId info' := by
  cases newState <;>
    simp only [PeerDB.updateConnectionState, PeerDB.toConnected, PeerDB.toDialing,
      PeerDB.toDisconnected, PeerDB.toDisconnecting, PeerDB.toBanned, PeerDB.toUnbanned] <;>
    split <;> exact ⟨_, rfl⟩

theorem lookup_updateConnectionState_ne (db : PeerDB π ι) {peerId q : π} (hq : q ≠ peerId)
    (newState : NewConnectionState ι) (now : Nat) :
    (db.updateConnectionState peerId newState now).1.peers.lookup q = db.peers.lookup q := by
  obtain ⟨info', h⟩ := db.updateConnectionState_peers peerId newState now
  rw [h, AList.lookup_insert_ne hq]

end PeerDB

end Ionian.Network
