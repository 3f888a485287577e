import Ionian.Network.PeerDB

/-!
# Network.PeerDBRun — `shrink_to_fit`, the peer manager's calls, and whole runs

`inject_disconnect` disconnects a peer and then `shrink_to_fit` drops peers while the counters
say that more than `MAX_BANNED_PEERS` are banned or more than `MAX_DC_PEERS` are disconnected,
the oldest first.  Both loops trust the counters: with exact counters each round finds a peer to
drop, the loops end below the limits (`Counted.shrinkToFit_bounds`), and the peers dropped are the
banned and disconnected peers that were in their state longest (`shrinkToFit_dropped`).

The peer manager changes the database only through `dialing_peer`, `connect_ingoing`,
`connect_outgoing`, `inject_disconnect`, `notify_disconnecting`, `cleanup_dialing_peers` and the
bans and unbans that the scores decide (`PeerDBEvent`).  Which peers the scores ban or unban is
not modelled: every peer can be banned or unbanned at every step.  Over every run of these calls
in which no banned peer is told to disconnect, the counters stay exact (`run_new_counted`).

The build is the release build of `Network.PeerDB`.
-/

namespace Ionian.Network

namespace PeerDB

variable {π ι : Type} [DecidableEq π] [DecidableEq ι]

/-- `MAX_DC_PEERS`. -/
def maxDcPeers : Nat := 500

/-- `MAX_BANNED_PEERS`. -/
def maxBannedPeers : Nat := 1000

/-- `DIAL_TIMEOUT`, 15 seconds, in nanoseconds. -/
def dialTimeout : Nat := 15 * 1000000000

/-- The time a status gives when it is `Banned`. -/
def bannedSince : PeerConnectionStatus → Option Nat
  | .banned since => some since
  | _ => none

/-- The time a status gives when it is `Disconnected`. -/
def disconnectedSince : PeerConnectionStatus → Option Nat
  | .disconnected since => some since
  | _ => none

/-- The entries whose status `sel` gives a time, with that time. -/
def timedEntries (sel : PeerConnectionStatus → Option Nat)
    (entries : List (Sigma fun _ : π => PeerInfo ι)) : List ((π × PeerInfo ι) × Nat) :=
  entries.filterMap fun e => (sel e.2.connectionStatus).map fun since => ((e.1, e.2), since)

/-- The banned peer with the earliest ban, the first such in the map's order
(`min_by_key(since)`). -/
def oldestBanned (db : PeerDB π ι) : Option (π × PeerInfo ι) :=
  ((timedEntries bannedSince db.peers.entries).argmin Prod.snd).map Prod.fst

/-- The disconnected peer disconnected earliest. -/
def oldestDisconnected (db : PeerDB π ι) : Option π :=
  ((timedEntries disconnectedSince (db.peers.entries.filter fun e => e.2.isDisconnected)).argmin
    Prod.snd).map fun e => e.1.1

/-- The first loop of `shrink_to_fit`, for at most `fuel` rounds: while more than
`MAX_BANNED_PEERS` peers are counted as banned, drop the one banned earliest and note it with
its IPs that are no longer banned; with no banned peer to drop, reset the counts. -/
def shrinkBanned :
    Nat → PeerDB π ι → List (π × List ι) → PeerDB π ι × List (π × List ι)
  | 0, db, unbannedPeers => (db, unbannedPeers)
  | fuel + 1, db, unbannedPeers =>
    if maxBannedPeers < db.bannedPeersCount.bannedPeers then
      match db.oldestBanned with
      | some (toDrop, info) =>
        let c := db.bannedPeersCount.removeBannedPeer info.seenIpAddresses
        let unbannedIps := info.seenIpAddresses.filter fun ip => !c.ipIsBanned ip
        shrinkBanned fuel { db with peers := db.peers.erase toDrop, bannedPeersCount := c }
          (unbannedPeers ++ [(toDrop, unbannedIps)])
      | none => shrinkBanned fuel { db with bannedPeersCount := .default } unbannedPeers
    else (db, unbannedPeers)

/-- The second loop of `shrink_to_fit`, for at most `fuel` rounds: while more than
`MAX_DC_PEERS` peers are counted as disconnected, drop the one disconnected earliest; the count
goes down by one in every round, a peer found or not. -/
def shrinkDisconnected : Nat → PeerDB π ι → PeerDB π ι
  | 0, db => db
  | fuel + 1, db =>
    if maxDcPeers < db.disconnectedPeers then
      let db := match db.oldestDisconnected with
        | some toDrop => { db with peers := db.peers.erase toDrop }
        | none => db
      shrinkDisconnected fuel { db with disconnectedPeers := db.disconnectedPeers - 1 }
    else db

/-- `shrink_to_fit`: each loop runs for as many rounds as its counter, which every round lowers
(`shrinkBanned_le`, `shrinkDisconnected_le`). -/
def shrinkToFit (db : PeerDB π ι) : PeerDB π ι × List (π × List ι) :=
  let banned := shrinkBanned db.bannedPeersCount.bannedPeers db []
  (shrinkDisconnected banned.1.disconnectedPeers banned.1, banned.2)

/-- `inject_disconnect`: the ban operation of the disconnection, and the peers `shrink_to_fit`
unbanned, with their IPs that are no longer banned. -/
def injectDisconnect (db : PeerDB π ι) (peerId : π) (now : Nat) :
    PeerDB π ι × Option (BanOperation ι) × List (π × List ι) :=
  let disconnected := db.updateConnectionState peerId .disconnected now
  let shrunk := disconnected.1.shrinkToFit
  (shrunk.1, disconnected.2, shrunk.2)

/-- The `peers_to_disconnect` of `cleanup_dialing_peers`: the peers dialing for longer than
`DIAL_TIMEOUT`. -/
def peersToDisconnect (db : PeerDB π ι) (now : Nat) : List π :=
  db.peers.entries.filterMap fun e =>
    match e.2.connectionStatus with
    | .dialing since => if since + dialTimeout < now then some e.1 else none
    | _ => none

/-- `cleanup_dialing_peers`: the peers dialing for longer than `DIAL_TIMEOUT` are disconnected,
one after the other. -/
def cleanupDialingPeers (db : PeerDB π ι) (now : Nat) : PeerDB π ι :=
  (db.peersToDisconnect now).foldl
    (fun db peerId => (db.updateConnectionState peerId .disconnected now).1) db

end PeerDB

/-- The calls through which the peer manager changes the database: `dialing_peer`,
`connect_ingoing`, `connect_outgoing`, `inject_disconnect`, `notify_disconnecting`,
`cleanup_dialing_peers`, and `update_connection_state` with `Banned` or `Unbanned` as
`report_peer`, `update_scores` and `update_gossipsub_scores` make it. -/
inductive PeerDBEvent (π ι : Type)
  | dialingPeer (peerId : π)
  | connectIngoing (peerId : π) (seenAddress : List (MultiaddrProtocol ι))
  | connectOutgoing (peerId : π) (seenAddress : List (MultiaddrProtocol ι))
  | injectDisconnect (peerId : π)
  | notifyDisconnecting (peerId : π) (toBan : Bool)
  | ban (peerId : π)
  | unban (peerId : π)
  | cleanupDialingPeers
deriving DecidableEq, Repr

/-- What the database hands back to the peer manager. -/
inductive PeerDBOutput (π ι : Type)
  | banOperation (peerId : π) (banOperation : BanOperation ι)
  | unbanned (peerId : π) (unbannedIps : List ι)
deriving DecidableEq, Repr

namespace PeerDB

variable {π ι : Type} [DecidableEq π] [DecidableEq ι]

/-- The ban operation of a call, as an output. -/
def banOutput (peerId : π) : Option (BanOperation ι) → List (PeerDBOutput π ι)
  | some op => [.banOperation peerId op]
  | none => []

/-- One call at the time `now`. -/
def step (db : PeerDB π ι) (now : Nat) : PeerDBEvent π ι → PeerDB π ι × List (PeerDBOutput π ι)
  | .dialingPeer peerId => ((db.updateConnectionState peerId .dialing now).1, [])
  | .connectIngoing peerId seenAddress =>
    ((db.updateConnectionState peerId (.connected seenAddress .incoming) now).1, [])
  | .connectOutgoing peerId seenAddress =>
    ((db.updateConnectionState peerId (.connected seenAddress .outgoing) now).1, [])
  | .injectDisconnect peerId =>
    let r := db.injectDisconnect peerId now
    (r.1, banOutput peerId r.2.1 ++ r.2.2.map fun p => .unbanned p.1 p.2)
  | .notifyDisconnecting peerId toBan =>
    ((db.updateConnectionState peerId (.disconnecting toBan) now).1, [])
  | .ban peerId =>
    let r := db.updateConnectionState peerId .banned now
    (r.1, banOutput peerId r.2)
  | .unban peerId => ((db.updateConnectionState peerId .unbanned now).1, [])
  | .cleanupDialingPeers => (db.cleanupDialingPeers now, [])

/-- A run of timed calls, with its outputs in order. -/
def run (db : PeerDB π ι) : List (Nat × PeerDBEvent π ι) → PeerDB π ι × List (PeerDBOutput π ι)
  | [] => (db, [])
  | (now, e) :: rest =>
    let first := db.step now e
    let after := first.1.run rest
    (after.1, first.2 ++ after.2)

/-! ### The peer each round of `shrink_to_fit` drops -/

section Oldest

variable {sel : PeerConnectionStatus → Option Nat} {entries : List (Sigma fun _ : π => PeerInfo ι)}

omit [DecidableEq π] [DecidableEq ι] in
theorem mem_timedEntries {x : (π × PeerInfo ι) × Nat} :
    x ∈ timedEntries sel entries ↔
      (⟨x.1.1, x.1.2⟩ : Sigma fun _ : π => PeerInfo ι) ∈ entries ∧
        sel x.1.2.connectionStatus = some x.2 := by
  obtain ⟨⟨p, info⟩, since⟩ := x
  simp only [timedEntries, List.mem_filterMap, Option.map_eq_some_iff, Prod.mk.injEq]
  constructor
  · rintro ⟨e, he, t, ht, ⟨rfl, rfl⟩, rfl⟩
    exact ⟨he, ht⟩
  · rintro ⟨he, ht⟩
    exact ⟨_, he, since, ht, ⟨rfl, rfl⟩, rfl⟩

omit [DecidableEq π] [DecidableEq ι] in
/-- The entry `min_by_key` picks has a time, and no timed entry has an earlier one. -/
theorem argmin_timedEntries {p : π} {info : PeerInfo ι} {since : Nat}
    (h : (timedEntries sel entries).argmin Prod.snd = some ((p, info), since)) :
    (⟨p, info⟩ : Sigma fun _ : π => PeerInfo ι) ∈ entries ∧ sel info.connectionStatus = some since ∧
      ∀ e ∈ entries, ∀ t, sel e.2.connectionStatus = some t → since ≤ t := by
  obtain ⟨he, hs⟩ := mem_timedEntries.mp (List.argmin_mem h)
  refine ⟨he, hs, fun e he' t ht => ?_⟩
  have hmem : ((e.1, e.2), t) ∈ timedEntries sel entries := mem_timedEntries.mpr ⟨he', ht⟩
  exact List.le_of_mem_argmin hmem h

omit [DecidableEq π] [DecidableEq ι] in
theorem argmin_timedEntries_eq_none (h : (timedEntries sel entries).argmin Prod.snd = none) :
    ∀ e ∈ entries, sel e.2.connectionStatus = none := by
  intro e he
  rw [List.argmin_eq_none, timedEntries, List.filterMap_eq_nil_iff] at h
  simpa using h e he

end Oldest

variable {db : PeerDB π ι}

omit [DecidableEq ι] in
theorem lookup_of_lookup_erase {s : AList fun _ : π => PeerInfo ι} {p q : π} {info : PeerInfo ι}
    (h : (s.erase p).lookup q = some info) : s.lookup q = some info := by
  by_cases hq : q = p
  · subst hq
    rw [AList.lookup_erase] at h
    cases h
  · rwa [AList.lookup_erase_ne hq] at h

omit [DecidableEq ι] in
theorem oldestBanned_eq_some {toDrop : π} {info : PeerInfo ι}
    (h : db.oldestBanned = some (toDrop, info)) :
    db.peers.lookup toDrop = some info ∧ ∃ since, info.connectionStatus = .banned since ∧
      ∀ q qi t, db.peers.lookup q = some qi → qi.connectionStatus = .banned t → since ≤ t := by
  obtain ⟨⟨⟨p, pi⟩, since⟩, hmin, hx⟩ := Option.map_eq_some_iff.mp h
  cases hx
  obtain ⟨he, hs, hle⟩ := argmin_timedEntries hmin
  refine ⟨AList.mem_lookup_iff.mpr he, since, ?_, fun q qi t hq hqs => ?_⟩
  · unfold bannedSince at hs
    split at hs
    · cases hs
      assumption
    · cases hs
  · exact hle ⟨q, qi⟩ (AList.mem_lookup_iff.mp hq) t (by simp [bannedSince, hqs])

omit [DecidableEq π] [DecidableEq ι] in
theorem oldestBanned_eq_none (h : db.oldestBanned = none) :
    ∀ e ∈ db.peers.entries, e.2.isBanned = false := by
  intro e he
  have := argmin_timedEntries_eq_none (Option.map_eq_none_iff.mp h) e he
  unfold PeerInfo.isBanned
  unfold bannedSince at this
  split <;> simp_all

omit [DecidableEq ι] in
theorem oldestDisconnected_eq_some {toDrop : π} (h : db.oldestDisconnected = some toDrop) :
    ∃ info since, db.peers.lookup toDrop = some info ∧
      info.connectionStatus = .disconnected since ∧
      ∀ q qi t, db.peers.lookup q = some qi → qi.connectionStatus = .disconnected t → since ≤ t := by
  obtain ⟨⟨⟨p, pi⟩, since⟩, hmin, hx⟩ := Option.map_eq_some_iff.mp h
  cases hx
  obtain ⟨he, hs, hle⟩ := argmin_timedEntries hmin
  refine ⟨pi, since, AList.mem_lookup_iff.mpr (List.mem_filter.mp he).1, ?_,
    fun q qi t hq hqs => ?_⟩
  · unfold disconnectedSince at hs
    split at hs
    · cases hs
      assumption
    · cases hs
  · refine hle ⟨q, qi⟩ (List.mem_filter.mpr ⟨AList.mem_lookup_iff.mp hq, ?_⟩) t
      (by simp [disconnectedSince, hqs])
    simp [PeerInfo.isDisconnected, hqs]

omit [DecidableEq π] [DecidableEq ι] in
theorem oldestDisconnected_eq_none (h : db.oldestDisconnected = none) :
    ∀ e ∈ db.peers.entries, e.2.isDisconnected = false := by
  intro e he
  by_contra hd
  have hd : e.2.isDisconnected = true := by simpa using hd
  have := argmin_timedEntries_eq_none (Option.map_eq_none_iff.mp h) e (List.mem_filter.mpr ⟨he, hd⟩)
  unfold PeerInfo.isDisconnected at hd
  unfold disconnectedSince at this
  split at hd <;> simp_all

/-! ### `shrink_to_fit` keeps the counters exact and ends below the limits -/

omit [DecidableEq π] [DecidableEq ι] in
theorem sumBy_eq_zero_of_oldestBanned_eq_none (h : db.oldestBanned = none) (f : PeerInfo ι → Nat)
    (hf : ∀ info : PeerInfo ι, info.isBanned = false → f info = 0) : Kv.sumBy f db.peers = 0 :=
  Kv.sumBy_eq_zero fun e he => hf e.2 (oldestBanned_eq_none h e he)

omit [DecidableEq π] in
/-- With no banned peer in the map, the counts of `BannedPeersCount::default()` are exact. -/
theorem Counted.resetBanned (h : db.Counted) (hnone : db.oldestBanned = none) :
    Counted { db with bannedPeersCount := .default } where
  disconnected := h.disconnected
  banned := (sumBy_eq_zero_of_oldestBanned_eq_none hnone bannedWeight fun info hb => by
    simp [bannedWeight, hb]).symm
  perIp ip := (sumBy_eq_zero_of_oldestBanned_eq_none hnone (bannedIpWeight ip) fun info hb => by
    simp [bannedIpWeight, hb]).symm

theorem Counted.dropBanned {toDrop : π} {info : PeerInfo ι} (h : db.Counted)
    (ho : db.oldestBanned = some (toDrop, info)) :
    Counted { db with
      peers := db.peers.erase toDrop
      bannedPeersCount := db.bannedPeersCount.removeBannedPeer info.seenIpAddresses } := by
  obtain ⟨hl, since, hs, -⟩ := oldestBanned_eq_some ho
  obtain ⟨o₁, o₂, o₃⟩ := shares_of_banned hs
  have hle₂ := h.banned ▸ Kv.le_sumBy (f := bannedWeight) hl
  refine h.erase hl rfl (by simp [o₁]) ?_ fun ip => ?_
  · simp only [BannedPeersCount.bannedPeers_removeBannedPeer, o₂] at hle₂ ⊢
    omega
  · have hle₃ := (h.perIp ip) ▸ Kv.le_sumBy (f := bannedIpWeight ip) hl
    simp only [BannedPeersCount.bannedPeersPerIp_removeBannedPeer, o₃] at hle₃ ⊢
    omega

theorem Counted.shrinkBanned (h : db.Counted) (fuel : Nat) (unbannedPeers : List (π × List ι)) :
    (shrinkBanned fuel db unbannedPeers).1.Counted := by
  induction fuel generalizing db unbannedPeers with
  | zero => exact h
  | succ fuel ih =>
    simp only [PeerDB.shrinkBanned]
    split_ifs
    · rcases ho : db.oldestBanned with _ | ⟨toDrop, info⟩
      · exact ih (h.resetBanned ho) _
      · exact ih (h.dropBanned ho) _
    · exact h

/-- Every round lowers the banned count by one, or resets it: a fuel of the count is enough
for the loop to end at the limit. -/
theorem shrinkBanned_le (fuel : Nat) (unbannedPeers : List (π × List ι))
    (hfuel : db.bannedPeersCount.bannedPeers ≤ fuel) :
    (shrinkBanned fuel db unbannedPeers).1.bannedPeersCount.bannedPeers ≤ maxBannedPeers := by
  induction fuel generalizing db unbannedPeers with
  | zero => simp only [PeerDB.shrinkBanned]; omega
  | succ fuel ih =>
    simp only [PeerDB.shrinkBanned]
    split_ifs with hmax
    · rcases db.oldestBanned with _ | ⟨toDrop, info⟩
      · exact ih _ (Nat.zero_le fuel)
      · apply ih
        show db.bannedPeersCount.bannedPeers - 1 ≤ fuel
        omega
    · show db.bannedPeersCount.bannedPeers ≤ maxBannedPeers
      omega

/-- The loop only drops peers: what it keeps, it keeps as it was. -/
theorem shrinkBanned_lookup (fuel : Nat) (unbannedPeers : List (π × List ι)) {q : π}
    {info : PeerInfo ι} (h : (shrinkBanned fuel db unbannedPeers).1.peers.lookup q = some info) :
    db.peers.lookup q = some info := by
  induction fuel generalizing db unbannedPeers with
  | zero => exact h
  | succ fuel ih =>
    simp only [PeerDB.shrinkBanned] at h
    split_ifs at h
    · rcases ho : db.oldestBanned with _ | ⟨toDrop, dropped⟩ <;> simp only [ho] at h
      · exact (ih _ h :)
      · exact lookup_of_lookup_erase (ih _ h)
    · exact h

/-- The loop drops only banned peers, those banned earliest: a peer it drops was banned, no later
than every banned peer it keeps. -/
theorem shrinkBanned_dropped (fuel : Nat) (unbannedPeers : List (π × List ι)) {p : π}
    {pi : PeerInfo ι} (hp : db.peers.lookup p = some pi)
    (hdrop : (shrinkBanned fuel db unbannedPeers).1.peers.lookup p = none) :
    ∃ sp, pi.connectionStatus = .banned sp ∧ ∀ q qi sq,
      (shrinkBanned fuel db unbannedPeers).1.peers.lookup q = some qi →
        qi.connectionStatus = .banned sq → sp ≤ sq := by
  induction fuel generalizing db unbannedPeers with
  | zero => simp [PeerDB.shrinkBanned, hp] at hdrop
  | succ fuel ih =>
    simp only [PeerDB.shrinkBanned] at hdrop ⊢
    split_ifs at hdrop ⊢
    · rcases ho : db.oldestBanned with _ | ⟨toDrop, dropped⟩ <;> simp only [ho] at hdrop ⊢
      · exact @ih { db with bannedPeersCount := .default } _ hp hdrop
      · by_cases hpd : p = toDrop
        · -- the peer dropped in this round is the earliest banned of all, the kept ones included
          subst hpd
          obtain ⟨hl, since, hs, hmin⟩ := oldestBanned_eq_some ho
          rw [hl, Option.some.injEq] at hp
          subst hp
          exact ⟨since, hs, fun q qi sq hq hqs =>
            hmin q qi sq (lookup_of_lookup_erase (shrinkBanned_lookup fuel _ hq)) hqs⟩
        · exact ih _ (by rwa [AList.lookup_erase_ne hpd]) hdrop
    · rw [hp] at hdrop
      cases hdrop

/-! ### The loop over disconnected peers -/

omit [DecidableEq π] in
theorem Counted.oldestDisconnected_ne_none (h : db.Counted)
    (hpos : 0 < db.disconnectedPeers) : db.oldestDisconnected ≠ none := by
  intro hnone
  have hzero : Kv.sumBy disconnectedWeight db.peers = 0 :=
    Kv.sumBy_eq_zero fun e he => by
      simp [disconnectedWeight, oldestDisconnected_eq_none hnone e he]
  rw [h.disconnected] at hpos
  omega

theorem Counted.dropDisconnected {toDrop : π} (h : db.Counted)
    (ho : db.oldestDisconnected = some toDrop) :
    Counted { db with
      peers := db.peers.erase toDrop
      disconnectedPeers := db.disconnectedPeers - 1 } := by
  obtain ⟨info, since, hl, hs, -⟩ := oldestDisconnected_eq_some ho
  obtain ⟨o₁, o₂, o₃⟩ := shares_of_disconnected hs
  have hle₁ := h.disconnected ▸ Kv.le_sumBy (f := disconnectedWeight) hl
  refine h.erase hl rfl ?_ (by simp [o₂]) fun ip => by simp [o₃]
  simp only [o₁] at hle₁ ⊢
  omega

theorem Counted.shrinkDisconnected (h : db.Counted) (fuel : Nat) :
    (shrinkDisconnected fuel db).Counted := by
  induction fuel generalizing db with
  | zero => exact h
  | succ fuel ih =>
    simp only [PeerDB.shrinkDisconnected]
    split_ifs with hmax
    · rcases ho : db.oldestDisconnected with _ | toDrop
      · exact absurd ho (h.oldestDisconnected_ne_none (by omega))
      · exact ih (h.dropDisconnected ho)
    · exact h

omit [DecidableEq ι] in
theorem shrinkDisconnected_le (fuel : Nat) (hfuel : db.disconnectedPeers ≤ fuel) :
    (shrinkDisconnected fuel db).disconnectedPeers ≤ maxDcPeers := by
  induction fuel generalizing db with
  | zero => simp only [PeerDB.shrinkDisconnected]; omega
  | succ fuel ih =>
    simp only [PeerDB.shrinkDisconnected]
    split_ifs with hmax
    · apply ih
      rcases db.oldestDisconnected with _ | toDrop
      · show db.disconnectedPeers - 1 ≤ fuel
        omega
      · show db.disconnectedPeers - 1 ≤ fuel
        omega
    · omega

omit [DecidableEq ι] in
theorem shrinkDisconnected_lookup (fuel : Nat) {q : π} {info : PeerInfo ι}
    (h : (shrinkDisconnected fuel db).peers.lookup q = some info) :
    db.peers.lookup q = some info := by
  induction fuel generalizing db with
  | zero => exact h
  | succ fuel ih =>
    simp only [PeerDB.shrinkDisconnected] at h
    split_ifs at h
    · rcases ho : db.oldestDisconnected with _ | toDrop <;> simp only [ho] at h
      · exact (ih h :)
      · exact lookup_of_lookup_erase (ih h)
    · exact h

omit [DecidableEq ι] in
/-- The loop drops only disconnected peers, those disconnected earliest. -/
theorem shrinkDisconnected_dropped (fuel : Nat) {p : π} {pi : PeerInfo ι}
    (hp : db.peers.lookup p = some pi) (hdrop : (shrinkDisconnected fuel db).peers.lookup p = none) :
    ∃ sp, pi.connectionStatus = .disconnected sp ∧ ∀ q qi sq,
      (shrinkDisconnected fuel db).peers.lookup q = some qi →
        qi.connectionStatus = .disconnected sq → sp ≤ sq := by
  induction fuel generalizing db with
  | zero => simp [PeerDB.shrinkDisconnected, hp] at hdrop
  | succ fuel ih =>
    simp only [PeerDB.shrinkDisconnected] at hdrop ⊢
    split_ifs at hdrop ⊢
    · rcases ho : db.oldestDisconnected with _ | toDrop <;> simp only [ho] at hdrop ⊢
      · exact @ih { db with disconnectedPeers := db.disconnectedPeers - 1 } hp hdrop
      · by_cases hpd : p = toDrop
        · subst hpd
          obtain ⟨info, since, hl, hs, hmin⟩ := oldestDisconnected_eq_some ho
          rw [hl, Option.some.injEq] at hp
          subst hp
          exact ⟨since, hs, fun q qi sq hq hqs =>
            hmin q qi sq (lookup_of_lookup_erase (shrinkDisconnected_lookup fuel hq)) hqs⟩
        · exact ih (by rwa [AList.lookup_erase_ne hpd]) hdrop
    · rw [hp] at hdrop
      cases hdrop

omit [DecidableEq ι] in
theorem shrinkDisconnected_bannedPeersCount (fuel : Nat) :
    (shrinkDisconnected fuel db).bannedPeersCount = db.bannedPeersCount := by
  induction fuel generalizing db with
  | zero => rfl
  | succ fuel ih =>
    simp only [PeerDB.shrinkDisconnected]
    split_ifs
    · rcases db.oldestDisconnected with _ | toDrop
      · exact ih
      · exact ih
    · rfl

/-! ### `shrink_to_fit` -/

/-- `shrink_to_fit` with exact counters keeps them exact, and ends with at most
`MAX_BANNED_PEERS` peers counted as banned and `MAX_DC_PEERS` as disconnected. -/
theorem Counted.shrinkToFit_bounds (h : db.Counted) :
    db.shrinkToFit.1.Counted ∧ db.shrinkToFit.1.bannedPeersCount.bannedPeers ≤ maxBannedPeers ∧
      db.shrinkToFit.1.disconnectedPeers ≤ maxDcPeers := by
  have hmid := h.shrinkBanned db.bannedPeersCount.bannedPeers []
  refine ⟨hmid.shrinkDisconnected _, ?_, shrinkDisconnected_le _ le_rfl⟩
  show (PeerDB.shrinkDisconnected _ _).bannedPeersCount.bannedPeers ≤ maxBannedPeers
  rw [shrinkDisconnected_bannedPeersCount]
  exact shrinkBanned_le _ _ le_rfl

/-- **`shrink_to_fit` keeps the peers it keeps as they were, and drops only the banned peers
banned earliest and the disconnected peers disconnected earliest**: a dropped peer was banned no
later than every banned peer kept, or disconnected no later than every disconnected peer kept. -/
theorem shrinkToFit_dropped (db : PeerDB π ι) :
    (∀ q info, db.shrinkToFit.1.peers.lookup q = some info → db.peers.lookup q = some info) ∧
      ∀ p pi, db.peers.lookup p = some pi → db.shrinkToFit.1.peers.lookup p = none →
        (∃ sp, pi.connectionStatus = .banned sp ∧ ∀ q qi sq,
            db.shrinkToFit.1.peers.lookup q = some qi → qi.connectionStatus = .banned sq →
              sp ≤ sq) ∨
          ∃ sp, pi.connectionStatus = .disconnected sp ∧ ∀ q qi sq,
            db.shrinkToFit.1.peers.lookup q = some qi → qi.connectionStatus = .disconnected sq →
              sp ≤ sq := by
  -- the kept peers: the second loop keeps them from the first, which keeps them from `db`
  refine ⟨fun q info h => shrinkBanned_lookup _ [] (shrinkDisconnected_lookup _ h),
    fun p pi hp hdrop => ?_⟩
  set mid := (shrinkBanned db.bannedPeersCount.bannedPeers db []).1 with hmid
  have hfinal : db.shrinkToFit.1 = shrinkDisconnected mid.disconnectedPeers mid := rfl
  rw [hfinal] at hdrop ⊢
  cases hpm : mid.peers.lookup p with
  | none =>
    -- dropped by the first loop: banned before every banned peer the first loop keeps
    obtain ⟨sp, hs, hmin⟩ := shrinkBanned_dropped _ [] hp hpm
    exact .inl ⟨sp, hs, fun q qi sq hq hqs => hmin q qi sq (shrinkDisconnected_lookup _ hq) hqs⟩
  | some pi' =>
    have hpi : pi' = pi := by
      have := shrinkBanned_lookup _ [] hpm
      rw [hp, Option.some.injEq] at this
      exact this.symm
    subst hpi
    exact .inr (shrinkDisconnected_dropped _ hpm hdrop)

/-- A disconnected count one above `MAX_DC_PEERS` beside two disconnected peers. -/
def overCounted : PeerDB Nat Nat :=
  ⟨((∅ : AList fun _ : Nat => PeerInfo Nat).insert 1 ⟨.disconnected 3, [], none⟩).insert 2
    ⟨.disconnected 5, [], none⟩, 501, .default⟩

/-- `shrink_to_fit` keeps the peer disconnected at `5` as it was, and drops the one disconnected
at `3`. -/
theorem shrinkToFit_dropped_overCounted :
    overCounted.peers.lookup 2 = some ⟨.disconnected 5, [], none⟩ ∧
      overCounted.peers.lookup 1 = some ⟨.disconnected 3, [], none⟩ ∧
      overCounted.shrinkToFit.1.peers.lookup 1 = none ∧
      ((∃ sp, (⟨.disconnected 3, [], none⟩ : PeerInfo Nat).connectionStatus = .banned sp ∧
          ∀ q qi sq, overCounted.shrinkToFit.1.peers.lookup q = some qi →
            qi.connectionStatus = .banned sq → sp ≤ sq) ∨
        ∃ sp, (⟨.disconnected 3, [], none⟩ : PeerInfo Nat).connectionStatus = .disconnected sp ∧
          ∀ q qi sq, overCounted.shrinkToFit.1.peers.lookup q = some qi →
            qi.connectionStatus = .disconnected sq → sp ≤ sq) :=
  have hkeep : overCounted.shrinkToFit.1.peers.lookup 2 = some ⟨.disconnected 5, [], none⟩ := by
    decide
  have hp : overCounted.peers.lookup 1 = some ⟨.disconnected 3, [], none⟩ := by decide
  have hdrop : overCounted.shrinkToFit.1.peers.lookup 1 = none := by decide
  ⟨(shrinkToFit_dropped overCounted).1 2 _ hkeep, hp, hdrop,
    (shrinkToFit_dropped overCounted).2 1 _ hp hdrop⟩

/-! ### `cleanup_dialing_peers` -/

omit [DecidableEq ι] in
theorem mem_peersToDisconnect {now : Nat} {q : π} :
    q ∈ db.peersToDisconnect now ↔ ∃ qi since, db.peers.lookup q = some qi ∧
      qi.connectionStatus = .dialing since ∧ since + dialTimeout < now := by
  simp only [peersToDisconnect, List.mem_filterMap]
  constructor
  · rintro ⟨⟨k, qi⟩, he, hsome⟩
    split at hsome
    · rename_i since hs
      split_ifs at hsome with hlt
      cases hsome
      exact ⟨qi, since, AList.mem_lookup_iff.mpr he, hs, hlt⟩
    · cases hsome
  · rintro ⟨qi, since, hl, hs, hlt⟩
    exact ⟨⟨q, qi⟩, AList.mem_lookup_iff.mp hl, by simp [hs, hlt]⟩

/-- Disconnecting a peer that is dialing, or that an earlier disconnection at the same time left
disconnected, leaves it disconnected at that time. -/
theorem lookup_disconnect_self {now : Nat} {p : π} {pi : PeerInfo ι} {since : Nat}
    (hs : pi.connectionStatus = .dialing since)
    (hl : db.peers.lookup p = some pi ∨
      db.peers.lookup p = some (pi.setConnectionStatus (.disconnected now))) :
    (db.updateConnectionState p .disconnected now).1.peers.lookup p =
      some (pi.setConnectionStatus (.disconnected now)) := by
  rcases hl with hl | hl
  · have hentry : db.entry p = pi := by simp [entry, hl]
    simp [PeerDB.updateConnectionState, hentry, PeerDB.toDisconnected, hs]
  · have hentry : db.entry p = pi.setConnectionStatus (.disconnected now) := by simp [entry, hl]
    simp [PeerDB.updateConnectionState, hentry, PeerDB.toDisconnected]

/-- A disconnection loop leaves the peers outside its list as they were. -/
theorem lookup_foldl_disconnect_of_not_mem (now : Nat) {q : π} (L : List π) (hq : q ∉ L)
    (db : PeerDB π ι) :
    (L.foldl (fun db p => (db.updateConnectionState p .disconnected now).1) db).peers.lookup q =
      db.peers.lookup q := by
  induction L generalizing db with
  | nil => rfl
  | cons p rest ih =>
    rw [List.foldl_cons, ih (fun h => hq (List.mem_cons_of_mem p h))]
    have hqp : q ≠ p := fun h => hq (h ▸ List.mem_cons_self)
    exact db.lookup_updateConnectionState_ne hqp _ now

/-- A disconnection loop leaves a dialing peer of its list disconnected at its time. -/
theorem lookup_foldl_disconnect_of_mem (now : Nat) {q : π} {qi : PeerInfo ι} {since : Nat}
    (hs : qi.connectionStatus = .dialing since) (L : List π) (hq : q ∈ L) (db : PeerDB π ι)
    (hl : db.peers.lookup q = some qi ∨
      db.peers.lookup q = some (qi.setConnectionStatus (.disconnected now))) :
    (L.foldl (fun db p => (db.updateConnectionState p .disconnected now).1) db).peers.lookup q =
      some (qi.setConnectionStatus (.disconnected now)) := by
  induction L generalizing db with
  | nil => cases hq
  | cons p rest ih =>
    rw [List.foldl_cons]
    by_cases hqp : q = p
    · subst hqp
      have hself := lookup_disconnect_self hs hl
      by_cases hrest : q ∈ rest
      · exact ih hrest _ (.inr hself)
      · rw [lookup_foldl_disconnect_of_not_mem now rest hrest, hself]
    · have hrest : q ∈ rest := (List.mem_cons.mp hq).resolve_left hqp
      refine ih hrest _ ?_
      rwa [db.lookup_updateConnectionState_ne hqp]

theorem Counted.foldl_disconnect (now : Nat) (L : List π) (h : db.Counted) :
    (L.foldl (fun db p => (db.updateConnectionState p .disconnected now).1) db).Counted := by
  induction L generalizing db with
  | nil => exact h
  | cons p rest ih =>
    exact ih (h.updateConnectionState .disconnected now fun _ _ => by simp)

/-- `cleanup_dialing_peers` disconnects, at `now`, exactly the peers dialing for longer than
`DIAL_TIMEOUT`, leaves every other peer as it was, and keeps the counters exact. -/
theorem Counted.cleanupDialingPeers_spec (h : db.Counted) (now : Nat) :
    (db.cleanupDialingPeers now).Counted ∧
      (∀ q qi since, db.peers.lookup q = some qi → qi.connectionStatus = .dialing since →
        since + dialTimeout < now →
          (db.cleanupDialingPeers now).peers.lookup q =
            some (qi.setConnectionStatus (.disconnected now))) ∧
      ∀ q, (∀ qi since, db.peers.lookup q = some qi → qi.connectionStatus = .dialing since →
        now ≤ since + dialTimeout) →
          (db.cleanupDialingPeers now).peers.lookup q = db.peers.lookup q := by
  refine ⟨h.foldl_disconnect now _, fun q qi since hl hs hlt => ?_, fun q hq => ?_⟩
  · exact lookup_foldl_disconnect_of_mem now hs _
      (mem_peersToDisconnect.mpr ⟨qi, since, hl, hs, hlt⟩) db (.inl hl)
  · refine lookup_foldl_disconnect_of_not_mem now _ (fun hmem => ?_) db
    obtain ⟨qi, since, hl, hs, hlt⟩ := mem_peersToDisconnect.mp hmem
    have := hq qi since hl hs
    omega

/-- A peer dialed at `0` is disconnected by a cleanup after `DIAL_TIMEOUT`. -/
theorem cleanupDialingPeers_spec_dialing :
    let db := ((new [] : PeerDB Nat Nat).updateConnectionState 1 .dialing 0).1
    let now := dialTimeout + 1
    db.Counted ∧ (db.cleanupDialingPeers now).Counted ∧
      (∀ q qi since, db.peers.lookup q = some qi → qi.connectionStatus = .dialing since →
        since + dialTimeout < now →
          (db.cleanupDialingPeers now).peers.lookup q =
            some (qi.setConnectionStatus (.disconnected now))) ∧
      ∀ q, (∀ qi since, db.peers.lookup q = some qi → qi.connectionStatus = .dialing since →
        now ≤ since + dialTimeout) →
          (db.cleanupDialingPeers now).peers.lookup q = db.peers.lookup q := by
  intro db now
  have h : db.Counted := (counted_new []).updateConnectionState .dialing 0 fun _ _ => by simp
  exact ⟨h, h.cleanupDialingPeers_spec now⟩

/-! ### The calls of the peer manager, and whole runs -/

/-- `inject_disconnect` keeps the counters exact and leaves them at most at the limits. -/
theorem Counted.injectDisconnect (h : db.Counted) (peerId : π) (now : Nat) :
    (db.injectDisconnect peerId now).1.Counted ∧
      (db.injectDisconnect peerId now).1.bannedPeersCount.bannedPeers ≤ maxBannedPeers ∧
      (db.injectDisconnect peerId now).1.disconnectedPeers ≤ maxDcPeers :=
  (h.updateConnectionState .disconnected now fun _ _ => by simp).shrinkToFit_bounds

/-- Every call keeps the counters exact, but for `notify_disconnecting` of a banned peer. -/
theorem Counted.step (h : db.Counted) (now : Nat) (e : PeerDBEvent π ι)
    (hsafe : ∀ p toBan, e = .notifyDisconnecting p toBan → (db.entry p).isBanned = false) :
    (db.step now e).1.Counted := by
  cases e with
  | dialingPeer p => exact h.updateConnectionState .dialing now fun _ _ => by simp
  | connectIngoing p seenAddress =>
    exact h.updateConnectionState (.connected seenAddress .incoming) now fun _ _ => by simp
  | connectOutgoing p seenAddress =>
    exact h.updateConnectionState (.connected seenAddress .outgoing) now fun _ _ => by simp
  | injectDisconnect p => exact (h.injectDisconnect p now).1
  | notifyDisconnecting p toBan =>
    refine h.updateConnectionState (.disconnecting toBan) now fun hb _ _ => ?_
    rw [hsafe p toBan rfl] at hb
    cases hb
  | ban p => exact h.updateConnectionState .banned now fun _ _ => by simp
  | unban p => exact h.updateConnectionState .unbanned now fun _ _ => by simp
  | cleanupDialingPeers => exact h.foldl_disconnect now _

theorem run_cons (now : Nat) (e : PeerDBEvent π ι) (rest : List (Nat × PeerDBEvent π ι)) :
    (db.run ((now, e) :: rest)).1 = ((db.step now e).1.run rest).1 := rfl

/-- The counters stay exact over every run in which no banned peer is told to disconnect. -/
theorem Counted.run (h : db.Counted) (events : List (Nat × PeerDBEvent π ι))
    (hsafe : ∀ k now p toBan, events[k]? = some (now, .notifyDisconnecting p toBan) →
      ((db.run (events.take k)).1.entry p).isBanned = false) :
    (db.run events).1.Counted := by
  induction events generalizing db with
  | nil => exact h
  | cons x rest ih =>
    obtain ⟨now, e⟩ := x
    have hstep : (db.step now e).1.Counted := h.step now e fun p toBan he =>
      hsafe 0 now p toBan (by simp [he])
    rw [run_cons]
    refine ih hstep fun k now' p toBan hk => ?_
    have := hsafe (k + 1) now' p toBan (by simpa using hk)
    simpa [run_cons] using this

theorem run_append (xs ys : List (Nat × PeerDBEvent π ι)) :
    (db.run (xs ++ ys)).1 = ((db.run xs).1.run ys).1 := by
  induction xs generalizing db with
  | nil => rfl
  | cons x rest ih =>
    obtain ⟨now, e⟩ := x
    rw [List.cons_append, run_cons, run_cons, ih]

/-- Over every run from a new database in which no banned peer is told to disconnect, the
counters count what the map holds, and every `inject_disconnect` leaves at most
`MAX_BANNED_PEERS` banned and `MAX_DC_PEERS` disconnected peers. -/
theorem run_new_counted (trustedPeers : List π) (events : List (Nat × PeerDBEvent π ι))
    (hsafe : ∀ k now p toBan, events[k]? = some (now, .notifyDisconnecting p toBan) →
      (((new trustedPeers).run (events.take k)).1.entry p).isBanned = false) :
    ((new trustedPeers).run events).1.Counted ∧ ∀ now peerId,
      let db' := ((new trustedPeers).run (events ++ [(now, .injectDisconnect peerId)])).1
      db'.bannedPeersCount.bannedPeers ≤ maxBannedPeers ∧ db'.disconnectedPeers ≤ maxDcPeers := by
  have hrun := (counted_new trustedPeers).run events hsafe
  refine ⟨hrun, fun now peerId => ?_⟩
  obtain ⟨-, hb, hd⟩ := hrun.injectDisconnect peerId now
  rw [run_append]
  exact ⟨hb, hd⟩

/-- A peer connects from `7:30`, is told to disconnect, disconnects, and is banned and
unbanned. -/
def banAndUnbanRun : List (Nat × PeerDBEvent Nat Nat) :=
  [(0, .connectIngoing 1 [.ip 7, .tcp 30]), (1, .notifyDisconnecting 1 false),
    (2, .injectDisconnect 1), (3, .ban 1), (4, .unban 1)]

theorem run_new_counted_banAndUnbanRun :
    (∀ k now p toBan, banAndUnbanRun[k]? = some (now, .notifyDisconnecting p toBan) →
      (((new [] : PeerDB Nat Nat).run (banAndUnbanRun.take k)).1.entry p).isBanned = false) ∧
      ((new [] : PeerDB Nat Nat).run banAndUnbanRun).1.Counted ∧ ∀ now peerId,
        let db' := ((new [] : PeerDB Nat Nat).run
          (banAndUnbanRun ++ [(now, .injectDisconnect peerId)])).1
        db'.bannedPeersCount.bannedPeers ≤ maxBannedPeers ∧ db'.disconnectedPeers ≤ maxDcPeers := by
  have hsafe : ∀ k now p toBan, banAndUnbanRun[k]? = some (now, .notifyDisconnecting p toBan) →
      (((new [] : PeerDB Nat Nat).run (banAndUnbanRun.take k)).1.entry p).isBanned = false := by
    intro k now p toBan hk
    rcases k with _ | _ | _ | _ | _ | k <;> simp [banAndUnbanRun] at hk
    obtain ⟨rfl, rfl, rfl⟩ := hk
    decide
  exact ⟨hsafe, run_new_counted [] banAndUnbanRun hsafe⟩

end PeerDB

end Ionian.Network
