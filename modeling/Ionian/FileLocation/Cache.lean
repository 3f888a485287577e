import Ionian.Kv.MinQueue
import Ionian.Kv.AListSum

/-!
# FileLocation.Cache — the cache of file announcements

`FileLocationCache` keeps, for each file, the latest announcement of each peer that announced it
(`AnnouncementCache`), at most `max_entries_per_file` of them, and drops the oldest when the file's
cache is full or when an announcement is older than `entry_expiration_time_secs`.  `FileCache`
counts the cached announcements of all files in `total_announcements` and drops the oldest
announcement of the file on top of its queue when the count passes `max_entries_total`.  The lock
of `FileLocationCache` makes each of its calls one step on the `FileCache` (`step`).

A `HashMap` is an `AList`.  A `PriorityQueue<_, Reverse<u32>>` is a queue of a type left open with
the operations and laws of `Kv.MinQueue` over the `u32` values: the queue of the peers of a file
`pq`, the queue of the files `fq`;
`timestamp_now()` is the argument `now` and the random choice of `get_one` the argument `pick`, an
index into the entries.  A panic is `none`: the `u32` overflow of `ts + self.timeout_secs` in
`garbage_collect` (in a build with overflow checks), the `assert!` of `AnnouncementCache::new`, and
the two `expect`s of `FileCache`.
-/

namespace Ionian.FileLocation

open Kv

/-- The fields of a `SignedAnnounceFile` the cache reads, through its `Deref` to `AnnounceFile`. -/
structure SignedAnnounceFile (T P : Type) where
  txId : T
  peerId : P
  timestamp : UInt32
deriving DecidableEq

/-- `Config`. -/
structure Config where
  maxEntriesTotal : Nat
  maxEntriesPerFile : Nat
  entryExpirationTimeSecs : UInt32

/-- `Config::default`. -/
def Config.default : Config := ⟨4096, 4, 3600⟩

variable {T P Q R : Type} [DecidableEq P]

/-- `AnnouncementCache`: the latest announcement of each peer, and their timestamps. -/
structure AnnouncementCache (T P Q : Type) where
  capacity : Nat
  timeoutSecs : UInt32
  items : AList fun _ : P => SignedAnnounceFile T P
  priorities : Q

namespace AnnouncementCache

variable (pq : MinQueue Q P Nat)

/-- `AnnouncementCache::new`; the `assert!` panics on a capacity of zero. -/
def new (capacity : Nat) (timeoutSecs : UInt32) : Option (AnnouncementCache T P Q) :=
  if 0 < capacity then some ⟨capacity, timeoutSecs, ∅, pq.empty⟩ else none

/-- `peek_priority`: the timestamp of the oldest announcement. -/
def peekPriority (c : AnnouncementCache T P Q) : Option Nat := (pq.peek c.priorities).map Prod.snd

/-- `pop`: the oldest announcement, removed. -/
def pop (c : AnnouncementCache T P Q) :
    AnnouncementCache T P Q × Option (SignedAnnounceFile T P) :=
  match pq.pop c.priorities with
  | none => (c, none)
  | some ((peerId, _), priorities) =>
    ({ c with priorities, items := c.items.erase peerId }, c.items.lookup peerId)

omit [DecidableEq P] in
def len (c : AnnouncementCache T P Q) : Nat := c.items.entries.length

/-- What `pop` does: nothing on an empty queue, else it removes the peer it pops from the
items. -/
theorem pop_spec (c : AnnouncementCache T P Q) :
    (pq.pop c.priorities = none ∧ c.pop pq = (c, none)) ∨
      ∃ peerId ts priorities, pq.pop c.priorities = some ((peerId, ts), priorities) ∧
        c.pop pq = ({ c with priorities, items := c.items.erase peerId }, c.items.lookup peerId) := by
  unfold pop
  cases hpop : pq.pop c.priorities with
  | none => exact .inl ⟨rfl, rfl⟩
  | some r =>
    obtain ⟨⟨peerId, ts⟩, priorities⟩ := r
    exact .inr ⟨peerId, ts, priorities, rfl, rfl⟩

theorem length_pop_lt {c : AnnouncementCache T P Q} {peerId : P} {ts : Nat}
    (h : pq.peek c.priorities = some (peerId, ts)) :
    pq.length (c.pop pq).1.priorities < pq.length c.priorities := by
  obtain ⟨⟨i, p⟩, q', hpop⟩ := pq.exists_pop_of_peek h
  rcases c.pop_spec pq with ⟨hnone, -⟩ | ⟨_, _, _, hpop', hc⟩
  · rw [hpop] at hnone
    cases hnone
  · rw [hpop] at hpop'
    cases hpop'
    rw [hc]
    exact pq.length_pop_lt hpop

/-- The `while` loop of `garbage_collect`: the oldest announcement dropped while it is expired at
`now`; the number dropped. -/
def garbageCollect (now : UInt32) (c : AnnouncementCache T P Q) :
    Option (AnnouncementCache T P Q × Nat) :=
  match h : pq.peek c.priorities with
  | none => some (c, 0)
  | some (_, ts) =>
    -- `ts + self.timeout_secs` overflows `u32`
    if 2 ^ 32 ≤ ts + c.timeoutSecs.toNat then none
    else if now.toNat < ts + c.timeoutSecs.toNat then some (c, 0)
    else (garbageCollect now (c.pop pq).1).map fun r => (r.1, r.2 + 1)
termination_by pq.length c.priorities
decreasing_by exact length_pop_lt pq h

/-- `insert` once the garbage is collected and the announcement is newer than its peer's: it
replaces the peer's, and the oldest is dropped past the capacity. -/
def insertFresh (announcement : SignedAnnounceFile T P) (c : AnnouncementCache T P Q) :
    AnnouncementCache T P Q :=
  let c := { c with
    priorities := pq.push c.priorities announcement.peerId announcement.timestamp.toNat
    items := c.items.insert announcement.peerId announcement }
  if c.capacity < c.len then (c.pop pq).1 else c

/-- `insert`. -/
def insert (now : UInt32) (announcement : SignedAnnounceFile T P) (c : AnnouncementCache T P Q) :
    Option (AnnouncementCache T P Q) :=
  (c.garbageCollect pq now).map fun r =>
    match r.1.items.lookup announcement.peerId with
    -- ignore older announcement
    | some existing =>
      if announcement.timestamp ≤ existing.timestamp then r.1
      else r.1.insertFresh pq announcement
    | none => r.1.insertFresh pq announcement

/-- `random`: the announcement at `pick` once the garbage is collected, and the number collected. -/
def random (now : UInt32) (pick : Nat) (c : AnnouncementCache T P Q) :
    Option (AnnouncementCache T P Q × Option (SignedAnnounceFile T P) × Nat) :=
  (c.garbageCollect pq now).map fun r =>
    if r.1.items.entries.isEmpty then (r.1, none, r.2)
    else (r.1, r.1.items.entries[pick % r.1.len]?.map Sigma.snd, r.2)

/-- `all`: every announcement once the garbage is collected, and the number collected. -/
def all (now : UInt32) (c : AnnouncementCache T P Q) :
    Option (AnnouncementCache T P Q × List (SignedAnnounceFile T P) × Nat) :=
  (c.garbageCollect pq now).map fun r => (r.1, r.1.items.entries.map Sigma.snd, r.2)

end AnnouncementCache

/-- `FileCache`. -/
structure FileCache (T P Q R : Type) where
  config : Config
  totalAnnouncements : Nat
  files : AList fun _ : T => AnnouncementCache T P Q
  priorities : R

namespace FileCache

variable [DecidableEq T] (pq : MinQueue Q P Nat) (fq : MinQueue R T Nat)

omit [DecidableEq P] [DecidableEq T] in
def new (config : Config) : FileCache T P Q R := ⟨config, 0, ∅, fq.empty⟩

/-- `files.entry(tx_id).or_insert_with(..)`: the file's cache, or a new one. -/
def fileEntry (c : FileCache T P Q R) (txId : T) : Option (AnnouncementCache T P Q) :=
  match c.files.lookup txId with
  | some item => some item
  | none => AnnouncementCache.new pq c.config.maxEntriesPerFile c.config.entryExpirationTimeSecs

/-- `pop`: the oldest announcement of the file on top, removed; a file left empty is forgotten. -/
def pop (c : FileCache T P Q R) : FileCache T P Q R × Option (SignedAnnounceFile T P) :=
  match fq.peek c.priorities with
  | none => (c, none)
  | some (txId, _) =>
    match c.files.lookup txId with
    | none => (c, none)
    | some item =>
      if (item.pop pq).1.len = 0 then
        ({ c with files := c.files.erase txId, priorities := fq.erase c.priorities txId },
          (item.pop pq).2)
      else ({ c with files := c.files.insert txId (item.pop pq).1 }, (item.pop pq).2)

/-- `insert`. -/
def insert (now : UInt32) (announcement : SignedAnnounceFile T P) (c : FileCache T P Q R) :
    Option (FileCache T P Q R) := do
  let txId := announcement.txId
  let item ← c.fileEntry pq txId
  -- `checked_sub(item.len()).expect(..)`: the check stays, its result is dropped
  if c.totalAnnouncements < item.len then none else
  let item ← item.insert pq now announcement
  let priorities := match item.peekPriority pq with
    | some priority => fq.push c.priorities txId priority
    | none => c.priorities
  let c := { c with
    files := c.files.insert txId item
    priorities
    totalAnnouncements := c.totalAnnouncements + item.len }
  if c.config.maxEntriesTotal < c.totalAnnouncements then some (c.pop pq fq).1 else some c

/-- `update_after_gc`. -/
def updateAfterGc (txId : T) (collected : Nat) (c : FileCache T P Q R) :
    Option (FileCache T P Q R) :=
  if collected = 0 then some c
  -- `checked_sub(collected).expect(..)`: the check stays, its result is dropped
  else if c.totalAnnouncements < collected then none
  else match c.files.lookup txId with
    | none => some c
    | some item =>
      -- remove entry if empty
      if item.len = 0 then
        some { c with files := c.files.erase txId, priorities := fq.erase c.priorities txId }
      else match item.peekPriority pq with
        -- `expect("should peek if not empty")`
        | none => none
        | some newPriority =>
          some { c with priorities := fq.changePriority c.priorities txId newPriority }

/-- `random`. -/
def random (now : UInt32) (pick : Nat) (txId : T) (c : FileCache T P Q R) :
    Option (FileCache T P Q R × Option (SignedAnnounceFile T P)) :=
  match c.files.lookup txId with
  | none => some (c, none)
  | some item => do
    let r ← item.random pq now pick
    let c ← { c with files := c.files.insert txId r.1 }.updateAfterGc pq fq txId r.2.2
    pure (c, r.2.1)

/-- `all`. -/
def all (now : UInt32) (txId : T) (c : FileCache T P Q R) :
    Option (FileCache T P Q R × Option (List (SignedAnnounceFile T P))) :=
  match c.files.lookup txId with
  | none => some (c, none)
  | some item => do
    let r ← item.all pq now
    let c ← { c with files := c.files.insert txId r.1 }.updateAfterGc pq fq txId r.2.2
    pure (c, some r.2.1)

omit [DecidableEq P] [DecidableEq T] in
/-- The announcements the file caches hold. -/
def cachedAnnouncements (c : FileCache T P Q R) : Nat := sumBy AnnouncementCache.len c.files

end FileCache

/-- The calls of `FileLocationCache`, each one step on the `FileCache` under the lock. -/
inductive Call (T P : Type)
  | insert (now : UInt32) (announcement : SignedAnnounceFile T P)
  | getOne (now : UInt32) (pick : Nat) (txId : T)
  | getAll (now : UInt32) (txId : T)

variable [DecidableEq T] (pq : MinQueue Q P Nat) (fq : MinQueue R T Nat)

omit [DecidableEq P] [DecidableEq T] in
/-- `FileLocationCache::default`. -/
def FileLocationCache.default : FileCache T P Q R := FileCache.new fq Config.default

/-- `get_all`: no announcements for a file not cached. -/
def getAll (now : UInt32) (txId : T) (c : FileCache T P Q R) :
    Option (FileCache T P Q R × List (SignedAnnounceFile T P)) :=
  (c.all pq fq now txId).map fun r => (r.1, r.2.getD [])

/-- One call of `FileLocationCache`. -/
def step : Call T P → FileCache T P Q R → Option (FileCache T P Q R)
  | .insert now announcement, c => c.insert pq fq now announcement
  | .getOne now pick txId, c => (c.random pq fq now pick txId).map Prod.fst
  | .getAll now txId, c => (getAll pq fq now txId c).map Prod.fst

end Ionian.FileLocation
