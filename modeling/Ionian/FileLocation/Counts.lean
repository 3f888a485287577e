import Ionian.FileLocation.Cache

/-!
# FileLocation.Counts — what the file location cache keeps, and what it miscounts

Each `AnnouncementCache` keeps its two maps over the same peers, each peer's queued priority the
timestamp of its announcement, and at most its capacity of them (`AnnouncementCache.Inv`), under
every operation.  `FileCache` keeps that for every file, at the configured capacity, and its
counter never falls below the number of cached announcements (`FileCache.Inv`, `Inv.run`),
so the `checked_sub(..).expect(..)` of `insert` never panics.

The counter does not follow the caches: `insert` adds the file's whole new length to it, where
`checked_sub` was meant to take the old length away first, and no removal takes anything away.
From any state whose counter is right, inserting an announcement for a file that already holds
one leaves the counter above the number of announcements (`insert_overcounts`).
-/

namespace Ionian.FileLocation

open Kv

variable {T P Q R : Type} [DecidableEq P]

namespace AnnouncementCache

variable (pq : MinQueue Q P Nat)

/-! ## One file's cache -/

omit [DecidableEq P] in
theorem len_eq_length_keys (c : AnnouncementCache T P Q) : c.len = c.items.keys.length := by
  simp [len, AList.keys, List.keys]

@[simp] theorem pop_capacity (c : AnnouncementCache T P Q) : (c.pop pq).1.capacity = c.capacity := by
  rcases c.pop_spec pq with ⟨-, h⟩ | ⟨_, _, _, -, h⟩ <;> rw [h]

@[simp] theorem pop_timeoutSecs (c : AnnouncementCache T P Q) :
    (c.pop pq).1.timeoutSecs = c.timeoutSecs := by
  rcases c.pop_spec pq with ⟨-, h⟩ | ⟨_, _, _, -, h⟩ <;> rw [h]

/-- The cache after the items take an entry for `p`: one more item when `p` is new. -/
theorem len_insert (c : AnnouncementCache T P Q) (q : Q) (p : P) (x : SignedAnnounceFile T P) :
    ({ c with priorities := q, items := c.items.insert p x } : AnnouncementCache T P Q).len =
      if p ∈ c.items then c.len else c.len + 1 := by
  simp only [len_eq_length_keys, AList.keys_insert, List.length_cons]
  by_cases hp : p ∈ c.items
  · rw [if_pos hp, List.length_erase_of_mem (AList.mem_keys.mpr hp)]
    have := List.length_pos_of_mem (AList.mem_keys.mpr hp)
    omega
  · rw [if_neg hp, List.erase_of_not_mem (mt AList.mem_keys.mp hp)]

/-- The cache after the items lose the entry of `p`, which they hold. -/
theorem len_erase_add_one (c : AnnouncementCache T P Q) (q : Q) {p : P} (hp : p ∈ c.items) :
    ({ c with priorities := q, items := c.items.erase p } : AnnouncementCache T P Q).len + 1 =
      c.len := by
  simp only [len_eq_length_keys, AList.keys_erase]
  rw [List.length_erase_of_mem (AList.mem_keys.mpr hp)]
  have := List.length_pos_of_mem (AList.mem_keys.mpr hp)
  omega

theorem len_erase_le (c : AnnouncementCache T P Q) (q : Q) (p : P) :
    ({ c with priorities := q, items := c.items.erase p } : AnnouncementCache T P Q).len ≤
      c.len := by
  simp only [len_eq_length_keys, AList.keys_erase]
  exact List.length_erase_le

theorem len_pop_le (c : AnnouncementCache T P Q) : (c.pop pq).1.len ≤ c.len := by
  rcases c.pop_spec pq with ⟨-, h⟩ | ⟨p, _, q, -, h⟩
  · rw [h]
  · rw [h]
    exact len_erase_le c q p

/-- The two maps hold the same peers, each queued at its announcement's timestamp, and the queue
counts them. -/
structure Coherent (pq : MinQueue Q P Nat) (c : AnnouncementCache T P Q) : Prop where
  keys : ∀ p, p ∈ c.items ↔ (pq.lookup c.priorities p).isSome
  timestamps : ∀ p a, c.items.lookup p = some a →
    pq.lookup c.priorities p = some a.timestamp.toNat
  length : c.len = pq.length c.priorities

variable {pq}

theorem Coherent.pop {c : AnnouncementCache T P Q} (hc : c.Coherent pq) :
    (c.pop pq).1.Coherent pq := by
  rcases c.pop_spec pq with ⟨-, h⟩ | ⟨p, ts, q', hpop, h⟩
  · rw [h]
    exact hc
  rw [h]
  -- the popped peer is one the items hold
  have hp : pq.lookup c.priorities p = some ts := pq.lookup_of_pop hpop
  have hsome : (pq.lookup c.priorities p).isSome := by rw [hp]; rfl
  have hmem : p ∈ c.items := (hc.keys p).mpr hsome
  refine ⟨fun q => ?_, fun q a hq => ?_, ?_⟩
  · rw [pq.lookup_pop q hpop, pq.lookup_erase, AList.mem_erase, hc.keys q]
    by_cases hqp : q = p <;> simp [hqp]
  · by_cases hqp : q = p
    · subst hqp
      simp [AList.lookup_erase] at hq
    · rw [AList.lookup_erase_ne hqp] at hq
      rw [pq.lookup_pop q hpop, pq.lookup_erase, if_neg hqp]
      exact hc.timestamps q a hq
  · -- both lose the peer
    have hitems := len_erase_add_one c q' hmem
    have hqueue := pq.length_erase_of_isSome hsome
    have hlen := hc.length
    dsimp only
    rw [pq.length_pop hpop]
    omega

/-- A coherent cache that holds an announcement loses exactly one to `pop`. -/
theorem Coherent.len_pop {c : AnnouncementCache T P Q} (hc : c.Coherent pq) (hpos : 0 < c.len) :
    (c.pop pq).1.len + 1 = c.len := by
  rcases c.pop_spec pq with ⟨hnone, -⟩ | ⟨p, ts, q', hpop, h⟩
  · -- a queue that pops nothing holds no peer, and so do the items
    have hempty : c.items.keys = [] := List.eq_nil_iff_forall_not_mem.mpr fun p hp => by
      have := (hc.keys p).mp (AList.mem_keys.mp hp)
      rw [(pq.pop_eq_none_iff _).mp hnone p] at this
      cases this
    rw [len_eq_length_keys, hempty] at hpos
    cases hpos
  · rw [h]
    exact len_erase_add_one c q' ((hc.keys p).mpr (by rw [pq.lookup_of_pop hpop]; rfl))

/-- The cache of a file: coherent, within its capacity, which is not zero. -/
structure Inv (pq : MinQueue Q P Nat) (c : AnnouncementCache T P Q) : Prop where
  coherent : c.Coherent pq
  capacity_pos : 0 < c.capacity
  len_le : c.len ≤ c.capacity

theorem Inv.pop {c : AnnouncementCache T P Q} (hc : c.Inv pq) : (c.pop pq).1.Inv pq :=
  ⟨hc.coherent.pop, by simpa using hc.capacity_pos,
    by simpa using (len_pop_le pq c).trans hc.len_le⟩

theorem inv_new {capacity : Nat} {timeoutSecs : UInt32} {c : AnnouncementCache T P Q}
    (h : new pq capacity timeoutSecs = some c) :
    c.Inv pq ∧ c.capacity = capacity ∧ c.len = 0 := by
  unfold new at h
  split at h
  · rename_i hpos
    cases h
    refine ⟨⟨⟨fun p => ?_, fun p a ha => ?_, pq.length_empty.symm⟩, hpos, Nat.zero_le _⟩, rfl,
      rfl⟩
    · simp [AList.notMem_empty, pq.lookup_empty]
    · simp [AList.lookup_empty] at ha
  · cases h

/-! ## Garbage collection -/

/-- `garbage_collect` pops the number of announcements it returns, at most one a queued peer. -/
theorem garbageCollect_spec {now : UInt32} {c c' : AnnouncementCache T P Q} {n : Nat}
    (h : c.garbageCollect pq now = some (c', n)) :
    c' = (fun c : AnnouncementCache T P Q => (c.pop pq).1)^[n] c ∧
      n ≤ pq.length c.priorities := by
  -- the loop ends since each pass pops one queued peer
  induction hlen : pq.length c.priorities using Nat.strong_induction_on generalizing c c' n with
  | _ m ih =>
    rw [garbageCollect] at h
    split at h
    · cases h
      exact ⟨rfl, Nat.zero_le _⟩
    · rename_i p ts hpeek
      by_cases hover : 2 ^ 32 ≤ ts + c.timeoutSecs.toNat
      · rw [if_pos hover] at h
        cases h
      rw [if_neg hover] at h
      by_cases hfresh : now.toNat < ts + c.timeoutSecs.toNat
      · rw [if_pos hfresh] at h
        cases h
        exact ⟨rfl, Nat.zero_le _⟩
      -- the oldest expired: popped, and the loop goes on
      rw [if_neg hfresh] at h
      obtain ⟨⟨c₁, n₁⟩, hrec, heq⟩ := Option.map_eq_some_iff.mp h
      cases heq
      have hlt := length_pop_lt pq hpeek
      obtain ⟨rfl, hle⟩ := ih _ (hlen ▸ hlt) hrec rfl
      exact ⟨(Function.iterate_succ_apply _ _ _).symm, by omega⟩

theorem garbageCollect_of_peek_eq_none {now : UInt32} {c : AnnouncementCache T P Q}
    (h : pq.peek c.priorities = none) : c.garbageCollect pq now = some (c, 0) := by
  rw [garbageCollect]
  split
  · rfl
  · rename_i hpeek
    rw [h] at hpeek
    cases hpeek

/-- Nothing expires while the oldest announcement is younger than the timeout. -/
theorem garbageCollect_of_unexpired {now : UInt32} {c : AnnouncementCache T P Q} {p : P}
    {ts : Nat} (h : pq.peek c.priorities = some (p, ts))
    (hover : ts + c.timeoutSecs.toNat < 2 ^ 32) (hnow : now.toNat < ts + c.timeoutSecs.toNat) :
    c.garbageCollect pq now = some (c, 0) := by
  rw [garbageCollect]
  split
  · rfl
  · rename_i p' ts' hpeek
    rw [h, Option.some.injEq, Prod.mk.injEq] at hpeek
    obtain ⟨-, rfl⟩ := hpeek
    rw [if_neg (by omega), if_pos hnow]

/-- Popping `n` announcements of a cache that holds that many. -/
theorem Inv.iterate_pop {c : AnnouncementCache T P Q} (hc : c.Inv pq) {n : Nat} (hn : n ≤ c.len) :
    ((fun c : AnnouncementCache T P Q => (c.pop pq).1)^[n] c).Inv pq ∧
      ((fun c : AnnouncementCache T P Q => (c.pop pq).1)^[n] c).len + n = c.len ∧
      ((fun c : AnnouncementCache T P Q => (c.pop pq).1)^[n] c).capacity = c.capacity ∧
      ((fun c : AnnouncementCache T P Q => (c.pop pq).1)^[n] c).timeoutSecs = c.timeoutSecs := by
  induction n generalizing c with
  | zero => exact ⟨hc, rfl, rfl, rfl⟩
  | succ n ih =>
    have hpop := hc.coherent.len_pop (by omega)
    obtain ⟨hinv, hlen, hcap, htime⟩ := ih hc.pop (by omega)
    rw [Function.iterate_succ_apply]
    refine ⟨hinv, by omega, ?_, ?_⟩
    · rw [hcap, pop_capacity]
    · rw [htime, pop_timeoutSecs]

theorem Inv.garbageCollect {now : UInt32} {c c' : AnnouncementCache T P Q} {n : Nat}
    (hc : c.Inv pq) (h : c.garbageCollect pq now = some (c', n)) :
    c'.Inv pq ∧ c'.len + n = c.len ∧ c'.capacity = c.capacity ∧
      c'.timeoutSecs = c.timeoutSecs := by
  obtain ⟨rfl, hn⟩ := garbageCollect_spec h
  exact hc.iterate_pop (hc.coherent.length ▸ hn)

/-! ## Insertion -/

/-- The cache after its peer's entry is replaced, before the capacity check. -/
theorem Coherent.push_insert {c : AnnouncementCache T P Q} (hc : c.Coherent pq)
    (a : SignedAnnounceFile T P) :
    ({ c with
      priorities := pq.push c.priorities a.peerId a.timestamp.toNat
      items := c.items.insert a.peerId a } : AnnouncementCache T P Q).Coherent pq := by
  refine ⟨fun q => ?_, fun q x hq => ?_, ?_⟩
  · simp only [AList.mem_insert, pq.lookup_push, hc.keys q]
    by_cases hqp : q = a.peerId <;> simp [hqp]
  · by_cases hqp : q = a.peerId
    · subst hqp
      rw [AList.lookup_insert, Option.some.injEq] at hq
      subst hq
      simp [pq.lookup_push]
    · rw [AList.lookup_insert_ne hqp] at hq
      simp only [pq.lookup_push, if_neg hqp]
      exact hc.timestamps q x hq
  · -- both grow by one exactly when the peer is new
    rw [len_insert, pq.length_push, hc.length]
    by_cases hp : a.peerId ∈ c.items
    · rw [if_pos hp, if_pos ((hc.keys _).mp hp)]
    · rw [if_neg hp, if_neg (mt (hc.keys _).mpr hp)]

theorem Inv.insertFresh {c : AnnouncementCache T P Q} (hc : c.Inv pq)
    (a : SignedAnnounceFile T P) :
    (c.insertFresh pq a).Inv pq ∧ (c.insertFresh pq a).capacity = c.capacity ∧
      (c.insertFresh pq a).timeoutSecs = c.timeoutSecs := by
  have hco := hc.coherent.push_insert a
  -- the entry adds one announcement at most
  have hgrow : ({ c with
      priorities := pq.push c.priorities a.peerId a.timestamp.toNat
      items := c.items.insert a.peerId a } : AnnouncementCache T P Q).len ≤ c.len + 1 := by
    rw [len_insert]
    split_ifs <;> omega
  have hle := hc.len_le
  unfold AnnouncementCache.insertFresh
  dsimp only
  split_ifs with hfull
  · -- one past the capacity: `pop` takes the oldest back out
    have hpop := hco.len_pop (by omega)
    refine ⟨⟨hco.pop, by simpa using hc.capacity_pos, ?_⟩, by simp, by simp⟩
    simp only [pop_capacity]
    omega
  · exact ⟨⟨hco, hc.capacity_pos, Nat.le_of_not_lt hfull⟩, rfl, rfl⟩

theorem Inv.insert {now : UInt32} {a : SignedAnnounceFile T P} {c c' : AnnouncementCache T P Q}
    (hc : c.Inv pq) (h : c.insert pq now a = some c') :
    c'.Inv pq ∧ c'.capacity = c.capacity ∧ c'.timeoutSecs = c.timeoutSecs := by
  obtain ⟨⟨c₁, n⟩, hgc, rfl⟩ := Option.map_eq_some_iff.mp h
  obtain ⟨hinv, -, hcap, htime⟩ := hc.garbageCollect hgc
  obtain ⟨hinv', hcap', htime'⟩ := hinv.insertFresh a
  dsimp only
  split
  · split
    · exact ⟨hinv, hcap, htime⟩
    · exact ⟨hinv', hcap'.trans hcap, htime'.trans htime⟩
  · exact ⟨hinv', hcap'.trans hcap, htime'.trans htime⟩

/-! ## Reads -/

theorem Inv.random {now : UInt32} {pick : Nat} {c : AnnouncementCache T P Q}
    {r : AnnouncementCache T P Q × Option (SignedAnnounceFile T P) × Nat} (hc : c.Inv pq)
    (h : c.random pq now pick = some r) :
    r.1.Inv pq ∧ r.1.len + r.2.2 = c.len ∧ r.1.capacity = c.capacity := by
  obtain ⟨⟨c₁, n⟩, hgc, rfl⟩ := Option.map_eq_some_iff.mp h
  obtain ⟨hinv, hlen, hcap, -⟩ := hc.garbageCollect hgc
  dsimp only
  split <;> exact ⟨hinv, hlen, hcap⟩

theorem Inv.all {now : UInt32} {c : AnnouncementCache T P Q}
    {r : AnnouncementCache T P Q × List (SignedAnnounceFile T P) × Nat} (hc : c.Inv pq)
    (h : c.all pq now = some r) :
    r.1.Inv pq ∧ r.1.len + r.2.2 = c.len ∧ r.1.capacity = c.capacity := by
  obtain ⟨⟨c₁, n⟩, hgc, rfl⟩ := Option.map_eq_some_iff.mp h
  obtain ⟨hinv, hlen, hcap, -⟩ := hc.garbageCollect hgc
  exact ⟨hinv, hlen, hcap⟩

end AnnouncementCache

namespace FileCache

variable [DecidableEq T] (pq : MinQueue Q P Nat) (fq : MinQueue R T Nat)

/-! ## All files -/

/-- What `pop` does: nothing, or the oldest announcement of one file taken out, the file
forgotten if that was its last. -/
theorem pop_cases (c : FileCache T P Q R) :
    (c.pop pq fq).1 = c ∨ ∃ txId item, c.files.lookup txId = some item ∧
      ((c.pop pq fq).1 =
          { c with files := c.files.erase txId, priorities := fq.erase c.priorities txId } ∨
        (c.pop pq fq).1 = { c with files := c.files.insert txId (item.pop pq).1 }) := by
  unfold pop
  split
  · exact Or.inl rfl
  · rename_i txId _ _
    split
    · exact Or.inl rfl
    · rename_i item hitem
      right
      refine ⟨txId, item, hitem, ?_⟩
      split_ifs
      · exact Or.inl rfl
      · exact Or.inr rfl

@[simp] theorem pop_config (c : FileCache T P Q R) : (c.pop pq fq).1.config = c.config := by
  rcases c.pop_cases pq fq with h | ⟨_, _, -, h | h⟩ <;> rw [h]

@[simp] theorem pop_totalAnnouncements (c : FileCache T P Q R) :
    (c.pop pq fq).1.totalAnnouncements = c.totalAnnouncements := by
  rcases c.pop_cases pq fq with h | ⟨_, _, -, h | h⟩ <;> rw [h]

/-- Every file cache keeps its invariant at the configured capacity, and the counter is never
below the announcements cached. -/
structure Inv (pq : MinQueue Q P Nat) (c : FileCache T P Q R) : Prop where
  files : ∀ txId item, c.files.lookup txId = some item →
    item.Inv pq ∧ item.capacity = c.config.maxEntriesPerFile
  counted : c.cachedAnnouncements ≤ c.totalAnnouncements

theorem inv_new (config : Config) : (new fq config : FileCache T P Q R).Inv pq := by
  refine ⟨fun txId item h => ?_, Nat.zero_le _⟩
  simp [new, AList.lookup_empty] at h

theorem pop_cachedAnnouncements_le (c : FileCache T P Q R) :
    (c.pop pq fq).1.cachedAnnouncements ≤ c.cachedAnnouncements := by
  rcases c.pop_cases pq fq with h | ⟨txId, item, hitem, h | h⟩
  · rw [h]
  · rw [h]
    exact sumBy_erase_le c.files txId
  · rw [h]
    exact sumBy_insert_le hitem (AnnouncementCache.len_pop_le pq item)

variable {pq fq}

theorem Inv.erase {c : FileCache T P Q R} (hc : c.Inv pq) (txId : T) (q : R) :
    ({ c with files := c.files.erase txId, priorities := q } : FileCache T P Q R).Inv pq := by
  refine ⟨fun t item h => hc.files t item ?_, ?_⟩
  · by_cases ht : t = txId
    · subst ht
      simp [AList.lookup_erase] at h
    · rwa [AList.lookup_erase_ne ht] at h
  · exact (sumBy_erase_le c.files txId).trans hc.counted

/-- A file's cache replaced by one as large at most, of the same capacity. -/
theorem Inv.replace {c : FileCache T P Q R} (hc : c.Inv pq) {txId : T}
    {item item' : AnnouncementCache T P Q} (hitem : c.files.lookup txId = some item)
    (hinv : item'.Inv pq) (hcap : item'.capacity = item.capacity) (hlen : item'.len ≤ item.len) :
    ({ c with files := c.files.insert txId item' } : FileCache T P Q R).Inv pq := by
  refine ⟨fun t x h => ?_, ?_⟩
  · by_cases ht : t = txId
    · subst ht
      rw [AList.lookup_insert, Option.some.injEq] at h
      subst h
      exact ⟨hinv, hcap.trans (hc.files t item hitem).2⟩
    · rw [AList.lookup_insert_ne ht] at h
      exact hc.files t x h
  · exact (sumBy_insert_le hitem hlen).trans hc.counted

theorem Inv.pop {c : FileCache T P Q R} (hc : c.Inv pq) : (c.pop pq fq).1.Inv pq := by
  rcases c.pop_cases pq fq with h | ⟨txId, item, hitem, h | h⟩ <;> rw [h]
  · exact hc
  · exact hc.erase txId _
  · have hinv := (hc.files txId item hitem).1
    exact hc.replace hitem hinv.pop (AnnouncementCache.pop_capacity pq item)
      (AnnouncementCache.len_pop_le pq item)

/-- The file's cache `insert` starts from: the cached one, or a new empty one. -/
theorem Inv.fileEntry {c : FileCache T P Q R} (hc : c.Inv pq) {txId : T}
    {item : AnnouncementCache T P Q} (h : c.fileEntry pq txId = some item) :
    item.Inv pq ∧ item.capacity = c.config.maxEntriesPerFile ∧
      sumBy AnnouncementCache.len (c.files.erase txId) + item.len = c.cachedAnnouncements := by
  unfold FileCache.fileEntry at h
  split at h
  · rename_i item' hitem
    cases h
    exact ⟨(hc.files txId item hitem).1, (hc.files txId item hitem).2, sumBy_erase_add hitem⟩
  · rename_i hnone
    obtain ⟨hinv, hcap, hlen⟩ := AnnouncementCache.inv_new h
    refine ⟨hinv, hcap, ?_⟩
    rw [hlen, sumBy_erase_of_lookup_eq_none hnone]
    rfl

/-- What a successful `insert` does: the file's cache, old or new, takes the announcement; the
counter grows by the cache's new length; then one `pop` if the counter passed the bound. -/
theorem insert_spec {now : UInt32} {a : SignedAnnounceFile T P} {c c' : FileCache T P Q R}
    (h : c.insert pq fq now a = some c') :
    ∃ item item', c.fileEntry pq a.txId = some item ∧ item.len ≤ c.totalAnnouncements ∧
      item.insert pq now a = some item' ∧ ∃ c₁ : FileCache T P Q R, c₁.config = c.config ∧
        c₁.files = c.files.insert a.txId item' ∧
        c₁.totalAnnouncements = c.totalAnnouncements + item'.len ∧
        (c' = c₁ ∨ c' = (c₁.pop pq fq).1) := by
  unfold FileCache.insert at h
  obtain ⟨item, hentry, h⟩ := Option.bind_eq_some_iff.mp h
  split_ifs at h with hlt
  obtain ⟨item', hins, h⟩ := Option.bind_eq_some_iff.mp h
  refine ⟨item, item', hentry, Nat.le_of_not_lt hlt, hins, ?_⟩
  dsimp only at h
  split_ifs at h
  · refine ⟨_, ?_, ?_, ?_, Or.inr (Option.some.inj h).symm⟩ <;> rfl
  · refine ⟨_, ?_, ?_, ?_, Or.inl (Option.some.inj h).symm⟩ <;> rfl

theorem Inv.insert {now : UInt32} {a : SignedAnnounceFile T P} {c c' : FileCache T P Q R}
    (hc : c.Inv pq) (h : c.insert pq fq now a = some c') : c'.Inv pq := by
  obtain ⟨item, item', hentry, -, hins, c₁, hconf, hfiles, htotal, hc'⟩ := insert_spec h
  obtain ⟨hinv, hcap, hsum⟩ := hc.fileEntry hentry
  obtain ⟨hinv', hcap', -⟩ := hinv.insert hins
  have h₁ : c₁.Inv pq := by
    refine ⟨fun t x hx => ?_, ?_⟩
    · rw [hfiles] at hx
      rw [hconf]
      by_cases ht : t = a.txId
      · subst ht
        rw [AList.lookup_insert, Option.some.injEq] at hx
        subst hx
        exact ⟨hinv', hcap'.trans hcap⟩
      · rw [AList.lookup_insert_ne ht] at hx
        exact hc.files t x hx
    · -- the counter grows by the new length, the caches by at most that
      have hins := sumBy_insert (f := AnnouncementCache.len) c.files a.txId item'
      have hcount := hc.counted
      unfold cachedAnnouncements at hcount hsum ⊢
      rw [hfiles, htotal, hins]
      omega
  rcases hc' with rfl | rfl
  · exact h₁
  · exact h₁.pop

theorem Inv.updateAfterGc {txId : T} {collected : Nat} {c c' : FileCache T P Q R}
    (hc : c.Inv pq) (h : c.updateAfterGc pq fq txId collected = some c') : c'.Inv pq := by
  unfold FileCache.updateAfterGc at h
  split_ifs at h with h0 hlt
  · cases h
    exact hc
  · split at h
    · cases h
      exact hc
    · split_ifs at h
      · cases h
        exact hc.erase txId _
      · split at h
        · cases h
        · cases h
          exact ⟨hc.files, hc.counted⟩

theorem Inv.random {now : UInt32} {pick : Nat} {txId : T} {c : FileCache T P Q R}
    {r : FileCache T P Q R × Option (SignedAnnounceFile T P)} (hc : c.Inv pq)
    (h : c.random pq fq now pick txId = some r) : r.1.Inv pq := by
  unfold FileCache.random at h
  split at h
  · cases h
    exact hc
  · rename_i item hitem
    obtain ⟨r₁, hr₁, h⟩ := Option.bind_eq_some_iff.mp h
    obtain ⟨c₂, hc₂, h⟩ := Option.bind_eq_some_iff.mp h
    cases h
    obtain ⟨hinv, hlen, hcap⟩ := (hc.files txId item hitem).1.random hr₁
    exact (hc.replace hitem hinv hcap (by omega)).updateAfterGc hc₂

theorem Inv.all {now : UInt32} {txId : T} {c : FileCache T P Q R}
    {r : FileCache T P Q R × Option (List (SignedAnnounceFile T P))} (hc : c.Inv pq)
    (h : c.all pq fq now txId = some r) : r.1.Inv pq := by
  unfold FileCache.all at h
  split at h
  · cases h
    exact hc
  · rename_i item hitem
    obtain ⟨r₁, hr₁, h⟩ := Option.bind_eq_some_iff.mp h
    obtain ⟨c₂, hc₂, h⟩ := Option.bind_eq_some_iff.mp h
    cases h
    obtain ⟨hinv, hlen, hcap⟩ := (hc.files txId item hitem).1.all hr₁
    exact (hc.replace hitem hinv hcap (by omega)).updateAfterGc hc₂

/-! ## Runs -/

/-- One call of `FileLocationCache` that returns. -/
def Step (pq : MinQueue Q P Nat) (fq : MinQueue R T Nat) (c c' : FileCache T P Q R) : Prop := ∃ call, step pq fq call c = some c'

theorem Inv.step {call : Call T P} {c c' : FileCache T P Q R} (hc : c.Inv pq)
    (h : FileLocation.step pq fq call c = some c') : c'.Inv pq := by
  cases call with
  | insert now a => exact hc.insert h
  | getOne now pick txId =>
    obtain ⟨r, hr, rfl⟩ := Option.map_eq_some_iff.mp h
    exact hc.random hr
  | getAll now txId =>
    obtain ⟨r, hr, rfl⟩ := Option.map_eq_some_iff.mp h
    obtain ⟨r', hr', rfl⟩ := Option.map_eq_some_iff.mp hr
    exact hc.all hr'

/-- **Run lemma.** Under any sequence of calls, every file's cache keeps its peers in both maps,
within the configured capacity, and the counter never falls below the announcements cached. -/
theorem Inv.run {c c' : FileCache T P Q R} (hc : c.Inv pq)
    (h : Relation.ReflTransGen (Step pq fq) c c') : c'.Inv pq := by
  induction h with
  | refl => exact hc
  | tail _ hstep ih =>
    obtain ⟨call, hcall⟩ := hstep
    exact ih.step hcall

/-! ## The counter -/

/-- `insert` counts the file's announcements again: from a state whose counter is right, an
announcement for a file that already holds one leaves the counter above the announcements
cached, whether it is kept, ignored as older, or pushes an older one out. -/
theorem insert_overcounts {now : UInt32} {a : SignedAnnounceFile T P} {c c' : FileCache T P Q R}
    {item : AnnouncementCache T P Q} (hcount : c.totalAnnouncements = c.cachedAnnouncements)
    (hitem : c.files.lookup a.txId = some item) (hpos : 0 < item.len)
    (h : c.insert pq fq now a = some c') : c'.cachedAnnouncements < c'.totalAnnouncements := by
  obtain ⟨item₀, item', hentry, -, -, c₁, -, hfiles, htotal, hc'⟩ := insert_spec h
  have hitem₀ : item₀ = item := by
    unfold FileCache.fileEntry at hentry
    rw [hitem] at hentry
    exact (Option.some.inj hentry).symm
  subst hitem₀
  -- the caches lose the old length and gain the new one; the counter only gains the new one
  have hsum := sumBy_erase_add (f := AnnouncementCache.len) hitem
  have hins := sumBy_insert (f := AnnouncementCache.len) c.files a.txId item'
  have h₁ : c₁.cachedAnnouncements < c₁.totalAnnouncements := by
    unfold cachedAnnouncements at hcount ⊢
    rw [hfiles, htotal, hins]
    omega
  rcases hc' with rfl | rfl
  · exact h₁
  · calc (c₁.pop pq fq).1.cachedAnnouncements ≤ c₁.cachedAnnouncements :=
        pop_cachedAnnouncements_le pq fq c₁
      _ < c₁.totalAnnouncements := h₁
      _ = (c₁.pop pq fq).1.totalAnnouncements := (pop_totalAnnouncements pq fq c₁).symm

/-- Two announcements of one file by two peers, on queues of lists of entries. -/
theorem insert_overcounts_example :
    ∃ c₁ c₂ : FileCache Nat Nat (ListQueue Nat Nat) (ListQueue Nat Nat),
      (FileLocationCache.default ListQueue.minQueue).insert ListQueue.minQueue ListQueue.minQueue
          100 ⟨0, 0, 100⟩ = some c₁ ∧
        c₁.insert ListQueue.minQueue ListQueue.minQueue 100 ⟨0, 1, 100⟩ = some c₂ ∧
        c₂.cachedAnnouncements < c₂.totalAnnouncements := by
  -- the first announcement finds an empty cache
  have hgc₀ : (⟨4, 3600, ∅, ListQueue.empty⟩ : AnnouncementCache Nat Nat (ListQueue Nat Nat)).garbageCollect
      ListQueue.minQueue 100 = some (⟨4, 3600, ∅, ListQueue.empty⟩, 0) :=
    AnnouncementCache.garbageCollect_of_peek_eq_none rfl
  have h₁ : (FileLocationCache.default ListQueue.minQueue :
      FileCache Nat Nat (ListQueue Nat Nat) (ListQueue Nat Nat)).insert ListQueue.minQueue
        ListQueue.minQueue 100 ⟨0, 0, 100⟩ = some
      ⟨Config.default, 1, (∅ : AList fun _ : Nat => AnnouncementCache Nat Nat (ListQueue Nat Nat)).insert 0
        ⟨4, 3600, (∅ : AList fun _ : Nat => SignedAnnounceFile Nat Nat).insert 0 ⟨0, 0, 100⟩,
          ListQueue.empty.push 0 100⟩, ListQueue.empty.push 0 100⟩ := by
    simp only [FileCache.insert, FileLocationCache.default, FileCache.new, FileCache.fileEntry,
      AList.lookup_empty, AnnouncementCache.new, Config.default, AnnouncementCache.insert,
      show (0 : Nat) < 4 from by decide, if_true, Option.bind_eq_bind, Option.bind_some]
    rw [show (ListQueue.minQueue : MinQueue (ListQueue Nat Nat) Nat Nat).empty = ListQueue.empty
      from rfl, hgc₀]
    rfl
  -- the second one finds the first unexpired, `100 + 3600 > 100`
  have hgc₁ : (⟨4, 3600, (∅ : AList fun _ : Nat => SignedAnnounceFile Nat Nat).insert 0 ⟨0, 0, 100⟩,
      ListQueue.empty.push 0 100⟩ : AnnouncementCache Nat Nat (ListQueue Nat Nat)).garbageCollect
        ListQueue.minQueue 100 =
      some (⟨4, 3600, (∅ : AList fun _ : Nat => SignedAnnounceFile Nat Nat).insert 0 ⟨0, 0, 100⟩,
        ListQueue.empty.push 0 100⟩, 0) :=
    AnnouncementCache.garbageCollect_of_unexpired rfl (by decide) (by decide)
  have h₂ : (FileCache.insert ListQueue.minQueue ListQueue.minQueue 100 ⟨0, 1, 100⟩
      ⟨Config.default, 1,
        (∅ : AList fun _ : Nat => AnnouncementCache Nat Nat (ListQueue Nat Nat)).insert 0
        ⟨4, 3600, (∅ : AList fun _ : Nat => SignedAnnounceFile Nat Nat).insert 0 ⟨0, 0, 100⟩,
          ListQueue.empty.push 0 100⟩, ListQueue.empty.push 0 100⟩).isSome = true := by
    simp only [FileCache.insert, FileCache.fileEntry, AList.lookup_insert,
      AnnouncementCache.insert, Option.bind_eq_bind, Option.bind_some]
    rw [hgc₁]
    rfl
  obtain ⟨c₂, h₂⟩ := Option.isSome_iff_exists.mp h₂
  exact ⟨_, c₂, h₁, h₂, insert_overcounts rfl rfl (by decide) h₂⟩

end FileCache

end Ionian.FileLocation
