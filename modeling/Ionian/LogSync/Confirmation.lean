import Ionian.Kv.SortedMap
import Ionian.Slice.Search

/-!
# LogSync.Confirmation — `LogConfirmationQueue` of `log_entry_fetcher.rs`

The queue keeps the logs not yet confirmed, by block, in increasing block order.  `push` groups a
batch of logs by block, the removed logs apart; the first removed block cuts the queue there and
names the first reverted `tx_seq`, and the new blocks go to the back.  `confirm_logs(latest)` pops
the blocks from the front up to `latest.wrapping_sub(confirmation_delay)`.

Block numbers are `u64` values, here `Nat`s below `2 ^ 64`; `wrappingSub` is `u64::wrapping_sub`.
`decode` stands for `SubmissionFilter::decode_log` on the log's topics and data.  `push` returns the
queue it leaves with its `Result`, since a `?` or a `bail!` returns after the queue was cut or
grown; the `expect("not empty")` on the removed logs of a block is `none`, and never happens
(`push_isSome`).

Every call keeps the queue sorted, each block holding its own logs and no removed log (`Inv`), so
the `assert!` of `watch_loop` on the confirmed logs never fails (`Inv.run`,
`confirmLogs_not_removed`).  A confirmed log comes from a block at most `latest - delay` once
`delay ≤ latest` (`confirmLogs_block_le`); below that, the subtraction wraps, and `confirm_logs`
pops every block (`confirmLogs_before_delay`).

A batch with a removed log of block `b` leaves only the blocks below `b` the queue held, beside
the new blocks of the batch (`push_removed_cuts`), but only once every log of the batch has a
block number: otherwise the grouping fails first, and the queue is left uncut
(`push_missing_block`).
-/

namespace Ionian.LogSync

open Kv Slice

variable {α : Type}

/-- The fields of an `ethers` `Log` the queue reads; `raw` is what `decode_log` reads. -/
structure Log (α : Type) where
  removed : Option Bool
  blockNumber : Option Nat
  raw : α

/-- `log.removed.unwrap_or(false)`. -/
def Log.isRemoved (log : Log α) : Bool := log.removed.getD false

/-- `u64::wrapping_sub`. -/
def wrappingSub (a b : Nat) : Nat := (a % 2 ^ 64 + 2 ^ 64 - b % 2 ^ 64) % 2 ^ 64

theorem wrappingSub_of_le {a b : Nat} (ha : a < 2 ^ 64) (hb : b ≤ a) : wrappingSub a b = a - b := by
  have hb' : b < 2 ^ 64 := by omega
  unfold wrappingSub
  rw [Nat.mod_eq_of_lt ha, Nat.mod_eq_of_lt hb']
  omega

theorem wrappingSub_of_lt {a b : Nat} (hab : a < b) (hb : b < 2 ^ 64) :
    wrappingSub a b = 2 ^ 64 - (b - a) := by
  have ha : a < 2 ^ 64 := by omega
  unfold wrappingSub
  rw [Nat.mod_eq_of_lt ha, Nat.mod_eq_of_lt hb]
  omega

/-- A queue of logs by block. -/
abbrev Blocks (α : Type) := List (Nat × List (Log α))

/-- `LogConfirmationQueue`. -/
structure LogConfirmationQueue (α : Type) where
  queue : Blocks α
  latestBlockNumber : Nat
  confirmationDelay : Nat

namespace LogConfirmationQueue

def new (confirmationDelay : Nat) : LogConfirmationQueue α := ⟨[], 0, confirmationDelay⟩

/-! ## `push` -/

/-- `set.entry(block_number).or_insert(Vec::new()).push(log)` on a `BTreeMap`. -/
def pushEntry (m : SortedMap Nat (List (Log α))) (b : Nat) (log : Log α) :
    SortedMap Nat (List (Log α)) :=
  m.insert b ((m.lookup b).getD [] ++ [log])

/-- The first loop of `push`: the logs by block, the removed ones apart; a log without a block
number is an error. -/
def groupLogs : List (Log α) → SortedMap Nat (List (Log α)) → SortedMap Nat (List (Log α)) →
    Except String (SortedMap Nat (List (Log α)) × SortedMap Nat (List (Log α)))
  | [], blockLogs, removedBlockLogs => .ok (blockLogs, removedBlockLogs)
  | log :: rest, blockLogs, removedBlockLogs =>
    match log.blockNumber with
    | none => .error "block number missing"
    | some b =>
      if log.isRemoved then groupLogs rest blockLogs (pushEntry removedBlockLogs b log)
      else groupLogs rest (pushEntry blockLogs b log) removedBlockLogs

/-- The revert loop of `push`: the first removed block cuts the queue and its first log names
the first reverted `tx_seq`; the other removed blocks are skipped. -/
def handleRevert (decode : Log α → Except String Nat) (queue : Blocks α) :
    Blocks α → Option (Blocks α × Except String (Option Nat))
  | [] => some (queue, .ok none)
  | (b, removedLogs) :: _ =>
    let revertedIndex := match binarySearchByKey Prod.fst b queue with
      | .ok x => x
      | .error x => x
    let queue := queue.take revertedIndex
    match removedLogs.head? with
    -- `expect("not empty")`
    | none => none
    | some first => some (queue, (decode first).map some)

/-- The last loop of `push`: every new block goes to the back, after the last block. -/
def pushBlocks : Blocks α → Blocks α → Blocks α × Except String Unit
  | queue, [] => (queue, .ok ())
  | queue, (b, newLogs) :: rest =>
    if b ≤ (queue.getLast?.map Prod.fst).getD 0 then
      (queue, .error "reverted without being notified")
    else pushBlocks (queue ++ [(b, newLogs)]) rest

/-- `push`: the queue left, and `Ok` of the first reverted `tx_seq` if a reorg happened. -/
def push (decode : Log α → Except String Nat) (q : LogConfirmationQueue α) (logs : List (Log α)) :
    Option (LogConfirmationQueue α × Except String (Option Nat)) :=
  match groupLogs logs SortedMap.empty SortedMap.empty with
  | .error e => some (q, .error e)
  | .ok (blockLogs, removedBlockLogs) =>
    (handleRevert decode q.queue removedBlockLogs.entries).map fun r =>
      match r.2 with
      | .error e => ({ q with queue := r.1 }, .error e)
      | .ok revertTo =>
        let s := pushBlocks r.1 blockLogs.entries
        ({ q with queue := s.1 }, s.2.map fun _ => revertTo)

/-! ## `confirm_logs` -/

/-- The `while` loop of `confirm_logs`: the logs of the front blocks up to `bound`, and the
blocks left. -/
def confirmLoop (bound : Nat) : Blocks α → List (Log α) × Blocks α
  | [] => ([], [])
  | (b, logs) :: rest =>
    if bound < b then ([], (b, logs) :: rest)
    else ((logs ++ (confirmLoop bound rest).1), (confirmLoop bound rest).2)

/-- `confirm_logs(latest_block_number)`. -/
def confirmLogs (q : LogConfirmationQueue α) (latestBlockNumber : Nat) :
    LogConfirmationQueue α × List (Log α) :=
  let r := confirmLoop (wrappingSub latestBlockNumber q.confirmationDelay) q.queue
  ({ q with queue := r.2, latestBlockNumber }, r.1)

/-! ## The invariant -/

variable {q : LogConfirmationQueue α}

section Invariant

/-- The blocks increase strictly. -/
def Sorted (queue : Blocks α) : Prop := queue.Pairwise fun a b => a.1 < b.1

/-- Each block holds at least one log, every one of that block and of the removed flag `flag`. -/
def Grouped (flag : Bool) (entries : Blocks α) : Prop :=
  ∀ e ∈ entries, e.2 ≠ [] ∧ ∀ log ∈ e.2, log.blockNumber = some e.1 ∧ log.isRemoved = flag

/-- The queue is sorted by block, and each block holds its own logs, none of them removed. -/
structure Inv (q : LogConfirmationQueue α) : Prop where
  sorted : Sorted q.queue
  grouped : Grouped false q.queue

theorem inv_new (confirmationDelay : Nat) : Inv (new confirmationDelay : LogConfirmationQueue α) :=
  ⟨List.Pairwise.nil, fun _ he => by cases he⟩

theorem grouped_append {flag : Bool} {xs ys : Blocks α} (hx : Grouped flag xs)
    (hy : Grouped flag ys) : Grouped flag (xs ++ ys) := fun e he =>
  (List.mem_append.mp he).elim (hx e) (hy e)

theorem Grouped.of_sub {flag : Bool} {xs ys : Blocks α} (hy : Grouped flag ys) (h : xs ⊆ ys) :
    Grouped flag xs := fun e he => hy e (h he)

/-- The last block of a sorted queue is its largest. -/
theorem fst_le_last {queue : Blocks α} (hs : Sorted queue) {x : Nat × List (Log α)}
    (hx : x ∈ queue) : x.1 ≤ (queue.getLast?.map Prod.fst).getD 0 := by
  induction queue generalizing x with
  | nil => cases hx
  | cons y ys ih =>
    cases ys with
    | nil =>
      rw [List.mem_singleton.mp hx]
      simp
    | cons z zs =>
      rw [List.getLast?_cons_cons]
      rcases List.mem_cons.mp hx with rfl | hx
      · have hz := ih hs.of_cons List.mem_cons_self
        have hyz := List.rel_of_pairwise_cons hs List.mem_cons_self
        omega
      · exact ih hs.of_cons hx

theorem sorted_append_of_lt {queue : Blocks α} (hs : Sorted queue) {b : Nat}
    (hlt : (queue.getLast?.map Prod.fst).getD 0 < b) (logs : List (Log α)) :
    Sorted (queue ++ [(b, logs)]) := by
  refine List.pairwise_append.mpr ⟨hs, List.pairwise_singleton _ _, fun x hx y hy => ?_⟩
  rw [List.mem_singleton.mp hy]
  exact lt_of_le_of_lt (fst_le_last hs hx) hlt

end Invariant

/-! ## What `push` does -/

section Push

variable {flag : Bool}

theorem grouped_pushEntry {m : SortedMap Nat (List (Log α))} (hm : Grouped flag m.entries)
    {b : Nat} {log : Log α} (hb : log.blockNumber = some b) (hr : log.isRemoved = flag) :
    Grouped flag (pushEntry m b log).entries := by
  intro e he
  rcases SortedMap.mem_insertEntries he with rfl | he
  · refine ⟨by simp, fun l hl => ?_⟩
    rcases List.mem_append.mp hl with hl | hl
    · -- a log already grouped under `b`
      cases hlk : m.lookup b with
      | none => simp [hlk] at hl
      | some old =>
        rw [hlk, Option.getD_some] at hl
        exact (hm (b, old) (SortedMap.mem_of_lookup hlk)).2 l hl
    · rw [List.mem_singleton.mp hl]
      exact ⟨hb, hr⟩
  · exact hm e he

/-- The grouping puts every log under its block, removed logs apart. -/
theorem groupLogs_grouped {logs : List (Log α)} {m r m' r' : SortedMap Nat (List (Log α))}
    (h : groupLogs logs m r = .ok (m', r')) (hm : Grouped false m.entries)
    (hr : Grouped true r.entries) : Grouped false m'.entries ∧ Grouped true r'.entries := by
  induction logs generalizing m r with
  | nil =>
    cases h
    exact ⟨hm, hr⟩
  | cons log rest ih =>
    unfold groupLogs at h
    split at h
    · cases h
    · rename_i b hb
      split_ifs at h with hrem
      · exact ih h hm (grouped_pushEntry hr hb hrem)
      · exact ih h (grouped_pushEntry hm hb (by simpa using hrem)) hr

/-- A removed log of a block leaves that block among the removed ones. -/
theorem groupLogs_removed {logs : List (Log α)} {m r m' r' : SortedMap Nat (List (Log α))}
    (h : groupLogs logs m r = .ok (m', r')) {b : Nat} (hb : (r.lookup b).isSome ∨
      ∃ log ∈ logs, log.blockNumber = some b ∧ log.isRemoved = true) : (r'.lookup b).isSome := by
  induction logs generalizing m r with
  | nil =>
    cases h
    simpa using hb
  | cons log rest ih =>
    unfold groupLogs at h
    split at h
    · cases h
    · rename_i b' hb'
      split_ifs at h with hrem
      · refine ih h ?_
        rcases hb with hb | ⟨l, hl, hlb, hlr⟩
        · left
          simp only [pushEntry, SortedMap.lookup_insert]
          split_ifs <;> simp [hb]
        · rcases List.mem_cons.mp hl with rfl | hl
          · left
            rw [hlb, Option.some.injEq] at hb'
            simp [pushEntry, hb']
          · exact Or.inr ⟨l, hl, hlb, hlr⟩
      · refine ih h ?_
        rcases hb with hb | ⟨l, hl, hlb, hlr⟩
        · exact Or.inl hb
        · rcases List.mem_cons.mp hl with rfl | hl
          · exact absurd hlr hrem
          · exact Or.inr ⟨l, hl, hlb, hlr⟩

/-- A log without a block number fails the grouping, whatever else the batch holds. -/
theorem groupLogs_missing {logs : List (Log α)} (hmiss : ∃ log ∈ logs, log.blockNumber = none)
    (m r : SortedMap Nat (List (Log α))) : groupLogs logs m r = .error "block number missing" := by
  induction logs generalizing m r with
  | nil => simp at hmiss
  | cons log rest ih =>
    unfold groupLogs
    split
    · rfl
    · rename_i b hb
      have hrest : ∃ l ∈ rest, l.blockNumber = none := by
        obtain ⟨l, hl, hln⟩ := hmiss
        rcases List.mem_cons.mp hl with rfl | hl
        · rw [hb] at hln
          cases hln
        · exact ⟨l, hl, hln⟩
      split_ifs
      · exact ih hrest _ _
      · exact ih hrest _ _

/-- The cut at the first removed block `b`: the blocks below `b` stay. -/
theorem handleRevert_cons (decode : Log α → Except String Nat) {queue : Blocks α}
    (hs : Sorted queue) {b : Nat} {first : Log α} {more : List (Log α)} (rest : Blocks α) :
    ∃ pre post, queue = pre ++ post ∧ (∀ e ∈ pre, e.1 < b) ∧ (∀ e ∈ post, b ≤ e.1) ∧
      handleRevert decode queue ((b, first :: more) :: rest) =
        some (pre, (decode first).map some) := by
  obtain ⟨pre, post, rfl, hpre, hpost⟩ := exists_split_of_pairwise b hs
  refine ⟨pre, post, rfl, hpre, hpost, ?_⟩
  -- both answers of the search are the length of the blocks below `b`
  have hidx : (match binarySearchByKey Prod.fst b (pre ++ post) with
      | .ok x => x
      | .error x => x) = pre.length := by
    rw [binarySearchByKey_append hpre hpost]
    split_ifs <;> rfl
  unfold handleRevert
  dsimp only
  rw [hidx, List.take_left' rfl]
  rfl

/-- The new blocks go to the back while they pass the last block: the queue stays sorted, and
holds the blocks it held and new ones. -/
theorem pushBlocks_spec {queue blocks : Blocks α} (hs : Sorted queue) (hg : Grouped false queue)
    (hnew : Grouped false blocks) :
    Sorted (pushBlocks queue blocks).1 ∧ Grouped false (pushBlocks queue blocks).1 ∧
      ∀ e ∈ (pushBlocks queue blocks).1, e ∈ queue ∨ e ∈ blocks := by
  induction blocks generalizing queue with
  | nil => exact ⟨hs, hg, fun e he => Or.inl he⟩
  | cons x rest ih =>
    obtain ⟨b, newLogs⟩ := x
    unfold pushBlocks
    split_ifs with hle
    · exact ⟨hs, hg, fun e he => Or.inl he⟩
    · have hx : Grouped false [(b, newLogs)] :=
        hnew.of_sub fun e he => List.mem_singleton.mp he ▸ List.mem_cons_self
      obtain ⟨h₁, h₂, h₃⟩ := ih (sorted_append_of_lt hs (by omega) newLogs)
        (grouped_append hg hx) (hnew.of_sub (List.subset_cons_self _ _))
      refine ⟨h₁, h₂, fun e he => ?_⟩
      rcases h₃ e he with he | he
      · rcases List.mem_append.mp he with he | he
        · exact Or.inl he
        · exact Or.inr (List.mem_singleton.mp he ▸ List.mem_cons_self)
      · exact Or.inr (List.mem_cons_of_mem _ he)

/-- `push` never panics: the removed logs of a block are never empty. -/
theorem push_isSome (decode : Log α → Except String Nat) (q : LogConfirmationQueue α)
    (logs : List (Log α)) : (q.push decode logs).isSome := by
  unfold push
  split
  · rfl
  · rename_i blockLogs removedBlockLogs hgroup
    have hr := (groupLogs_grouped hgroup (fun _ he => by cases he) fun _ he => by cases he).2
    rw [Option.isSome_map]
    cases hrem : removedBlockLogs.entries with
    | nil => rfl
    | cons x rest =>
      obtain ⟨b, removedLogs⟩ := x
      obtain ⟨hne, -⟩ := hr (b, removedLogs) (hrem ▸ List.mem_cons_self)
      obtain ⟨first, more, rfl⟩ := List.exists_cons_of_ne_nil hne
      simp [handleRevert]

/-- **`push` keeps the invariant**, whatever it returns. -/
theorem Inv.push (hi : Inv q) (decode : Log α → Except String Nat) {logs : List (Log α)}
    {q' : LogConfirmationQueue α} {res : Except String (Option Nat)}
    (h : q.push decode logs = some (q', res)) : Inv q' := by
  unfold LogConfirmationQueue.push at h
  split at h
  · cases h
    exact hi
  · rename_i blockLogs removedBlockLogs hgroup
    obtain ⟨hm, hr⟩ := groupLogs_grouped hgroup (fun _ he => by cases he) fun _ he => by cases he
    obtain ⟨⟨cut, r⟩, hcut, heq⟩ := Option.map_eq_some_iff.mp h
    -- the cut keeps a prefix of the queue
    have hpre : cut <+: q.queue := by
      cases hrem : removedBlockLogs.entries with
      | nil =>
        rw [hrem] at hcut
        cases hcut
        exact List.prefix_refl _
      | cons x rest =>
        obtain ⟨b, removedLogs⟩ := x
        obtain ⟨hne, -⟩ := hr (b, removedLogs) (hrem ▸ List.mem_cons_self)
        obtain ⟨first, more, rfl⟩ := List.exists_cons_of_ne_nil hne
        obtain ⟨pre, post, hsplit, -, -, hrev⟩ := handleRevert_cons decode hi.sorted rest
        rw [hrem, hrev, Option.some.injEq, Prod.mk.injEq] at hcut
        obtain ⟨rfl, -⟩ := hcut
        exact ⟨post, hsplit.symm⟩
    have hs : Sorted cut := hi.sorted.sublist hpre.sublist
    have hg : Grouped false cut := hi.grouped.of_sub hpre.subset
    dsimp only at heq
    split at heq
    · cases heq
      exact ⟨hs, hg⟩
    · cases heq
      obtain ⟨h₁, h₂, -⟩ := pushBlocks_spec hs hg hm
      exact ⟨h₁, h₂⟩

end Push

/-! ## What `confirm_logs` does -/

section Confirm

/-- The loop pops the front blocks up to `bound`. -/
theorem confirmLoop_eq (bound : Nat) (xs : Blocks α) :
    confirmLoop bound xs = ((xs.takeWhile fun e => decide (e.1 ≤ bound)).flatMap Prod.snd,
      xs.dropWhile fun e => decide (e.1 ≤ bound)) := by
  induction xs with
  | nil => rfl
  | cons e rest ih =>
    obtain ⟨b, logs⟩ := e
    by_cases hb : bound < b
    · simp [confirmLoop, hb, Nat.not_le.mpr hb]
    · simp [confirmLoop, hb, ih, Nat.le_of_not_lt hb]

theorem Inv.confirmLogs (hi : Inv q) (latestBlockNumber : Nat) :
    Inv (q.confirmLogs latestBlockNumber).1 := by
  have hsuf := List.dropWhile_suffix (fun e : Nat × List (Log α) =>
    decide (e.1 ≤ wrappingSub latestBlockNumber q.confirmationDelay)) (l := q.queue)
  simp only [LogConfirmationQueue.confirmLogs, confirmLoop_eq]
  exact ⟨hi.sorted.sublist hsuf.sublist, hi.grouped.of_sub hsuf.subset⟩

/-- A confirmed log is a queued log of a block up to `latest.wrapping_sub(delay)`, not removed. -/
theorem mem_confirmLogs (hi : Inv q) {latestBlockNumber : Nat} {log : Log α}
    (h : log ∈ (q.confirmLogs latestBlockNumber).2) :
    ∃ b, log.blockNumber = some b ∧ b ≤ wrappingSub latestBlockNumber q.confirmationDelay ∧
      log.isRemoved = false := by
  simp only [LogConfirmationQueue.confirmLogs, confirmLoop_eq] at h
  obtain ⟨e, he, hl⟩ := List.mem_flatMap.mp h
  have hle := List.mem_takeWhile_imp he
  obtain ⟨-, hg⟩ := hi.grouped e ((List.takeWhile_prefix _).subset he)
  obtain ⟨hb, hr⟩ := hg log hl
  exact ⟨e.1, hb, by simpa using hle, hr⟩

/-- The `assert!` of `watch_loop` holds: no confirmed log is removed. -/
theorem confirmLogs_not_removed (hi : Inv q) {latestBlockNumber : Nat} {log : Log α}
    (h : log ∈ (q.confirmLogs latestBlockNumber).2) : log.isRemoved = false := by
  obtain ⟨_, -, -, hr⟩ := mem_confirmLogs hi h
  exact hr

/-- Once the delay has passed, a confirmed log comes from a block at least `confirmation_delay`
blocks below the latest. -/
theorem confirmLogs_block_le (hi : Inv q) {latestBlockNumber : Nat}
    (hlatest : latestBlockNumber < 2 ^ 64) (hdelay : q.confirmationDelay ≤ latestBlockNumber)
    {log : Log α} (h : log ∈ (q.confirmLogs latestBlockNumber).2) :
    ∃ b, log.blockNumber = some b ∧ b + q.confirmationDelay ≤ latestBlockNumber := by
  obtain ⟨b, hb, hle, -⟩ := mem_confirmLogs hi h
  rw [wrappingSub_of_le hlatest hdelay] at hle
  exact ⟨b, hb, by omega⟩

/-- Before the delay has passed, `latest.wrapping_sub(delay)` wraps past every block number of
the chain: `confirm_logs` returns the logs of the front block, though it is fewer than
`confirmation_delay` blocks below the latest. -/
theorem confirmLogs_before_delay {latestBlockNumber : Nat}
    (hlt : latestBlockNumber < q.confirmationDelay) (hdelay : q.confirmationDelay < 2 ^ 64)
    {b : Nat} {logs : List (Log α)} {rest : Blocks α} (hq : q.queue = (b, logs) :: rest)
    (hb : b + q.confirmationDelay ≤ 2 ^ 64 + latestBlockNumber) :
    latestBlockNumber < b + q.confirmationDelay ∧
      ∃ more, (q.confirmLogs latestBlockNumber).2 = logs ++ more := by
  have hwrap := wrappingSub_of_lt hlt hdelay
  have hnot : ¬ 2 ^ 64 - (q.confirmationDelay - latestBlockNumber) < b := by omega
  refine ⟨by omega, ?_⟩
  simp only [LogConfirmationQueue.confirmLogs, hq, hwrap, confirmLoop, if_neg hnot]
  exact ⟨_, rfl⟩

/-- A log of block `5` pushed to a new queue of delay `10` is confirmed at block `0`. -/
theorem confirmLogs_before_delay_example :
    (new 10 : LogConfirmationQueue Unit).push (fun _ => .ok 0) [⟨none, some 5, ()⟩] =
        some (⟨[(5, [⟨none, some 5, ()⟩])], 0, 10⟩, .ok none) ∧
      0 < 5 + 10 ∧ ∃ more,
        ((⟨[(5, [⟨none, some 5, ()⟩])], 0, 10⟩ : LogConfirmationQueue Unit).confirmLogs 0).2 =
          [⟨none, some 5, ()⟩] ++ more :=
  ⟨rfl, confirmLogs_before_delay (q := ⟨[(5, [⟨none, some 5, ()⟩])], 0, 10⟩) (by decide)
    (by decide) rfl (by decide)⟩

end Confirm

/-! ## Runs -/

section Run

/-- The calls `watch_loop` makes on the queue. -/
inductive Call (α : Type)
  | push (logs : List (Log α))
  | confirmLogs (latestBlockNumber : Nat)

/-- One call; the results are dropped. -/
def step (decode : Log α → Except String Nat) (q : LogConfirmationQueue α) :
    Call α → Option (LogConfirmationQueue α)
  | .push logs => (q.push decode logs).map Prod.fst
  | .confirmLogs latestBlockNumber => some (q.confirmLogs latestBlockNumber).1

/-- A run of calls. -/
def run (decode : Log α → Except String Nat) (q : LogConfirmationQueue α) (calls : List (Call α)) :
    Option (LogConfirmationQueue α) :=
  calls.foldlM (step decode) q

theorem Inv.step (hi : Inv q) (decode : Log α → Except String Nat) {c : Call α}
    {q' : LogConfirmationQueue α} (h : LogConfirmationQueue.step decode q c = some q') :
    Inv q' := by
  cases c with
  | push logs =>
    obtain ⟨⟨q'', res⟩, hpush, rfl⟩ := Option.map_eq_some_iff.mp h
    exact hi.push decode hpush
  | confirmLogs latestBlockNumber =>
    cases h
    exact hi.confirmLogs latestBlockNumber

/-- **Every run keeps the invariant**, so no run panics and no confirmed log is removed. -/
theorem Inv.run (hi : Inv q) (decode : Log α → Except String Nat) (calls : List (Call α)) :
    ∃ q', LogConfirmationQueue.run decode q calls = some q' ∧ Inv q' := by
  induction calls generalizing q with
  | nil => exact ⟨q, rfl, hi⟩
  | cons c rest ih =>
    have hstep : (LogConfirmationQueue.step decode q c).isSome := by
      cases c with
      | push logs => simpa [LogConfirmationQueue.step] using push_isSome decode q logs
      | confirmLogs latestBlockNumber => rfl
    obtain ⟨q₁, hq₁⟩ := Option.isSome_iff_exists.mp hstep
    obtain ⟨q', hrun, hi'⟩ := ih (hi.step decode hq₁)
    refine ⟨q', ?_, hi'⟩
    show (c :: rest).foldlM (LogConfirmationQueue.step decode) q = some q'
    rw [List.foldlM_cons, hq₁]
    exact hrun

end Run

/-! ## What a reorg cuts -/

section Revert

/-- The grouped logs are logs of the batch, or were grouped before. -/
theorem groupLogs_mem {logs : List (Log α)} {m r m' r' : SortedMap Nat (List (Log α))}
    (h : groupLogs logs m r = .ok (m', r')) :
    ∀ e ∈ m'.entries, ∀ l ∈ e.2, l ∈ logs ∨ ∃ e₀ ∈ m.entries, l ∈ e₀.2 := by
  induction logs generalizing m r with
  | nil =>
    cases h
    exact fun e he l hl => Or.inr ⟨e, he, hl⟩
  | cons log rest ih =>
    unfold groupLogs at h
    split at h
    · cases h
    · rename_i b hb
      split_ifs at h with hrem
      · intro e he l hl
        exact (ih h e he l hl).imp_left (List.mem_cons_of_mem _)
      · intro e he l hl
        rcases ih h e he l hl with hl | ⟨e₀, he₀, hl₀⟩
        · exact Or.inl (List.mem_cons_of_mem _ hl)
        · -- a log grouped under `b` by this step, or before it
          rcases SortedMap.mem_insertEntries he₀ with rfl | he₀
          · rcases List.mem_append.mp hl₀ with hl₀ | hl₀
            · cases hlk : m.lookup b with
              | none => simp [hlk] at hl₀
              | some old =>
                rw [hlk, Option.getD_some] at hl₀
                exact Or.inr ⟨(b, old), SortedMap.mem_of_lookup hlk, hl₀⟩
            · exact Or.inl (List.mem_singleton.mp hl₀ ▸ List.mem_cons_self)
          · exact Or.inr ⟨e₀, he₀, hl₀⟩

/-- Logs that all carry a block number are grouped without error. -/
theorem groupLogs_ok {logs : List (Log α)} (hblocks : ∀ log ∈ logs, log.blockNumber.isSome)
    (m r : SortedMap Nat (List (Log α))) : ∃ m' r', groupLogs logs m r = .ok (m', r') := by
  induction logs generalizing m r with
  | nil => exact ⟨m, r, rfl⟩
  | cons log rest ih =>
    obtain ⟨b, hb⟩ := Option.isSome_iff_exists.mp (hblocks log List.mem_cons_self)
    have hrest : ∀ l ∈ rest, l.blockNumber.isSome := fun l hl => hblocks l (List.mem_cons_of_mem _ hl)
    unfold groupLogs
    rw [hb]
    dsimp only
    split_ifs
    · exact ih hrest _ _
    · exact ih hrest _ _

/-- A batch with a log that has no block number fails before the revert: the queue is left as it
was, even when the batch also holds removed logs. -/
theorem push_missing_block (decode : Log α → Except String Nat) (q : LogConfirmationQueue α)
    {logs : List (Log α)} (hmiss : ∃ log ∈ logs, log.blockNumber = none) :
    q.push decode logs = some (q, .error "block number missing") := by
  unfold LogConfirmationQueue.push
  rw [groupLogs_missing hmiss]

/-- **A reorg cuts the queue at the removed block.**  Once a batch whose logs all carry a block
number and that holds a removed log of block `b` is pushed, every block the queue holds is a block
below `b` it held before, or holds only logs of the batch. -/
theorem push_removed_cuts (hi : Inv q) (decode : Log α → Except String Nat)
    {logs : List (Log α)} (hblocks : ∀ log ∈ logs, log.blockNumber.isSome) {b : Nat}
    (hrem : ∃ log ∈ logs, log.blockNumber = some b ∧ log.isRemoved = true)
    {q' : LogConfirmationQueue α} {res : Except String (Option Nat)}
    (h : q.push decode logs = some (q', res)) :
    ∀ e ∈ q'.queue, (e ∈ q.queue ∧ e.1 < b) ∨ ∀ l ∈ e.2, l ∈ logs := by
  obtain ⟨m, r, hgroup⟩ := groupLogs_ok hblocks SortedMap.empty SortedMap.empty
  obtain ⟨hm, hr⟩ := groupLogs_grouped hgroup (fun _ he => by cases he) fun _ he => by cases he
  -- the removed block `b` is grouped, so the first removed block `b₀` is at most `b`
  obtain ⟨v, hv⟩ := Option.isSome_iff_exists.mp (groupLogs_removed hgroup (Or.inr hrem))
  have hbv := SortedMap.mem_of_lookup hv
  obtain ⟨x, rest, hentries⟩ := List.exists_cons_of_ne_nil (List.ne_nil_of_mem hbv)
  obtain ⟨b₀, removedLogs⟩ := x
  have hb₀ : b₀ ≤ b := by
    have hsorted := r.sorted
    rw [hentries] at hbv hsorted
    rcases List.mem_cons.mp hbv with heq | hbv
    · exact (Prod.mk.inj heq).1 ▸ Nat.le_refl _
    · exact (List.rel_of_pairwise_cons hsorted hbv).le
  obtain ⟨hne, -⟩ := hr (b₀, removedLogs) (hentries ▸ List.mem_cons_self)
  obtain ⟨first, more, rfl⟩ := List.exists_cons_of_ne_nil hne
  obtain ⟨pre, post, hsplit, hpre, -, hrev⟩ :=
    @handleRevert_cons _ decode _ hi.sorted b₀ first more rest
  -- the blocks kept by the cut are blocks below `b₀` the queue held
  have hkept : ∀ e ∈ pre, e ∈ q.queue ∧ e.1 < b := fun e he =>
    ⟨hsplit ▸ List.mem_append_left _ he, by have := hpre e he; omega⟩
  unfold LogConfirmationQueue.push at h
  rw [hgroup] at h
  dsimp only at h
  rw [hentries, hrev, Option.map_some, Option.some.injEq] at h
  dsimp only at h
  split at h
  · cases h
    exact fun e he => Or.inl (hkept e he)
  · cases h
    intro e he
    rcases (pushBlocks_spec (hi.sorted.sublist (hsplit ▸ List.sublist_append_left _ _))
      (hi.grouped.of_sub (hsplit ▸ List.subset_append_left _ _)) hm).2.2 e he with he | he
    · exact Or.inl (hkept e he)
    · -- a new block, of logs of the batch
      refine Or.inr fun l hl => ?_
      rcases groupLogs_mem hgroup e he l hl with hl | ⟨e₀, he₀, -⟩
      · exact hl
      · cases he₀

end Revert

end LogConfirmationQueue

end Ionian.LogSync
