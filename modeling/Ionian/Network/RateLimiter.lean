import Ionian.Gcra.Schedule

/-!
# Network.RateLimiter — the per-key GCRA limiter of the RPC layer

`Limiter` (`rpc/rate_limiter.rs`) keeps, for each key, the theoretical arrival time of the GCRA,
in nanoseconds since the limiter started.  `allows` answers a batch of `tokens` tokens:
`TooLarge` when the batch costs more than the tolerance `tau`, `TooSoon` with the wait when it does
not conform, and otherwise pushes the key's time on; `prune` forgets the keys whose time has
passed.

Per key, the limiter is the virtual scheduling meter of `Gcra` with tolerance `tau` and cells of
cost `t * tokens`, a key that is not stored reading as time `0` (`accepted_eq_admitted`).  So the
meter's window bound holds of every run of calls made in time order (`accepted_window`), and
forgetting a passed time changes no later answer (`answers_prune`).

Times are the `u64` nanoseconds of the source as natural numbers: the source's own comment
rules out the wrap of `as_nanos() as u64` for the node's lifetime.  The cost `t * tokens` and the
sums `tat + additional_time` of `allows` are `u64` too, here `Nat`: every stored time stays at
most `tau` past the last call (`TatWithin`), so over a run made in time order whose calls come
`2 * tau` before `2 ^ 64` with costs within `u64`, none of them reaches `2 ^ 64`
(`runFits_of_tatWithin`); `Network.RpcLimiter` instantiates the bound for the node's quotas.
-/

namespace Ionian.Network

/-- `Quota`, its period `replenish_all_every` in nanoseconds (`Duration::as_nanos`). -/
structure Quota where
  replenishAllEvery : Nat
  maxTokens : Nat
  deriving DecidableEq, Repr

/-- `RateLimitedErr`; the wait of `TooSoon` in nanoseconds. -/
inductive RateLimitedErr
  | tooLarge
  | tooSoon (wait : Nat)
  deriving DecidableEq, Repr

/-- `Limiter<Key>`. -/
structure Limiter (κ : Type) where
  tau : Nat
  t : Nat
  tatPerKey : AList fun _ : κ => Nat

/-- A call on a limiter: `allows` at a time since the start, or `prune` at a time limit. -/
inductive LimiterCall (κ : Type)
  | allows (timeSinceStart : Nat) (key : κ) (tokens : Nat)
  | prune (timeLimit : Nat)

section Maps

variable {κ : Type} [DecidableEq κ]

/-- `entry(key).or_insert(default)`: the map with the key present, and the key's value. -/
def entryOrInsert (m : AList fun _ : κ => Nat) (key : κ) (default : Nat) :
    (AList fun _ : κ => Nat) × Nat :=
  match m.lookup key with
  | some v => (m, v)
  | none => (m.insert key default, default)

/-- `HashMap::retain` on a map of times. -/
def retain (m : AList fun _ : κ => Nat) (keep : Nat → Bool) : AList fun _ : κ => Nat :=
  ⟨m.entries.filter fun e => keep e.2, m.nodupKeys.sublist List.filter_sublist⟩

theorem entryOrInsert_snd (m : AList fun _ : κ => Nat) (key : κ) (default : Nat) :
    (entryOrInsert m key default).2 = (m.lookup key).getD default := by
  unfold entryOrInsert
  cases m.lookup key <;> rfl

theorem entryOrInsert_insert (m : AList fun _ : κ => Nat) (key : κ) (default v : Nat) :
    (entryOrInsert m key default).1.insert key v = m.insert key v := by
  unfold entryOrInsert
  cases m.lookup key
  · exact AList.insert_insert m
  · rfl

theorem lookup_entryOrInsert_ne (m : AList fun _ : κ => Nat) {key k : κ} (hk : k ≠ key)
    (default : Nat) : (entryOrInsert m key default).1.lookup k = m.lookup k := by
  unfold entryOrInsert
  cases m.lookup key
  · exact AList.lookup_insert_ne hk
  · rfl

theorem lookup_entryOrInsert_self (m : AList fun _ : κ => Nat) (key : κ) (default : Nat) :
    (entryOrInsert m key default).1.lookup key = some ((m.lookup key).getD default) := by
  unfold entryOrInsert
  cases h : m.lookup key
  · exact AList.lookup_insert m
  · exact h

/-- With the key already present, `or_insert` leaves the map as it was. -/
theorem entryOrInsert_of_lookup {m : AList fun _ : κ => Nat} {key : κ} {v : Nat}
    (h : m.lookup key = some v) (default : Nat) : entryOrInsert m key default = (m, v) := by
  simp only [entryOrInsert, h]

theorem lookup_retain (m : AList fun _ : κ => Nat) (keep : Nat → Bool) (k : κ) :
    (retain m keep).lookup k = (m.lookup k).filter keep := by
  apply Option.ext
  intro v
  rw [← Option.mem_def, AList.mem_lookup_iff, Option.filter_eq_some_iff, ← Option.mem_def,
    AList.mem_lookup_iff]
  exact List.mem_filter

end Maps

namespace Limiter

variable {κ : Type} [DecidableEq κ]

/-- `Limiter::from_quota`. -/
def fromQuota (quota : Quota) : Except String (Limiter κ) :=
  if quota.maxTokens = 0 then .error "Max number of tokens should be positive"
  else
    let tau := quota.replenishAllEvery
    if tau = 0 then .error "Replenish time must be positive"
    -- the two conversions of the `u128` nanoseconds to `u64`: the period per token, then `tau`
    else if 2 ^ 64 ≤ tau / quota.maxTokens then .error "total replenish time is too long"
    else if 2 ^ 64 ≤ tau then .error "total replenish time is too long"
    else .ok ⟨tau, tau / quota.maxTokens, ∅⟩

/-- `Limiter::allows`. -/
def allows (l : Limiter κ) (timeSinceStart : Nat) (key : κ) (tokens : Nat) :
    Limiter κ × Except RateLimitedErr Unit :=
  let tau := l.tau
  let t := l.t
  let additionalTime := t * tokens
  if additionalTime > tau then (l, .error .tooLarge)
  else
    -- a new key's bucket is full: its time is the time of the call
    let entry := entryOrInsert l.tatPerKey key timeSinceStart
    let tat := entry.2
    let earliestTime := tat + additionalTime - tau
    if timeSinceStart < earliestTime then
      ({ l with tatPerKey := entry.1 }, .error (.tooSoon (earliestTime - timeSinceStart)))
    else
      ({ l with tatPerKey := entry.1.insert key (max timeSinceStart tat + additionalTime) },
        .ok ())

/-- `Limiter::prune`. -/
def prune (l : Limiter κ) (timeLimit : Nat) : Limiter κ :=
  let lim := timeLimit
  { l with tatPerKey := retain l.tatPerKey fun tat => lim ≤ tat }

/-- The time `allows` reads for `key` at `now`: the stored one, or `now` for a new key. -/
def storedTat (l : Limiter κ) (key : κ) (now : Nat) : Nat := (l.tatPerKey.lookup key).getD now

/-- The key's theoretical arrival time as the meter sees it: `0` when it is not stored. -/
def tatOf (l : Limiter κ) (key : κ) : Nat := (l.tatPerKey.lookup key).getD 0

/-- The stored time and the meter's time of a key agree at the time of the call. -/
theorem agree_storedTat (l : Limiter κ) (key : κ) (now : Nat) :
    Gcra.Agree now (l.storedTat key now) (l.tatOf key) := by
  unfold storedTat tatOf
  cases l.tatPerKey.lookup key
  · exact Gcra.agree_zero (le_refl now)
  · exact Gcra.Agree.refl _ _

/-- **What `allows` does**: `TooLarge` for a batch that costs more than `tau`; otherwise the
meter's step on the time `allows` reads, the wait of `TooSoon` counted to the first time the
batch conforms. -/
theorem allows_eq (l : Limiter κ) (now : Nat) (key : κ) (tokens : Nat) :
    l.allows now key tokens =
      if l.tau < l.t * tokens then (l, .error .tooLarge)
      else if Gcra.conforms l.tau (l.storedTat key now) now (l.t * tokens) then
        ({ l with
            tatPerKey := l.tatPerKey.insert key
              (Gcra.arrive l.tau (l.storedTat key now) now (l.t * tokens)) },
          .ok ())
      else
        ({ l with tatPerKey := (entryOrInsert l.tatPerKey key now).1 },
          .error (.tooSoon (l.storedTat key now + l.t * tokens - l.tau - now))) := by
  have hstored : (entryOrInsert l.tatPerKey key now).2 = l.storedTat key now :=
    entryOrInsert_snd _ _ _
  simp only [allows, gt_iff_lt, hstored, entryOrInsert_insert]
  split
  · rfl
  · rename_i hlarge
    by_cases hc : Gcra.conforms l.tau (l.storedTat key now) now (l.t * tokens) = true
    · have hle := (Gcra.conforms_iff_of_le (by omega) now).mp hc
      rw [if_neg (by omega), if_pos hc, Gcra.arrive_of_conforms hc]
    · have hlt := mt (Gcra.conforms_iff_of_le (by omega) now).mpr hc
      rw [if_pos (by omega), if_neg hc]

/-- The answer of `allows`. -/
theorem allows_snd (l : Limiter κ) (now : Nat) (key : κ) (tokens : Nat) :
    (l.allows now key tokens).2 =
      if l.tau < l.t * tokens then .error .tooLarge
      else if Gcra.conforms l.tau (l.storedTat key now) now (l.t * tokens) then .ok ()
      else .error (.tooSoon (l.storedTat key now + l.t * tokens - l.tau - now)) := by
  rw [allows_eq]
  split_ifs <;> rfl

@[simp]
theorem tau_allows (l : Limiter κ) (now : Nat) (key : κ) (tokens : Nat) :
    (l.allows now key tokens).1.tau = l.tau := by
  rw [allows_eq]
  split_ifs <;> rfl

@[simp]
theorem t_allows (l : Limiter κ) (now : Nat) (key : κ) (tokens : Nat) :
    (l.allows now key tokens).1.t = l.t := by
  rw [allows_eq]
  split_ifs <;> rfl

omit [DecidableEq κ] in
@[simp]
theorem tau_prune (l : Limiter κ) (lim : Nat) : (l.prune lim).tau = l.tau := rfl

omit [DecidableEq κ] in
@[simp]
theorem t_prune (l : Limiter κ) (lim : Nat) : (l.prune lim).t = l.t := rfl

/-- A call for one key leaves every other key's time. -/
theorem lookup_allows_ne (l : Limiter κ) (now : Nat) {key k : κ} (hk : k ≠ key) (tokens : Nat) :
    (l.allows now key tokens).1.tatPerKey.lookup k = l.tatPerKey.lookup k := by
  rw [allows_eq]
  split_ifs
  · rfl
  · exact AList.lookup_insert_ne hk
  · exact lookup_entryOrInsert_ne _ hk _

/-- A batch that conforms is accepted, and only such a batch. -/
theorem allows_ok_iff (l : Limiter κ) (now : Nat) (key : κ) (tokens : Nat) :
    (l.allows now key tokens).2 = .ok () ↔
      Gcra.conforms l.tau (l.tatOf key) now (l.t * tokens) = true := by
  rw [← (agree_storedTat l key now).conforms, allows_eq]
  split_ifs with hlarge hc
  · simp only [false_iff, Bool.not_eq_true]
    exact Gcra.conforms_eq_false_iff.mpr (.inr hlarge)
  · simp [hc]
  · simp [hc]

/-- After a call for `key` at `now`, the key's time agrees with the meter's step. -/
theorem agree_allows_self (l : Limiter κ) (now : Nat) (key : κ) (tokens : Nat) :
    Gcra.Agree now ((l.allows now key tokens).1.tatOf key)
      (Gcra.arrive l.tau (l.tatOf key) now (l.t * tokens)) := by
  have hs := agree_storedTat l key now
  refine Gcra.Agree.trans ?_ (hs.arrive (le_refl now) _)
  rw [allows_eq]
  split_ifs with hlarge hc
  · rw [Gcra.arrive_of_not_conforms (Gcra.conforms_eq_false_iff.mpr (.inr hlarge))]
    exact hs.symm
  · simp only [tatOf, AList.lookup_insert, Option.getD_some]
    exact Gcra.Agree.refl _ _
  · rw [Gcra.arrive_of_not_conforms (by simpa using hc)]
    simp only [tatOf, lookup_entryOrInsert_self, Option.getD_some]
    exact Gcra.Agree.refl _ _

/-- Pruning at `lim` forgets a key exactly when its time has passed `lim`. -/
theorem tatOf_prune (l : Limiter κ) (lim : Nat) (k : κ) :
    (l.prune lim).tatOf k = if l.tatOf k < lim then 0 else l.tatOf k := by
  simp only [prune, tatOf, lookup_retain]
  rcases Option.eq_none_or_eq_some (l.tatPerKey.lookup k) with h | ⟨v, h⟩
  · simp [h]
  · by_cases hv : v < lim
    · simp [h, Option.filter, hv, Nat.not_le_of_lt hv]
    · simp [h, Option.filter, hv, Nat.le_of_not_lt hv]

/-- What pruning at `lim` forgets is invisible from `lim` on. -/
theorem agree_prune (l : Limiter κ) (lim : Nat) (k : κ) :
    Gcra.Agree lim ((l.prune lim).tatOf k) (l.tatOf k) := by
  rw [tatOf_prune]
  split
  · exact Gcra.agree_of_le (Nat.zero_le lim) (by omega)
  · exact Gcra.Agree.refl _ _

/-- **`TooSoon` names the exact wait**: a batch turned away with `TooSoon wait` leaves the limiter
as it was, is accepted when sent again `wait` nanoseconds later, and is turned away before that
with the wait that is left. -/
theorem allows_tooSoon {l : Limiter κ} {now : Nat} {key : κ} {tokens wait : Nat}
    (h : (l.allows now key tokens).2 = .error (.tooSoon wait)) :
    (l.allows now key tokens).1 = l ∧ 0 < wait ∧ (l.allows (now + wait) key tokens).2 = .ok () ∧
      ∀ n, now ≤ n → n < now + wait →
        (l.allows n key tokens).2 = .error (.tooSoon (now + wait - n)) := by
  rw [allows_snd] at h
  -- `TooLarge` and `Ok` are not `TooSoon`; the `TooSoon` branch puts its wait for `wait`
  by_cases hlarge : l.tau < l.t * tokens
  · rw [if_pos hlarge] at h
    cases h
  rw [if_neg hlarge] at h
  by_cases hc : Gcra.conforms l.tau (l.storedTat key now) now (l.t * tokens) = true
  · rw [if_pos hc] at h
    cases h
  rw [if_neg hc] at h
  cases h
  have hcost : l.t * tokens ≤ l.tau := Nat.le_of_not_lt hlarge
  have hlt := Gcra.lt_of_not_conforms (Bool.eq_false_iff.mpr hc) hcost
  -- the key is stored: the time of a new key is the time of the call, on which a batch conforms
  obtain ⟨v, hv⟩ : ∃ v, l.tatPerKey.lookup key = some v := by
    rcases Option.eq_none_or_eq_some (l.tatPerKey.lookup key) with hn | hs
    · simp [storedTat, hn] at hlt
    · exact hs
  have hstored : ∀ n, l.storedTat key n = v := fun n => by simp [storedTat, hv]
  have hconf : ∀ n, Gcra.conforms l.tau (l.storedTat key n) n (l.t * tokens) = true ↔
      v + l.t * tokens - l.tau ≤ n := by
    intro n
    rw [hstored, Gcra.conforms_iff_of_le hcost]
  have hearly : now < v + l.t * tokens - l.tau := by
    have := mt (hconf now).mpr hc
    omega
  rw [hstored]
  refine ⟨?_, by omega, ?_, ?_⟩
  · rw [allows_eq, if_neg hlarge, if_neg hc, entryOrInsert_of_lookup hv]
  · rw [allows_snd, if_neg hlarge, if_pos ((hconf _).mpr (by omega))]
  · intro n hn hlt'
    rw [allows_snd, if_neg hlarge, if_neg (mt (hconf n).mp (by omega)), hstored]
    congr 2
    omega

/-- After four single tokens at a period of `20` nanoseconds for four tokens, the fifth, at `4`,
waits one nanosecond. -/
theorem allows_tooSoon_fifth :
    let l : Limiter Nat := ⟨20, 5, (∅ : AList fun _ : Nat => Nat).insert 10 20⟩
    (l.allows 4 10 1).2 = .error (.tooSoon 1) ∧
      ((l.allows 4 10 1).1 = l ∧ 0 < 1 ∧ (l.allows (4 + 1) 10 1).2 = .ok () ∧
        ∀ n, 4 ≤ n → n < 4 + 1 → (l.allows n 10 1).2 = .error (.tooSoon (4 + 1 - n))) :=
  ⟨by decide, allows_tooSoon (by decide)⟩

@[simp]
theorem tatOf_empty (tau t : Nat) (key : κ) : (⟨tau, t, ∅⟩ : Limiter κ).tatOf key = 0 := rfl

/-- One call, and what it returns (`prune` returns nothing, written `.ok ()`). -/
def call (l : Limiter κ) : LimiterCall κ → Limiter κ × Except RateLimitedErr Unit
  | .allows timeSinceStart key tokens => l.allows timeSinceStart key tokens
  | .prune timeLimit => (l.prune timeLimit, .ok ())

/-- The answers to a run of calls. -/
def answers : Limiter κ → List (LimiterCall κ) → List (Except RateLimitedErr Unit)
  | _, [] => []
  | l, c :: cs => (l.call c).2 :: answers (l.call c).1 cs

end Limiter

namespace LimiterCall

variable {κ : Type} [DecidableEq κ]

/-- The time a call is made at. -/
def time : LimiterCall κ → Nat
  | .allows timeSinceStart _ _ => timeSinceStart
  | .prune timeLimit => timeLimit

/-- The tokens a call asks, of any key. -/
def tokens : LimiterCall κ → Nat
  | .allows _ _ tokens => tokens
  | .prune _ => 0

/-- The tokens a call asks of `key`. -/
def tokensFor (key : κ) : LimiterCall κ → Nat
  | .allows _ k tokens => if k = key then tokens else 0
  | .prune _ => 0

/-- The cell a call sends to the meter of `key`: its time and its cost `t * tokens`. -/
def arrival (t : Nat) (key : κ) : LimiterCall κ → Option (Nat × Nat)
  | .allows timeSinceStart k tokens => if k = key then some (timeSinceStart, t * tokens) else none
  | .prune _ => none

@[simp]
theorem tokensFor_prune (key : κ) (lim : Nat) : (prune lim : LimiterCall κ).tokensFor key = 0 := rfl

@[simp]
theorem arrival_prune (t : Nat) (key : κ) (lim : Nat) :
    (prune lim : LimiterCall κ).arrival t key = none :=
  rfl

theorem time_of_arrival {t : Nat} {key : κ} {c : LimiterCall κ} {p : Nat × Nat}
    (h : c.arrival t key = some p) : p.1 = c.time := by
  cases c with
  | allows n k tokens =>
    simp only [arrival, Option.ite_none_right_eq_some, Option.some.injEq] at h
    rw [← h.2]
    rfl
  | prune lim => exact absurd h (by simp [arrival])

end LimiterCall

/-- Calls made in time order. -/
def TimeOrdered {κ : Type} (calls : List (LimiterCall κ)) : Prop :=
  calls.Pairwise fun c d => c.time ≤ d.time

instance {κ : Type} (calls : List (LimiterCall κ)) : Decidable (TimeOrdered calls) :=
  inferInstanceAs (Decidable (calls.Pairwise fun c d => c.time ≤ d.time))

namespace Limiter

variable {κ : Type} [DecidableEq κ]

/-- The tokens of `key` that a run of calls accepts. -/
def accepted (key : κ) : Limiter κ → List (LimiterCall κ) → Nat
  | _, [] => 0
  | l, c :: cs =>
    (if (l.call c).2 = .ok () then c.tokensFor key else 0) + accepted key (l.call c).1 cs

/-- The cells a run of calls sends to the meter of `key`. -/
def arrivalsFor (t : Nat) (key : κ) (calls : List (LimiterCall κ)) : List (Nat × Nat) :=
  calls.filterMap (LimiterCall.arrival t key)

@[simp]
theorem tau_call (l : Limiter κ) (c : LimiterCall κ) : (l.call c).1.tau = l.tau := by
  cases c <;> simp [call]

@[simp]
theorem t_call (l : Limiter κ) (c : LimiterCall κ) : (l.call c).1.t = l.t := by
  cases c <;> simp [call]

theorem accepted_cons (key : κ) (l : Limiter κ) (c : LimiterCall κ) (cs : List (LimiterCall κ)) :
    l.accepted key (c :: cs) =
      (if (l.call c).2 = .ok () then c.tokensFor key else 0) + (l.call c).1.accepted key cs :=
  rfl

theorem arrivalsFor_cons (t : Nat) (key : κ) (c : LimiterCall κ) (cs : List (LimiterCall κ)) :
    arrivalsFor t key (c :: cs) = (c.arrival t key).toList ++ arrivalsFor t key cs := by
  unfold arrivalsFor
  rw [List.filterMap_cons]
  cases c.arrival t key <;> rfl

/-- The cost of what one call for `key` accepts is the cost the meter admits. -/
theorem mul_ite_allows_ok (l : Limiter κ) (now : Nat) (key : κ) (tokens : Nat) :
    l.t * (if (l.allows now key tokens).2 = .ok () then tokens else 0) =
      if Gcra.conforms l.tau (l.tatOf key) now (l.t * tokens) then l.t * tokens else 0 := by
  by_cases hok : (l.allows now key tokens).2 = .ok ()
  · rw [if_pos hok, if_pos ((allows_ok_iff l now key tokens).mp hok)]
  · rw [if_neg hok, if_neg (mt (allows_ok_iff l now key tokens).mpr hok), Nat.mul_zero]

/-- **The limiter refines the meter, key by key**: over calls made in time order from `now`
on, the cost of the tokens accepted for `key` is what the meter admits from a time agreeing with
the key's at `now`. -/
theorem accepted_eq_admitted_of_agree (key : κ) {calls : List (LimiterCall κ)}
    (hs : TimeOrdered calls) :
    ∀ {l : Limiter κ} {now g : Nat}, (∀ c ∈ calls, now ≤ c.time) →
      Gcra.Agree now (l.tatOf key) g →
      l.t * l.accepted key calls = Gcra.admitted l.tau g (arrivalsFor l.t key calls) := by
  induction calls with
  | nil => intro _ _ _ _ _; rfl
  | cons c cs ih =>
    intro l now g hnow hg
    have hc : now ≤ c.time := hnow c List.mem_cons_self
    obtain ⟨hcs, hs⟩ := List.pairwise_cons.mp hs
    -- the rest of the run goes on from the time of this call
    have hrest : ∀ {g' : Nat}, Gcra.Agree c.time ((l.call c).1.tatOf key) g' →
        l.t * (l.call c).1.accepted key cs = Gcra.admitted l.tau g' (arrivalsFor l.t key cs) := by
      intro g' hg'
      have h := ih hs hcs hg'
      rwa [t_call, tau_call] at h
    rw [accepted_cons, arrivalsFor_cons]
    cases c with
    | prune lim =>
      rw [LimiterCall.tokensFor_prune, LimiterCall.arrival_prune, ite_self, Nat.zero_add,
        Option.toList_none, List.nil_append]
      exact hrest ((agree_prune l lim key).trans (hg.mono hc))
    | allows n k tokens =>
      by_cases hk : k = key
      · subst hk
        have hn : Gcra.Agree n (l.tatOf k) g := hg.mono hc
        simp only [LimiterCall.tokensFor, LimiterCall.arrival, if_true, Option.toList_some,
          List.singleton_append, Gcra.admitted_cons]
        rw [Nat.mul_add, ← hn.conforms]
        congr 1
        · exact mul_ite_allows_ok l n k tokens
        · exact hrest ((agree_allows_self l n k tokens).trans (hn.arrive (le_refl n) _))
      · have hg' : Gcra.Agree n ((l.allows n k tokens).1.tatOf key) g := by
          simp only [tatOf, lookup_allows_ne l n (Ne.symm hk)]
          exact hg.mono hc
        simp only [LimiterCall.tokensFor, LimiterCall.arrival, hk, if_false, ite_self,
          Nat.zero_add, Option.toList_none, List.nil_append]
        exact hrest hg'

/-- Over calls made in time order, the cost of the tokens accepted for `key` is what the meter
admits from the key's time. -/
theorem accepted_eq_admitted (l : Limiter κ) (key : κ) {calls : List (LimiterCall κ)}
    (hs : TimeOrdered calls) :
    l.t * l.accepted key calls = Gcra.admitted l.tau (l.tatOf key) (arrivalsFor l.t key calls) :=
  accepted_eq_admitted_of_agree key hs (fun c _ => Nat.zero_le c.time) (Gcra.Agree.refl 0 _)

/-- The cells a run of calls sends to a meter arrive at the times of its calls. -/
theorem time_of_mem_arrivalsFor {t : Nat} {key : κ} {calls : List (LimiterCall κ)}
    {p : Nat × Nat} (hp : p ∈ arrivalsFor t key calls) : ∃ c ∈ calls, c.time = p.1 := by
  obtain ⟨c, hc, hcp⟩ := List.mem_filterMap.mp hp
  exact ⟨c, hc, (LimiterCall.time_of_arrival hcp).symm⟩

/-- **The limiter's window bound**: from any state, over calls made in time order within
`[a, b]`, the tokens accepted for one key cost at most `tau + (b - a)`. -/
theorem accepted_window (l : Limiter κ) (key : κ) {calls : List (LimiterCall κ)} {a b : Nat}
    (hs : TimeOrdered calls) (hab : ∀ c ∈ calls, a ≤ c.time ∧ c.time ≤ b) :
    l.t * l.accepted key calls ≤ l.tau + (b - a) := by
  rw [accepted_eq_admitted l key hs]
  apply Gcra.admitted_window
  intro p hp
  obtain ⟨c, hc, hcp⟩ := time_of_mem_arrivalsFor hp
  rw [← hcp]
  exact hab c hc

/-- The test `it_works_b` at a period of `20` nanoseconds for four tokens: single tokens at `0`
to `4` nanoseconds, of which the first four are accepted. -/
def itWorksB : List (LimiterCall Nat) :=
  [.allows 0 10 1, .allows 1 10 1, .allows 2 10 1, .allows 3 10 1, .allows 4 10 1]

theorem accepted_window_itWorksB :
    TimeOrdered itWorksB ∧ (∀ c ∈ itWorksB, 0 ≤ c.time ∧ c.time ≤ 4) ∧
      (⟨20, 5, ∅⟩ : Limiter Nat).accepted 10 itWorksB = 4 ∧
      (⟨20, 5, ∅⟩ : Limiter Nat).t * (⟨20, 5, ∅⟩ : Limiter Nat).accepted 10 itWorksB ≤
        (⟨20, 5, ∅⟩ : Limiter Nat).tau + (4 - 0) :=
  ⟨by decide, by decide, by decide, accepted_window _ 10 (by decide) (by decide)⟩

/-! ## Pruning is invisible -/

/-- Two limiters that answer alike from `now` on: the same parameters and, key by key, times
that agree at `now`. -/
structure SameFrom (now : Nat) (l₁ l₂ : Limiter κ) : Prop where
  tau : l₁.tau = l₂.tau
  t : l₁.t = l₂.t
  tat : ∀ k, Gcra.Agree now (l₁.tatOf k) (l₂.tatOf k)

theorem SameFrom.mono {now now' : Nat} {l₁ l₂ : Limiter κ} (h : SameFrom now l₁ l₂)
    (hle : now ≤ now') : SameFrom now' l₁ l₂ :=
  ⟨h.tau, h.t, fun k => (h.tat k).mono hle⟩

/-- Limiters that agree at the time of a call answer it alike. -/
theorem SameFrom.answer_allows {n : Nat} {l₁ l₂ : Limiter κ} (h : SameFrom n l₁ l₂) (key : κ)
    (tokens : Nat) : (l₁.allows n key tokens).2 = (l₂.allows n key tokens).2 := by
  have hs : Gcra.Agree n (l₁.storedTat key n) (l₂.storedTat key n) :=
    (agree_storedTat l₁ key n).trans ((h.tat key).trans (agree_storedTat l₂ key n).symm)
  rw [Limiter.allows_snd, Limiter.allows_snd, h.tau, h.t, hs.conforms]
  split_ifs with hlarge hc
  · rfl
  · rfl
  -- a batch turned away is turned away from the same stored time, which is still ahead
  · rw [hs.symm.eq_of_not_conforms (Bool.eq_false_iff.mpr hc) (Nat.le_of_not_lt hlarge)]

theorem SameFrom.allows {now n : Nat} {l₁ l₂ : Limiter κ} (h : SameFrom now l₁ l₂)
    (hle : now ≤ n) (key : κ) (tokens : Nat) :
    SameFrom n (l₁.allows n key tokens).1 (l₂.allows n key tokens).1 := by
  have hn := h.mono hle
  refine ⟨by simp [hn.tau], by simp [hn.t], fun k => ?_⟩
  by_cases hk : k = key
  · subst hk
    refine (agree_allows_self l₁ n k tokens).trans
      (Gcra.Agree.trans ?_ (agree_allows_self l₂ n k tokens).symm)
    rw [hn.tau, hn.t]
    exact (hn.tat k).arrive (le_refl n) _
  · simp only [tatOf, lookup_allows_ne _ n hk]
    exact hn.tat k

theorem SameFrom.prune {now lim : Nat} {l₁ l₂ : Limiter κ} (h : SameFrom now l₁ l₂)
    (hle : now ≤ lim) : SameFrom lim (l₁.prune lim) (l₂.prune lim) :=
  ⟨h.tau, h.t, fun k =>
    (agree_prune l₁ lim k).trans (((h.tat k).mono hle).trans (agree_prune l₂ lim k).symm)⟩

/-- One call from limiters that agree at its time: the same answer, and limiters that agree
from then on. -/
theorem SameFrom.call {now : Nat} {l₁ l₂ : Limiter κ} (h : SameFrom now l₁ l₂)
    {c : LimiterCall κ} (hle : now ≤ c.time) :
    (l₁.call c).2 = (l₂.call c).2 ∧ SameFrom c.time (l₁.call c).1 (l₂.call c).1 := by
  cases c with
  | allows n key tokens => exact ⟨(h.mono hle).answer_allows key tokens, h.allows hle key tokens⟩
  | prune lim => exact ⟨rfl, h.prune hle⟩

/-- Limiters that agree at `now` give the same answers to every run of calls made in time order
from `now` on. -/
theorem SameFrom.answers {calls : List (LimiterCall κ)} (hs : TimeOrdered calls) :
    ∀ {now : Nat} {l₁ l₂ : Limiter κ}, SameFrom now l₁ l₂ → (∀ c ∈ calls, now ≤ c.time) →
      l₁.answers calls = l₂.answers calls := by
  induction calls with
  | nil => intro _ _ _ _ _; rfl
  | cons c cs ih =>
    intro now l₁ l₂ h hnow
    obtain ⟨hcs, hs⟩ := List.pairwise_cons.mp hs
    obtain ⟨hanswer, hnext⟩ := h.call (hnow c List.mem_cons_self)
    simp only [Limiter.answers]
    rw [hanswer, ih hs hnext hcs]

theorem sameFrom_prune (l : Limiter κ) (lim : Nat) : SameFrom lim (l.prune lim) l :=
  ⟨rfl, rfl, agree_prune l lim⟩

/-- **Pruning is invisible**: after `prune` at `lim`, every run of calls made in time order from
`lim` on gets the answers it would have got without it. -/
theorem answers_prune (l : Limiter κ) (lim : Nat) {calls : List (LimiterCall κ)}
    (hs : TimeOrdered calls) (hlim : ∀ c ∈ calls, lim ≤ c.time) :
    (l.prune lim).answers calls = l.answers calls :=
  (sameFrom_prune l lim).answers hs hlim

/-- The test `it_works_a` at a period of `20` nanoseconds for four tokens: a batch of four at `0`,
then a prune at `1` that forgets nothing the later calls need. -/
theorem answers_prune_itWorksA :
    let l := ((⟨20, 5, ∅⟩ : Limiter Nat).allows 0 10 4).1
    let calls : List (LimiterCall Nat) :=
      [.allows 1 10 1, .allows 5 10 1, .allows 10 10 1, .allows 14 10 1, .allows 20 10 2]
    TimeOrdered calls ∧ (∀ c ∈ calls, 1 ≤ c.time) ∧
      l.answers calls = [.error (.tooSoon 4), .ok (), .ok (), .error (.tooSoon 1), .ok ()] ∧
      (l.prune 1).answers calls = l.answers calls :=
  ⟨by decide, by decide, by decide, answers_prune _ 1 (by decide) (by decide)⟩

/-! ## The `u64` arithmetic of `allows` -/

/-- The `u64` values `allows` computes at `now` stay below `2 ^ 64`: the cost
`additional_time = t * tokens`, and for a batch that is not too large the sums
`tat + additional_time` and `max(time_since_start, tat) + additional_time` of the time it reads
(the second bounds the first). -/
def AllowsFits (l : Limiter κ) (now : Nat) (key : κ) (tokens : Nat) : Prop :=
  l.t * tokens < 2 ^ 64 ∧
    (l.t * tokens ≤ l.tau → max now (l.storedTat key now) + l.t * tokens < 2 ^ 64)

instance (l : Limiter κ) (now : Nat) (key : κ) (tokens : Nat) :
    Decidable (l.AllowsFits now key tokens) :=
  inferInstanceAs (Decidable (_ ∧ (_ → _)))

/-- The `u64` arithmetic of a call stays below `2 ^ 64`; `prune` only compares. -/
def CallFits (l : Limiter κ) : LimiterCall κ → Prop
  | .allows timeSinceStart key tokens => l.AllowsFits timeSinceStart key tokens
  | .prune _ => True

/-- The `u64` arithmetic of every call of a run stays below `2 ^ 64`. -/
def RunFits : Limiter κ → List (LimiterCall κ) → Prop
  | _, [] => True
  | l, c :: cs => l.CallFits c ∧ RunFits (l.call c).1 cs

/-- Every stored time is at most `tau` past `last`. -/
def TatWithin (l : Limiter κ) (last : Nat) : Prop := ∀ k, l.tatOf k ≤ last + l.tau

theorem tatWithin_empty (tau t : Nat) : (⟨tau, t, ∅⟩ : Limiter κ).TatWithin 0 :=
  fun k => by rw [tatOf_empty]; exact Nat.zero_le _

/-- The time `allows` reads is the call's own time or a stored one. -/
theorem storedTat_le_max (l : Limiter κ) (key : κ) (now : Nat) :
    l.storedTat key now ≤ max now (l.tatOf key) := by
  unfold storedTat tatOf
  cases l.tatPerKey.lookup key
  · exact le_max_left _ _
  · exact le_max_right _ _

/-- A call at `now`, from every stored time at most `tau` past an earlier `last`, leaves every
stored time at most `tau` past `now`. -/
theorem TatWithin.allows {l : Limiter κ} {last now : Nat} (h : l.TatWithin last)
    (hle : last ≤ now) (key : κ) (tokens : Nat) : (l.allows now key tokens).1.TatWithin now := by
  intro k
  rw [tau_allows]
  by_cases hk : k = key
  · subst hk
    have hread := storedTat_le_max l k now
    have hk := h k
    rw [allows_eq]
    split_ifs with hlarge hc
    · dsimp only
      omega
    · -- a conforming batch pushes the time to at most `tau` past the call
      have hconf := Gcra.conforms_iff.mp hc
      simp only [tatOf, AList.lookup_insert, Option.getD_some]
      rw [Gcra.arrive_of_conforms hc]
      omega
    · -- a batch turned away stores the time it read
      simp only [tatOf, lookup_entryOrInsert_self, Option.getD_some]
      change l.storedTat k now ≤ now + l.tau
      omega
  · rw [tatOf, lookup_allows_ne l now hk, ← tatOf]
    have := h k
    omega

theorem TatWithin.prune {l : Limiter κ} {last lim : Nat} (h : l.TatWithin last)
    (hle : last ≤ lim) : (l.prune lim).TatWithin lim := by
  intro k
  rw [tau_prune, tatOf_prune]
  have := h k
  split <;> omega

theorem TatWithin.call {l : Limiter κ} {last : Nat} (h : l.TatWithin last) {c : LimiterCall κ}
    (hle : last ≤ c.time) : (l.call c).1.TatWithin c.time := by
  cases c with
  | allows n key tokens => exact h.allows hle key tokens
  | prune lim => exact h.prune hle

/-- A call made after `last`, at least `2 * tau` before `2 ^ 64`, for a cost within `u64`, from
every stored time at most `tau` past `last`, stays within `u64`. -/
theorem TatWithin.callFits {l : Limiter κ} {last : Nat} (h : l.TatWithin last)
    {c : LimiterCall κ} (hle : last ≤ c.time) (htime : c.time + 2 * l.tau < 2 ^ 64)
    (hcost : l.t * c.tokens < 2 ^ 64) : l.CallFits c := by
  cases c with
  | allows n key tokens =>
    refine ⟨hcost, fun hlarge => ?_⟩
    have hread := storedTat_le_max l key n
    have hk := h key
    change n + 2 * l.tau < 2 ^ 64 at htime
    change last ≤ n at hle
    omega
  | prune lim => trivial

/-- **A run within `u64`**: calls made in time order after `last`, each at least `2 * tau`
before `2 ^ 64` and for a cost within `u64`, from every stored time at most `tau` past `last`,
compute every product and sum of `allows` below `2 ^ 64`. -/
theorem runFits_of_tatWithin {calls : List (LimiterCall κ)} (hs : TimeOrdered calls) :
    ∀ {l : Limiter κ} {last : Nat}, l.TatWithin last →
      (∀ c ∈ calls, last ≤ c.time ∧ c.time + 2 * l.tau < 2 ^ 64 ∧ l.t * c.tokens < 2 ^ 64) →
      l.RunFits calls := by
  induction calls with
  | nil => intro _ _ _ _; trivial
  | cons c cs ih =>
    intro l last h hcalls
    obtain ⟨hcs, hs⟩ := List.pairwise_cons.mp hs
    obtain ⟨hle, htime, hcost⟩ := hcalls c List.mem_cons_self
    refine ⟨h.callFits hle htime hcost, ih hs (h.call hle) fun d hd => ?_⟩
    -- the rest of the run comes after this call, on the same parameters
    obtain ⟨-, htime', hcost'⟩ := hcalls d (List.mem_cons_of_mem c hd)
    rw [tau_call, t_call]
    exact ⟨hcs d hd, htime', hcost'⟩

end Limiter

end Ionian.Network
