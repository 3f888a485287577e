import Ionian.Network.RateLimiter

/-!
# Network.RpcLimiter — the RPC rate limiter, one GCRA limiter per protocol

`RPCRateLimiter` (`rpc/rate_limiter.rs`) holds one `Limiter` keyed by peer for each of the five
protocols.  `allows` charges a request `max(expected_responses, 1)` tokens at the limiter of its
protocol, and `prune` prunes the five at one time.  The builder sets one quota per protocol, and
`build` fails, naming the protocol, when one is missing.  `RPC::new` (`rpc/mod.rs`) builds the
node's limiter from its five quotas and expects the build to succeed.

Protocol by protocol, a run of the RPC limiter is a run of that protocol's limiter on the
protocol's requests and the prunes (`accepted_eq_limiter`), so every protocol keeps the window
bound of its limiter (`accepted_le_window`).  The products and sums of `Limiter::allows` are
`u64` in the source: the node's limiter keeps them below `2 ^ 64` over every run made in time order
in the first 584 years after the start (`rpcNew_runFits`), so the `Nat` arithmetic of the model
is the source's there.
-/

namespace Ionian.Network

/-- `Protocol`. -/
inductive Protocol
  | status
  | goodbye
  | ping
  | dataByHash
  | getChunks
  deriving DecidableEq, Repr

/-- `MAX_REQUEST_BLOCKS`. -/
def maxRequestBlocks : Nat := 1024

/-- `InboundRequest`, with what the limiter reads of it: the number of hashes of a `DataByHash`
request, a `VariableList<Hash256, MaxRequestBlocks>`, so at most `MAX_REQUEST_BLOCKS`. -/
inductive InboundRequest
  | status
  | goodbye
  | dataByHash (numHashes : Nat) (numHashes_le : numHashes ≤ maxRequestBlocks)
  | ping
  | getChunks
  deriving DecidableEq, Repr

namespace InboundRequest

/-- `InboundRequest::expected_responses`. -/
def expectedResponses : InboundRequest → Nat
  | .status => 1
  | .goodbye => 0
  | .dataByHash numHashes _ => numHashes
  | .ping => 1
  | .getChunks => 1

/-- `InboundRequest::protocol`. -/
def protocol : InboundRequest → Protocol
  | .status => .status
  | .goodbye => .goodbye
  | .ping => .ping
  | .dataByHash _ _ => .dataByHash
  | .getChunks => .getChunks

/-- A request is charged at least one token and at most `MAX_REQUEST_BLOCKS`. -/
theorem max_expectedResponses_le (request : InboundRequest) :
    max request.expectedResponses 1 ≤ maxRequestBlocks := by
  cases request with
  | dataByHash numHashes h =>
    simp only [expectedResponses]
    exact max_le h (by decide)
  | _ => decide

end InboundRequest

/-- `Duration::from_secs`, in nanoseconds. -/
def fromSecs (secs : Nat) : Nat := secs * 1000000000

/-- `Option::ok_or`. -/
def okOr {α : Type} : Option α → String → Except String α
  | some a, _ => .ok a
  | none, err => .error err

/-- `RPCRateLimiter`; the time since `init_time` is passed to each call. -/
structure RPCRateLimiter (κ : Type) where
  goodbyeRl : Limiter κ
  pingRl : Limiter κ
  statusRl : Limiter κ
  dataByHashRl : Limiter κ
  getChunksRl : Limiter κ

/-- `RPCRateLimiterBuilder`. -/
structure RPCRateLimiterBuilder where
  goodbyeQuota : Option Quota
  pingQuota : Option Quota
  statusQuota : Option Quota
  dataByHashQuota : Option Quota
  getChunksQuota : Option Quota

namespace RPCRateLimiterBuilder

/-- `RPCRateLimiterBuilder::new`. -/
def new : RPCRateLimiterBuilder := ⟨none, none, none, none, none⟩

/-- `RPCRateLimiterBuilder::set_quota`. -/
def setQuota (b : RPCRateLimiterBuilder) (protocol : Protocol) (quota : Quota) :
    RPCRateLimiterBuilder :=
  let q := some quota
  match protocol with
  | .ping => { b with pingQuota := q }
  | .status => { b with statusQuota := q }
  | .goodbye => { b with goodbyeQuota := q }
  | .dataByHash => { b with dataByHashQuota := q }
  | .getChunks => { b with getChunksQuota := q }

/-- `RPCRateLimiterBuilder::one_every`. -/
def oneEvery (b : RPCRateLimiterBuilder) (protocol : Protocol) (timePeriod : Nat) :
    RPCRateLimiterBuilder :=
  b.setQuota protocol ⟨timePeriod, 1⟩

/-- `RPCRateLimiterBuilder::n_every`. -/
def nEvery (b : RPCRateLimiterBuilder) (protocol : Protocol) (n timePeriod : Nat) :
    RPCRateLimiterBuilder :=
  b.setQuota protocol ⟨timePeriod, n⟩

variable {κ : Type} [DecidableEq κ]

/-- `RPCRateLimiterBuilder::build`. -/
def build (b : RPCRateLimiterBuilder) : Except String (RPCRateLimiter κ) := do
  let pingQuota ← okOr b.pingQuota "Ping quota not specified"
  let statusQuota ← okOr b.statusQuota "Status quota not specified"
  let goodbyeQuota ← okOr b.goodbyeQuota "Goodbye quota not specified"
  let dataByHashQuota ← okOr b.dataByHashQuota "DataByHash quota not specified"
  let getChunksQuota ← okOr b.getChunksQuota "GetChunks quota not specified"
  let pingRl ← Limiter.fromQuota pingQuota
  let statusRl ← Limiter.fromQuota statusQuota
  let goodbyeRl ← Limiter.fromQuota goodbyeQuota
  let dataByHashRl ← Limiter.fromQuota dataByHashQuota
  let getChunksRl ← Limiter.fromQuota getChunksQuota
  pure ⟨goodbyeRl, pingRl, statusRl, dataByHashRl, getChunksRl⟩

end RPCRateLimiterBuilder

/-- The limiter of `RPC::new`: the builder with the node's five quotas. -/
def rpcNew {κ : Type} [DecidableEq κ] : Except String (RPCRateLimiter κ) :=
  RPCRateLimiterBuilder.new
    |>.nEvery .ping 2 (fromSecs 10)
    |>.nEvery .status 5 (fromSecs 15)
    |>.oneEvery .goodbye (fromSecs 10)
    |>.nEvery .dataByHash 128 (fromSecs 10)
    |>.nEvery .getChunks 128 (fromSecs 10)
    |>.build

/-- A call on the RPC limiter: `allows` for a peer's request, or `prune`, at a time since the
start. -/
inductive RpcCall (κ : Type)
  | allows (timeSinceStart : Nat) (peerId : κ) (request : InboundRequest)
  | prune (timeSinceStart : Nat)

namespace RpcCall

variable {κ : Type} [DecidableEq κ]

/-- The time a call is made at. -/
def time : RpcCall κ → Nat
  | .allows timeSinceStart _ _ => timeSinceStart
  | .prune timeSinceStart => timeSinceStart

/-- The tokens a call asks of the limiter of `p` for `peer`. -/
def tokensFor (peer : κ) (p : Protocol) : RpcCall κ → Nat
  | .allows _ peerId request =>
    if peerId = peer ∧ request.protocol = p then max request.expectedResponses 1 else 0
  | .prune _ => 0

/-- The call the limiter of `p` gets: a request of the protocol, or a prune. -/
def forProtocol (p : Protocol) : RpcCall κ → Option (LimiterCall κ)
  | .allows timeSinceStart peerId request =>
    if request.protocol = p then
      some (.allows timeSinceStart peerId (max request.expectedResponses 1))
    else none
  | .prune timeSinceStart => some (.prune timeSinceStart)

omit [DecidableEq κ] in
theorem time_of_forProtocol {p : Protocol} {c : RpcCall κ} {d : LimiterCall κ}
    (h : c.forProtocol p = some d) : d.time = c.time := by
  cases c with
  | allows n peerId request =>
    simp only [forProtocol, Option.ite_none_right_eq_some, Option.some.injEq] at h
    rw [← h.2]
    rfl
  | prune n =>
    simp only [forProtocol, Option.some.injEq] at h
    rw [← h]
    rfl

end RpcCall

/-- Calls made in time order. -/
def RpcCall.TimeOrdered {κ : Type} (calls : List (RpcCall κ)) : Prop :=
  calls.Pairwise fun c d => c.time ≤ d.time

instance {κ : Type} (calls : List (RpcCall κ)) : Decidable (RpcCall.TimeOrdered calls) :=
  inferInstanceAs (Decidable (calls.Pairwise fun c d => c.time ≤ d.time))

/-- What a protocol's limiter sees of calls made in time order is made in time order. -/
theorem timeOrdered_filterMap_forProtocol {κ : Type} {calls : List (RpcCall κ)}
    (hs : RpcCall.TimeOrdered calls) (p : Protocol) :
    TimeOrdered (calls.filterMap (RpcCall.forProtocol p)) := by
  apply List.Pairwise.filterMap _ _ hs
  intro c c' hle d hd d' hd'
  rw [RpcCall.time_of_forProtocol hd, RpcCall.time_of_forProtocol hd']
  exact hle

namespace RPCRateLimiter

variable {κ : Type} [DecidableEq κ]

/-- The limiter of a protocol: the `match` of `allows`. -/
def limiter (rl : RPCRateLimiter κ) : Protocol → Limiter κ
  | .ping => rl.pingRl
  | .status => rl.statusRl
  | .goodbye => rl.goodbyeRl
  | .dataByHash => rl.dataByHashRl
  | .getChunks => rl.getChunksRl

/-- Write back the limiter of a protocol, which `allows` borrows mutably. -/
def setLimiter (rl : RPCRateLimiter κ) (p : Protocol) (l : Limiter κ) : RPCRateLimiter κ :=
  match p with
  | .ping => { rl with pingRl := l }
  | .status => { rl with statusRl := l }
  | .goodbye => { rl with goodbyeRl := l }
  | .dataByHash => { rl with dataByHashRl := l }
  | .getChunks => { rl with getChunksRl := l }

/-- `RPCRateLimiter::allows`. -/
def allows (rl : RPCRateLimiter κ) (timeSinceStart : Nat) (peerId : κ)
    (request : InboundRequest) : RPCRateLimiter κ × Except RateLimitedErr Unit :=
  let tokens := max request.expectedResponses 1
  let limiter := rl.limiter request.protocol
  let check := limiter.allows timeSinceStart peerId tokens
  (rl.setLimiter request.protocol check.1, check.2)

/-- `RPCRateLimiter::prune`. -/
def prune (rl : RPCRateLimiter κ) (timeSinceStart : Nat) : RPCRateLimiter κ :=
  { pingRl := rl.pingRl.prune timeSinceStart
    statusRl := rl.statusRl.prune timeSinceStart
    goodbyeRl := rl.goodbyeRl.prune timeSinceStart
    dataByHashRl := rl.dataByHashRl.prune timeSinceStart
    getChunksRl := rl.getChunksRl.prune timeSinceStart }

omit [DecidableEq κ] in
@[simp]
theorem limiter_setLimiter_self (rl : RPCRateLimiter κ) (p : Protocol) (l : Limiter κ) :
    (rl.setLimiter p l).limiter p = l := by
  cases p <;> rfl

omit [DecidableEq κ] in
theorem limiter_setLimiter_ne (rl : RPCRateLimiter κ) {p q : Protocol} (hpq : q ≠ p)
    (l : Limiter κ) : (rl.setLimiter p l).limiter q = rl.limiter q := by
  cases p <;> cases q <;> first | rfl | exact absurd rfl hpq

omit [DecidableEq κ] in
@[simp]
theorem limiter_prune (rl : RPCRateLimiter κ) (timeSinceStart : Nat) (p : Protocol) :
    (rl.prune timeSinceStart).limiter p = (rl.limiter p).prune timeSinceStart := by
  cases p <;> rfl

/-! ## Runs of calls -/

/-- One call, and what it returns (`prune` returns nothing, written `.ok ()`). -/
def call (rl : RPCRateLimiter κ) : RpcCall κ → RPCRateLimiter κ × Except RateLimitedErr Unit
  | .allows timeSinceStart peerId request => rl.allows timeSinceStart peerId request
  | .prune timeSinceStart => (rl.prune timeSinceStart, .ok ())

/-- The tokens of `peer`'s requests of protocol `p` that a run of calls accepts. -/
def accepted (peer : κ) (p : Protocol) : RPCRateLimiter κ → List (RpcCall κ) → Nat
  | _, [] => 0
  | rl, c :: cs =>
    (if (rl.call c).2 = .ok () then c.tokensFor peer p else 0) + accepted peer p (rl.call c).1 cs

/-- One call, as the limiter of `p` sees it: its call if it has one, and otherwise nothing. -/
theorem limiter_call (rl : RPCRateLimiter κ) (p : Protocol) (c : RpcCall κ) :
    match c.forProtocol p with
    | some d => (rl.call c).1.limiter p = ((rl.limiter p).call d).1 ∧
        (rl.call c).2 = ((rl.limiter p).call d).2
    | none => (rl.call c).1.limiter p = rl.limiter p := by
  cases c with
  | allows n peerId request =>
    by_cases hp : request.protocol = p
    · subst hp
      simp only [RpcCall.forProtocol, if_true]
      exact ⟨limiter_setLimiter_self _ _ _, rfl⟩
    · simp only [RpcCall.forProtocol, hp, if_false]
      exact limiter_setLimiter_ne _ (Ne.symm hp) _
  | prune n => exact ⟨limiter_prune rl n p, rfl⟩

@[simp]
theorem tau_limiter_call (rl : RPCRateLimiter κ) (p : Protocol) (c : RpcCall κ) :
    ((rl.call c).1.limiter p).tau = (rl.limiter p).tau := by
  have h := limiter_call rl p c
  split at h
  · rw [h.1, Limiter.tau_call]
  · rw [h]

@[simp]
theorem t_limiter_call (rl : RPCRateLimiter κ) (p : Protocol) (c : RpcCall κ) :
    ((rl.call c).1.limiter p).t = (rl.limiter p).t := by
  have h := limiter_call rl p c
  split at h
  · rw [h.1, Limiter.t_call]
  · rw [h]

/-- **Protocol by protocol, the RPC limiter is its limiter**: the tokens of `peer` accepted for
protocol `p` are those the limiter of `p` accepts on the calls it gets. -/
theorem accepted_eq_limiter (peer : κ) (p : Protocol) (rl : RPCRateLimiter κ)
    (calls : List (RpcCall κ)) :
    rl.accepted peer p calls =
      (rl.limiter p).accepted peer (calls.filterMap (RpcCall.forProtocol p)) := by
  induction calls generalizing rl with
  | nil => rfl
  | cons c cs ih =>
    have h := limiter_call rl p c
    rw [accepted, List.filterMap_cons, ih]
    cases c with
    | allows n peerId request =>
      by_cases hp : request.protocol = p
      · subst hp
        simp only [RpcCall.forProtocol, if_true] at h ⊢
        rw [Limiter.accepted_cons, h.1, h.2]
        by_cases hpeer : peerId = peer <;>
          simp [hpeer, RpcCall.tokensFor, LimiterCall.tokensFor, Limiter.call]
      · simp only [RpcCall.forProtocol, hp, if_false] at h ⊢
        rw [h]
        simp [RpcCall.tokensFor, hp]
    | prune n =>
      simp only [RpcCall.forProtocol] at h ⊢
      rw [Limiter.accepted_cons, h.1, h.2]
      simp [RpcCall.tokensFor, LimiterCall.tokensFor]

/-- **The window bound of every protocol**: from any state, over calls made in time order within
`[a, b]`, the tokens of one peer's requests of one protocol that are accepted cost at most the
tolerance of the protocol's limiter and `b - a`. -/
theorem accepted_le_window (rl : RPCRateLimiter κ) (peer : κ) (p : Protocol)
    {calls : List (RpcCall κ)} {a b : Nat} (hs : RpcCall.TimeOrdered calls)
    (hab : ∀ c ∈ calls, a ≤ c.time ∧ c.time ≤ b) :
    (rl.limiter p).t * rl.accepted peer p calls ≤ (rl.limiter p).tau + (b - a) := by
  rw [accepted_eq_limiter,
    Limiter.accepted_eq_admitted _ _ (timeOrdered_filterMap_forProtocol hs p)]
  apply Gcra.admitted_window
  intro q hq
  -- a cell of the protocol's meter comes from a call of the run, at that call's time
  obtain ⟨d, hd, hdq⟩ := Limiter.time_of_mem_arrivalsFor hq
  obtain ⟨c, hc, hcd⟩ := List.mem_filterMap.mp hd
  rw [← hdq, RpcCall.time_of_forProtocol hcd]
  exact hab c hc

/-- The limiter `RPC::new` builds, before any call. -/
theorem accepted_le_window_pings :
    let rl : RPCRateLimiter Nat :=
      ⟨⟨10000000000, 10000000000, ∅⟩, ⟨10000000000, 5000000000, ∅⟩,
        ⟨15000000000, 3000000000, ∅⟩, ⟨10000000000, 78125000, ∅⟩, ⟨10000000000, 78125000, ∅⟩⟩
    let calls : List (RpcCall Nat) :=
      [.allows 0 1 .ping, .allows 1 1 .ping, .allows 2 1 .ping, .allows 2 2 .ping]
    RpcCall.TimeOrdered calls ∧ (∀ c ∈ calls, 0 ≤ c.time ∧ c.time ≤ 2) ∧
      rl.accepted 1 .ping calls = 2 ∧
      (rl.limiter .ping).t * rl.accepted 1 .ping calls ≤ (rl.limiter .ping).tau + (2 - 0) :=
  ⟨by decide, by decide, by decide, accepted_le_window _ 1 .ping (by decide) (by decide)⟩

/-! ## The `u64` arithmetic of the limiters -/

/-- The `u64` arithmetic of a call stays below `2 ^ 64` at the limiter it reaches. -/
def CallFits (rl : RPCRateLimiter κ) : RpcCall κ → Prop
  | .allows timeSinceStart peerId request =>
    (rl.limiter request.protocol).AllowsFits timeSinceStart peerId
      (max request.expectedResponses 1)
  | .prune _ => True

/-- The `u64` arithmetic of every call of a run stays below `2 ^ 64`. -/
def RunFits : RPCRateLimiter κ → List (RpcCall κ) → Prop
  | _, [] => True
  | rl, c :: cs => rl.CallFits c ∧ RunFits (rl.call c).1 cs

/-- Every stored time of every protocol is at most its `tau` past `last`. -/
def TatWithin (rl : RPCRateLimiter κ) (last : Nat) : Prop := ∀ p, (rl.limiter p).TatWithin last

theorem TatWithin.call {rl : RPCRateLimiter κ} {last : Nat} (h : rl.TatWithin last)
    {c : RpcCall κ} (hle : last ≤ c.time) : (rl.call c).1.TatWithin c.time := by
  intro p
  have hcall := limiter_call rl p c
  split at hcall
  · rename_i d hd
    rw [hcall.1, ← RpcCall.time_of_forProtocol hd]
    exact (h p).call (by rwa [RpcCall.time_of_forProtocol hd])
  · -- the limiter of `p` is not called: its times are as they were
    rw [hcall]
    exact fun k => le_trans (h p k) (Nat.add_le_add_right hle _)

theorem TatWithin.callFits {rl : RPCRateLimiter κ} {last : Nat} (h : rl.TatWithin last)
    {c : RpcCall κ} (hle : last ≤ c.time)
    (hbound : ∀ p, c.time + 2 * (rl.limiter p).tau < 2 ^ 64 ∧
      (rl.limiter p).t * maxRequestBlocks < 2 ^ 64) :
    rl.CallFits c := by
  cases c with
  | allows n peerId request =>
    obtain ⟨htime, hcost⟩ := hbound request.protocol
    -- the request is charged at most `MAX_REQUEST_BLOCKS` tokens
    have htokens := Nat.mul_le_mul_left (rl.limiter request.protocol).t
      request.max_expectedResponses_le
    exact (h request.protocol).callFits (c := .allows n peerId _) hle htime (by
      change _ * max request.expectedResponses 1 < 2 ^ 64
      omega)
  | prune n => trivial

/-- A run of calls made in time order after `last`, each at least twice its protocol's `tau`
before `2 ^ 64`, at limiters whose period per token times `MAX_REQUEST_BLOCKS` fits `u64`,
stays within `u64`. -/
theorem runFits_of_tatWithin {calls : List (RpcCall κ)} (hs : RpcCall.TimeOrdered calls) :
    ∀ {rl : RPCRateLimiter κ} {last : Nat}, rl.TatWithin last →
      (∀ c ∈ calls, last ≤ c.time ∧ ∀ p, c.time + 2 * (rl.limiter p).tau < 2 ^ 64 ∧
        (rl.limiter p).t * maxRequestBlocks < 2 ^ 64) →
      rl.RunFits calls := by
  induction calls with
  | nil => intro _ _ _ _; trivial
  | cons c cs ih =>
    intro rl last h hcalls
    obtain ⟨hcs, hs⟩ := List.pairwise_cons.mp hs
    obtain ⟨hle, hbound⟩ := hcalls c List.mem_cons_self
    refine ⟨h.callFits hle hbound, ih hs (h.call hle) fun d hd => ?_⟩
    -- the rest of the run comes after this call, at limiters of the same parameters
    obtain ⟨-, hbound'⟩ := hcalls d (List.mem_cons_of_mem c hd)
    refine ⟨hcs d hd, fun p => ?_⟩
    rw [tau_limiter_call, t_limiter_call]
    exact hbound' p

/-- **The node's limiter stays within `u64`**: `RPC::new` builds, so its `expect` never panics,
and over every run of calls made in time order up to `2 ^ 64 - 3 * 10 ^ 10` nanoseconds after the
start, about 584 years, every product and sum of `u64` that `Limiter::allows` computes stays
below `2 ^ 64`. -/
theorem rpcNew_runFits (calls : List (RpcCall κ)) (hs : RpcCall.TimeOrdered calls)
    (htime : ∀ c ∈ calls, c.time + 3 * 10 ^ 10 < 2 ^ 64) :
    ∃ rl : RPCRateLimiter κ, rpcNew = .ok rl ∧ rl.RunFits calls := by
  refine ⟨⟨⟨10000000000, 10000000000, ∅⟩, ⟨10000000000, 5000000000, ∅⟩,
    ⟨15000000000, 3000000000, ∅⟩, ⟨10000000000, 78125000, ∅⟩, ⟨10000000000, 78125000, ∅⟩⟩,
    rfl, runFits_of_tatWithin hs
      -- no key is stored yet
      (fun p => by cases p <;> exact Limiter.tatWithin_empty _ _ : TatWithin _ 0)
      fun c hc => ⟨Nat.zero_le _, fun p => ?_⟩⟩
  -- the largest `tau` is the `15` seconds of `Status`, the largest cost `10 ^ 10 * 1024`
  have := htime c hc
  cases p <;> simp only [limiter, maxRequestBlocks] <;> omega

/-- Pings and a `DataByHash` request of `MAX_REQUEST_BLOCKS` hashes, and a prune. -/
theorem rpcNew_runFits_pings :
    let calls : List (RpcCall Nat) :=
      [.allows 0 1 .ping, .allows 1 1 (.dataByHash 1024 le_rfl), .prune 2, .allows 3 2 .ping]
    RpcCall.TimeOrdered calls ∧ (∀ c ∈ calls, c.time + 3 * 10 ^ 10 < 2 ^ 64) ∧
      ∃ rl : RPCRateLimiter Nat, rpcNew = .ok rl ∧ rl.RunFits calls :=
  ⟨by decide, by decide, rpcNew_runFits _ (by decide) (by decide)⟩

end RPCRateLimiter

end Ionian.Network
