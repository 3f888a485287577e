import Ionian.Storage.ChunkData

/-!
# Miner.Mine — the mining range and the recall position of a PoRA iteration

`CustomMineRange::to_valid_range` turns the miner's configured range and the flow length of the
mining context into the range to mine: the flow rounded down to whole loads (the minable
length), at most `SECTORS_PER_MAX_MINING_RANGE` sectors of it, from the configured start pulled
back so that the range fits and rounded down to a pricing boundary.  `Miner::iteration` draws a
load of that range from the recall seed, `seed mod (mining_length / SECTORS_PER_LOAD)`, skips it
unless the configured range covers it (`is_covered`), and answers with the first available seal
of the load whose quality meets the target.

The range always fits in the minable length, in whole loads (`toValidRange_spec`), and every
answer recalls a position inside it (`iteration_recallPosition`).  But the range is not always
positive: a flow shorter than one load gives the range of length `0`, and the iteration divides
by zero (`iteration_small_flow`).  `is_covered` joins its two bounds by `||`, so a range from `0`
covers every load (`isCovered_of_start_zero`).

The flow length is a `U256`, read by `as_u64`, which panics above `u64::MAX`; the positions are
`u64`s, here `Nat`s.  The recall seed is the keccak digest of the scratch pad, here a number; the
scratch pad, its mixing into a seal and the PoRA quality are parameters (`mix`, `quality`): the
mixing is an XOR that the answer undoes, so the answer carries the loaded seal.  Panics are `none`.
-/

namespace Ionian.Mine

open Storage

/-! ## `ionian_spec` -/

def bytesPerPricing : Nat := 8 * kb * kb * kb
def bytesPerMaxMiningRange : Nat := 8 * kb * kb * kb * kb
def sectorsPerPricing : Nat := bytesPerPricing / bytesPerSector
def sectorsPerMaxMiningRange : Nat := bytesPerMaxMiningRange / bytesPerSector

@[simp] theorem sectorsPerPricing_eq : sectorsPerPricing = 2 ^ 25 := rfl
@[simp] theorem sectorsPerMaxMiningRange_eq : sectorsPerMaxMiningRange = 2 ^ 35 := rfl

/-- `U256::as_u64`: panics on a value above `u64::MAX`. -/
def asU64 (x : Nat) : Option Nat := if x < 2 ^ 64 then some x else none

/-- `MineContext`, with the field the range uses. -/
structure MineContext where
  flowLength : Nat
deriving DecidableEq, Repr

structure CustomMineRange where
  startPosition : Option Nat
  endPosition : Option Nat
deriving DecidableEq, Repr

namespace CustomMineRange

/-- `to_valid_range`: `some none` when no range is configured. -/
def toValidRange (r : CustomMineRange) (context : MineContext) : Option (Option (Nat × Nat)) :=
  match r.startPosition, r.endPosition with
  | some selfStartPosition, some selfEndPosition =>
    if selfStartPosition ≥ selfEndPosition then some none
    else (asU64 context.flowLength).map fun flowLength =>
      let minableLength := flowLength / sectorsPerLoad * sectorsPerLoad
      let miningLength := min minableLength sectorsPerMaxMiningRange
      let startPosition := min selfStartPosition (minableLength - miningLength)
      let startPosition := startPosition / sectorsPerPricing * sectorsPerPricing
      some (startPosition, miningLength)
  | _, _ => some none

/-- `is_covered`: `none` when no range is configured. -/
def isCovered (r : CustomMineRange) (recallPosition : Nat) : Option Bool :=
  match r.startPosition, r.endPosition with
  | some selfStartPosition, some selfEndPosition =>
    if selfStartPosition ≥ selfEndPosition then some false
    else some (decide (selfStartPosition ≤ recallPosition + sectorsPerLoad) ||
      decide (selfEndPosition > recallPosition))
  | _, _ => none

end CustomMineRange

/-- `Miner`, with the fields the recall uses. -/
structure Miner where
  startPosition : Nat
  miningLength : Nat
  customMineRange : CustomMineRange
deriving DecidableEq, Repr

/-- `PoraService::as_miner`, for a puzzle of the context `context`. -/
def asMiner (mineRange : CustomMineRange) (context : MineContext) : Option (Option Miner) :=
  (mineRange.toValidRange context).map (·.map fun (startPosition, miningLength) =>
    ⟨startPosition, miningLength, mineRange⟩)

/-- `AnswerWithoutProof`, with the fields the recall sets. -/
structure AnswerWithoutProof (σ : Type) where
  startPosition : Nat
  miningLength : Nat
  recallPosition : Nat
  sealOffset : Nat
  sealedData : σ
deriving DecidableEq, Repr

namespace Miner

variable {σ : Type} (mix : Nat → σ → σ) (quality : Nat → σ → Nat) (targetQuality : Nat)

/-- The load drawn by the recall seed: `U256::div_mod` panics on a zero divisor. -/
def recallOffset (m : Miner) (recallSeed : Nat) : Option Nat :=
  let n := m.miningLength / sectorsPerLoad
  if n = 0 then none else some (recallSeed % n)

/-- The loop of `iteration` over the seals of the loaded chunk, from seal `idx` on: the first
available one whose mixed data meet the target. -/
def firstHit : Nat → List (σ × Bool) → Option (Nat × σ)
  | _, [] => none
  | idx, (sealedData, avaliable) :: rest =>
    if avaliable ∧ quality idx (mix idx sealedData) ≤ targetQuality then some (idx, sealedData)
    else firstHit (idx + 1) rest

/-- `Miner::iteration` for the recall seed `recallSeed`; `loadSealedData` is the loader, whose
chunk holds `SEALS_PER_LOAD` seals with their availabilities. -/
def iteration (m : Miner) (recallSeed : Nat)
    (loadSealedData : Nat → Option (Vector (σ × Bool) sealsPerLoad)) :
    Option (Option (AnswerWithoutProof σ)) :=
  (m.recallOffset recallSeed).bind fun recallOffset =>
    -- unwrap
    (m.customMineRange.isCovered (m.startPosition + recallOffset * sectorsPerLoad)).map fun covered =>
      if !covered then none
      else
        (loadSealedData (m.startPosition / sectorsPerLoad + recallOffset)).bind fun loadedChunk =>
          (firstHit mix quality targetQuality 0 loadedChunk.toList).map fun (idx, sealedData) =>
            { startPosition := m.startPosition, miningLength := m.miningLength,
              recallPosition := m.startPosition + recallOffset * sectorsPerLoad + idx * sectorsPerSeal,
              sealOffset := idx, sealedData }

end Miner

/-! ## The mining range -/

namespace CustomMineRange

variable {r : CustomMineRange} {context : MineContext} {startPosition miningLength : Nat}

/-- `to_valid_range` of a configured range, on a flow length of a `u64`. -/
theorem toValidRange_of_lt {a b : Nat} (hab : a < b) (hflow : context.flowLength < 2 ^ 64) :
    toValidRange ⟨some a, some b⟩ context =
      some (some (min a (context.flowLength / sectorsPerLoad * sectorsPerLoad -
          min (context.flowLength / sectorsPerLoad * sectorsPerLoad) sectorsPerMaxMiningRange) /
          sectorsPerPricing * sectorsPerPricing,
        min (context.flowLength / sectorsPerLoad * sectorsPerLoad) sectorsPerMaxMiningRange)) := by
  simp only [toValidRange, if_neg (Nat.not_le.mpr hab), asU64, if_pos hflow, Option.map_some]

/-- A range `to_valid_range` returns is of a configured range, on a flow length of a `u64`. -/
theorem eq_of_toValidRange (h : r.toValidRange context = some (some (startPosition, miningLength))) :
    ∃ a b, r = ⟨some a, some b⟩ ∧ a < b ∧ context.flowLength < 2 ^ 64 := by
  unfold toValidRange at h
  split at h
  · rename_i a b ha hb
    split_ifs at h with hab
    · cases h
    · obtain ⟨flowLength, hflow, -⟩ := Option.map_eq_some_iff.mp h
      unfold asU64 at hflow
      split_ifs at hflow with hlt
      obtain ⟨sp, ep⟩ := r
      exact ⟨a, b, by simp_all, by omega, hlt⟩
  · cases h

/-- **The mining range fits in the flow, in whole loads.**  It starts at a pricing boundary, has at
most `SECTORS_PER_MAX_MINING_RANGE` sectors, a whole number of loads, and ends within the minable
length. -/
theorem toValidRange_spec (h : r.toValidRange context = some (some (startPosition, miningLength))) :
    startPosition + miningLength ≤ context.flowLength / sectorsPerLoad * sectorsPerLoad ∧
      miningLength % sectorsPerLoad = 0 ∧ startPosition % sectorsPerPricing = 0 ∧
      miningLength ≤ sectorsPerMaxMiningRange := by
  obtain ⟨a, b, rfl, hab, hflow⟩ := eq_of_toValidRange h
  rw [toValidRange_of_lt hab hflow] at h
  simp only [Option.some.injEq, Prod.mk.injEq] at h
  obtain ⟨rfl, rfl⟩ := h
  simp only [sectorsPerLoad_eq, sectorsPerPricing_eq, sectorsPerMaxMiningRange_eq]
  omega

/-- A flow of at least one load gives a range of at least one load. -/
theorem toValidRange_pos (h : r.toValidRange context = some (some (startPosition, miningLength)))
    (hflow : sectorsPerLoad ≤ context.flowLength) : sectorsPerLoad ≤ miningLength := by
  obtain ⟨a, b, rfl, hab, hlt⟩ := eq_of_toValidRange h
  rw [toValidRange_of_lt hab hlt] at h
  simp only [Option.some.injEq, Prod.mk.injEq] at h
  obtain ⟨-, rfl⟩ := h
  simp only [sectorsPerLoad_eq, sectorsPerMaxMiningRange_eq] at hflow ⊢
  omega

/-- `is_covered` holds for every recall position once the configured range starts at `0`: the
first bound alone, `0 ≤ p + SECTORS_PER_LOAD`, makes the disjunction true, whatever the end. -/
theorem isCovered_of_start_zero {b : Nat} (hb : 0 < b) (recallPosition : Nat) :
    isCovered ⟨some 0, some b⟩ recallPosition = some true := by
  simp [isCovered, Nat.not_le.mpr hb]

end CustomMineRange

/-! ## The recall position -/

namespace Miner

variable {σ : Type} {mix : Nat → σ → σ} {quality : Nat → σ → Nat} {targetQuality : Nat}

/-- The load drawn is one of the loads of the range. -/
theorem recallOffset_lt {m : Miner} {recallSeed o : Nat} (h : m.recallOffset recallSeed = some o) :
    o < m.miningLength / sectorsPerLoad := by
  unfold recallOffset at h
  dsimp only at h
  split_ifs at h with hn
  cases h
  exact Nat.mod_lt _ (Nat.pos_of_ne_zero hn)

/-- The seal of a hit is one of the seals looked at. -/
theorem firstHit_lt {idx i : Nat} {xs : List (σ × Bool)} {d : σ}
    (h : firstHit mix quality targetQuality idx xs = some (i, d)) : idx ≤ i ∧ i < idx + xs.length := by
  induction xs generalizing idx with
  | nil => cases h
  | cons x rest ih =>
    unfold firstHit at h
    split_ifs at h
    · cases h
      simp
    · have := ih h
      simp only [List.length_cons]
      omega

/-- **An answer recalls a position of the range.**  When the range has a whole number of loads,
the recall position of an answer is a seal of a load of the range, and that load is covered by
the configured range. -/
theorem iteration_recallPosition {m : Miner} {recallSeed : Nat}
    {loadSealedData : Nat → Option (Vector (σ × Bool) sealsPerLoad)} {a : AnswerWithoutProof σ}
    (hm : m.miningLength % sectorsPerLoad = 0)
    (h : m.iteration mix quality targetQuality recallSeed loadSealedData = some (some a)) :
    ∃ o, m.recallOffset recallSeed = some o ∧
      m.customMineRange.isCovered (m.startPosition + o * sectorsPerLoad) = some true ∧
      a.recallPosition = m.startPosition + o * sectorsPerLoad + a.sealOffset * sectorsPerSeal ∧
      a.sealOffset < sealsPerLoad ∧
      m.startPosition ≤ a.recallPosition ∧ a.recallPosition < m.startPosition + m.miningLength := by
  obtain ⟨o, ho, h⟩ := Option.bind_eq_some_iff.mp h
  obtain ⟨covered, hcov, h⟩ := Option.map_eq_some_iff.mp h
  cases covered with
  | false => cases h
  | true =>
    obtain ⟨chunk, -, h⟩ := Option.bind_eq_some_iff.mp h
    obtain ⟨⟨idx, d⟩, hhit, rfl⟩ := Option.map_eq_some_iff.mp h
    have hidx : idx < sealsPerLoad := by
      have := (firstHit_lt hhit).2
      rwa [Nat.zero_add, Vector.length_toList] at this
    -- the seal lies in load `o`, and load `o` is a load of the range
    have ho' := recallOffset_lt ho
    have hload : (o + 1) * sectorsPerLoad ≤ m.miningLength := by
      have := Nat.div_mul_cancel (Nat.dvd_of_mod_eq_zero hm)
      calc (o + 1) * sectorsPerLoad ≤ m.miningLength / sectorsPerLoad * sectorsPerLoad :=
            Nat.mul_le_mul_right _ ho'
        _ = m.miningLength := this
    refine ⟨o, ho, hcov, rfl, hidx, Nat.le_add_right_of_le (Nat.le_add_right _ _), ?_⟩
    simp only [sectorsPerLoad_eq, sectorsPerSeal_eq, sealsPerLoad_eq] at hidx hload ⊢
    omega

/-- `iteration` of a range shorter than one load divides by zero. -/
theorem iteration_of_lt_load {m : Miner} (hm : m.miningLength < sectorsPerLoad) (recallSeed : Nat)
    (loadSealedData : Nat → Option (Vector (σ × Bool) sealsPerLoad)) :
    m.iteration mix quality targetQuality recallSeed loadSealedData = none := by
  have hrecall : m.recallOffset recallSeed = none := by
    unfold recallOffset
    rw [if_pos (Nat.div_eq_of_lt hm)]
  simp only [iteration, hrecall, Option.bind_none]

end Miner

/-! ## The miner of `as_miner` -/

section AsMiner

variable {σ : Type} {mix : Nat → σ → σ} {quality : Nat → σ → Nat} {targetQuality : Nat}
  {r : CustomMineRange} {context : MineContext} {m : Miner}

/-- The miner of `as_miner` mines the range of `to_valid_range`, with the configured range. -/
theorem eq_of_asMiner (h : asMiner r context = some (some m)) :
    r.toValidRange context = some (some (m.startPosition, m.miningLength)) ∧ m.customMineRange = r := by
  obtain ⟨x, hx, hm⟩ := Option.map_eq_some_iff.mp h
  obtain ⟨⟨startPosition, miningLength⟩, rfl, rfl⟩ := Option.map_eq_some_iff.mp hm
  exact ⟨hx, rfl⟩

/-- **Every answer of the service's miner recalls a position of the minable flow.**  The position
lies in the mining range, which lies in the flow rounded down to whole loads. -/
theorem asMiner_iteration_recallPosition (hminer : asMiner r context = some (some m))
    {recallSeed : Nat} {loadSealedData : Nat → Option (Vector (σ × Bool) sealsPerLoad)}
    {a : AnswerWithoutProof σ}
    (h : m.iteration mix quality targetQuality recallSeed loadSealedData = some (some a)) :
    m.startPosition ≤ a.recallPosition ∧ a.recallPosition < m.startPosition + m.miningLength ∧
      m.startPosition + m.miningLength ≤ context.flowLength / sectorsPerLoad * sectorsPerLoad := by
  obtain ⟨hfit, hloads, -, -⟩ := CustomMineRange.toValidRange_spec (eq_of_asMiner hminer).1
  obtain ⟨-, -, -, -, -, hlo, hhi⟩ := Miner.iteration_recallPosition hloads h
  exact ⟨hlo, hhi, hfit⟩

/-- On a flow of at least one load, an iteration of the service's miner never panics. -/
theorem asMiner_iteration_isSome (hminer : asMiner r context = some (some m))
    (hflow : sectorsPerLoad ≤ context.flowLength) (recallSeed : Nat)
    (loadSealedData : Nat → Option (Vector (σ × Bool) sealsPerLoad)) :
    (m.iteration mix quality targetQuality recallSeed loadSealedData).isSome := by
  obtain ⟨hrange, hr⟩ := eq_of_asMiner hminer
  have hlen := CustomMineRange.toValidRange_pos hrange hflow
  obtain ⟨a, b, rfl, hab, -⟩ := CustomMineRange.eq_of_toValidRange hrange
  -- the divisor is at least one, and the configured range has both ends
  have hn : m.miningLength / sectorsPerLoad ≠ 0 :=
    Nat.ne_of_gt (Nat.div_pos hlen (by decide))
  have hrecall : m.recallOffset recallSeed = some (recallSeed % (m.miningLength / sectorsPerLoad)) := by
    simp only [Miner.recallOffset, if_neg hn]
  have hcov : ∀ p, (m.customMineRange.isCovered p).isSome := fun p => by
    simp only [hr, CustomMineRange.isCovered]
    split_ifs <;> rfl
  obtain ⟨covered, hc⟩ := Option.isSome_iff_exists.mp
    (hcov (m.startPosition + recallSeed % (m.miningLength / sectorsPerLoad) * sectorsPerLoad))
  simp only [Miner.iteration, hrecall, Option.bind_some, hc, Option.map_some, Option.isSome_some]

end AsMiner

/-! ## Mining on a flow shorter than one load -/

section Small

variable {σ : Type} (mix : Nat → σ → σ) (quality : Nat → σ → Nat) (targetQuality : Nat)

/-- On a flow shorter than one load, every configured range becomes the mining range of length
`0` at `0`, so `as_miner` hands out a miner, and its every iteration panics on the division by
`mining_length / SECTORS_PER_LOAD = 0`. -/
theorem iteration_small_flow {a b : Nat} (hab : a < b) {context : MineContext}
    (hflow : context.flowLength < sectorsPerLoad) :
    asMiner ⟨some a, some b⟩ context = some (some ⟨0, 0, ⟨some a, some b⟩⟩) ∧
      ∀ (recallSeed : Nat) (loadSealedData : Nat → Option (Vector (σ × Bool) sealsPerLoad)),
        (⟨0, 0, ⟨some a, some b⟩⟩ : Miner).iteration mix quality targetQuality recallSeed
          loadSealedData = none := by
  have hlt : context.flowLength < 2 ^ 64 := by
    simp only [sectorsPerLoad_eq] at hflow
    omega
  have hzero : context.flowLength / sectorsPerLoad * sectorsPerLoad = 0 := by
    rw [Nat.div_eq_of_lt hflow, Nat.zero_mul]
  refine ⟨?_, fun recallSeed loadSealedData =>
    Miner.iteration_of_lt_load (Nat.zero_lt_of_ne_zero (by decide)) _ _⟩
  simp only [asMiner, CustomMineRange.toValidRange_of_lt hab hlt, hzero, Nat.zero_min,
    Nat.sub_zero, Nat.min_zero, Nat.zero_div, Nat.zero_mul, Option.map_some]

end Small

/-- The range the service starts with, `[0, u64::MAX)`, on the flow of no entry: the miner mines
the range of length `0`, and its first iteration panics. -/
theorem iteration_small_flow_example :
    (0 < 2 ^ 64 - 1 ∧ (⟨0⟩ : MineContext).flowLength < sectorsPerLoad) ∧
      asMiner ⟨some 0, some (2 ^ 64 - 1)⟩ ⟨0⟩ = some (some ⟨0, 0, ⟨some 0, some (2 ^ 64 - 1)⟩⟩) ∧
      ∀ (recallSeed : Nat) (loadSealedData : Nat → Option (Vector (Unit × Bool) sealsPerLoad)),
        (⟨0, 0, ⟨some 0, some (2 ^ 64 - 1)⟩⟩ : Miner).iteration (fun _ _ => ()) (fun _ _ => 0) 0
          recallSeed loadSealedData = none :=
  ⟨⟨by decide, by decide⟩, iteration_small_flow (fun _ _ => ()) (fun _ _ => 0) 0 (by decide)
    (by decide)⟩

end Ionian.Mine
