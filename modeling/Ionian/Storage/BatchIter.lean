import Ionian.Storage.Flow

/-!
# Storage.BatchIter — a range cut at the batch boundaries

`batch_iter(start, end, batch_size)` steps from `start` rounded down to a multiple of the batch
size, and clips each batch to `[start, end)`.  Every read, write and copy of the flow goes through
it.

The end of each batch is the `u64` sum `i + batch_size`, and the last batch of a non-empty range
ends at `end` rounded up to a multiple of the batch size.  So `batch_iter` panics exactly when that
rounded end is past `u64::MAX` (`batchIter_eq_none_iff`): for `SECTORS_PER_LOAD`, every range
that ends in the last load below `2^64`.  Otherwise it returns the pairs `batchPairs`
(`batchIter_eq_some`), and for a non-empty range they partition it: the first starts at `start`,
the last ends at `end`, each starts where the one before ends, and each lies in one aligned batch,
one pair for every batch that meets the range (`batchIter_partition`).

The pair `k` is the batch `start / batch_size + k` clipped (`getElem_batchPairs`); the count of
pairs is a division rounded up, and `lt_ceilDiv_iff` turns it into the last batch that meets the
range.
-/

namespace Ionian.Storage

/-- `k` is below `x` divided by `b`, rounded up, exactly when `k` batches stop short of `x`. -/
theorem lt_ceilDiv_iff {k x b : Nat} (hb : 0 < b) : k < (x + b - 1) / b ↔ k * b < x := by
  rw [← Nat.add_one_le_iff, Nat.le_div_iff_mul_le hb, Nat.add_mul, Nat.one_mul]
  omega

/-- A multiple of `b` rounded up to a multiple of `b` is itself. -/
theorem ceilDiv_mul_of_dvd {x b : Nat} (hb : 0 < b) (h : b ∣ x) : (x + b - 1) / b * b = x := by
  obtain ⟨c, rfl⟩ := h
  rw [Nat.add_sub_assoc hb, Nat.mul_add_div hb, Nat.div_eq_of_lt (Nat.sub_lt hb Nat.one_pos),
    Nat.add_zero, Nat.mul_comm]

/-- A number lies below the end of its batch. -/
theorem lt_div_add_one_mul {x b : Nat} (hb : 0 < b) : x < (x / b + 1) * b := by
  rw [Nat.add_mul, Nat.one_mul]
  exact Nat.lt_div_mul_add hb

/-- A batch that starts before `x` ends no later than `x` rounded up to a multiple of the batch. -/
theorem succ_mul_le_ceilDiv_mul {m x b : Nat} (hb : 0 < b) (h : m * b < x) :
    (m + 1) * b ≤ (x + b - 1) / b * b :=
  Nat.mul_le_mul_right b ((lt_ceilDiv_iff hb).mpr h)

/-! ## `mapM` in `Option` -/

section MapM

variable {α β : Type} {f : α → Option β}

/-- `mapM` in `Option` of a function that succeeds on every element. -/
theorem mapM_eq_some_of_forall {g : α → β} :
    ∀ {l : List α}, (∀ x ∈ l, f x = some (g x)) → l.mapM f = some (l.map g)
  | [], _ => rfl
  | x :: l, h => by
    rw [List.mapM_cons, h x List.mem_cons_self,
      mapM_eq_some_of_forall fun y hy => h y (List.mem_cons_of_mem x hy)]
    rfl

/-- An element of a list that `mapM` maps in `Option` has its image in the result. -/
theorem mem_of_mapM_eq_some :
    ∀ {l : List α} {l' : List β}, l.mapM f = some l' → ∀ {x}, x ∈ l → ∃ y ∈ l', f x = some y
  | [], _, _, _, hx => absurd hx List.not_mem_nil
  | x :: l, l', h, z, hz => by
    simp only [List.mapM_cons, Option.bind_eq_bind, Option.bind_eq_some_iff, Option.pure_def,
      Option.some.injEq] at h
    obtain ⟨y, hy, ys, hys, rfl⟩ := h
    rcases List.mem_cons.mp hz with rfl | hz
    · exact ⟨y, List.mem_cons_self, hy⟩
    · obtain ⟨w, hw, hfw⟩ := mem_of_mapM_eq_some hys hz
      exact ⟨w, List.mem_cons_of_mem _ hw, hfw⟩

/-- `mapM` in `Option` fails as soon as the function fails on one element. -/
theorem mapM_eq_none_of_mem {l : List α} {x : α} (hx : x ∈ l) (hfx : f x = none) :
    l.mapM f = none := by
  cases h : l.mapM f with
  | none => rfl
  | some l' =>
    obtain ⟨y, -, hy⟩ := mem_of_mapM_eq_some h hx
    rw [hfx] at hy
    cases hy

end MapM

/-! ## The pairs -/

/-- The pairs `batch_iter` returns when no batch end overflows: each batch from the one of
`start` on that starts before `end`, clipped to the range. -/
def batchPairs (start endIndex batchSize : Nat) : List (Nat × Nat) :=
  let first := start / batchSize * batchSize
  (List.range ((endIndex - first + batchSize - 1) / batchSize)).map fun k =>
    let i := first + k * batchSize
    (max start i, min endIndex (i + batchSize))

section BatchIter

variable {start endIndex batchSize : Nat}

theorem length_batchPairs :
    (batchPairs start endIndex batchSize).length =
      (endIndex - start / batchSize * batchSize + batchSize - 1) / batchSize := by
  simp [batchPairs]

/-- The pair `k` is the batch `start / batch_size + k`, clipped to the range. -/
theorem getElem_batchPairs {k : Nat} (hk : k < (batchPairs start endIndex batchSize).length) :
    (batchPairs start endIndex batchSize)[k] =
      (max start ((start / batchSize + k) * batchSize),
        min endIndex ((start / batchSize + k + 1) * batchSize)) := by
  simp only [batchPairs, List.getElem_map, List.getElem_range]
  congr 2 <;> ring

/-- The batches the pairs take are those that start before the end. -/
theorem lt_length_batchPairs_iff (hb : 0 < batchSize) {k : Nat} :
    k < (batchPairs start endIndex batchSize).length ↔
      (start / batchSize + k) * batchSize < endIndex := by
  rw [length_batchPairs, lt_ceilDiv_iff hb, Nat.add_mul]
  omega

/-- A non-empty range has a pair. -/
theorem length_batchPairs_pos (hb : 0 < batchSize) (hlt : start < endIndex) :
    0 < (batchPairs start endIndex batchSize).length :=
  (lt_length_batchPairs_iff hb).mpr
    (by rw [Nat.add_zero]; exact lt_of_le_of_lt (Nat.div_mul_le_self start batchSize) hlt)

/-- The batch after the last pair starts at the end or later. -/
theorem le_length_batchPairs_mul (hb : 0 < batchSize) :
    endIndex ≤ (start / batchSize + (batchPairs start endIndex batchSize).length) * batchSize :=
  Nat.le_of_not_lt ((lt_length_batchPairs_iff hb).not.mp (Nat.lt_irrefl _))

/-- The first pair starts at `start`, every later one at the boundary of its batch. -/
theorem fst_getElem_batchPairs (hb : 0 < batchSize) {k : Nat}
    (hk : k < (batchPairs start endIndex batchSize).length) :
    (batchPairs start endIndex batchSize)[k].1 =
      if k = 0 then start else (start / batchSize + k) * batchSize := by
  rw [getElem_batchPairs hk]
  split_ifs with h0
  · subst h0
    rw [Nat.add_zero]
    exact max_eq_left (Nat.div_mul_le_self start batchSize)
  · have : start < (start / batchSize + k) * batchSize :=
      lt_of_lt_of_le (lt_div_add_one_mul hb) (Nat.mul_le_mul_right _ (by omega))
    exact max_eq_right this.le

/-- The pair `k` starts in the batch `start / batch_size + k`. -/
theorem fst_getElem_batchPairs_div (hb : 0 < batchSize) {k : Nat}
    (hk : k < (batchPairs start endIndex batchSize).length) :
    (batchPairs start endIndex batchSize)[k].1 / batchSize = start / batchSize + k := by
  rw [fst_getElem_batchPairs hb hk]
  split_ifs with h0
  · rw [h0, Nat.add_zero]
  · exact Nat.mul_div_cancel _ hb

/-- The batches of the pairs are consecutive from the batch of `start`. -/
theorem map_div_batchPairs (hb : 0 < batchSize) :
    (batchPairs start endIndex batchSize).map (·.1 / batchSize) =
      List.range' (start / batchSize) (batchPairs start endIndex batchSize).length := by
  apply List.ext_getElem (by simp)
  intro k hk₁ hk₂
  rw [List.getElem_map, List.getElem_range', Nat.one_mul]
  exact fst_getElem_batchPairs_div hb (by simpa using hk₁)

/-- Without an overflow of the last batch end, `batch_iter` returns the pairs. -/
theorem batchIter_eq_some (hb : 0 < batchSize)
    (hfit : (endIndex + batchSize - 1) / batchSize * batchSize < 2 ^ 64) :
    batchIter start endIndex batchSize = some (batchPairs start endIndex batchSize) := by
  rw [batchIter, if_neg (Nat.pos_iff_ne_zero.mp hb), batchPairs]
  refine mapM_eq_some_of_forall fun k hk => ?_
  -- the batch `k` starts before the end, so it ends within the rounded end
  have hin : (start / batchSize + k) * batchSize < endIndex :=
    (lt_length_batchPairs_iff hb).mp (by rwa [length_batchPairs, ← List.mem_range])
  have hend := succ_mul_le_ceilDiv_mul hb hin
  rw [Nat.add_mul, Nat.add_mul, Nat.one_mul] at hend
  dsimp only
  rw [checkedAdd_of_lt (by omega), Option.map_some]

/-- A last batch that ends past `u64::MAX` makes `batch_iter` panic on its sum. -/
theorem batchIter_eq_none_of_le (hb : 0 < batchSize) (hlt : start < endIndex)
    (hover : 2 ^ 64 ≤ (endIndex + batchSize - 1) / batchSize * batchSize) :
    batchIter start endIndex batchSize = none := by
  -- the last batch: there is one, and the batch after it starts at the end or later
  have hpos := length_batchPairs_pos hb hlt
  have hafter : endIndex ≤
      (start / batchSize + (batchPairs start endIndex batchSize).length) * batchSize :=
    le_length_batchPairs_mul hb
  set n := (batchPairs start endIndex batchSize).length
  have hceil : (endIndex + batchSize - 1) / batchSize ≤ start / batchSize + n :=
    Nat.le_of_not_lt (mt (lt_ceilDiv_iff hb).mp (Nat.not_lt_of_le hafter))
  have hlast : (endIndex + batchSize - 1) / batchSize * batchSize ≤
      start / batchSize * batchSize + (n - 1) * batchSize + batchSize := by
    have := Nat.mul_le_mul_right batchSize hceil
    rw [Nat.add_mul] at this
    have hsplit : n * batchSize = (n - 1) * batchSize + batchSize := by
      rw [← Nat.succ_mul, Nat.succ_eq_add_one, Nat.sub_add_cancel hpos]
    omega
  rw [batchIter, if_neg (Nat.pos_iff_ne_zero.mp hb)]
  refine mapM_eq_none_of_mem (x := n - 1) ?_ ?_
  · rw [List.mem_range, ← length_batchPairs]
    omega
  · dsimp only
    rw [checkedAdd_of_le (by omega), Option.map_none]

/-- **`batch_iter` panics past `u64::MAX`.**  For a non-empty range and a batch size above zero,
`batch_iter` panics exactly when the end rounded up to a multiple of the batch size, where its last
batch ends, is `2^64` or more. -/
theorem batchIter_eq_none_iff (hb : 0 < batchSize) (hlt : start < endIndex) :
    batchIter start endIndex batchSize = none ↔
      2 ^ 64 ≤ (endIndex + batchSize - 1) / batchSize * batchSize := by
  constructor
  · intro h
    by_contra hfit
    rw [batchIter_eq_some hb (Nat.lt_of_not_le hfit)] at h
    cases h
  · exact batchIter_eq_none_of_le hb hlt

/-- The range `[2^64 - 2, 2^64 - 1)` in loads of `SECTORS_PER_LOAD`: its load ends at `2^64`, and
`batch_iter` panics on the sum. -/
theorem batchIter_eq_none_iff_last_load :
    0 < sectorsPerLoad ∧ 2 ^ 64 - 2 < 2 ^ 64 - 1 ∧
      batchIter (2 ^ 64 - 2) (2 ^ 64 - 1) sectorsPerLoad = none :=
  ⟨by decide, by decide, (batchIter_eq_none_iff (by decide) (by decide)).mpr (by decide)⟩

/-- The pairs of a non-empty range partition it. -/
theorem batchPairs_partition (hlt : start < endIndex) (hb : 0 < batchSize) :
    (batchPairs start endIndex batchSize).head?.map Prod.fst = some start ∧
      (batchPairs start endIndex batchSize).getLast?.map Prod.snd = some endIndex ∧
      (∀ j (hj : j + 1 < (batchPairs start endIndex batchSize).length),
        (batchPairs start endIndex batchSize)[j].2 =
          (batchPairs start endIndex batchSize)[j + 1].1) ∧
      (∀ p ∈ batchPairs start endIndex batchSize, p.1 < p.2 ∧
        p.1 / batchSize * batchSize ≤ p.1 ∧ p.2 ≤ (p.1 / batchSize + 1) * batchSize) ∧
      (batchPairs start endIndex batchSize).map (·.1 / batchSize) =
        List.range' (start / batchSize) (batchPairs start endIndex batchSize).length ∧
      ∀ m, m ∈ (batchPairs start endIndex batchSize).map (·.1 / batchSize) ↔
        start < (m + 1) * batchSize ∧ m * batchSize < endIndex := by
  have hlen : ∀ k, k < (batchPairs start endIndex batchSize).length ↔
      (start / batchSize + k) * batchSize < endIndex := fun _ => lt_length_batchPairs_iff hb
  have hnext : start < (start / batchSize + 1) * batchSize := lt_div_add_one_mul hb
  have h0 := length_batchPairs_pos hb hlt
  refine ⟨?_, ?_, ?_, ?_, map_div_batchPairs hb, fun m => ?_⟩
  · -- the first pair
    rw [List.head?_eq_getElem?, List.getElem?_eq_getElem h0, Option.map_some,
      fst_getElem_batchPairs hb h0, if_pos rfl]
  · -- the last pair: the batch after it starts at the end or later
    rw [List.getLast?_eq_getElem?, List.getElem?_eq_getElem (by omega), Option.map_some,
      getElem_batchPairs (by omega)]
    have hafter : endIndex ≤
        (start / batchSize + (batchPairs start endIndex batchSize).length) * batchSize :=
      le_length_batchPairs_mul hb
    have hlast : start / batchSize + ((batchPairs start endIndex batchSize).length - 1) + 1 =
        start / batchSize + (batchPairs start endIndex batchSize).length := by omega
    rw [hlast]
    congr 1
    exact min_eq_left hafter
  · -- consecutive pairs meet at the boundary of their batches
    intro j hj
    rw [getElem_batchPairs (by omega), getElem_batchPairs hj]
    have hin := (hlen (j + 1)).mp hj
    have hge : start ≤ (start / batchSize + (j + 1)) * batchSize := by
      have : (start / batchSize + 1) * batchSize ≤ (start / batchSize + (j + 1)) * batchSize :=
        Nat.mul_le_mul_right _ (by omega)
      omega
    simp only
    rw [min_eq_right (by rw [← Nat.add_assoc] at hin; exact hin.le), max_eq_right hge,
      Nat.add_assoc]
  · -- each pair is non-empty and inside its batch
    intro p hp
    obtain ⟨k, hk, rfl⟩ := List.getElem_of_mem hp
    have hin := (hlen k).mp hk
    rw [fst_getElem_batchPairs_div hb hk, getElem_batchPairs hk]
    have hpos : (start / batchSize + k) * batchSize < (start / batchSize + k + 1) * batchSize :=
      Nat.mul_lt_mul_of_pos_right (by omega) hb
    have hlo : start < (start / batchSize + k + 1) * batchSize :=
      lt_of_lt_of_le hnext (Nat.mul_le_mul_right _ (by omega))
    exact ⟨lt_min (max_lt hlt hin) (max_lt hlo hpos), le_max_right _ _, min_le_right _ _⟩
  · -- the batches that meet the range
    rw [map_div_batchPairs hb, List.mem_range'_1]
    constructor
    · rintro ⟨hlo, hhi⟩
      refine ⟨(Nat.div_lt_iff_lt_mul hb).mp (by omega), ?_⟩
      have := (hlen (m - start / batchSize)).mp (by omega)
      rwa [Nat.add_sub_cancel' hlo] at this
    · rintro ⟨hlo, hhi⟩
      have hm : start / batchSize ≤ m := Nat.le_of_lt_succ ((Nat.div_lt_iff_lt_mul hb).mpr hlo)
      refine ⟨hm, ?_⟩
      have := (hlen (m - start / batchSize)).mpr (by rwa [Nat.add_sub_cancel' hm])
      omega

/-- **`batch_iter` partitions a range it does not panic on.**  For `start < end`, a batch size
above zero and a last batch that ends within `u64`, `batch_iter` returns pairs that start at
`start` and end at `end`, each ending where the next starts, each non-empty and inside the aligned
batch of its start, and whose batches are consecutive and are exactly the batches that meet
`[start, end)`. -/
theorem batchIter_partition (hlt : start < endIndex) (hb : 0 < batchSize)
    (hfit : (endIndex + batchSize - 1) / batchSize * batchSize < 2 ^ 64) :
    ∃ pairs, batchIter start endIndex batchSize = some pairs ∧
      pairs.head?.map Prod.fst = some start ∧ pairs.getLast?.map Prod.snd = some endIndex ∧
      (∀ j (hj : j + 1 < pairs.length), pairs[j].2 = pairs[j + 1].1) ∧
      (∀ p ∈ pairs, p.1 < p.2 ∧
        p.1 / batchSize * batchSize ≤ p.1 ∧ p.2 ≤ (p.1 / batchSize + 1) * batchSize) ∧
      pairs.map (·.1 / batchSize) = List.range' (start / batchSize) pairs.length ∧
      ∀ m, m ∈ pairs.map (·.1 / batchSize) ↔
        start < (m + 1) * batchSize ∧ m * batchSize < endIndex :=
  ⟨batchPairs start endIndex batchSize, batchIter_eq_some hb hfit, batchPairs_partition hlt hb⟩

example : batchIter 1000 2100 1024 = some [(1000, 1024), (1024, 2048), (2048, 2100)] := by
  decide

end BatchIter

end Ionian.Storage
