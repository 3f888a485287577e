import Ionian.Storage.LogManager
import Ionian.Bits.Smear

/-!
# Storage.TxSubtrees — the padded size of a file and its subtrees

A file of `c` chunks is padded to `p` chunks, the least multiple of a granularity `m` at or above
`c` (`m = 1` below sixteen chunks, `q / 16` above, for `q = next_pow2(c)`), and the flow takes it
as subtrees of decreasing power-of-two sizes that sum to `p` (`split_nodes`).

`next_pow2` is the bit smear of `n - 1` (`Bits.TopFilled`), so it is `2 ^ size (n - 1)`, the least
power of two at least `n`, for every `usize` argument (`nextPow2_eq`).  Then `c ≤ p ≤ q`, and the
loop of `split_nodes`, which halves its node size at every turn, stops within `log q + 2` turns
with the binary digits of `p` (`splitNodesLoop_spec`).

`tx_subtree_root_list_padded` walks the nodes with a byte offset, but steps it by
`start_index += end`, where `end` already holds the offset.  The first two nodes are read where
`create_submission` reads them (`rootListLoop_two`); from the third on, the bytes of a node are
taken further along the data (`rootListLoop_third`), and the roots of a file of seven chunks are
not those of its data (`txSubtreeRootListPadded_third_node`).  The root of a subtree,
`sub_merkle_tree(..).root()`, is a parameter; its `unwrap` never fails, every slice having a
whole number of entries.
-/

namespace Ionian.Storage

/-! ## `next_pow2` and the padded size -/

/-- `next_pow2(n)` is the least power of two at least `n`: the smear of `n - 1` by the shifts
`1, …, 32` sets every bit below its length, as `n - 1` fits in 64 bits. -/
theorem nextPow2_eq {n : Nat} (hn : n ≤ 2 ^ 64) : nextPow2 n = 2 ^ (n - 1).size := by
  have hk : (n - 1).size ≤ 64 := Nat.size_le.mpr (by omega)
  have h₀ := Bits.topFilled_size (n - 1)
  have h₁ : Bits.TopFilled _ 2 _ := h₀.or_shiftRight
  have h₂ : Bits.TopFilled _ 4 _ := h₁.or_shiftRight
  have h₃ : Bits.TopFilled _ 8 _ := h₂.or_shiftRight
  have h₄ : Bits.TopFilled _ 16 _ := h₃.or_shiftRight
  have h₅ : Bits.TopFilled _ 32 _ := h₄.or_shiftRight
  have h₆ : Bits.TopFilled _ 64 _ := h₅.or_shiftRight
  unfold nextPow2
  dsimp only
  rw [h₆.eq hk]
  exact Nat.sub_add_cancel Nat.one_le_two_pow

theorem le_two_pow_size_sub_one (n : Nat) : n ≤ 2 ^ (n - 1).size := by
  have := Nat.lt_size_self (n - 1)
  omega

theorem bytesToChunks_pos {n : Nat} (hn : 1 ≤ n) : 1 ≤ bytesToChunks n := by
  unfold bytesToChunks
  rw [chunkSize_eq]
  split <;> omega

theorem bytesToChunks_le (n : Nat) : bytesToChunks n ≤ n / 256 + 1 := by
  unfold bytesToChunks
  rw [chunkSize_eq]
  split <;> omega

/-- Rounding `c` up to a multiple of `m`, as `compute_padded_chunk_size` does: the result is the
least multiple at or above `c`, and stays below every multiple at or above `c`. -/
theorem roundUp_spec {c m q : Nat} (hc : 1 ≤ c) (hm : 0 < m) :
    c ≤ ((c - 1) / m + 1) * m ∧ ((c - 1) / m + 1) * m - c < m ∧ m ∣ ((c - 1) / m + 1) * m ∧
      (m ∣ q → c ≤ q → ((c - 1) / m + 1) * m ≤ q) := by
  have hdiv := Nat.div_add_mod (c - 1) m
  have hmod := Nat.mod_lt (c - 1) hm
  have hp : ((c - 1) / m + 1) * m = m * ((c - 1) / m) + m := by ring
  refine ⟨by omega, by omega, Nat.dvd_mul_left m _, ?_⟩
  rintro ⟨k, rfl⟩ hcq
  -- `c - 1 < m * k`, so the quotient is below `k`
  have hlt : (c - 1) / m < k := by
    by_contra hge
    have : m * k ≤ m * ((c - 1) / m) := Nat.mul_le_mul_left m (by omega)
    omega
  calc ((c - 1) / m + 1) * m ≤ k * m := Nat.mul_le_mul_right m hlt
    _ = m * k := Nat.mul_comm k m

/-- The granularity of the padding divides the next power of two. -/
theorem minChunk_dvd (s : Nat) : (if 2 ^ s < 16 then 1 else 2 ^ s >>> 4) ∣ 2 ^ s := by
  split_ifs with h
  · exact one_dvd _
  · have hs : 4 ≤ s := by
      by_contra hs
      have hlt : 2 ^ s < 2 ^ 4 := Nat.pow_lt_pow_right (by decide) (by omega)
      exact h hlt
    rw [Nat.shiftRight_eq_div_pow, Nat.pow_div hs (by decide)]
    exact Nat.pow_dvd_pow 2 (Nat.sub_le s 4)

theorem minChunk_pos (s : Nat) : 0 < if 2 ^ s < 16 then 1 else 2 ^ s >>> 4 := by
  split_ifs with h
  · exact Nat.one_pos
  · rw [Nat.shiftRight_eq_div_pow]
    exact Nat.div_pos (by omega) (by decide)

/-! ## `split_nodes` -/

/-- The loop of `split_nodes`, one turn a unit of `fuel`; `none` if the fuel ends first. -/
def splitNodesLoop : Nat → Nat → Nat → List Nat → Option (List Nat)
  | 0, _, _, _ => none
  | fuel + 1, paddedChunks, nextChunkSize, nodes =>
    if paddedChunks > 0 then
      if paddedChunks ≥ nextChunkSize then
        splitNodesLoop fuel (paddedChunks - nextChunkSize) (nextChunkSize >>> 1)
          (nodes ++ [nextChunkSize])
      else splitNodesLoop fuel paddedChunks (nextChunkSize >>> 1) nodes
    else some nodes

/-- `split_nodes(data_size)`.  The loop halves `next_chunk_size` at every turn, so it takes at
most `log q + 2` turns, which `q + 1` covers (`splitNodes_spec`). -/
def splitNodes (dataSize : Nat) : Option (List Nat) :=
  let (paddedChunks, chunksNextPow2) := computePaddedChunkSize dataSize
  splitNodesLoop (chunksNextPow2 + 1) paddedChunks chunksNextPow2 []

theorem two_pow_succ_shiftRight_one (t : Nat) : 2 ^ (t + 1) >>> 1 = 2 ^ t := by
  rw [Nat.shiftRight_eq_div_pow, pow_succ, pow_one, Nat.mul_div_cancel _ (by decide)]

/-- **The loop of `split_nodes` takes the binary digits.**  From a node size `2 ^ t` and a count
below `2 ^ (t + 1)`, `t + 2` turns end the loop, and it appends distinct powers of two of at most
`2 ^ t`, in decreasing order, that sum to the count.  The induction is on `t`, as the loop halves
the node size. -/
theorem splitNodesLoop_spec (t : Nat) : ∀ (paddedChunks fuel : Nat) (nodes : List Nat),
    paddedChunks < 2 ^ (t + 1) → t + 2 ≤ fuel →
    ∃ out, splitNodesLoop fuel paddedChunks (2 ^ t) nodes = some (nodes ++ out) ∧
      out.sum = paddedChunks ∧ out.Pairwise (· > ·) ∧ ∀ s ∈ out, ∃ i ≤ t, s = 2 ^ i := by
  induction t with
  | zero =>
    intro paddedChunks fuel nodes hlt hfuel
    obtain ⟨fuel, rfl⟩ : ∃ f, fuel = f + 2 := ⟨fuel - 2, by omega⟩
    rcases Nat.lt_or_ge 0 paddedChunks with hpos | hzero
    · -- one node of one chunk, then the count is zero
      have h1 : paddedChunks = 1 := by simp at hlt; omega
      subst h1
      refine ⟨[1], ?_, rfl, List.pairwise_singleton _ _, fun s hs => ⟨0, le_rfl, by simpa using hs⟩⟩
      simp [splitNodesLoop]
    · have h0 : paddedChunks = 0 := by omega
      subst h0
      exact ⟨[], by simp [splitNodesLoop], rfl, List.Pairwise.nil, by simp⟩
  | succ t ih =>
    intro paddedChunks fuel nodes hlt hfuel
    obtain ⟨fuel, rfl⟩ : ∃ f, fuel = f + 1 := ⟨fuel - 1, by omega⟩
    have hhalf : 2 ^ (t + 1 + 1) = 2 ^ (t + 1) + 2 ^ (t + 1) := by ring
    rcases Nat.lt_or_ge 0 paddedChunks with hpos | hzero
    · by_cases hge : paddedChunks ≥ 2 ^ (t + 1)
      · -- the node of `2 ^ (t + 1)` chunks is taken
        obtain ⟨out, hloop, hsum, hpw, hpow⟩ :=
          ih (paddedChunks - 2 ^ (t + 1)) fuel (nodes ++ [2 ^ (t + 1)]) (by omega) (by omega)
        refine ⟨2 ^ (t + 1) :: out, ?_, by simp [hsum]; omega, ?_, ?_⟩
        · rw [splitNodesLoop, if_pos hpos, if_pos hge, two_pow_succ_shiftRight_one, hloop]
          simp
        · refine List.Pairwise.cons (fun s hs => ?_) hpw
          obtain ⟨i, hi, rfl⟩ := hpow s hs
          exact Nat.pow_lt_pow_right (by decide) (by omega)
        · intro s hs
          rcases List.mem_cons.mp hs with rfl | hs
          · exact ⟨t + 1, le_rfl, rfl⟩
          · obtain ⟨i, hi, rfl⟩ := hpow s hs
            exact ⟨i, by omega, rfl⟩
      · -- the count is below the node size: the loop only halves it
        obtain ⟨out, hloop, hsum, hpw, hpow⟩ :=
          ih paddedChunks fuel nodes (by omega) (by omega)
        refine ⟨out, ?_, hsum, hpw, fun s hs => ?_⟩
        · rw [splitNodesLoop, if_pos hpos, if_neg hge, two_pow_succ_shiftRight_one, hloop]
        · obtain ⟨i, hi, rfl⟩ := hpow s hs
          exact ⟨i, by omega, rfl⟩
    · have h0 : paddedChunks = 0 := by omega
      subst h0
      exact ⟨[], by simp [splitNodesLoop], rfl, List.Pairwise.nil, by simp⟩

section Padded

variable {sizeBytes : Nat}

/-- `compute_padded_chunk_size`, with `next_pow2` evaluated: `q = 2 ^ s` for the bit length `s`
of `c - 1`. -/
theorem computePaddedChunkSize_eq (hsize : sizeBytes < 2 ^ 64) :
    computePaddedChunkSize sizeBytes =
      (if 2 ^ (bytesToChunks sizeBytes - 1).size = bytesToChunks sizeBytes then
          2 ^ (bytesToChunks sizeBytes - 1).size
        else ((bytesToChunks sizeBytes - 1) /
            (if 2 ^ (bytesToChunks sizeBytes - 1).size < 16 then 1
              else 2 ^ (bytesToChunks sizeBytes - 1).size >>> 4) + 1) *
          (if 2 ^ (bytesToChunks sizeBytes - 1).size < 16 then 1
            else 2 ^ (bytesToChunks sizeBytes - 1).size >>> 4),
        2 ^ (bytesToChunks sizeBytes - 1).size) := by
  have hc : bytesToChunks sizeBytes ≤ 2 ^ 64 := (bytesToChunks_le sizeBytes).trans (by omega)
  unfold computePaddedChunkSize
  dsimp only
  rw [nextPow2_eq hc]
  split_ifs <;> rfl

/-- The padded size lies between the chunks and the next power of two, a multiple of the
granularity less than one granule above the chunks. -/
theorem paddedChunks_spec (hpos : 1 ≤ sizeBytes) (hsize : sizeBytes < 2 ^ 64) :
    bytesToChunks sizeBytes ≤ (computePaddedChunkSize sizeBytes).1 ∧
      (computePaddedChunkSize sizeBytes).1 ≤ 2 ^ (bytesToChunks sizeBytes - 1).size ∧
      (if 2 ^ (bytesToChunks sizeBytes - 1).size < 16 then 1
        else 2 ^ (bytesToChunks sizeBytes - 1).size >>> 4) ∣ (computePaddedChunkSize sizeBytes).1 ∧
      (computePaddedChunkSize sizeBytes).1 - bytesToChunks sizeBytes <
        (if 2 ^ (bytesToChunks sizeBytes - 1).size < 16 then 1
          else 2 ^ (bytesToChunks sizeBytes - 1).size >>> 4) := by
  have hc1 := bytesToChunks_pos hpos
  have hcq := le_two_pow_size_sub_one (bytesToChunks sizeBytes)
  have hdvd := minChunk_dvd (bytesToChunks sizeBytes - 1).size
  have hm := minChunk_pos (bytesToChunks sizeBytes - 1).size
  rw [computePaddedChunkSize_eq hsize]
  by_cases hexact : 2 ^ (bytesToChunks sizeBytes - 1).size = bytesToChunks sizeBytes
  · -- a power of two is its own padded size
    rw [if_pos hexact]
    exact ⟨hcq, le_rfl, hdvd, by omega⟩
  · rw [if_neg hexact]
    obtain ⟨hle, hlt, hdvd', hq⟩ := roundUp_spec (q := 2 ^ (bytesToChunks sizeBytes - 1).size) hc1 hm
    exact ⟨hle, hq hdvd hcq, hdvd', hlt⟩

/-- `split_nodes` runs the loop from the padded size and the next power of two. -/
theorem splitNodes_eq (hsize : sizeBytes < 2 ^ 64) :
    splitNodes sizeBytes = splitNodesLoop (2 ^ (bytesToChunks sizeBytes - 1).size + 1)
      (computePaddedChunkSize sizeBytes).1 (2 ^ (bytesToChunks sizeBytes - 1).size) [] := by
  unfold splitNodes
  conv_lhs => rw [computePaddedChunkSize_eq hsize]
  conv_rhs => rw [computePaddedChunkSize_eq hsize]

/-- **The padded size and its subtrees.**  For every file size of one byte or more,
`compute_padded_chunk_size` returns the next power of two `q` of the chunks `c`, and a padded size
`p` with `c ≤ p ≤ q`, a multiple of the granularity `m` with `p - c < m`; and `split_nodes`
ends, with powers of two of at most `q`, strictly decreasing, that sum to `p`. -/
theorem computePaddedChunkSize_splitNodes {p q : Nat} (hpos : 1 ≤ sizeBytes)
    (hsize : sizeBytes < 2 ^ 64) (h : computePaddedChunkSize sizeBytes = (p, q)) :
    q = nextPow2 (bytesToChunks sizeBytes) ∧ q = 2 ^ (bytesToChunks sizeBytes - 1).size ∧
      bytesToChunks sizeBytes ≤ p ∧ p ≤ q ∧ (if q < 16 then 1 else q / 16) ∣ p ∧
      p - bytesToChunks sizeBytes < (if q < 16 then 1 else q / 16) ∧
      ∃ nodes, splitNodes sizeBytes = some nodes ∧ nodes.Pairwise (· > ·) ∧
        (∀ x ∈ nodes, (∃ i, x = 2 ^ i) ∧ x ≤ q) ∧ nodes.sum = p := by
  have hc : bytesToChunks sizeBytes ≤ 2 ^ 64 := (bytesToChunks_le sizeBytes).trans (by omega)
  have hq : q = 2 ^ (bytesToChunks sizeBytes - 1).size := by
    have hsnd := congrArg Prod.snd h
    rw [computePaddedChunkSize_eq hsize] at hsnd
    exact hsnd.symm
  have hp : p = (computePaddedChunkSize sizeBytes).1 := by rw [h]
  -- the statement writes `min_chunk` as `q / 16`, the source as `chunks_next_pow2 >> 4`: they agree
  have hm : (if q < 16 then 1 else q / 16) =
      if 2 ^ (bytesToChunks sizeBytes - 1).size < 16 then 1
        else 2 ^ (bytesToChunks sizeBytes - 1).size >>> 4 := by
    rw [hq, Nat.shiftRight_eq_div_pow]
  obtain ⟨hcp, hpq, hdvd, hlt⟩ := paddedChunks_spec hpos hsize
  rw [← hp] at hcp hpq hdvd hlt
  rw [← hm] at hdvd hlt
  rw [← hq] at hpq
  -- the loop from `q = 2 ^ s` ends within `s + 2 ≤ q + 1` turns
  have hfuel : (bytesToChunks sizeBytes - 1).size + 2 ≤ q + 1 := by
    have := Nat.lt_two_pow_self (n := (bytesToChunks sizeBytes - 1).size)
    omega
  have hlt2 : p < 2 ^ ((bytesToChunks sizeBytes - 1).size + 1) := by
    rw [pow_succ, ← hq]
    omega
  obtain ⟨out, hloop, hsum, hpw, hpow⟩ := splitNodesLoop_spec _ _ _ [] hlt2 (hq ▸ hfuel)
  refine ⟨hq.trans (nextPow2_eq hc).symm, hq, hcp, hpq, hdvd, hlt, out, ?_, hpw, fun x hx => ?_, hsum⟩
  · rw [splitNodes_eq hsize, ← hp, hloop, List.nil_append]
  · obtain ⟨i, hi, rfl⟩ := hpow x hx
    exact ⟨⟨i, rfl⟩, hq ▸ Nat.pow_le_pow_right (by decide) hi⟩

/-- A file of seven chunks is padded to seven, under the power of two eight, as the nodes
`4, 2, 1`. -/
theorem computePaddedChunkSize_splitNodes_example :
    1 ≤ 1792 ∧ 1792 < 2 ^ 64 ∧ computePaddedChunkSize 1792 = (7, 8) ∧
      (8 = nextPow2 (bytesToChunks 1792) ∧ 8 = 2 ^ (bytesToChunks 1792 - 1).size ∧
        bytesToChunks 1792 ≤ 7 ∧ 7 ≤ 8 ∧ (if 8 < 16 then 1 else 8 / 16) ∣ 7 ∧
        7 - bytesToChunks 1792 < (if 8 < 16 then 1 else 8 / 16) ∧
        ∃ nodes, splitNodes 1792 = some nodes ∧ nodes.Pairwise (· > ·) ∧
          (∀ x ∈ nodes, (∃ i, x = 2 ^ i) ∧ x ≤ 8) ∧ nodes.sum = 7) :=
  ⟨by decide, by decide, rfl, computePaddedChunkSize_splitNodes (by decide) (by decide) rfl⟩

end Padded

/-! ## `tx_subtree_root_list_padded` -/

/-- `usize::trailing_zeros` over `w` bits: `w` for zero. -/
def trailingZeros : Nat → Nat → Nat
  | 0, _ => 0
  | w + 1, n => if n % 2 = 1 then 0 else trailingZeros w (n / 2) + 1

/-- `merkle_light::log2_pow2` -/
def log2Pow2 (n : Nat) : Nat := trailingZeros 64 n

theorem trailingZeros_two_pow : ∀ {w i : Nat}, i < w → trailingZeros w (2 ^ i) = i
  | w + 1, 0, _ => by simp [trailingZeros]
  | w + 1, i + 1, h => by
    have hmod : 2 ^ (i + 1) % 2 = 0 := by
      rw [pow_succ]
      exact Nat.mul_mod_left _ _
    rw [trailingZeros, if_neg (by omega), pow_succ, Nat.mul_div_cancel _ (by decide),
      trailingZeros_two_pow (by omega)]

/-- The bytes `[start, start + len)` of the data followed by zeros. -/
def paddedSlice (data : List UInt8) (start len : Nat) : List UInt8 :=
  ((data ++ List.replicate (start + len) 0).drop start).take len

section Roots

variable (subMerkleRoot : List UInt8 → H256) (data : List UInt8)

/-- The root of the subtree of `treeSize` entries from byte `startIndex`, zero-padded past the
data: the three cases of the body of `tx_subtree_root_list_padded`. -/
def subtreeRoot (startIndex treeSize : Nat) : H256 :=
  let endIndex := startIndex + treeSize * entrySize
  if startIndex ≥ data.length then subMerkleRoot (List.replicate (treeSize * entrySize) 0)
  else if endIndex > data.length then
    subMerkleRoot (data.drop startIndex ++ List.replicate (endIndex - data.length) 0)
  else subMerkleRoot ((data.drop startIndex).take (endIndex - startIndex))

/-- The loop of `tx_subtree_root_list_padded` over the nodes, at byte `startIndex`. -/
def rootListLoop : List Nat → Nat → List (Nat × H256)
  | [], _ => []
  | treeSize :: rest, startIndex =>
    let endIndex := startIndex + treeSize * entrySize
    (log2Pow2 treeSize + 1, subtreeRoot subMerkleRoot data startIndex treeSize) ::
      rootListLoop rest (startIndex + endIndex)

/-- `tx_subtree_root_list_padded(data)` -/
def txSubtreeRootListPadded : Option (List (Nat × H256)) :=
  (splitNodes data.length).map fun nodes => rootListLoop subMerkleRoot data nodes 0

/-- The subtree roots as `create_submission` computes them: each node over the bytes of the
zero-padded data right after the nodes before it. -/
def submissionRoots : List Nat → Nat → List (Nat × H256)
  | [], _ => []
  | treeSize :: rest, offset =>
    (log2Pow2 treeSize + 1, subMerkleRoot (paddedSlice data offset (treeSize * entrySize))) ::
      submissionRoots rest (offset + treeSize * entrySize)

/-- The three cases of the loop's body are the zero-padded slice. -/
theorem subtreeRoot_eq (startIndex treeSize : Nat) :
    subtreeRoot subMerkleRoot data startIndex treeSize =
      subMerkleRoot (paddedSlice data startIndex (treeSize * entrySize)) := by
  unfold subtreeRoot paddedSlice
  dsimp only
  rw [List.drop_append, List.drop_replicate, List.take_append, List.take_replicate,
    List.length_drop]
  split_ifs with hpast hstraddle
  · -- past the data: only zeros
    rw [List.drop_eq_nil_of_le hpast, List.take_nil, List.nil_append]
    congr 2
    omega
  · -- the data's tail, then zeros
    rw [List.take_of_length_le (by rw [List.length_drop]; omega)]
    congr 3
    omega
  · -- inside the data
    rw [show min (treeSize * entrySize - (data.length - startIndex))
        (startIndex + treeSize * entrySize - (startIndex - data.length)) = 0 by omega,
      List.replicate_zero, List.append_nil]
    congr 2
    omega

/-- With one or two nodes the loop reads each node where `create_submission` does. -/
theorem rootListLoop_two {nodes : List Nat} (hlen : nodes.length ≤ 2) :
    rootListLoop subMerkleRoot data nodes 0 = submissionRoots subMerkleRoot data nodes 0 := by
  match nodes, hlen with
  | [], _ => rfl
  | [s₀], _ => simp [rootListLoop, submissionRoots, subtreeRoot_eq]
  | [s₀, s₁], _ => simp [rootListLoop, submissionRoots, subtreeRoot_eq]

/-- From the third node on the offset has run ahead: the third node is read at
`(2 s₀ + s₁) * ENTRY_SIZE`, where `create_submission` reads it at `(s₀ + s₁) * ENTRY_SIZE`. -/
theorem rootListLoop_third (s₀ s₁ s₂ : Nat) (rest : List Nat) :
    (rootListLoop subMerkleRoot data (s₀ :: s₁ :: s₂ :: rest) 0)[2]? =
        some (log2Pow2 s₂ + 1,
          subMerkleRoot (paddedSlice data ((2 * s₀ + s₁) * entrySize) (s₂ * entrySize))) ∧
      (submissionRoots subMerkleRoot data (s₀ :: s₁ :: s₂ :: rest) 0)[2]? =
        some (log2Pow2 s₂ + 1,
          subMerkleRoot (paddedSlice data ((s₀ + s₁) * entrySize) (s₂ * entrySize))) := by
  simp only [rootListLoop, submissionRoots, List.getElem?_cons_succ, List.getElem?_cons_zero,
    subtreeRoot_eq]
  constructor
  · congr 4
    ring
  · congr 4
    ring

end Roots

set_option maxRecDepth 8000 in
/-- Seven chunks of ones: three nodes of four, two and one chunk.  The third root is of zeros, the
bytes after the ones, where `create_submission` takes the last chunk of ones. -/
theorem txSubtreeRootListPadded_third_node (subMerkleRoot : List UInt8 → H256) :
    splitNodes 1792 = some [4, 2, 1] ∧
      txSubtreeRootListPadded subMerkleRoot (List.replicate 1792 1) =
        some [(3, subMerkleRoot (List.replicate 1024 1)), (2, subMerkleRoot (List.replicate 512 1)),
          (1, subMerkleRoot (List.replicate 256 0))] ∧
      submissionRoots subMerkleRoot (List.replicate 1792 1) [4, 2, 1] 0 =
        [(3, subMerkleRoot (List.replicate 1024 1)), (2, subMerkleRoot (List.replicate 512 1)),
          (1, subMerkleRoot (List.replicate 256 1))] :=
  ⟨rfl, rfl, rfl⟩

end Ionian.Storage
