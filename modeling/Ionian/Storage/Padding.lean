import Ionian.Storage.TxSubtrees

/-!
# Storage.Padding — the zeros after a file, up to its padded size

`padding_rear_data` writes zeros from the end of a file to its padded size, one segment of
`PORA_CHUNK_SIZE` entries at a time: the rest of the file's last segment, each later segment
whole, and the padded part of the last segment.  `compute_segment_size` reports a full last
segment by its size and not by zero, so the file's last segment needs no padding then.

The loop is the puts of a list of chunk arrays, one after another until one fails
(`paddingLoop_eq`).  Those arrays are zeros, in increasing order without overlap, and cover
exactly the entries from the end of the file to the padded size (`ZeroFill`,
`paddingRearData_zeroFill`).  The proof follows the loop: each segment adds one array in front
of what the later segments cover (`ZeroFill.cons`).
-/

namespace Ionian.Storage

/-- The entry after the last one of a chunk array: `start_index + bytes_to_entries(data.len())`. -/
def ChunkArray.entryEnd (a : ChunkArray) : Nat := a.startIndex + bytesToEntries a.data.length

/-- The chunk arrays the loop of `padding_rear_data` puts, from the segment `segmentsForFile` that
holds `lastSegmentSizeForFile` entries of the file. -/
def paddingChunks (segmentsForProof lastSegmentSizeForProof : Nat) :
    Nat → Nat → Nat → List ChunkArray
  | 0, _, _ => []
  | fuel + 1, segmentsForFile, lastSegmentSizeForFile =>
    if segmentsForFile ≤ segmentsForProof then
      let paddingSize :=
        if segmentsForFile = segmentsForProof then
          (lastSegmentSizeForProof - lastSegmentSizeForFile) * entrySize
        else (poraChunkSize - lastSegmentSizeForFile) * entrySize
      (if paddingSize > 0 then
          [⟨List.replicate paddingSize 0,
            (segmentsForFile - 1) * poraChunkSize + lastSegmentSizeForFile⟩]
        else []) ++
        paddingChunks segmentsForProof lastSegmentSizeForProof fuel (segmentsForFile + 1) 0
    else []

/-- The chunk arrays `padding_rear_data` puts for a file of `size` bytes. -/
def rearPaddingChunks (size : Nat) : List ChunkArray :=
  let (segmentsForProof, lastSegmentSizeForProof) :=
    computeSegmentSize (computePaddedChunkSize size).1 poraChunkSize
  let (segmentsForFile, lastSegmentSizeForFile) :=
    computeSegmentSize (bytesToEntries size) poraChunkSize
  paddingChunks segmentsForProof lastSegmentSizeForProof
    (segmentsForProof + 1 - segmentsForFile) segmentsForFile lastSegmentSizeForFile

namespace LogManager

variable (keccak : List UInt8 → H256) (hash : Transaction → H256)

/-- Chunk arrays put one after another with the transaction's own hash, until a put fails. -/
def putChunksInOrder (m : LogManager) (tx : Transaction) (txSeq : Nat) :
    List ChunkArray → Option (LogManager × Except String Unit)
  | [] => some (m, .ok ())
  | chunks :: rest =>
    (m.putChunksWithTxHash keccak hash txSeq (hash tx) chunks).bind fun (m, r) =>
      match r with
      | .error e => some (m, .error e)
      | .ok _ => putChunksInOrder m tx txSeq rest

/-- **The padding loop puts its arrays in order.**  Each turn of the loop is the put of the
segment's array, when it has a byte, and then the turns after it. -/
theorem paddingLoop_eq (tx : Transaction) (txSeq segmentsForProof lastSegmentSizeForProof : Nat) :
    ∀ (fuel : Nat) (m : LogManager) (segmentsForFile lastSegmentSizeForFile : Nat),
      m.paddingLoop keccak hash tx txSeq segmentsForProof lastSegmentSizeForProof fuel
          segmentsForFile lastSegmentSizeForFile =
        m.putChunksInOrder keccak hash tx txSeq
          (paddingChunks segmentsForProof lastSegmentSizeForProof fuel segmentsForFile
            lastSegmentSizeForFile)
  | 0, m, _, _ => rfl
  | fuel + 1, m, segmentsForFile, lastSegmentSizeForFile => by
    unfold paddingLoop paddingChunks
    dsimp only
    split_ifs with hle hlast hpad hpad
    · -- the last segment, with padding
      simp only [List.singleton_append, putChunksInOrder]
      cases hput : m.putChunksWithTxHash keccak hash txSeq (hash tx) _ with
      | none => rfl
      | some res =>
        obtain ⟨m₁, r⟩ := res
        cases r with
        | error e => rfl
        | ok b => exact paddingLoop_eq tx txSeq segmentsForProof lastSegmentSizeForProof fuel m₁ _ _
    · simp only [List.nil_append, Option.bind_some]
      exact paddingLoop_eq tx txSeq segmentsForProof lastSegmentSizeForProof fuel m _ _
    · -- a segment before the last, with padding
      simp only [List.singleton_append, putChunksInOrder]
      cases hput : m.putChunksWithTxHash keccak hash txSeq (hash tx) _ with
      | none => rfl
      | some res =>
        obtain ⟨m₁, r⟩ := res
        cases r with
        | error e => rfl
        | ok b => exact paddingLoop_eq tx txSeq segmentsForProof lastSegmentSizeForProof fuel m₁ _ _
    · simp only [List.nil_append, Option.bind_some]
      exact paddingLoop_eq tx txSeq segmentsForProof lastSegmentSizeForProof fuel m _ _
    · rfl

end LogManager

/-! ## What the arrays cover -/

/-- Chunk arrays of zeros, whole entries each, in increasing order without overlap, that cover
the entries `[lo, hi)` and no other. -/
structure ZeroFill (out : List ChunkArray) (lo hi : Nat) : Prop where
  zeros : ∀ a ∈ out, a.data = List.replicate a.data.length 0
  whole : ∀ a ∈ out, 0 < a.data.length ∧ a.data.length % entrySize = 0
  ordered : out.Pairwise fun a b => a.entryEnd ≤ b.startIndex
  covers : ∀ i, (∃ a ∈ out, a.startIndex ≤ i ∧ i < a.entryEnd) ↔ lo ≤ i ∧ i < hi

theorem bytesToEntries_mul_entrySize (k : Nat) : bytesToEntries (k * entrySize) = k := by
  simp [bytesToEntries, entrySize]

theorem bytesToEntries_pos {n : Nat} (hn : 0 < n) : 0 < bytesToEntries n := by
  unfold bytesToEntries entrySize
  split <;> omega

theorem ZeroFill.nil {lo hi : Nat} (h : hi ≤ lo) : ZeroFill [] lo hi where
  zeros := by simp
  whole := by simp
  ordered := List.Pairwise.nil
  covers := fun i => by simp; omega

/-- One array of zeros for `[lo, mid)` in front of a fill of `[mid, hi)` fills `[lo, hi)`. -/
theorem ZeroFill.cons {rest : List ChunkArray} {lo mid hi : Nat} (hlt : lo < mid) (hmid : mid ≤ hi)
    (hrest : ZeroFill rest mid hi) :
    ZeroFill (⟨List.replicate ((mid - lo) * entrySize) 0, lo⟩ :: rest) lo hi := by
  have hend : ChunkArray.entryEnd ⟨List.replicate ((mid - lo) * entrySize) 0, lo⟩ = mid := by
    simp only [ChunkArray.entryEnd, List.length_replicate, bytesToEntries_mul_entrySize]
    omega
  refine ⟨?_, ?_, ?_, fun i => ?_⟩
  · intro a ha
    rcases List.mem_cons.mp ha with rfl | ha
    · simp
    · exact hrest.zeros a ha
  · intro a ha
    rcases List.mem_cons.mp ha with rfl | ha
    · simp only [List.length_replicate, entrySize]
      omega
    · exact hrest.whole a ha
  · refine List.Pairwise.cons (fun b hb => ?_) hrest.ordered
    -- the first entry of a later array is one the fill of `[mid, hi)` covers
    have hb₀ : b.startIndex < b.entryEnd := by
      have := bytesToEntries_pos (hrest.whole b hb).1
      unfold ChunkArray.entryEnd
      omega
    have := ((hrest.covers b.startIndex).mp ⟨b, hb, le_rfl, hb₀⟩).1
    rw [hend]
    exact this
  · rw [List.exists_mem_cons_iff, hrest.covers i]
    simp only [hend]
    omega

/-- A fill after a possibly empty array: the segment adds nothing when it has no padding. -/
theorem zeroFill_append {rest : List ChunkArray} {lo mid hi : Nat} (hle : lo ≤ mid)
    (hmid : mid ≤ hi) (hrest : ZeroFill rest mid hi) :
    ZeroFill ((if (mid - lo) * entrySize > 0 then
      [⟨List.replicate ((mid - lo) * entrySize) 0, lo⟩] else []) ++ rest) lo hi := by
  split_ifs with hpos
  · exact hrest.cons (by simp only [entrySize] at hpos; omega) hmid
  · have hlo : lo = mid := by simp only [entrySize] at hpos; omega
    subst hlo
    exact hrest

/-! ## The segments -/

/-- `compute_segment_size` of a positive count: at least one segment, a last segment of one to
`chunks_per_segment` chunks, and the count is the full segments before it plus the last. -/
theorem computeSegmentSize_spec {n size : Nat} (hn : 1 ≤ n) (hsize : 0 < size) :
    1 ≤ (computeSegmentSize n size).1 ∧ 1 ≤ (computeSegmentSize n size).2 ∧
      (computeSegmentSize n size).2 ≤ size ∧
      ((computeSegmentSize n size).1 - 1) * size + (computeSegmentSize n size).2 = n := by
  have hdiv := Nat.div_add_mod n size
  have hmod := Nat.mod_lt n hsize
  by_cases h : n % size = 0
  · -- a whole last segment
    simp only [computeSegmentSize, if_pos h]
    have hq : 1 ≤ n / size := by
      rcases Nat.eq_zero_or_pos (n / size) with h0 | h0
      · rw [h0, h] at hdiv
        omega
      · exact h0
    refine ⟨hq, hsize, le_rfl, ?_⟩
    rw [Nat.sub_one_mul]
    have : size ≤ n / size * size := Nat.le_mul_of_pos_left size hq
    rw [h, Nat.mul_comm] at hdiv
    omega
  · simp only [computeSegmentSize, if_neg h]
    refine ⟨Nat.le_add_left 1 _, Nat.pos_of_ne_zero h, hmod.le, ?_⟩
    rw [Nat.add_sub_cancel, Nat.mul_comm]
    omega

/-- Of two counts in segments, the larger takes no fewer segments. -/
theorem segments_le {s₁ l₁ s₂ l₂ size : Nat} (hl₁ : 1 ≤ l₁) (hl₂ : l₂ ≤ size) (hs₂ : 1 ≤ s₂)
    (hle : (s₁ - 1) * size + l₁ ≤ (s₂ - 1) * size + l₂) : s₁ ≤ s₂ := by
  by_contra hlt
  have hmul : s₂ * size ≤ (s₁ - 1) * size := Nat.mul_le_mul_right size (by omega)
  -- the full segments before the last of `s₂`, and that last one, are `s₂` segments
  have hfull : (s₂ - 1) * size + size = s₂ * size := by
    rw [← Nat.succ_mul, Nat.succ_eq_add_one, Nat.sub_add_cancel hs₂]
  omega

section Cover

variable {segmentsForProof lastSegmentSizeForProof : Nat}

theorem paddingChunks_of_lt {fuel g l : Nat} (hg : segmentsForProof < g) :
    paddingChunks segmentsForProof lastSegmentSizeForProof fuel g l = [] := by
  cases fuel with
  | zero => rfl
  | succ fuel =>
    unfold paddingChunks
    rw [if_neg (by omega)]

/-- **The loop's arrays fill the rest of the padded size.**  From the segment `g` that holds `l`
entries of the file, the arrays cover the entries from `(g - 1) * PORA_CHUNK_SIZE + l` to the
padded size.  The induction is on the loop's turns; each adds the array of its segment in front. -/
theorem paddingChunks_zeroFill :
    ∀ (fuel g l : Nat), 1 ≤ g → l ≤ poraChunkSize → g ≤ segmentsForProof →
      (g - 1) * poraChunkSize + l ≤ (segmentsForProof - 1) * poraChunkSize + lastSegmentSizeForProof →
      segmentsForProof + 1 - g ≤ fuel →
      ZeroFill (paddingChunks segmentsForProof lastSegmentSizeForProof fuel g l)
        ((g - 1) * poraChunkSize + l)
        ((segmentsForProof - 1) * poraChunkSize + lastSegmentSizeForProof) := by
  intro fuel
  induction fuel with
  | zero =>
    intro g l _ _ hg _ hfuel
    omega
  | succ fuel ih =>
    intro g l hg₁ hl hg hpos hfuel
    unfold paddingChunks
    rw [if_pos hg]
    dsimp only
    by_cases hlast : g = segmentsForProof
    · -- the last segment: its padding reaches the padded size, and the loop ends
      subst hlast
      rw [if_pos rfl, paddingChunks_of_lt (by omega)]
      have hmid : (g - 1) * poraChunkSize + lastSegmentSizeForProof -
          ((g - 1) * poraChunkSize + l) = lastSegmentSizeForProof - l := by omega
      have := zeroFill_append hpos le_rfl (ZeroFill.nil le_rfl)
      rwa [hmid] at this
    · -- a segment before the last: its padding reaches the next segment
      rw [if_neg hlast]
      have hnext : g * poraChunkSize ≤ (segmentsForProof - 1) * poraChunkSize := by
        exact Nat.mul_le_mul_right _ (by omega)
      have hrest := ih (g + 1) 0 (by omega) (Nat.zero_le _) (by omega)
        (by rw [Nat.add_sub_cancel, Nat.add_zero]; omega) (by omega)
      simp only [Nat.add_sub_cancel, Nat.add_zero] at hrest
      have hseg : (g - 1) * poraChunkSize + poraChunkSize = g * poraChunkSize := by
        rw [← Nat.succ_mul, Nat.succ_eq_add_one, Nat.sub_add_cancel hg₁]
      have hmid : g * poraChunkSize - ((g - 1) * poraChunkSize + l) = poraChunkSize - l := by
        omega
      have := @zeroFill_append _ ((g - 1) * poraChunkSize + l) _ _ (by omega) (by omega) hrest
      rwa [hmid] at this

end Cover

theorem bytesToEntries_eq_bytesToChunks (n : Nat) : bytesToEntries n = bytesToChunks n := rfl

/-- **The rear padding fills exactly the gap.**  For every transaction of one byte or more,
`padding_rear_data` is the puts, in order, of chunk arrays of zeros, without overlap, that cover
the entries from `bytes_to_entries(size)` to the padded size and no other. -/
theorem paddingRearData_zeroFill (keccak : List UInt8 → H256) (hash : Transaction → H256)
    (m : LogManager) (tx : Transaction) (txSeq : Nat) (hpos : 1 ≤ tx.size)
    (hsize : tx.size < 2 ^ 64) :
    m.paddingRearData keccak hash tx txSeq =
        m.putChunksInOrder keccak hash tx txSeq (rearPaddingChunks tx.size) ∧
      ZeroFill (rearPaddingChunks tx.size) (bytesToEntries tx.size)
        (computePaddedChunkSize tx.size).1 := by
  refine ⟨LogManager.paddingLoop_eq keccak hash tx txSeq _ _ _ m _ _, ?_⟩
  obtain ⟨hc, -, -, -⟩ := paddedChunks_spec hpos hsize
  have hc₁ := bytesToChunks_pos hpos
  rw [← bytesToEntries_eq_bytesToChunks] at hc hc₁
  have hN : 0 < poraChunkSize := by decide
  -- the file's and the padded size's segments
  obtain ⟨hsF, hlF, hlFN, hF⟩ := computeSegmentSize_spec hc₁ hN
  obtain ⟨hsP, hlP, hlPN, hP⟩ := computeSegmentSize_spec (hc₁.trans hc) hN
  have hle := segments_le hlF hlPN hsP (by rw [hF, hP]; exact hc)
  have := paddingChunks_zeroFill _ _ _ hsF hlFN hle (by rw [hF, hP]; exact hc) le_rfl
  rwa [hF, hP] at this

/-- A transaction of 17 entries is padded to 18: one array of zeros, for the entry `17`. -/
theorem paddingRearData_zeroFill_example :
    1 ≤ 4352 ∧ 4352 < 2 ^ 64 ∧
      ((⟨FlowStore.new, .empty, [], []⟩ : LogManager).paddingRearData (fun _ => H256.zero)
          (fun _ => H256.zero) ⟨[], 16, 4352, 0⟩ 0 =
        (⟨FlowStore.new, .empty, [], []⟩ : LogManager).putChunksInOrder (fun _ => H256.zero)
          (fun _ => H256.zero) ⟨[], 16, 4352, 0⟩ 0 (rearPaddingChunks 4352) ∧
      ZeroFill (rearPaddingChunks 4352) (bytesToEntries 4352) (computePaddedChunkSize 4352).1) :=
  ⟨by decide, by decide, paddingRearData_zeroFill _ _ _ _ _ (by decide) (by decide)⟩

example : rearPaddingChunks 4352 = [⟨List.replicate 256 0, 17⟩] := rfl

end Ionian.Storage
