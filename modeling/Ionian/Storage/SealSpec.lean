import Ionian.Storage.Seal

/-!
# Storage.SealSpec — what a mask undoes, and where a seal finds its context

Unsealing undoes sealing (`ionianUnseal_ionianSeal`): both chains take the next mask from the
keccak of the sealed word, and a byte xor-ed twice with the same mask byte is itself.  A first mask
that is not zero changes the first word (`ionianSeal_ne_self`), so the sealed bytes differ from the
raw ones.  The sealed words from word `k ≥ 1` on unseal with the seed `sealed[k - 1]`, and a prefix
of whole sealed words unseals to the prefix of the data (`unsealWithMask_sealWithMask`).

A load with one context reads it for exactly the seals below its end (`getSealContextDigest_single`),
and the first `set_seal_context` of a fresh load records that one context, at the local end after the
cast and the clamp (`setSealContext_new`).
-/

namespace Ionian.Storage

/-! ## Masks -/

section Mask

variable (keccak : List UInt8 → H256)

theorem uint8_eq_zero_of_xor_eq_self {x y : UInt8} (h : x ^^^ y = x) : y = 0 := by
  have := congrArg (x ^^^ ·) h
  simpa [← UInt8.xor_assoc] using this

@[simp] theorem length_xorWord (word : List UInt8) (mask : H256) :
    (xorWord word mask).length = word.length := List.length_mapIdx

@[simp] theorem xorWord_xorWord (word : List UInt8) (mask : H256) :
    xorWord (xorWord word mask) mask = word := by
  apply List.ext_getElem (by simp)
  intro i h₁ h₂
  simp [xorWord]

/-- A mask that leaves a whole word as it is, is zero. -/
theorem eq_zero_of_xorWord_eq_self {word : List UInt8} {mask : H256} (hlen : word.length = 32)
    (h : xorWord word mask = word) : mask = H256.zero := by
  ext i hi
  have hi' : i < word.length := hlen ▸ hi
  have hbyte := List.getElem_of_eq h (by simpa using hi')
  simp only [xorWord, List.getElem_mapIdx, Vector.getElem?_toList, Vector.getElem?_eq_getElem hi,
    Option.getD_some] at hbyte
  simp [H256.zero, uint8_eq_zero_of_xor_eq_self hbyte]

theorem length_sealWords {n : Nat} {data : List UInt8} (h : 32 * n ≤ data.length) (mask : H256) :
    (sealWords keccak n data mask).length = 32 * n := by
  induction n generalizing data mask with
  | zero => rfl
  | succ n ih =>
    rw [sealWords, List.length_append, length_xorWord, List.length_take,
      ih (by simp; omega)]
    omega

/-- The unsealing chain runs on the sealed words, so it sees the masks the sealing chain made. -/
theorem unsealWords_sealWords {n : Nat} {data : List UInt8} (h : 32 * n ≤ data.length)
    (mask : H256) :
    unsealWords keccak n (sealWords keccak n data mask) mask = data.take (32 * n) := by
  induction n generalizing data mask with
  | zero => rfl
  | succ n ih =>
    have hword : (xorWord (data.take 32) mask).length = 32 := by simp; omega
    have hrest := @ih (data.drop 32) (by simp; omega) (keccak (xorWord (data.take 32) mask))
    rw [sealWords, unsealWords, List.take_left' hword, List.drop_left' hword, xorWord_xorWord,
      hrest, show 32 * (n + 1) = 32 + 32 * n by omega, List.take_add]

/-- The sealed words appended after one sealed word: a drop of `32 + x` bytes skips that word. -/
theorem drop_sealWords_succ {m x : Nat} {data : List UInt8} (h : 32 ≤ data.length) (mask : H256) :
    (sealWords keccak (m + 1) data mask).drop (32 + x) =
      (sealWords keccak m (data.drop 32) (keccak (xorWord (data.take 32) mask))).drop x := by
  have hword : (xorWord (data.take 32) mask).length = 32 := by simp; omega
  rw [sealWords, ← List.drop_drop, List.drop_left' hword]

/-- Unsealing `i` words of a prefix of the sealed words reads the first `i` raw words. -/
theorem unsealWords_take_sealWords {i n j : Nat} {data : List UInt8} (h : 32 * n ≤ data.length)
    (hi : i ≤ n) (hj : i ≤ j) (mask : H256) :
    unsealWords keccak i ((sealWords keccak n data mask).take (32 * j)) mask =
      data.take (32 * i) := by
  induction i generalizing n j data mask with
  | zero => rfl
  | succ i ih =>
    obtain ⟨m, rfl⟩ : ∃ m, n = m + 1 := ⟨n - 1, by omega⟩
    obtain ⟨l, rfl⟩ : ∃ l, j = l + 1 := ⟨j - 1, by omega⟩
    have hword : (xorWord (data.take 32) mask).length = 32 := by simp; omega
    have hrest := @ih m l (data.drop 32) (by simp; omega) (by omega) (by omega)
      (keccak (xorWord (data.take 32) mask))
    -- the prefix keeps the first sealed word whole
    have htake : (sealWords keccak (m + 1) data mask).take (32 * (l + 1)) =
        xorWord (data.take 32) mask ++
          (sealWords keccak m (data.drop 32) (keccak (xorWord (data.take 32) mask))).take (32 * l) := by
      rw [sealWords, List.take_append, List.take_of_length_le (by omega), hword]
      congr 2
    rw [htake, unsealWords, List.take_left' hword, List.drop_left' hword, xorWord_xorWord, hrest,
      show 32 * (i + 1) = 32 + 32 * i by omega, List.take_add]

/-- The sealed words from word `k + 1` on unseal from the mask that sealed word `k` makes. -/
theorem unsealWords_drop_sealWords {k n : Nat} {data : List UInt8} (h : 32 * n ≤ data.length)
    (mask : H256) :
    unsealWords keccak (n - (k + 1)) ((sealWords keccak n data mask).drop (32 * (k + 1)))
        (keccak (((sealWords keccak n data mask).drop (32 * k)).take 32)) =
      (data.drop (32 * (k + 1))).take (32 * (n - (k + 1))) := by
  induction k generalizing n data mask with
  | zero =>
    cases n with
    | zero => rfl
    | succ m =>
      -- word `0` is the first sealed word, its keccak the mask of word `1`
      have hword : (xorWord (data.take 32) mask).length = 32 := by simp; omega
      rw [Nat.mul_zero, List.drop_zero, sealWords, List.take_left' hword, Nat.zero_add,
        Nat.mul_one, List.drop_left' hword, Nat.add_sub_cancel,
        unsealWords_sealWords keccak (by simp; omega)]
  | succ k ih =>
    cases n with
    | zero => simp [sealWords, unsealWords]
    | succ m =>
      have hrest := @ih m (data.drop 32) (by simp; omega) (keccak (xorWord (data.take 32) mask))
      -- both drops skip the first sealed word, and the raw data its first word
      have hskip : (sealWords keccak (m + 1) data mask).drop (32 * (k + 1 + 1)) =
          (sealWords keccak m (data.drop 32) (keccak (xorWord (data.take 32) mask))).drop
            (32 * (k + 1)) := by
        rw [show 32 * (k + 1 + 1) = 32 + 32 * (k + 1) by omega]
        exact drop_sealWords_succ keccak (by omega) mask
      have hseed : (sealWords keccak (m + 1) data mask).drop (32 * (k + 1)) =
          (sealWords keccak m (data.drop 32) (keccak (xorWord (data.take 32) mask))).drop
            (32 * k) := by
        rw [show 32 * (k + 1) = 32 + 32 * k by omega]
        exact drop_sealWords_succ keccak (by omega) mask
      have hraw : data.drop (32 * (k + 1 + 1)) = (data.drop 32).drop (32 * (k + 1)) := by
        rw [List.drop_drop]
        congr 1
        omega
      rw [hskip, hseed, hraw, show m + 1 - (k + 1 + 1) = m - (k + 1) by omega]
      exact hrest

theorem ionianUnseal_ionianSeal {data sealed : List UInt8} {minerId contextDigest : H256}
    {startSector : Nat} (h : ionianSeal keccak data minerId contextDigest startSector = some sealed) :
    ionianUnseal keccak sealed minerId contextDigest startSector = some data := by
  simp only [ionianSeal, sealWithMaskSeed, sealWithMask] at h
  split_ifs at h with hmod
  cases h
  have hwords : 32 * (data.length / 32) = data.length := by omega
  have hlen := length_sealWords keccak hwords.le
    (keccak (computeFirstMaskSeed minerId contextDigest startSector))
  simp only [ionianUnseal, unsealWithMaskSeed, unsealWithMask, hlen, hwords, hmod,
    if_true, unsealWords_sealWords keccak hwords.le, List.take_length]

/-- `unseal_with_mask` undoes `seal_with_mask`; the sealed words from word `k ≥ 1` on unseal with
the seed `sealed[k - 1]`, and a prefix of whole sealed words unseals to the prefix of the data. -/
theorem unsealWithMask_sealWithMask {data : List UInt8} (hdata : data.length % 32 = 0)
    (firstMask : H256) :
    ∃ sealed, sealWithMask keccak data firstMask = some sealed ∧
      unsealWithMask keccak sealed firstMask = some data ∧
      (∀ k, 1 ≤ k → unsealWithMaskSeed keccak (sealed.drop (32 * k))
        ((sealed.drop (32 * (k - 1))).take 32) = some (data.drop (32 * k))) ∧
      ∀ j, unsealWithMask keccak (sealed.take (32 * j)) firstMask = some (data.take (32 * j)) := by
  have hwords : 32 * (data.length / 32) = data.length := by omega
  have hlen := length_sealWords keccak hwords.le firstMask
  refine ⟨_, by rw [sealWithMask, if_pos hdata], ?_, fun k hk => ?_, fun j => ?_⟩
  · rw [unsealWithMask, if_pos (by omega), hlen, Nat.mul_div_cancel_left _ (by decide),
      unsealWords_sealWords keccak hwords.le, List.take_of_length_le hwords.ge]
  · -- the suffix from word `k` holds `n - k` whole words
    obtain ⟨k, rfl⟩ : ∃ k', k = k' + 1 := ⟨k - 1, by omega⟩
    have hsuffix : (List.drop (32 * (k + 1))
        (sealWords keccak (data.length / 32) data firstMask)).length =
          32 * (data.length / 32 - (k + 1)) := by
      rw [List.length_drop, hlen]
      omega
    rw [unsealWithMaskSeed, unsealWithMask, if_pos (by omega), hsuffix,
      Nat.mul_div_cancel_left _ (by decide), Nat.add_sub_cancel,
      unsealWords_drop_sealWords keccak hwords.le, List.take_of_length_le (by simp; omega)]
  · -- a prefix of `j` words holds `min j n` of them
    have hprefix : (List.take (32 * j) (sealWords keccak (data.length / 32) data firstMask)).length =
        32 * min j (data.length / 32) := by
      rw [List.length_take, hlen]
      omega
    rw [unsealWithMask, if_pos (by omega), hprefix, Nat.mul_div_cancel_left _ (by decide),
      unsealWords_take_sealWords keccak hwords.le (Nat.min_le_right _ _) (Nat.min_le_left _ _)]
    by_cases hj : j ≤ data.length / 32
    · rw [Nat.min_eq_left hj]
    · rw [Nat.min_eq_right (by omega), hwords, List.take_length,
        List.take_of_length_le (by omega)]

theorem unsealWithMask_sealWithMask_example :
    (List.replicate 64 (7 : UInt8)).length % 32 = 0 ∧
      ∃ sealed, sealWithMask (fun _ => H256.zero) (List.replicate 64 7) H256.zero = some sealed ∧
        unsealWithMask (fun _ => H256.zero) sealed H256.zero = some (List.replicate 64 7) ∧
        (∀ k, 1 ≤ k → unsealWithMaskSeed (fun _ => H256.zero) (sealed.drop (32 * k))
          ((sealed.drop (32 * (k - 1))).take 32) = some ((List.replicate 64 7).drop (32 * k))) ∧
        ∀ j, unsealWithMask (fun _ => H256.zero) (sealed.take (32 * j)) H256.zero =
          some ((List.replicate 64 7).take (32 * j)) :=
  ⟨by decide, unsealWithMask_sealWithMask (fun _ => H256.zero) (by decide) H256.zero⟩

/-- Sealing at least one word with a first mask that is not zero changes the data. -/
theorem ionianSeal_ne_self {data sealed : List UInt8} {minerId contextDigest : H256}
    {startSector : Nat} (hlen : 32 ≤ data.length)
    (hmask : keccak (computeFirstMaskSeed minerId contextDigest startSector) ≠ H256.zero)
    (h : ionianSeal keccak data minerId contextDigest startSector = some sealed) :
    sealed ≠ data := by
  simp only [ionianSeal, sealWithMaskSeed, sealWithMask] at h
  split_ifs at h with hmod
  cases h
  generalize keccak (computeFirstMaskSeed minerId contextDigest startSector) = mask at hmask ⊢
  intro heq
  obtain ⟨n, hn⟩ : ∃ n, data.length / 32 = n + 1 := ⟨data.length / 32 - 1, by omega⟩
  rw [hn, sealWords] at heq
  -- the first 32 bytes of both sides
  have hfirst := congrArg (List.take 32) heq
  have hword : (xorWord (data.take 32) mask).length = 32 := by
    rw [length_xorWord, List.length_take]
    omega
  rw [List.take_left' hword] at hfirst
  exact hmask (eq_zero_of_xorWord_eq_self (by simp; omega) hfirst)

/-- Unsealing at least one word with a first mask that is not zero succeeds and changes the
data. -/
theorem ionianUnseal_ne_self {data : List UInt8} {minerId contextDigest : H256}
    {startSector : Nat} (hmod : data.length % 32 = 0) (hlen : 32 ≤ data.length)
    (hmask : keccak (computeFirstMaskSeed minerId contextDigest startSector) ≠ H256.zero) :
    ∃ unsealed, ionianUnseal keccak data minerId contextDigest startSector = some unsealed ∧
      unsealed ≠ data := by
  refine ⟨unsealWords keccak (data.length / 32) data
    (keccak (computeFirstMaskSeed minerId contextDigest startSector)),
    by rw [ionianUnseal, unsealWithMaskSeed, unsealWithMask, if_pos hmod], ?_⟩
  generalize keccak (computeFirstMaskSeed minerId contextDigest startSector) = mask at hmask ⊢
  intro heq
  obtain ⟨n, hn⟩ : ∃ n, data.length / 32 = n + 1 := ⟨data.length / 32 - 1, by omega⟩
  rw [hn, unsealWords] at heq
  -- the first 32 bytes of both sides
  have hfirst := congrArg (List.take 32) heq
  have hword : (xorWord (data.take 32) mask).length = 32 := by
    rw [length_xorWord, List.length_take]
    omega
  rw [List.take_left' hword] at hfirst
  exact hmask (eq_zero_of_xorWord_eq_self (by simp; omega) hfirst)

end Mask

/-! ## Seal contexts -/

namespace SealInfo

/-- The context a seal reads is the first one past the run of contexts ending at or before it. -/
theorem contextIndex_eq_length (si : SealInfo) (sealIndex : Nat) :
    si.contextIndex sealIndex =
      (si.sealContexts.takeWhile fun c => decide (c.endSealIndex < sealIndex + 1)).length := by
  unfold contextIndex Slice.binarySearchByKey
  dsimp only
  generalize (si.sealContexts.takeWhile fun c => decide (c.endSealIndex < sealIndex + 1)).length = i
  cases si.sealContexts[i]? with
  | none => rfl
  | some c =>
    dsimp only
    split_ifs <;> rfl

/-- A truncation keeps the seals below the end of the contexts before the cut's, which end at or
before the cut. -/
theorem truncatedSealIndex_le (si : SealInfo) {revertedSealIndex first : Nat}
    (h : si.truncatedSealIndex revertedSealIndex = some first) : first ≤ revertedSealIndex := by
  unfold truncatedSealIndex at h
  rw [contextIndex_eq_length] at h
  dsimp only at h
  split_ifs at h with h0
  · cases h
    exact Nat.zero_le _
  · obtain ⟨c, hc, rfl⟩ := Option.map_eq_some_iff.mp h
    -- the context before the cut's lies in the run ending at or before the cut
    have hlt := Nat.sub_one_lt h0
    obtain ⟨hlt', hcget⟩ := List.getElem?_eq_some_iff.mp hc
    have hpre := List.IsPrefix.getElem (List.takeWhile_prefix _) hlt
    have hmem := List.mem_takeWhile_imp (hcget ▸ hpre ▸ List.getElem_mem hlt)
    simp only [decide_eq_true_eq] at hmem
    omega

theorem testBit_truncateBitmap {bitmap index bitmap' : Nat}
    (h : truncateBitmap bitmap index = some bitmap') {j : Nat} (hj : index ≤ j) :
    bitmap'.testBit j = false := by
  unfold truncateBitmap at h
  split_ifs at h
  cases h
  simp [Nat.testBit_mod_two_pow, Nat.not_lt.mpr hj]

/-- A truncation at a seal leaves it and every later seal unsealed. -/
theorem isSealed_truncate {si si' : SealInfo} {revertedSealIndex : Nat}
    (h : si.truncate revertedSealIndex = some si') {j : Nat} (hj : revertedSealIndex ≤ j) :
    si'.isSealed j = false := by
  unfold truncate at h
  obtain ⟨first, hfirst, h⟩ := Option.bind_eq_some_iff.mp h
  obtain ⟨bitmap, hbitmap, rfl⟩ := Option.map_eq_some_iff.mp h
  exact testBit_truncateBitmap hbitmap (le_trans (si.truncatedSealIndex_le hfirst) hj)

/-- A seal reads the first context past the contexts that end at or before it. -/
theorem contextIndex_append (si : SealInfo) {pre post : List SealContextInfo} {sealIndex : Nat}
    (hsi : si.sealContexts = pre ++ post) (hpre : ∀ c ∈ pre, c.endSealIndex ≤ sealIndex)
    (hpost : ∀ c ∈ post, sealIndex < c.endSealIndex) :
    si.contextIndex sealIndex = pre.length := by
  unfold contextIndex
  rw [hsi, Slice.binarySearchByKey_append (fun c hc => Nat.lt_succ_of_le (hpre c hc)) hpost]
  split_ifs <;> rfl

/-- With one context, seals below its end read it and the others read none. -/
theorem getSealContextDigest_single (si : SealInfo) {c : SealContextInfo} (hsi : si.sealContexts = [c])
    (sealIndex : Nat) :
    si.getSealContextDigest sealIndex =
      if sealIndex < c.endSealIndex then some c.contextDigest else none := by
  unfold getSealContextDigest
  by_cases hlt : sealIndex < c.endSealIndex
  · have hidx := si.contextIndex_append (hsi.trans (List.nil_append _).symm) (by simp)
      (by simpa using hlt)
    rw [hidx, hsi, if_pos hlt]
    rfl
  · have hidx := si.contextIndex_append (hsi.trans (List.append_nil _).symm)
      (by simpa using Nat.le_of_not_lt hlt) (by simp)
    rw [hidx, hsi, if_neg hlt]
    rfl

/-- The first context of a fresh load: the local end is the global one less the load's start, cast to
`u16` and then clamped to the load. -/
theorem setSealContext_new {loadIndex globalEnd : Nat} (contextDigest minerId : H256)
    (hle : loadIndex * sealsPerLoad ≤ globalEnd)
    (hpos : 0 < min ((globalEnd - loadIndex * sealsPerLoad) % 2 ^ 16) sealsPerLoad) :
    (new loadIndex).setSealContext contextDigest globalEnd minerId =
      some ⟨0, loadIndex, minerId,
        [⟨contextDigest, min ((globalEnd - loadIndex * sealsPerLoad) % 2 ^ 16) sealsPerLoad⟩]⟩ := by
  simp only [sealsPerLoad_eq, Nat.reducePow] at hle hpos ⊢
  have hne : (globalEnd - loadIndex * 64) % 65536 ≠ 0 := fun h => by
    rw [h] at hpos
    simp at hpos
  simp [setSealContext, new, contextIndex, Slice.binarySearchByKey, hle, hne]

end SealInfo

end Ionian.Storage
