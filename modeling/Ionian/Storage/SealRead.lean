import Ionian.Storage.EntryBatchOps

/-!
# Storage.SealRead — what reads and truncations see of a sealed seal

After an answer for seal `j`, the load stores the sealed bytes of seal `j`.  A read of that seal
from its boundary, `get_unsealed_data(j * SECTORS_PER_SEAL, SECTORS_PER_SEAL)`, returns them as
they are (`getUnsealedData_of_aligned`): its first seal chunk is a whole seal, which is never
unsealed.  Sealing with a first mask that is not zero changes the bytes, so the read returns bytes
that were never inserted (`submitSealResult_aligned_read_sealed`).

An answer whose context ends `65536` seals or more past its load's start has its local end wrapped
by the `u16` cast before the clamp: seal `5` of load `0` with end `65537` records a context ending
at `1`, which seal `5` does not read.  The seal is marked sealed with no context, and a truncation
that unseals it panics (`submitSealResult_wrapped_context_end`).
-/

namespace Ionian.Storage

open Extent EntryBatchData

namespace EntryBatch

variable (keccak : List UInt8 → H256)

/-! ## Reading a sealed seal from its boundary -/

theorem submitSealResult_aligned_read_sealed {b b' : EntryBatch} {answer : SealAnswer}
    {raw : List UInt8} (hwf : b.data.WF)
    (hraw : b.getNonSealedData (answer.sealIndex % sealsPerLoad) = some (some raw))
    (hseal : ionianSeal keccak raw answer.minerId answer.sealContext
      (b.sealInfo.globalSealSector (answer.sealIndex % sealsPerLoad)) = some answer.sealedData.toList)
    (hmask : keccak (computeFirstMaskSeed answer.minerId answer.sealContext
      (b.sealInfo.globalSealSector (answer.sealIndex % sealsPerLoad))) ≠ H256.zero)
    (hsub : b.submitSealResult answer = some b') :
    b'.getUnsealedData keccak (answer.sealIndex % sealsPerLoad * sectorsPerSeal) sectorsPerSeal =
      some (some answer.sealedData.toList) ∧ answer.sealedData.toList ≠ raw := by
  obtain ⟨hns, -, -, -, -, hwf', hcont⟩ := submitSealResult_spec hwf hsub
  have hj : answer.sealIndex % sealsPerLoad < 64 := Nat.mod_lt _ (by decide)
  -- the raw bytes are the seal's stored bytes, a whole seal of them
  have hget : b.data.get (answer.sealIndex % sealsPerLoad * bytesPerSeal) bytesPerSeal =
      some (some raw) := by
    simpa only [getNonSealedData, hns, Bool.not_false, ↓reduceIte] using hraw
  have hlen := length_of_get hget
  refine ⟨?_, ionianSeal_ne_self keccak (by rw [hlen]; decide) hmask hseal⟩
  have hbytes : answer.sealIndex % sealsPerLoad * sectorsPerSeal * bytesPerSector =
      answer.sealIndex % sealsPerLoad * bytesPerSeal := by
    rw [Nat.mul_assoc]
    rfl
  have hback := read_write_self b.data.contents (answer.sealIndex % sealsPerLoad * bytesPerSeal)
    answer.sealedData.toList
  rw [Vector.length_toList] at hback
  have hin : answer.sealIndex % sealsPerLoad * bytesPerSeal + bytesPerSeal ≤ bytesPerLoad := by
    simp only [bytesPerSeal_eq, bytesPerLoad_eq]
    omega
  rw [getUnsealedData_of_aligned keccak b' (Nat.mul_mod_left _ _) le_rfl, hbytes,
    show sectorsPerSeal * bytesPerSector = bytesPerSeal from rfl, get_eq_read hwf' (by decide) hin,
    hcont, hback]

set_option maxRecDepth 100000 in
theorem submitSealResult_aligned_read_sealed_example :
    ∃ b', (⟨SealInfo.new 0, .incomplete [⟨0, List.replicate 4096 0⟩]⟩ : EntryBatch).submitSealResult
        ⟨0, 0, Vector.replicate 4096 1, H256.zero, H256.zero, 1⟩ = some b' ∧
      b'.getUnsealedData (fun _ => Vector.replicate 32 1) 0 16 =
        some (some (Vector.replicate 4096 1).toList) ∧
      (Vector.replicate 4096 (1 : UInt8)).toList ≠ List.replicate 4096 0 := by
  obtain ⟨b', hb'⟩ := Option.isSome_iff_exists.mp (by decide +kernel :
    ((⟨SealInfo.new 0, .incomplete [⟨0, List.replicate 4096 0⟩]⟩ : EntryBatch).submitSealResult
      ⟨0, 0, Vector.replicate 4096 1, H256.zero, H256.zero, 1⟩).isSome = true)
  exact ⟨b', hb', submitSealResult_aligned_read_sealed (fun _ => Vector.replicate 32 1)
    (wf_singleton ⟨by decide +kernel, by decide +kernel, by decide +kernel⟩ (by decide))
    (by decide +kernel) (by decide +kernel)
    (by decide) hb'⟩

/-! ## A context end past the `u16` range -/

theorem submitSealResult_wrapped_context_end {b b' : EntryBatch} {answer : SealAnswer}
    (hb : b.sealInfo = SealInfo.new 0) (hwf : b.data.WF) (hidx : answer.sealIndex = 5)
    (hend : answer.contextEndSeal = 65537) (hsub : b.submitSealResult answer = some b') :
    b'.sealInfo.isSealed 5 = true ∧ b'.sealInfo.sealContexts = [⟨answer.sealContext, 1⟩] ∧
      b'.sealInfo.getSealContextDigest 5 = none ∧ b'.truncate keccak 81 = none := by
  obtain ⟨-, -, si, hsi, hsi', hwf', -⟩ := submitSealResult_spec hwf hsub
  -- the local end: `(65537 - 0) as u16 = 1`, then `min(1, 64) = 1`
  rw [hb, hend, SealInfo.setSealContext_new _ _ (by decide) (by decide)] at hsi
  cases hsi
  rw [hidx] at hsi'
  have hctx : b'.sealInfo.sealContexts = [⟨answer.sealContext, 1⟩] := by rw [hsi']; rfl
  have hdigest : b'.sealInfo.getSealContextDigest 5 = none := by
    rw [SealInfo.getSealContextDigest_single _ hctx]
    rfl
  have hsealed : ∀ k, b'.sealInfo.isSealed k = decide (k = 5) := fun k => by
    rw [hsi']
    simp only [SealInfo.isSealed, SealInfo.markSealed, Nat.zero_or, Nat.testBit_two_pow]
    exact decide_eq_decide.mpr eq_comm
  refine ⟨hsealed 5, hctx, hdigest, ?_⟩
  -- `truncate(81)` cuts the data inside seal `5`, then unseals seals `1..=5`
  obtain ⟨d, htr, hwfd, -⟩ := EntryBatchData.truncate_spec hwf' (t := 81 * bytesPerSector) (by decide) (by decide)
    (by decide)
  have hfirst : b'.sealInfo.truncatedSealIndex 5 = some 1 := by
    have hidx : b'.sealInfo.contextIndex 5 = 1 :=
      b'.sealInfo.contextIndex_append (hctx.trans (List.append_nil _).symm) (by simp) (by simp)
    simp only [SealInfo.truncatedSealIndex, hidx, hctx]
    rfl
  have hfail : ∀ xs, b'.sealInfo.unsealAt keccak xs 5 = none := fun xs => by
    simp [SealInfo.unsealAt, hsealed, hdigest]
  let b'' : EntryBatch := { b' with data := d }
  have hwf'' : b''.data.WF := hwfd
  have hrun : b''.unsealTruncated keccak 81 1 5 = none := by
    rw [unsealTruncated_of_not_sealed keccak b'' (hsealed 1),
      unsealTruncated_of_not_sealed keccak b'' (hsealed 2),
      unsealTruncated_of_not_sealed keccak b'' (hsealed 3),
      unsealTruncated_of_not_sealed keccak b'' (hsealed 4)]
    exact unsealTruncated_of_unsealAt_none keccak b'' hwf'' (hsealed 5) hfail (by decide) (by decide) 0
  simp only [truncate, show 0 < 81 ∧ 81 < sectorsPerLoad from by decide, htr,
    Option.bind_some, truncateSeal]
  rw [show asU16 (81 / sectorsPerSeal) = 5 from rfl, hfirst, Option.bind_some,
    show asU16 ((81 - 1) / sectorsPerSeal) + 1 - 1 = 5 from rfl]
  rw [hrun]
  rfl

set_option maxRecDepth 100000 in
theorem submitSealResult_wrapped_context_end_example :
    ∃ b', (⟨SealInfo.new 0, .incomplete [⟨80, List.replicate 4096 0⟩]⟩ : EntryBatch).submitSealResult
        ⟨5, 0, Vector.replicate 4096 1, H256.zero, H256.zero, 65537⟩ = some b' ∧
      b'.sealInfo.getSealContextDigest 5 = none ∧ b'.truncate (fun _ => H256.zero) 81 = none := by
  obtain ⟨b', hb'⟩ := Option.isSome_iff_exists.mp (by decide +kernel :
    ((⟨SealInfo.new 0, .incomplete [⟨80, List.replicate 4096 0⟩]⟩ : EntryBatch).submitSealResult
      ⟨5, 0, Vector.replicate 4096 1, H256.zero, H256.zero, 65537⟩).isSome = true)
  obtain ⟨-, -, hdigest, htr⟩ := submitSealResult_wrapped_context_end (fun _ => H256.zero) rfl
    (wf_singleton ⟨by decide +kernel, by decide +kernel, by decide +kernel⟩ (by decide)) rfl rfl hb'
  exact ⟨b', hb', hdigest, htr⟩

end EntryBatch

end Ionian.Storage
