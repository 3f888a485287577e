import Ionian.Storage.EntryBatch
import Ionian.Storage.SealSpec
import Ionian.Storage.BatchOps

/-!
# Storage.EntryBatchOps — `get_mut`, sealing answers and reads of a load

`get_mut` of a non-empty range inside a well formed load is a read of the bytes the load holds,
the caller's update, and a write of the result (`getMut_spec`); the load stays well formed.
Through it, a sealer's answer leaves its sealed bytes in place of the seal's
(`submitSealResult_spec`).

A read from a seal boundary is not unsealed in its first seal: `get_unsealed_data` takes the first
seal chunk to run to the next boundary, `BYTES_PER_SEAL` bytes on, and unseals only the chunks after
it, so a read of at most one seal from a boundary returns the stored bytes as they are
(`getUnsealedData_of_aligned`).
-/

namespace Ionian.Storage

open Extent PartialBatch

/-! ## Reads and `get_mut` -/

namespace EntryBatchData

theorem length_of_get {d : EntryBatchData} {b l : Nat} {xs : List UInt8}
    (h : d.get b l = some (some xs)) : xs.length = l := by
  unfold get at h
  split_ifs at h
  cases d with
  | complete data =>
    rw [Slice.length_of_getRange (Option.some.inj h), Nat.add_sub_cancel_left]
  | incomplete list =>
    obtain ⟨r, -, hr⟩ := Option.bind_eq_some_iff.mp h
    cases r with
    | error _ => cases hr
    | ok i =>
      obtain ⟨p, -, hp⟩ := Option.map_eq_some_iff.mp hr
      rw [Slice.length_of_getRange hp, Nat.add_sub_cancel_left]

theorem length_of_updateSlice {f : List UInt8 → Option (List UInt8)} {xs ys : List UInt8}
    (h : updateSlice f xs = some ys) : ys.length = xs.length := by
  obtain ⟨ys', -, h⟩ := Option.bind_eq_some_iff.mp h
  split_ifs at h with hlen
  cases h
  exact hlen

theorem set_eq_split {list : List PartialBatch} {i : Nat} {p : PartialBatch} (hp : list[i]? = some p)
    (q : PartialBatch) : list.set i q = list.take i ++ q :: list.drop (i + 1) := by
  rw [List.set_eq_take_append_cons_drop, if_pos (List.getElem?_eq_some_iff.mp hp).1]

/-- A batch replaced by one with the same start and length keeps the list sorted, and keeps it
short of the whole load. -/
theorem sortedBatches_set {list : List PartialBatch} (hs : SortedBatches list) {i : Nat}
    {p q : PartialBatch} (hp : list[i]? = some p) (hstart : q.startSector = p.startSector)
    (hlen : q.data.length = p.data.length) :
    SortedBatches (list.set i q) ∧ (Full (list.set i q) → Full list) := by
  have hend : q.endSector = p.endSector := by simp only [endSector, hstart, hlen]
  have hwp := hs.batch p (List.mem_of_getElem? hp)
  have hwq : q.WF := ⟨fun h => hwp.nonempty (List.length_eq_zero_iff.mp (hlen ▸ h ▸ rfl)),
    hlen ▸ hwp.whole, hend ▸ hwp.inside⟩
  have hsplit := SortedBatches.split_at hp
  rw [set_eq_split hp]
  have hs' := hsplit ▸ hs
  obtain ⟨hlo, hhi⟩ := SortedBatches.around hs'
  refine ⟨SortedBatches.insert hs'.left (SortedBatches.right (show SortedBatches ([p] ++ list.drop (i + 1)) from hs'.right)) hwq
    (hstart ▸ hlo) (hend ▸ hhi), ?_⟩
  rintro ⟨r, hr, hr0, hrend⟩
  rcases List.append_eq_singleton_iff.mp hr with ⟨hpre, hqr⟩ | ⟨-, hnil⟩
  · obtain ⟨rfl, hpost⟩ := List.cons_eq_cons.mp hqr
    exact ⟨p, by rw [hsplit, hpre, hpost]; rfl, hstart ▸ hr0, hend ▸ hrend⟩
  · cases hnil

/-- The bytes of a load whose batch `i` has `ys` written inside it, from byte `b`. -/
theorem contents_set {list : List PartialBatch} (hs : SortedBatches list) {i b : Nat}
    {p : PartialBatch} (hp : list[i]? = some p) (hb : p.startSector * bytesPerSector ≤ b)
    {ys : List UInt8} (hin : b - p.startSector * bytesPerSector + ys.length ≤ p.data.length) :
    (incomplete (list.set i { p with data := setRange p.data (b - p.startSector * bytesPerSector) ys })).contents =
      write (incomplete list).contents b ys := by
  have hsplit := SortedBatches.split_at hp
  obtain ⟨hlo, -⟩ := SortedBatches.around (hsplit ▸ hs)
  have hrun := runAt_overwrite (p.startSector * bytesPerSector) hin
  rw [Nat.add_sub_cancel' hb] at hrun
  simp only [contents]
  rw [set_eq_split hp]
  conv_rhs => rw [hsplit]
  simp only [List.map_append, List.map_cons]
  refine denote_update hrun fun r hr => Or.inl ?_
  -- the batches before `p` end before it starts
  obtain ⟨q, hq, rfl⟩ := List.mem_map.mp hr
  have h₁ := hlo q hq
  have h₂ := (hs.batch q (List.mem_of_mem_take hq)).endSector_eq
  have hle : q.endSector * bytesPerSector ≤ b :=
    le_trans (Nat.mul_le_mul_right _ (Nat.le_of_lt h₁)) hb
  simp only [run]
  omega

/-- **`get_mut`** of a non-empty range inside a well formed load: `some none` when a byte is
missing; otherwise the caller's update of the bytes, written back into a well formed load. -/
theorem getMut_spec {d : EntryBatchData} (hwf : d.WF) {b l : Nat} (hl : 0 < l)
    (hbl : b + l ≤ bytesPerLoad) (f : List UInt8 → Option (List UInt8)) :
    ∃ upd : List UInt8 → EntryBatchData,
      d.getMut b l f = (read d.contents b l).elim (some none)
        (fun xs => (updateSlice f xs).map fun ys => some (upd ys)) ∧
      ∀ xs, read d.contents b l = some xs → ∀ ys, ys.length = l →
        (upd ys).WF ∧ (upd ys).contents = write d.contents b ys := by
  have hget := get_eq_read hwf hl hbl
  cases d with
  | complete data =>
    have hlen : data.length = bytesPerLoad := hwf
    simp only [get, if_pos hbl] at hget
    refine ⟨fun ys => .complete (setRange data b ys), ?_, fun xs _ ys hys => ⟨?_, ?_⟩⟩
    · simp only [getMut, if_pos hbl, ← Option.some.inj hget]
      cases Slice.getRange data b (b + l) <;> rfl
    · show (setRange data b ys).length = bytesPerLoad
      simp only [setRange, List.length_append, List.length_take, List.length_drop]
      omega
    · -- the load is one run from byte zero
      have hrun := runAt_overwrite 0 (show b + ys.length ≤ data.length by omega)
      simp only [Nat.zero_add] at hrun
      exact hrun
  | incomplete list =>
    have hs := hwf.1
    by_cases hheld : ∃ i : Nat, ∃ p : PartialBatch, list[i]? = some p ∧ p.Holds (b / bytesPerSector)
    · obtain ⟨i, p, hp, hh⟩ := hheld
      have hfind := find_of_holds hs hp hh
      simp only [get, if_pos hbl, hfind, Option.bind_some, hp, Option.map_some] at hget
      refine ⟨fun ys => .incomplete (list.set i
        { p with data := setRange p.data (b - p.startSector * bytesPerSector) ys }), ?_, ?_⟩
      · simp only [getMut, if_pos hbl, hfind, Option.bind_some, hp, ← Option.some.inj hget]
        cases Slice.getRange p.data _ _ <;> rfl
      · intro xs hxs ys hys
        rw [← Option.some.inj hget] at hxs
        have hin : b - p.startSector * bytesPerSector + ys.length ≤ p.data.length := by
          unfold Slice.getRange at hxs
          split_ifs at hxs with hr
          omega
        have hb : p.startSector * bytesPerSector ≤ b := by
          have := hh.1
          simp only [bytesPerSector_eq] at this ⊢
          omega
        have hlen' : (setRange p.data (b - p.startSector * bytesPerSector) ys).length =
            p.data.length := by
          simp only [setRange, List.length_append, List.length_take, List.length_drop]
          omega
        obtain ⟨hs', hfull⟩ := sortedBatches_set hs hp
          (q := { p with data := setRange p.data (b - p.startSector * bytesPerSector) ys }) rfl hlen'
        exact ⟨⟨hs', fun h => hwf.2 (hfull h)⟩, contents_set hs hp hb hin⟩
    · -- no batch holds the first byte: it is missing
      have hfree : ∀ p ∈ list, ¬ p.Holds (b / bytesPerSector) := fun p hp hh => by
        obtain ⟨i, hi, rfl⟩ := List.getElem_of_mem hp
        exact hheld ⟨i, _, List.getElem?_eq_getElem hi, hh⟩
      obtain ⟨pre, post, -, hfind, -, -⟩ := find_of_free hs hfree
      simp only [get, if_pos hbl, hfind, Option.bind_some] at hget
      have hnone := (Option.some.inj hget).symm
      refine ⟨fun _ => .incomplete list, ?_, fun xs hxs => by rw [hnone] at hxs; cases hxs⟩
      simp only [getMut, if_pos hbl, hfind, Option.bind_some, hnone]
      rfl

/-- A `get_mut` whose update always fails never hands back a load. -/
theorem getMut_ne_some_some {d : EntryBatchData} (hwf : d.WF) {b l : Nat} (hl : 0 < l)
    (hbl : b + l ≤ bytesPerLoad) {f : List UInt8 → Option (List UInt8)} (hf : ∀ xs, f xs = none)
    (d' : EntryBatchData) : d.getMut b l f ≠ some (some d') := by
  obtain ⟨upd, hmut, -⟩ := getMut_spec hwf hl hbl f
  rw [hmut]
  cases read d.contents b l with
  | none => simp
  | some xs => simp [updateSlice, hf]

end EntryBatchData

/-- A load of one batch short of the whole load. -/
theorem EntryBatchData.wf_singleton {p : PartialBatch} (hp : p.WF)
    (hnf : p.startSector ≠ 0 ∨ p.endSector ≠ sectorsPerLoad) : (EntryBatchData.incomplete [p]).WF := by
  refine ⟨⟨fun q hq => ?_, List.pairwise_singleton _ _⟩, ?_⟩
  · rw [List.mem_singleton.mp hq]
    exact hp
  · rintro ⟨q, hq, h0, hend⟩
    cases hq
    omega

namespace EntryBatch

open EntryBatchData

variable (keccak : List UInt8 → H256)

/-! ## Reads from a seal boundary -/

/-- A read of at most one seal from a seal boundary returns the stored bytes: its first seal chunk
runs a whole seal on, and nothing after it is read. -/
theorem getUnsealedData_of_aligned (b : EntryBatch) {startSector lengthSector : Nat}
    (halign : startSector % sectorsPerSeal = 0) (hlen : lengthSector ≤ sectorsPerSeal) :
    b.getUnsealedData keccak startSector lengthSector =
      b.data.get (startSector * bytesPerSector) (lengthSector * bytesPerSector) := by
  have hfirst : bytesPerSeal - startSector * bytesPerSector % bytesPerSeal = bytesPerSeal := by
    simp only [sectorsPerSeal_eq, bytesPerSeal_eq, bytesPerSector_eq] at halign ⊢
    omega
  unfold getUnsealedData
  simp only [if_pos halign, Bool.false_eq_true, if_false, hfirst]
  cases hget : b.data.get (startSector * bytesPerSector) (lengthSector * bytesPerSector) with
  | none => rfl
  | some r =>
    cases r with
    | none => rfl
    | some xs =>
      have hxs := length_of_get hget
      have hle : ¬ xs.length > bytesPerSeal := by
        simp only [sectorsPerSeal_eq, bytesPerSeal_eq, bytesPerSector_eq] at hlen hxs ⊢
        omega
      simp only [Option.map_some, Option.bind_some, if_neg hle]

/-! ## `truncate` -/

theorem unsealTruncated_of_not_sealed (b : EntryBatch) {truncatedSector unsealIndex : Nat}
    (h : b.sealInfo.isSealed unsealIndex = false) (count : Nat) :
    b.unsealTruncated keccak truncatedSector unsealIndex (count + 1) =
      b.unsealTruncated keccak truncatedSector (unsealIndex + 1) count := by
  simp [unsealTruncated, h]

/-- A sealed seal inside the cut whose unsealing fails makes the truncation panic. -/
theorem unsealTruncated_of_unsealAt_none (b : EntryBatch) (hwf : b.data.WF)
    {truncatedSector unsealIndex : Nat} (h : b.sealInfo.isSealed unsealIndex = true)
    (hfail : ∀ xs, b.sealInfo.unsealAt keccak xs unsealIndex = none)
    (hl : 0 < min (truncatedSector * bytesPerSector - unsealIndex * bytesPerSeal) bytesPerSeal)
    (hin : unsealIndex * bytesPerSeal +
      min (truncatedSector * bytesPerSector - unsealIndex * bytesPerSeal) bytesPerSeal ≤ bytesPerLoad)
    (count : Nat) : b.unsealTruncated keccak truncatedSector unsealIndex (count + 1) = none := by
  have hne := getMut_ne_some_some hwf hl hin hfail
  simp only [unsealTruncated, h, Bool.not_true, Bool.false_eq_true, if_false]
  cases hmut : b.data.getMut (unsealIndex * bytesPerSeal)
      (min (truncatedSector * bytesPerSector - unsealIndex * bytesPerSeal) bytesPerSeal)
      (b.sealInfo.unsealAt keccak · unsealIndex) with
  | none => rfl
  | some r =>
    cases r with
    | none => rfl
    | some d => exact absurd hmut (hne d)

/-- The loop of `truncate_seal` over seals inside the cut keeps the load well formed and its present
bytes present, and collects every sealed seal it passes. -/
theorem unsealTruncated_spec (b : EntryBatch) (hwf : b.data.WF) {truncatedSector : Nat}
    (ht : truncatedSector ≤ sectorsPerLoad) {unsealIndex count : Nat}
    (hin : ∀ k, unsealIndex ≤ k → k < unsealIndex + count → k * sectorsPerSeal < truncatedSector)
    {d : EntryBatchData} {toReseal : List Nat}
    (h : b.unsealTruncated keccak truncatedSector unsealIndex count = some (d, toReseal)) :
    d.WF ∧ (∀ x, (d.contents x).isSome = (b.data.contents x).isSome) ∧
      ∀ k, unsealIndex ≤ k → k < unsealIndex + count → b.sealInfo.isSealed k = true → k ∈ toReseal := by
  -- induction on the seals left, from any load with the same seal info
  induction count generalizing b unsealIndex d toReseal with
  | zero =>
    simp only [unsealTruncated, Option.some.injEq, Prod.mk.injEq] at h
    obtain ⟨rfl, rfl⟩ := h
    exact ⟨hwf, fun _ => rfl, fun k h₁ h₂ => absurd h₂ (by omega)⟩
  | succ count ih =>
    have hin' : ∀ k, unsealIndex + 1 ≤ k → k < unsealIndex + 1 + count →
        k * sectorsPerSeal < truncatedSector := fun k h₁ h₂ => hin k (by omega) (by omega)
    cases hs : b.sealInfo.isSealed unsealIndex with
    | false =>
      rw [unsealTruncated_of_not_sealed keccak b hs] at h
      obtain ⟨hwf', hc', hmem⟩ := ih b hwf hin' h
      refine ⟨hwf', hc', fun k h₁ h₂ hk => ?_⟩
      rcases Nat.eq_or_lt_of_le h₁ with rfl | h₁
      · rw [hs] at hk
        cases hk
      · exact hmem k h₁ (by omega) hk
    | true =>
      -- the seal lies below the cut: `get_mut` of its bytes up to the cut
      have hk := hin unsealIndex le_rfl (by omega)
      have hl : 0 < min (truncatedSector * bytesPerSector - unsealIndex * bytesPerSeal) bytesPerSeal := by
        simp only [sectorsPerSeal_eq, bytesPerSector_eq, bytesPerSeal_eq] at hk ⊢
        omega
      have hbl : unsealIndex * bytesPerSeal +
          min (truncatedSector * bytesPerSector - unsealIndex * bytesPerSeal) bytesPerSeal ≤
            bytesPerLoad := by
        simp only [sectorsPerSeal_eq, sectorsPerLoad_eq, bytesPerSector_eq, bytesPerSeal_eq,
          bytesPerLoad_eq] at hk ht ⊢
        omega
      obtain ⟨upd, hmut, hupd⟩ := getMut_spec hwf hl hbl (b.sealInfo.unsealAt keccak · unsealIndex)
      simp only [unsealTruncated, hs, Bool.not_true, Bool.false_eq_true, if_false] at h
      rw [hmut] at h
      cases hread : read b.data.contents (unsealIndex * bytesPerSeal)
          (min (truncatedSector * bytesPerSector - unsealIndex * bytesPerSeal) bytesPerSeal) with
      | none =>
        rw [hread] at h
        cases h
      | some xs =>
        rw [hread] at h
        cases hys : updateSlice (b.sealInfo.unsealAt keccak · unsealIndex) xs with
        | none =>
          simp [hys] at h
        | some ys =>
          simp only [Option.elim, hys, Option.map_some, Option.bind_some] at h
          obtain ⟨⟨d', rest⟩, hrec, heq⟩ := Option.map_eq_some_iff.mp h
          simp only [Prod.mk.injEq] at heq
          obtain ⟨rfl, rfl⟩ := heq
          have hylen := (length_of_updateSlice hys).trans (read_eq_some_iff.mp hread).1
          obtain ⟨hwf₁, hc₁⟩ := hupd xs hread ys hylen
          obtain ⟨hwf', hc', hmem⟩ := ih { b with data := upd ys } hwf₁ hin' hrec
          refine ⟨hwf', fun x => ?_, fun k h₁ h₂ hk' => ?_⟩
          · rw [hc' x]
            show ((upd ys).contents x).isSome = _
            rw [hc₁]
            exact isSome_write_of_read hread hylen x
          · rcases Nat.eq_or_lt_of_le h₁ with rfl | h₁
            · exact List.mem_cons_self
            · exact List.mem_cons_of_mem _ (hmem k h₁ (by omega) hk')

/-- **`truncate`** of a load at a sector strictly inside it: the load stays well formed and keeps
exactly its bytes below the cut; no seal from the cut's on is sealed; and a cut inside a sealed seal
lists that seal among the ones to seal again. -/
theorem truncate_spec (b : EntryBatch) (hwf : b.data.WF) {truncatedSector : Nat} {b' : EntryBatch}
    {toReseal : List Nat} (h : b.truncate keccak truncatedSector = some (b', toReseal)) :
    b'.data.WF ∧
      (∀ x, (b'.data.contents x).isSome =
        (cut b.data.contents (truncatedSector * bytesPerSector) x).isSome) ∧
      (∀ j, truncatedSector / sectorsPerSeal ≤ j → b'.sealInfo.isSealed j = false) ∧
      (truncatedSector % sectorsPerSeal ≠ 0 →
        b.sealInfo.isSealed (truncatedSector / sectorsPerSeal) = true →
          truncatedSector / sectorsPerSeal ∈ toReseal) := by
  unfold truncate at h
  split_ifs at h with hrange
  obtain ⟨d, hd, h⟩ := Option.bind_eq_some_iff.mp h
  have hlt : truncatedSector * bytesPerSector < bytesPerLoad := by
    simp only [sectorsPerLoad_eq, bytesPerSector_eq, bytesPerLoad_eq] at hrange ⊢
    omega
  obtain ⟨d', htr, hwfd, hcd⟩ := EntryBatchData.truncate_spec hwf (Nat.mul_mod_left _ _)
    (Nat.mul_pos hrange.1 (by decide)) hlt
  rw [htr, Option.some.injEq] at hd
  subst hd
  -- the seal indices of the cut fit `u16`
  have hseal : truncatedSector / sectorsPerSeal < 2 ^ 16 := by
    simp only [sectorsPerLoad_eq, sectorsPerSeal_eq] at hrange ⊢
    omega
  have hrev : asU16 (truncatedSector / sectorsPerSeal) = truncatedSector / sectorsPerSeal :=
    Nat.mod_eq_of_lt hseal
  have hlast : asU16 ((truncatedSector - 1) / sectorsPerSeal) = (truncatedSector - 1) / sectorsPerSeal :=
    Nat.mod_eq_of_lt (lt_of_le_of_lt (Nat.div_le_div_right (Nat.sub_le _ 1)) hseal)
  simp only [truncateSeal, hrev, hlast] at h
  obtain ⟨first, hfirst, h⟩ := Option.bind_eq_some_iff.mp h
  obtain ⟨⟨data, rest⟩, hun, h⟩ := Option.bind_eq_some_iff.mp h
  obtain ⟨si, hsi, heq⟩ := Option.map_eq_some_iff.mp h
  simp only [Prod.mk.injEq] at heq
  obtain ⟨rfl, rfl⟩ := heq
  have hfle := b.sealInfo.truncatedSealIndex_le hfirst
  obtain ⟨hwf', hc', hmem⟩ := unsealTruncated_spec keccak { b with data := d' } hwfd
    (le_of_lt hrange.2) (fun k _ h₂ => by
      simp only [sectorsPerSeal_eq] at hfle h₂ ⊢
      omega) hun
  refine ⟨hwf', fun x => by rw [hc' x, hcd], fun j hj => SealInfo.isSealed_truncate hsi hj,
    fun hcut hs => hmem _ hfle ?_ hs⟩
  simp only [sectorsPerSeal_eq] at hcut hfle ⊢
  omega

/-! ## `submit_seal_result` -/

/-- A successful answer was for an unsealed seal of this load; it records its context, marks the
seal sealed, and leaves the sealed bytes in place of the seal's. -/
theorem submitSealResult_spec {b b' : EntryBatch} {answer : SealAnswer} (hwf : b.data.WF)
    (h : b.submitSealResult answer = some b') :
    b.sealInfo.isSealed (answer.sealIndex % sealsPerLoad) = false ∧
      answer.sealIndex / sealsPerLoad = b.sealInfo.loadIndex ∧
      ∃ si, b.sealInfo.setSealContext answer.sealContext answer.contextEndSeal answer.minerId = some si ∧
        b'.sealInfo = si.markSealed (answer.sealIndex % sealsPerLoad) ∧ b'.data.WF ∧
        b'.data.contents =
          write b.data.contents (answer.sealIndex % sealsPerLoad * bytesPerSeal) answer.sealedData.toList := by
  simp only [submitSealResult] at h
  split_ifs at h with hsealed hload
  obtain ⟨si, hsi, h⟩ := Option.bind_eq_some_iff.mp h
  have hj : answer.sealIndex % sealsPerLoad < 64 := Nat.mod_lt _ (by decide)
  obtain ⟨upd, hmut, hupd⟩ := getMut_spec hwf
    (b := answer.sealIndex % sealsPerLoad * bytesPerSeal) (l := bytesPerSeal) (by decide)
    (by simp only [bytesPerSeal_eq, bytesPerLoad_eq]; omega) fun _ => some answer.sealedData.toList
  rw [hmut] at h
  cases hread : read b.data.contents (answer.sealIndex % sealsPerLoad * bytesPerSeal) bytesPerSeal with
  | none =>
    rw [hread] at h
    cases h
  | some xs =>
    have hxs : xs.length = bytesPerSeal := (read_eq_some_iff.mp hread).1
    have hupdate : updateSlice (fun _ => some answer.sealedData.toList) xs =
        some answer.sealedData.toList := by
      simp only [updateSlice, Option.bind_some, Vector.length_toList, hxs, if_true]
    simp only [hread, Option.elim, hupdate, Option.map_some, Option.bind_some, Option.map_some,
      Option.some.injEq] at h
    subst h
    obtain ⟨hwf', hcont⟩ := hupd xs hread answer.sealedData.toList Vector.length_toList
    exact ⟨by simpa using hsealed, by simpa using hload, si, hsi, rfl, hwf', hcont⟩

end EntryBatch

end Ionian.Storage
