import Ionian.Storage.Flow
import Ionian.Storage.EntryBatchOps

/-!
# Storage.FlowSeal — the listed seals after a truncation

A listed seal should be sealable: its load is stored, the seal is not sealed, and all of its bytes
are present (`SealReady`), so that `pull_seal_chunk` finds it.  A truncation of the flow at an
entry inside a sealed seal breaks this: `EntryBatch::truncate` unseals the seal's bytes below the
cut and returns the seal among those to seal again (`EntryBatch.truncate_spec`), and
`FlowStore::truncate` lists it again, although its bytes from the cut on are gone
(`truncate_lists_partial_seal`).  The next `pull_seal_chunk` over that load panics with
"Lost seal chunk in to_seal_set".
-/

namespace Ionian.Storage

open Kv Extent

namespace FlowStore

variable (keccak : List UInt8 → H256)

/-- Seal `x` can be sealed: its load is stored, the seal is not sealed, and all of its bytes are
present. -/
def SealReady (s : FlowStore) (x : Nat) : Prop :=
  ∃ b, s.getEntryBatch (x / sealsPerLoad) = some b ∧ b.sealInfo.isSealed (x % sealsPerLoad) = false ∧
    ∀ i < bytesPerSeal, (b.data.contents (x % sealsPerLoad * bytesPerSeal + i)).isSome

/-- `FlowDBStore::truncate` at an entry inside a stored load: the load is truncated at the cut, its
seals to seal again are listed under the load, and the load stays stored unless it became empty. -/
theorem truncateDb_cut_load {db db' : SortedMap Nat EntryBatch} {startIndex : Nat}
    {b : EntryBatch} {indexToReseal : List Nat} (hoff : startIndex % sectorsPerLoad ≠ 0)
    (hb : db.lookup (startIndex / sectorsPerLoad) = some b)
    (h : truncateDb keccak db startIndex = some (db', indexToReseal)) :
    ∃ b' toReseal, b.truncate keccak (startIndex % sectorsPerLoad) = some (b', toReseal) ∧
      indexToReseal = toReseal.map (startIndex / sectorsPerLoad * sealsPerLoad + ·) ∧
      db'.lookup (startIndex / sectorsPerLoad) = if b'.isEmpty then none else some b' := by
  simp only [truncateDb, if_pos hoff, hb] at h
  obtain ⟨⟨write, rs, next⟩, hfirst, h⟩ := Option.map_eq_some_iff.mp h
  obtain ⟨⟨b', toReseal⟩, hbt, hw⟩ := Option.map_eq_some_iff.mp hfirst
  simp only [Prod.mk.injEq] at hw
  obtain ⟨rfl, rfl, rfl⟩ := hw
  refine ⟨b', toReseal, hbt, ?_⟩
  cases hlast : db.lastKey with
  | none => rw [SortedMap.lookup_of_lastKey_eq_none hlast] at hb; cases hb
  | some endIndex =>
    rw [hlast] at h
    simp only [Prod.mk.injEq] at h
    obtain ⟨rfl, rfl⟩ := h
    -- the loads deleted start after the cut one
    refine ⟨rfl, ?_⟩
    rw [SortedMap.lookup_foldl_erase, if_neg (by rw [List.mem_range']; omega)]
    cases b'.isEmpty <;> simp

/-- **A truncation inside a sealed seal lists a seal that cannot be sealed.** -/
theorem truncate_lists_partial_seal {s s' : FlowStore} {startIndex : Nat} {b : EntryBatch}
    (hb : s.getEntryBatch (startIndex / sectorsPerLoad) = some b) (hwf : b.data.WF)
    (hcut : startIndex % sectorsPerSeal ≠ 0)
    (hsealed : b.sealInfo.isSealed (startIndex % sectorsPerLoad / sectorsPerSeal) = true)
    (htr : s.truncate keccak startIndex = some s') :
    startIndex / sectorsPerSeal ∈ s'.toSealSet.keys ∧ ¬ s'.SealReady (startIndex / sectorsPerSeal) := by
  have hoff : startIndex % sectorsPerLoad ≠ 0 := by
    simp only [sectorsPerLoad_eq, sectorsPerSeal_eq] at hcut ⊢
    omega
  obtain ⟨⟨db', indexToReseal⟩, hdb, rfl⟩ := Option.map_eq_some_iff.mp htr
  obtain ⟨b', toReseal, hbt, rfl, hlookup⟩ := truncateDb_cut_load keccak hoff hb hdb
  obtain ⟨-, hcontents, -, hmem⟩ := b.truncate_spec keccak hwf hbt
  -- the cut's seal, in the load and in the flow
  have hcut' : startIndex % sectorsPerLoad % sectorsPerSeal ≠ 0 := by
    simp only [sectorsPerLoad_eq, sectorsPerSeal_eq] at hcut ⊢
    omega
  have hglobal : startIndex / sectorsPerLoad * sealsPerLoad +
      startIndex % sectorsPerLoad / sectorsPerSeal = startIndex / sectorsPerSeal := by
    simp only [sectorsPerLoad_eq, sectorsPerSeal_eq, sealsPerLoad_eq]
    omega
  have hload : startIndex / sectorsPerSeal / sealsPerLoad = startIndex / sectorsPerLoad := by
    simp only [sectorsPerLoad_eq, sectorsPerSeal_eq, sealsPerLoad_eq]
    omega
  have hlocal : startIndex / sectorsPerSeal % sealsPerLoad = startIndex % sectorsPerLoad / sectorsPerSeal := by
    simp only [sectorsPerLoad_eq, sectorsPerSeal_eq, sealsPerLoad_eq]
    omega
  refine ⟨?_, ?_⟩
  · rw [SortedMap.mem_keys_iff]
    refine SortedMap.isSome_lookup_foldl_insert _ (Or.inl ?_)
    exact List.mem_map.mpr ⟨_, hmem hcut' hsealed, hglobal⟩
  · rintro ⟨b₂, hb₂, -, hpresent⟩
    rw [hload] at hb₂
    change db'.lookup _ = _ at hb₂
    rw [hlookup] at hb₂
    split_ifs at hb₂
    cases hb₂
    -- the byte at the cut is inside the seal, and gone
    have hbyte := hpresent (startIndex % sectorsPerLoad * bytesPerSector -
      startIndex % sectorsPerLoad / sectorsPerSeal * bytesPerSeal) (by
        simp only [sectorsPerLoad_eq, sectorsPerSeal_eq, bytesPerSector_eq, bytesPerSeal_eq]
        omega)
    have hx : startIndex % sectorsPerLoad / sectorsPerSeal * bytesPerSeal +
        (startIndex % sectorsPerLoad * bytesPerSector -
          startIndex % sectorsPerLoad / sectorsPerSeal * bytesPerSeal) =
        startIndex % sectorsPerLoad * bytesPerSector := by
      simp only [sectorsPerLoad_eq, sectorsPerSeal_eq, bytesPerSector_eq, bytesPerSeal_eq]
      omega
    rw [hlocal, hx, hcontents] at hbyte
    simp [cut] at hbyte

set_option maxRecDepth 100000 in
theorem truncate_lists_partial_seal_example :
    ((new.appendEntries (fun _ => H256.zero) ⟨List.replicate 4096 0, 0⟩).bind fun r =>
        r.1.submitSealResult [⟨0, 0, Vector.replicate 4096 1, H256.zero, H256.zero, 1⟩]) =
      some ⟨⟨[(0, ⟨⟨1, 0, H256.zero, [⟨H256.zero, 1⟩]⟩, .incomplete [⟨0, List.replicate 4096 1⟩]⟩)],
        List.pairwise_singleton _ _⟩, .empty, 0⟩ ∧
    ∃ s', (⟨⟨[(0, ⟨⟨1, 0, H256.zero, [⟨H256.zero, 1⟩]⟩, .incomplete [⟨0, List.replicate 4096 1⟩]⟩)],
        List.pairwise_singleton _ _⟩, .empty, 0⟩ : FlowStore).truncate (fun _ => H256.zero) 8 = some s' ∧
      0 ∈ s'.toSealSet.keys ∧ ¬ s'.SealReady 0 ∧ s'.pullSealChunk 1 = none := by
  obtain ⟨s', hs'⟩ := Option.isSome_iff_exists.mp (by decide +kernel :
    ((⟨⟨[(0, ⟨⟨1, 0, H256.zero, [⟨H256.zero, 1⟩]⟩, .incomplete [⟨0, List.replicate 4096 1⟩]⟩)],
        List.pairwise_singleton _ _⟩, .empty, 0⟩ : FlowStore).truncate (fun _ => H256.zero) 8).isSome)
  have hpull : ((⟨⟨[(0, ⟨⟨1, 0, H256.zero, [⟨H256.zero, 1⟩]⟩, .incomplete [⟨0, List.replicate 4096 1⟩]⟩)],
      List.pairwise_singleton _ _⟩, .empty, 0⟩ : FlowStore).truncate (fun _ => H256.zero) 8).bind
        (·.pullSealChunk 1) = none := by decide +kernel
  rw [hs', Option.bind_some] at hpull
  obtain ⟨hmem, hready⟩ := truncate_lists_partial_seal (fun _ => H256.zero) rfl
    (EntryBatchData.wf_singleton ⟨by decide +kernel, by decide +kernel, by decide +kernel⟩ (by decide))
    (by decide) (by decide) hs'
  exact ⟨by decide +kernel, s', hs', hmem, hready, hpull⟩

end FlowStore

end Ionian.Storage
