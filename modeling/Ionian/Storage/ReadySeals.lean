import Ionian.Storage.BatchOps

/-!
# Storage.ReadySeals — the seals `insert_data` reports

`insert_data` returns the seals that meet the new run (`get_covered_sealing_index`) and lie inside
the batch the run was merged into (`get_intact_sealing_index`).  For a run inside the load this is
exactly the set of seals of the load that the run completes: every byte of the seal is present
after the insertion and some byte was missing before (`insertData_ready_seals`).  The batch the run
was merged into is the largest run of present sectors around it, since a missing sector separates
any two batches; a seal that meets the run and has every other byte present therefore lies inside
it (`full_iff_inside_updated`).

Past the load nothing bounds the seal indices: a run of the sectors after the load is stored as a
batch of its own and its seals are reported (`insertData_past_load`).
-/

namespace Ionian.Storage

open Extent PartialBatch

/-! ## Where no batch reaches -/

namespace SortedBatches

variable {list : List PartialBatch} {p : PartialBatch}

/-- No batch holds the sector before another one starts. -/
theorem not_holds_before_start (hs : SortedBatches list) (hp : p ∈ list) (hpos : 0 < p.startSector) :
    ∀ q ∈ list, ¬ q.Holds (p.startSector - 1) := by
  obtain ⟨i, hi, rfl⟩ := List.getElem_of_mem hp
  intro q hq ⟨h₁, h₂⟩
  obtain ⟨j, hj, rfl⟩ := List.getElem_of_mem hq
  have hw := (hs.batch _ (List.getElem_mem hi)).start_lt_end
  rcases Nat.lt_trichotomy i j with hij | rfl | hij
  · have := List.pairwise_iff_getElem.mp hs.gap i j hi hj hij
    omega
  · omega
  · have := List.pairwise_iff_getElem.mp hs.gap j i hj hi hij
    omega

/-- A present byte lies in a batch, which holds its sector. -/
theorem holds_of_isSome (hs : SortedBatches list) {i : Nat}
    (h : (denote (list.map run) i).isSome) : ∃ q ∈ list, q.Holds (i / bytesPerSector) := by
  obtain ⟨r, hr, hri⟩ := isSome_denote_iff.mp h
  obtain ⟨q, hq, rfl⟩ := List.mem_map.mp hr
  exact ⟨q, hq, (hs.batch q hq).mem_run_iff.mp hri⟩

/-- Every byte of a batch is present. -/
theorem isSome_of_mem_run (hp : p ∈ list) {i : Nat} (h₁ : p.run.1 ≤ i)
    (h₂ : i < p.run.1 + p.run.2.length) : (denote (list.map run) i).isSome :=
  isSome_denote_iff.mpr ⟨p.run, List.mem_map_of_mem hp, h₁, h₂⟩

end SortedBatches

namespace EntryBatchData

/-! ## The batch a run is merged into -/

section Updated

variable {pre post : List PartialBatch} {s e : Nat}

/-- The batch `insert_data` merges the run into is one of the new list and holds every sector of
the run. -/
theorem mergeInsert_updated (hs : SortedBatches (pre ++ post)) {data : List UInt8}
    (hnew : PartialBatch.WF ⟨s, data⟩) (hend : (⟨s, data⟩ : PartialBatch).endSector = e)
    {list' : List PartialBatch} {upd : PartialBatch}
    (h : mergeInsert (pre ++ post) pre.length s e data = some (list', upd)) :
    upd ∈ list' ∧ upd.startSector ≤ s ∧ e ≤ upd.endSector := by
  cases hprev : (decide (pre.length ≠ 0) &&
      (pre ++ post)[pre.length - 1]?.map endSector == some s) <;>
    cases hnext : (decide (pre.length ≠ (pre ++ post).length) &&
      (pre ++ post)[pre.length]?.map startSector == some e)
  · -- a batch of its own
    simp only [mergeInsert, hprev, hnext, insertIdx_length_append, Option.some.injEq,
      Prod.mk.injEq] at h
    obtain ⟨rfl, rfl⟩ := h
    exact ⟨by simp, Nat.le_refl _, hend.ge⟩
  · -- onto the batch after, which starts where the run ends
    obtain ⟨b, post', rfl, hb⟩ := mergeNext_iff.mp hnext
    simp only [mergeInsert, hprev, hnext] at h
    simp only [List.getElem?_append_right (Nat.le_refl _), Nat.sub_self, List.getElem?_cons_zero,
      Option.map_some, Option.some.injEq, Prod.mk.injEq] at h
    obtain ⟨rfl, rfl⟩ := h
    have hwb := hs.right.batch b List.mem_cons_self
    obtain ⟨-, hendm⟩ := merge_wf hnew hwb (hend.trans hb.symm)
    refine ⟨by simp, Nat.le_refl _, ?_⟩
    rw [hendm, ← hb]
    exact hwb.start_lt_end.le
  · -- onto the batch before, which ends where the run starts
    obtain ⟨pre', a, rfl, ha⟩ := mergePrev_iff.mp hprev
    simp only [mergeInsert, hprev, hnext] at h
    simp only [List.length_append, List.length_singleton, Nat.add_sub_cancel, List.append_assoc,
      List.singleton_append, List.getElem?_append_right (Nat.le_refl _), Nat.sub_self,
      List.getElem?_cons_zero, Option.map_some, Option.some.injEq, Prod.mk.injEq] at h
    obtain ⟨rfl, rfl⟩ := h
    have hwa : a.WF := hs.left.batch a (by simp)
    obtain ⟨-, hendm⟩ := merge_wf hwa hnew ha
    refine ⟨by simp, ?_, ?_⟩
    · rw [← ha]
      exact hwa.start_lt_end.le
    · exact hendm.trans hend |>.ge
  · -- onto both
    obtain ⟨pre', a, rfl, ha⟩ := mergePrev_iff.mp hprev
    obtain ⟨b, post', rfl, hb⟩ := mergeNext_iff.mp hnext
    simp only [mergeInsert, hprev, hnext] at h
    simp [eraseIdx_length_append] at h
    obtain ⟨rfl, rfl⟩ := h
    have hwa : a.WF := hs.left.batch a (by simp)
    have hwb : b.WF := hs.right.batch b List.mem_cons_self
    obtain ⟨hwm₁, hendm₁⟩ := merge_wf hwa hnew ha
    obtain ⟨-, hendm⟩ := merge_wf hwm₁ hwb (hendm₁.trans (hend.trans hb.symm))
    refine ⟨by simp, ?_, ?_⟩
    · rw [← ha]
      exact hwa.start_lt_end.le
    · -- the merged batch ends where the batch after ends
      have hendm' : (⟨a.startSector, a.data ++ (data ++ b.data)⟩ : PartialBatch).endSector =
          b.endSector := by
        rw [← List.append_assoc]
        exact hendm
      rw [hendm', ← hb]
      exact hwb.start_lt_end.le

end Updated

/-! ## The seal indices of a run -/

section Indices

variable {s n j : Nat}

theorem asU16_of_lt {x : Nat} (h : x < 2 ^ 16) : asU16 x = x := Nat.mod_eq_of_lt h

/-- `get_covered_sealing_index` of a non-empty run inside the load: the seals that hold one of its
sectors. -/
theorem mem_getCoveredSealingIndex (hn : 0 < n) (h : s + n ≤ sectorsPerLoad) :
    j ∈ getCoveredSealingIndex s n ↔ ∃ k, s ≤ k ∧ k < s + n ∧ k / sectorsPerSeal = j := by
  simp only [sectorsPerLoad_eq] at h
  simp only [getCoveredSealingIndex, sectorsPerSeal_eq, List.mem_range'_1]
  rw [asU16_of_lt (by omega), asU16_of_lt (by omega)]
  constructor
  · rintro ⟨h₁, h₂⟩
    -- the first sector of the run inside the seal
    by_cases hs : s ≤ j * 16
    · exact ⟨j * 16, hs, by omega, by omega⟩
    · exact ⟨s, Nat.le_refl _, by omega, by omega⟩
  · rintro ⟨k, hk₁, hk₂, rfl⟩
    omega

/-- `get_intact_sealing_index` of a run inside the load: the seals all of whose sectors it holds. -/
theorem mem_getIntactSealingIndex (h : s + n ≤ sectorsPerLoad) :
    j ∈ getIntactSealingIndex s n ↔ s ≤ j * sectorsPerSeal ∧ (j + 1) * sectorsPerSeal ≤ s + n := by
  simp only [sectorsPerLoad_eq] at h
  simp only [getIntactSealingIndex, sectorsPerSeal_eq, List.mem_range'_1]
  rw [asU16_of_lt (by omega), asU16_of_lt (by omega)]
  omega

theorem pairwise_getCoveredSealingIndex : (getCoveredSealingIndex s n).Pairwise (· < ·) :=
  List.pairwise_lt_range'

/-- A seal holds a sector of a sector-aligned run exactly when it holds a byte of it. -/
theorem seal_meets_run_iff {b len : Nat} (hb : b % bytesPerSector = 0)
    (hlen : len % bytesPerSector = 0) :
    (∃ k, b / bytesPerSector ≤ k ∧ k < b / bytesPerSector + len / bytesPerSector ∧
        k / sectorsPerSeal = j) ↔
      ∃ i, j * bytesPerSeal ≤ i ∧ i < j * bytesPerSeal + bytesPerSeal ∧ b ≤ i ∧ i < b + len := by
  simp only [bytesPerSector_eq, sectorsPerSeal_eq, bytesPerSeal_eq] at hb hlen ⊢
  constructor
  · rintro ⟨k, hk₁, hk₂, hk₃⟩
    exact ⟨k * 256, by omega, by omega, by omega, by omega⟩
  · rintro ⟨i, hi₁, hi₂, hi₃, hi₄⟩
    exact ⟨i / 256, by omega, by omega, by omega⟩

/-- A seal lies inside a batch in bytes exactly when it does in sectors. -/
theorem seal_inside_batch_iff {p : PartialBatch} (hp : p.WF) :
    (p.run.1 ≤ j * bytesPerSeal ∧ j * bytesPerSeal + bytesPerSeal ≤ p.run.1 + p.run.2.length) ↔
      p.startSector ≤ j * sectorsPerSeal ∧
        (j + 1) * sectorsPerSeal ≤ p.startSector + p.data.length / bytesPerSector := by
  have hw := hp.whole
  simp only [run, bytesPerSector_eq, sectorsPerSeal_eq, bytesPerSeal_eq] at hw ⊢
  omega

end Indices

/-! ## Seals completed by a run -/

/-- Every byte of seal `j` of the load is present. -/
def SealPresent (c : Nat → Option UInt8) (j : Nat) : Prop :=
  Extent.Full c (j * bytesPerSeal) bytesPerSeal

section Completed

/-- A block that meets a run merged into the batch `upd` has its other bytes present exactly when
it lies inside `upd`: the bytes just outside `upd` are missing. -/
theorem full_iff_inside_updated {list' : List PartialBatch} (hs : SortedBatches list')
    {upd : PartialBatch} (hupd : upd ∈ list') {c : Nat → Option UInt8} {b : Nat}
    {data : List UInt8} (hc : denote (list'.map run) = write c b data) (hlo : upd.run.1 ≤ b)
    (hhi : b + data.length ≤ upd.run.1 + upd.run.2.length) {x n : Nat}
    (hmeet : ∃ i, x ≤ i ∧ i < x + n ∧ b ≤ i ∧ i < b + data.length) :
    (∀ i, x ≤ i → i < x + n → ¬ (b ≤ i ∧ i < b + data.length) → (c i).isSome) ↔
      upd.run.1 ≤ x ∧ x + n ≤ upd.run.1 + upd.run.2.length := by
  have hend := (hs.batch upd hupd).endSector_eq
  -- a byte outside the run that was present is held by a batch of the new list
  have hheld : ∀ i, ¬ (b ≤ i ∧ i < b + data.length) → (c i).isSome →
      ∃ q ∈ list', q.Holds (i / bytesPerSector) := fun i hout hci =>
    hs.holds_of_isSome (by rw [hc, write_of_not_mem hout]; exact hci)
  obtain ⟨i₀, hx₀, hn₀, hb₀, hl₀⟩ := hmeet
  simp only [run, bytesPerSector_eq] at hlo hhi hend hheld ⊢
  constructor
  · intro hrest
    constructor
    · -- the sector before `upd` is missing, so the block does not reach below `upd`
      by_contra hlt
      have hpos : 0 < upd.startSector := by omega
      obtain ⟨q, hq, hh⟩ := hheld (upd.startSector * 256 - 1) (by omega)
        (hrest _ (by omega) (by omega) (by omega))
      rw [show (upd.startSector * 256 - 1) / 256 = upd.startSector - 1 by omega] at hh
      exact hs.not_holds_before_start hupd hpos q hq hh
    · -- the sector after `upd` is missing, so the block does not reach past `upd`
      by_contra hgt
      obtain ⟨q, hq, hh⟩ := hheld (upd.endSector * 256) (by omega)
        (hrest _ (by omega) (by omega) (by omega))
      rw [Nat.mul_div_cancel _ (by decide)] at hh
      exact hs.not_holds_endSector hupd q hq hh
  · rintro ⟨hx, hxn⟩ i hi₁ hi₂ hout
    have hsome := SortedBatches.isSome_of_mem_run hupd (i := i)
      (by simp only [run, bytesPerSector_eq]; omega) (by simp only [run, bytesPerSector_eq]; omega)
    rwa [hc, write_of_not_mem hout] at hsome

/-- A successful `insert_data` of a non-empty run into an `Incomplete` load: the position the run
goes to, the merge, and the seals reported. -/
theorem insertData_ok_incomplete {list : List PartialBatch} {b : Nat} {data : List UInt8}
    {d' : EntryBatchData} {seals : List Nat} (hne : data ≠ [])
    (h : (incomplete list).insertData b data = some (d', .ok seals)) :
    ∃ position list' upd,
      insertPosition list (b / bytesPerSector) (b / bytesPerSector + data.length / bytesPerSector) =
        some (.ok position) ∧
      mergeInsert list position (b / bytesPerSector)
        (b / bytesPerSector + data.length / bytesPerSector) data = some (list', upd) ∧
      d' = completeIfFull list' ∧
      seals = (getCoveredSealingIndex (b / bytesPerSector) (data.length / bytesPerSector)).filter
        (· ∈ getIntactSealingIndex upd.startSector (upd.data.length / bytesPerSector)) := by
  unfold insertData at h
  split_ifs at h
  dsimp only at h
  split at h
  · cases h
  · cases h
  · rename_i position hpos
    obtain ⟨⟨list', upd⟩, hm, heq⟩ := Option.map_eq_some_iff.mp h
    simp only [Prod.mk.injEq, Except.ok.injEq] at heq
    exact ⟨position, list', upd, hpos, hm, heq.1.symm, heq.2.symm⟩

/-- A successful `insert_data` of a non-empty run inside the load merges the run into a batch of
the new list, sorted as before, and reports the seals the run meets inside that batch. -/
theorem insertData_ok_merged {list : List PartialBatch} (hs : SortedBatches list) {b : Nat}
    {data : List UInt8} {d' : EntryBatchData} {seals : List Nat}
    (hlen : data.length % bytesPerSector = 0) (hin : b + data.length ≤ bytesPerLoad)
    (hne : data ≠ []) (h : (incomplete list).insertData b data = some (d', .ok seals)) :
    ∃ list' upd, SortedBatches list' ∧ upd ∈ list' ∧ d' = completeIfFull list' ∧
      upd.startSector ≤ b / bytesPerSector ∧
      b / bytesPerSector + data.length / bytesPerSector ≤ upd.endSector ∧
      seals = (getCoveredSealingIndex (b / bytesPerSector) (data.length / bytesPerSector)).filter
        (· ∈ getIntactSealingIndex upd.startSector (upd.data.length / bytesPerSector)) := by
  obtain ⟨position, list', upd, hpos, hmerge, rfl, rfl⟩ := insertData_ok_incomplete hne h
  obtain ⟨hnew, hend⟩ := aligned_batch_wf hne hlen hin
  have hse : b / bytesPerSector < b / bytesPerSector + data.length / bytesPerSector := by
    have := List.length_pos_iff.mpr hne
    simp only [bytesPerSector_eq] at hlen ⊢
    omega
  -- a run that met a batch would have been refused
  have hov : ¬ Overlaps list (b / bytesPerSector)
      (b / bytesPerSector + data.length / bytesPerSector) := fun hov => by
    obtain ⟨err, herr⟩ := insertPosition_of_overlaps hs hov
    rw [herr] at hpos
    cases hpos
  obtain ⟨pre, post, rfl, hposition, hpre, hpost⟩ := insertPosition_of_free hs hse hov
  rw [hposition, Option.some.injEq, Except.ok.injEq] at hpos
  subst hpos
  obtain ⟨list'', upd', hmerge', hs', -⟩ := mergeInsert_spec hs hnew hend hpre hpost
  rw [hmerge', Option.some.injEq, Prod.mk.injEq] at hmerge
  obtain ⟨rfl, rfl⟩ := hmerge
  obtain ⟨hupd, hlo, hhi⟩ := mergeInsert_updated hs hnew hend hmerge'
  exact ⟨list'', upd', hs', hupd, rfl, hlo, hhi, rfl⟩

/-- **`insert_data` reports the seals it completes.**  For a sector-aligned run inside the load
stored in a well formed load, the seal indices returned are increasing, and they are the seals of
the load every byte of which is present after the insertion, some byte of which was missing
before. -/
theorem insertData_ready_seals {d d' : EntryBatchData} (hwf : d.WF) {b : Nat}
    {data : List UInt8} {seals : List Nat} (hb : b % bytesPerSector = 0)
    (hlen : data.length % bytesPerSector = 0) (hin : b + data.length ≤ bytesPerLoad)
    (h : d.insertData b data = some (d', .ok seals)) :
    seals.Pairwise (· < ·) ∧
      ∀ j, j ∈ seals ↔ j < sealsPerLoad ∧ SealPresent d'.contents j ∧
        ¬ SealPresent d.contents j := by
  obtain ⟨d'', r, hins, herr, -, hok⟩ := insertData_spec hwf hb hlen hin
  rw [h, Option.some.injEq, Prod.mk.injEq] at hins
  obtain ⟨rfl, rfl⟩ := hins
  have htouch : ¬ Touches d.contents b data.length := fun ht => by
    obtain ⟨_, he⟩ := herr.mpr ht
    cases he
  have hcont := (hok htouch).2
  by_cases hne : data = []
  · -- nothing is stored and nothing is reported
    subst hne
    unfold insertData at h
    rw [if_neg fun hc => hc.elim (· hb) (· (Nat.zero_mod _)), if_pos rfl, Option.some.injEq,
      Prod.mk.injEq, Except.ok.injEq] at h
    obtain ⟨rfl, rfl⟩ := h
    exact ⟨List.Pairwise.nil, fun j => by simp⟩
  cases d with
  | complete data₀ => simp [insertData, hne] at h
  | incomplete list =>
    obtain ⟨list', upd, hs', hupd, rfl, hlo, hhi, rfl⟩ := insertData_ok_merged hwf.1 hlen hin hne h
    have hwu := hs'.batch upd hupd
    have hendu := hwu.endSector_eq
    have hinside := hwu.inside
    have hc : denote (list'.map run) = write (denote (list.map run)) b data :=
      (completeIfFull_spec hs').2.symm.trans hcont
    -- the run lies inside `upd`, in bytes
    have hlo' : upd.run.1 ≤ b := by
      simp only [run, bytesPerSector_eq] at hb hlo ⊢
      omega
    have hhi' : b + data.length ≤ upd.run.1 + upd.run.2.length := by
      simp only [run, bytesPerSector_eq] at hb hlen hhi hendu ⊢
      omega
    have hupdlen : upd.startSector + upd.data.length / bytesPerSector ≤ sectorsPerLoad := by
      simp only [endSector, bytesToChunks_of_dvd hwu.whole] at hinside
      exact hinside
    have hpos := List.length_pos_iff.mpr hne
    refine ⟨pairwise_getCoveredSealingIndex.filter _, fun j => ?_⟩
    rw [List.mem_filter, decide_eq_true_iff, mem_getCoveredSealingIndex (by
        simp only [bytesPerSector_eq] at hlen ⊢; omega) (by
        simp only [bytesPerSector_eq, sectorsPerLoad_eq, bytesPerLoad_eq] at hin ⊢; omega),
      mem_getIntactSealingIndex hupdlen, SealPresent, SealPresent, hcont,
      full_write_iff_of_not_touches htouch, seal_meets_run_iff hb hlen, ← seal_inside_batch_iff hwu]
    constructor
    · rintro ⟨hmeet, hins⟩
      refine ⟨?_, hmeet, (full_iff_inside_updated hs' hupd hc hlo' hhi' hmeet).mpr hins⟩
      -- a seal inside a batch is a seal of the load
      simp only [run, bytesPerSector_eq, bytesPerSeal_eq, sectorsPerLoad_eq,
        sealsPerLoad_eq] at hins hendu hinside ⊢
      omega
    · rintro ⟨-, hmeet, hrest⟩
      exact ⟨hmeet, (full_iff_inside_updated hs' hupd hc hlo' hhi' hmeet).mp hrest⟩

/-- One seal of data stored at seal `j` of a new load: the seal is reported, whatever `j` is. -/
theorem insertData_new_seal {data : List UInt8} (hlen : data.length = bytesPerSeal) {j : Nat}
    (hj : j + 1 < 2 ^ 16) :
    new.insertData (j * bytesPerSeal) data =
      some (.incomplete [⟨j * sectorsPerSeal, data⟩], .ok [j]) := by
  have hne : data ≠ [] := fun h => by simp [h] at hlen
  have hfind : ∀ x, PartialBatch.find [] x = some (.error 0) := fun _ => rfl
  -- the seal's sectors, and its index below the `u16` casts
  have hstart : j * 4096 / 256 = j * 16 := by omega
  have hfirst : (j * 16 + 15) / 16 = j := by omega
  have hseal : j * 16 / 16 = j := by omega
  have hlast : (j * 16 + 31) / 16 = j + 1 := by omega
  have hj₀ : j % 65536 = j := Nat.mod_eq_of_lt (by omega)
  have hj₁ : (j + 1) % 65536 = j + 1 := Nat.mod_eq_of_lt hj
  have hchunks : bytesToChunks 4096 = 16 := rfl
  simp [insertData, new, insertPosition, hfind, mergeInsert, getIntactSealingIndex,
    getCoveredSealingIndex, asU16, completeIfFull, hlen, hne, hstart, hfirst, hseal, hlast, hj₀,
    hj₁, hchunks]
  omega

/-- The first seal stored on a new load is the one seal it completes. -/
theorem insertData_ready_seals_example :
    new.insertData 0 (List.replicate bytesPerSeal 0) =
        some (.incomplete [⟨0, List.replicate bytesPerSeal 0⟩], .ok [0]) ∧
      ([0] : List Nat).Pairwise (· < ·) ∧
      ∀ j, j ∈ [0] ↔ j < sealsPerLoad ∧
        SealPresent (incomplete [⟨0, List.replicate bytesPerSeal 0⟩]).contents j ∧
        ¬ SealPresent new.contents j := by
  have h : new.insertData 0 (List.replicate bytesPerSeal 0) =
      some (.incomplete [⟨0, List.replicate bytesPerSeal 0⟩], .ok [0]) :=
    insertData_new_seal (j := 0) List.length_replicate (by decide)
  exact ⟨h, insertData_ready_seals new_wf (by decide) (by rw [List.length_replicate]; decide)
    (by rw [List.length_replicate]; decide) h⟩

/-- A seal of data stored past the load, on a new load: it is stored, and seal `64` is reported,
which is not a seal of the load. -/
theorem insertData_past_load :
    new.insertData bytesPerLoad (List.replicate bytesPerSeal 0) =
      some (.incomplete [⟨sectorsPerLoad, List.replicate bytesPerSeal 0⟩], .ok [sealsPerLoad]) :=
  insertData_new_seal (j := 64) List.length_replicate (by decide)

end Completed

end EntryBatchData

end Ionian.Storage
