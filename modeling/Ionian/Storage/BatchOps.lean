import Ionian.Storage.Batches

/-!
# Storage.BatchOps — `insert_data` and `truncate` keep the invariant and write the bytes

For a sector-aligned run of data inside the load, `insert_data` fails exactly when the run meets a
present byte, and then changes nothing; otherwise it stores the data (`insertData_spec`), whichever
of the four merges it takes (`mergeInsert_spec`).  `truncate` at a sector strictly inside the load
forgets the bytes from there on (`truncate_spec`).  Both keep the representation invariant, so
every run of them from `new` is simulated by the abstract store of the bytes written and not cut
since (`runOps_spec`).
-/

namespace Ionian.Storage

open Extent PartialBatch

namespace EntryBatchData

/-! ## Lists split at the insertion point -/

section Lists

variable {α : Type}

theorem insertIdx_length_append (pre post : List α) (x : α) :
    (pre ++ post).insertIdx pre.length x = pre ++ x :: post := by
  induction pre with
  | nil => simp [List.insertIdx_zero]
  | cons a pre ih => simp [List.insertIdx_succ_cons, ih]

theorem set_length_append (pre post : List α) (x y : α) :
    (pre ++ x :: post).set pre.length y = pre ++ y :: post := by
  simp [List.set_append_right]

theorem eraseIdx_length_append (pre post : List α) (x y : α) :
    (pre ++ x :: y :: post).eraseIdx (pre.length + 1) = pre ++ x :: post := by
  simp [List.eraseIdx_append_of_length_le]

end Lists

/-! ## Runs that meet -/

section Merge

/-- A batch and the one that starts where it ends read as their concatenation. -/
theorem denote_merge {x y : PartialBatch} (hx : x.WF) (hxy : x.endSector = y.startSector)
    (pre post : List PartialBatch) :
    denote ((pre ++ ⟨x.startSector, x.data ++ y.data⟩ :: post).map run) =
      denote ((pre ++ x :: y :: post).map run) := by
  have hoff : x.startSector * 256 + x.data.length = y.startSector * 256 := by
    have h := hx.endSector_eq
    rw [hxy] at h
    exact h.symm
  funext i
  simp [denote_append, run, runAt_append, hoff, Option.or_assoc]

/-- Two batches that meet make a well formed batch. -/
theorem merge_wf {x y : PartialBatch} (hx : x.WF) (hy : y.WF) (hxy : x.endSector = y.startSector) :
    PartialBatch.WF ⟨x.startSector, x.data ++ y.data⟩ ∧
      (⟨x.startSector, x.data ++ y.data⟩ : PartialBatch).endSector = y.endSector := by
  have h₁ : x.endSector * 256 = x.startSector * 256 + x.data.length := hx.endSector_eq
  have h₂ : y.endSector * 256 = y.startSector * 256 + y.data.length := hy.endSector_eq
  have hw₁ : x.data.length % 256 = 0 := hx.whole
  have hw₂ : y.data.length % 256 = 0 := hy.whole
  have hwhole : (x.data ++ y.data).length % bytesPerSector = 0 := by
    simp only [List.length_append, bytesPerSector_eq]
    omega
  have hend : (⟨x.startSector, x.data ++ y.data⟩ : PartialBatch).endSector = y.endSector := by
    show x.startSector + bytesToChunks (x.data ++ y.data).length = y.endSector
    rw [bytesToChunks_of_dvd hwhole, List.length_append, bytesPerSector_eq]
    omega
  exact ⟨⟨by simp [hx.nonempty], hwhole, hend ▸ hy.inside⟩, hend⟩

end Merge

/-! ## Where a run goes -/

section Position

variable {list : List PartialBatch}

/-- Some batch holds a sector of `[s, e)`. -/
def Overlaps (list : List PartialBatch) (s e : Nat) : Prop :=
  ∃ p ∈ list, ∃ j, s ≤ j ∧ j < e ∧ p.Holds j

/-- The bytes of a sector-aligned run meet a present byte exactly when a batch holds one of its
sectors. -/
theorem touches_iff (hs : SortedBatches list) {s n : Nat} :
    Touches (denote (list.map run)) (s * bytesPerSector) (n * bytesPerSector) ↔
      Overlaps list s (s + n) := by
  constructor
  · rintro ⟨i, hi₁, hi₂, hsome⟩
    obtain ⟨r, hr, hri⟩ := isSome_denote_iff.mp hsome
    obtain ⟨p, hp, rfl⟩ := List.mem_map.mp hr
    have hh := ((hs.batch p hp).mem_run_iff).mp hri
    simp only [bytesPerSector_eq] at hi₁ hi₂ hh
    exact ⟨p, hp, i / 256, by omega, by omega, hh⟩
  · rintro ⟨p, hp, j, hj₁, hj₂, hh⟩
    refine ⟨j * bytesPerSector, by simp only [bytesPerSector_eq]; omega,
      by simp only [bytesPerSector_eq]; omega, isSome_denote_iff.mpr ⟨p.run, List.mem_map_of_mem hp, ?_⟩⟩
    rw [(hs.batch p hp).mem_run_iff, Nat.mul_div_cancel _ (by decide)]
    exact hh

/-- A run that meets a batch is refused. -/
theorem insertPosition_of_overlaps (hs : SortedBatches list) {s e : Nat}
    (hov : Overlaps list s e) : ∃ err, insertPosition list s e = some (.error err) := by
  obtain ⟨p, hp, j, hj₁, hj₂, hh⟩ := hov
  -- the first sector, or the last one, may be held
  have hheld : ∀ x, (∃ (i : Nat) (q : PartialBatch), list[i]? = some q ∧ q.Holds x) →
      ∃ (i : Nat) (q : PartialBatch), list[i]? = some q ∧ find list x = some (.ok i) :=
    fun x ⟨i, q, hq, hqx⟩ =>
    ⟨i, q, hq, find_of_holds hs hq hqx⟩
  by_cases hs₁ : ∃ (i : Nat) (q : PartialBatch), list[i]? = some q ∧ q.Holds s
  · obtain ⟨i, q, hq, hfind⟩ := hheld s hs₁
    exact ⟨overlapMessage "start" q, by simp [insertPosition, hfind, hq]⟩
  have hfree₁ : ∀ q ∈ list, ¬ q.Holds s := fun q hq hqs => by
    obtain ⟨i, hi, rfl⟩ := List.getElem_of_mem hq
    exact hs₁ ⟨i, _, List.getElem?_eq_getElem hi, hqs⟩
  obtain ⟨pre₁, post₁, hsplit₁, hfind₁, hpre₁, hpost₁⟩ := find_of_free hs hfree₁
  by_cases hs₂ : ∃ (i : Nat) (q : PartialBatch), list[i]? = some q ∧ q.Holds (e - 1)
  · obtain ⟨i, q, hq, hfind⟩ := hheld (e - 1) hs₂
    exact ⟨overlapMessage "end" q, by simp [insertPosition, hfind₁, hfind, hq]⟩
  have hfree₂ : ∀ q ∈ list, ¬ q.Holds (e - 1) := fun q hq hqs => by
    obtain ⟨i, hi, rfl⟩ := List.getElem_of_mem hq
    exact hs₂ ⟨i, _, List.getElem?_eq_getElem hi, hqs⟩
  obtain ⟨pre₂, post₂, hsplit₂, hfind₂, hpre₂, hpost₂⟩ := find_of_free hs hfree₂
  -- `p` lies strictly inside the run, so it is below `e - 1` and not below `s`
  have hp₁ : p ∈ post₁ := by
    rcases List.mem_append.mp (hsplit₁ ▸ hp) with hp' | hp'
    · have := hpre₁ p hp'
      exact absurd hh (by simp only [Holds]; omega)
    · exact hp'
  have hp₂ : p ∈ pre₂ := by
    rcases List.mem_append.mp (hsplit₂ ▸ hp) with hp' | hp'
    · exact hp'
    · have := hpost₂ p hp'
      have := hpost₁ p hp₁
      by_contra
      exact hfree₂ p hp ⟨by simp only [Holds] at hh; omega, by simp only [Holds] at hh; omega⟩
  have hne : pre₁.length ≠ pre₂.length := by
    intro hlen
    obtain ⟨rfl, rfl⟩ := List.append_inj (hsplit₁.symm.trans hsplit₂) hlen
    have := hpost₂ p hp₁
    have := hpre₂ p hp₂
    have := (hs.batch p hp).start_lt_end
    omega
  exact ⟨"data overlapped with existing batches", by simp [insertPosition, hfind₁, hfind₂, hne]⟩

/-- A run that meets no batch goes where the list splits around it. -/
theorem insertPosition_of_free (hs : SortedBatches list) {s e : Nat} (hse : s < e)
    (hfree : ¬ Overlaps list s e) :
    ∃ pre post, list = pre ++ post ∧ insertPosition list s e = some (.ok pre.length) ∧
      (∀ q ∈ pre, q.endSector ≤ s) ∧ (∀ q ∈ post, e ≤ q.startSector) := by
  have hfree' : ∀ x, s ≤ x → x < e → ∀ q ∈ list, ¬ q.Holds x := fun x hx₁ hx₂ q hq hqx =>
    hfree ⟨q, hq, x, hx₁, hx₂, hqx⟩
  obtain ⟨pre₁, post₁, hsplit₁, hfind₁, hpre₁, hpost₁⟩ := find_of_free hs (hfree' s le_rfl hse)
  obtain ⟨pre₂, post₂, hsplit₂, hfind₂, hpre₂, hpost₂⟩ :=
    find_of_free hs (hfree' (e - 1) (by omega) (by omega))
  -- both searches stop at the same batch: a batch between the two split points would be after
  -- `s` and end by `e - 1`, or end by `s` and start after `e - 1`
  have hsame : pre₁ = pre₂ ∧ post₁ = post₂ := by
    rcases List.append_eq_append_iff.mp (hsplit₁.symm.trans hsplit₂) with ⟨a, rfl, rfl⟩ | ⟨c, rfl, rfl⟩
    · cases a with
      | nil => simp
      | cons q a =>
        have := hpost₁ q List.mem_cons_self
        have := hpre₂ q (List.mem_append_right _ List.mem_cons_self)
        have hq : q ∈ list := hsplit₁ ▸ List.mem_append_right _ List.mem_cons_self
        have hqw := (hs.batch q hq).start_lt_end
        exact absurd ⟨le_rfl, hqw⟩
          (hfree' q.startSector (by omega) (by omega) q hq)
    · cases c with
      | nil => simp
      | cons q c =>
        have := hpre₁ q (List.mem_append_right _ List.mem_cons_self)
        have := hpost₂ q List.mem_cons_self
        have := (hs.batch q (hsplit₂ ▸ List.mem_append_right _ List.mem_cons_self)).start_lt_end
        omega
  obtain ⟨rfl, rfl⟩ := hsame
  refine ⟨pre₁, post₁, hsplit₁, ?_, hpre₁, fun q hq => by have := hpost₂ q hq; omega⟩
  simp [insertPosition, hfind₁, hfind₂]

end Position

/-! ## The four merges of `insert_data` -/

section MergeInsert

variable {pre post : List PartialBatch} {s e : Nat}

/-- Whether the run meets the last batch before it, and the first batch after it: the two flags
of `insert_data`. -/
theorem mergePrev_iff :
    (decide (pre.length ≠ 0) && (pre ++ post)[pre.length - 1]?.map endSector == some s) = true ↔
      ∃ pre' a, pre = pre' ++ [a] ∧ a.endSector = s := by
  rcases List.eq_nil_or_concat' pre with rfl | ⟨pre', a, rfl⟩
  · simp
  · simp [List.append_assoc]

theorem mergeNext_iff :
    (decide (pre.length ≠ (pre ++ post).length) &&
        (pre ++ post)[pre.length]?.map startSector == some e) = true ↔
      ∃ b post', post = b :: post' ∧ b.startSector = e := by
  cases post with
  | nil => simp
  | cons b post' => simp

/-- Without a merge at the front, every batch before the run ends before it. -/
theorem lt_of_not_meets (hs : SortedBatches pre) (hle : ∀ q ∈ pre, q.endSector ≤ s)
    (hno : ¬ ∃ pre' a, pre = pre' ++ [a] ∧ a.endSector = s) : ∀ q ∈ pre, q.endSector < s := by
  rcases List.eq_nil_or_concat' pre with rfl | ⟨pre', a, rfl⟩
  · simp
  · intro q hq
    have ha : a.endSector ≠ s := fun h => hno ⟨pre', a, rfl, h⟩
    obtain ⟨hlo, -⟩ := (show SortedBatches (pre' ++ a :: []) from hs).around
    rcases List.mem_append.mp hq with hq | hq
    · have := hlo q hq
      have := (hs.batch a (by simp)).start_lt_end
      have := hle a (by simp)
      omega
    · simp only [List.mem_singleton] at hq
      subst hq
      have := hle q (by simp)
      omega

/-- Without a merge at the back, every batch after the run starts after it. -/
theorem lt_of_not_meets_next (hs : SortedBatches post) (hle : ∀ q ∈ post, e ≤ q.startSector)
    (hno : ¬ ∃ b post', post = b :: post' ∧ b.startSector = e) : ∀ q ∈ post, e < q.startSector := by
  cases post with
  | nil => simp
  | cons b post' =>
    intro q hq
    have hb : b.startSector ≠ e := fun h => hno ⟨b, post', rfl, h⟩
    obtain ⟨-, hhi⟩ := (show SortedBatches ([] ++ b :: post') from hs).around
    rcases List.mem_cons.mp hq with rfl | hq
    · have := hle q List.mem_cons_self
      omega
    · have := hhi q hq
      have := (hs.batch b List.mem_cons_self).start_lt_end
      have := hle b List.mem_cons_self
      omega

/-- `insert_data`'s merge at the insertion point keeps the list sorted and reads as the run
inserted between the batches. -/
theorem mergeInsert_spec (hs : SortedBatches (pre ++ post)) {data : List UInt8}
    (hnew : PartialBatch.WF ⟨s, data⟩) (hend : (⟨s, data⟩ : PartialBatch).endSector = e)
    (hpre : ∀ q ∈ pre, q.endSector ≤ s) (hpost : ∀ q ∈ post, e ≤ q.startSector) :
    ∃ list' upd, mergeInsert (pre ++ post) pre.length s e data = some (list', upd) ∧
      SortedBatches list' ∧
      denote (list'.map run) = denote ((pre ++ (⟨s, data⟩ : PartialBatch) :: post).map run) := by
  have hsl := hs.left
  have hsr := hs.right
  cases hprev : (decide (pre.length ≠ 0) &&
      (pre ++ post)[pre.length - 1]?.map endSector == some s) <;>
    cases hnext : (decide (pre.length ≠ (pre ++ post).length) &&
      (pre ++ post)[pre.length]?.map startSector == some e)
  · -- neither: a batch of its own
    have hlo := lt_of_not_meets hsl hpre (by rw [← mergePrev_iff, hprev]; simp)
    have hhi := lt_of_not_meets_next hsr hpost (by rw [← mergeNext_iff, hnext]; simp)
    refine ⟨pre ++ ⟨s, data⟩ :: post, ⟨s, data⟩, ?_, ?_, rfl⟩
    · simp only [mergeInsert, hprev, hnext, insertIdx_length_append]
    · exact SortedBatches.insert hsl hsr hnew hlo (hend ▸ hhi)
  · -- onto the batch after
    obtain ⟨b, post', rfl, hb⟩ := mergeNext_iff.mp hnext
    have hlo := lt_of_not_meets hsl hpre (by rw [← mergePrev_iff, hprev]; simp)
    have hsb : SortedBatches ([] ++ b :: post') := hsr
    obtain ⟨-, hhi⟩ := hsb.around
    have hwb := hsb.batch b (by simp)
    obtain ⟨hwm, hendm⟩ := merge_wf hnew hwb (hend.trans hb.symm)
    refine ⟨pre ++ ⟨s, data ++ b.data⟩ :: post', ⟨s, data ++ b.data⟩, ?_, ?_, ?_⟩
    · simp only [mergeInsert, hprev, hnext]
      simp
    · exact SortedBatches.insert hsl (show SortedBatches ([b] ++ post') from hsr).right hwm hlo
        (hendm ▸ hhi)
    · exact denote_merge hnew (hend.trans hb.symm) pre post'
  · -- onto the batch before
    obtain ⟨pre', a, rfl, ha⟩ := mergePrev_iff.mp hprev
    have hhi := lt_of_not_meets_next hsr hpost (by rw [← mergeNext_iff, hnext]; simp)
    have hsa : SortedBatches (pre' ++ a :: []) := hsl
    obtain ⟨hlo, -⟩ := hsa.around
    have hwa := hsa.batch a (by simp)
    obtain ⟨hwm, hendm⟩ := merge_wf hwa hnew ha
    refine ⟨pre' ++ ⟨a.startSector, a.data ++ data⟩ :: post, ⟨a.startSector, a.data ++ data⟩,
      ?_, ?_, ?_⟩
    · simp only [mergeInsert, hprev, hnext]
      simp
    · exact SortedBatches.insert hsa.left hsr hwm hlo (hendm ▸ hend ▸ hhi)
    · rw [List.append_assoc, List.singleton_append]
      exact denote_merge (y := ⟨s, data⟩) hwa ha pre' post
  · -- onto both: the three runs become one
    obtain ⟨pre', a, rfl, ha⟩ := mergePrev_iff.mp hprev
    obtain ⟨b, post', rfl, hb⟩ := mergeNext_iff.mp hnext
    have hsa : SortedBatches (pre' ++ a :: []) := hsl
    have hsb : SortedBatches ([] ++ b :: post') := hsr
    obtain ⟨hlo, -⟩ := hsa.around
    obtain ⟨-, hhi⟩ := hsb.around
    have hwa := hsa.batch a (by simp)
    have hwb := hsb.batch b (by simp)
    obtain ⟨hwm₁, hendm₁⟩ := merge_wf hwa hnew ha
    obtain ⟨hwm, hendm⟩ := merge_wf hwm₁ hwb (hendm₁.trans (hend.trans hb.symm))
    refine ⟨pre' ++ ⟨a.startSector, a.data ++ data ++ b.data⟩ :: post',
      ⟨a.startSector, a.data ++ data ++ b.data⟩, ?_, ?_, ?_⟩
    · simp only [mergeInsert, hprev, hnext]
      simp [eraseIdx_length_append]
    · exact SortedBatches.insert hsa.left (show SortedBatches ([b] ++ post') from hsr).right hwm
        hlo (hendm ▸ hhi)
    · rw [denote_merge hwm₁ (hendm₁.trans (hend.trans hb.symm)) pre' post', List.append_assoc,
        List.singleton_append, denote_merge (y := ⟨s, data⟩) hwa ha pre' (b :: post')]

end MergeInsert

/-! ## `Complete` -/

section Complete

variable {list : List PartialBatch}

/-- Batches that all end by a sector inside the load leave some sector missing. -/
theorem not_full_of_le {T : Nat} (hle : ∀ q ∈ list, q.endSector ≤ T) (hT : T < sectorsPerLoad) :
    ¬ Full list := by
  rintro ⟨p, rfl, -, hend⟩
  have := hle p (by simp)
  omega

/-- The list of an `Incomplete` load misses a sector. -/
theorem exists_free_sector (hs : SortedBatches list) (hnf : ¬ Full list) :
    ∃ s < sectorsPerLoad, ∀ p ∈ list, ¬ p.Holds s := by
  cases list with
  | nil => exact ⟨0, by decide, by simp⟩
  | cons p rest =>
    have hwp := hs.batch p List.mem_cons_self
    have hsp : SortedBatches ([] ++ p :: rest) := hs
    obtain ⟨-, hhi⟩ := hsp.around
    by_cases h0 : p.startSector = 0
    · -- the sector after the first batch, which cannot reach the end of the load
      refine ⟨p.endSector, ?_, hs.not_holds_endSector List.mem_cons_self⟩
      have := hwp.inside
      by_contra hge
      cases rest with
      | nil => exact hnf ⟨p, rfl, h0, by omega⟩
      | cons q rest =>
        have := hhi q List.mem_cons_self
        have := (hs.batch q (by simp)).start_lt_end
        have := (hs.batch q (by simp)).inside
        omega
    · -- sector zero, below the first batch
      refine ⟨0, by decide, fun q hq hh => ?_⟩
      rcases List.mem_cons.mp hq with rfl | hq
      · exact h0 (Nat.le_zero.mp hh.1)
      · have := hhi q hq
        have := hh.1
        omega

/-- A load is `Complete` exactly when every byte is present. -/
theorem isComplete_iff {d : EntryBatchData} (hwf : d.WF) :
    d.IsComplete ↔ ∀ i < bytesPerLoad, (d.contents i).isSome := by
  cases d with
  | complete data =>
    have hlen : data.length = bytesPerLoad := hwf
    simp only [IsComplete, contents, true_iff]
    intro i hi
    have hi' : i < data.length := hlen ▸ hi
    simp [hi']
  | incomplete list =>
    simp only [IsComplete, contents, false_iff, not_forall]
    obtain ⟨s, hs, hfree⟩ := exists_free_sector hwf.1 hwf.2
    refine ⟨s * bytesPerSector, by
      simp only [bytesPerSector_eq, sectorsPerLoad_eq, bytesPerLoad_eq] at hs ⊢; omega,
      ?_⟩
    rw [denote_of_free hwf.1 (by rwa [Nat.mul_div_cancel _ (by decide)])]
    simp

/-- The single batch of every sector, and only it, makes the load `Complete`. -/
theorem completeIfFull_spec (hs : SortedBatches list) :
    (completeIfFull list).WF ∧ (completeIfFull list).contents = denote (list.map run) := by
  unfold completeIfFull
  split
  · rename_i p
    have hwp := hs.batch p (by simp)
    split_ifs with hfull
    · -- every sector: the data of the load
      have hw : p.data.length % 256 = 0 := hwp.whole
      have hchunks : bytesToChunks p.data.length = p.data.length / 256 :=
        bytesToChunks_of_dvd hwp.whole
      refine ⟨?_, ?_⟩
      · show p.data.length = bytesPerLoad
        have := hfull.2
        simp only [sectorsPerLoad_eq, hchunks] at this
        simp only [bytesPerLoad_eq]
        omega
      · funext i
        simp [contents, run, hfull.1, runAt]
    · refine ⟨⟨hs, ?_⟩, rfl⟩
      rintro ⟨q, hq, h0, hend⟩
      obtain rfl := List.singleton_inj.mp hq
      exact hfull ⟨h0, by simpa [endSector, h0] using hend⟩
  · rename_i hnot
    refine ⟨⟨hs, ?_⟩, rfl⟩
    rintro ⟨q, hq, -⟩
    exact hnot q hq

end Complete

/-! ## `insert_data` and `truncate` -/

section Ops

/-- The batch `insert_data` makes of a sector-aligned run inside the load, and where it ends. -/
theorem aligned_batch_wf {b : Nat} {data : List UInt8} (hne : data ≠ [])
    (hlen : data.length % bytesPerSector = 0) (hin : b + data.length ≤ bytesPerLoad) :
    PartialBatch.WF ⟨b / bytesPerSector, data⟩ ∧
      (⟨b / bytesPerSector, data⟩ : PartialBatch).endSector =
        b / bytesPerSector + data.length / bytesPerSector := by
  have hend : (⟨b / bytesPerSector, data⟩ : PartialBatch).endSector =
      b / bytesPerSector + data.length / bytesPerSector := by
    simp only [endSector, bytesToChunks_of_dvd hlen]
  refine ⟨⟨hne, hlen, ?_⟩, hend⟩
  rw [hend]
  simp only [bytesPerSector_eq, sectorsPerLoad_eq, bytesPerLoad_eq] at hin ⊢
  omega

/-- `insert_data` of a sector-aligned run inside the load: an error exactly when the run meets a
present byte, which leaves the load as it was; otherwise the run is stored. -/
theorem insertData_spec {d : EntryBatchData} (hwf : d.WF) {b : Nat} {data : List UInt8}
    (hb : b % bytesPerSector = 0) (hlen : data.length % bytesPerSector = 0)
    (hin : b + data.length ≤ bytesPerLoad) :
    ∃ d' r, d.insertData b data = some (d', r) ∧
      ((∃ err, r = .error err) ↔ Touches d.contents b data.length) ∧
      ((∃ err, r = .error err) → d' = d) ∧
      (¬ Touches d.contents b data.length → d'.WF ∧ d'.contents = write d.contents b data) := by
  have hassert : ¬ (b % bytesPerSector ≠ 0 ∨ data.length % bytesPerSector ≠ 0) :=
    fun h => h.elim (· hb) (· hlen)
  by_cases hne : data = []
  · -- nothing to store
    subst hne
    refine ⟨d, .ok [], by simp only [insertData, if_neg hassert, if_true],
      ⟨(by rintro ⟨_, h⟩; cases h), ?_⟩, (by rintro ⟨_, h⟩; cases h), fun _ => ⟨hwf, ?_⟩⟩
    · rintro ⟨i, hi₁, hi₂, -⟩
      simp at hi₂
      omega
    · exact (write_nil _ _).symm
  have hpos : 0 < data.length := List.length_pos_iff.mpr hne
  cases d with
  | complete data₀ =>
    -- every byte is present
    have hlen₀ : data₀.length = bytesPerLoad := hwf
    have htouch : Touches (complete data₀).contents b data.length :=
      ⟨b, le_rfl, by omega, by simp [contents]; omega⟩
    exact ⟨_, .error "overwriting a completed PoRA Chunk with partial data",
      by simp only [insertData, if_neg hassert, if_neg hne],
      ⟨fun _ => htouch, fun _ => ⟨_, rfl⟩⟩, fun _ => rfl, fun h => absurd htouch h⟩
  | incomplete list =>
    obtain ⟨hs, hnf⟩ := hwf
    -- the run in sectors
    have hb' : b / bytesPerSector * bytesPerSector = b := Nat.div_mul_cancel (Nat.dvd_of_mod_eq_zero hb)
    have hlen' : data.length / bytesPerSector * bytesPerSector = data.length :=
      Nat.div_mul_cancel (Nat.dvd_of_mod_eq_zero hlen)
    have htouch := touches_iff hs (s := b / bytesPerSector) (n := data.length / bytesPerSector)
    rw [hb', hlen'] at htouch
    by_cases hov : Overlaps list (b / bytesPerSector) (b / bytesPerSector + data.length / bytesPerSector)
    · obtain ⟨err, hpos'⟩ := insertPosition_of_overlaps hs hov
      exact ⟨_, _, by simp only [insertData, if_neg hassert, if_neg hne, hpos'],
        ⟨fun _ => htouch.mpr hov, fun _ => ⟨err, rfl⟩⟩, fun _ => rfl,
        fun h => absurd (htouch.mpr hov) h⟩
    · have hse : b / bytesPerSector < b / bytesPerSector + data.length / bytesPerSector := by
        simp only [bytesPerSector_eq] at hlen ⊢
        omega
      obtain ⟨pre, post, rfl, hposition, hpre, hpost⟩ := insertPosition_of_free hs hse hov
      obtain ⟨hnew, hend⟩ := aligned_batch_wf hne hlen hin
      obtain ⟨list', upd, hmerge, hs', hden⟩ := mergeInsert_spec hs hnew hend hpre hpost
      obtain ⟨hwf', hcontents'⟩ := completeIfFull_spec hs'
      obtain ⟨seals, hins⟩ : ∃ seals, (incomplete (pre ++ post)).insertData b data =
          some (completeIfFull list', .ok seals) :=
        ⟨_, by simp only [insertData, if_neg hassert, if_neg hne, hposition, hmerge,
          Option.map_some]; rfl⟩
      refine ⟨_, _, hins, ⟨(by rintro ⟨_, h⟩; cases h), fun h => absurd (htouch.mp h) hov⟩,
        (by rintro ⟨_, h⟩; cases h), fun _ => ⟨hwf', ?_⟩⟩
      -- the batches below the run end by its first byte
      have hfree : ∀ r ∈ pre.map run, r.1 + r.2.length ≤ b ∨ b + data.length ≤ r.1 := fun r hr => by
        obtain ⟨q, hq, rfl⟩ := List.mem_map.mp hr
        have h₁ := hpre q hq
        have h₂ := (hs.batch q (List.mem_append_left _ hq)).endSector_eq
        left
        simp only [run, bytesPerSector_eq] at h₁ h₂ hb ⊢
        omega
      have hrun : run ⟨b / bytesPerSector, data⟩ = (b, data) := Prod.ext hb' rfl
      rw [hcontents', hden, List.map_append, List.map_cons, hrun, denote_insert hfree,
        ← List.map_append]
      rfl

/-- `truncate` at a sector strictly inside the load forgets the bytes from there on. -/
theorem truncate_spec {d : EntryBatchData} (hwf : d.WF) {t : Nat} (ht : t % bytesPerSector = 0)
    (h0 : 0 < t) (hlt : t < bytesPerLoad) :
    ∃ d', d.truncate t = some d' ∧ d'.WF ∧ d'.contents = cut d.contents t := by
  have hT : t / bytesPerSector < sectorsPerLoad := by
    simp only [bytesPerSector_eq, sectorsPerLoad_eq, bytesPerLoad_eq] at hlt ⊢
    omega
  cases d with
  | complete data =>
    -- the load becomes its first `t` bytes, as one batch
    have hlen : data.length = 262144 := hwf
    have hlt' : t < 262144 := hlt
    have htake : (data.take t).length = t := by simp; omega
    have hend₀ : (⟨0, data.take t⟩ : PartialBatch).endSector = t / bytesPerSector := by
      simp only [endSector, Nat.zero_add, htake, bytesToChunks_of_dvd ht]
    have hp : PartialBatch.WF ⟨0, data.take t⟩ := by
      refine ⟨fun h => ?_, ?_, ?_⟩
      · have h' : data.take t = [] := h
        rw [h', List.length_nil] at htake
        omega
      · show (data.take t).length % bytesPerSector = 0
        rw [htake]
        exact ht
      · rw [hend₀]
        exact hT.le
    refine ⟨.incomplete [⟨0, data.take t⟩], by simp only [truncate, if_pos ht],
      ⟨show SortedBatches ([] ++ [⟨0, data.take t⟩]) from .insert .nil .nil hp (by simp) (by simp),
        not_full_of_le (fun q hq => by rw [List.mem_singleton.mp hq, hend₀]) hT⟩, ?_⟩
    funext i
    simp only [contents, cut, List.map_cons, List.map_nil, denote_cons, denote_nil, run,
        Nat.zero_mul, Option.or_none, runAt]
    split_ifs <;> simp [List.getElem?_take] <;> omega
  | incomplete list =>
    obtain ⟨hs, -⟩ := hwf
    have ht' : t % 256 = 0 := ht
    by_cases hheld : ∃ (x : Nat) (p : PartialBatch), list[x]? = some p ∧
        p.Holds (t / bytesPerSector)
    · obtain ⟨x, p, hp, hh⟩ := hheld
      have hfind := find_of_holds hs hp hh
      obtain ⟨pre, post, rfl, rfl⟩ : ∃ pre post, list = pre ++ p :: post ∧ x = pre.length :=
        ⟨_, _, SortedBatches.split_at hp,
          (List.length_take_of_le (List.getElem?_eq_some_iff.mp hp).1.le).symm⟩
      obtain ⟨hlo, hhi⟩ := hs.around
      have hwp := hs.batch p (by simp)
      have hend : p.endSector * 256 = p.startSector * 256 + p.data.length := hwp.endSector_eq
      have hsec : p.startSector ≤ t / 256 ∧ t / 256 < p.endSector := hh
      -- the runs below the batch end by `t`, those above it start after `t`
      have hbelow : ∀ r ∈ pre.map run, r.1 + r.2.length ≤ t := fun r hr => by
        obtain ⟨q, hq, rfl⟩ := List.mem_map.mp hr
        have := hlo q hq
        have := (hs.batch q (List.mem_append_left _ hq)).endSector_eq
        simp only [run, bytesPerSector_eq] at this ⊢
        omega
      have habove : ∀ r ∈ post.map run, t ≤ r.1 := fun r hr => by
        obtain ⟨q, hq, rfl⟩ := List.mem_map.mp hr
        have := hhi q hq
        simp only [run, bytesPerSector_eq]
        omega
      have htrunc : truncate (.incomplete (pre ++ p :: post)) t = some (.incomplete
          ((pre ++ ⟨p.startSector, p.data.take (t - p.startSector * bytesPerSector)⟩ :: post).take
            (if p.data.take (t - p.startSector * bytesPerSector) = [] then pre.length
              else pre.length + 1))) := by
        simp only [truncate, if_pos ht, hfind, Option.bind_some, hp, Option.map_some,
          set_length_append]
      by_cases hempty : t = p.startSector * bytesPerSector
      · -- the cut falls on the batch's start: it goes with everything after it
        rw [if_pos (by simp [hempty]),
          show ∀ q : PartialBatch, (pre ++ q :: post).take pre.length = pre from fun q => by simp]
          at htrunc
        refine ⟨_, htrunc, ⟨hs.left, not_full_of_le
          (fun q hq => (hlo q hq).le.trans hsec.1) hT⟩, ?_⟩
        simp only [contents, List.map_append, List.map_cons]
        refine (cut_denote_append hbelow fun r hr => ?_).symm
        rcases List.mem_cons.mp hr with rfl | hr
        · exact hempty.le
        · exact habove r hr
      · -- the batch keeps its sectors below the cut
        have hoff' : p.startSector * 256 ≤ t := by omega
        have hoff : p.startSector * bytesPerSector ≤ t := hoff'
        have hcut : (t - p.startSector * bytesPerSector) % bytesPerSector = 0 := by
          simp only [bytesPerSector_eq]
          omega
        have hlen : (p.data.take (t - p.startSector * bytesPerSector)).length =
            t - p.startSector * bytesPerSector := by
          rw [List.length_take]
          simp only [bytesPerSector_eq]
          omega
        have hne' : p.data.take (t - p.startSector * bytesPerSector) ≠ [] := fun h => by
          have := congrArg List.length h
          rw [hlen] at this
          simp only [List.length_nil, bytesPerSector_eq] at this hempty
          omega
        have hend' : PartialBatch.endSector
            ⟨p.startSector, p.data.take (t - p.startSector * bytesPerSector)⟩ = t / bytesPerSector := by
          rw [endSector, hlen, bytesToChunks_of_dvd hcut]
          simp only [bytesPerSector_eq]
          omega
        have hp' : PartialBatch.WF ⟨p.startSector, p.data.take (t - p.startSector * bytesPerSector)⟩ := by
          refine ⟨hne', ?_, ?_⟩
          · show (p.data.take _).length % bytesPerSector = 0
            rw [hlen]
            exact hcut
          · rw [hend']
            exact hT.le
        rw [if_neg hne', show ∀ q : PartialBatch,
          (pre ++ q :: post).take (pre.length + 1) = pre ++ [q] from fun q => by
            rw [List.take_length_add_append]; rfl] at htrunc
        refine ⟨_, htrunc, ⟨SortedBatches.insert hs.left .nil hp' hlo (by simp),
          not_full_of_le (fun q hq => ?_) hT⟩, ?_⟩
        · rcases List.mem_append.mp hq with hq | hq
          · exact (hlo q hq).le.trans hsec.1
          · rw [List.mem_singleton.mp hq, hend']
        · simp only [contents, List.map_append, List.map_cons, List.map_nil]
          exact (cut_denote_split hbelow habove hoff).symm
    · -- the cut falls on a missing sector: the batches after it go
      have hfree : ∀ p ∈ list, ¬ p.Holds (t / bytesPerSector) := fun p hp hh => by
        obtain ⟨i, hi, rfl⟩ := List.getElem_of_mem hp
        exact hheld ⟨i, _, List.getElem?_eq_getElem hi, hh⟩
      obtain ⟨pre, post, rfl, hfind, hpre, hpost⟩ := find_of_free hs hfree
      refine ⟨.incomplete pre, ?_, ⟨hs.left, not_full_of_le hpre hT⟩, ?_⟩
      · simp only [truncate, if_pos ht, hfind, Option.bind_some, List.take_left]
      · simp only [contents, List.map_append]
        refine (cut_denote_append (fun r hr => ?_) (fun r hr => ?_)).symm
        · obtain ⟨q, hq, rfl⟩ := List.mem_map.mp hr
          have h₁ := hpre q hq
          have h₂ := (hs.batch q (List.mem_append_left _ hq)).endSector_eq
          simp only [run, bytesPerSector_eq] at h₁ h₂ ⊢
          omega
        · obtain ⟨q, hq, rfl⟩ := List.mem_map.mp hr
          have := hpost q hq
          simp only [run, bytesPerSector_eq] at this ⊢
          omega

end Ops

end EntryBatchData

end Ionian.Storage
