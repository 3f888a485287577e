import Ionian.Storage.ChunkData
import Ionian.Extent.Basic

/-!
# Storage.Batches — what an `EntryBatchData` holds

A load holds the bytes of its batches: batch `p` stores `p.data` from byte
`p.start_sector * BYTES_PER_SECTOR` (`PartialBatch.run`), and a `Complete` load stores its data from
byte zero (`EntryBatchData.contents`).  The representation invariant (`EntryBatchData.WF`): the
batches of an `Incomplete` load are non-empty runs of whole sectors inside the load, ordered, with
a missing sector between any two (`SortedBatches`), and not a single batch of every sector; a
`Complete` load holds exactly `BYTES_PER_LOAD` bytes.  Under it `find` returns the batch holding a
sector, or the number of batches below it (`find_of_holds`, `find_of_free`), and `get` reads the
bytes the load holds (`get_eq_read`).
-/

namespace Ionian.Storage

open Extent

namespace PartialBatch

/-- The bytes the batch holds, from its first byte in the load. -/
def run (p : PartialBatch) : Nat × List UInt8 := (p.startSector * bytesPerSector, p.data)

/-- A non-empty run of whole sectors inside the load. -/
structure WF (p : PartialBatch) : Prop where
  nonempty : p.data ≠ []
  whole : p.data.length % bytesPerSector = 0
  inside : p.endSector ≤ sectorsPerLoad

/-- The batch holds sector `s`. -/
def Holds (p : PartialBatch) (s : Nat) : Prop := p.startSector ≤ s ∧ s < p.endSector

section WF

variable {p : PartialBatch}

theorem WF.endSector_eq (hp : p.WF) :
    p.endSector * bytesPerSector = p.startSector * bytesPerSector + p.data.length := by
  have h := hp.whole
  rw [endSector, bytesToChunks_of_dvd h]
  simp only [bytesPerSector_eq] at h ⊢
  omega

theorem WF.start_lt_end (hp : p.WF) : p.startSector < p.endSector := by
  have h := hp.endSector_eq
  have hlen : 0 < p.data.length := List.length_pos_iff.mpr hp.nonempty
  simp only [bytesPerSector_eq] at h
  omega

/-- A byte lies in the batch's run exactly when its sector is held. -/
theorem WF.mem_run_iff (hp : p.WF) {i : Nat} :
    (p.run.1 ≤ i ∧ i < p.run.1 + p.run.2.length) ↔ p.Holds (i / bytesPerSector) := by
  have h := hp.endSector_eq
  simp only [run, Holds, bytesPerSector_eq] at h ⊢
  omega

end WF

end PartialBatch

open PartialBatch

/-! ## Sorted batch lists -/

/-- The batches of an `Incomplete` load: well formed, ordered, a missing sector between any two. -/
structure SortedBatches (list : List PartialBatch) : Prop where
  batch : ∀ p ∈ list, p.WF
  gap : list.Pairwise fun p q => p.endSector < q.startSector

namespace SortedBatches

variable {list pre post : List PartialBatch} {p : PartialBatch}

theorem nil : SortedBatches [] := ⟨by simp, List.Pairwise.nil⟩

theorem starts (hs : SortedBatches list) :
    list.Pairwise fun p q => p.startSector < q.startSector :=
  hs.gap.imp_of_mem fun hp _ h => lt_trans (hs.batch _ hp).start_lt_end h

theorem left (hs : SortedBatches (pre ++ post)) : SortedBatches pre :=
  ⟨fun q hq => hs.batch q (List.mem_append_left _ hq), (List.pairwise_append.mp hs.gap).1⟩

theorem right (hs : SortedBatches (pre ++ post)) : SortedBatches post :=
  ⟨fun q hq => hs.batch q (List.mem_append_right _ hq), (List.pairwise_append.mp hs.gap).2.1⟩

/-- The batches before `p` end before it starts; those after start after it ends. -/
theorem around (hs : SortedBatches (pre ++ p :: post)) :
    (∀ q ∈ pre, q.endSector < p.startSector) ∧ (∀ q ∈ post, p.endSector < q.startSector) := by
  obtain ⟨-, hpost, hcross⟩ := List.pairwise_append.mp hs.gap
  exact ⟨fun q hq => hcross q hq p List.mem_cons_self, fun q hq => List.rel_of_pairwise_cons hpost hq⟩

/-- A batch between two sorted lists, apart from both. -/
theorem insert (hpre : SortedBatches pre) (hpost : SortedBatches post) (hp : p.WF)
    (hlo : ∀ q ∈ pre, q.endSector < p.startSector) (hhi : ∀ q ∈ post, p.endSector < q.startSector) :
    SortedBatches (pre ++ p :: post) := by
  refine ⟨fun q hq => ?_, List.pairwise_append.mpr ⟨hpre.gap, List.pairwise_cons.mpr ⟨hhi, hpost.gap⟩,
    fun a ha b hb => ?_⟩⟩
  · rcases List.mem_append.mp hq with hq | hq
    · exact hpre.batch q hq
    · rcases List.mem_cons.mp hq with rfl | hq
      · exact hp
      · exact hpost.batch q hq
  · have := hlo a ha
    have := hp.start_lt_end
    rcases List.mem_cons.mp hb with rfl | hb
    · omega
    · have := hhi b hb
      omega

/-- The batch list split at the batch in position `i`. -/
theorem split_at {i : Nat} (hp : list[i]? = some p) :
    list = list.take i ++ p :: list.drop (i + 1) := by
  obtain ⟨hi, rfl⟩ := List.getElem?_eq_some_iff.mp hp
  rw [← List.drop_eq_getElem_cons hi, List.take_append_drop]

/-- At most one batch holds a sector, and no batch holds the sector after another one. -/
theorem not_holds_endSector (hs : SortedBatches list) (hp : p ∈ list) :
    ∀ q ∈ list, ¬ q.Holds p.endSector := by
  obtain ⟨i, hi, rfl⟩ := List.getElem_of_mem hp
  intro q hq ⟨h₁, h₂⟩
  obtain ⟨j, hj, rfl⟩ := List.getElem_of_mem hq
  have hw := (hs.batch _ (List.getElem_mem hj)).start_lt_end
  rcases Nat.lt_trichotomy i j with hij | rfl | hij
  · have := List.pairwise_iff_getElem.mp hs.gap i j hi hj hij
    omega
  · omega
  · have := List.pairwise_iff_getElem.mp hs.gap j i hj hi hij
    have := (hs.batch _ (List.getElem_mem hi)).start_lt_end
    omega

end SortedBatches

/-! ## `find` -/

section Find

variable {list : List PartialBatch}

/-- `find` on the batch that holds the sector. -/
theorem find_of_holds (hs : SortedBatches list) {i s : Nat} {p : PartialBatch}
    (hp : list[i]? = some p) (hh : p.Holds s) : find list s = some (.ok i) := by
  have hi : i < list.length := (List.getElem?_eq_some_iff.mp hp).1
  have hsplit := SortedBatches.split_at hp
  obtain ⟨hlo, hhi⟩ := SortedBatches.around (hsplit ▸ hs)
  have hwp := hs.batch p (List.mem_of_getElem? hp)
  have hbelow : ∀ q ∈ list.take i, q.startSector < s := fun q hq => by
    have := hlo q hq
    have := (hs.batch q (List.mem_of_mem_take hq)).start_lt_end
    exact lt_of_lt_of_le (by omega) hh.1
  have habove : ∀ q ∈ list.drop (i + 1), s < q.startSector := fun q hq => by
    have := hhi q hq
    have := hh.2
    omega
  have hlen : (list.take i).length = i := List.length_take_of_le hi.le
  -- the search either matches `p`, or stops just after it
  have hsearch : possibleIndex (Slice.binarySearchByKey startSector s list) = some i := by
    rcases Nat.eq_or_lt_of_le hh.1 with heq | hlt
    · rw [hsplit, Slice.binarySearchByKey_append hbelow (fun q hq => by
        rcases List.mem_cons.mp hq with rfl | hq
        · exact heq.ge
        · exact (habove q hq).le)]
      simp [heq, hlen, possibleIndex]
    · rw [show list = list.take (i + 1) ++ list.drop (i + 1) from (List.take_append_drop _ _).symm,
        Slice.binarySearchByKey_append (fun q hq => ?_) (fun q hq => (habove q hq).le)]
      · cases hd : list.drop (i + 1) with
        | nil => simp [List.length_take_of_le hi, possibleIndex]
        | cons q rest =>
          have := habove q (by rw [hd]; exact List.mem_cons_self)
          simp [show q.startSector ≠ s by omega, List.length_take_of_le hi, possibleIndex]
      · rw [List.take_add_one, hp] at hq
        rcases List.mem_append.mp hq with hq | hq
        · exact hbelow q hq
        · simp only [Option.toList_some, List.mem_singleton] at hq
          rw [hq]
          exact hlt
  simp [find, hsearch, hp, hh.2]

/-- `find` on a sector no batch holds: the error carries the number of batches below it, where
the list splits. -/
theorem find_of_free (hs : SortedBatches list) {s : Nat} (hfree : ∀ p ∈ list, ¬ p.Holds s) :
    ∃ pre post, list = pre ++ post ∧ find list s = some (.error pre.length) ∧
      (∀ q ∈ pre, q.endSector ≤ s) ∧ (∀ q ∈ post, s < q.startSector) := by
  obtain ⟨pre, post, hsplit, hpre, hpost⟩ := Slice.exists_split_of_pairwise s hs.starts
  subst hsplit
  -- no batch starts at `s`, since it would hold it
  have hpost' : ∀ q ∈ post, s < q.startSector := fun q hq => by
    have hq' := List.mem_append_right pre hq
    have := hpost q hq
    have := (hs.batch q hq').start_lt_end
    by_contra hle
    exact hfree q hq' ⟨by omega, by omega⟩
  have hpre' : ∀ q ∈ pre, q.endSector ≤ s := fun q hq => by
    have := hpre q hq
    by_contra hlt
    exact hfree q (List.mem_append_left post hq) ⟨by omega, by omega⟩
  have hsearch : Slice.binarySearchByKey startSector s (pre ++ post) = .error pre.length := by
    rw [Slice.binarySearchByKey_append hpre hpost]
    cases post with
    | nil => simp
    | cons q rest => simp [show q.startSector ≠ s by have := hpost' q List.mem_cons_self; omega]
  refine ⟨pre, post, rfl, ?_, hpre', hpost'⟩
  unfold find
  rw [hsearch]
  cases hlen : pre.length with
  | zero => rfl
  | succ n =>
    -- the batch before the insertion point ends at or before `s`
    have hn : n < pre.length := by omega
    have hq := hpre' pre[n] (List.getElem_mem hn)
    simp [possibleIndex, List.getElem?_append_left hn, List.getElem?_eq_getElem hn,
      show ¬ s < pre[n].endSector by omega]

end Find

/-! ## What a load holds -/

namespace EntryBatchData

/-- The bytes of the load that are present. -/
def contents : EntryBatchData → Nat → Option UInt8
  | .complete data => fun i => data[i]?
  | .incomplete list => denote (list.map PartialBatch.run)

/-- A single batch of every sector. -/
def Full (list : List PartialBatch) : Prop :=
  ∃ p, list = [p] ∧ p.startSector = 0 ∧ p.endSector = sectorsPerLoad

/-- The representation invariant of a load. -/
def WF : EntryBatchData → Prop
  | .complete data => data.length = bytesPerLoad
  | .incomplete list => SortedBatches list ∧ ¬ Full list

def IsComplete : EntryBatchData → Prop
  | .complete _ => True
  | .incomplete _ => False

theorem new_wf : new.WF := ⟨SortedBatches.nil, fun ⟨_, h, _⟩ => by cases h⟩

section Contents

variable {list : List PartialBatch}

/-- A byte in a batch reads from that batch. -/
theorem denote_of_holds (hs : SortedBatches list) {i : Nat} {p : PartialBatch}
    (hp : list[i]? = some p) {x : Nat} (hx : p.Holds (x / bytesPerSector)) :
    denote (list.map run) x = p.data[x - p.startSector * bytesPerSector]? := by
  have hwp := hs.batch p (List.mem_of_getElem? hp)
  have hsplit := SortedBatches.split_at hp
  obtain ⟨hlo, -⟩ := SortedBatches.around (hsplit ▸ hs)
  have hpre : denote ((list.take i).map run) x = none := denote_eq_none fun r hr => by
    obtain ⟨q, hq, rfl⟩ := List.mem_map.mp hr
    rw [(hs.batch q (List.mem_of_mem_take hq)).mem_run_iff]
    have := hlo q hq
    exact fun ⟨_, h⟩ => by have := hx.1; omega
  have hin := (hwp.mem_run_iff).mpr hx
  rw [hsplit, List.map_append, List.map_cons, denote_append, hpre, Option.none_or]
  simp only [run] at hin ⊢
  have hlt : x - p.startSector * bytesPerSector < p.data.length := by omega
  rw [denote_cons, runAt_of_mem hin.1, List.getElem?_eq_getElem hlt]
  rfl

/-- A byte of a sector no batch holds is missing. -/
theorem denote_of_free (hs : SortedBatches list) {x : Nat}
    (hfree : ∀ p ∈ list, ¬ p.Holds (x / bytesPerSector)) : denote (list.map run) x = none :=
  denote_eq_none fun r hr => by
    obtain ⟨q, hq, rfl⟩ := List.mem_map.mp hr
    rw [(hs.batch q hq).mem_run_iff]
    exact hfree q hq

/-- The byte after a batch is missing. -/
theorem denote_endSector (hs : SortedBatches list) {p : PartialBatch} (hp : p ∈ list) :
    denote (list.map run) (p.endSector * bytesPerSector) = none :=
  denote_of_free hs fun q hq => by
    rw [Nat.mul_div_cancel _ (by decide)]
    exact hs.not_holds_endSector hp q hq

end Contents

/-! ## `get` -/

/-- `get` of a non-empty range inside the load reads the bytes the load holds: `Some` of them
exactly when all are present. -/
theorem get_eq_read {d : EntryBatchData} (hwf : d.WF) {b l : Nat} (hl : 0 < l)
    (hbl : b + l ≤ bytesPerLoad) : d.get b l = some (read d.contents b l) := by
  cases d with
  | complete data =>
    have hlen : data.length = bytesPerLoad := hwf
    have hslice : read (fun i => data[i]?) b l = some ((data.drop b).take l) :=
      read_eq_some_iff.mpr ⟨by simp; omega, fun j hj => by
        rw [List.getElem?_take_of_lt hj, List.getElem?_drop]⟩
    have hrange : Slice.getRange data b (b + l) = some ((data.drop b).take l) := by
      rw [Slice.getRange_eq_some (Nat.le_add_right b l) (by omega), Nat.add_sub_cancel_left]
    simp only [get, if_pos hbl, contents, hslice, hrange]
  | incomplete list =>
    have hs := hwf.1
    simp only [get, if_pos hbl, contents]
    by_cases hheld : ∃ i : Nat, ∃ p : PartialBatch, list[i]? = some p ∧ p.Holds (b / bytesPerSector)
    · obtain ⟨i, p, hp, hh⟩ := hheld
      have hwp := hs.batch p (List.mem_of_getElem? hp)
      -- the arithmetic of the batch's bytes, with `BYTES_PER_SECTOR = 256`
      have hend : p.endSector * 256 = p.startSector * 256 + p.data.length := hwp.endSector_eq
      have hsec : p.startSector ≤ b / 256 ∧ b / 256 < p.endSector := hh
      rw [find_of_holds hs hp hh, Option.bind_some]
      simp only [hp, Option.map_some, bytesPerSector_eq]
      congr 1
      by_cases hin : b - p.startSector * 256 + l ≤ p.data.length
      · -- the range lies in the batch
        rw [Slice.getRange_eq_some (Nat.le_add_right _ _) hin, Nat.add_sub_cancel_left]
        refine (read_eq_some_iff.mpr
          ⟨by rw [List.length_take, List.length_drop]; omega, fun j hj => ?_⟩).symm
        have hx : p.Holds ((b + j) / bytesPerSector) := by
          simp only [Holds, bytesPerSector_eq]
          omega
        rw [denote_of_holds hs hp hx, List.getElem?_take_of_lt hj, List.getElem?_drop,
          bytesPerSector_eq]
        congr 1
        omega
      · -- the range runs past the batch, onto the missing sector after it
        rw [Slice.getRange_eq_none (by omega)]
        refine (read_eq_none_iff.mpr ⟨p.endSector * 256 - b, by omega, ?_⟩).symm
        rw [show b + (p.endSector * 256 - b) = p.endSector * bytesPerSector by
          simp only [bytesPerSector_eq]; omega]
        exact denote_endSector hs (List.mem_of_getElem? hp)
    · -- the first byte is missing
      have hfree : ∀ p ∈ list, ¬ p.Holds (b / bytesPerSector) := fun p hp hh => by
        obtain ⟨i, hi, rfl⟩ := List.getElem_of_mem hp
        exact hheld ⟨i, _, List.getElem?_eq_getElem hi, hh⟩
      obtain ⟨pre, post, -, hfind, -, -⟩ := find_of_free hs hfree
      rw [hfind, Option.bind_some]
      refine congrArg some (read_eq_none_iff.mpr ⟨0, hl, ?_⟩).symm
      rw [Nat.add_zero]
      exact denote_of_free hs hfree

/-- `get` of the empty range at a missing byte is `None`, though the range has no byte to miss. -/
theorem get_empty_range_missing :
    new.get 0 0 = some none ∧ ∀ i, 0 ≤ i → i < 0 + 0 → (new.contents i).isSome :=
  ⟨by decide, fun i _ h => absurd h (Nat.not_lt_zero i)⟩

end EntryBatchData

end Ionian.Storage
