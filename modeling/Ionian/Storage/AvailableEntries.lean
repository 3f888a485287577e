import Ionian.Storage.Padding
import Ionian.Storage.BatchIter
import Ionian.Storage.EntryBatchOps

/-!
# Storage.AvailableEntries — the present entries of a range of loads

`get_available_entries(start, end)` takes the loads of a range of whole loads one after another.
For each stored load, `into_data_list` reads every present run of the load with
`get_unsealed_data`, and the loop appends the chunk arrays to its list, the first one onto the
last array of the list when it starts where that one ends.

With no seal sealed in the range, the arrays hold whole entries, in increasing order with a
missing entry between any two; they hold exactly the present entries of the range, and the bytes
the flow stores there (`getAvailableEntries_unsealed`).  The proof follows the loop: the runs of
a load are sorted arrays inside the load that read as the load's bytes (`arrays_sortedArrays`,
`denote_loadArrays`), and appending them keeps the list sorted and reads as the two lists one
after the other (`pushDataList_spec`).

A read from a seal boundary does not unseal the first seal it reads (`Storage.SealRead`), and
`into_data_list` reads each run from its start.  A run that starts at a sealed seal is returned
with the sealed bytes of that seal, which differ from the unsealed ones for every first mask that
is not zero (`getAvailableEntries_sealed_seal`).
-/

namespace Ionian.Storage

open Extent PartialBatch

namespace EntryBatch

variable (keccak : List UInt8 → H256)

/-- `EntryBatch::into_data_list(global_start_entry)`: a chunk array for every present run of the
load; the `unwrap` of the read panics on a missing byte. -/
def intoDataList (b : EntryBatch) (globalStartEntry : Nat) : Option (List ChunkArray) :=
  b.data.availableRangeEntries.mapM fun (startEntry, lengthEntry) =>
    (b.getUnsealedData keccak startEntry lengthEntry).bind fun r =>
      r.map fun data => ⟨data, globalStartEntry + startEntry⟩

end EntryBatch

namespace FlowStore

variable (keccak : List UInt8 → H256)

/-- The merge of `get_available_entries`: the first array of a load joins the last array of the
list when it starts where that one ends, and the other arrays are pushed. -/
def pushDataList (entryList : List ChunkArray) (first : ChunkArray) (others : List ChunkArray) :
    List ChunkArray :=
  match entryList.getLast? with
  | some last =>
    if last.startIndex + bytesToEntries last.data.length = first.startIndex then
      entryList.dropLast ++ { last with data := last.data ++ first.data } :: others
    else entryList ++ first :: others
  | none => entryList ++ first :: others

/-- The loop of `get_available_entries` over the loads of the range. -/
def availableEntriesLoop (s : FlowStore) :
    List (Nat × Nat) → List ChunkArray → Option (List ChunkArray)
  | [], entryList => some entryList
  | (startEntryIndex, _) :: rest, entryList =>
    let chunkIndex := startEntryIndex / sectorsPerLoad
    match s.getEntryBatch chunkIndex with
    | none => availableEntriesLoop s rest entryList
    | some b =>
      (b.intoDataList keccak startEntryIndex).bind fun dataList =>
        match dataList with
        | [] => availableEntriesLoop s rest entryList
        | first :: others => availableEntriesLoop s rest (pushDataList entryList first others)

/-- `FlowRead::get_available_entries(index_start, index_end)`: both ends at load boundaries. -/
def getAvailableEntries (s : FlowStore) (indexStart indexEnd : Nat) :
    Option (Except String (List ChunkArray)) :=
  if indexEnd ≤ indexStart ∨ indexStart % sectorsPerLoad ≠ 0 ∨ indexEnd % sectorsPerLoad ≠ 0 then
    some (.error ("invalid entry index: start=" ++ toString indexStart ++ " end=" ++
      toString indexEnd))
  else
    (batchIter indexStart indexEnd sectorsPerLoad).bind fun batches =>
    (availableEntriesLoop keccak s batches []).map .ok

end FlowStore

/-! ## What the arrays hold -/

/-- The bytes of a chunk array, from its first byte in the flow. -/
def ChunkArray.run (a : ChunkArray) : Nat × List UInt8 := (a.startIndex * entrySize, a.data)

/-- The bytes the flow stores: byte `x` is the byte `x % BYTES_PER_LOAD` of the load
`x / BYTES_PER_LOAD`. -/
def FlowStore.contents (s : FlowStore) (x : Nat) : Option UInt8 :=
  (s.getEntryBatch (x / bytesPerLoad)).bind fun b => b.data.contents (x % bytesPerLoad)

/-- The present runs of a load as chunk arrays, from the load's first entry `globalStartEntry`. -/
def EntryBatchData.arrays (d : EntryBatchData) (globalStartEntry : Nat) : List ChunkArray :=
  match d with
  | .complete data => [⟨data, globalStartEntry⟩]
  | .incomplete list => list.map fun p => ⟨p.data, globalStartEntry + p.startSector⟩

/-- The arrays of the load `k`, none when it is not stored. -/
def FlowStore.loadArrays (s : FlowStore) (k : Nat) : List ChunkArray :=
  match s.getEntryBatch k with
  | none => []
  | some b => b.data.arrays (k * sectorsPerLoad)

/-- The list after the arrays of one load: the loop's two cases on `data_list`. -/
def FlowStore.pushArrays (entryList : List ChunkArray) : List ChunkArray → List ChunkArray
  | [] => entryList
  | first :: others => FlowStore.pushDataList entryList first others

/-- A well-formed load in which no seal is sealed. -/
structure EntryBatch.Plain (b : EntryBatch) : Prop where
  wf : b.data.WF
  unsealed : ∀ x, b.sealInfo.isSealed x = false

/-- Chunk arrays of whole entries, in increasing order, with a missing entry between any two. -/
structure SortedArrays (list : List ChunkArray) : Prop where
  whole : ∀ a ∈ list, a.data ≠ [] ∧ a.data.length % entrySize = 0
  gap : list.Pairwise fun a c => a.entryEnd < c.startIndex

namespace ChunkArray

theorem entryEnd_mul {a : ChunkArray} (h : a.data.length % entrySize = 0) :
    a.entryEnd * entrySize = a.startIndex * entrySize + a.data.length := by
  unfold entryEnd bytesToEntries
  rw [if_pos h]
  simp only [entrySize] at h ⊢
  omega

theorem start_lt_entryEnd {a : ChunkArray} (h : a.data ≠ [] ∧ a.data.length % entrySize = 0) :
    a.startIndex < a.entryEnd := by
  have hend := entryEnd_mul h.2
  have hpos := List.length_pos_iff.mpr h.1
  simp only [entrySize] at hend
  omega

end ChunkArray

namespace SortedArrays

variable {xs ys : List ChunkArray}

theorem nil : SortedArrays [] := ⟨by simp, List.Pairwise.nil⟩

theorem append (hx : SortedArrays xs) (hy : SortedArrays ys)
    (hcross : ∀ a ∈ xs, ∀ c ∈ ys, a.entryEnd < c.startIndex) : SortedArrays (xs ++ ys) :=
  ⟨fun a ha => (List.mem_append.mp ha).elim (hx.whole a) (hy.whole a),
    List.pairwise_append.mpr ⟨hx.gap, hy.gap, hcross⟩⟩

/-- The arrays after the first one start after it. -/
theorem head_le {first : ChunkArray} (h : SortedArrays (first :: xs)) :
    ∀ c ∈ first :: xs, first.startIndex ≤ c.startIndex := by
  intro c hc
  rcases List.mem_cons.mp hc with rfl | hc
  · exact le_rfl
  · have hlt := List.rel_of_pairwise_cons h.gap hc
    have := ChunkArray.start_lt_entryEnd (h.whole _ List.mem_cons_self)
    omega

/-- The runs of sorted arrays each end before the next one starts. -/
theorem runs_disjoint (h : SortedArrays xs) :
    (xs.map ChunkArray.run).Pairwise fun r t => r.1 + r.2.length ≤ t.1 := by
  rw [List.pairwise_map]
  refine h.gap.imp_of_mem fun {a c} ha _ hac => ?_
  have hend := ChunkArray.entryEnd_mul (h.whole a ha).2
  simp only [ChunkArray.run, entrySize] at hend ⊢
  omega

/-- An array holds entry `e` exactly when the runs hold the first byte of `e`. -/
theorem mem_iff_isSome (h : SortedArrays xs) (e : Nat) :
    (∃ a ∈ xs, a.startIndex ≤ e ∧ e < a.entryEnd) ↔
      (denote (xs.map ChunkArray.run) (e * entrySize)).isSome := by
  simp only [isSome_denote_iff, List.mem_map, exists_exists_and_eq_and]
  refine exists_congr fun a => and_congr_right fun ha => ?_
  have hend := ChunkArray.entryEnd_mul (h.whole a ha).2
  simp only [ChunkArray.run, entrySize] at hend ⊢
  omega

end SortedArrays

/-! ## Reading a load with no seal sealed -/

namespace EntryBatchData

/-- `get` of the range of a batch returns the batch's bytes. -/
theorem get_run {list : List PartialBatch} (hwf : (EntryBatchData.incomplete list).WF)
    {p : PartialBatch} (hp : p ∈ list) :
    (EntryBatchData.incomplete list).get (p.startSector * bytesPerSector)
      (p.data.length / bytesPerSector * bytesPerSector) = some (some p.data) := by
  have hs : SortedBatches list := hwf.1
  have hwp := hs.batch p hp
  have hpos : 0 < p.data.length := List.length_pos_iff.mpr hwp.nonempty
  -- the batch ends inside the load
  have hinside : p.startSector * bytesPerSector + p.data.length ≤ bytesPerLoad := by
    rw [← hwp.endSector_eq]
    exact (Nat.mul_le_mul_right _ hwp.inside).trans (by decide)
  obtain ⟨i, hi, hpi⟩ := List.getElem_of_mem hp
  have hpi' : list[i]? = some p := List.getElem?_eq_some_iff.mpr ⟨hi, hpi⟩
  rw [Nat.div_mul_cancel (Nat.dvd_of_mod_eq_zero hwp.whole), get_eq_read hwf hpos hinside]
  refine congrArg some (read_eq_some_iff.mpr ⟨rfl, fun j hj => ?_⟩)
  -- the byte `j` of the run lies in a sector the batch holds
  have hx : p.Holds ((p.startSector * bytesPerSector + j) / bytesPerSector) := by
    have hend := hwp.endSector_eq
    simp only [Holds, bytesPerSector_eq] at hend ⊢
    omega
  rw [contents, denote_of_holds hs hpi' hx, Nat.add_sub_cancel_left]

/-- A load holds no byte past its end. -/
theorem contents_eq_none_of_le {d : EntryBatchData} (hwf : d.WF) {y : Nat}
    (hy : bytesPerLoad ≤ y) : d.contents y = none := by
  cases d with
  | complete data =>
    have hlen : data.length = bytesPerLoad := hwf
    exact List.getElem?_eq_none (by omega)
  | incomplete list =>
    refine denote_eq_none fun r hr => ?_
    obtain ⟨q, hq, rfl⟩ := List.mem_map.mp hr
    have hwq := hwf.1.batch q hq
    have hend : q.endSector * 256 = q.startSector * 256 + q.data.length := hwq.endSector_eq
    have hinside : q.endSector ≤ 1024 := hwq.inside
    simp only [run, bytesPerLoad_eq, bytesPerSector_eq] at hy hend ⊢
    omega

/-- The arrays of a load are sorted and lie in the load. -/
theorem arrays_sortedArrays {d : EntryBatchData} (hwf : d.WF) (g : Nat) :
    SortedArrays (d.arrays g) ∧
      ∀ a ∈ d.arrays g, g ≤ a.startIndex ∧ a.entryEnd ≤ g + sectorsPerLoad := by
  cases d with
  | complete data =>
    have hlen : data.length = bytesPerLoad := hwf
    have hend : (⟨data, g⟩ : ChunkArray).entryEnd = g + sectorsPerLoad := by
      simp [ChunkArray.entryEnd, hlen, bytesToEntries, entrySize]
    refine ⟨⟨fun a ha => ?_, List.pairwise_singleton _ _⟩, fun a ha => ?_⟩ <;>
      rw [arrays, List.mem_singleton] at ha <;> subst ha
    · refine ⟨List.ne_nil_of_length_pos (by simp [hlen]), ?_⟩
      simp [hlen, entrySize]
    · exact ⟨le_rfl, hend.le⟩
  | incomplete list =>
    have hs : SortedBatches list := hwf.1
    -- an array of a batch ends where the batch does
    have hend : ∀ p ∈ list, (⟨p.data, g + p.startSector⟩ : ChunkArray).entryEnd = g + p.endSector :=
      fun p _ => by
        rw [ChunkArray.entryEnd, bytesToEntries_eq_bytesToChunks, endSector, Nat.add_assoc]
    refine ⟨⟨fun a ha => ?_, ?_⟩, fun a ha => ?_⟩
    · obtain ⟨p, hp, rfl⟩ := List.mem_map.mp ha
      exact ⟨(hs.batch p hp).nonempty, (hs.batch p hp).whole⟩
    · rw [arrays, List.pairwise_map]
      refine hs.gap.imp_of_mem fun {p q} hp _ hpq => ?_
      rw [hend p hp]
      show g + p.endSector < g + q.startSector
      omega
    · obtain ⟨p, hp, rfl⟩ := List.mem_map.mp ha
      rw [hend p hp]
      exact ⟨Nat.le_add_right g _, by have := (hs.batch p hp).inside; omega⟩

/-- The arrays of a load read as the load's bytes from its first byte in the flow. -/
theorem denote_arrays (d : EntryBatchData) (g x : Nat) :
    denote ((d.arrays g).map ChunkArray.run) x =
      if g * entrySize ≤ x then d.contents (x - g * entrySize) else none := by
  cases d with
  | complete data =>
    simp only [arrays, List.map_cons, List.map_nil, ChunkArray.run, denote_cons, denote_nil,
      Option.or_none, runAt, contents]
  | incomplete list =>
    -- the runs of the arrays are the batches' runs moved up by the load's first byte
    have hruns : ((EntryBatchData.incomplete list).arrays g).map ChunkArray.run =
        (list.map run).map fun r => (g * entrySize + r.1, r.2) := by
      simp only [arrays, List.map_map]
      refine List.map_congr_left fun p _ => ?_
      simp only [Function.comp, ChunkArray.run, run, entrySize, bytesPerSector_eq, Nat.add_mul]
    rw [hruns, denote_shift]
    rfl

end EntryBatchData

namespace EntryBatch

variable (keccak : List UInt8 → H256)

/-- With no seal sealed, the loop of `get_unsealed_data` leaves every chunk as it is. -/
theorem unsealChunks_of_unsealed (b : EntryBatch) (hns : ∀ x, b.sealInfo.isSealed x = false) :
    ∀ n startSeal (data : List UInt8), data.length ≤ n * bytesPerSeal →
      b.unsealChunks keccak startSeal n data = some data := by
  intro n
  induction n with
  | zero =>
    intro startSeal data hlen
    have : data = [] := List.eq_nil_of_length_eq_zero (by simpa using hlen)
    subst this
    rfl
  | succ n ih =>
    intro startSeal data hlen
    have hchunk : b.sealInfo.unsealAt keccak (data.take bytesPerSeal) (asU16 startSeal) =
        some (data.take bytesPerSeal) := by
      simp [SealInfo.unsealAt, hns]
    have hrest : (data.drop bytesPerSeal).length ≤ n * bytesPerSeal := by
      rw [List.length_drop]
      rw [Nat.succ_mul] at hlen
      omega
    rw [unsealChunks, hchunk, Option.bind_some, ih (startSeal + 1) _ hrest, Option.map_some,
      List.take_append_drop]

/-- With no seal sealed, `get_unsealed_data` is `get` of the bytes. -/
theorem getUnsealedData_of_unsealed (b : EntryBatch) (hns : ∀ x, b.sealInfo.isSealed x = false)
    (startSector lengthSector : Nat) :
    b.getUnsealedData keccak startSector lengthSector =
      b.data.get (startSector * bytesPerSector) (lengthSector * bytesPerSector) := by
  unfold getUnsealedData
  simp only [hns, ite_self, Bool.false_eq_true, if_false]
  cases hget : b.data.get (startSector * bytesPerSector) (lengthSector * bytesPerSector) with
  | none => rfl
  | some r =>
    cases r with
    | none => rfl
    | some xs =>
      simp only [Option.map_some, Option.bind_some]
      split_ifs with hlong
      · rw [unsealChunks_of_unsealed keccak b hns _ _ _ (by simp only [bytesPerSeal_eq]; omega),
          Option.map_some, List.take_append_drop]
      · rfl

/-- A plain load's list of arrays is its runs, with their stored bytes. -/
theorem intoDataList_of_plain {b : EntryBatch} (hb : b.Plain) (g : Nat) :
    b.intoDataList keccak g = some (b.data.arrays g) := by
  have hwf := hb.wf
  unfold intoDataList
  simp only [getUnsealedData_of_unsealed keccak b hb.unsealed]
  cases hd : b.data with
  | complete data =>
    rw [hd] at hwf
    have hlen : data.length = bytesPerLoad := hwf
    have hget : (EntryBatchData.complete data).get 0 bytesPerLoad = some (some data) := by
      rw [EntryBatchData.get_eq_read hwf (by decide) (by simp)]
      exact congrArg some (read_eq_some_iff.mpr ⟨hlen, fun j _ => by simp [EntryBatchData.contents]⟩)
    have hrange : data.length / bytesPerSector * bytesPerSector = bytesPerLoad := by
      rw [hlen]
      rfl
    simp only [EntryBatchData.availableRangeEntries, List.mapM_cons, List.mapM_nil, Nat.zero_mul,
      hrange, hget, EntryBatchData.arrays]
    rfl
  | incomplete list =>
    rw [hd] at hwf
    rw [EntryBatchData.availableRangeEntries, List.mapM_map, EntryBatchData.arrays]
    refine mapM_eq_some_of_forall fun p hp => ?_
    simp only [Function.comp_apply]
    rw [EntryBatchData.get_run hwf hp]
    rfl

end EntryBatch

/-! ## The loop -/

namespace FlowStore

/-- An array and the one that starts where it ends read as their concatenation. -/
theorem denote_join (pre post : List ChunkArray) {last first : ChunkArray}
    (hmeet : last.startIndex * entrySize + last.data.length = first.startIndex * entrySize) :
    denote ((pre ++ { last with data := last.data ++ first.data } :: post).map ChunkArray.run) =
      denote ((pre ++ last :: first :: post).map ChunkArray.run) := by
  funext i
  simp [denote_append, ChunkArray.run, runAt_append, hmeet, Option.or_assoc]

/-- **The merge keeps the list sorted.**  Appending sorted arrays that start at or after the end
of a sorted list, the first one onto the last array when they meet, gives a sorted list that
reads as the two lists, each of whose arrays ends where one of the two lists' arrays does. -/
theorem pushDataList_spec {acc others : List ChunkArray} {first : ChunkArray}
    (hacc : SortedArrays acc) (hnew : SortedArrays (first :: others))
    (hsep : ∀ a ∈ acc, a.entryEnd ≤ first.startIndex) :
    SortedArrays (pushDataList acc first others) ∧
      denote ((pushDataList acc first others).map ChunkArray.run) =
        denote ((acc ++ first :: others).map ChunkArray.run) ∧
      ∀ c ∈ pushDataList acc first others, ∃ a ∈ acc ++ first :: others, c.entryEnd = a.entryEnd := by
  have hhead := hnew.head_le
  have hfirst := hnew.whole first List.mem_cons_self
  unfold pushDataList
  cases hlast : acc.getLast? with
  | none =>
    obtain rfl := List.getLast?_eq_none_iff.mp hlast
    exact ⟨hnew, rfl, fun c hc => ⟨c, hc, rfl⟩⟩
  | some last =>
    -- the list is its arrays before the last one, then the last one
    have hsplit : acc.dropLast ++ [last] = acc := List.dropLast_append_getLast? last hlast
    have hgap := hsplit ▸ hacc.gap
    have hlastw := hacc.whole last (hsplit ▸ List.mem_append_right _ List.mem_cons_self)
    have hbefore : ∀ a ∈ acc.dropLast, a.entryEnd < last.startIndex := fun a ha =>
      (List.pairwise_append.mp hgap).2.2 a ha last List.mem_cons_self
    have hpre : SortedArrays acc.dropLast :=
      ⟨fun a ha => hacc.whole a (List.mem_of_mem_dropLast ha), (List.pairwise_append.mp hgap).1⟩
    have hlast_le := hsep last (hsplit ▸ List.mem_append_right _ List.mem_cons_self)
    dsimp only
    by_cases hmeet : last.startIndex + bytesToEntries last.data.length = first.startIndex
    · rw [if_pos hmeet]
      -- the joined array: the bytes of both, ending where `first` ends
      have hbytes : last.startIndex * entrySize + last.data.length = first.startIndex * entrySize := by
        rw [← ChunkArray.entryEnd_mul hlastw.2]
        exact congrArg (· * entrySize) hmeet
      have hjw : ({ last with data := last.data ++ first.data } : ChunkArray).data ≠ [] ∧
          ({ last with data := last.data ++ first.data } : ChunkArray).data.length % entrySize = 0 := by
        refine ⟨by simp [hlastw.1], ?_⟩
        have := hlastw.2
        have := hfirst.2
        simp only [List.length_append, entrySize] at *
        omega
      have hjend : ({ last with data := last.data ++ first.data } : ChunkArray).entryEnd =
          first.entryEnd := by
        have h₁ := ChunkArray.entryEnd_mul hjw.2
        have h₂ := ChunkArray.entryEnd_mul hfirst.2
        simp only [List.length_append, entrySize] at h₁ h₂ hbytes
        omega
      have hjoined : SortedArrays ({ last with data := last.data ++ first.data } :: others) := by
        refine ⟨fun c hc => ?_, List.pairwise_cons.mpr ⟨fun c hc => ?_, (List.pairwise_cons.mp hnew.gap).2⟩⟩
        · rcases List.mem_cons.mp hc with rfl | hc
          · exact hjw
          · exact hnew.whole c (List.mem_cons_of_mem _ hc)
        · rw [hjend]
          exact List.rel_of_pairwise_cons hnew.gap hc
      refine ⟨hpre.append hjoined fun a ha c hc => lt_of_lt_of_le (hbefore a ha) (hjoined.head_le c hc),
        ?_, fun c hc => ?_⟩
      · have hsame : acc ++ first :: others = acc.dropLast ++ last :: first :: others := by
          conv_lhs => rw [← hsplit]
          rw [List.append_assoc, List.singleton_append]
        rw [denote_join _ _ hbytes, hsame]
      · rcases List.mem_append.mp hc with hc | hc
        · exact ⟨c, List.mem_append_left _ (List.mem_of_mem_dropLast hc), rfl⟩
        · rcases List.mem_cons.mp hc with rfl | hc
          · exact ⟨first, List.mem_append_right _ List.mem_cons_self, hjend⟩
          · exact ⟨c, List.mem_append_right _ (List.mem_cons_of_mem _ hc), rfl⟩
    · rw [if_neg hmeet]
      -- apart: every array of the list ends before `first` starts
      have hlt : ∀ a ∈ acc, a.entryEnd < first.startIndex := by
        intro a ha
        rw [← hsplit] at ha
        rcases List.mem_append.mp ha with ha | ha
        · have := hbefore a ha
          have := ChunkArray.start_lt_entryEnd hlastw
          omega
        · rw [List.mem_singleton.mp ha]
          exact lt_of_le_of_ne hlast_le hmeet
      exact ⟨hacc.append hnew fun a ha c hc => lt_of_lt_of_le (hlt a ha) (hhead c hc), rfl,
        fun c hc => ⟨c, hc, rfl⟩⟩

/-- The merge for a possibly empty list of arrays. -/
theorem pushArrays_spec {acc new : List ChunkArray} (hacc : SortedArrays acc)
    (hnew : SortedArrays new) (hsep : ∀ a ∈ acc, ∀ c ∈ new, a.entryEnd ≤ c.startIndex) :
    SortedArrays (pushArrays acc new) ∧
      denote ((pushArrays acc new).map ChunkArray.run) = denote ((acc ++ new).map ChunkArray.run) ∧
      ∀ c ∈ pushArrays acc new, ∃ a ∈ acc ++ new, c.entryEnd = a.entryEnd := by
  cases new with
  | nil => exact ⟨hacc, by rw [List.append_nil]; rfl, fun c hc => ⟨c, List.mem_append_left _ hc, rfl⟩⟩
  | cons first others => exact pushDataList_spec hacc hnew fun a ha => hsep a ha first List.mem_cons_self

/-- The arrays of a stored load are sorted and lie in the load. -/
theorem loadArrays_sortedArrays (s : FlowStore) (k : Nat)
    (hwf : ∀ b, s.getEntryBatch k = some b → b.data.WF) :
    SortedArrays (s.loadArrays k) ∧ ∀ a ∈ s.loadArrays k,
      k * sectorsPerLoad ≤ a.startIndex ∧ a.entryEnd ≤ (k + 1) * sectorsPerLoad := by
  unfold loadArrays
  cases hb : s.getEntryBatch k with
  | none => exact ⟨SortedArrays.nil, by simp⟩
  | some b =>
    obtain ⟨hsorted, hinside⟩ := EntryBatchData.arrays_sortedArrays (hwf b hb) (k * sectorsPerLoad)
    exact ⟨hsorted, fun a ha => by rw [Nat.succ_mul]; exact hinside a ha⟩

/-- The arrays of a load read as the flow's bytes in the load. -/
theorem denote_loadArrays (s : FlowStore) (k : Nat)
    (hwf : ∀ b, s.getEntryBatch k = some b → b.data.WF) :
    denote ((s.loadArrays k).map ChunkArray.run) =
      restrict s.contents (k * bytesPerLoad) ((k + 1) * bytesPerLoad) := by
  funext x
  unfold loadArrays restrict
  cases hb : s.getEntryBatch k with
  | none =>
    rw [List.map_nil, denote_nil]
    split_ifs with hx
    · -- the load of `x` is `k`, which is not stored
      have hdiv : x / bytesPerLoad = k := by
        simp only [bytesPerLoad_eq] at hx ⊢
        omega
      rw [contents, hdiv, hb, Option.bind_none]
    · rfl
  | some b =>
    have hg : k * sectorsPerLoad * entrySize = k * bytesPerLoad := by
      simp only [sectorsPerLoad_eq, bytesPerLoad_eq, entrySize]
      omega
    rw [EntryBatchData.denote_arrays, hg]
    by_cases hlo : k * bytesPerLoad ≤ x
    · by_cases hhi : x < (k + 1) * bytesPerLoad
      · -- `x` lies in the load `k`
        have hdiv : x / bytesPerLoad = k := by
          simp only [bytesPerLoad_eq] at hlo hhi ⊢
          omega
        have hmod : x % bytesPerLoad = x - k * bytesPerLoad := by
          simp only [bytesPerLoad_eq] at hlo hhi ⊢
          omega
        rw [if_pos hlo, if_pos ⟨hlo, hhi⟩, contents, hdiv, hb, Option.bind_some, hmod]
      · -- past the load, which holds nothing there
        rw [if_pos hlo, if_neg fun h => hhi h.2]
        refine EntryBatchData.contents_eq_none_of_le (hwf b hb) ?_
        simp only [bytesPerLoad_eq] at hhi ⊢
        omega
    · rw [if_neg hlo, if_neg fun h => hlo h.1]

variable (keccak : List UInt8 → H256)

/-- One load of the loop: its arrays are pushed, or none when it is missing or holds nothing. -/
theorem availableEntriesLoop_cons (s : FlowStore) (k e : Nat) (rest : List (Nat × Nat))
    (acc : List ChunkArray) (hk : ∀ b, s.getEntryBatch k = some b → b.Plain) :
    s.availableEntriesLoop keccak ((k * sectorsPerLoad, e) :: rest) acc =
      s.availableEntriesLoop keccak rest (pushArrays acc (s.loadArrays k)) := by
  have hidx : k * sectorsPerLoad / sectorsPerLoad = k := Nat.mul_div_cancel k (by decide)
  rw [availableEntriesLoop]
  simp only [hidx, loadArrays]
  cases hb : s.getEntryBatch k with
  | none => rfl
  | some b =>
    simp only [EntryBatch.intoDataList_of_plain keccak (hk b hb), Option.bind_some]
    cases b.data.arrays (k * sectorsPerLoad) <;> rfl

/-- **The loop over loads `k, …, k + n - 1`.**  From a sorted list that ends by the load `k`, with
every load of the range plain, the loop returns a sorted list that ends by the load `k + n` and
reads as the list, then the flow's bytes in the loads. -/
theorem availableEntriesLoop_spec (s : FlowStore) (n : Nat) :
    ∀ k acc, (∀ k' b, k ≤ k' → k' < k + n → s.getEntryBatch k' = some b → b.Plain) →
      SortedArrays acc → (∀ a ∈ acc, a.entryEnd ≤ k * sectorsPerLoad) →
      ∃ out, s.availableEntriesLoop keccak
          ((List.range' k n).map fun k => (k * sectorsPerLoad, (k + 1) * sectorsPerLoad)) acc =
            some out ∧
        SortedArrays out ∧ (∀ a ∈ out, a.entryEnd ≤ (k + n) * sectorsPerLoad) ∧
        ∀ x, denote (out.map ChunkArray.run) x =
          (denote (acc.map ChunkArray.run) x).or
            (restrict s.contents (k * bytesPerLoad) ((k + n) * bytesPerLoad) x) := by
  induction n with
  | zero =>
    intro k acc _ hacc hbound
    refine ⟨acc, rfl, hacc, by simpa using hbound, fun x => ?_⟩
    rw [Nat.add_zero, restrict, if_neg (by omega), Option.or_none]
  | succ n ih =>
    intro k acc hplain hacc hbound
    -- the load `k`, then the loads from `k + 1`
    have hk : ∀ b, s.getEntryBatch k = some b → b.Plain := fun b hb =>
      hplain k b le_rfl (by omega) hb
    obtain ⟨hsorted, hinside⟩ := loadArrays_sortedArrays s k fun b hb => (hk b hb).wf
    obtain ⟨hacc', hden', hend'⟩ := pushArrays_spec hacc hsorted fun a ha c hc =>
      (hbound a ha).trans (hinside c hc).1
    have hbound' : ∀ a ∈ pushArrays acc (s.loadArrays k), a.entryEnd ≤ (k + 1) * sectorsPerLoad := by
      intro c hc
      obtain ⟨a, ha, heq⟩ := hend' c hc
      rw [heq]
      rcases List.mem_append.mp ha with ha | ha
      · exact (hbound a ha).trans (Nat.mul_le_mul_right _ (Nat.le_succ k))
      · exact (hinside a ha).2
    obtain ⟨out, hloop, hout, houtb, hden⟩ := ih (k + 1) _
      (fun k' b h₁ h₂ => hplain k' b (by omega) (by omega)) hacc' hbound'
    refine ⟨out, ?_, hout, by rwa [show k + (n + 1) = k + 1 + n by omega], fun x => ?_⟩
    · rw [List.range'_succ, List.map_cons, availableEntriesLoop_cons keccak s k _ _ acc hk]
      exact hloop
    · rw [hden x, hden', List.map_append, denote_append, denote_loadArrays s k fun b hb => (hk b hb).wf,
        Option.or_assoc, restrict_or_restrict _ (Nat.mul_le_mul_right _ (Nat.le_succ k))
          (Nat.mul_le_mul_right _ (by omega)), show k + 1 + n = k + (n + 1) by omega]

end FlowStore

/-- A range that ends at a load boundary within `u64` does not overflow `batch_iter`. -/
theorem batchIter_eq_some_of_load_end {indexStart indexEnd : Nat}
    (hend : indexEnd % sectorsPerLoad = 0) (hfit : indexEnd < 2 ^ 64) :
    batchIter indexStart indexEnd sectorsPerLoad =
      some (batchPairs indexStart indexEnd sectorsPerLoad) := by
  refine batchIter_eq_some (by decide) ?_
  rwa [ceilDiv_mul_of_dvd (by decide) (Nat.dvd_of_mod_eq_zero hend)]

/-- The pairs of a range of whole loads are the loads of the range. -/
theorem batchPairs_loads {indexStart indexEnd : Nat} (hstart : indexStart % sectorsPerLoad = 0)
    (hend : indexEnd % sectorsPerLoad = 0) :
    batchPairs indexStart indexEnd sectorsPerLoad =
      (List.range' (indexStart / sectorsPerLoad)
        (indexEnd / sectorsPerLoad - indexStart / sectorsPerLoad)).map
          fun k => (k * sectorsPerLoad, (k + 1) * sectorsPerLoad) := by
  have hlen : (batchPairs indexStart indexEnd sectorsPerLoad).length =
      indexEnd / sectorsPerLoad - indexStart / sectorsPerLoad := by
    rw [length_batchPairs]
    simp only [sectorsPerLoad_eq] at hstart hend ⊢
    omega
  apply List.ext_getElem (by rw [hlen, List.length_map, List.length_range'])
  intro k hk _
  have hk' := hlen ▸ hk
  rw [getElem_batchPairs hk, List.getElem_map, List.getElem_range', Nat.one_mul]
  -- the pair `k` is the whole load `start / 1024 + k`
  simp only [sectorsPerLoad_eq] at hstart hend hk' ⊢
  refine Prod.ext ?_ ?_ <;> simp only <;> omega

namespace FlowStore

variable (keccak : List UInt8 → H256)

/-- **`get_available_entries` reports the present entries of a range of plain loads.**  For a
range of whole loads, every load of which is well formed with no seal sealed, the arrays are
sorted with a missing entry between any two, hold exactly the present entries of the range, and
hold the bytes the flow stores there. -/
theorem getAvailableEntries_unsealed (s : FlowStore) {indexStart indexEnd : Nat}
    (hlt : indexStart < indexEnd) (hstart : indexStart % sectorsPerLoad = 0)
    (hend : indexEnd % sectorsPerLoad = 0) (hfit : indexEnd < 2 ^ 64)
    (hplain : ∀ k b, indexStart / sectorsPerLoad ≤ k → k < indexEnd / sectorsPerLoad →
      s.getEntryBatch k = some b → b.Plain) :
    ∃ out, s.getAvailableEntries keccak indexStart indexEnd = some (.ok out) ∧ SortedArrays out ∧
      (∀ e, (∃ a ∈ out, a.startIndex ≤ e ∧ e < a.entryEnd) ↔
        indexStart ≤ e ∧ e < indexEnd ∧ (s.contents (e * entrySize)).isSome) ∧
      ∀ a ∈ out, ∀ n < a.data.length, a.data[n]? = s.contents (a.startIndex * entrySize + n) := by
  obtain ⟨out, hloop, hsorted, -, hden⟩ := availableEntriesLoop_spec keccak s
    (indexEnd / sectorsPerLoad - indexStart / sectorsPerLoad) (indexStart / sectorsPerLoad) []
    (fun k b h₁ h₂ hb => hplain k b h₁ (by omega) hb) SortedArrays.nil (by simp)
  -- the loads of the range hold the bytes of the range
  have hlo : indexStart / sectorsPerLoad * bytesPerLoad = indexStart * entrySize := by
    simp only [sectorsPerLoad_eq, bytesPerLoad_eq, entrySize] at hstart ⊢
    omega
  have hhi : (indexStart / sectorsPerLoad + (indexEnd / sectorsPerLoad -
      indexStart / sectorsPerLoad)) * bytesPerLoad = indexEnd * entrySize := by
    simp only [sectorsPerLoad_eq, bytesPerLoad_eq, entrySize] at hstart hend hlt ⊢
    omega
  have hread : ∀ x, denote (out.map ChunkArray.run) x =
      restrict s.contents (indexStart * entrySize) (indexEnd * entrySize) x := fun x => by
    rw [hden x, List.map_nil, denote_nil, Option.none_or, hlo, hhi]
  refine ⟨out, ?_, hsorted, fun e => ?_, fun a ha n hn => ?_⟩
  · rw [getAvailableEntries, if_neg (by omega), batchIter_eq_some_of_load_end hend hfit,
      Option.bind_some, batchPairs_loads hstart hend, hloop]
    rfl
  · have hrange : (indexStart * entrySize ≤ e * entrySize ∧ e * entrySize < indexEnd * entrySize) ↔
        indexStart ≤ e ∧ e < indexEnd := by
      simp only [entrySize]
      omega
    rw [hsorted.mem_iff_isSome, hread, restrict]
    by_cases he : indexStart ≤ e ∧ e < indexEnd
    · rw [if_pos (hrange.mpr he)]
      exact ⟨fun hs => ⟨he.1, he.2, hs⟩, fun hs => hs.2.2⟩
    · rw [if_neg (mt hrange.mp he)]
      exact ⟨fun hs => absurd hs (by simp), fun hs => absurd ⟨hs.1, hs.2.1⟩ he⟩
  · -- the byte `n` of an array is what the runs read there, inside the range
    have hx := denote_of_mem hsorted.runs_disjoint (List.mem_map_of_mem ha)
      (i := a.startIndex * entrySize + n) (Nat.le_add_right _ _)
      (by simp only [ChunkArray.run]; omega)
    simp only [ChunkArray.run, Nat.add_sub_cancel_left] at hx
    rw [hread, restrict] at hx
    split_ifs at hx
    · exact hx.symm
    · rw [List.getElem?_eq_getElem hn] at hx
      cases hx

/-- The range of one load passes the checks of `get_available_entries`. -/
theorem load_range_valid (k : Nat) : ¬((k + 1) * sectorsPerLoad ≤ k * sectorsPerLoad ∨
    k * sectorsPerLoad % sectorsPerLoad ≠ 0 ∨ (k + 1) * sectorsPerLoad % sectorsPerLoad ≠ 0) := by
  simp only [sectorsPerLoad_eq]
  omega

/-- A range of one load within `u64` returns that load's list of arrays. -/
theorem getAvailableEntries_load (s : FlowStore) {k : Nat} {b : EntryBatch}
    (hb : s.getEntryBatch k = some b) (hfit : (k + 1) * sectorsPerLoad < 2 ^ 64) :
    s.getAvailableEntries keccak (k * sectorsPerLoad) ((k + 1) * sectorsPerLoad) =
      (b.intoDataList keccak (k * sectorsPerLoad)).map .ok := by
  have hpairs : batchPairs (k * sectorsPerLoad) ((k + 1) * sectorsPerLoad) sectorsPerLoad =
      [(k * sectorsPerLoad, (k + 1) * sectorsPerLoad)] := by
    rw [batchPairs_loads (Nat.mul_mod_left _ _) (Nat.mul_mod_left _ _),
      Nat.mul_div_cancel _ (by decide), Nat.mul_div_cancel _ (by decide),
      Nat.add_sub_cancel_left]
    rfl
  rw [getAvailableEntries, if_neg (load_range_valid k),
    batchIter_eq_some_of_load_end (Nat.mul_mod_left _ _) hfit, Option.bind_some, hpairs]
  simp only [availableEntriesLoop, Nat.mul_div_cancel _ (show 0 < sectorsPerLoad by decide), hb]
  cases b.intoDataList keccak (k * sectorsPerLoad) with
  | none => rfl
  | some dataList => cases dataList <;> rfl

/-- The range of a load that ends past `u64::MAX` panics in `batch_iter`. -/
theorem getAvailableEntries_load_overflow (s : FlowStore) {k : Nat}
    (hover : 2 ^ 64 ≤ (k + 1) * sectorsPerLoad) :
    s.getAvailableEntries keccak (k * sectorsPerLoad) ((k + 1) * sectorsPerLoad) = none := by
  have hpanic : batchIter (k * sectorsPerLoad) ((k + 1) * sectorsPerLoad) sectorsPerLoad = none := by
    refine batchIter_eq_none_of_le (by decide) (by simp only [sectorsPerLoad_eq]; omega) ?_
    rwa [ceilDiv_mul_of_dvd (by decide) (Nat.dvd_mul_left _ _)]
  rw [getAvailableEntries, if_neg (load_range_valid k), hpanic, Option.bind_none]

end FlowStore

/-! ## A run that starts at a sealed seal -/

/-- `get` of a shorter range from the same byte returns the first bytes. -/
theorem EntryBatchData.get_prefix {d : EntryBatchData} (hwf : d.WF) {b l m : Nat}
    {ys : List UInt8} (h : d.get b l = some (some ys)) (hm : 0 < m) (hml : m ≤ l) :
    d.get b m = some (some (ys.take m)) := by
  have hin : b + l ≤ bytesPerLoad := by
    by_contra hout
    unfold get at h
    rw [if_neg hout] at h
    cases h
  rw [get_eq_read hwf (by omega) hin] at h
  obtain ⟨hlen, hbytes⟩ := read_eq_some_iff.mp (Option.some.inj h)
  rw [get_eq_read hwf hm (by omega)]
  refine congrArg some (read_eq_some_iff.mpr ⟨by rw [List.length_take]; omega, fun t ht => ?_⟩)
  rw [hbytes t (by omega), List.getElem?_take_of_lt ht]

namespace EntryBatch

variable (keccak : List UInt8 → H256)

/-- A read from a seal boundary leaves its first seal as stored: the first `BYTES_PER_SEAL`
bytes it returns are those `get` returns. -/
theorem getUnsealedData_take_of_aligned (b : EntryBatch) {startSector lengthSector : Nat}
    (halign : startSector % sectorsPerSeal = 0) {xs : List UInt8}
    (h : b.getUnsealedData keccak startSector lengthSector = some (some xs)) :
    ∃ ys, b.data.get (startSector * bytesPerSector) (lengthSector * bytesPerSector) =
      some (some ys) ∧ xs.take bytesPerSeal = ys.take bytesPerSeal := by
  have hfirst : bytesPerSeal - startSector * bytesPerSector % bytesPerSeal = bytesPerSeal := by
    simp only [sectorsPerSeal_eq, bytesPerSeal_eq, bytesPerSector_eq] at halign ⊢
    omega
  unfold getUnsealedData at h
  simp only [if_pos halign, Bool.false_eq_true, if_false, hfirst] at h
  cases hget : b.data.get (startSector * bytesPerSector) (lengthSector * bytesPerSector) with
  | none =>
    rw [hget] at h
    cases h
  | some r =>
    rw [hget] at h
    cases r with
    | none => cases h
    | some ys =>
      refine ⟨ys, rfl, ?_⟩
      simp only [Option.map_some, Option.bind_some] at h
      split_ifs at h with hlong
      · -- the seals after the first one are unsealed, the first is kept
        obtain ⟨chunks, -, hxs⟩ := Option.map_eq_some_iff.mp h
        cases hxs
        rw [List.take_left' (by rw [List.length_take]; omega)]
      · cases h
        rfl

end EntryBatch

namespace FlowStore

variable (keccak : List UInt8 → H256)

/-- **A sealed seal at the start of a run is returned sealed.**  Take a stored, well formed load
`k` with a present run from the boundary of seal `j` over that whole seal, seal `j` sealed with a
context whose first mask is not zero.  Whenever `get_available_entries` over the load returns, it
holds an array from the entry of seal `j` whose first `BYTES_PER_SEAL` bytes are the sealed bytes
of seal `j` (`get_sealed_data(j)`), and unsealing those returns other bytes. -/
theorem getAvailableEntries_sealed_seal {s : FlowStore} {k j len : Nat} {b : EntryBatch}
    {ctx : H256} {result : List ChunkArray} (hb : s.getEntryBatch k = some b)
    (hwf : b.data.WF) (hrun : (j * sectorsPerSeal, len) ∈ b.data.availableRangeEntries)
    (hlen : sectorsPerSeal ≤ len) (hsealed : b.sealInfo.isSealed j = true)
    (hctx : b.sealInfo.getSealContextDigest j = some ctx)
    (hmask : keccak (computeFirstMaskSeed b.sealInfo.minerId ctx
      (b.sealInfo.globalSealSector j)) ≠ H256.zero)
    (h : s.getAvailableEntries keccak (k * sectorsPerLoad) ((k + 1) * sectorsPerLoad) =
      some (.ok result)) :
    ∃ a ∈ result, a.startIndex = k * sectorsPerLoad + j * sectorsPerSeal ∧
      ∃ sealed, b.getSealedData j = some (some sealed) ∧ a.data.take bytesPerSeal = sealed ∧
        ∃ unsealed, b.sealInfo.unsealAt keccak sealed j = some unsealed ∧ unsealed ≠ sealed := by
  -- a range that returns does not reach past `u64::MAX`
  have hfit : (k + 1) * sectorsPerLoad < 2 ^ 64 := by
    by_contra hover
    rw [getAvailableEntries_load_overflow keccak s (Nat.le_of_not_lt hover)] at h
    cases h
  rw [getAvailableEntries_load keccak s hb hfit] at h
  obtain ⟨dataList, hdl, hres⟩ := Option.map_eq_some_iff.mp h
  cases hres
  -- the array of the run, read from the seal boundary
  obtain ⟨a, ha, hfa⟩ := mem_of_mapM_eq_some hdl hrun
  obtain ⟨r, hr, hra⟩ := Option.bind_eq_some_iff.mp hfa
  obtain ⟨xs, rfl, rfl⟩ := Option.map_eq_some_iff.mp hra
  obtain ⟨ys, hget, htake⟩ := b.getUnsealedData_take_of_aligned keccak (Nat.mul_mod_left _ _) hr
  -- the seal's own bytes are the first ones of the run
  have hseal : b.data.get (j * bytesPerSeal) bytesPerSeal = some (some (ys.take bytesPerSeal)) := by
    have hbyte : j * sectorsPerSeal * bytesPerSector = j * bytesPerSeal := by
      rw [Nat.mul_assoc]
      rfl
    rw [hbyte] at hget
    exact EntryBatchData.get_prefix hwf hget (by decide)
      (by simp only [sectorsPerSeal_eq, bytesPerSeal_eq, bytesPerSector_eq] at hlen ⊢; omega)
  have hslen : (ys.take bytesPerSeal).length = bytesPerSeal := by
    rw [List.length_take, EntryBatchData.length_of_get hget]
    simp only [sectorsPerSeal_eq, bytesPerSeal_eq, bytesPerSector_eq] at hlen ⊢
    omega
  obtain ⟨unsealed, hu, hne⟩ := @ionianUnseal_ne_self keccak (ys.take bytesPerSeal) _ _ _
    (by rw [hslen]; decide) (by rw [hslen]; decide) hmask
  refine ⟨_, ha, rfl, ys.take bytesPerSeal,
    by rw [EntryBatch.getSealedData, if_pos hsealed]; exact hseal, htake, unsealed, ?_, hne⟩
  rw [SealInfo.unsealAt, hsealed, Bool.not_true, if_neg Bool.false_ne_true, hctx, Option.bind_some,
    hu]

set_option maxRecDepth 100000 in
/-- Load `1` with one run over seal `0`, which is sealed, under the constant hash `1`: the array
from entry `1024` holds the stored bytes of the seal, and unsealing them gives other bytes. -/
theorem getAvailableEntries_sealed_seal_example :
    ∃ result,
      (⟨Kv.SortedMap.empty.insert 1 ⟨⟨1, 1, H256.zero, [⟨H256.zero, 1⟩]⟩,
          .incomplete [⟨0, List.replicate 4096 0⟩]⟩, Kv.SortedMap.empty, 0⟩ :
        FlowStore).getAvailableEntries (fun _ => Vector.replicate 32 1) (1 * sectorsPerLoad)
          ((1 + 1) * sectorsPerLoad) = some (.ok result) ∧
      ∃ a ∈ result, a.startIndex = 1 * sectorsPerLoad + 0 * sectorsPerSeal ∧
        ∃ sealed, (⟨⟨1, 1, H256.zero, [⟨H256.zero, 1⟩]⟩,
            .incomplete [⟨0, List.replicate 4096 0⟩]⟩ : EntryBatch).getSealedData 0 =
              some (some sealed) ∧ a.data.take bytesPerSeal = sealed ∧
          ∃ unsealed, SealInfo.unsealAt (fun _ => Vector.replicate 32 1)
            ⟨1, 1, H256.zero, [⟨H256.zero, 1⟩]⟩ sealed 0 = some unsealed ∧ unsealed ≠ sealed := by
  have hget : (⟨Kv.SortedMap.empty.insert 1 ⟨⟨1, 1, H256.zero, [⟨H256.zero, 1⟩]⟩,
      .incomplete [⟨0, List.replicate 4096 0⟩]⟩, Kv.SortedMap.empty, 0⟩ :
        FlowStore).getAvailableEntries (fun _ => Vector.replicate 32 1) (1 * sectorsPerLoad)
          ((1 + 1) * sectorsPerLoad) = some (.ok [⟨List.replicate 4096 0, 1024⟩]) := by
    decide +kernel
  exact ⟨_, hget, getAvailableEntries_sealed_seal _ rfl
    (EntryBatchData.wf_singleton ⟨by decide +kernel, by decide +kernel, by decide +kernel⟩
      (by decide))
    (show (0 * sectorsPerSeal, 16) ∈
      (EntryBatchData.incomplete [⟨0, List.replicate 4096 0⟩]).availableRangeEntries by
        decide +kernel) le_rfl (by decide) rfl (by decide) hget⟩

end FlowStore

end Ionian.Storage
