import Ionian.Storage.BatchOps
import Ionian.Refine.Fold

/-!
# Storage.Run — every run of `insert_data` and `truncate` from `EntryBatchData::new`

The calls the storage makes on a load (`BatchOp`), with the arguments it passes (`BatchOp.Valid`):
sector-aligned runs inside the load, and cuts at a sector strictly inside it.  The abstract
machine is the store of the bytes the load should hold: a run that meets a present byte is
refused, any other run is written, and a cut forgets the bytes from there on (`BatchOp.absStep`).
One call on a well formed load simulates one abstract step (`step_simulates`), so a run from
`new` keeps the representation invariant, holds the bytes of the abstract run, is `Complete`
exactly when every byte is present, refuses exactly the overlapping inserts and reads the
abstract store through `get` (`runOps_spec`).
-/

namespace Ionian.Storage

open Extent

/-- A call on a load. -/
inductive BatchOp
  | insertData (startByte : Nat) (data : List UInt8)
  | truncate (truncatedByte : Nat)
deriving DecidableEq, Repr

namespace BatchOp

/-- The arguments the storage passes: the asserts of `insert_data` and `truncate`, inside one
load, and a cut that leaves the load neither empty nor whole. -/
def Valid : BatchOp → Prop
  | insertData startByte data => startByte % bytesPerSector = 0 ∧
      data.length % bytesPerSector = 0 ∧ startByte + data.length ≤ bytesPerLoad
  | truncate truncatedByte => truncatedByte % bytesPerSector = 0 ∧ 0 < truncatedByte ∧
      truncatedByte < bytesPerLoad

instance : DecidablePred Valid
  | insertData _ _ => inferInstanceAs (Decidable (_ ∧ _ ∧ _))
  | truncate _ => inferInstanceAs (Decidable (_ ∧ _ ∧ _))

/-- The call on the load; the seal indices `insert_data` returns are dropped. -/
def step (d : EntryBatchData) : BatchOp → Option EntryBatchData
  | insertData startByte data => (d.insertData startByte data).map Prod.fst
  | truncate truncatedByte => d.truncate truncatedByte

open Classical in
/-- What the call does to the bytes the load should hold. -/
noncomputable def absStep (m : Nat → Option UInt8) : BatchOp → Nat → Option UInt8
  | insertData startByte data =>
    if Touches m startByte data.length then m else write m startByte data
  | truncate truncatedByte => cut m truncatedByte

end BatchOp

/-- The load after a run of calls from `new`. -/
def runOps (ops : List BatchOp) : Option EntryBatchData := ops.foldlM BatchOp.step .new

/-- The bytes a run of calls leaves in the abstract store. -/
noncomputable def absRun (ops : List BatchOp) : Nat → Option UInt8 :=
  ops.foldl BatchOp.absStep fun _ => none

/-- **One call simulates one abstract step** on a well formed load. -/
theorem step_simulates :
    Refine.Simulates BatchOp.step BatchOp.absStep EntryBatchData.contents EntryBatchData.WF
      BatchOp.Valid := by
  intro d op hwf hv
  cases op with
  | insertData b data =>
    obtain ⟨hb, hlen, hin⟩ := hv
    obtain ⟨d', r, hins, herr, hkeep, hwrite⟩ := EntryBatchData.insertData_spec hwf hb hlen hin
    refine ⟨d', by simp [BatchOp.step, hins], ?_⟩
    -- a refused insert leaves the load, a stored one writes the run
    by_cases htouch : Touches d.contents b data.length
    · obtain rfl := hkeep (herr.mpr htouch)
      exact ⟨hwf, by simp [BatchOp.absStep, htouch]⟩
    · obtain ⟨hwf', hcontents⟩ := hwrite htouch
      exact ⟨hwf', by simp [BatchOp.absStep, htouch, hcontents]⟩
  | truncate t =>
    obtain ⟨ht, h0, hlt⟩ := hv
    exact EntryBatchData.truncate_spec hwf ht h0 hlt

/-- **Runs from `new`**: every run of valid calls succeeds and leaves a well formed load that
holds the bytes of the abstract run; it is `Complete` exactly when every byte is present; a
further `insert_data` fails exactly when it meets a present byte, and then leaves the load; and
`get` of a non-empty range reads the abstract store. -/
theorem runOps_spec {ops : List BatchOp} (hops : ∀ op ∈ ops, op.Valid) :
    ∃ d, runOps ops = some d ∧ d.WF ∧ d.contents = absRun ops ∧
      (d.IsComplete ↔ ∀ i < bytesPerLoad, (absRun ops i).isSome) ∧
      (∀ b data, (BatchOp.insertData b data).Valid →
        ∃ d' r, d.insertData b data = some (d', r) ∧
          ((∃ err, r = .error err) ↔ Touches (absRun ops) b data.length) ∧
          ((∃ err, r = .error err) → d' = d)) ∧
      ∀ b l, 0 < l → b + l ≤ bytesPerLoad → d.get b l = some (read (absRun ops) b l) := by
  obtain ⟨d, hrun, hwf, hcontents⟩ := step_simulates.run ops EntryBatchData.new_wf hops
  -- `new` holds no byte, the start of the abstract run
  have hc : d.contents = absRun ops := hcontents
  refine ⟨d, hrun, hwf, hc, ?_, ?_, ?_⟩
  · rw [← hc]
    exact EntryBatchData.isComplete_iff hwf
  · rintro b data ⟨hb, hlen, hin⟩
    obtain ⟨d', r, hins, herr, hkeep, -⟩ := EntryBatchData.insertData_spec hwf hb hlen hin
    rw [hc] at herr
    exact ⟨d', r, hins, herr, hkeep⟩
  · intro b l hl hbl
    rw [← hc]
    exact EntryBatchData.get_eq_read hwf hl hbl

theorem runOps_spec_insert_truncate :
    ∃ d, runOps [.insertData 256 (List.replicate 512 1), .truncate 512] = some d ∧ d.WF ∧
      d.contents = absRun [.insertData 256 (List.replicate 512 1), .truncate 512] ∧
      (d.IsComplete ↔ ∀ i < bytesPerLoad,
        (absRun [.insertData 256 (List.replicate 512 1), .truncate 512] i).isSome) ∧
      (∀ b data, (BatchOp.insertData b data).Valid →
        ∃ d' r, d.insertData b data = some (d', r) ∧
          ((∃ err, r = .error err) ↔
            Touches (absRun [.insertData 256 (List.replicate 512 1), .truncate 512]) b
              data.length) ∧
          ((∃ err, r = .error err) → d' = d)) ∧
      ∀ b l, 0 < l → b + l ≤ bytesPerLoad →
        d.get b l = some (read (absRun [.insertData 256 (List.replicate 512 1), .truncate 512]) b l) :=
  runOps_spec fun op hop => by
    simp only [List.mem_cons, List.not_mem_nil, or_false] at hop
    rcases hop with rfl | rfl
    · exact ⟨rfl, by rw [List.length_replicate]; rfl, by rw [List.length_replicate]; decide⟩
    · decide

end Ionian.Storage
