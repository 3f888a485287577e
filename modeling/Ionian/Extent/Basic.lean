import Mathlib

/-!
# Extent.Basic — stores of values at addresses, and runs of values

A store is a partial map `Nat → Option α` from addresses to values.  `write` stores a list of
values from an address, `cut` forgets every address from a bound on, and `read` returns the
values of a range when all of them are present.  A list of runs `(off, vals)` denotes the store
in which an address reads from the first run that holds it (`denote`); inserting a run that no
earlier run meets is a `write`, and merging two runs that meet end to start changes nothing.
-/

namespace Extent

variable {α : Type}

/-- Store `vals` from address `off`. -/
def write (m : Nat → Option α) (off : Nat) (vals : List α) : Nat → Option α :=
  fun i => if off ≤ i ∧ i < off + vals.length then vals[i - off]? else m i

@[simp] theorem write_nil (m : Nat → Option α) (off : Nat) : write m off [] = m := by
  funext i
  simp only [write, List.length_nil, Nat.add_zero]
  split_ifs with h
  · omega
  · rfl

/-- Forget every address from `t` on. -/
def cut (m : Nat → Option α) (t : Nat) : Nat → Option α :=
  fun i => if i < t then m i else none

/-- The `len` values from `off`, when all of them are present. -/
def read (m : Nat → Option α) (off : Nat) : Nat → Option (List α)
  | 0 => some []
  | len + 1 => (m off).bind fun v => (read m (off + 1) len).map (v :: ·)

/-- Some address of `[off, off + len)` holds a value. -/
def Touches (m : Nat → Option α) (off len : Nat) : Prop :=
  ∃ i, off ≤ i ∧ i < off + len ∧ (m i).isSome

theorem read_eq_some_iff {m : Nat → Option α} {off len : Nat} {xs : List α} :
    read m off len = some xs ↔ xs.length = len ∧ ∀ j < len, m (off + j) = xs[j]? := by
  induction len generalizing off xs with
  | zero => cases xs <;> simp [read]
  | succ len ih =>
    cases xs with
    | nil => cases h : m off <;> simp [read, h]
    | cons x xs =>
      simp only [read, Option.bind_eq_some_iff, Option.map_eq_some_iff, List.cons.injEq,
        List.length_cons, Nat.add_right_cancel_iff]
      constructor
      · rintro ⟨v, hv, ys, hys, rfl, rfl⟩
        obtain ⟨hlen, hget⟩ := ih.mp hys
        refine ⟨hlen, fun j hj => ?_⟩
        cases j with
        | zero => simpa using hv
        | succ j => rw [← Nat.add_assoc, Nat.add_right_comm, hget j (by omega)]; rfl
      · rintro ⟨hlen, hget⟩
        refine ⟨x, by simpa using hget 0 (by omega), xs, ih.mpr ⟨hlen, fun j hj => ?_⟩, rfl, rfl⟩
        have := hget (j + 1) (by omega)
        rwa [← Nat.add_assoc, Nat.add_right_comm] at this

theorem read_eq_none_iff {m : Nat → Option α} {off len : Nat} :
    read m off len = none ↔ ∃ j < len, m (off + j) = none := by
  induction len generalizing off with
  | zero => simp [read]
  | succ len ih =>
    cases h : m off with
    | none => exact ⟨fun _ => ⟨0, by omega, by simpa using h⟩, fun _ => by simp [read, h]⟩
    | some v =>
      simp only [read, h, Option.bind_some, Option.map_eq_none_iff, ih]
      constructor
      · rintro ⟨j, hj, hm⟩
        exact ⟨j + 1, by omega, by rwa [← Nat.add_assoc, Nat.add_right_comm]⟩
      · rintro ⟨j, hj, hm⟩
        cases j with
        | zero => simp [h] at hm
        | succ j =>
          exact ⟨j, by omega, by rwa [← Nat.add_assoc, Nat.add_right_comm] at hm⟩

/-- `vals` stored from `off`. -/
def runAt (off : Nat) (vals : List α) : Nat → Option α :=
  fun i => if off ≤ i then vals[i - off]? else none

/-- Runs one after another; an address reads from the first run that holds it. -/
def denote : List (Nat × List α) → Nat → Option α
  | [] => fun _ => none
  | (off, vals) :: rs => fun i => (runAt off vals i).or (denote rs i)

@[simp] theorem denote_nil (i : Nat) : denote ([] : List (Nat × List α)) i = none := rfl

@[simp] theorem denote_cons (off : Nat) (vals : List α) (rs : List (Nat × List α)) (i : Nat) :
    denote ((off, vals) :: rs) i = (runAt off vals i).or (denote rs i) := rfl

theorem denote_append (rs ss : List (Nat × List α)) (i : Nat) :
    denote (rs ++ ss) i = (denote rs i).or (denote ss i) := by
  induction rs with
  | nil => simp
  | cons r rs ih => obtain ⟨off, vals⟩ := r; simp [ih, Option.or_assoc]

theorem runAt_eq_none {off : Nat} {vals : List α} {i : Nat}
    (h : ¬ (off ≤ i ∧ i < off + vals.length)) : runAt off vals i = none := by
  unfold runAt
  split_ifs with hi
  · exact List.getElem?_eq_none (by omega)
  · rfl

theorem runAt_of_mem {off : Nat} {vals : List α} {i : Nat} (h : off ≤ i) :
    runAt off vals i = vals[i - off]? := if_pos h

/-- Two runs that meet end to start read as one. -/
theorem runAt_append (off : Nat) (a b : List α) (i : Nat) :
    runAt off (a ++ b) i = (runAt off a i).or (runAt (off + a.length) b i) := by
  unfold runAt
  by_cases h₁ : off ≤ i
  · by_cases h₂ : i - off < a.length
    · simp [h₁, List.getElem?_append_left h₂, List.getElem?_eq_getElem h₂]
    · have ha : a[i - off]? = none := List.getElem?_eq_none (by omega)
      simp only [if_pos h₁, if_pos (show off + a.length ≤ i by omega), ha, Option.none_or,
        List.getElem?_append_right (show a.length ≤ i - off by omega)]
      congr 1
      omega
  · simp [h₁, show ¬ off + a.length ≤ i by omega]

theorem isSome_runAt_iff {off : Nat} {vals : List α} {i : Nat} :
    (runAt off vals i).isSome ↔ off ≤ i ∧ i < off + vals.length := by
  unfold runAt
  split_ifs with h
  · simp; omega
  · simp; omega

theorem isSome_denote_iff {rs : List (Nat × List α)} {i : Nat} :
    (denote rs i).isSome ↔ ∃ r ∈ rs, r.1 ≤ i ∧ i < r.1 + r.2.length := by
  induction rs with
  | nil => simp
  | cons r rs ih =>
    obtain ⟨off, vals⟩ := r
    simp [Option.isSome_or, isSome_runAt_iff, ih]

theorem denote_eq_none {rs : List (Nat × List α)} {i : Nat}
    (h : ∀ r ∈ rs, ¬ (r.1 ≤ i ∧ i < r.1 + r.2.length)) : denote rs i = none := by
  rw [← Option.not_isSome_iff_eq_none, isSome_denote_iff]
  rintro ⟨r, hr, hi⟩
  exact h r hr hi

/-- In runs that each end before the next one starts, an address of a run reads from that run. -/
theorem denote_of_mem {rs : List (Nat × List α)}
    (hd : rs.Pairwise fun r t => r.1 + r.2.length ≤ t.1) {r : Nat × List α} (hr : r ∈ rs)
    {i : Nat} (hlo : r.1 ≤ i) (hhi : i < r.1 + r.2.length) : denote rs i = r.2[i - r.1]? := by
  induction rs with
  | nil => simp at hr
  | cons t ts ih =>
    obtain ⟨hafter, hts⟩ := List.pairwise_cons.mp hd
    obtain ⟨off, vals⟩ := t
    rcases List.mem_cons.mp hr with rfl | hr
    · simp only at hlo hhi ⊢
      rw [denote_cons, runAt_of_mem hlo, List.getElem?_eq_getElem (by omega), Option.some_or]
    · -- the run `t` ends before `r` starts, so it does not hold `i`
      have := hafter r hr
      rw [denote_cons, runAt_eq_none (by simp only at this ⊢; omega), Option.none_or]
      exact ih hts hr

/-- Runs moved up by `c` read as the store moved up by `c`. -/
theorem denote_shift (c : Nat) (rs : List (Nat × List α)) (i : Nat) :
    denote (rs.map fun r => (c + r.1, r.2)) i = if c ≤ i then denote rs (i - c) else none := by
  induction rs with
  | nil => simp
  | cons r rs ih =>
    obtain ⟨off, vals⟩ := r
    simp only [List.map_cons, denote_cons, ih, runAt]
    by_cases hc : c ≤ i
    · by_cases hoff : off ≤ i - c
      · rw [if_pos (by omega), if_pos hc, if_pos hc, if_pos hoff, Nat.sub_sub]
      · rw [if_neg (by omega), if_pos hc, if_pos hc, if_neg hoff]
    · rw [if_neg (by omega), if_neg hc, if_neg hc, Option.none_or]

/-- The store `m` on the addresses `[lo, hi)` only. -/
def restrict (m : Nat → Option α) (lo hi : Nat) : Nat → Option α :=
  fun i => if lo ≤ i ∧ i < hi then m i else none

/-- Two ranges of a store, the second from the end of the first, read as their union. -/
theorem restrict_or_restrict (m : Nat → Option α) {a b d : Nat} (hab : a ≤ b) (hbd : b ≤ d)
    (i : Nat) : (restrict m a b i).or (restrict m b d i) = restrict m a d i := by
  unfold restrict
  by_cases hi : i < b
  · rw [if_neg (show ¬ (b ≤ i ∧ i < d) by omega), Option.or_none]
    by_cases ha : a ≤ i
    · rw [if_pos ⟨ha, hi⟩, if_pos ⟨ha, by omega⟩]
    · rw [if_neg (by omega), if_neg (by omega)]
  · rw [if_neg (show ¬ (a ≤ i ∧ i < b) by omega), Option.none_or]
    by_cases hd : i < d
    · rw [if_pos ⟨by omega, hd⟩, if_pos ⟨by omega, hd⟩]
    · rw [if_neg (by omega), if_neg (by omega)]

/-- Inserting a run that meets none of the runs before it writes its values. -/
theorem denote_insert {pre post : List (Nat × List α)} {off : Nat} {vals : List α}
    (hfree : ∀ r ∈ pre, r.1 + r.2.length ≤ off ∨ off + vals.length ≤ r.1) :
    denote (pre ++ (off, vals) :: post) = write (denote (pre ++ post)) off vals := by
  funext i
  simp only [denote_append, denote_cons, write]
  split_ifs with hi
  · have hpre : denote pre i = none := denote_eq_none fun r hr hri => by
      have := hfree r hr
      omega
    rw [hpre, Option.none_or, runAt_of_mem hi.1]
    exact Option.or_of_isSome (by simp; omega)
  · rw [runAt_eq_none hi, Option.none_or]

/-- Cutting runs that all lie below `t` or from `t` on keeps those below. -/
theorem cut_denote_append {pre post : List (Nat × List α)} {t : Nat}
    (hpre : ∀ r ∈ pre, r.1 + r.2.length ≤ t) (hpost : ∀ r ∈ post, t ≤ r.1) :
    cut (denote (pre ++ post)) t = denote pre := by
  funext i
  simp only [cut, denote_append]
  split_ifs with hi
  · have hnone : denote post i = none := denote_eq_none fun r hr hri => by
      have := hpost r hr
      omega
    rw [hnone, Option.or_none]
  · exact (denote_eq_none fun r hr hri => by have := hpre r hr; omega).symm

/-- A run cut at `t`. -/
theorem cut_runAt {off t : Nat} (vals : List α) (h : off ≤ t) :
    cut (runAt off vals) t = runAt off (vals.take (t - off)) := by
  funext i
  unfold cut runAt
  by_cases hi : i < t
  · by_cases ho : off ≤ i
    · rw [if_pos hi, if_pos ho, if_pos ho, List.getElem?_take_of_lt (by omega)]
    · rw [if_pos hi, if_neg ho, if_neg ho]
  · rw [if_neg hi]
    split_ifs
    · exact (List.getElem?_eq_none (by simp; omega)).symm
    · rfl

/-- Cutting runs at `t` inside one of them keeps the runs below and that run cut. -/
theorem cut_denote_split {pre post : List (Nat × List α)} {off t : Nat} {vals : List α}
    (hpre : ∀ r ∈ pre, r.1 + r.2.length ≤ t) (hpost : ∀ r ∈ post, t ≤ r.1) (hoff : off ≤ t) :
    cut (denote (pre ++ (off, vals) :: post)) t = denote (pre ++ [(off, vals.take (t - off))]) := by
  funext i
  have hrun := congrFun (cut_runAt vals hoff) i
  simp only [cut] at hrun ⊢
  simp only [denote_append, denote_cons, denote_nil, Option.or_none]
  split_ifs at hrun ⊢ with hi
  · have hnone : denote post i = none := denote_eq_none fun r hr hri => by
      have := hpost r hr
      omega
    rw [hnone, Option.or_none, hrun]
  · have hnone : denote pre i = none := denote_eq_none fun r hr hri => by
      have := hpre r hr
      omega
    rw [hnone, Option.none_or, ← hrun]

/-! ## Overwriting inside a run -/

/-- Reading back the values just written. -/
theorem read_write_self (m : Nat → Option α) (off : Nat) (vals : List α) :
    read (write m off vals) off vals.length = some vals :=
  read_eq_some_iff.mpr ⟨rfl, fun j hj => by simp [write, hj]⟩

/-- Overwriting present values keeps which addresses are present. -/
theorem isSome_write_of_read {m : Nat → Option α} {off len : Nat} {xs ys : List α}
    (hread : read m off len = some xs) (hlen : ys.length = len) (i : Nat) :
    (write m off ys i).isSome = (m i).isSome := by
  obtain ⟨hxs, hget⟩ := read_eq_some_iff.mp hread
  unfold write
  split_ifs with hi
  · have hm := hget (i - off) (by omega)
    rw [Nat.add_sub_cancel' hi.1] at hm
    rw [hm, List.getElem?_eq_getElem (by omega), List.getElem?_eq_getElem (by omega)]
    rfl
  · rfl

/-- A list whose values from `a` on are overwritten by `ys`, position by position. -/
theorem getElem?_overwrite {a : Nat} {xs ys : List α} (h : a + ys.length ≤ xs.length) (k : Nat) :
    (xs.take a ++ ys ++ xs.drop (a + ys.length))[k]? =
      if a ≤ k ∧ k < a + ys.length then ys[k - a]? else xs[k]? := by
  have htake : (xs.take a).length = a := by simp; omega
  by_cases hk : k < a
  · rw [if_neg (by omega), List.append_assoc, List.getElem?_append_left (by omega),
      List.getElem?_take_of_lt hk]
  · rw [List.append_assoc, List.getElem?_append_right (by omega), htake]
    split_ifs with hin
    · exact List.getElem?_append_left (by omega)
    · rw [List.getElem?_append_right (by omega), List.getElem?_drop]
      congr 1
      omega

/-- A run whose values from `a` on are overwritten by `ys` is the run with `ys` written. -/
theorem runAt_overwrite (off : Nat) {a : Nat} {xs ys : List α} (h : a + ys.length ≤ xs.length) :
    runAt off (xs.take a ++ ys ++ xs.drop (a + ys.length)) = write (runAt off xs) (off + a) ys := by
  funext i
  simp only [runAt, write]
  by_cases ho : off ≤ i
  · rw [if_pos ho, getElem?_overwrite h, if_pos ho]
    by_cases hin : off + a ≤ i ∧ i < off + a + ys.length
    · rw [if_pos (by omega), if_pos hin, Nat.sub_sub]
    · rw [if_neg (by omega), if_neg hin]
  · rw [if_neg ho, if_neg (by omega), if_neg ho]

/-- Writing inside a run that the runs before it do not meet writes the store they denote. -/
theorem denote_update {pre post : List (Nat × List α)} {off p : Nat} {vals vals' ys : List α}
    (hrun : runAt off vals' = write (runAt off vals) p ys)
    (hfree : ∀ r ∈ pre, r.1 + r.2.length ≤ p ∨ p + ys.length ≤ r.1) :
    denote (pre ++ (off, vals') :: post) = write (denote (pre ++ (off, vals) :: post)) p ys := by
  funext i
  simp only [denote_append, denote_cons, hrun, write]
  split_ifs with hi
  · have hpre : denote pre i = none := denote_eq_none fun r hr hri => by
      have := hfree r hr
      omega
    rw [hpre, Option.none_or]
    exact Option.or_of_isSome (by simp; omega)
  · rfl

/-! ## Blocks of present addresses -/

/-- Every address of `[off, off + len)` holds a value. -/
def Full (m : Nat → Option α) (off len : Nat) : Prop :=
  ∀ i, off ≤ i → i < off + len → (m i).isSome

theorem write_of_not_mem {m : Nat → Option α} {off : Nat} {vals : List α} {i : Nat}
    (h : ¬ (off ≤ i ∧ i < off + vals.length)) : write m off vals i = m i := by
  simp only [write, if_neg h]

theorem isSome_write_of_mem {m : Nat → Option α} {off : Nat} {vals : List α} {i : Nat}
    (h : off ≤ i ∧ i < off + vals.length) : (write m off vals i).isSome := by
  simp only [write, if_pos h]
  rw [List.getElem?_eq_getElem (by omega)]
  rfl

/-- A write into addresses that were all empty completes a block that was not full exactly when
the block meets the run and its other addresses were all present. -/
theorem full_write_iff_of_not_touches {m : Nat → Option α} {off : Nat} {vals : List α}
    (hfree : ¬ Touches m off vals.length) {x n : Nat} :
    Full (write m off vals) x n ∧ ¬ Full m x n ↔
      (∃ i, x ≤ i ∧ i < x + n ∧ off ≤ i ∧ i < off + vals.length) ∧
        ∀ i, x ≤ i → i < x + n → ¬ (off ≤ i ∧ i < off + vals.length) → (m i).isSome := by
  constructor
  · rintro ⟨hfull, hnot⟩
    -- the block had an empty address, and only the run can have filled it
    obtain ⟨i, hi₁, hi₂, hnone⟩ : ∃ i, x ≤ i ∧ i < x + n ∧ m i = none := by
      by_contra hall
      exact hnot fun i h₁ h₂ => Option.isSome_iff_ne_none.mpr fun h => hall ⟨i, h₁, h₂, h⟩
    have hin : off ≤ i ∧ i < off + vals.length := by
      by_contra hout
      have hsome := hfull i hi₁ hi₂
      rw [write_of_not_mem hout, hnone] at hsome
      cases hsome
    refine ⟨⟨i, hi₁, hi₂, hin⟩, fun j hj₁ hj₂ hout => ?_⟩
    have hsome := hfull j hj₁ hj₂
    rwa [write_of_not_mem hout] at hsome
  · rintro ⟨⟨i, hi₁, hi₂, hin⟩, hrest⟩
    refine ⟨fun j hj₁ hj₂ => ?_, fun hfull => ?_⟩
    · by_cases hjin : off ≤ j ∧ j < off + vals.length
      · exact isSome_write_of_mem hjin
      · rw [write_of_not_mem hjin]
        exact hrest j hj₁ hj₂ hjin
    · -- an address the block shares with the run was present, against `hfree`
      exact hfree ⟨i, hin.1, hin.2, hfull i hi₁ hi₂⟩

end Extent
