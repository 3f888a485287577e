import Mathlib

/-!
# Gcra.Schedule — the virtual scheduling form of the generic cell rate algorithm

A meter keeps one number per flow, the theoretical arrival time `tat`.  A cell of cost `cost`
arriving at `now` conforms when the bucket, brought up to `now`, has room for it within the
tolerance `tau`: `max now tat + cost ≤ now + tau` (`conforms`).  A conforming cell pushes the
theoretical arrival time on by its cost (`arrive`); a cell that does not conform leaves it.

What the algorithm is for is a bound over windows: whatever the starting state, the cost
admitted from cells arriving within `[a, b]` is at most `tau + (b - a)` (`admitted_window`).
The state only matters through `max now tat`: a cell arriving from `now` on treats two
theoretical arrival times that agree up to `now` (`Agree`) alike (`Agree.conforms`,
`Agree.arrive`).  This is what lets an implementation forget a flow whose theoretical arrival
time has passed.
-/

namespace Gcra

section Meter

variable (tau : Nat)

/-- Whether a cell of cost `cost` arriving at `now` conforms to the theoretical arrival time
`tat`. -/
def conforms (tat now cost : Nat) : Bool := decide (max now tat + cost ≤ now + tau)

/-- The theoretical arrival time after a cell. -/
def arrive (tat now cost : Nat) : Nat :=
  if conforms tau tat now cost then max now tat + cost else tat

/-- The cost admitted from a list of `(time, cost)` arrivals, starting from `tat`. -/
def admitted : Nat → List (Nat × Nat) → Nat
  | _, [] => 0
  | tat, (now, cost) :: rest =>
    (if conforms tau tat now cost then cost else 0) + admitted (arrive tau tat now cost) rest

/-- The theoretical arrival time after a list of arrivals. -/
def final : Nat → List (Nat × Nat) → Nat
  | tat, [] => tat
  | tat, (now, cost) :: rest => final (arrive tau tat now cost) rest

variable {tau}

theorem conforms_iff {tat now cost : Nat} :
    conforms tau tat now cost = true ↔ tat + cost ≤ now + tau ∧ cost ≤ tau := by
  simp only [conforms, decide_eq_true_eq]
  omega

theorem conforms_eq_false_iff {tat now cost : Nat} :
    conforms tau tat now cost = false ↔ now + tau < tat + cost ∨ tau < cost := by
  rw [← Bool.not_eq_true, conforms_iff]
  omega

/-- A cell that does not conform can be sent again, unchanged, from `tat + cost - tau` on and
not before. -/
theorem conforms_iff_of_le {tat cost : Nat} (hc : cost ≤ tau) (now : Nat) :
    conforms tau tat now cost = true ↔ tat + cost - tau ≤ now := by
  rw [conforms_iff]
  omega

/-- A cell no costlier than the tolerance that does not conform is early: the theoretical
arrival time is still ahead. -/
theorem lt_of_not_conforms {tat now cost : Nat} (h : conforms tau tat now cost = false)
    (hc : cost ≤ tau) : now < tat := by
  rcases conforms_eq_false_iff.mp h with h | h <;> omega

theorem arrive_of_conforms {tat now cost : Nat} (h : conforms tau tat now cost = true) :
    arrive tau tat now cost = max now tat + cost := by
  simp [arrive, h]

theorem arrive_of_not_conforms {tat now cost : Nat} (h : conforms tau tat now cost = false) :
    arrive tau tat now cost = tat := by
  simp [arrive, h]

/-- A conforming cell leaves the theoretical arrival time at most `tau` past its arrival. -/
theorem arrive_le {tat now cost : Nat} (h : conforms tau tat now cost = true) :
    arrive tau tat now cost ≤ now + tau := by
  rw [arrive_of_conforms h]
  have := conforms_iff.mp h
  omega

theorem admitted_cons (tat now cost : Nat) (rest : List (Nat × Nat)) :
    admitted tau tat ((now, cost) :: rest) =
      (if conforms tau tat now cost then cost else 0) + admitted tau (arrive tau tat now cost) rest :=
  rfl

/-! ## The window bound -/

/-- The admitted cost is paid for by the theoretical arrival time: from cells arriving no
earlier than `a`, it is at most how far the run pushes `max a tat` on. -/
theorem admitted_add_le {a : Nat} (tat : Nat) {arrivals : List (Nat × Nat)}
    (ha : ∀ p ∈ arrivals, a ≤ p.1) :
    admitted tau tat arrivals + max a tat ≤ max a (final tau tat arrivals) := by
  induction arrivals generalizing tat with
  | nil => exact Nat.le_of_eq (Nat.zero_add _)
  | cons p rest ih =>
    obtain ⟨now, cost⟩ := p
    have hnow : a ≤ now := ha _ List.mem_cons_self
    have hrest := ih (arrive tau tat now cost) fun q hq => ha q (List.mem_cons_of_mem _ hq)
    rw [admitted_cons]
    simp only [final]
    cases h : conforms tau tat now cost with
    | true =>
      rw [arrive_of_conforms h] at hrest ⊢
      simp only [if_true]
      omega
    | false =>
      rw [arrive_of_not_conforms h] at hrest ⊢
      simp only [Bool.false_eq_true, if_false]
      omega

/-- Either no cell conformed, or the last one left the theoretical arrival time at most `tau`
past the end of the window. -/
theorem final_eq_or_le {b : Nat} (tat : Nat) {arrivals : List (Nat × Nat)}
    (hb : ∀ p ∈ arrivals, p.1 ≤ b) :
    final tau tat arrivals = tat ∨ final tau tat arrivals ≤ b + tau := by
  induction arrivals generalizing tat with
  | nil => exact .inl rfl
  | cons p rest ih =>
    obtain ⟨now, cost⟩ := p
    have hnow : now ≤ b := hb _ List.mem_cons_self
    simp only [final]
    cases h : conforms tau tat now cost with
    | true =>
      have hle := arrive_le h
      rcases ih (arrive tau tat now cost) fun q hq => hb q (List.mem_cons_of_mem _ hq) with
        heq | hle'
      · exact .inr (by omega)
      · exact .inr hle'
    | false =>
      rw [arrive_of_not_conforms h]
      exact ih tat fun q hq => hb q (List.mem_cons_of_mem _ hq)

/-- **Conformance over a window**: from any theoretical arrival time, the cells arriving within
`[a, b]` are admitted for at most `tau + (b - a)` of cost. -/
theorem admitted_window {a b : Nat} (tat : Nat) {arrivals : List (Nat × Nat)}
    (hab : ∀ p ∈ arrivals, a ≤ p.1 ∧ p.1 ≤ b) :
    admitted tau tat arrivals ≤ tau + (b - a) := by
  have hpaid : admitted tau tat arrivals + max a tat ≤ max a (final tau tat arrivals) :=
    admitted_add_le tat fun p hp => (hab p hp).1
  have hlast : final tau tat arrivals = tat ∨ final tau tat arrivals ≤ b + tau :=
    final_eq_or_le tat fun p hp => (hab p hp).2
  rcases hlast with heq | hle
  · rw [heq] at hpaid
    omega
  · omega

/-! ## Theoretical arrival times that agree from `now` on -/

/-- Two theoretical arrival times agree at `now` when they are equal or both already passed. -/
def Agree (now x y : Nat) : Prop := max now x = max now y

theorem Agree.refl (now x : Nat) : Agree now x x := rfl

theorem Agree.symm {now x y : Nat} (h : Agree now x y) : Agree now y x := Eq.symm h

theorem Agree.trans {now x y z : Nat} (h₁ : Agree now x y) (h₂ : Agree now y z) :
    Agree now x z :=
  Eq.trans h₁ h₂

theorem agree_of_le {now x y : Nat} (hx : x ≤ now) (hy : y ≤ now) : Agree now x y := by
  unfold Agree
  omega

theorem agree_zero {now x : Nat} (hx : x ≤ now) : Agree now x 0 :=
  agree_of_le hx (Nat.zero_le now)

theorem Agree.mono {now now' x y : Nat} (h : Agree now x y) (hle : now ≤ now') :
    Agree now' x y := by
  unfold Agree at *
  omega

theorem Agree.conforms {now x y : Nat} (h : Agree now x y) (cost : Nat) :
    conforms tau x now cost = conforms tau y now cost := by
  have h' : max now x = max now y := h
  simp only [Gcra.conforms, h']

/-- Agreeing theoretical arrival times on which a cell no costlier than the tolerance does not
conform are equal: both are still ahead. -/
theorem Agree.eq_of_not_conforms {now x y cost : Nat} (h : Agree now x y)
    (hx : Gcra.conforms tau x now cost = false) (hc : cost ≤ tau) : x = y := by
  have hlt := lt_of_not_conforms hx hc
  unfold Agree at h
  omega

/-- A cell arriving from `now` on that conforms makes agreeing theoretical arrival times equal;
one that does not leaves them as they were. -/
theorem Agree.arrive {now n x y : Nat} (h : Agree now x y) (hn : now ≤ n) (cost : Nat) :
    Agree now (Gcra.arrive tau x n cost) (Gcra.arrive tau y n cost) := by
  have hn' : Agree n x y := h.mono hn
  unfold Gcra.arrive
  rw [hn'.conforms cost]
  split
  · rw [show max n x = max n y from hn']
    exact Agree.refl _ _
  · exact h

end Meter

end Gcra
