import Mathlib

/-!
# Refine.Fold — runs of a partial step function that simulate an abstract one

A concrete machine steps with `step : σ → α → Option σ` (`none` is a panic), an abstract one with
`abs : τ → α → τ`, and `rep : σ → τ` reads the abstract state off a concrete one.  When, from every
state of an invariant and for every allowed operation, one concrete step succeeds, keeps the
invariant and agrees with one abstract step (`Simulates`), then a whole run of allowed operations
succeeds, keeps the invariant and agrees with the abstract run (`Simulates.run`).  When the
abstract state is not a function of the concrete one, a relation takes the place of `rep` and the
invariant (`SimulatesRel`, `SimulatesRel.run`).
-/

namespace Refine

variable {σ τ α : Type}

/-- Through a relation: from a concrete state related to `t`, one step on an allowed operation
succeeds into a state related to the abstract successor. -/
def SimulatesRel (step : σ → α → Option σ) (abs : τ → α → τ) (R : σ → τ → Prop) (ok : α → Prop) :
    Prop :=
  ∀ s t a, R s t → ok a → ∃ s', step s a = some s' ∧ R s' (abs t a)

/-- **Run simulation through a relation**: a run of allowed operations from related states
succeeds into a state related to the abstract run. -/
theorem SimulatesRel.run {step : σ → α → Option σ} {abs : τ → α → τ} {R : σ → τ → Prop}
    {ok : α → Prop} (hsim : SimulatesRel step abs R ok) (ops : List α) {s : σ} {t : τ}
    (hR : R s t) (hops : ∀ a ∈ ops, ok a) :
    ∃ s', ops.foldlM step s = some s' ∧ R s' (ops.foldl abs t) := by
  -- induction on the operations, from any pair of related states
  induction ops generalizing s t with
  | nil => exact ⟨s, rfl, hR⟩
  | cons a ops ih =>
    obtain ⟨s₁, hstep, hR₁⟩ := hsim s t a hR (hops a List.mem_cons_self)
    obtain ⟨s', hrun, hR'⟩ := ih hR₁ fun b hb => hops b (List.mem_cons_of_mem a hb)
    refine ⟨s', ?_, hR'⟩
    rw [List.foldlM_cons, hstep, Option.bind_eq_bind, Option.bind_some, hrun]

/-- One concrete step from a state of `inv`, on an operation allowed by `ok`, succeeds, keeps
`inv` and is read off as one abstract step. -/
def Simulates (step : σ → α → Option σ) (abs : τ → α → τ) (rep : σ → τ) (inv : σ → Prop)
    (ok : α → Prop) : Prop :=
  ∀ s a, inv s → ok a → ∃ s', step s a = some s' ∧ inv s' ∧ rep s' = abs (rep s) a

/-- A simulation read off by `rep` is one through the relation "`inv` and read off as". -/
theorem Simulates.rel {step : σ → α → Option σ} {abs : τ → α → τ} {rep : σ → τ}
    {inv : σ → Prop} {ok : α → Prop} (hsim : Simulates step abs rep inv ok) :
    SimulatesRel step abs (fun s t => inv s ∧ rep s = t) ok := by
  rintro s t a ⟨hs, rfl⟩ ha
  obtain ⟨s', hstep, hs', hrep⟩ := hsim s a hs ha
  exact ⟨s', hstep, hs', hrep⟩

/-- **Run simulation**: a run of allowed operations from a state of the invariant succeeds, keeps
the invariant and is read off as the abstract run. -/
theorem Simulates.run {step : σ → α → Option σ} {abs : τ → α → τ} {rep : σ → τ}
    {inv : σ → Prop} {ok : α → Prop} (hsim : Simulates step abs rep inv ok) (ops : List α)
    {s : σ} (hs : inv s) (hops : ∀ a ∈ ops, ok a) :
    ∃ s', ops.foldlM step s = some s' ∧ inv s' ∧ rep s' = ops.foldl abs (rep s) := by
  obtain ⟨s', hrun, hs', hrep⟩ := hsim.rel.run ops ⟨hs, rfl⟩ hops
  exact ⟨s', hrun, hs', hrep⟩

end Refine
