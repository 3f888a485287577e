import Mathlib

/-!
# Kv.AListSum — a sum over the values of a finite map

`sumBy f s` adds `f` over the values of the association list `s`.  Erasing a key takes its value's
share away, inserting adds the new value's share in place of the old one's.
-/

namespace Kv

variable {α γ : Type} [DecidableEq α]

/-- The sum of `f` over the values of a map. -/
def sumBy (f : γ → Nat) (s : AList fun _ : α => γ) : Nat := (s.entries.map fun e => f e.2).sum

variable {f : γ → Nat}

theorem sum_kerase_add {l : List (Sigma fun _ : α => γ)} {a : α} {b : γ}
    (h : l.dlookup a = some b) :
    ((l.kerase a).map fun e => f e.2).sum + f b = (l.map fun e => f e.2).sum := by
  induction l with
  | nil => simp [List.dlookup_nil] at h
  | cons e rest ih =>
    obtain ⟨k, v⟩ := e
    by_cases ha : a = k
    · -- the first entry of the key is the one erased and the one looked up
      subst ha
      have hk : (⟨a, v⟩ :: rest : List (Sigma fun _ : α => γ)).kerase a = rest :=
        List.kerase_cons_eq rfl
      rw [hk]
      rw [List.dlookup_cons_eq, Option.some.injEq] at h
      subst h
      simp only [List.map_cons, List.sum_cons]
      omega
    · rw [List.kerase_cons_ne ha]
      rw [List.dlookup_cons_ne _ _ ha] at h
      have hrest := ih h
      simp only [List.map_cons, List.sum_cons]
      omega

omit [DecidableEq α] in
@[simp] theorem sumBy_empty : sumBy f (∅ : AList fun _ : α => γ) = 0 := rfl

theorem sumBy_erase_add {s : AList fun _ : α => γ} {a : α} {b : γ} (h : s.lookup a = some b) :
    sumBy f (s.erase a) + f b = sumBy f s :=
  sum_kerase_add h

theorem sumBy_erase_of_lookup_eq_none {s : AList fun _ : α => γ} {a : α}
    (h : s.lookup a = none) : sumBy f (s.erase a) = sumBy f s := by
  have hk : s.entries.kerase a = s.entries :=
    List.kerase_of_notMem_keys (AList.lookup_eq_none.mp h)
  show ((s.entries.kerase a).map fun e => f e.2).sum = _
  rw [hk]
  rfl

theorem sumBy_erase_le (s : AList fun _ : α => γ) (a : α) : sumBy f (s.erase a) ≤ sumBy f s := by
  cases h : s.lookup a with
  | none => exact le_of_eq (sumBy_erase_of_lookup_eq_none h)
  | some b =>
    have := sumBy_erase_add (f := f) h
    omega

theorem sumBy_insert (s : AList fun _ : α => γ) (a : α) (b : γ) :
    sumBy f (s.insert a b) = f b + sumBy f (s.erase a) := by
  simp [sumBy, AList.erase]

/-- A value replaced by one of a smaller share. -/
theorem sumBy_insert_le {s : AList fun _ : α => γ} {a : α} {b b' : γ} (h : s.lookup a = some b)
    (hle : f b' ≤ f b) : sumBy f (s.insert a b') ≤ sumBy f s := by
  have herase := sumBy_erase_add (f := f) h
  rw [sumBy_insert]
  omega

theorem le_sumBy {s : AList fun _ : α => γ} {a : α} {b : γ} (h : s.lookup a = some b) :
    f b ≤ sumBy f s := by
  have := sumBy_erase_add (f := f) h
  omega

omit [DecidableEq α] in
/-- A sum is `0` when every value's share is. -/
theorem sumBy_eq_zero {s : AList fun _ : α => γ} (h : ∀ e ∈ s.entries, f e.2 = 0) :
    sumBy f s = 0 := by
  unfold sumBy
  rw [List.sum_eq_zero]
  intro x hx
  obtain ⟨e, he, rfl⟩ := List.mem_map.mp hx
  exact h e he

end Kv
