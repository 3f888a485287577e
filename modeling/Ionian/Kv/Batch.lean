import Mathlib

/-!
# Kv.Batch — a key-value map written by batches of writes

A store is a partial map `κ → Option ν`.  A batch is a list of writes (`Op.insert`, `Op.delete`)
applied in order, as a database applies the operations of one transaction (`exec`).  A key that no
write of the batch names keeps its value (`exec_of_forall_ne`), and batches compose by
concatenation (`exec_append`).
-/

namespace Kv

variable {κ ν : Type} [DecidableEq κ]

/-- One write of a batch. -/
inductive Op (κ ν : Type)
  | insert (key : κ) (value : ν)
  | delete (key : κ)
deriving DecidableEq, Repr

/-- The key a write names. -/
def Op.key : Op κ ν → κ
  | .insert key _ => key
  | .delete key => key

/-- Apply one write. -/
def apply (s : κ → Option ν) : Op κ ν → κ → Option ν
  | .insert key value => Function.update s key (some value)
  | .delete key => Function.update s key none

/-- Apply a batch in order. -/
def exec (s : κ → Option ν) (ops : List (Op κ ν)) : κ → Option ν := ops.foldl apply s

@[simp] theorem exec_nil (s : κ → Option ν) : exec s [] = s := rfl

@[simp] theorem exec_cons (s : κ → Option ν) (op : Op κ ν) (ops : List (Op κ ν)) :
    exec s (op :: ops) = exec (apply s op) ops := rfl

theorem exec_append (s : κ → Option ν) (ops ops' : List (Op κ ν)) :
    exec s (ops ++ ops') = exec (exec s ops) ops' := List.foldl_append

@[simp] theorem apply_insert (s : κ → Option ν) (key : κ) (value : ν) :
    apply s (.insert key value) = Function.update s key (some value) := rfl

@[simp] theorem apply_delete (s : κ → Option ν) (key : κ) :
    apply s (.delete key) = Function.update s key none := rfl

theorem apply_of_ne {s : κ → Option ν} {op : Op κ ν} {k : κ} (h : op.key ≠ k) :
    apply s op k = s k := by
  cases op with
  | insert key value => exact Function.update_of_ne (Ne.symm h) _ _
  | delete key => exact Function.update_of_ne (Ne.symm h) _ _

/-- **Frame**: a key that no write of the batch names keeps its value. -/
theorem exec_of_forall_ne {s : κ → Option ν} {ops : List (Op κ ν)} {k : κ}
    (h : ∀ op ∈ ops, op.key ≠ k) : exec s ops k = s k := by
  -- induction on the batch, from any store
  induction ops generalizing s with
  | nil => rfl
  | cons op ops ih =>
    rw [exec_cons, ih fun op' hop' => h op' (List.mem_cons_of_mem op hop'),
      apply_of_ne (h op List.mem_cons_self)]

end Kv
