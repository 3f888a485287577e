import Mathlib

/-!
# Bits.Smear — setting every bit below the highest one

`v ||| v >>> j` copies every set bit of `v` to the position `j` below it.  If the bits `[k - j, k)`
of a value below `2 ^ k` are set, one such step sets the bits `[k - 2j, k)` and adds nothing at or
above `k` (`TopFilled.or_shiftRight`).  A value with bit length `k` starts with its top bit set
(`topFilled_size`), so the shifts `1, 2, 4, …` set every bit below `k` as soon as their sum reaches
`k`, and the value is then `2 ^ k - 1` (`TopFilled.eq`).
-/

namespace Bits

/-- The bits `[k - j, k)` of `v` are set, and `v < 2 ^ k`. -/
def TopFilled (k j v : Nat) : Prop :=
  v < 2 ^ k ∧ ∀ i, k - j ≤ i → i < k → v.testBit i = true

/-- A value has its top bit set: the bit below its bit length. -/
theorem topFilled_size (v : Nat) : TopFilled v.size 1 v := by
  refine ⟨Nat.lt_size_self v, fun i hlo hhi => ?_⟩
  have hi : i = v.size - 1 := by omega
  subst hi
  -- `2 ^ (k - 1) ≤ v < 2 ^ k`, so `v / 2 ^ (k - 1) = 1`
  have hlow : 2 ^ (v.size - 1) ≤ v := Nat.lt_size.mp (by omega)
  have hhigh : v < 2 ^ (v.size - 1) * 2 := by
    rw [← pow_succ, Nat.sub_add_cancel (by omega)]
    exact Nat.lt_size_self v
  have hdiv : v / 2 ^ (v.size - 1) = 1 := by
    apply Nat.le_antisymm
    · exact Nat.le_of_lt_succ ((Nat.div_lt_iff_lt_mul (Nat.two_pow_pos _)).mpr (by omega))
    · exact (Nat.le_div_iff_mul_le (Nat.two_pow_pos _)).mpr (by omega)
  rw [Nat.testBit_eq_decide_div_mod_eq, hdiv]
  rfl

/-- One step of the smear doubles the run of set bits under the top. -/
theorem TopFilled.or_shiftRight {k j v : Nat} (h : TopFilled k j v) :
    TopFilled k (2 * j) (v ||| v >>> j) := by
  obtain ⟨hlt, hbits⟩ := h
  refine ⟨Nat.or_lt_two_pow hlt (lt_of_le_of_lt (Nat.shiftRight_le v j) hlt), fun i hlo hhi => ?_⟩
  rw [Nat.testBit_or, Nat.testBit_shiftRight, Bool.or_eq_true]
  -- a bit of the upper half is set already; one of the lower half is the copy of `i + j`
  by_cases hup : k - j ≤ i
  · exact Or.inl (hbits i hup hhi)
  · exact Or.inr (hbits (j + i) (by omega) (by omega))

/-- Once the run reaches the bottom bit, the value is all ones below `k`. -/
theorem TopFilled.eq {k j v : Nat} (h : TopFilled k j v) (hk : k ≤ j) : v = 2 ^ k - 1 := by
  obtain ⟨hlt, hbits⟩ := h
  apply Nat.eq_of_testBit_eq
  intro i
  rw [Nat.testBit_two_pow_sub_one]
  by_cases hi : i < k
  · rw [hbits i (by omega) hi, decide_eq_true hi]
  · rw [Nat.testBit_lt_two_pow (lt_of_lt_of_le hlt (Nat.pow_le_pow_right (by decide) (by omega))),
      decide_eq_false hi]

end Bits
