import Mathlib

/-!
# Bytes.Basic — integers as bytes, ranges of a slice, chunks

The bytes of a natural number of a given width, least significant first (`to_le_bytes`) or most
significant first (`to_be_bytes`), and the number they read back as; a read of a range of a
slice that fails out of bounds (`get(start..stop)`, `get(start..)`); and the runs of `n` items
that `chunks(n)` cuts a slice into.  The lemmas are the ones a codec's round trip needs: the
widths, reading back a value that fits, and finding a part of a concatenation where it was put.
-/

namespace Ionian.Bytes

/-! ## Little- and big-endian bytes -/

/-- The `width` low bytes of `x`, least significant first. -/
def toLeBytes : Nat → Nat → List UInt8
  | 0, _ => []
  | width + 1, x => UInt8.ofNat (x % 256) :: toLeBytes width (x / 256)

/-- The number whose little-endian bytes these are. -/
def fromLeBytes : List UInt8 → Nat
  | [] => 0
  | b :: bytes => b.toNat + 256 * fromLeBytes bytes

/-- The `width` low bytes of `x`, most significant first. -/
def toBeBytes (width x : Nat) : List UInt8 := (toLeBytes width x).reverse

/-- The number whose big-endian bytes these are. -/
def fromBeBytes (bytes : List UInt8) : Nat := fromLeBytes bytes.reverse

@[simp] theorem length_toLeBytes (width x : Nat) : (toLeBytes width x).length = width := by
  induction width generalizing x with
  | zero => rfl
  | succ width ih => simp [toLeBytes, ih]

@[simp] theorem length_toBeBytes (width x : Nat) : (toBeBytes width x).length = width := by
  simp [toBeBytes]

/-- Reading the bytes of `x` back gives `x` modulo the width. -/
theorem fromLeBytes_toLeBytes (width x : Nat) : fromLeBytes (toLeBytes width x) = x % 2 ^ (8 * width) := by
  induction width generalizing x with
  | zero => simp [toLeBytes, fromLeBytes, Nat.mod_one]
  | succ width ih =>
    -- one more byte of width is one more factor of 256
    have hpow : 2 ^ (8 * (width + 1)) = 256 * 2 ^ (8 * width) := by
      rw [Nat.mul_succ, Nat.pow_add, Nat.mul_comm]
    have hbyte : (UInt8.ofNat (x % 256)).toNat = x % 256 := by simp
    rw [toLeBytes, fromLeBytes, ih, hbyte, hpow, Nat.mod_mul]

theorem fromLeBytes_toLeBytes_of_lt {width x : Nat} (h : x < 2 ^ (8 * width)) :
    fromLeBytes (toLeBytes width x) = x := by
  rw [fromLeBytes_toLeBytes, Nat.mod_eq_of_lt h]

theorem fromBeBytes_toBeBytes_of_lt {width x : Nat} (h : x < 2 ^ (8 * width)) :
    fromBeBytes (toBeBytes width x) = x := by
  rw [fromBeBytes, toBeBytes, List.reverse_reverse, fromLeBytes_toLeBytes_of_lt h]

/-! ## Ranges of a slice -/

section Slice

variable {α : Type}

/-- `slice.get(start..stop)`. -/
def sliceRange (xs : List α) (start stop : Nat) : Option (List α) :=
  if start ≤ stop ∧ stop ≤ xs.length then some ((xs.drop start).take (stop - start)) else none

/-- `slice.get(start..)`. -/
def sliceFrom (xs : List α) (start : Nat) : Option (List α) :=
  if start ≤ xs.length then some (xs.drop start) else none

/-- The part of a concatenation between its front and its back. -/
theorem sliceRange_middle (front mid back : List α) :
    sliceRange (front ++ mid ++ back) front.length (front.length + mid.length) = some mid := by
  have hlen : front.length + mid.length ≤ (front ++ mid ++ back).length := by simp
  rw [sliceRange, if_pos ⟨Nat.le_add_right _ _, hlen⟩, Nat.add_sub_cancel_left, List.append_assoc,
    List.drop_left, List.take_left]

/-- The back of a concatenation. -/
theorem sliceFrom_back (front back : List α) : sliceFrom (front ++ back) front.length = some back := by
  rw [sliceFrom, if_pos (by simp), List.drop_left]

/-! ## Chunks -/

/-- `slice.chunks(n)`: runs of `n` items, the last one shorter. -/
def chunks (n : Nat) (hn : 0 < n) : List α → List (List α)
  | [] => []
  | x :: rest => (x :: rest).take n :: chunks n hn ((x :: rest).drop n)
termination_by xs => xs.length
decreasing_by
  simp only [List.length_drop, List.length_cons]
  omega

/-- Runs of `n` items, put end to end, are cut back into the same runs. -/
theorem chunks_flatten {n : Nat} (hn : 0 < n) :
    ∀ parts : List (List α), (∀ p ∈ parts, p.length = n) → chunks n hn parts.flatten = parts
  | [], _ => by simp [chunks]
  | p :: parts, hlen => by
    have hp : p.length = n := hlen p (List.mem_cons_self ..)
    -- the first run is not empty, as `n` is not zero
    obtain ⟨x, rest, hx⟩ : ∃ x rest, p ++ parts.flatten = x :: rest := by
      cases p with
      | nil => simp at hp; omega
      | cons x p => exact ⟨x, p ++ parts.flatten, rfl⟩
    rw [List.flatten_cons, hx, chunks, ← hx, List.take_left' hp, List.drop_left' hp,
      chunks_flatten hn parts fun q hq => hlen q (List.mem_cons_of_mem _ hq)]

end Slice

end Ionian.Bytes
