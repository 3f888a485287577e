import Mathlib

/-!
# Slice.Vec — `Vec::push` and `Vec::swap_remove` over lists

`xs ++ [x]` is `push`: it reads `x` at the old length and as before below it
(`getElem?_append_singleton_eq_some`).  `swapRemove xs i` moves the last element into position `i`
and drops the last position.  It keeps every other element where it was (`getElem?_swapRemove`),
it removes exactly the element at `i` from the multiset of elements (`perm_swapRemove`), so from
the set of a list without duplicates (`toFinset_swapRemove`), and on such a list it finds each
element at one position (`getElem?_swapRemove_eq_some`).
-/

namespace Slice

variable {α : Type}

/-- `push`: the new element sits at the old length. -/
theorem getElem?_append_singleton_eq_some {xs : List α} {x y : α} {k : Nat} :
    (xs ++ [x])[k]? = some y ↔ xs[k]? = some y ∨ (k = xs.length ∧ x = y) := by
  rw [List.getElem?_append]
  split_ifs with hk
  · exact ⟨Or.inl, fun h => h.elim id fun h => absurd h.1 (by omega)⟩
  · rw [List.getElem?_eq_none (by omega : xs.length ≤ k)]
    cases h : k - xs.length with
    | zero => simp; omega
    | succ n => simp; omega

/-- `Vec::swap_remove`: the last element takes the place of the one at `i`. -/
def swapRemove (xs : List α) (i : Nat) : List α :=
  match xs.getLast? with
  | none => []
  | some last => (xs.set i last).dropLast

theorem swapRemove_eq {xs : List α} {i : Nat} (hi : i < xs.length) :
    swapRemove xs i = (xs.set i xs[xs.length - 1]).dropLast := by
  rw [swapRemove, List.getLast?_eq_getElem?, List.getElem?_eq_getElem (by omega)]

theorem length_swapRemove {xs : List α} {i : Nat} (hi : i < xs.length) :
    (swapRemove xs i).length = xs.length - 1 := by
  simp [swapRemove_eq hi]

/-- The positions below the new length read as before, except `i`, which reads the old last. -/
theorem getElem?_swapRemove {xs : List α} {i : Nat} (hi : i < xs.length) (j : Nat) :
    (swapRemove xs i)[j]? =
      if j + 1 < xs.length then (if j = i then xs.getLast? else xs[j]?) else none := by
  rw [swapRemove_eq hi, List.getElem?_dropLast, List.length_set, List.getLast?_eq_getElem?,
    List.getElem?_set, List.getElem?_eq_getElem (show xs.length - 1 < xs.length by omega)]
  by_cases hj : j + 1 < xs.length
  · by_cases hij : i = j
    · subst hij
      simp [hi, hj, show i < xs.length - 1 by omega]
    · simp [show j < xs.length - 1 by omega, hj, hij, Ne.symm hij]
  · simp [show ¬ j < xs.length - 1 by omega, hj]

/-- Removing the last position of a list split before it. -/
theorem swapRemove_append_singleton (pre : List α) (a : α) :
    swapRemove (pre ++ [a]) pre.length = pre := by
  simp [swapRemove]

/-- Removing an inner position: the last element moves into it. -/
theorem swapRemove_append_cons (pre mid : List α) (a last : α) :
    swapRemove (pre ++ a :: (mid ++ [last])) pre.length = pre ++ last :: mid := by
  rw [swapRemove, show (pre ++ a :: (mid ++ [last])).getLast? = some last by
    rw [← List.cons_append, ← List.append_assoc, List.getLast?_concat]]
  dsimp only
  rw [List.set_append_right _ _ (Nat.le_refl _), Nat.sub_self, List.set_cons_zero,
    ← List.cons_append, ← List.append_assoc, List.dropLast_concat]

/-- The removed element and what is left are the elements of the list. -/
theorem perm_swapRemove {xs : List α} {i : Nat} (hi : i < xs.length) :
    (xs[i] :: swapRemove xs i).Perm xs := by
  have hsplit : xs = xs.take i ++ xs[i] :: xs.drop (i + 1) := by
    rw [List.getElem_cons_drop, List.take_append_drop]
  have hlen : (xs.take i).length = i := List.length_take_of_le hi.le
  generalize xs.take i = pre at hsplit hlen
  generalize xs.drop (i + 1) = rest at hsplit
  generalize xs[i] = a at hsplit ⊢
  subst hsplit hlen
  -- the removed position is the last one, or the last element moves into it
  rcases List.eq_nil_or_concat' rest with rfl | ⟨mid, last, rfl⟩
  · rw [swapRemove_append_singleton]
    exact (List.perm_append_singleton a pre).symm
  · rw [swapRemove_append_cons]
    -- the last element sits where `a` was: move it back to the end
    calc List.Perm (a :: (pre ++ last :: mid)) (a :: (pre ++ (mid ++ [last]))) :=
          ((List.perm_append_singleton last mid).symm.append_left pre).cons a
      List.Perm _ (pre ++ a :: (mid ++ [last])) := List.perm_middle.symm

theorem nodup_swapRemove {xs : List α} {i : Nat} (hi : i < xs.length) (hxs : xs.Nodup) :
    (swapRemove xs i).Nodup :=
  ((perm_swapRemove hi).nodup_iff.mpr hxs).of_cons

theorem toFinset_swapRemove [DecidableEq α] {xs : List α} {i : Nat} (hi : i < xs.length)
    (hxs : xs.Nodup) : (swapRemove xs i).toFinset = xs.toFinset.erase xs[i] := by
  have hnot : xs[i] ∉ swapRemove xs i := ((perm_swapRemove hi).nodup_iff.mpr hxs).notMem
  rw [← List.toFinset_eq_of_perm _ _ (perm_swapRemove hi), List.toFinset_cons,
    Finset.erase_insert (by simpa using hnot)]

/-- On a list without duplicates, an element is found after `swapRemove` where it was, except the
removed one, which is gone, and the last one, which is found at `i`. -/
theorem getElem?_swapRemove_eq_some [DecidableEq α] {xs : List α} {i : Nat} (hnd : xs.Nodup) (hi : i < xs.length)
    {k : Nat} {y : α} :
    (swapRemove xs i)[k]? = some y ↔
      y ≠ xs[i] ∧ (if y = xs[xs.length - 1] then k = i else xs[k]? = some y) := by
  have hn : xs.length - 1 < xs.length := by omega
  have hlast : xs.getLast? = some xs[xs.length - 1] := by
    rw [List.getLast?_eq_getElem?, List.getElem?_eq_getElem hn]
  -- two positions of one element are one position
  have hinj : ∀ {a b : Nat} (ha : a < xs.length) (hb : b < xs.length), xs[a] = xs[b] → a = b :=
    fun ha hb h => (hnd.getElem_inj_iff).mp h
  rw [getElem?_swapRemove hi]
  constructor
  · intro h
    split_ifs at h with hk hki
    · -- position `i` now holds the old last element
      subst hki
      rw [hlast, Option.some_inj] at h
      subst h
      refine ⟨fun h => absurd (hinj hn hi h) (by omega), by simp⟩
    · obtain ⟨hk', rfl⟩ := List.getElem?_eq_some_iff.mp h
      refine ⟨fun h => hki (hinj hk' hi h), ?_⟩
      rw [if_neg fun h => absurd (hinj hk' hn h) (by omega)]
      exact List.getElem?_eq_getElem hk'
  · rintro ⟨hne, h⟩
    split_ifs at h with hy
    · subst h hy
      have hki : k ≠ xs.length - 1 := fun h => hne (by simp [h])
      rw [if_pos (by omega), if_pos rfl, hlast]
    · obtain ⟨hk', rfl⟩ := List.getElem?_eq_some_iff.mp h
      have hk₁ : k ≠ xs.length - 1 := fun h => hy (by simp [h])
      have hk₂ : k ≠ i := fun h => hne (by simp [h])
      rw [if_pos (by omega), if_neg hk₂]
      exact List.getElem?_eq_getElem hk'

end Slice
