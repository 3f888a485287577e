import Mathlib

/-!
# Slice.Search — Rust slice reads over lists

`getRange xs a b` is `xs.get(a..b)`: the elements from `a` to `b`, or nothing when the range
leaves the slice.  `binarySearchByKey f key xs` is `xs.binary_search_by_key(&key, f)` by its
contract: `Ok` of the index of an element with key `key`, `Err` of the index where one would be
inserted, both the length of the prefix of keys below `key`.  On a list whose keys increase this
is the only answer the contract allows; the lemmas below take the list split at that prefix.
-/

namespace Slice

variable {α : Type}

/-- `xs.get(a..b)`. -/
def getRange (xs : List α) (a b : Nat) : Option (List α) :=
  if a ≤ b ∧ b ≤ xs.length then some ((xs.drop a).take (b - a)) else none

theorem getRange_eq_some {xs : List α} {a b : Nat} (hab : a ≤ b) (hb : b ≤ xs.length) :
    getRange xs a b = some ((xs.drop a).take (b - a)) := by
  simp [getRange, hab, hb]

theorem getRange_eq_none {xs : List α} {a b : Nat} (hb : xs.length < b) :
    getRange xs a b = none := by
  simp [getRange]
  omega

theorem length_of_getRange {xs ys : List α} {a b : Nat} (h : getRange xs a b = some ys) :
    ys.length = b - a := by
  unfold getRange at h
  split_ifs at h with hab
  cases h
  simp
  omega

theorem getElem?_of_getRange {xs ys : List α} {a b : Nat} (h : getRange xs a b = some ys)
    {j : Nat} (hj : j < b - a) : ys[j]? = xs[a + j]? := by
  unfold getRange at h
  split_ifs at h with hab
  cases h
  rw [List.getElem?_take_of_lt hj, List.getElem?_drop]

/-- `xs.binary_search_by_key(&key, f)`, by its contract. -/
def binarySearchByKey (f : α → Nat) (key : Nat) (xs : List α) : Except Nat Nat :=
  let i := (xs.takeWhile fun x => f x < key).length
  match xs[i]? with
  | some x => if f x = key then .ok i else .error i
  | none => .error i

/-- The search on a list split at the prefix of keys below `key`. -/
theorem binarySearchByKey_append {f : α → Nat} {key : Nat} {pre post : List α}
    (hpre : ∀ x ∈ pre, f x < key) (hpost : ∀ x ∈ post, key ≤ f x) :
    binarySearchByKey f key (pre ++ post) =
      if post.head?.map f = some key then .ok pre.length else .error pre.length := by
  have htake : (pre ++ post).takeWhile (fun x => decide (f x < key)) = pre := by
    rw [List.takeWhile_append_of_pos (by simpa using hpre)]
    cases post with
    | nil => simp
    | cons x rest =>
      have := hpost x List.mem_cons_self
      simp [show ¬ f x < key by omega]
  unfold binarySearchByKey
  simp only [htake, List.getElem?_append_right (Nat.le_refl _), Nat.sub_self]
  cases post <;> simp

/-- On keys that increase, the elements after the prefix of keys below `key` have keys at
least `key`. -/
theorem le_of_mem_dropWhile {f : α → Nat} {key : Nat} {xs : List α}
    (hs : xs.Pairwise fun x y => f x < f y) {y : α}
    (hy : y ∈ xs.dropWhile fun x => f x < key) : key ≤ f y := by
  induction xs with
  | nil => simp at hy
  | cons x rest ih =>
    rw [List.pairwise_cons] at hs
    by_cases hx : f x < key
    · rw [List.dropWhile_cons_of_pos (by simpa using hx)] at hy
      exact ih hs.2 hy
    · rw [List.dropWhile_cons_of_neg (by simpa using hx)] at hy
      rcases List.mem_cons.mp hy with rfl | hy
      · omega
      · have := hs.1 y hy
        omega

/-- A list whose keys increase splits at the prefix of keys below `key`. -/
theorem exists_split_of_pairwise {f : α → Nat} (key : Nat) {xs : List α}
    (hs : xs.Pairwise fun x y => f x < f y) :
    ∃ pre post, xs = pre ++ post ∧ (∀ x ∈ pre, f x < key) ∧ (∀ x ∈ post, key ≤ f x) :=
  ⟨_, _, List.takeWhile_append_dropWhile.symm,
    fun x hx => by simpa using List.mem_takeWhile_imp hx, fun _ hy => le_of_mem_dropWhile hs hy⟩

end Slice
