import Mathlib

/-!
# Merkle.Layers — the layers of a padded binary hash tree

`pairUp node pad k xs` is the layer above `xs` when `xs` sits at height `k`: adjacent nodes are
combined with `node`, an unpaired last node with `pad k`.  `layer j xs` is the `j`-th layer above
`xs`, `numLayers n` counts the layers of `n` leaves up to the first layer with at most one node,
and `rootFrom k xs` pairs layers until one node remains.  `layers D xs` lists the first `D` layers
and `spliceLayers k D xs ys` the layers of `ys` up to height `k` followed by those of `xs` above.
Nothing here is tied to one tree: the tree models instantiate `node` and `pad`.
-/

namespace Merkle

section PairUp

variable {α : Type} (node : α → α → α) (pad : Nat → α → α)

/-- The layer above `xs`, which sits at height `k`. -/
def pairUp (k : Nat) : List α → List α
  | a :: b :: rest => node a b :: pairUp k rest
  | [a] => [pad k a]
  | [] => []

@[simp] theorem pairUp_nil (k : Nat) : pairUp node pad k [] = [] := rfl

@[simp] theorem pairUp_single (k : Nat) (a : α) : pairUp node pad k [a] = [pad k a] := rfl

@[simp] theorem pairUp_cons_cons (k : Nat) (a b : α) (rest : List α) :
    pairUp node pad k (a :: b :: rest) = node a b :: pairUp node pad k rest := rfl

theorem length_pairUp (k : Nat) (xs : List α) :
    (pairUp node pad k xs).length = (xs.length + 1) / 2 := by
  fun_induction pairUp node pad k xs with
  | case1 a b rest ih => simp only [List.length_cons, ih]; omega
  | case2 a => simp
  | case3 => simp

/-- Dropping `m` parents is pairing after dropping their `2 * m` children. -/
theorem drop_pairUp (k m : Nat) (xs : List α) :
    (pairUp node pad k xs).drop m = pairUp node pad k (xs.drop (2 * m)) := by
  induction m generalizing xs with
  | zero => rfl
  | succ m ih =>
    match xs with
    | [] => simp
    | [a] => simp [show 2 * (m + 1) = (2 * m + 1) + 1 by omega]
    | a :: b :: rest =>
      rw [pairUp_cons_cons, List.drop_succ_cons, ih, show 2 * (m + 1) = 2 * m + 2 by omega]
      rfl

/-- Taking `m` parents is pairing the first `2 * m` children. -/
theorem take_pairUp (k m : Nat) (xs : List α) :
    (pairUp node pad k xs).take m = pairUp node pad k (xs.take (2 * m)) := by
  induction m generalizing xs with
  | zero => simp
  | succ m ih =>
    match xs with
    | [] => simp
    | [a] => simp [show 2 * (m + 1) = (2 * m + 1) + 1 by omega]
    | a :: b :: rest =>
      rw [pairUp_cons_cons, List.take_succ_cons, ih, show 2 * (m + 1) = 2 * m + 2 by omega]
      rfl

/-- The parents of a slice starting at an even index are a slice of the parent layer. -/
theorem pairUp_drop_take (k : Nat) (xs : List α) {a : Nat} (ha : a % 2 = 0) (m : Nat) :
    pairUp node pad k ((xs.drop a).take (2 * m)) = ((pairUp node pad k xs).drop (a / 2)).take m := by
  rw [drop_pairUp, take_pairUp, Nat.mul_div_cancel' (Nat.dvd_of_mod_eq_zero ha)]

/-- Lists that agree on their first `s` entries have parents that agree on the first `s / 2`. -/
theorem take_pairUp_of_take_eq {xs ys : List α} {s : Nat} (k : Nat)
    (h : xs.take s = ys.take s) :
    (pairUp node pad k xs).take (s / 2) = (pairUp node pad k ys).take (s / 2) := by
  have hs : 2 * (s / 2) = min (2 * (s / 2)) s := by omega
  rw [take_pairUp, take_pairUp, hs, ← List.take_take, ← List.take_take, h]

/-- The parent at index `i` pairs the children at `2 * i` and `2 * i + 1`, or pads a last child. -/
theorem getElem?_pairUp (k : Nat) (xs : List α) (i : Nat) :
    (pairUp node pad k xs)[i]? =
      match xs[2 * i]?, xs[2 * i + 1]? with
      | some a, some b => some (node a b)
      | some a, none => some (pad k a)
      | none, _ => none := by
  have hdrop : (pairUp node pad k xs)[i]? = (pairUp node pad k (xs.drop (2 * i))).head? := by
    rw [← drop_pairUp, List.head?_drop]
  have h0 : xs[2 * i]? = (xs.drop (2 * i))[0]? := by simp
  have h1 : xs[2 * i + 1]? = (xs.drop (2 * i))[1]? := by simp [Nat.add_comm]
  rw [hdrop, h0, h1]
  match xs.drop (2 * i) with
  | [] => rfl
  | [a] => rfl
  | a :: b :: rest => rfl

theorem getElem?_pairUp_of_pair {xs : List α} {i : Nat} {a b : α} (k : Nat)
    (ha : xs[2 * i]? = some a) (hb : xs[2 * i + 1]? = some b) :
    (pairUp node pad k xs)[i]? = some (node a b) := by
  rw [getElem?_pairUp, ha, hb]

theorem getElem?_pairUp_of_last {xs : List α} {i : Nat} {a : α} (k : Nat)
    (ha : xs[2 * i]? = some a) (hlast : 2 * i + 1 = xs.length) :
    (pairUp node pad k xs)[i]? = some (pad k a) := by
  rw [getElem?_pairUp, ha, List.getElem?_eq_none (by omega)]

/-- Every node of the parent layer satisfies `P` when `node` and `pad` always produce one. -/
theorem forall_mem_pairUp (P : α → Prop) (hnode : ∀ a b, P (node a b)) (hpad : ∀ k a, P (pad k a))
    (k : Nat) (xs : List α) : ∀ x ∈ pairUp node pad k xs, P x := by
  fun_induction pairUp node pad k xs with
  | case1 a b rest ih =>
    intro x hx
    rcases List.mem_cons.mp hx with rfl | hx
    · exact hnode a b
    · exact ih x hx
  | case2 a => simp [hpad]
  | case3 => simp

end PairUp

section Layer

variable {α : Type} (node : α → α → α) (pad : Nat → α → α)

/-- The `j`-th layer above `xs`: `pairUp` applied at heights `0, …, j - 1`. -/
def layer : Nat → List α → List α
  | 0, xs => xs
  | j + 1, xs => pairUp node pad j (layer j xs)

@[simp] theorem layer_zero (xs : List α) : layer node pad 0 xs = xs := rfl

theorem layer_succ (j : Nat) (xs : List α) :
    layer node pad (j + 1) xs = pairUp node pad j (layer node pad j xs) := rfl

/-- The length of a layer only depends on the number of leaves. -/
theorem length_layer (j : Nat) (xs : List α) :
    (layer node pad j xs).length = (fun n => (n + 1) / 2)^[j] xs.length := by
  induction j with
  | zero => rfl
  | succ j ih => rw [layer_succ, length_pairUp, ih, Function.iterate_succ_apply']

theorem iterate_half_mono {n m : Nat} (h : n ≤ m) (j : Nat) :
    (fun n => (n + 1) / 2)^[j] n ≤ (fun n => (n + 1) / 2)^[j] m := by
  induction j with
  | zero => exact h
  | succ j ih => rw [Function.iterate_succ_apply', Function.iterate_succ_apply']; omega

/-- The `j`-th layer of `n` leaves keeps at least `s / 2 ^ j` nodes when `s ≤ n`. -/
theorem div_pow_le_iterate_half {s n : Nat} (h : s ≤ n) (j : Nat) :
    s / 2 ^ j ≤ (fun n => (n + 1) / 2)^[j] n := by
  induction j with
  | zero => simpa using h
  | succ j ih =>
    rw [Function.iterate_succ_apply', pow_succ, ← Nat.div_div_eq_div_mul]
    omega

/-- ... and at most `s / 2 ^ j + 1` nodes when `n ≤ s + 1`. -/
theorem iterate_half_le_div_pow {s n : Nat} (h : n ≤ s + 1) (j : Nat) :
    (fun n => (n + 1) / 2)^[j] n ≤ s / 2 ^ j + 1 := by
  induction j with
  | zero => simpa using h
  | succ j ih =>
    rw [Function.iterate_succ_apply', pow_succ, ← Nat.div_div_eq_div_mul]
    omega

/-- ... and more than `u / 2 ^ j` nodes when `u < n`. -/
theorem div_pow_lt_iterate_half {u n : Nat} (h : u < n) (j : Nat) :
    u / 2 ^ j < (fun n => (n + 1) / 2)^[j] n := by
  induction j with
  | zero => simpa using h
  | succ j ih =>
    rw [Function.iterate_succ_apply', pow_succ, ← Nat.div_div_eq_div_mul]
    omega

/-- `2 ^ j * c` more leaves give `c` more nodes at height `j`. -/
theorem iterate_half_add_two_pow_mul (j x c : Nat) :
    (fun n => (n + 1) / 2)^[j] (x + 2 ^ j * c) = (fun n => (n + 1) / 2)^[j] x + c := by
  induction j generalizing x with
  | zero => simp
  | succ j ih =>
    rw [Function.iterate_succ_apply, Function.iterate_succ_apply, ← ih]
    congr 1
    have hpow : 2 ^ (j + 1) * c = 2 * (2 ^ j * c) := by rw [pow_succ]; ring
    rw [hpow]
    omega

/-- The number of layers above `n` leaves, up to the first layer with at most one node. -/
def numLayers (n : Nat) : Nat :=
  if n ≤ 1 then 1 else numLayers ((n + 1) / 2) + 1
termination_by n
decreasing_by omega

theorem numLayers_of_le_one {n : Nat} (h : n ≤ 1) : numLayers n = 1 := by
  rw [numLayers, if_pos h]

theorem numLayers_of_one_lt {n : Nat} (h : 1 < n) : numLayers n = numLayers ((n + 1) / 2) + 1 := by
  rw [numLayers, if_neg (by omega)]

theorem numLayers_pos (n : Nat) : 0 < numLayers n := by
  rcases Nat.lt_or_ge 1 n with h | h
  · rw [numLayers_of_one_lt h]; omega
  · rw [numLayers_of_le_one h]; omega

theorem numLayers_mono {n m : Nat} (h : n ≤ m) : numLayers n ≤ numLayers m := by
  induction m using Nat.strong_induction_on generalizing n with
  | _ m ih =>
    rcases Nat.lt_or_ge 1 n with hn | hn
    · rw [numLayers_of_one_lt hn, numLayers_of_one_lt (by omega : 1 < m)]
      have := ih ((m + 1) / 2) (by omega) (n := (n + 1) / 2) (by omega)
      omega
    · rw [numLayers_of_le_one hn]
      exact numLayers_pos m

/-- `n` leaves fit below `numLayers n - 1` halvings. -/
theorem le_two_pow_numLayers (n : Nat) : n ≤ 2 ^ (numLayers n - 1) := by
  induction n using Nat.strong_induction_on with
  | _ n ih =>
    rcases Nat.lt_or_ge 1 n with h | h
    · have hhalf := ih ((n + 1) / 2) (by omega)
      have hpos := numLayers_pos ((n + 1) / 2)
      rw [numLayers_of_one_lt h, Nat.add_sub_cancel]
      calc n ≤ 2 * ((n + 1) / 2) := by omega
        _ ≤ 2 * 2 ^ (numLayers ((n + 1) / 2) - 1) := Nat.mul_le_mul_left 2 hhalf
        _ = 2 ^ numLayers ((n + 1) / 2) := by
          rw [← pow_succ']; congr 1; omega
    · rw [numLayers_of_le_one h]; simpa using h

/-- A layer below the top one has at least two nodes. -/
theorem one_lt_iterate_half_iff (n j : Nat) :
    1 < (fun n => (n + 1) / 2)^[j] n ↔ j + 1 < numLayers n := by
  induction j generalizing n with
  | zero =>
    rcases Nat.lt_or_ge 1 n with h | h
    · have := numLayers_pos ((n + 1) / 2)
      rw [numLayers_of_one_lt h]; simp only [Function.iterate_zero, id_eq]; omega
    · rw [numLayers_of_le_one h]; simp only [Function.iterate_zero, id_eq]; omega
  | succ j ih =>
    rw [Function.iterate_succ_apply, ih]
    rcases Nat.lt_or_ge 1 n with h | h
    · rw [numLayers_of_one_lt h]; omega
    · rw [numLayers_of_le_one h, numLayers_of_le_one (by omega : (n + 1) / 2 ≤ 1)]; omega

theorem one_lt_length_layer_iff (j : Nat) (xs : List α) :
    1 < (layer node pad j xs).length ↔ j + 1 < numLayers xs.length := by
  rw [length_layer, one_lt_iterate_half_iff]

/-- From height `numLayers - 1` on, the layers of a nonempty list are one node. -/
theorem length_layer_eq_one {xs : List α} (hxs : xs ≠ []) {j : Nat}
    (hj : numLayers xs.length ≤ j + 1) : (layer node pad j xs).length = 1 := by
  have hle : ¬1 < (layer node pad j xs).length := by
    rw [one_lt_length_layer_iff]; omega
  have hpos : 0 < (layer node pad j xs).length := by
    rw [length_layer]
    have h0 : 0 < xs.length := List.length_pos_iff.mpr hxs
    clear hle hj
    induction j with
    | zero => exact h0
    | succ j ih => rw [Function.iterate_succ_apply']; omega
  omega

/-- Layers that agree on their first `s` leaves agree on the first `s / 2 ^ j` nodes. -/
theorem take_layer_of_take_eq {xs ys : List α} {s : Nat} (h : xs.take s = ys.take s) (j : Nat) :
    (layer node pad j xs).take (s / 2 ^ j) = (layer node pad j ys).take (s / 2 ^ j) := by
  induction j with
  | zero => simpa using h
  | succ j ih =>
    rw [layer_succ, layer_succ, pow_succ, ← Nat.div_div_eq_div_mul]
    exact take_pairUp_of_take_eq node pad j ih

theorem forall_mem_layer (P : α → Prop) (hnode : ∀ a b, P (node a b)) (hpad : ∀ k a, P (pad k a))
    (j : Nat) (xs : List α) (hxs : ∀ x ∈ xs, P x) : ∀ x ∈ layer node pad j xs, P x := by
  induction j with
  | zero => exact hxs
  | succ j _ => exact forall_mem_pairUp node pad P hnode hpad j _

/-- The first `D` layers above `xs`. -/
def layers (D : Nat) (xs : List α) : List (List α) :=
  (List.range D).map fun j => layer node pad j xs

@[simp] theorem length_layers (D : Nat) (xs : List α) : (layers node pad D xs).length = D := by
  simp [layers]

@[simp] theorem getElem_layers (D : Nat) (xs : List α) (j : Nat) (h : j < (layers node pad D xs).length) :
    (layers node pad D xs)[j] = layer node pad j xs := by
  simp [layers]

theorem layers_eq_cons {D : Nat} (hD : 0 < D) (xs : List α) :
    layers node pad D xs = xs :: (layers node pad D xs).tail := by
  obtain ⟨D, rfl⟩ : ∃ D', D = D' + 1 := ⟨D - 1, by omega⟩
  simp [layers, List.range_succ_eq_map]

/-- The layers of `ys` up to height `k`, then those of `xs` above it: `max (k + 1) D` layers. -/
def spliceLayers (k D : Nat) (xs ys : List α) : List (List α) :=
  (List.range (max (k + 1) D)).map fun j => if j ≤ k then layer node pad j ys else layer node pad j xs

@[simp] theorem length_spliceLayers (k D : Nat) (xs ys : List α) :
    (spliceLayers node pad k D xs ys).length = max (k + 1) D := by
  simp [spliceLayers]

theorem getElem_spliceLayers (k D : Nat) (xs ys : List α) (j : Nat)
    (h : j < (spliceLayers node pad k D xs ys).length) :
    (spliceLayers node pad k D xs ys)[j] =
      if j ≤ k then layer node pad j ys else layer node pad j xs := by
  simp [spliceLayers]

theorem getElem?_spliceLayers_self (k D : Nat) (xs ys : List α) :
    (spliceLayers node pad k D xs ys)[k]? = some (layer node pad k ys) := by
  rw [List.getElem?_eq_getElem (by simp), getElem_spliceLayers, if_pos le_rfl]

theorem getElem?_spliceLayers_succ {k D : Nat} (h : k + 1 < D) (xs ys : List α) :
    (spliceLayers node pad k D xs ys)[k + 1]? = some (layer node pad (k + 1) xs) := by
  rw [List.getElem?_eq_getElem (by simp; omega), getElem_spliceLayers, if_neg (by omega)]

/-- Before the first pass only the leaves have been replaced. -/
theorem spliceLayers_zero {D : Nat} (hD : 0 < D) (xs ys : List α) :
    spliceLayers node pad 0 D xs ys = ys :: (layers node pad D xs).tail := by
  apply List.ext_getElem
  · simp; omega
  · intro j h₁ h₂
    rw [getElem_spliceLayers]
    cases j with
    | zero => simp
    | succ j => simp [layers]

/-- Once the pass has reached the old top, the splice is made of new layers only. -/
theorem spliceLayers_of_le {k D : Nat} (h : D ≤ k + 1) (xs ys : List α) :
    spliceLayers node pad k D xs ys = layers node pad (k + 1) ys := by
  apply List.ext_getElem
  · simp; omega
  · intro j h₁ h₂
    rw [getElem_spliceLayers, getElem_layers]
    simp at h₂
    rw [if_pos (by omega)]

/-- One pass below the old top overwrites layer `k + 1` with its new value. -/
theorem set_spliceLayers {k D : Nat} (h : k + 1 < D) (xs ys : List α) :
    (spliceLayers node pad k D xs ys).set (k + 1) (layer node pad (k + 1) ys) =
      spliceLayers node pad (k + 1) D xs ys := by
  apply List.ext_getElem
  · simp; omega
  · intro j h₁ h₂
    rw [List.getElem_set, getElem_spliceLayers, getElem_spliceLayers]
    by_cases hj : k + 1 = j
    · subst hj; simp
    · rw [if_neg hj]
      by_cases hjk : j ≤ k
      · rw [if_pos hjk, if_pos (by omega)]
      · rw [if_neg hjk, if_neg (by omega)]

/-- A pass that finds layer `k + 1` already right leaves the splice as it is. -/
theorem spliceLayers_succ_of_eq {k D : Nat} (h : k + 1 < D) {xs ys : List α}
    (heq : layer node pad (k + 1) xs = layer node pad (k + 1) ys) :
    spliceLayers node pad (k + 1) D xs ys = spliceLayers node pad k D xs ys := by
  rw [← set_spliceLayers node pad h, ← heq]
  apply List.ext_getElem
  · simp
  · intro j h₁ h₂
    rw [List.getElem_set]
    split
    · rename_i hj; subst hj; rw [getElem_spliceLayers, if_neg (by omega)]
    · rfl

/-- One pass at the old top grows the splice by the new layer `k + 1`. -/
theorem append_spliceLayers {k D : Nat} (h : D ≤ k + 1) (xs ys : List α) :
    spliceLayers node pad k D xs ys ++ [layer node pad (k + 1) ys] =
      spliceLayers node pad (k + 1) D xs ys := by
  rw [spliceLayers_of_le node pad h, spliceLayers_of_le node pad (by omega)]
  simp [layers, List.range_succ]

end Layer

section Root

variable {α : Type} (node : α → α → α) (pad : Nat → α → α)

/-- Pair the layers, starting at height `k`, until one node remains (`none` for no leaves). -/
def rootFrom (k : Nat) : List α → Option α
  | [] => none
  | [a] => some a
  | a :: b :: rest => rootFrom (k + 1) (pairUp node pad k (a :: b :: rest))
termination_by xs => xs.length
decreasing_by simp only [length_pairUp, List.length_cons]; omega

@[simp] theorem rootFrom_nil (k : Nat) : rootFrom node pad k [] = none := by rw [rootFrom]

@[simp] theorem rootFrom_single (k : Nat) (a : α) : rootFrom node pad k [a] = some a := by
  rw [rootFrom]

theorem rootFrom_cons_cons (k : Nat) (a b : α) (rest : List α) :
    rootFrom node pad k (a :: b :: rest) =
      rootFrom node pad (k + 1) (pairUp node pad k (a :: b :: rest)) := by
  rw [rootFrom]

/-- The root is the node of the top layer. -/
theorem rootFrom_layer (xs : List α) (k : Nat) (hk : k < numLayers xs.length) :
    rootFrom node pad k (layer node pad k xs) =
      (layer node pad (numLayers xs.length - 1) xs).head? := by
  induction h : numLayers xs.length - 1 - k generalizing k with
  | zero =>
    have hk' : k = numLayers xs.length - 1 := by omega
    have hlen : (layer node pad k xs).length ≤ 1 := by
      have := (one_lt_length_layer_iff node pad k xs).not.mpr (by omega)
      omega
    rw [← hk']
    match hl : layer node pad k xs, hlen with
    | [], _ => simp
    | [a], _ => simp
  | succ d ih =>
    have hlt : 1 < (layer node pad k xs).length :=
      (one_lt_length_layer_iff node pad k xs).mpr (by omega)
    rw [← ih (k + 1) (by omega) (by omega), layer_succ]
    match hl : layer node pad k xs, hlt with
    | a :: b :: rest, _ => rw [rootFrom_cons_cons]

end Root

section Path

variable {α : Type} (node : α → α → α) (padNode : Nat → α)

/-- The turns of the path from node `i` up `c` heights: `true` where the node is a left child. -/
def pathBits : Nat → Nat → List Bool
  | _, 0 => []
  | i, c + 1 => (i % 2 = 0) :: pathBits (i / 2) c

@[simp] theorem length_pathBits (i c : Nat) : (pathBits i c).length = c := by
  induction c generalizing i with
  | zero => rfl
  | succ c ih => simp [pathBits, ih]

theorem getElem?_pathBits {i c j : Nat} (hj : j < c) :
    (pathBits i c)[j]? = some (decide (i / 2 ^ j % 2 = 0)) := by
  induction c generalizing i j with
  | zero => omega
  | succ c ih =>
    cases j with
    | zero => simp [pathBits]
    | succ j =>
      rw [pathBits, List.getElem?_cons_succ, ih (by omega), pow_succ', ← Nat.div_div_eq_div_mul]

/-- The sibling of node `i` of the layer `xs` at height `k`: its partner in `pairUp`, or the
padding node `padNode k` when `i` is the unpaired last node. -/
def sibling (k : Nat) (xs : List α) (i : Nat) : Option α :=
  if i % 2 = 0 then (if i + 1 = xs.length then some (padNode k) else xs[i + 1]?) else xs[i - 1]?

theorem exists_sibling {xs : List α} {i : Nat} (hi : i < xs.length) (k : Nat) :
    ∃ s, sibling padNode k xs i = some s := by
  unfold sibling
  split_ifs with heven hlast
  · exact ⟨_, rfl⟩
  · exact ⟨xs[i + 1], List.getElem?_eq_getElem (by omega)⟩
  · exact ⟨xs[i - 1], List.getElem?_eq_getElem (by omega)⟩

/-- A node and its sibling, on the side its index gives, make its parent. -/
theorem getElem?_pairUp_sibling {xs : List α} {i k : Nat} {a s : α} (ha : xs[i]? = some a)
    (hs : sibling padNode k xs i = some s) :
    (pairUp node (fun k a => node a (padNode k)) k xs)[i / 2]? =
      some (if i % 2 = 0 then node a s else node s a) := by
  unfold sibling at hs
  split_ifs at hs with heven hlast
  · -- the unpaired last node is padded
    cases hs
    rw [if_pos heven]
    exact getElem?_pairUp_of_last _ _ k (by rwa [Nat.two_mul_div_two_of_even (Nat.even_iff.mpr heven)])
      (by rw [Nat.two_mul_div_two_of_even (Nat.even_iff.mpr heven)]; exact hlast)
  · rw [if_pos heven]
    have h2 : 2 * (i / 2) = i := by omega
    exact getElem?_pairUp_of_pair _ _ k (by rwa [h2]) (by rwa [h2])
  · rw [if_neg heven]
    have h2 : 2 * (i / 2) = i - 1 := by omega
    exact getElem?_pairUp_of_pair _ _ k (by rwa [h2]) (by rwa [h2, show i - 1 + 1 = i by omega])

end Path

end Merkle
