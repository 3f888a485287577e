import Ionian.AppendMerkle.Tree

/-!
# AppendMerkle.Incremental — incremental maintenance equals construction from scratch

A tree is *canonical* for leaves `L` when its layers are `Merkle.layers parent pad D L`: layer
`j + 1` pairs layer `j` with `Algorithm::parent` and pads an unpaired last node with
`parent_single` at height `j + leaf_height`.  When no hash is ever `null` and the leaves are known,
one pass of `recompute` started at the first changed leaf `s` turns layer `k + 1` of the old
leaves into layer `k + 1` of the new ones (`recomputePass_splice`), so the whole loop ends on the
canonical layers of the new leaves (`recomputeLoop_splice`).  `append`, `append_list` and
`update_last` keep a tree canonical, and `new` builds one.
-/

namespace Ionian.AppendMerkle

open HashElement Merkle

variable {E : Type} [HashElement E] [DecidableEq E]

namespace AppendMerkleTree

section Canonical

variable (A : Algorithm E) (leafHeight : Nat)

/-- The padding of an unpaired node at height `k`: `parent_single(r, k + leaf_height)`. -/
def padParent (k : Nat) (r : E) : E := A.parentSingle r (k + leafHeight)

variable {A}

omit [DecidableEq E] in
theorem padParent_ne_null (hpar : ∀ a b, A.parent a b ≠ null) (k : Nat) (r : E) :
    padParent A leafHeight k r ≠ null := hpar _ _

omit [DecidableEq E] in
theorem canonLayer_ne_null (hpar : ∀ a b, A.parent a b ≠ null) {leaves : List E}
    (hleaves : ∀ x ∈ leaves, x ≠ null) (j : Nat) :
    ∀ x ∈ layer A.parent (padParent A leafHeight) j leaves, x ≠ null :=
  forall_mem_layer _ _ (· ≠ null) hpar (padParent_ne_null leafHeight hpar) j leaves hleaves

theorem pairParent_of_ne {left right : E} (hl : left ≠ null) (hr : right ≠ null) :
    pairParent A left right = A.parent left right := by
  simp [pairParent, hl, hr]

theorem remainderParent_of_ne {height : Nat} {r : E} (hr : r ≠ null) :
    remainderParent A leafHeight height r = padParent A leafHeight height r := by
  simp [remainderParent, hr, padParent]

/-- Writing a known parent at the first index after `pre`: over the last old node, which the
panic check allows, or by a push. -/
theorem applyParentUpdate_write {pre tail : List E} (htail : tail.length ≤ 1) {p : E}
    (hp : p ≠ null) (last : Option Nat) (rest : List (Nat × E)) :
    applyParentUpdate (pre ++ tail) last ((pre.length, p) :: rest) =
      applyParentUpdate (pre ++ [p]) (some pre.length) rest := by
  match tail, htail with
  | [], _ => simp [applyParentUpdate]
  | [t], _ =>
    have hlt : pre.length < (pre ++ [t]).length := by simp
    rw [applyParentUpdate, dif_pos hlt, if_pos hp, if_neg (by simp)]
    simp [List.set_append_right]

/-- The update of a known slice `xs` written from index `pre.length` over at most one old node
leaves `pre` followed by the parents of `xs`, the last one being the last change. -/
theorem applyParentUpdate_parentUpdate (hpar : ∀ a b, A.parent a b ≠ null) {height : Nat}
    (pre : List E) {tail xs : List E}
    (htail : tail.length ≤ 1) (hxs : ∀ x ∈ xs, x ≠ null) (hne : xs ≠ []) (last : Option Nat) :
    applyParentUpdate (pre ++ tail) last (parentUpdate A leafHeight height pre.length xs) =
      some (pre ++ pairUp A.parent (padParent A leafHeight) height xs,
        some (pre.length + (xs.length + 1) / 2 - 1)) := by
  induction xs using pairUp.induct generalizing pre tail last with
  | case1 left right rest ih =>
    have hl : left ≠ null := hxs left (by simp)
    have hr : right ≠ null := hxs right (by simp)
    rw [parentUpdate, pairParent_of_ne hl hr,
      applyParentUpdate_write htail (hpar left right)]
    by_cases hrest : rest = []
    · subst hrest
      simp [parentUpdate, applyParentUpdate]
    · have := ih (pre ++ [A.parent left right]) (show ([] : List E).length ≤ 1 by simp)
        (fun x hx => hxs x (by simp [hx])) hrest (some pre.length)
      simp only [List.append_nil, List.length_append, List.length_singleton] at this
      rw [this]
      simp only [pairUp_cons_cons, List.append_assoc, List.singleton_append, List.length_cons,
        Option.some.injEq, Prod.mk.injEq, true_and]
      omega
  | case2 r =>
    have hr : r ≠ null := hxs r (by simp)
    rw [parentUpdate, remainderParent_of_ne leafHeight hr,
      applyParentUpdate_write htail (padParent_ne_null leafHeight hpar _ _)]
    simp [applyParentUpdate]
  | case3 => exact absurd rfl hne

/-- The update of a pass, written over the old parent layer: the old layer agrees with the new
one before `m` and has at most one node from `m` on. -/
theorem applyParentUpdate_pairUp (hpar : ∀ a b, A.parent a b ≠ null) {height m : Nat}
    {old xs : List E} (hxs : ∀ x ∈ xs, x ≠ null) (hm : 2 * m < xs.length)
    (hagree : old.take m = (pairUp A.parent (padParent A leafHeight) height xs).take m)
    (hmold : m ≤ old.length) (hold : old.length ≤ m + 1) :
    applyParentUpdate old none (parentUpdate A leafHeight height m (xs.drop (2 * m))) =
      some (pairUp A.parent (padParent A leafHeight) height xs,
        some ((pairUp A.parent (padParent A leafHeight) height xs).length - 1)) := by
  have hPlen : (pairUp A.parent (padParent A leafHeight) height xs).length =
      (xs.length + 1) / 2 := length_pairUp _ _ _ _
  have hpre : ((pairUp A.parent (padParent A leafHeight) height xs).take m).length = m := by
    simp; omega
  have hdrop : xs.drop (2 * m) ≠ [] := by
    intro h; have := congrArg List.length h; simp at this; omega
  have key : applyParentUpdate ((pairUp A.parent (padParent A leafHeight) height xs).take m ++
      old.drop m) none (parentUpdate A leafHeight height
        ((pairUp A.parent (padParent A leafHeight) height xs).take m).length (xs.drop (2 * m))) = _ :=
    applyParentUpdate_parentUpdate leafHeight hpar _ (by simp; omega)
      (fun x hx => hxs x (List.mem_of_mem_drop hx)) hdrop none
  rw [hpre, ← drop_pairUp, List.take_append_drop] at key
  rw [← List.take_append_drop m old, hagree, key, hPlen]
  simp only [List.length_drop, Option.some.injEq, Prod.mk.injEq, true_and]
  omega

/-- **One pass of `recompute`.** The old leaves `L` are canonical in `D ≥ numLayers |L|` layers,
the new leaves `L'` keep the first `s` of them, and `s` is the last old leaf or the end of `L`
(`update_last`, `append`, `append_list`).  At height `k` the pass turns layer `k + 1` into the new
one; it needs `maybe_end_index` to be unset or the layer's end. -/
theorem recomputePass_splice (hpar : ∀ a b, A.parent a b ≠ null) {L L' : List E}
    {s D k : Nat} {m : Option Nat} (hagree : L.take s = L'.take s) (hs : s ≤ L.length)
    (hL : L.length ≤ s + 1) (hLL : L.length ≤ L'.length) (hD : numLayers L.length ≤ D)
    (hk : k + 1 < max D (numLayers L'.length)) (hnn : ∀ x ∈ L', x ≠ null)
    (hm : m = none ∨ m = some (layer A.parent (padParent A leafHeight) k L').length) :
    ∃ m', (m' = none ∨ m' = some (layer A.parent (padParent A leafHeight) (k + 1) L').length) ∧
      recomputePass A leafHeight (spliceLayers A.parent (padParent A leafHeight) k D L L') k (s / 2 ^ k) m =
        some (spliceLayers A.parent (padParent A leafHeight) (k + 1) D L L', m') := by
  -- the layer at height `k`, the rounded start `2 * m0` and the parent index `m0`
  have hnext : layer A.parent (padParent A leafHeight) (k + 1) L' =
      pairUp A.parent (padParent A leafHeight) k (layer A.parent (padParent A leafHeight) k L') :=
    layer_succ _ _ _ _
  generalize hX : layer A.parent (padParent A leafHeight) k L' = X at hm hnext
  have hXnn : ∀ x ∈ X, x ≠ null := hX ▸ canonLayer_ne_null leafHeight hpar hnn k
  have hq : s / 2 ^ k ≤ X.length := by
    rw [← hX, length_layer]; exact div_pow_le_iterate_half (by omega) k
  have hqL : s / 2 ^ k ≤ (layer A.parent (padParent A leafHeight) k L).length := by
    rw [length_layer]; exact div_pow_le_iterate_half hs k
  have hLX : (layer A.parent (padParent A leafHeight) k L).length ≤ X.length := by
    rw [← hX, length_layer, length_layer]; exact iterate_half_mono hLL k
  set m0 := s / 2 ^ k / 2 with hm0
  have hm0s : m0 = s / 2 ^ (k + 1) := by rw [hm0, Nat.div_div_eq_div_mul, pow_succ]
  have hst : s / 2 ^ k - s / 2 ^ k % 2 = 2 * m0 := by omega
  have hend : passEnd X.length m = X.length := by
    rcases hm with rfl | rfl <;> simp [passEnd]
  have hslice : (X.drop (2 * m0)).take (X.length - 2 * m0) = X.drop (2 * m0) :=
    List.take_of_length_le (by simp)
  simp only [recomputePass, getElem?_spliceLayers_self, hX, hend, hst]
  rw [if_neg (by omega), hslice]
  by_cases hempty : 2 * m0 < X.length
  · -- a non-empty slice: the parents overwrite layer `k + 1`
    have hupd : parentUpdate A leafHeight k m0 (X.drop (2 * m0)) ≠ [] := by
      intro h; have := congrArg List.length h
      rw [length_parentUpdate] at this; simp at this; omega
    rw [if_neg hupd]
    have hlen1 : 0 < (pairUp A.parent (padParent A leafHeight) k X).length := by
      rw [length_pairUp]; omega
    by_cases hkD : k + 1 < D
    · -- below the old top the old layer `k + 1` of `L` is overwritten
      have hnoext : beforeExtendLayer (spliceLayers A.parent (padParent A leafHeight) k D L L') (k + 1) =
          spliceLayers A.parent (padParent A leafHeight) k D L L' := by
        simp only [beforeExtendLayer, length_spliceLayers]; rw [if_neg (by omega)]
      rw [hnoext, getElem?_spliceLayers_succ _ _ hkD]
      simp only
      rw [applyParentUpdate_pairUp leafHeight hpar hXnn hempty ?agree ?lo ?hi]
      case agree =>
        rw [← hnext, hm0s]; exact take_layer_of_take_eq _ _ hagree (k + 1)
      case lo => rw [hm0s, length_layer]; exact div_pow_le_iterate_half hs (k + 1)
      case hi => rw [hm0s, length_layer]; exact iterate_half_le_div_pow hL (k + 1)
      simp only [Option.map_some, Option.some.injEq, Prod.mk.injEq]
      refine ⟨_, Or.inr ?_, by rw [← hnext, set_spliceLayers _ _ hkD], rfl⟩
      rw [hnext]; congr 1; omega
    · -- at the old top a new layer is pushed; the old tree ends below `k + 1`, so `m0 = 0`
      have htop : ¬ (k + 1 < numLayers L.length) := by omega
      have hone : (layer A.parent (padParent A leafHeight) k L).length ≤ 1 := by
        have := (one_lt_length_layer_iff A.parent (padParent A leafHeight) k L).not.mpr htop; omega
      have hm00 : m0 = 0 := by omega
      have hext : beforeExtendLayer (spliceLayers A.parent (padParent A leafHeight) k D L L') (k + 1) =
          spliceLayers A.parent (padParent A leafHeight) k D L L' ++ [[]] := by
        simp only [beforeExtendLayer, length_spliceLayers]; rw [if_pos (by omega)]
      have hget : (spliceLayers A.parent (padParent A leafHeight) k D L L' ++ [[]])[k + 1]? = some [] := by
        rw [List.getElem?_append_right (by simp; omega)]; simp
      rw [hext, hget]
      simp only
      rw [applyParentUpdate_pairUp leafHeight hpar hXnn hempty (by simp [hm00]) (by simp [hm00])
        (by simp)]
      simp only [Option.map_some, Option.some.injEq, Prod.mk.injEq]
      refine ⟨_, Or.inr ?_, ?_, rfl⟩
      · rw [hnext]; congr 1; omega
      · rw [← hnext, ← append_spliceLayers _ _ (by omega),
          List.set_append_right _ _ (by simp; omega)]
        simp
  · -- an empty slice: the start is the end of both layers `k`, which are then equal
    have hupd : parentUpdate A leafHeight k m0 (X.drop (2 * m0)) = [] := by
      rw [List.drop_of_length_le (by omega)]; rfl
    rw [if_pos hupd]
    have heq : layer A.parent (padParent A leafHeight) k L = X := by
      have h := take_layer_of_take_eq A.parent (padParent A leafHeight) hagree k
      rw [hX, List.take_of_length_le (show X.length ≤ s / 2 ^ k by omega),
        List.take_of_length_le (by omega)] at h
      exact h
    have hkD : k + 1 < D := by
      rcases lt_max_iff.mp hk with h | h
      · exact h
      · have h1 := (one_lt_length_layer_iff A.parent (padParent A leafHeight) k L').mpr h
        rw [hX] at h1
        have h2 := (one_lt_length_layer_iff A.parent (padParent A leafHeight) k L).mp (by rw [heq]; exact h1)
        omega
    refine ⟨none, Or.inl rfl, ?_⟩
    rw [spliceLayers_succ_of_eq _ _ hkD (by rw [layer_succ, layer_succ, heq, hX])]

/-- **The whole loop.** From height `k` on, `recompute` ends on the first
`max D (numLayers |L'|)` canonical layers of the new leaves. -/
theorem recomputeLoop_splice (hpar : ∀ a b, A.parent a b ≠ null) {L L' : List E}
    {s D k : Nat} {m : Option Nat} (hagree : L.take s = L'.take s) (hs : s ≤ L.length)
    (hL : L.length ≤ s + 1) (hLL : L.length ≤ L'.length) (hD : numLayers L.length ≤ D)
    (hnn : ∀ x ∈ L', x ≠ null) (hk : k < max D (numLayers L'.length))
    (hm : m = none ∨ m = some (layer A.parent (padParent A leafHeight) k L').length) :
    recomputeLoop A leafHeight (spliceLayers A.parent (padParent A leafHeight) k D L L') k (s / 2 ^ k) m =
      some (Merkle.layers A.parent (padParent A leafHeight) (max D (numLayers L'.length)) L') := by
  -- induction on the number of passes left
  induction h : max D (numLayers L'.length) - (k + 1) generalizing k m with
  | zero =>
    -- at the top of both trees the loop stops
    have hc : ¬ (1 < (layer A.parent (padParent A leafHeight) k L').length ∨
        k < (spliceLayers A.parent (padParent A leafHeight) k D L L').length - 1) := by
      rw [one_lt_length_layer_iff]; simp only [length_spliceLayers]; omega
    rw [recomputeLoop_of_stop A leafHeight (getElem?_spliceLayers_self _ _ _ _ _ _) hc,
      spliceLayers_of_le _ _ (by omega)]
    congr 2; omega
  | succ d ih =>
    have hc : 1 < (layer A.parent (padParent A leafHeight) k L').length ∨
        k < (spliceLayers A.parent (padParent A leafHeight) k D L L').length - 1 := by
      rw [one_lt_length_layer_iff]; simp only [length_spliceLayers]; omega
    obtain ⟨m', hm', hp⟩ := recomputePass_splice leafHeight hpar hagree hs hL hLL hD
      (show k + 1 < max D (numLayers L'.length) by omega) hnn hm
    rw [recomputeLoop_of_pass A leafHeight (getElem?_spliceLayers_self _ _ _ _ _ _) hc hp,
      Nat.div_div_eq_div_mul, ← pow_succ]
    exact ih (by omega) hm' (by omega)

/-- `recompute` from the first changed leaf `s` over a tree whose leaves were just changed
from `L` to `L'`, the layers above being canonical for `L`. -/
theorem recompute_canonical (hpar : ∀ a b, A.parent a b ≠ null) {t : AppendMerkleTree E}
    {L L' : List E} {s D : Nat}
    (ht : t.layers = L' :: (Merkle.layers A.parent (padParent A t.leafHeight) D L).tail)
    (hagree : L.take s = L'.take s) (hs : s ≤ L.length) (hL : L.length ≤ s + 1)
    (hLL : L.length ≤ L'.length) (hD : numLayers L.length ≤ D) (hnn : ∀ x ∈ L', x ≠ null) :
    recompute A t s none = some { t with
      layers := Merkle.layers A.parent (padParent A t.leafHeight) (max D (numLayers L'.length)) L' } := by
  have hD0 : 0 < D := lt_of_lt_of_le (numLayers_pos _) hD
  have hloop := recomputeLoop_splice t.leafHeight hpar hagree hs hL hLL hD hnn (k := 0)
    (lt_of_lt_of_le hD0 (le_max_left _ _)) (Or.inl rfl)
  rw [spliceLayers_zero _ _ hD0, pow_zero, Nat.div_one, ← ht] at hloop
  simp [recompute, hloop]

end Canonical

/-! ## The operations on canonical trees -/

section Operations

variable {A : Algorithm E}

/-- The tree holds the `D` canonical layers of `leaves`; `D` may exceed `numLayers` (the extra
layers of `new_with_depth` repeat the padded root). -/
def Canonical (A : Algorithm E) (t : AppendMerkleTree E) (leaves : List E) (D : Nat) : Prop :=
  t.layers = Merkle.layers A.parent (padParent A t.leafHeight) D leaves ∧
    numLayers leaves.length ≤ D

/-- The tree `t` with the canonical layers of `leaves`. -/
def withLayers (A : Algorithm E) (t : AppendMerkleTree E) (leaves : List E) (D : Nat) :
    AppendMerkleTree E :=
  { t with layers := Merkle.layers A.parent (padParent A t.leafHeight) D leaves }

omit [DecidableEq E] in
theorem withLayers_canonical (t : AppendMerkleTree E) (leaves : List E) {D : Nat}
    (hD : numLayers leaves.length ≤ D) : Canonical A (withLayers A t leaves D) leaves D :=
  ⟨rfl, hD⟩

omit [DecidableEq E] in
@[simp] theorem withLayers_withLayers (t : AppendMerkleTree E) (L L' : List E) (D D' : Nat) :
    withLayers A (withLayers A t L D) L' D' = withLayers A t L' D' := rfl

omit [DecidableEq E] in
theorem Canonical.layers_eq_cons {t : AppendMerkleTree E} {L : List E} {D : Nat}
    (ht : Canonical A t L D) :
    t.layers = L :: (Merkle.layers A.parent (padParent A t.leafHeight) D L).tail := by
  rw [ht.1]; exact Merkle.layers_eq_cons _ _ (lt_of_lt_of_le (numLayers_pos _) ht.2) L

theorem append_canonical (hpar : ∀ a b, A.parent a b ≠ null) {t : AppendMerkleTree E}
    {L : List E} {D : Nat} (ht : Canonical A t L D) (hnn : ∀ y ∈ L, y ≠ null) {x : E}
    (hx : x ≠ null) :
    append A t x = some (withLayers A t (L ++ [x]) (max D (numLayers (L.length + 1)))) := by
  simp only [append, ht.layers_eq_cons]
  rw [recompute_canonical hpar rfl (by simp) le_rfl (by omega) (by simp) ht.2
    (fun y hy => (List.mem_append.mp hy).elim (hnn y) (fun h => by simp at h; rw [h]; exact hx))]
  simp [withLayers]

theorem appendList_canonical (hpar : ∀ a b, A.parent a b ≠ null) {t : AppendMerkleTree E}
    {L : List E} {D : Nat} (ht : Canonical A t L D) (hnn : ∀ y ∈ L, y ≠ null) {M : List E}
    (hM : ∀ y ∈ M, y ≠ null) :
    appendList A t M =
      some (withLayers A t (L ++ M) (max D (numLayers (L.length + M.length)))) := by
  simp only [appendList, ht.layers_eq_cons]
  rw [recompute_canonical hpar rfl (by simp) le_rfl (by omega) (by simp) ht.2
    (fun y hy => (List.mem_append.mp hy).elim (hnn y) (hM y))]
  simp [withLayers]

/-- The leaves after `update_last`: the last leaf replaced, or the first leaf pushed. -/
def lastReplaced (L : List E) (x : E) : List E :=
  if L = [] then [x] else L.set (L.length - 1) x

omit [HashElement E] [DecidableEq E] in
theorem lastReplaced_eq (L : List E) (x : E) : lastReplaced L x = L.dropLast ++ [x] := by
  unfold lastReplaced
  split
  · subst_vars; rfl
  · rename_i hL
    conv_lhs => rw [← List.dropLast_append_getLast hL]
    rw [List.set_append_right _ _ (by simp), List.length_dropLast]
    simp

theorem updateLast_canonical (hpar : ∀ a b, A.parent a b ≠ null) {t : AppendMerkleTree E}
    {L : List E} {D : Nat} (ht : Canonical A t L D) (hnn : ∀ y ∈ L, y ≠ null) {x : E}
    (hx : x ≠ null) :
    updateLast A t x = some (withLayers A t (lastReplaced L x)
      (max D (numLayers (lastReplaced L x).length))) := by
  have hnn' : ∀ y ∈ lastReplaced L x, y ≠ null := by
    rw [lastReplaced_eq]
    intro y hy
    rcases List.mem_append.mp hy with hy | hy
    · exact hnn y (List.mem_of_mem_dropLast hy)
    · simp at hy; rw [hy]; exact hx
  simp only [updateLast, ht.layers_eq_cons]
  by_cases hL : L = []
  · subst hL
    simp only [if_true, List.length_singleton, Nat.sub_self]
    rw [recompute_canonical hpar rfl (by simp) (le_refl 0) (by simp) (by simp) ht.2
      (by simpa [lastReplaced] using hnn')]
    simp [withLayers, lastReplaced]
  · simp only [if_neg hL, List.length_set]
    have hpos : 0 < L.length := List.length_pos_iff.mpr hL
    rw [recompute_canonical hpar rfl ?agree (by omega) (by omega) (by simp)
      ht.2 (by simpa [lastReplaced, hL] using hnn')]
    case agree =>
      rw [List.take_set, List.set_eq_of_length_le
        (by simp : (L.take (L.length - 1)).length ≤ L.length - 1)]
    simp [withLayers, lastReplaced, hL]

/-- `new` builds the canonical tree of its leaves. -/
theorem new_canonical (hpar : ∀ a b, A.parent a b ≠ null) {L : List E} (hnn : ∀ y ∈ L, y ≠ null)
    (leafHeight : Nat) :
    new A L leafHeight none =
      some (withLayers A (ofLeaves L leafHeight) L (numLayers L.length)) := by
  unfold new
  split
  · rename_i hL
    rw [List.length_eq_zero_iff] at hL
    subst hL
    simp [withEmptyVersion, withLayers, ofLeaves, Merkle.layers, numLayers_of_le_one]
  · have h0 : (ofLeaves L leafHeight).layers =
        L :: (Merkle.layers A.parent (padParent A leafHeight) 1 []).tail := by
      simp [ofLeaves, Merkle.layers]
    rw [recompute_canonical hpar h0 (by simp) (show (0 : Nat) ≤ ([] : List E).length from le_rfl)
      (by simp) (by simp) (by simp [numLayers_of_le_one]) hnn]
    simp only [Option.bind_some, commit]
    congr 2
    rw [max_eq_right (numLayers_pos _)]

omit [DecidableEq E] in
/-- The root of a canonical tree is the node of its top layer. -/
theorem root_withLayers (t : AppendMerkleTree E) (L : List E) :
    (withLayers A t L (numLayers L.length)).root =
      (layer A.parent (padParent A t.leafHeight) (numLayers L.length - 1) L).head? := by
  have h0 := numLayers_pos L.length
  simp only [root, node, withLayers, length_layers]
  rw [List.getElem?_eq_getElem (by simp; omega), getElem_layers]
  cases layer A.parent (padParent A t.leafHeight) (numLayers L.length - 1) L <;> rfl

end Operations

end AppendMerkleTree

/-! ## Feeding leaves -/

/-- The operations that feed leaves into a tree. -/
inductive FeedOp (E : Type)
  | append (newLeaf : E)
  | appendList (leafList : List E)
  | updateLast (updatedLeaf : E)

namespace FeedOp

/-- The leaves an operation brings in. -/
def fed : FeedOp E → List E
  | append x => [x]
  | appendList M => M
  | updateLast x => [x]

/-- The leaf list after an operation: `update_last` replaces the current last leaf. -/
def feed : FeedOp E → List E → List E
  | append x, L => L ++ [x]
  | appendList M, L => L ++ M
  | updateLast x, L => L.dropLast ++ [x]

/-- The tree operation. -/
def run (A : Algorithm E) : FeedOp E → AppendMerkleTree E → Option (AppendMerkleTree E)
  | append x, t => AppendMerkleTree.append A t x
  | appendList M, t => AppendMerkleTree.appendList A t M
  | updateLast x, t => AppendMerkleTree.updateLast A t x

end FeedOp

/-- Run the operations in order; `none` once one panics. -/
def runFeed (A : Algorithm E) (t : AppendMerkleTree E) :
    List (FeedOp E) → Option (AppendMerkleTree E)
  | [] => some t
  | op :: ops => (op.run A t).bind fun t' => runFeed A t' ops

/-- The final leaf list. -/
def feedLeaves (L : List E) (ops : List (FeedOp E)) : List E :=
  ops.foldl (fun L op => op.feed L) L

/-- The reference root `R(L, h)`: pair adjacent nodes of each layer with `parent`, combine an
unpaired last node at layer `k` with `end_pad(k + h)` by `parent_single`, until one node remains. -/
def refRoot (A : Algorithm E) (leafHeight : Nat) (L : List E) : Option E :=
  rootFrom A.parent (AppendMerkleTree.padParent A leafHeight) 0 L

section Feed

open AppendMerkleTree

variable {A : Algorithm E}

omit [HashElement E] [DecidableEq E] in
theorem FeedOp.length_le_feed (op : FeedOp E) (L : List E) : L.length ≤ (op.feed L).length := by
  cases op <;> simp only [FeedOp.feed, List.length_append, List.length_dropLast,
    List.length_singleton] <;> omega

omit [HashElement E] [DecidableEq E] in
theorem FeedOp.feed_ne_null (op : FeedOp E) {L : List E} (P : E → Prop) (hL : ∀ x ∈ L, P x)
    (hop : ∀ x ∈ op.fed, P x) : ∀ x ∈ op.feed L, P x := by
  intro x hx
  cases op with
  | append y => rcases List.mem_append.mp hx with h | h <;> simp_all [FeedOp.fed]
  | appendList M => rcases List.mem_append.mp hx with h | h <;> simp_all [FeedOp.fed]
  | updateLast y =>
    rcases List.mem_append.mp hx with h | h
    · exact hL x (List.mem_of_mem_dropLast h)
    · simp_all [FeedOp.fed]

omit [HashElement E] [DecidableEq E] in
theorem length_le_feedLeaves (L : List E) (ops : List (FeedOp E)) :
    L.length ≤ (feedLeaves L ops).length := by
  induction ops generalizing L with
  | nil => exact le_rfl
  | cons op ops ih => exact le_trans (op.length_le_feed L) (ih _)

omit [HashElement E] [DecidableEq E] in
theorem feedLeaves_ne_null (P : E → Prop) {L : List E} {ops : List (FeedOp E)}
    (hL : ∀ x ∈ L, P x) (hops : ∀ op ∈ ops, ∀ x ∈ op.fed, P x) :
    ∀ x ∈ feedLeaves L ops, P x := by
  induction ops generalizing L with
  | nil => exact hL
  | cons op ops ih =>
    exact ih (op.feed_ne_null P hL (hops op (by simp))) (fun op' h => hops op' (by simp [h]))

/-- One operation keeps the tree canonical, for the leaf list `op.feed L`. -/
theorem FeedOp.run_canonical (hpar : ∀ a b, A.parent a b ≠ null) (op : FeedOp E)
    {t : AppendMerkleTree E} {L : List E} {D : Nat} (ht : Canonical A t L D)
    (hnn : ∀ y ∈ L, y ≠ null) (hop : ∀ y ∈ op.fed, y ≠ null) :
    op.run A t = some (withLayers A t (op.feed L) (max D (numLayers (op.feed L).length))) := by
  cases op with
  | append x => simpa [run, feed] using append_canonical hpar ht hnn (hop x (by simp [fed]))
  | appendList M =>
    have hM : ∀ y ∈ M, y ≠ null := hop
    simpa [run, feed] using appendList_canonical hpar ht hnn hM
  | updateLast x =>
    simpa [run, feed, lastReplaced_eq] using updateLast_canonical hpar ht hnn (hop x (by simp [fed]))

/-- **Run lemma.** Every sequence of operations on a canonical tree ends on the canonical tree
of the final leaf list. -/
theorem runFeed_canonical (hpar : ∀ a b, A.parent a b ≠ null) {t : AppendMerkleTree E}
    {L : List E} {D : Nat} (ht : Canonical A t L D) (hnn : ∀ y ∈ L, y ≠ null)
    (ops : List (FeedOp E)) (hops : ∀ op ∈ ops, ∀ y ∈ op.fed, y ≠ null) :
    runFeed A t ops = some (withLayers A t (feedLeaves L ops)
      (max D (numLayers (feedLeaves L ops).length))) := by
  induction ops generalizing t L D with
  | nil => simp [runFeed, feedLeaves, withLayers, ← ht.1, max_eq_left ht.2]
  | cons op ops ih =>
    have hop := hops op (by simp)
    have hrest : ∀ op' ∈ ops, ∀ y ∈ op'.fed, y ≠ null := fun op' h => hops op' (by simp [h])
    have ht' := withLayers_canonical (A := A) t (op.feed L)
      (le_max_right D (numLayers (op.feed L).length))
    have hmono := numLayers_mono (length_le_feedLeaves (op.feed L) ops)
    rw [runFeed, op.run_canonical hpar ht hnn hop, Option.bind_some,
      ih ht' (op.feed_ne_null _ hnn hop) hrest, withLayers_withLayers]
    -- the history's depth bound is absorbed: lengths only grow along the run
    simp only [feedLeaves, List.foldl_cons] at hmono ⊢
    rw [max_assoc, max_eq_right hmono]

omit [DecidableEq E] in
/-- The root of the canonical tree of `L` in `numLayers |L|` layers is the reference root. -/
theorem root_withLayers_eq_refRoot (t : AppendMerkleTree E) (L : List E) :
    (withLayers A t L (numLayers L.length)).root = refRoot A t.leafHeight L := by
  rw [root_withLayers, refRoot, ← rootFrom_layer _ _ L 0 (numLayers_pos _), layer_zero]

/-- Feeding leaves into a tree built by `new(prefix, h, None)` through any sequence of `append`,
`append_list` and `update_last` gives the layers of `new(L', h, None)` for the final leaf list
`L'`, and its root is the reference root of `L'`. -/
theorem incremental_eq_new (hpar : ∀ a b, A.parent a b ≠ null) (leafHeight : Nat)
    (pre : List E) (ops : List (FeedOp E)) (hpre : ∀ x ∈ pre, x ≠ null)
    (hops : ∀ op ∈ ops, ∀ x ∈ op.fed, x ≠ null) :
    ∃ t₀ t t', new A pre leafHeight none = some t₀ ∧ runFeed A t₀ ops = some t ∧
      new A (feedLeaves pre ops) leafHeight none = some t' ∧
      t.layers = t'.layers ∧ t.root = refRoot A leafHeight (feedLeaves pre ops) := by
  set L' := feedLeaves pre ops
  have hL' : ∀ x ∈ L', x ≠ null := feedLeaves_ne_null _ hpre hops
  have h₀ := withLayers_canonical (A := A) (ofLeaves pre leafHeight) pre le_rfl
  have hrun := runFeed_canonical hpar h₀ hpre ops hops
  -- the depth of the prefix tree is absorbed by the depth of the final one
  rw [max_eq_right (numLayers_mono (length_le_feedLeaves pre ops))] at hrun
  refine ⟨_, _, _, new_canonical hpar hpre leafHeight, hrun, new_canonical hpar hL' leafHeight,
    rfl, ?_⟩
  exact root_withLayers_eq_refRoot (ofLeaves pre leafHeight) L'

end Feed

/-- A hash element on `Nat` for runs of the model: `null` is `0` and every end pad is `1`. -/
instance : HashElement Nat := ⟨fun _ => 1, 0⟩

/-- A hash on `Nat` that never returns `null`. -/
def natAlgorithm : Algorithm Nat := ⟨fun a b => a + b + 1, List.length⟩

theorem incremental_eq_new_example :
    ∃ t₀ t t', AppendMerkleTree.new natAlgorithm [1, 2, 3] 2 none = some t₀ ∧
      runFeed natAlgorithm t₀ [.append 4, .updateLast 5, .appendList [6, 7, 8]] = some t ∧
      AppendMerkleTree.new natAlgorithm
        (feedLeaves [1, 2, 3] [.append 4, .updateLast 5, .appendList [6, 7, 8]]) 2 none = some t' ∧
      t.layers = t'.layers ∧
      t.root = refRoot natAlgorithm 2
        (feedLeaves [1, 2, 3] [.append 4, .updateLast 5, .appendList [6, 7, 8]]) :=
  incremental_eq_new (fun a b => by simp [natAlgorithm, HashElement.null]) 2 [1, 2, 3]
    [.append 4, .updateLast 5, .appendList [6, 7, 8]] (by decide) (by decide)

end Ionian.AppendMerkle
