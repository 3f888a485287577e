import Ionian.AppendMerkle.Reachable

/-!
# AppendMerkle.Frame — what the growing operations keep, and how long a layer can get

A pass of `recompute` at `height` rewrites only the layer above, from `start_index >> 1` on and
at most up to the parents of the layer at `height` (`recomputePass_spec`).  So `recompute` from
`s` keeps every node of layer `k` below `s >> k` (`recompute_keeps`), and the operations that
grow the tree, which recompute from the old last leaf and only append below it, keep every node
of layer `k` below `(leaves - 1) >> k` (`append_keeps` and the three after it).

A layer at height `k` never holds more nodes than the layer at height `k` of a full tree over
the same leaves (`ShapeBound`): a pass writes at most the parents of the layer under it, and
`append_subtree_inner` appends `2 ^ (d - 1 - k)` nodes to layer `k` for `2 ^ (d - 1)` new leaves.
-/

namespace Ionian.AppendMerkle

open HashElement Merkle

variable {E : Type} [HashElement E] [DecidableEq E]

namespace AppendMerkleTree

/-! ## Keeping nodes -/

section Keep

/-- `new` is at least as long as `old` and keeps every node of `old` below index `n`. -/
def KeepsBelow (n : Nat) (old new : List E) : Prop :=
  old.length ≤ new.length ∧ ∀ i < n, ∀ x, old[i]? = some x → new[i]? = some x

/-- Every layer of `ls` has a layer of `ls'` at its height that keeps its nodes below
`bound` of the height. -/
def LayersKeep (bound : Nat → Nat) (ls ls' : List (List E)) : Prop :=
  ∀ k old, ls[k]? = some old → ∃ new, ls'[k]? = some new ∧ KeepsBelow (bound k) old new

omit [HashElement E] [DecidableEq E] in
theorem KeepsBelow.refl (n : Nat) (l : List E) : KeepsBelow n l l := ⟨le_rfl, fun _ _ _ h => h⟩

omit [HashElement E] [DecidableEq E] in
theorem KeepsBelow.trans {n : Nat} {l₁ l₂ l₃ : List E} (h₁ : KeepsBelow n l₁ l₂)
    (h₂ : KeepsBelow n l₂ l₃) : KeepsBelow n l₁ l₃ :=
  ⟨h₁.1.trans h₂.1, fun i hi x hx => h₂.2 i hi x (h₁.2 i hi x hx)⟩

omit [HashElement E] [DecidableEq E] in
theorem KeepsBelow.mono {n n' : Nat} {old new : List E} (h : KeepsBelow n old new)
    (hn : n' ≤ n) : KeepsBelow n' old new :=
  ⟨h.1, fun i hi => h.2 i (lt_of_lt_of_le hi hn)⟩

omit [HashElement E] [DecidableEq E] in
theorem keepsBelow_append (n : Nat) (l extra : List E) : KeepsBelow n l (l ++ extra) := by
  refine ⟨by simp, fun i _ x hx => ?_⟩
  rw [List.getElem?_append_left (List.getElem?_eq_some_iff.mp hx).1]
  exact hx

omit [HashElement E] [DecidableEq E] in
theorem keepsBelow_set (l : List E) (j : Nat) (x : E) : KeepsBelow j l (l.set j x) := by
  refine ⟨by simp, fun i hi y hy => ?_⟩
  rw [List.getElem?_set_ne (by omega)]
  exact hy

omit [HashElement E] [DecidableEq E] in
theorem LayersKeep.refl (bound : Nat → Nat) (ls : List (List E)) : LayersKeep bound ls ls :=
  fun _ old h => ⟨old, h, .refl _ _⟩

omit [HashElement E] [DecidableEq E] in
theorem LayersKeep.trans {bound : Nat → Nat} {ls₁ ls₂ ls₃ : List (List E)}
    (h₁ : LayersKeep bound ls₁ ls₂) (h₂ : LayersKeep bound ls₂ ls₃) : LayersKeep bound ls₁ ls₃ := by
  intro k old h
  obtain ⟨mid, hmid, hk₁⟩ := h₁ k old h
  obtain ⟨new, hnew, hk₂⟩ := h₂ k mid hmid
  exact ⟨new, hnew, hk₁.trans hk₂⟩

omit [HashElement E] [DecidableEq E] in
theorem LayersKeep.mono {bound bound' : Nat → Nat} {ls ls' : List (List E)}
    (h : LayersKeep bound ls ls') (hb : ∀ k, bound' k ≤ bound k) : LayersKeep bound' ls ls' := by
  intro k old hk
  obtain ⟨new, hnew, hkeep⟩ := h k old hk
  exact ⟨new, hnew, hkeep.mono (hb k)⟩

omit [HashElement E] [DecidableEq E] in
/-- A change of the leaves alone. -/
theorem layersKeep_cons {bound : Nat → Nat} {L L' : List E} (rest : List (List E))
    (h : KeepsBelow (bound 0) L L') : LayersKeep bound (L :: rest) (L' :: rest) := by
  intro k old hk
  cases k with
  | zero =>
    simp only [List.getElem?_cons_zero, Option.some.injEq] at hk
    subst hk
    exact ⟨L', rfl, h⟩
  | succ k => exact ⟨old, hk, .refl _ _⟩

end Keep

/-! ## The bound on the layers -/

section Shape

/-- Every layer at height `k` has at most the nodes of the layer at height `k` of a full tree
over `n` leaves. -/
def ShapeBound (n : Nat) (ls : List (List E)) : Prop :=
  ∀ k layer, ls[k]? = some layer → layer.length ≤ (fun n => (n + 1) / 2)^[k] n

/-- The layers are bounded by those of a full tree over their leaves. -/
def Shaped (t : AppendMerkleTree E) : Prop :=
  ShapeBound (t.layers[0]?.getD []).length t.layers

omit [HashElement E] [DecidableEq E] in
/-- More leaves, with the layers above unchanged. -/
theorem shapeBound_cons {n n' : Nat} {L L' : List E} {rest : List (List E)}
    (hs : ShapeBound n (L :: rest)) (hn : n ≤ n') (hL' : L'.length ≤ n') :
    ShapeBound n' (L' :: rest) := by
  intro k layer hk
  cases k with
  | zero =>
    simp only [List.getElem?_cons_zero, Option.some.injEq] at hk
    subst hk
    exact hL'
  | succ k => exact (hs (k + 1) layer hk).trans (iterate_half_mono hn _)

omit [HashElement E] [DecidableEq E] in
theorem Shaped.cons {t : AppendMerkleTree E} {L : List E} {rest : List (List E)}
    (hs : Shaped t) (ht : t.layers = L :: rest) : ShapeBound L.length (L :: rest) := by
  have h := hs
  unfold Shaped at h
  rwa [ht, List.getElem?_cons_zero, Option.getD_some] at h

end Shape

/-! ## One pass -/

section Pass

variable (A : Algorithm E) (leafHeight : Nat)

omit [HashElement E] [DecidableEq E] in
theorem length_beforeExtendLayer (layers : List (List E)) (height : Nat) :
    (beforeExtendLayer layers height).length =
      if height = layers.length then layers.length + 1 else layers.length := by
  unfold beforeExtendLayer
  split_ifs <;> simp

omit [HashElement E] [DecidableEq E] in
theorem getElem?_beforeExtendLayer_self (layers : List (List E)) (height : Nat) :
    (beforeExtendLayer layers height)[height]? =
      if height = layers.length then some [] else layers[height]? := by
  unfold beforeExtendLayer
  split_ifs with h
  · subst h
    simp
  · rfl

/-- What one pass can do: leave the layers, or write over the layer above `height` (pushed
first when it is a new top) a layer that keeps its nodes below `start_index >> 1` and is no
longer than the parents of the layer at `height`. -/
theorem recomputePass_spec {ls ls' : List (List E)} {k a : Nat} {m m' : Option Nat}
    (h : recomputePass A leafHeight ls k a m = some (ls', m')) :
    ∃ cur, ls[k]? = some cur ∧ (ls' = ls ∨ ∃ old N,
      (beforeExtendLayer ls (k + 1))[k + 1]? = some old ∧
      ls' = (beforeExtendLayer ls (k + 1)).set (k + 1) N ∧ KeepsBelow (a / 2) old N ∧
      N.length ≤ max old.length ((cur.length + 1) / 2)) := by
  unfold recomputePass at h
  split at h
  · cases h
  · rename_i cur hcur
    refine ⟨cur, hcur, ?_⟩
    dsimp only at h
    split_ifs at h with hslice hupd
    · simp only [Option.some.injEq, Prod.mk.injEq] at h
      exact Or.inl h.1.symm
    · right
      split at h
      · cases h
      · rename_i old hold
        obtain ⟨⟨N, last⟩, happly, heq⟩ := Option.map_eq_some_iff.mp h
        simp only [Prod.mk.injEq] at heq
        rw [parentUpdate_eq_mapIdx] at happly hupd
        -- the update starts at `start_index >> 1`, inside the parent layer since it is not empty
        obtain ⟨v, vs, hvs⟩ : ∃ v vs, knownParents A leafHeight k
            ((cur.drop (a - a % 2)).take (passEnd cur.length m - (a - a % 2))) = v :: vs := by
          cases hkp : knownParents A leafHeight k
              ((cur.drop (a - a % 2)).take (passEnd cur.length m - (a - a % 2))) with
          | nil => rw [hkp] at hupd; exact absurd rfl hupd
          | cons v vs => exact ⟨v, vs, rfl⟩
        have hfirst : a / 2 ≤ old.length := by
          have happly' := happly
          rw [hvs, mapIdx_cons_shift] at happly'
          exact (applyParentUpdate_cons happly').1
        have hNlen := applyParentUpdate_length happly hfirst
        rw [length_knownParents, List.length_take, List.length_drop] at hNlen
        refine ⟨old, N, hold, heq.1.symm, ⟨?_, fun i hi x hx => ?_⟩, ?_⟩
        · rw [hNlen]
          exact le_max_left _ _
        · rw [applyParentUpdate_getElem?_outside happly (Or.inl hi)]
          exact hx
        · rw [hNlen]
          omega

/-- A pass changes no layer but the one above `height`. -/
theorem recomputePass_getElem?_ne {ls ls' : List (List E)} {k a : Nat} {m m' : Option Nat}
    (h : recomputePass A leafHeight ls k a m = some (ls', m')) {j : Nat} (hj : j ≠ k + 1) :
    ls'[j]? = ls[j]? := by
  obtain ⟨-, -, rfl | ⟨-, N, -, rfl, -, -⟩⟩ := recomputePass_spec A leafHeight h
  · rfl
  · rw [List.getElem?_set_ne (Ne.symm hj), getElem?_beforeExtendLayer_ne _ hj]

/-- A pass keeps every node of the layer above `height` below `start_index >> 1`. -/
theorem recomputePass_keeps {ls ls' : List (List E)} {k a : Nat} {m m' : Option Nat}
    (h : recomputePass A leafHeight ls k a m = some (ls', m')) {bound : Nat → Nat}
    (hb : bound (k + 1) ≤ a / 2) : LayersKeep bound ls ls' := by
  intro j old hj
  by_cases hjk : j = k + 1
  · subst hjk
    obtain ⟨-, -, rfl | ⟨old', N, hold', rfl, hkeep, -⟩⟩ := recomputePass_spec A leafHeight h
    · exact ⟨old, hj, .refl _ _⟩
    · -- the parent layer was there, so it was not pushed
      have hlt := (List.getElem?_eq_some_iff.mp hj).1
      have hlt' := (List.getElem?_eq_some_iff.mp hold').1
      rw [getElem?_beforeExtendLayer_self, if_neg (by omega), hj, Option.some.injEq] at hold'
      subst hold'
      exact ⟨N, List.getElem?_set_self hlt', hkeep.mono hb⟩
  · exact ⟨old, by rw [recomputePass_getElem?_ne A leafHeight h hjk]; exact hj, .refl _ _⟩

/-- A pass keeps the layers within the bound of a full tree. -/
theorem recomputePass_shape {ls ls' : List (List E)} {k a n : Nat} {m m' : Option Nat}
    (h : recomputePass A leafHeight ls k a m = some (ls', m')) (hs : ShapeBound n ls) :
    ShapeBound n ls' := by
  intro j layer hj
  by_cases hjk : j = k + 1
  · subst hjk
    obtain ⟨cur, hcur, rfl | ⟨old, N, hold, rfl, -, hN⟩⟩ := recomputePass_spec A leafHeight h
    · exact hs _ _ hj
    · have hlt := (List.getElem?_eq_some_iff.mp hold).1
      rw [List.getElem?_set_self hlt, Option.some.injEq] at hj
      subst hj
      -- the parent layer is a pushed empty one, or a layer within the bound
      have hold' : old.length ≤ (fun n => (n + 1) / 2)^[k + 1] n := by
        rw [getElem?_beforeExtendLayer_self] at hold
        split_ifs at hold
        · cases hold
          exact Nat.zero_le _
        · exact hs _ _ hold
      have hcur' := hs k cur hcur
      rw [Function.iterate_succ_apply'] at hold' ⊢
      omega
  · rw [recomputePass_getElem?_ne A leafHeight h hjk] at hj
    exact hs j layer hj

end Pass

/-! ## `recompute` -/

section Recompute

variable {A : Algorithm E}

omit [HashElement E] [DecidableEq E] in
theorem div_two_pow_succ (s k : Nat) : s / 2 ^ k / 2 = s / 2 ^ (k + 1) := by
  rw [Nat.div_div_eq_div_mul, ← pow_succ]

/-- `recompute` from `s` writes only the tree above: it keeps every node of layer `k` below
`s >> k`. -/
theorem recompute_keeps {t t' : AppendMerkleTree E} {s : Nat} {m : Option Nat}
    (h : recompute A t s m = some t') : LayersKeep (fun k => s / 2 ^ k) t.layers t'.layers := by
  obtain ⟨res, hloop, rfl⟩ := Option.map_eq_some_iff.mp h
  -- the pass at height `k` starts from `s >> k`
  obtain ⟨-, -, -, ⟨-, hkeep⟩, -⟩ := recomputeLoop_invariant A t.leafHeight
    (fun ls k a _ => a = s / 2 ^ k ∧ LayersKeep (fun k => s / 2 ^ k) t.layers ls)
    (fun _ k a _ _ _ _ _ _ hinv hp => ⟨by rw [hinv.1, div_two_pow_succ],
      hinv.2.trans (recomputePass_keeps A t.leafHeight hp
        (le_of_eq (by rw [hinv.1, div_two_pow_succ])))⟩)
    ⟨by simp, .refl _ _⟩ hloop
  exact hkeep

theorem recompute_shape {t t' : AppendMerkleTree E} {s n : Nat} {m : Option Nat}
    (h : recompute A t s m = some t') (hs : ShapeBound n t.layers) : ShapeBound n t'.layers := by
  obtain ⟨res, hloop, rfl⟩ := Option.map_eq_some_iff.mp h
  obtain ⟨-, -, -, hres, -⟩ := recomputeLoop_invariant A t.leafHeight
    (fun ls _ _ _ => ShapeBound n ls)
    (fun _ _ _ _ _ _ _ _ _ hinv hp => recomputePass_shape A t.leafHeight hp hinv) hs hloop
  exact hres

/-- `recompute` changes only the layers. -/
theorem recompute_eq {t t' : AppendMerkleTree E} {s : Nat} {m : Option Nat}
    (h : recompute A t s m = some t') : ∃ layers, t' = { t with layers } := by
  obtain ⟨res, -, rfl⟩ := Option.map_eq_some_iff.mp h
  exact ⟨res, rfl⟩

theorem Shaped.recompute {t t' : AppendMerkleTree E} {s : Nat} {m : Option Nat} (hs : Shaped t)
    (h : recompute A t s m = some t') : Shaped t' := by
  unfold Shaped
  rw [(recompute_leaves h).1]
  exact recompute_shape h hs

end Recompute

/-! ## `append_subtree_inner` -/

section Subtree

omit [DecidableEq E] in
/-- The loop of `append_subtree_inner` after the heights below `j`: `1 << (d - 1 - h)` nulls
appended to every layer `h < j`, a missing layer taken as empty. -/
theorem foldl_pushNulls_spec (d : Nat) (ls : List (List E)) (j : Nat) :
    ∃ ls', (List.range j).foldl (pushNulls d) (some ls) = some ls' ∧
      ls'.length = max ls.length j ∧ ∀ h, ls'[h]? =
        if h < j then some (ls[h]?.getD [] ++ List.replicate (shlOne (d - 1 - h)) null)
        else ls[h]? := by
  induction j with
  | zero => exact ⟨ls, rfl, by simp, fun h => by simp⟩
  | succ j ih =>
    obtain ⟨ls₁, hfold, hlen, hget⟩ := ih
    -- the layer at `j` is the old one, or a pushed empty one past the old top
    have hlayer : (beforeExtendLayer ls₁ j)[j]? = some (ls[j]?.getD []) := by
      rw [getElem?_beforeExtendLayer_self]
      split_ifs with hj
      · rw [List.getElem?_eq_none (by omega)]
        rfl
      · rw [hget, if_neg (lt_irrefl j)]
        obtain ⟨x, hx⟩ : ∃ x, ls[j]? = some x :=
          ⟨_, List.getElem?_eq_getElem (by omega)⟩
        simp [hx]
    have hlt := (List.getElem?_eq_some_iff.mp hlayer).1
    refine ⟨(beforeExtendLayer ls₁ j).set j
      (ls[j]?.getD [] ++ List.replicate (shlOne (d - 1 - j)) null), ?_, ?_, fun h => ?_⟩
    · rw [List.range_succ, List.foldl_append, hfold]
      simp [pushNulls, hlayer]
    · rw [List.length_set, length_beforeExtendLayer]
      split_ifs <;> omega
    · by_cases hhj : h = j
      · subst hhj
        rw [List.getElem?_set_self hlt, if_pos (Nat.lt_succ_self h)]
      · rw [List.getElem?_set_ne (Ne.symm hhj), getElem?_beforeExtendLayer_ne _ hhj, hget]
        by_cases hh : h < j
        · rw [if_pos hh, if_pos (by omega)]
        · rw [if_neg hh, if_neg (by omega)]

omit [DecidableEq E] in
/-- `append_subtree_inner`: `1 << (d - 1 - k)` nulls on every layer `k` below the root's, and
the root on its layer. -/
theorem appendSubtreeInner_spec {t t' : AppendMerkleTree E} {d : Nat} {r : E}
    (h : appendSubtreeInner t d r = some (t', .ok ())) :
    ∃ layers, t' = { t with layers } ∧ ∀ k, layers[k]? =
      if k < d - 1 then some (t.layers[k]?.getD [] ++ List.replicate (shlOne (d - 1 - k)) null)
      else if k = d - 1 then some (t.layers[k]?.getD [] ++ [r]) else t.layers[k]? := by
  obtain ⟨ls₁, hfold, hlen, hget⟩ := foldl_pushNulls_spec d t.layers (d - 1)
  unfold appendSubtreeInner at h
  split at h
  · cases h
  · split_ifs at h
    · cases h
    · cases h
    rw [hfold] at h
    obtain ⟨layer, hlayer, heq⟩ := Option.map_eq_some_iff.mp h
    simp only [Prod.mk.injEq] at heq
    -- the root's layer is the old one, or a pushed empty one past the old top
    have hroot : layer = t.layers[d - 1]?.getD [] := by
      rw [getElem?_beforeExtendLayer_self] at hlayer
      split_ifs at hlayer with hd
      · cases hlayer
        rw [List.getElem?_eq_none (by omega)]
        rfl
      · rw [hget, if_neg (lt_irrefl _)] at hlayer
        simp [hlayer]
    subst hroot
    have hlt := (List.getElem?_eq_some_iff.mp hlayer).1
    refine ⟨_, heq.1.symm, fun k => ?_⟩
    by_cases hk : k = d - 1
    · subst hk
      rw [List.getElem?_set_self hlt, if_neg (lt_irrefl _), if_pos rfl]
    · rw [List.getElem?_set_ne (Ne.symm hk), getElem?_beforeExtendLayer_ne _ hk, hget, if_neg hk]

omit [DecidableEq E] in
/-- `append_subtree_inner` only appends to the layers. -/
theorem appendSubtreeInner_keeps {t t' : AppendMerkleTree E} {d : Nat} {r : E}
    {res : Except String Unit} (h : appendSubtreeInner t d r = some (t', res))
    (bound : Nat → Nat) : LayersKeep bound t.layers t'.layers := by
  cases res with
  | error e => rw [appendSubtreeInner_error h]; exact .refl _ _
  | ok u =>
    obtain ⟨layers, rfl, hget⟩ := appendSubtreeInner_spec h
    intro k old hk
    rw [hget, hk, Option.getD_some]
    split_ifs
    · exact ⟨_, rfl, keepsBelow_append _ _ _⟩
    · exact ⟨_, rfl, keepsBelow_append _ _ _⟩
    · exact ⟨old, rfl, .refl _ _⟩

omit [DecidableEq E] in
/-- A subtree of `2 ^ (d - 1)` leaves adds `2 ^ (d - 1 - k)` nodes to layer `k`, as many as a
full tree over the new leaves has more; so the bound is kept. -/
theorem Shaped.appendSubtreeInner {t t' : AppendMerkleTree E} {d : Nat} {r : E}
    {res : Except String Unit} (hs : Shaped t) (hd : d ≤ 64)
    (h : appendSubtreeInner t d r = some (t', res)) : Shaped t' := by
  cases res with
  | error e => rwa [appendSubtreeInner_error h]
  | ok u =>
    have hd0 := pos_of_appendSubtreeInner h
    obtain ⟨layers, rfl, hget⟩ := appendSubtreeInner_spec h
    have hshl : ∀ j, j < 64 → shlOne j = 2 ^ j := fun j hj => by
      unfold shlOne
      rw [Nat.mod_eq_of_lt hj]
    -- every old layer, a missing one taken as empty, is within the bound
    have hold : ∀ k, (t.layers[k]?.getD []).length ≤
        (fun n => (n + 1) / 2)^[k] (t.layers[0]?.getD []).length := fun k => by
      cases hk : t.layers[k]? with
      | none => exact Nat.zero_le _
      | some layer => exact hs k layer hk
    have hleaves : (layers[0]?.getD []).length =
        (t.layers[0]?.getD []).length + 2 ^ (d - 1) := by
      rw [hget 0]
      by_cases h0 : 0 < d - 1
      · rw [if_pos h0, Option.getD_some, List.length_append, List.length_replicate,
          hshl _ (by omega), Nat.sub_zero]
      · rw [if_neg h0, if_pos (by omega), Option.getD_some, List.length_append,
          List.length_singleton, show d - 1 = 0 by omega]
        rfl
    unfold Shaped
    rw [hleaves]
    intro k layer hk
    rw [hget k] at hk
    split_ifs at hk with hlt heq
    · cases hk
      rw [List.length_append, List.length_replicate, hshl _ (by omega),
        show 2 ^ (d - 1) = 2 ^ k * 2 ^ (d - 1 - k) by rw [← pow_add]; congr 1; omega,
        iterate_half_add_two_pow_mul]
      exact Nat.add_le_add_right (hold k) _
    · cases hk
      subst heq
      rw [List.length_append, List.length_singleton,
        show 2 ^ (d - 1) = 2 ^ (d - 1) * 1 from (Nat.mul_one _).symm, iterate_half_add_two_pow_mul]
      exact Nat.add_le_add_right (hold _) _
    · have := hold k
      rw [hk, Option.getD_some] at this
      exact this.trans (iterate_half_mono (Nat.le_add_right _ _) _)

end Subtree

/-! ## The operations -/

section Operations

variable {A : Algorithm E}

omit [HashElement E] [DecidableEq E] in
theorem getElem?_zero_of_leaves {t : AppendMerkleTree E} {n : Nat} (h : t.leaves = some n) :
    ∃ L, t.layers[0]? = some L ∧ L.length = n := by
  obtain ⟨L, hL, rfl⟩ := Option.map_eq_some_iff.mp h
  exact ⟨L, hL, rfl⟩

theorem append_spec {t t' : AppendMerkleTree E} {x : E} (h : append A t x = some t') :
    ∃ L rest, t.layers = L :: rest ∧
      recompute A { t with layers := (L ++ [x]) :: rest } L.length none = some t' := by
  unfold append at h
  split at h
  · cases h
  · rename_i L rest ht
    exact ⟨L, rest, ht, h⟩

theorem appendList_spec {t t' : AppendMerkleTree E} {leafList : List E}
    (h : appendList A t leafList = some t') :
    ∃ L rest, t.layers = L :: rest ∧
      recompute A { t with layers := (L ++ leafList) :: rest } L.length none = some t' := by
  unfold appendList at h
  split at h
  · cases h
  · rename_i L rest ht
    exact ⟨L, rest, ht, h⟩

theorem updateLast_spec {t t' : AppendMerkleTree E} {x : E} (h : updateLast A t x = some t') :
    ∃ L rest, t.layers = L :: rest ∧
      recompute A { t with layers := lastReplaced L x :: rest } (L.length - 1) none = some t' := by
  unfold updateLast at h
  split at h
  · cases h
  · rename_i L rest ht
    refine ⟨L, rest, ht, ?_⟩
    by_cases hL : L = []
    · subst hL
      simpa [lastReplaced] using h
    · simpa [lastReplaced, hL] using h

theorem fillLeaf_spec {t t' : AppendMerkleTree E} {index : Nat} {leaf : E}
    (h : fillLeaf A t index leaf = some t') :
    t' = t ∨ ∃ L rest, t.layers = L :: rest ∧ index < L.length ∧
      recompute A { t with layers := L.set index leaf :: rest } index (some (index + 1)) =
        some t' := by
  unfold fillLeaf at h
  split at h
  · cases h
  · rename_i L rest ht
    split_ifs at h with hlt hnull
    · exact Or.inr ⟨L, rest, ht, hlt, h⟩
    · cases h
      exact Or.inl rfl

theorem appendSubtree_spec {t t' : AppendMerkleTree E} {d : Nat} {r : E}
    {res : Except String Unit} (h : appendSubtree A t d r = some (t', res)) :
    t' = t ∨ ∃ L t₁, t.layers[0]? = some L ∧ appendSubtreeInner t d r = some (t₁, .ok ()) ∧
      recompute A t₁ L.length none = some t' := by
  unfold appendSubtree at h
  split at h
  · cases h
  · rename_i n hn
    obtain ⟨L, hL, rfl⟩ := getElem?_zero_of_leaves hn
    split at h
    · cases h
    · rename_i t₁ e hin
      cases h
      exact Or.inl (appendSubtreeInner_error hin)
    · rename_i t₁ hin
      obtain ⟨t₂, hr, heq⟩ := Option.map_eq_some_iff.mp h
      simp only [Prod.mk.injEq] at heq
      exact Or.inr ⟨L, t₁, hL, hin, heq.1 ▸ hr⟩

omit [DecidableEq E] in
theorem appendSubtreeInnerList_keeps {t t' : AppendMerkleTree E} {subtreeList : List (Nat × E)}
    {res : Except String Unit} (h : appendSubtreeInnerList t subtreeList = some (t', res))
    (bound : Nat → Nat) : LayersKeep bound t.layers t'.layers := by
  induction subtreeList generalizing t with
  | nil =>
    cases h
    exact .refl _ _
  | cons p rest ih =>
    obtain ⟨d, r⟩ := p
    unfold AppendMerkleTree.appendSubtreeInnerList at h
    split at h
    · cases h
    · rename_i t₁ e hin
      cases h
      exact appendSubtreeInner_keeps hin bound
    · rename_i t₁ hin
      exact (appendSubtreeInner_keeps hin bound).trans (ih h)

omit [DecidableEq E] in
theorem Shaped.appendSubtreeInnerList {t t' : AppendMerkleTree E}
    {subtreeList : List (Nat × E)} {res : Except String Unit} (hs : Shaped t)
    (hd : ∀ p ∈ subtreeList, p.1 ≤ 64) (h : appendSubtreeInnerList t subtreeList = some (t', res)) :
    Shaped t' := by
  induction subtreeList generalizing t with
  | nil =>
    cases h
    exact hs
  | cons p rest ih =>
    obtain ⟨d, r⟩ := p
    unfold AppendMerkleTree.appendSubtreeInnerList at h
    split at h
    · cases h
    · rename_i t₁ e hin
      cases h
      exact hs.appendSubtreeInner (hd _ List.mem_cons_self) hin
    · rename_i t₁ hin
      exact ih (hs.appendSubtreeInner (hd _ List.mem_cons_self) hin)
        (fun q hq => hd q (List.mem_cons_of_mem _ hq)) h

omit [DecidableEq E] in
theorem appendSubtreeInnerList_eq {t t' : AppendMerkleTree E} {subtreeList : List (Nat × E)}
    {res : Except String Unit} (h : appendSubtreeInnerList t subtreeList = some (t', res)) :
    ∃ layers, t' = { t with layers } := by
  induction subtreeList generalizing t with
  | nil =>
    cases h
    exact ⟨_, rfl⟩
  | cons p rest ih =>
    obtain ⟨d, r⟩ := p
    unfold AppendMerkleTree.appendSubtreeInnerList at h
    split at h
    · cases h
    · rename_i t₁ e hin
      cases h
      exact ⟨t.layers, by rw [appendSubtreeInner_error hin]⟩
    · rename_i t₁ hin
      obtain ⟨layers₁, rfl, -⟩ := appendSubtreeInner_spec hin
      obtain ⟨layers, rfl⟩ := ih h
      exact ⟨layers, rfl⟩

theorem appendSubtreeList_spec {t t' : AppendMerkleTree E} {subtreeList : List (Nat × E)}
    {res : Except String Unit} (h : appendSubtreeList A t subtreeList = some (t', res)) :
    ∃ L t₁ res₁, t.layers[0]? = some L ∧ appendSubtreeInnerList t subtreeList = some (t₁, res₁) ∧
      (t' = t₁ ∨ recompute A t₁ L.length none = some t') := by
  unfold appendSubtreeList at h
  split at h
  · cases h
  · rename_i n hn
    obtain ⟨L, hL, rfl⟩ := getElem?_zero_of_leaves hn
    split at h
    · cases h
    · rename_i t₁ e hin
      cases h
      exact ⟨L, t', _, hL, hin, Or.inl rfl⟩
    · rename_i t₁ hin
      obtain ⟨t₂, hr, heq⟩ := Option.map_eq_some_iff.mp h
      simp only [Prod.mk.injEq] at heq
      exact ⟨L, t₁, _, hL, hin, Or.inr (heq.1 ▸ hr)⟩

/-! ### What the growing operations keep -/

/-- `append` keeps every node of layer `k` below `(leaves - 1) >> k`. -/
theorem append_keeps {t t' : AppendMerkleTree E} {x : E} {L : List E}
    (h : append A t x = some t') (hL : t.layers[0]? = some L) :
    LayersKeep (fun k => (L.length - 1) / 2 ^ k) t.layers t'.layers := by
  obtain ⟨L₀, rest, ht, hr⟩ := append_spec h
  rw [ht, List.getElem?_cons_zero, Option.some.injEq] at hL
  subst hL
  rw [ht]
  exact ((layersKeep_cons rest (keepsBelow_append _ L₀ [x])).trans (recompute_keeps hr)).mono
    fun k => Nat.div_le_div_right (Nat.sub_le _ _)

theorem appendList_keeps {t t' : AppendMerkleTree E} {leafList L : List E}
    (h : appendList A t leafList = some t') (hL : t.layers[0]? = some L) :
    LayersKeep (fun k => (L.length - 1) / 2 ^ k) t.layers t'.layers := by
  obtain ⟨L₀, rest, ht, hr⟩ := appendList_spec h
  rw [ht, List.getElem?_cons_zero, Option.some.injEq] at hL
  subst hL
  rw [ht]
  exact ((layersKeep_cons rest (keepsBelow_append _ L₀ leafList)).trans (recompute_keeps hr)).mono
    fun k => Nat.div_le_div_right (Nat.sub_le _ _)

omit [HashElement E] [DecidableEq E] in
/-- `update_last` changes the last leaf only. -/
theorem keepsBelow_lastReplaced (L : List E) (x : E) :
    KeepsBelow (L.length - 1) L (lastReplaced L x) := by
  unfold lastReplaced
  split_ifs with hL
  · subst hL
    exact ⟨by simp, fun i hi => absurd hi (Nat.not_lt_zero _)⟩
  · exact keepsBelow_set L _ x

theorem updateLast_keeps {t t' : AppendMerkleTree E} {x : E} {L : List E}
    (h : updateLast A t x = some t') (hL : t.layers[0]? = some L) :
    LayersKeep (fun k => (L.length - 1) / 2 ^ k) t.layers t'.layers := by
  obtain ⟨L₀, rest, ht, hr⟩ := updateLast_spec h
  rw [ht, List.getElem?_cons_zero, Option.some.injEq] at hL
  subst hL
  rw [ht]
  have hlast : LayersKeep (fun k => (L₀.length - 1) / 2 ^ k) (L₀ :: rest)
      (lastReplaced L₀ x :: rest) :=
    layersKeep_cons rest ((keepsBelow_lastReplaced L₀ x).mono (Nat.div_le_self _ _))
  exact hlast.trans (recompute_keeps hr)

theorem appendSubtree_keeps {t t' : AppendMerkleTree E} {d : Nat} {r : E} {L : List E}
    {res : Except String Unit} (h : appendSubtree A t d r = some (t', res))
    (hL : t.layers[0]? = some L) :
    LayersKeep (fun k => (L.length - 1) / 2 ^ k) t.layers t'.layers := by
  rcases appendSubtree_spec h with rfl | ⟨L₀, t₁, hL₀, hin, hr⟩
  · exact .refl _ _
  · rw [hL, Option.some.injEq] at hL₀
    subst hL₀
    exact ((appendSubtreeInner_keeps hin _).trans (recompute_keeps hr)).mono
      fun k => Nat.div_le_div_right (Nat.sub_le _ _)

/-! ### The bound through every operation -/

theorem Shaped.append {t t' : AppendMerkleTree E} {x : E} (hs : Shaped t)
    (h : append A t x = some t') : Shaped t' := by
  obtain ⟨L, rest, ht, hr⟩ := append_spec h
  refine Shaped.recompute ?_ hr
  unfold Shaped
  simp only [List.getElem?_cons_zero, Option.getD_some]
  exact shapeBound_cons (hs.cons ht) (by simp) le_rfl

theorem Shaped.appendList {t t' : AppendMerkleTree E} {leafList : List E} (hs : Shaped t)
    (h : appendList A t leafList = some t') : Shaped t' := by
  obtain ⟨L, rest, ht, hr⟩ := appendList_spec h
  refine Shaped.recompute ?_ hr
  unfold Shaped
  simp only [List.getElem?_cons_zero, Option.getD_some]
  exact shapeBound_cons (hs.cons ht) (by simp) le_rfl

theorem Shaped.updateLast {t t' : AppendMerkleTree E} {x : E} (hs : Shaped t)
    (h : updateLast A t x = some t') : Shaped t' := by
  obtain ⟨L, rest, ht, hr⟩ := updateLast_spec h
  refine Shaped.recompute ?_ hr
  unfold Shaped
  simp only [List.getElem?_cons_zero, Option.getD_some]
  refine shapeBound_cons (hs.cons ht) ?_ le_rfl
  unfold lastReplaced
  split_ifs with hL
  · subst hL
    exact Nat.zero_le _
  · rw [List.length_set]

theorem Shaped.fillLeaf {t t' : AppendMerkleTree E} {index : Nat} {leaf : E} (hs : Shaped t)
    (h : fillLeaf A t index leaf = some t') : Shaped t' := by
  rcases fillLeaf_spec h with rfl | ⟨L, rest, ht, -, hr⟩
  · exact hs
  · refine Shaped.recompute ?_ hr
    unfold Shaped
    simp only [List.getElem?_cons_zero, Option.getD_some]
    exact shapeBound_cons (hs.cons ht) (by simp) (by simp)

theorem Shaped.appendSubtree {t t' : AppendMerkleTree E} {d : Nat} {r : E}
    {res : Except String Unit} (hs : Shaped t) (hd : d ≤ 64)
    (h : appendSubtree A t d r = some (t', res)) : Shaped t' := by
  rcases appendSubtree_spec h with rfl | ⟨L, t₁, -, hin, hr⟩
  · exact hs
  · exact (hs.appendSubtreeInner hd hin).recompute hr

theorem Shaped.appendSubtreeList {t t' : AppendMerkleTree E} {subtreeList : List (Nat × E)}
    {res : Except String Unit} (hs : Shaped t) (hd : ∀ p ∈ subtreeList, p.1 ≤ 64)
    (h : appendSubtreeList A t subtreeList = some (t', res)) : Shaped t' := by
  obtain ⟨L, t₁, res₁, -, hin, rfl | hr⟩ := appendSubtreeList_spec h
  · exact hs.appendSubtreeInnerList hd hin
  · exact (hs.appendSubtreeInnerList hd hin).recompute hr

end Operations

end AppendMerkleTree

end Ionian.AppendMerkle
