import Ionian.AppendMerkle.Frame

/-!
# AppendMerkle.Subtrees — errors of `append_subtree_list`, and filling the leaves of a subtree

`append_subtree_list` pushes the null leaves and the root of every pair before it recomputes, and
stops at the first pair whose depth or alignment is wrong.  The pairs pushed before that pair stay
pushed: an error after a good first pair returns a tree with more leaves than before
(`appendSubtreeList_error_grows_leaves`), where the one-at-a-time `append_subtree` of the first
pair would have kept it and the next one would have failed alone.

`fill_leaf` recomputes the parents of the filled leaf, and a parent is written over a known node
when it is the last node of its layer.  The root of an appended subtree is such a node, so filling
its leaves with leaves of another root overwrites it without a panic (`fillLeaf_changes_root`).
-/

namespace Ionian.AppendMerkle

open HashElement

variable {E : Type} [HashElement E] [DecidableEq E]

namespace AppendMerkleTree

section Subtrees

variable (A : Algorithm E)

omit [DecidableEq E] in
/-- `append_subtree_inner` reads the leaves, so it fails on a tree without layers. -/
theorem leaves_of_appendSubtreeInner {t t₁ : AppendMerkleTree E} {d : Nat} {r : E}
    {res : Except String Unit} (h : appendSubtreeInner t d r = some (t₁, res)) :
    ∃ L, t.layers[0]? = some L := by
  unfold appendSubtreeInner at h
  split at h
  · cases h
  · rename_i n hn
    obtain ⟨L, hL, -⟩ := Option.map_eq_some_iff.mp hn
    exact ⟨L, hL⟩

omit [DecidableEq E] in
/-- A pair appended by `append_subtree_inner` adds at least one leaf: the subtree's null leaves,
or its root on a subtree of depth one. -/
theorem length_leaves_appendSubtreeInner {t t₁ : AppendMerkleTree E} {d : Nat} {r : E}
    (h : appendSubtreeInner t d r = some (t₁, .ok ())) :
    ∃ L₁, t₁.layers[0]? = some L₁ ∧ (t.layers[0]?.getD []).length < L₁.length := by
  have hd := pos_of_appendSubtreeInner h
  obtain ⟨layers, rfl, hk⟩ := appendSubtreeInner_spec h
  have h0 := hk 0
  by_cases hdeep : 0 < d - 1
  · rw [if_pos hdeep] at h0
    refine ⟨_, h0, ?_⟩
    simp only [List.length_append, List.length_replicate]
    have := shlOne_pos (d - 1 - 0)
    omega
  · rw [if_neg hdeep, if_pos (by omega)] at h0
    exact ⟨_, h0, by simp⟩

/-- An error of `append_subtree_list` is the error of its loop: nothing is recomputed. -/
theorem appendSubtreeList_error_inner {t t' : AppendMerkleTree E} {l : List (Nat × E)}
    {e : String} (h : appendSubtreeList A t l = some (t', .error e)) :
    appendSubtreeInnerList t l = some (t', .error e) := by
  unfold appendSubtreeList at h
  split at h
  · cases h
  · split at h
    · cases h
    · rename_i heq
      simp only [Option.some.injEq, Prod.mk.injEq, Except.error.injEq] at h
      obtain ⟨rfl, rfl⟩ := h
      exact heq
    · obtain ⟨_, -, h⟩ := Option.map_eq_some_iff.mp h
      cases h

/-- `append_subtree_list` is not atomic: when its first pair is appended and a later pair fails,
the error comes back with a tree of more leaves than the tree it was given. -/
theorem appendSubtreeList_error_grows_leaves {t t₁ t' : AppendMerkleTree E} {d : Nat} {r : E}
    {rest : List (Nat × E)} {e : String} (hfirst : appendSubtreeInner t d r = some (t₁, .ok ()))
    (h : appendSubtreeList A t ((d, r) :: rest) = some (t', .error e)) :
    ∃ n n', t.leaves = some n ∧ t'.leaves = some n' ∧ n < n' := by
  have hinner := appendSubtreeList_error_inner A h
  rw [appendSubtreeInnerList, hfirst] at hinner
  obtain ⟨L, hL⟩ := leaves_of_appendSubtreeInner hfirst
  obtain ⟨L₁, hL₁, hgrow⟩ := length_leaves_appendSubtreeInner hfirst
  -- the pairs after the first one only push nodes, so the leaves appended stay
  obtain ⟨L', hL', hkeep, -⟩ := appendSubtreeInnerList_keeps hinner (fun _ => 0) 0 L₁ hL₁
  rw [hL, Option.getD_some] at hgrow
  exact ⟨L.length, L'.length, by simp [leaves, hL], by simp [leaves, hL'], by omega⟩

/-- The pair `(1, 5)` is appended to an empty tree and `(0, 7)` fails on its depth: the error
comes with the leaf `5` appended. -/
theorem appendSubtreeList_error_grows_leaves_example :
    appendSubtreeList natAlgorithm (ofLeaves [] 0) [(1, 5), (0, 7)] =
        some (ofLeaves [5] 0, .error "Subtree depth should not be zero!") ∧
      ∃ n n', (ofLeaves [] 0 : AppendMerkleTree Nat).leaves = some n ∧
        (ofLeaves [5] 0 : AppendMerkleTree Nat).leaves = some n' ∧ n < n' := by
  have hfirst : appendSubtreeInner (ofLeaves [] 0 : AppendMerkleTree Nat) 1 5 =
      some (ofLeaves [5] 0, .ok ()) := rfl
  have h : appendSubtreeList natAlgorithm (ofLeaves [] 0) [(1, 5), (0, 7)] =
      some (ofLeaves [5] 0, .error "Subtree depth should not be zero!") := rfl
  exact ⟨h, appendSubtreeList_error_grows_leaves natAlgorithm hfirst h⟩

end Subtrees

/-! ## Filling the leaves of a subtree -/

section Fill

variable (A : Algorithm E)

/-- `fill_leaf` of a null leaf: the leaf is set and its parents recomputed. -/
theorem fillLeaf_of_null {t : AppendMerkleTree E} {L : List E} {rest : List (List E)}
    {index : Nat} (leaf : E) (ht : t.layers = L :: rest) (hi : index < L.length)
    (hnull : L[index] = null) :
    fillLeaf A t index leaf =
      recompute A { t with layers := L.set index leaf :: rest } index (some (index + 1)) := by
  unfold fillLeaf
  simp only [ht, dif_pos hi, if_pos hnull]

/-- The subtree of depth two and root `5` appended to an empty tree, then its two null leaves
filled with `2` and `3`, whose parent is `6`: no call panics, and the root `5` of the subtree,
the last node of its layer, is overwritten by `6`. -/
theorem fillLeaf_changes_root :
    ∃ t₀ t₁ t₂ t₃ : AppendMerkleTree Nat, new natAlgorithm [] 0 none = some t₀ ∧
      appendSubtree natAlgorithm t₀ 2 5 = some (t₁, .ok ()) ∧
      fillLeaf natAlgorithm t₁ 0 2 = some t₂ ∧ fillLeaf natAlgorithm t₂ 1 3 = some t₃ ∧
      t₁.root = some 5 ∧ t₂.root = some 5 ∧ t₃.root = some 6 := by
  have hl₀ : ∀ L₀ L₁ : List Nat, [L₀, L₁][0]? = some L₀ := fun _ _ => rfl
  have hstop : ∀ (L₀ : List Nat) (r : Nat) (s : Nat) (m : Option Nat),
      recomputeLoop natAlgorithm 0 [L₀, [r]] 1 s m = some [L₀, [r]] :=
    fun _ _ _ _ => recomputeLoop_of_stop natAlgorithm 0 rfl (by simp)
  -- appending the subtree: the parent of the two null leaves is null and is not written
  have hsub : recomputeLoop natAlgorithm 0 [[0, 0], [5]] 0 0 none = some [[0, 0], [5]] := by
    have hp : recomputePass natAlgorithm 0 [[0, 0], [5]] 0 0 none = some ([[0, 0], [5]], none) :=
      rfl
    rw [recomputeLoop_of_pass natAlgorithm 0 (hl₀ _ _) (by decide) hp, hstop]
  -- filling leaf 0: its parent is still null
  have hfill₀ : recomputeLoop natAlgorithm 0 [[2, 0], [5]] 0 0 (some 1) = some [[2, 0], [5]] := by
    have hp : recomputePass natAlgorithm 0 [[2, 0], [5]] 0 0 (some 1) =
        some ([[2, 0], [5]], none) := rfl
    rw [recomputeLoop_of_pass natAlgorithm 0 (hl₀ _ _) (by decide) hp, hstop]
  -- filling leaf 1: the parent `6` is written over the last node `5` of layer 1
  have hfill₁ : recomputeLoop natAlgorithm 0 [[2, 3], [5]] 0 1 (some 2) = some [[2, 3], [6]] := by
    have hp : recomputePass natAlgorithm 0 [[2, 3], [5]] 0 1 (some 2) =
        some ([[2, 3], [6]], some 1) := rfl
    rw [recomputeLoop_of_pass natAlgorithm 0 (hl₀ _ _) (by decide) hp, hstop]
  refine ⟨ofLeaves [] 0, ⟨[[0, 0], [5]], ∅, ∅, none, 0⟩, ⟨[[2, 0], [5]], ∅, ∅, none, 0⟩,
    ⟨[[2, 3], [6]], ∅, ∅, none, 0⟩, rfl, ?_, ?_, ?_, rfl, rfl, rfl⟩
  · have hinner : appendSubtreeInner (ofLeaves [] 0 : AppendMerkleTree Nat) 2 5 =
        some (⟨[[0, 0], [5]], ∅, ∅, none, 0⟩, .ok ()) := rfl
    have hleaves : (ofLeaves [] 0 : AppendMerkleTree Nat).leaves = some 0 := rfl
    simp only [appendSubtree, hleaves, hinner, recompute, hsub, Option.map_some]
  · rw [fillLeaf_of_null natAlgorithm 2 rfl (by decide) rfl]
    show (recomputeLoop natAlgorithm 0 [[2, 0], [5]] 0 0 (some 1)).map _ = _
    rw [hfill₀]
    rfl
  · rw [fillLeaf_of_null natAlgorithm 3 rfl (by decide) rfl]
    show (recomputeLoop natAlgorithm 0 [[2, 3], [5]] 0 1 (some 2)).map _ = _
    rw [hfill₁]
    rfl

end Fill

end AppendMerkleTree

end Ionian.AppendMerkle
