import Ionian.AppendMerkle.History
import Ionian.AppendMerkle.Frame

/-!
# AppendMerkle.Versions — reading and restoring committed versions

Every tree the public operations build, in any order, keeps its layers within those of a full
tree over its leaves, and records only versions of that shape (`Built.good`).  So after the
commit of a version, the growing operations never change a node left of the version's right-most
node of a layer: they recompute from the old last leaf, and the version's right-most node of layer
`k` sits at most at `(leaves - 1) >> k`.  Reading the version through the grown layers then reads
the committed tree itself (`atRootVersion_of_commit`), as long as no later commit records the
same version or the same root: a padding leaf appended to a tree whose last layer pair was padded
gives the same root, and `at_root_version` then reads the newer version (`atRootVersion_shared_root`).

`revert_to` a version recorded while the tree was empty drops every layer, so the next append
panics (`revertTo_empty_version`).
-/

namespace Ionian.AppendMerkle

open HashElement Merkle

variable {E : Type} [HashElement E] [DecidableEq E]

namespace AppendMerkleTree

/-! ## Commits and reverts -/

section Spec

omit [HashElement E] [DecidableEq E] in
/-- The right-most node of every layer, with its index; every layer has one. -/
theorem rightMostNodes_spec {ls : List (List E)} {nodes : List (Nat × E)}
    (h : rightMostNodes ls = some nodes) :
    nodes.length = ls.length ∧ ∀ (k : Nat) (layer : List E), ls[k]? = some layer →
      ∃ x, layer.getLast? = some x ∧ nodes[k]? = some (layer.length - 1, x) := by
  induction ls generalizing nodes with
  | nil =>
    simp only [rightMostNodes, List.mapM_nil, Option.pure_def, Option.some.injEq] at h
    subst h
    simp
  | cons layer rest ih =>
    simp only [rightMostNodes, List.mapM_cons] at h
    obtain ⟨n, hn, h⟩ := Option.bind_eq_some_iff.mp h
    obtain ⟨ns, hns, h⟩ := Option.bind_eq_some_iff.mp h
    simp only [Option.pure_def, Option.some.injEq] at h
    subst h
    obtain ⟨x, hx, rfl⟩ := Option.map_eq_some_iff.mp hn
    obtain ⟨hlen, hget⟩ := ih hns
    refine ⟨by simp [hlen], fun k l hk => ?_⟩
    cases k with
    | zero =>
      simp only [List.getElem?_cons_zero, Option.some.injEq] at hk
      subst hk
      exact ⟨x, hx, rfl⟩
    | succ k => exact hget k l hk

omit [HashElement E] in
/-- `commit(Some(tx_seq))`: an empty tree records the version with no nodes; any other records
its right-most nodes and its root. -/
theorem commit_some_spec {t t' : AppendMerkleTree E} {txSeq : Nat}
    (h : t.commit (some txSeq) = some t') :
    t'.layers = t.layers ∧ t'.leafHeight = t.leafHeight ∧
      ((t.leaves = some 0 ∧ t'.deltaNodesMap = t.deltaNodesMap.insert txSeq ⟨[]⟩ ∧
          t'.rootToTxSeqMap = t.rootToTxSeqMap) ∨
        ∃ nodes root, t.leaves ≠ some 0 ∧ rightMostNodes t.layers = some nodes ∧
          t.root = some root ∧ t'.deltaNodesMap = t.deltaNodesMap.insert txSeq ⟨nodes⟩ ∧
          t'.rootToTxSeqMap = t.rootToTxSeqMap.insert root txSeq) := by
  unfold commit at h
  dsimp only at h
  split at h
  · cases h
  · cases h
    exact ⟨rfl, rfl, Or.inl ⟨by assumption, rfl, rfl⟩⟩
  · rename_i n hn0 hn
    split at h
    · rename_i nodes root hnodes hroot
      split_ifs at h
      cases h
      refine ⟨rfl, rfl, Or.inr ⟨nodes, root, ?_, hnodes, hroot, rfl, rfl⟩⟩
      rw [hn]
      exact fun h0 => hn0 (Option.some.inj h0)
    · cases h

omit [HashElement E] in
/-- `clear_after` only forgets versions. -/
theorem clearFrom_eq (t : AppendMerkleTree E) (txSeq : Nat) :
    ∃ deltaNodesMap rootToTxSeqMap, t.clearFrom txSeq = { t with deltaNodesMap, rootToTxSeqMap } ∧
      ∀ v nodes, deltaNodesMap.lookup v = some nodes → t.deltaNodesMap.lookup v = some nodes := by
  fun_induction clearFrom t txSeq with
  | case1 t txSeq h => exact ⟨t.deltaNodesMap, t.rootToTxSeqMap, rfl, fun _ _ h => h⟩
  | case2 t txSeq nodes h rootToTxSeqMap ih =>
    obtain ⟨d, r, heq, hsub⟩ := ih
    refine ⟨d, r, heq, fun v n hv => ?_⟩
    have := hsub v n hv
    by_cases hvs : v = txSeq
    · subst hvs
      rw [AList.lookup_erase] at this
      cases this
    · rwa [AList.lookup_erase_ne hvs] at this

omit [HashElement E] [DecidableEq E] in
/-- The loop of `revert_to`: every recorded layer is cut after its right-most index, with the
recorded node written there; the other layers are kept. -/
theorem revertLayers_spec {ls ls' : List (List E)} {height : Nat} {nodes : List (Nat × E)}
    (h : revertLayers ls height nodes = some ls') :
    ls'.length = ls.length ∧ (∀ j, j < height ∨ height + nodes.length ≤ j → ls'[j]? = ls[j]?) ∧
      ∀ j i x, nodes[j]? = some (i, x) → ∃ layer, ls[height + j]? = some layer ∧
        i < layer.length ∧ ls'[height + j]? = some ((layer.take (i + 1)).set i x) := by
  induction nodes generalizing ls height with
  | nil =>
    cases h
    exact ⟨rfl, fun _ _ => rfl, fun j i x hj => by simp at hj⟩
  | cons n rest ih =>
    obtain ⟨i₀, x₀⟩ := n
    unfold revertLayers at h
    split at h
    · cases h
    · rename_i layer hlayer
      dsimp only at h
      split_ifs at h with hlt
      obtain ⟨hlen, hout, hin⟩ := ih h
      have hheight := (List.getElem?_eq_some_iff.mp hlayer).1
      have hlt' : i₀ < layer.length := by simpa using hlt
      refine ⟨by rw [hlen, List.length_set], fun j hj => ?_, fun j i x hj => ?_⟩
      · rw [hout j (by simp at hj ⊢; omega), List.getElem?_set_ne (by simp at hj; omega)]
      · cases j with
        | zero =>
          simp only [List.getElem?_cons_zero, Option.some.injEq, Prod.mk.injEq] at hj
          obtain ⟨rfl, rfl⟩ := hj
          refine ⟨layer, hlayer, hlt', ?_⟩
          rw [Nat.add_zero, hout height (Or.inl (Nat.lt_succ_self _)), List.getElem?_set_self hheight]
        | succ j =>
          obtain ⟨l, hl, hil, hget⟩ := hin j i x hj
          rw [List.getElem?_set_ne (by omega)] at hl
          exact ⟨l, by rw [show height + (j + 1) = height + 1 + j by omega]; exact hl, hil,
            by rw [show height + (j + 1) = height + 1 + j by omega]; exact hget⟩

end Spec

/-! ## The shape of every built tree -/

section Built

variable {A : Algorithm E}

/-- A recorded version is the right-most nodes of layers within the bound of their leaves. -/
def DeltaShaped (d : DeltaNodes E) : Prop :=
  ∀ k i x, d.rightMostNodes[k]? = some (i, x) →
    i + 1 ≤ (fun n => (n + 1) / 2)^[k] ((d.rightMostNodes[0]?.map fun n => n.1 + 1).getD 0)

/-- The tree is within its bound and records only versions within theirs. -/
structure Good (t : AppendMerkleTree E) : Prop where
  shaped : Shaped t
  deltas : ∀ v d, t.deltaNodesMap.lookup v = some d → DeltaShaped d

omit [HashElement E] [DecidableEq E] in
theorem deltaShaped_nil : DeltaShaped (⟨[]⟩ : DeltaNodes E) := fun k i x h => by simp at h

omit [HashElement E] [DecidableEq E] in
/-- The right-most nodes of layers within their bound are a version within its bound. -/
theorem deltaShaped_rightMostNodes {t : AppendMerkleTree E} {nodes : List (Nat × E)}
    (hs : Shaped t) (h : rightMostNodes t.layers = some nodes) : DeltaShaped ⟨nodes⟩ := by
  obtain ⟨-, hget⟩ := rightMostNodes_spec h
  intro k i x hk
  have hk' := hk
  obtain ⟨layer, hlayer⟩ : ∃ layer, t.layers[k]? = some layer := by
    cases hl : t.layers[k]? with
    | none =>
      have hlen : nodes.length ≤ k := by
        rw [(rightMostNodes_spec h).1]
        exact List.getElem?_eq_none_iff.mp hl
      rw [List.getElem?_eq_none hlen] at hk
      cases hk
    | some layer => exact ⟨layer, rfl⟩
  obtain ⟨y, hy, hnode⟩ := hget k layer hlayer
  rw [hk', Option.some.injEq, Prod.mk.injEq] at hnode
  obtain ⟨rfl, -⟩ := hnode
  -- the leaves are a layer, with a right-most node
  obtain ⟨L, hL⟩ : ∃ L, t.layers[0]? = some L := by
    cases h0 : t.layers[0]? with
    | none =>
      simp only [List.getElem?_eq_none_iff, Nat.le_zero, List.length_eq_zero_iff] at h0
      simp [h0] at hlayer
    | some L => exact ⟨L, rfl⟩
  obtain ⟨z, hz, h0⟩ := hget 0 L hL
  have hlayer_pos : 0 < layer.length := List.length_pos_iff.mpr (by rintro rfl; simp at hy)
  have hL_pos : 0 < L.length := List.length_pos_iff.mpr (by rintro rfl; simp at hz)
  have hbound := hs k layer hlayer
  simp only [hL, Option.getD_some] at hbound
  simp only [h0, Option.map_some, Option.getD_some, Nat.sub_add_cancel hL_pos]
  omega

omit [HashElement E] in
theorem Good.commit {t t' : AppendMerkleTree E} {txSeq : Option Nat} (hg : Good t)
    (h : t.commit txSeq = some t') : Good t' := by
  cases txSeq with
  | none =>
    cases h
    exact hg
  | some txSeq =>
    obtain ⟨hlayers, -, hmaps⟩ := commit_some_spec h
    refine ⟨by unfold Shaped; rw [hlayers]; exact hg.shaped, fun v d hv => ?_⟩
    -- the recorded version is new, or was there before
    obtain ⟨d', hd', hnew⟩ : ∃ d', t'.deltaNodesMap = t.deltaNodesMap.insert txSeq d' ∧
        DeltaShaped d' := by
      rcases hmaps with ⟨-, hd, -⟩ | ⟨nodes, root, -, hnodes, -, hd, -⟩
      · exact ⟨_, hd, deltaShaped_nil⟩
      · exact ⟨_, hd, deltaShaped_rightMostNodes hg.shaped hnodes⟩
    rw [hd'] at hv
    by_cases hvs : v = txSeq
    · subst hvs
      rw [AList.lookup_insert, Option.some.injEq] at hv
      rwa [← hv]
    · rw [AList.lookup_insert_ne hvs] at hv
      exact hg.deltas v d hv

omit [HashElement E] [DecidableEq E] in
theorem Good.of_eq {t t' : AppendMerkleTree E} (hg : Good t) (hs : Shaped t')
    (hd : t'.deltaNodesMap = t.deltaNodesMap) : Good t' :=
  ⟨hs, fun v d hv => hg.deltas v d (hd ▸ hv)⟩

omit [HashElement E] [DecidableEq E] in
theorem good_of_empty {t : AppendMerkleTree E} (hs : Shaped t) (hd : t.deltaNodesMap = ∅) :
    Good t :=
  ⟨hs, fun v d hv => by simp [hd] at hv⟩

omit [HashElement E] [DecidableEq E] in
/-- Leaves under layers without nodes, as the constructors start from. -/
theorem shapeBound_cons_replicate_nil (L : List E) (d : Nat) :
    ShapeBound L.length (L :: List.replicate d []) := by
  intro k layer hk
  cases k with
  | zero =>
    simp only [List.getElem?_cons_zero, Option.some.injEq] at hk
    subst hk
    exact le_rfl
  | succ k =>
    rw [List.getElem?_cons_succ] at hk
    rw [List.eq_of_mem_replicate (List.mem_of_getElem? hk)]
    exact Nat.zero_le _

omit [HashElement E] [DecidableEq E] in
theorem Good.withEmptyVersion {t : AppendMerkleTree E} (hg : Good t) (txSeq : Option Nat) :
    Good (t.withEmptyVersion txSeq) := by
  cases txSeq with
  | none => exact hg
  | some seq =>
    refine ⟨hg.shaped, fun v d hv => ?_⟩
    by_cases hvs : v = seq
    · subst hvs
      simp only [AppendMerkleTree.withEmptyVersion, AList.lookup_insert, Option.some.injEq] at hv
      subst hv
      exact deltaShaped_nil
    · simp only [AppendMerkleTree.withEmptyVersion, AList.lookup_insert_ne hvs] at hv
      exact hg.deltas v d hv

theorem Good.recompute {t t' : AppendMerkleTree E} {s : Nat} {m : Option Nat} (hg : Good t)
    (h : recompute A t s m = some t') : Good t' := by
  obtain ⟨layers, rfl⟩ := recompute_eq h
  exact hg.of_eq (hg.shaped.recompute h) rfl

omit [HashElement E] in
theorem Good.clearAfter {t : AppendMerkleTree E} (hg : Good t) (txSeq : Nat) :
    Good (t.clearAfter txSeq) := by
  obtain ⟨d, r, heq, hsub⟩ := clearFrom_eq t (txSeq + 1)
  rw [AppendMerkleTree.clearAfter, heq]
  exact ⟨hg.shaped, fun v n hv => hg.deltas v n (hsub v n hv)⟩

omit [HashElement E] [DecidableEq E] in
theorem length_revertLayer {layer : List E} {i : Nat} (x : E) (hi : i < layer.length) :
    ((layer.take (i + 1)).set i x).length = i + 1 := by
  rw [List.length_set, List.length_take]
  omega

omit [HashElement E] [DecidableEq E] in
/-- The layers `revert_to` leaves are those of the recorded version: each as long as its
right-most index says. -/
theorem shaped_revertLayers {ls layers : List (List E)} {d : DeltaNodes E} (hd : DeltaShaped d)
    (h : revertLayers (ls.take d.rightMostNodes.length) 0 d.rightMostNodes = some layers) :
    ShapeBound (layers[0]?.getD []).length layers := by
  obtain ⟨hlen, -, hin⟩ := revertLayers_spec h
  -- a layer left is a recorded one, of the recorded length
  have hrec : ∀ (k : Nat) (l : List E), layers[k]? = some l →
      ∃ i x, d.rightMostNodes[k]? = some (i, x) ∧
      l.length = i + 1 := by
    intro k l hk
    have hk' : k < d.rightMostNodes.length := by
      have := (List.getElem?_eq_some_iff.mp hk).1
      rw [hlen, List.length_take] at this
      omega
    obtain ⟨⟨i, x⟩, hnode⟩ : ∃ p, d.rightMostNodes[k]? = some p :=
      ⟨_, List.getElem?_eq_getElem hk'⟩
    obtain ⟨layer, -, hi, hget⟩ := hin k i x hnode
    rw [Nat.zero_add, hk, Option.some.injEq] at hget
    exact ⟨i, x, hnode, hget ▸ length_revertLayer x hi⟩
  intro k l hk
  obtain ⟨i, x, hnode, hl⟩ := hrec k l hk
  -- the leaves are recorded too
  obtain ⟨l₀, hl₀⟩ : ∃ l₀, layers[0]? = some l₀ :=
    ⟨_, List.getElem?_eq_getElem (by have := (List.getElem?_eq_some_iff.mp hk).1; omega)⟩
  obtain ⟨i₀, x₀, hnode₀, hl₀'⟩ := hrec 0 l₀ hl₀
  have hbound := hd k i x hnode
  rw [hnode₀, Option.map_some, Option.getD_some] at hbound
  rw [hl₀, Option.getD_some, hl₀', hl]
  exact hbound

omit [HashElement E] in
theorem Good.revertTo {t t' : AppendMerkleTree E} {txSeq : Nat} {res : Except String Unit}
    (hg : Good t) (h : t.revertTo txSeq = some (t', res)) : Good t' := by
  unfold AppendMerkleTree.revertTo at h
  split at h
  · cases h
  · cases h
    exact hg
  · split at h
    · cases h
      exact hg
    · rename_i d hd
      obtain ⟨layers, hrev, heq⟩ := Option.map_eq_some_iff.mp h
      simp only [Prod.mk.injEq] at heq
      obtain ⟨rfl, -⟩ := heq
      have hs : Shaped ({ t with layers } : AppendMerkleTree E) :=
        shaped_revertLayers (hg.deltas txSeq d hd) hrev
      exact (hg.of_eq hs rfl).clearAfter txSeq

omit [HashElement E] [DecidableEq E] in
theorem Good.reset {t : AppendMerkleTree E} (hg : Good t) : Good t.reset := by
  refine hg.of_eq ?_ rfl
  obtain ⟨layers, deltaNodesMap, rootToTxSeqMap, minDepth, leafHeight⟩ := t
  cases minDepth with
  | none => exact shapeBound_cons_replicate_nil [] 0
  | some depth =>
    cases depth with
    | zero =>
      intro k layer hk
      simp [AppendMerkleTree.reset] at hk
    | succ depth => exact shapeBound_cons_replicate_nil [] depth

/-! ### The growing operations change only the layers -/

theorem append_eq {t t' : AppendMerkleTree E} {x : E} (h : append A t x = some t') :
    ∃ layers, t' = { t with layers } := by
  obtain ⟨L, rest, -, hr⟩ := append_spec h
  obtain ⟨layers, rfl⟩ := recompute_eq hr
  exact ⟨layers, rfl⟩

theorem appendList_eq {t t' : AppendMerkleTree E} {leafList : List E}
    (h : appendList A t leafList = some t') : ∃ layers, t' = { t with layers } := by
  obtain ⟨L, rest, -, hr⟩ := appendList_spec h
  obtain ⟨layers, rfl⟩ := recompute_eq hr
  exact ⟨layers, rfl⟩

theorem updateLast_eq {t t' : AppendMerkleTree E} {x : E} (h : updateLast A t x = some t') :
    ∃ layers, t' = { t with layers } := by
  obtain ⟨L, rest, -, hr⟩ := updateLast_spec h
  obtain ⟨layers, rfl⟩ := recompute_eq hr
  exact ⟨layers, rfl⟩

theorem fillLeaf_eq {t t' : AppendMerkleTree E} {index : Nat} {leaf : E}
    (h : fillLeaf A t index leaf = some t') : ∃ layers, t' = { t with layers } := by
  rcases fillLeaf_spec h with rfl | ⟨L, rest, -, -, hr⟩
  · exact ⟨t'.layers, rfl⟩
  · obtain ⟨layers, rfl⟩ := recompute_eq hr
    exact ⟨layers, rfl⟩

theorem appendSubtree_eq {t t' : AppendMerkleTree E} {d : Nat} {r : E}
    {res : Except String Unit} (h : appendSubtree A t d r = some (t', res)) :
    ∃ layers, t' = { t with layers } := by
  rcases appendSubtree_spec h with rfl | ⟨L, t₁, -, hin, hr⟩
  · exact ⟨t'.layers, rfl⟩
  · obtain ⟨layers₁, rfl, -⟩ := appendSubtreeInner_spec hin
    obtain ⟨layers, rfl⟩ := recompute_eq hr
    exact ⟨layers, rfl⟩

theorem appendSubtreeList_eq {t t' : AppendMerkleTree E} {subtreeList : List (Nat × E)}
    {res : Except String Unit} (h : appendSubtreeList A t subtreeList = some (t', res)) :
    ∃ layers, t' = { t with layers } := by
  obtain ⟨L, t₁, res₁, -, hin, hr⟩ := appendSubtreeList_spec h
  obtain ⟨layers₁, rfl⟩ := appendSubtreeInnerList_eq hin
  rcases hr with rfl | hr
  · exact ⟨layers₁, rfl⟩
  · obtain ⟨layers, rfl⟩ := recompute_eq hr
    exact ⟨layers, rfl⟩

/-! ### Every public operation keeps the bound -/

theorem Good.new {leaves : List E} {leafHeight : Nat} {startTxSeq : Option Nat}
    {t : AppendMerkleTree E} (h : new A leaves leafHeight startTxSeq = some t) : Good t := by
  have h₀ : Good (ofLeaves leaves leafHeight) :=
    good_of_empty (shapeBound_cons_replicate_nil leaves 0) rfl
  unfold AppendMerkleTree.new at h
  split_ifs at h
  · cases h
    exact h₀.withEmptyVersion _
  · obtain ⟨t₁, hr, hc⟩ := Option.bind_eq_some_iff.mp h
    exact (h₀.recompute hr).commit hc

theorem Good.newWithDepth {leaves : List E} {depth : Nat} {startTxSeq : Option Nat}
    {t : AppendMerkleTree E} (h : newWithDepth A leaves depth startTxSeq = some t) : Good t := by
  unfold AppendMerkleTree.newWithDepth at h
  split_ifs at h with hl hd
  · cases h
    refine (good_of_empty ?_ rfl).withEmptyVersion _
    intro k layer hk
    rw [List.eq_of_mem_replicate (List.mem_of_getElem? hk)]
    exact Nat.zero_le _
  · obtain ⟨t₁, hr, hc⟩ := Option.bind_eq_some_iff.mp h
    refine (Good.recompute (good_of_empty ?_ rfl) hr).commit hc
    exact shapeBound_cons_replicate_nil leaves (depth - 1)

theorem Good.appendSubtreeList {t t' : AppendMerkleTree E} {subtreeList : List (Nat × E)}
    {res : Except String Unit} (hg : Good t) (hd : ∀ p ∈ subtreeList, p.1 ≤ 64)
    (h : appendSubtreeList A t subtreeList = some (t', res)) : Good t' := by
  obtain ⟨layers, rfl⟩ := appendSubtreeList_eq h
  exact hg.of_eq (hg.shaped.appendSubtreeList hd h) rfl

theorem Good.newWithSubtrees {subtreeRootList : List (Nat × E)} {leafHeight : Nat}
    {startTxSeq : Option Nat} {t : AppendMerkleTree E}
    (hd : ∀ p ∈ subtreeRootList, p.1 ≤ 64)
    (h : newWithSubtrees A subtreeRootList leafHeight startTxSeq = some (.ok t)) : Good t := by
  have h₀ : Good (ofLeaves [] leafHeight : AppendMerkleTree E) :=
    good_of_empty (shapeBound_cons_replicate_nil [] 0) rfl
  unfold AppendMerkleTree.newWithSubtrees at h
  dsimp only at h
  split_ifs at h
  · cases h
    exact h₀.withEmptyVersion _
  · split at h
    · cases h
    · cases h
    · rename_i t₁ hin
      obtain ⟨t₂, hc, heq⟩ := Option.map_eq_some_iff.mp h
      cases heq
      exact (h₀.appendSubtreeList hd hin).commit hc

end Built

/-- The trees the public operations build, in any order; a subtree of depth `d` has
`1 << (d - 1)` leaves, so `d ≤ 64` on a 64-bit `usize`. -/
inductive Built (A : Algorithm E) : AppendMerkleTree E → Prop
  | new {leaves : List E} {leafHeight : Nat} {startTxSeq : Option Nat} {t : AppendMerkleTree E} :
    AppendMerkleTree.new A leaves leafHeight startTxSeq = some t → Built A t
  | newWithDepth {leaves : List E} {depth : Nat} {startTxSeq : Option Nat}
      {t : AppendMerkleTree E} :
    AppendMerkleTree.newWithDepth A leaves depth startTxSeq = some t → Built A t
  | newWithSubtrees {subtreeRootList : List (Nat × E)} {leafHeight : Nat}
      {startTxSeq : Option Nat} {t : AppendMerkleTree E} :
    (∀ p ∈ subtreeRootList, p.1 ≤ 64) →
      AppendMerkleTree.newWithSubtrees A subtreeRootList leafHeight startTxSeq = some (.ok t) →
      Built A t
  | append {t t' : AppendMerkleTree E} {newLeaf : E} :
    Built A t → AppendMerkleTree.append A t newLeaf = some t' → Built A t'
  | appendList {t t' : AppendMerkleTree E} {leafList : List E} :
    Built A t → AppendMerkleTree.appendList A t leafList = some t' → Built A t'
  | appendSubtree {t t' : AppendMerkleTree E} {subtreeDepth : Nat} {subtreeRoot : E}
      {res : Except String Unit} :
    Built A t → subtreeDepth ≤ 64 →
      AppendMerkleTree.appendSubtree A t subtreeDepth subtreeRoot = some (t', res) → Built A t'
  | appendSubtreeList {t t' : AppendMerkleTree E} {subtreeList : List (Nat × E)}
      {res : Except String Unit} :
    Built A t → (∀ p ∈ subtreeList, p.1 ≤ 64) →
      AppendMerkleTree.appendSubtreeList A t subtreeList = some (t', res) → Built A t'
  | updateLast {t t' : AppendMerkleTree E} {updatedLeaf : E} :
    Built A t → AppendMerkleTree.updateLast A t updatedLeaf = some t' → Built A t'
  | fillLeaf {t t' : AppendMerkleTree E} {index : Nat} {leaf : E} :
    Built A t → AppendMerkleTree.fillLeaf A t index leaf = some t' → Built A t'
  | commit {t t' : AppendMerkleTree E} {txSeq : Option Nat} :
    Built A t → t.commit txSeq = some t' → Built A t'
  | revertTo {t t' : AppendMerkleTree E} {txSeq : Nat} {res : Except String Unit} :
    Built A t → t.revertTo txSeq = some (t', res) → Built A t'
  | reset {t : AppendMerkleTree E} : Built A t → Built A t.reset

/-- **Run lemma.** Every built tree keeps its layers within those of a full tree over its leaves,
and records only versions of that shape. -/
theorem Built.good {t : AppendMerkleTree E} (ht : Built A t) : Good t := by
  induction ht with
  | new h => exact Good.new h
  | newWithDepth h => exact Good.newWithDepth h
  | newWithSubtrees hd h => exact Good.newWithSubtrees hd h
  | append _ h ih =>
    obtain ⟨layers, rfl⟩ := append_eq h
    exact ih.of_eq (ih.shaped.append h) rfl
  | appendList _ h ih =>
    obtain ⟨layers, rfl⟩ := appendList_eq h
    exact ih.of_eq (ih.shaped.appendList h) rfl
  | appendSubtree _ hd h ih =>
    obtain ⟨layers, rfl⟩ := appendSubtree_eq h
    exact ih.of_eq (ih.shaped.appendSubtree hd h) rfl
  | appendSubtreeList _ hd h ih => exact ih.appendSubtreeList hd h
  | updateLast _ h ih =>
    obtain ⟨layers, rfl⟩ := updateLast_eq h
    exact ih.of_eq (ih.shaped.updateLast h) rfl
  | fillLeaf _ h ih =>
    obtain ⟨layers, rfl⟩ := fillLeaf_eq h
    exact ih.of_eq (ih.shaped.fillLeaf h) rfl
  | commit _ h ih => exact ih.commit h
  | revertTo _ h ih => exact ih.revertTo h
  | reset _ ih => exact ih.reset

/-! ## Reading a committed version -/

section History

variable {A : Algorithm E}

/-- What a version keeps of each layer: all of it but the right-most node. -/
def frozenBound (S : List (List E)) (k : Nat) : Nat := (S[k]?.getD []).length - 1

omit [HashElement E] [DecidableEq E] in
/-- The right-most node of layer `k` of layers within the bound of `n` leaves sits at most at
`(n - 1) >> k`. -/
theorem frozenBound_le {S : List (List E)} {n : Nat} (hs : ShapeBound n S) (k : Nat) :
    frozenBound S k ≤ (n - 1) / 2 ^ k := by
  unfold frozenBound
  cases hk : S[k]? with
  | none => exact Nat.zero_le _
  | some layer =>
    have hb := (hs k layer hk).trans (iterate_half_le_div_pow (s := n - 1) (by omega) k)
    simp only [Option.getD_some]
    generalize (n - 1) / 2 ^ k = q at hb ⊢
    omega

/-- One operation after the commit of version `v` with root `r`: a growing operation, or a commit
of another version at a tree with another root. -/
inductive AfterStep (A : Algorithm E) (v : Nat) (r : E) :
    AppendMerkleTree E → AppendMerkleTree E → Prop
  | append {t t' : AppendMerkleTree E} {newLeaf : E} :
    AppendMerkleTree.append A t newLeaf = some t' → AfterStep A v r t t'
  | appendList {t t' : AppendMerkleTree E} {leafList : List E} :
    AppendMerkleTree.appendList A t leafList = some t' → AfterStep A v r t t'
  | appendSubtree {t t' : AppendMerkleTree E} {subtreeDepth : Nat} {subtreeRoot : E}
      {res : Except String Unit} :
    AppendMerkleTree.appendSubtree A t subtreeDepth subtreeRoot = some (t', res) →
      AfterStep A v r t t'
  | updateLast {t t' : AppendMerkleTree E} {updatedLeaf : E} :
    AppendMerkleTree.updateLast A t updatedLeaf = some t' → AfterStep A v r t t'
  | commit {t t' : AppendMerkleTree E} {txSeq : Nat} :
    t.commit (some txSeq) = some t' → txSeq ≠ v → t.root ≠ some r → AfterStep A v r t t'

/-- What the run after the commit of `S` as version `v` with root `r` keeps: every node of `S`
but the right-most of each layer, the leaf height, the root's version and the version's nodes. -/
structure SnapshotKept (S : AppendMerkleTree E) (v : Nat) (r : E) (nodes : List (Nat × E))
    (t : AppendMerkleTree E) : Prop where
  frozen : LayersKeep (frozenBound S.layers) S.layers t.layers
  leafHeight : t.leafHeight = S.leafHeight
  root : t.rootToTxSeqMap.lookup r = some v
  delta : t.deltaNodesMap.lookup v = some ⟨nodes⟩

omit [HashElement E] in
/-- The leaves only grew since the commit. -/
theorem SnapshotKept.leaves_le {S t : AppendMerkleTree E} {v : Nat} {r : E}
    {nodes : List (Nat × E)} (hk : SnapshotKept S v r nodes t) {L : List E}
    (hL : t.layers[0]? = some L) : (S.layers[0]?.getD []).length ≤ L.length := by
  cases h0 : S.layers[0]? with
  | none => exact Nat.zero_le _
  | some L₀ =>
    obtain ⟨live, hlive, hkeep⟩ := hk.frozen 0 L₀ h0
    rw [hL, Option.some.injEq] at hlive
    subst hlive
    exact hkeep.1

omit [HashElement E] in
/-- An operation that keeps layer `k` below `(leaves - 1) >> k` keeps the version. -/
theorem SnapshotKept.frozen_of_keeps {S t : AppendMerkleTree E} {v : Nat} {r : E}
    {nodes : List (Nat × E)} (hS : Shaped S) (hk : SnapshotKept S v r nodes t) {L : List E}
    {ls' : List (List E)} (hL : t.layers[0]? = some L)
    (hop : LayersKeep (fun k => (L.length - 1) / 2 ^ k) t.layers ls') :
    LayersKeep (frozenBound S.layers) S.layers ls' :=
  hk.frozen.trans (hop.mono fun k => (frozenBound_le hS k).trans
    (Nat.div_le_div_right (Nat.sub_le_sub_right (hk.leaves_le hL) 1)))

/-- **Step lemma.** Every operation after the commit keeps the version. -/
theorem SnapshotKept.step {S t t' : AppendMerkleTree E} {v : Nat} {r : E}
    {nodes : List (Nat × E)} (hS : Shaped S) (hk : SnapshotKept S v r nodes t)
    (h : AfterStep A v r t t') : SnapshotKept S v r nodes t' := by
  cases h with
  | append h =>
    obtain ⟨L, rest, ht, -⟩ := append_spec h
    have hL : t.layers[0]? = some L := by rw [ht]; rfl
    have hkeep := hk.frozen_of_keeps hS hL (append_keeps h hL)
    obtain ⟨layers, rfl⟩ := append_eq h
    exact ⟨hkeep, hk.leafHeight, hk.root, hk.delta⟩
  | appendList h =>
    obtain ⟨L, rest, ht, -⟩ := appendList_spec h
    have hL : t.layers[0]? = some L := by rw [ht]; rfl
    have hkeep := hk.frozen_of_keeps hS hL (appendList_keeps h hL)
    obtain ⟨layers, rfl⟩ := appendList_eq h
    exact ⟨hkeep, hk.leafHeight, hk.root, hk.delta⟩
  | appendSubtree h =>
    rcases appendSubtree_spec h with rfl | ⟨L, t₁, hL, -, -⟩
    · exact hk
    · have hkeep := hk.frozen_of_keeps hS hL (appendSubtree_keeps h hL)
      obtain ⟨layers, rfl⟩ := appendSubtree_eq h
      exact ⟨hkeep, hk.leafHeight, hk.root, hk.delta⟩
  | updateLast h =>
    obtain ⟨L, rest, ht, -⟩ := updateLast_spec h
    have hL : t.layers[0]? = some L := by rw [ht]; rfl
    have hkeep := hk.frozen_of_keeps hS hL (updateLast_keeps h hL)
    obtain ⟨layers, rfl⟩ := updateLast_eq h
    exact ⟨hkeep, hk.leafHeight, hk.root, hk.delta⟩
  | commit h hv hr =>
    -- another version, and another root
    obtain ⟨hlayers, hlh, hmaps⟩ := commit_some_spec h
    refine ⟨hlayers ▸ hk.frozen, hlh ▸ hk.leafHeight, ?_, ?_⟩
    · rcases hmaps with ⟨-, -, hroots⟩ | ⟨nodes', root, -, -, hroot, -, hroots⟩
      · rw [hroots]
        exact hk.root
      · have hne : r ≠ root := fun h => hr (h ▸ hroot)
        rw [hroots, AList.lookup_insert_ne hne]
        exact hk.root
    · rcases hmaps with ⟨-, hd, -⟩ | ⟨nodes', root, -, -, -, hd, -⟩
      all_goals
        rw [hd, AList.lookup_insert_ne (Ne.symm hv)]
        exact hk.delta

/-- **Run lemma.** -/
theorem SnapshotKept.run {S t₀ t : AppendMerkleTree E} {v : Nat} {r : E}
    {nodes : List (Nat × E)} (hS : Shaped S) (hk : SnapshotKept S v r nodes t₀)
    (hrun : Relation.ReflTransGen (AfterStep A v r) t₀ t) : SnapshotKept S v r nodes t := by
  induction hrun with
  | refl => exact hk
  | tail _ hstep ih => exact ih.step hS hstep

/-- Through the grown layers, the version's right-most nodes read every node of the committed
tree: the node of the delta at each right-most index, a kept live node left of it. -/
theorem historyTree_toRead {S t : AppendMerkleTree E} {v : Nat} {r : E}
    {nodes : List (Nat × E)} (hk : SnapshotKept S v r nodes t)
    (hnodes : rightMostNodes S.layers = some nodes) :
    (⟨t.layers, ⟨nodes⟩, t.leafHeight⟩ : HistoryTree E).toRead = S.toRead := by
  obtain ⟨hlen, hget⟩ := rightMostNodes_spec hnodes
  have hnode : ∀ k j, HistoryTree.node ⟨t.layers, ⟨nodes⟩, t.leafHeight⟩ k j = S.node k j := by
    intro k j
    cases hS : S.layers[k]? with
    | none =>
      have hnone : nodes[k]? = none :=
        List.getElem?_eq_none (by rw [hlen]; exact List.getElem?_eq_none_iff.mp hS)
      simp [HistoryTree.node, DeltaNodes.get, hnone, node, hS]
    | some layer =>
      obtain ⟨x, hx, hnk⟩ := hget k layer hS
      obtain ⟨live, hlive, hkeep⟩ := hk.frozen k layer hS
      have hpos : 0 < layer.length := List.length_pos_iff.mpr (by rintro rfl; simp at hx)
      simp only [HistoryTree.node, DeltaNodes.get, hnk]
      split_ifs with hgt heq
      · -- right of the right-most node: out of range
        simp [node, hS, List.getElem?_eq_none (by omega : layer.length ≤ j)]
      · -- the right-most node itself
        subst heq
        rw [List.getLast?_eq_getElem?] at hx
        simp [node, hS, hx]
      · -- left of it: the live node, kept since the commit
        obtain ⟨y, hy⟩ : ∃ y, layer[j]? = some y := ⟨_, List.getElem?_eq_getElem (by omega)⟩
        have hkept := hkeep.2 j (by simp only [frozenBound, hS, Option.getD_some]; omega) y hy
        simp [node, hS, hlive, hkept, hy]
  have hlayerLen : ∀ k, DeltaNodes.layerLen ⟨nodes⟩ k = S.layerLen k := by
    intro k
    cases hS : S.layers[k]? with
    | none =>
      have hnone : nodes[k]? = none :=
        List.getElem?_eq_none (by rw [hlen]; exact List.getElem?_eq_none_iff.mp hS)
      simp [DeltaNodes.layerLen, hnone, layerLen, hS]
    | some layer =>
      obtain ⟨x, hx, hnk⟩ := hget k layer hS
      have hpos : 0 < layer.length := List.length_pos_iff.mpr (by rintro rfl; simp at hx)
      simp only [DeltaNodes.layerLen, hnk, layerLen, hS, Option.map_some, Option.some.injEq]
      omega
  simp only [HistoryTree.toRead, toRead, MerkleTreeRead.mk.injEq]
  refine ⟨funext fun k => funext (hnode k), hlen, funext hlayerLen, funext fun height => ?_⟩
  rw [paddingNode, hk.leafHeight]

/-- **Versions read the committed tree.** After the commit of a built, non-empty tree `S` as
version `v`, and any run of appends, subtree appends, last-leaf updates, and commits of other
versions at trees with other roots, `at_root_version` of the root of `S` succeeds with the height
and the layer lengths of `S`, and proves every leaf as `S` does. -/
theorem atRootVersion_of_commit {S t₀ t : AppendMerkleTree E} {v : Nat} {r : E}
    (hS : Built A S) (hne : S.leaves ≠ some 0) (hroot : S.root = some r)
    (hc : S.commit (some v) = some t₀) (hrun : Relation.ReflTransGen (AfterStep A v r) t₀ t) :
    ∃ h, t.atRootVersion r = .ok h ∧ h.toRead.height = S.layers.length ∧
      (∀ k, h.toRead.layerLen k = S.layerLen k) ∧ ∀ i, h.genProof i = S.genProof i := by
  obtain ⟨hlayers, hlh, hmaps⟩ := commit_some_spec hc
  obtain ⟨nodes, root, -, hnodes, hroot', hd, hr⟩ := hmaps.resolve_left fun h => hne h.1
  rw [hroot, Option.some.injEq] at hroot'
  subst hroot'
  -- right after the commit the version is recorded, and the run keeps it
  have hk₀ : SnapshotKept S v r nodes t₀ :=
    ⟨hlayers ▸ .refl _ _, hlh, by rw [hr, AList.lookup_insert], by rw [hd, AList.lookup_insert]⟩
  have hk := hk₀.run hS.good.shaped hrun
  have hread := historyTree_toRead hk hnodes
  have hheight : nodes.length ≠ 0 := by
    rw [(rightMostNodes_spec hnodes).1]
    intro h0
    rw [List.length_eq_zero_iff] at h0
    simp [root, node, h0] at hroot
  refine ⟨⟨t.layers, ⟨nodes⟩, t.leafHeight⟩, ?_, ?_, fun k => ?_, fun i => ?_⟩
  · simp [atRootVersion, hk.root, hk.delta, DeltaNodes.height, hheight]
  · rw [hread]
    rfl
  · rw [hread]
    rfl
  · rw [HistoryTree.genProof, hread, genProof_toRead]

theorem atRootVersion_of_commit_example :
    ∃ S t₀ t₁ : AppendMerkleTree Nat, new natAlgorithm [1, 2, 3] 0 none = some S ∧
      S.commit (some 0) = some t₀ ∧ append natAlgorithm t₀ 4 = some t₁ ∧
      ∃ h, t₁.atRootVersion 10 = .ok h ∧ h.toRead.height = S.layers.length ∧
        (∀ k, h.toRead.layerLen k = S.layerLen k) ∧ ∀ i, h.genProof i = S.genProof i := by
  have hpar : ∀ a b, natAlgorithm.parent a b ≠ null := fun a b => by
    simp [natAlgorithm, HashElement.null]
  have h3 : numLayers ([1, 2, 3] : List Nat).length = 3 := by
    show numLayers 3 = 3
    rw [numLayers_of_one_lt (by decide), numLayers_of_one_lt (by decide),
      numLayers_of_le_one (by decide)]
  have hS := new_canonical hpar (L := [1, 2, 3]) (by decide) 0
  rw [h3] at hS
  have h₀ : (withLayers natAlgorithm (ofLeaves [1, 2, 3] 0) [1, 2, 3] 3).commit (some 0) =
      some { withLayers natAlgorithm (ofLeaves [1, 2, 3] 0) [1, 2, 3] 3 with
        deltaNodesMap := (∅ : AList fun _ : Nat => DeltaNodes Nat).insert 0
          ⟨[(2, 3), (1, 5), (0, 10)]⟩
        rootToTxSeqMap := (∅ : AList fun _ : Nat => Nat).insert 10 0 } := rfl
  have hcan : Canonical natAlgorithm { withLayers natAlgorithm (ofLeaves [1, 2, 3] 0) [1, 2, 3] 3 with
      deltaNodesMap := (∅ : AList fun _ : Nat => DeltaNodes Nat).insert 0 ⟨[(2, 3), (1, 5), (0, 10)]⟩
      rootToTxSeqMap := (∅ : AList fun _ : Nat => Nat).insert 10 0 } [1, 2, 3] 3 :=
    ⟨rfl, h3.le⟩
  have h₁ := append_canonical hpar hcan (by decide) (x := 4) (by decide)
  exact ⟨_, _, _, hS, h₀, h₁,
    atRootVersion_of_commit (Built.new hS) (by decide) (by decide) h₀ (.single (.append h₁))⟩

/-- A padding leaf appended after a commit gives the same root when the last node of every layer
was padded, and the commit of the grown tree takes the root over: `at_root_version` of the first
root then reads the second version, one leaf longer. -/
theorem atRootVersion_shared_root :
    ∃ S t₀ t₁ t₂ : AppendMerkleTree Nat, ∃ h : HistoryTree Nat,
      new natAlgorithm [2, 2, 2] 0 none = some S ∧ S.commit (some 0) = some t₀ ∧
      append natAlgorithm t₀ (endPad 0) = some t₁ ∧ t₁.commit (some 1) = some t₂ ∧
      S.root = some 10 ∧ t₁.root = some 10 ∧ t₂.atRootVersion 10 = .ok h ∧
      h.toRead.layerLen 0 = some 4 ∧ S.layerLen 0 = some 3 := by
  have hpar : ∀ a b, natAlgorithm.parent a b ≠ null := fun a b => by
    simp [natAlgorithm, HashElement.null]
  have h3 : numLayers ([2, 2, 2] : List Nat).length = 3 := by
    show numLayers 3 = 3
    rw [numLayers_of_one_lt (by decide), numLayers_of_one_lt (by decide),
      numLayers_of_le_one (by decide)]
  have h4 : numLayers (([2, 2, 2] : List Nat).length + 1) = 3 := by
    show numLayers 4 = 3
    rw [numLayers_of_one_lt (by decide), numLayers_of_one_lt (by decide),
      numLayers_of_le_one (by decide)]
  have hS := new_canonical hpar (L := [2, 2, 2]) (by decide) 0
  rw [h3] at hS
  have h₀ : (withLayers natAlgorithm (ofLeaves [2, 2, 2] 0) [2, 2, 2] 3).commit (some 0) =
      some { withLayers natAlgorithm (ofLeaves [2, 2, 2] 0) [2, 2, 2] 3 with
        deltaNodesMap := (∅ : AList fun _ : Nat => DeltaNodes Nat).insert 0
          ⟨[(2, 2), (1, 4), (0, 10)]⟩
        rootToTxSeqMap := (∅ : AList fun _ : Nat => Nat).insert 10 0 } := rfl
  have hcan : Canonical natAlgorithm { withLayers natAlgorithm (ofLeaves [2, 2, 2] 0) [2, 2, 2] 3 with
      deltaNodesMap := (∅ : AList fun _ : Nat => DeltaNodes Nat).insert 0 ⟨[(2, 2), (1, 4), (0, 10)]⟩
      rootToTxSeqMap := (∅ : AList fun _ : Nat => Nat).insert 10 0 } [2, 2, 2] 3 :=
    ⟨rfl, h3.le⟩
  have h₁ := append_canonical hpar hcan (by decide) (x := endPad 0) (by decide)
  rw [h4] at h₁
  -- the second commit records version 1 under the same root
  refine ⟨_, _, _, _, _, hS, h₀, h₁, rfl, rfl, rfl, rfl, rfl, rfl⟩

end History

/-! ## Reverting to a version of the empty tree -/

section Revert

variable {A : Algorithm E}

/-- `revert_to` a version recorded while the tree was empty truncates the layers to none, where the
empty tree of `new` has one layer and that of `new_with_depth` has its depth; the next `append`
then panics on `layers[0]`. -/
theorem revertTo_empty_version {t : AppendMerkleTree E} {txSeq : Nat} {L : List E}
    (hL : t.layers[0]? = some L) (hne : L ≠ [])
    (hv : t.deltaNodesMap.lookup txSeq = some ⟨[]⟩) :
    ∃ t', t.revertTo txSeq = some (t', .ok ()) ∧ t'.layers = [] ∧ ∀ x, append A t' x = none := by
  obtain ⟨d, r, heq, -⟩ := clearFrom_eq ({ t with layers := [] } : AppendMerkleTree E) (txSeq + 1)
  have hrev : t.revertTo txSeq = some ({ t with layers := [] }.clearAfter txSeq, .ok ()) := by
    unfold revertTo
    rw [hL]
    cases L with
    | nil => exact absurd rfl hne
    | cons a l =>
      simp only [hv]
      rfl
  refine ⟨_, hrev, ?_, fun x => ?_⟩
  · rw [clearAfter, heq]
  · rw [clearAfter, heq]
    rfl

theorem revertTo_empty_version_example :
    ∃ t₀ t₁ t' : AppendMerkleTree Nat, new natAlgorithm [] 0 (some 0) = some t₀ ∧
      append natAlgorithm t₀ 5 = some t₁ ∧ t₁.revertTo 0 = some (t', .ok ()) ∧ t'.layers = [] ∧
      ∀ x, append natAlgorithm t' x = none := by
  have h₀ : new natAlgorithm [] 0 (some 0) = some ((ofLeaves [] 0).withEmptyVersion (some 0)) := rfl
  -- one leaf is its own root: `recompute` stops at once
  have h₁ : append natAlgorithm ((ofLeaves [] 0).withEmptyVersion (some 0)) 5 =
      some { (ofLeaves [] 0).withEmptyVersion (some 0) with layers := [[5]] } := by
    have hstop : recomputeLoop natAlgorithm 0 [[5]] 0 0 none = some [[5]] :=
      recomputeLoop_of_stop natAlgorithm 0 rfl (by decide)
    simp only [append, withEmptyVersion, ofLeaves, List.nil_append, recompute, List.length_nil,
      hstop]
    rfl
  have hv : ({ (ofLeaves [] 0).withEmptyVersion (some 0) with layers := [[5]] } :
      AppendMerkleTree Nat).deltaNodesMap.lookup 0 = some ⟨[]⟩ := rfl
  obtain ⟨t', hrev, hlayers, happend⟩ := revertTo_empty_version (A := natAlgorithm) (L := [5]) rfl
    (List.cons_ne_nil _ _) hv
  exact ⟨_, _, t', h₀, h₁, hrev, hlayers, happend⟩

end Revert

end AppendMerkleTree

end Ionian.AppendMerkle
