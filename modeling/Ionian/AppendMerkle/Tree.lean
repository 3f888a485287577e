import Ionian.Merkle.Layers

/-!
# AppendMerkle.Tree — `AppendMerkleTree` of `common/append_merkle/src/lib.rs`

The tree keeps every layer, `layers[0]` being the leaves.  `recompute` re-hashes from a changed
leaf index up to the root, one layer per pass of its `while` loop, and grows new layers on top; a
parent whose child is unknown (`null`) is not written over an existing node.  A function that can
panic (an index out of bounds, an assertion, `unreachable!`) returns `none` there.  A `&mut self`
method returning `Result` returns the new tree with the `Except String` result, since the tree
keeps what was done before an error.  The model is of a release build: `1 << n` on `usize` takes
its shift modulo 64 (`shlOne`), where a debug build would panic.
-/

namespace Ionian.AppendMerkle

/-- The `HashElement` trait: the padding node of a height and the `null` node of unknown hash. -/
class HashElement (E : Type) where
  endPad : Nat → E
  null : E

/-- The `Algorithm` trait: `parent` hashes two nodes, `leaf` hashes the bytes of an entry. -/
structure Algorithm (E : Type) where
  parent : E → E → E
  leaf : List UInt8 → E

open HashElement

/-- `1 << n` on `usize` in a release build: the shift amount is taken modulo 64. -/
def shlOne (n : Nat) : Nat := 2 ^ (n % 64)

theorem shlOne_pos (n : Nat) : 0 < shlOne n := Nat.two_pow_pos _

/-- The right-most node of every layer of a committed version, with its index. -/
structure DeltaNodes (E : Type) where
  rightMostNodes : List (Nat × E)

/-- `AppendMerkleTree<E, A>`; the two `HashMap`s are association lists. -/
structure AppendMerkleTree (E : Type) where
  layers : List (List E)
  deltaNodesMap : AList fun _ : Nat => DeltaNodes E
  rootToTxSeqMap : AList fun _ : E => Nat
  minDepth : Option Nat
  leafHeight : Nat

variable {E : Type} [HashElement E] [DecidableEq E]

/-- The trait's default `parent_single`: pair a lone node with the padding node of its height. -/
def Algorithm.parentSingle (A : Algorithm E) (r : E) (height : Nat) : E :=
  A.parent r (endPad height)

namespace AppendMerkleTree

/-! ## `recompute` -/

section Recompute

variable (A : Algorithm E) (leafHeight : Nat)

/-- The parent of a chunk `[left, right]`: `null` when either child is unknown. -/
def pairParent (left right : E) : E :=
  if left = null ∨ right = null then null else A.parent left right

/-- The parent of the remainder `r` of the layer at `height`. -/
def remainderParent (height : Nat) (r : E) : E :=
  if r = null then null else A.parentSingle r (height + leafHeight)

/-- `parent_update` of a slice of the layer at `height`: the parents of its `chunks_exact(2)`
and of its remainder, indexed from `i` (the `next_layer_start_index`). -/
def parentUpdate (height : Nat) : Nat → List E → List (Nat × E)
  | i, left :: right :: rest => (i, pairParent A left right) :: parentUpdate height (i + 1) rest
  | i, [r] => [(i, remainderParent A leafHeight height r)]
  | _, [] => []

/-- The `for (parent_index, parent) in parent_update` loop over the parent layer, with the
`last_changed_parent_index` it keeps. -/
def applyParentUpdate : List E → Option Nat → List (Nat × E) → Option (List E × Option Nat)
  | layer, last, [] => some (layer, last)
  | layer, last, (parentIndex, parent) :: rest =>
    if h : parentIndex < layer.length then
      -- We do not overwrite with null.
      if parent ≠ null then
        if layer[parentIndex] ≠ null ∧ layer[parentIndex] ≠ parent ∧
            parentIndex ≠ layer.length - 1 then
          none
        else applyParentUpdate (layer.set parentIndex parent) (some parentIndex) rest
      else applyParentUpdate layer last rest
    else if parentIndex = layer.length then
      applyParentUpdate (layer ++ [parent]) (some parentIndex) rest
    else none

/-- The `end_index` of a pass: `maybe_end_index` (the layer's length by default), rounded up to
even unless it is the layer's end. -/
def passEnd (len : Nat) (maybeEndIndex : Option Nat) : Nat :=
  let e := maybeEndIndex.getD len
  if e % 2 = 1 ∧ e ≠ len then e + 1 else e

/-- `before_extend_layer`: push an empty layer when `height` is one above the top. -/
def beforeExtendLayer (layers : List (List E)) (height : Nat) : List (List E) :=
  if height = layers.length then layers ++ [[]] else layers

omit [HashElement E] [DecidableEq E] in
/-- `before_extend_layer` keeps every layer other than the one at `height`. -/
theorem getElem?_beforeExtendLayer_ne (layers : List (List E)) {height i : Nat} (hi : i ≠ height) :
    (beforeExtendLayer layers height)[i]? = layers[i]? := by
  unfold beforeExtendLayer
  split_ifs with h
  · rcases Nat.lt_or_gt_of_ne hi with hlt | hgt
    · exact List.getElem?_append_left (by omega)
    · rw [List.getElem?_eq_none (by simp; omega), List.getElem?_eq_none (by omega)]
  · rfl

/-- One pass of the `while` loop of `recompute` at `height`: the new layers and the next
`maybe_end_index`. -/
def recomputePass (layers : List (List E)) (height startIndex : Nat)
    (maybeEndIndex : Option Nat) : Option (List (List E) × Option Nat) :=
  match layers[height]? with
  | none => none
  | some layer =>
    let start := startIndex - startIndex % 2
    let endIndex := passEnd layer.length maybeEndIndex
    -- the slice `start_index..end_index` panics outside the layer
    if endIndex < start ∨ layer.length < endIndex then none
    else
      let update := parentUpdate A leafHeight height (startIndex / 2)
        ((layer.drop start).take (endIndex - start))
      if update = [] then some (layers, none)
      else
        let layers := beforeExtendLayer layers (height + 1)
        match layers[height + 1]? with
        | none => none
        | some parentLayer =>
          (applyParentUpdate parentLayer none update).map fun r =>
            (layers.set (height + 1) r.1, r.2.map (· + 1))

theorem length_parentUpdate (height i : Nat) (xs : List E) :
    (parentUpdate A leafHeight height i xs).length = (xs.length + 1) / 2 := by
  fun_induction parentUpdate A leafHeight height i xs with
  | case1 i left right rest ih => simp only [List.length_cons, ih]; omega
  | case2 i r => simp
  | case3 i => simp

theorem length_applyParentUpdate {layer layer' : List E} {last last' : Option Nat}
    {update : List (Nat × E)} (h : applyParentUpdate layer last update = some (layer', last')) :
    layer'.length ≤ layer.length + update.length := by
  induction update generalizing layer last with
  | nil => simp only [applyParentUpdate, Option.some.injEq, Prod.mk.injEq] at h; rw [h.1]; simp
  | cons u rest ih =>
    obtain ⟨i, p⟩ := u
    simp only [applyParentUpdate] at h
    split_ifs at h with hi hp hpanic hlen
    · have := ih h; simp at this ⊢; omega
    · have := ih h; simp; omega
    · have := ih h; simp at this ⊢; omega

/-- A pass lowers `(number of layers above height, length of the layer at height)`
lexicographically: either the height moves up inside the tree, or the pass adds a top layer
shorter than the layer below it. -/
theorem recomputePass_lex {layers layers' : List (List E)} {layer : List E} {height s : Nat}
    {m m' : Option Nat} (hl : layers[height]? = some layer)
    (hc : 1 < layer.length ∨ height < layers.length - 1)
    (h : recomputePass A leafHeight layers height s m = some (layers', m')) :
    Prod.Lex (· < ·) (· < ·)
      (layers'.length - (height + 1), (layers'[height + 1]?.map List.length).getD 0)
      (layers.length - height, layer.length) := by
  have hheight : height < layers.length := (List.getElem?_eq_some_iff.mp hl).1
  rw [Prod.lex_def]
  simp only [recomputePass, hl] at h
  split_ifs at h with hslice hupd
  · -- nothing to write: the layers are unchanged
    simp at h; rw [← h.1]; left; omega
  · simp only [beforeExtendLayer] at h
    split_ifs at h with htop
    · -- the pass at the top pushes a new layer built from the update alone
      have hget : (layers ++ [[]])[height + 1]? = some [] := by
        rw [htop, List.getElem?_append_right (le_refl _)]; simp
      rw [hget] at h
      obtain ⟨r, hr, hrl⟩ := Option.map_eq_some_iff.mp h
      simp only [Prod.mk.injEq] at hrl
      have hlen := length_applyParentUpdate hr
      rw [length_parentUpdate] at hlen
      have hslice_len : ((layer.drop (s - s % 2)).take
          (passEnd layer.length m - (s - s % 2))).length ≤ layer.length := by simp
      have hone : 1 < layer.length := by omega
      right
      rw [← hrl.1]
      simp only [List.length_set, List.length_append, List.length_singleton]
      refine ⟨by omega, ?_⟩
      rw [List.getElem?_set_self (by simp; omega)]
      simp only [Option.map_some, Option.getD_some]
      simp at hlen
      omega
    · -- below the top the parent layer is overwritten in place
      obtain ⟨p, hp⟩ : ∃ p, layers[height + 1]? = some p :=
        List.getElem?_eq_some_iff.mpr ⟨by omega, rfl⟩ |> fun h => ⟨_, h⟩
      rw [hp] at h
      obtain ⟨r, -, hrl⟩ := Option.map_eq_some_iff.mp h
      simp only [Prod.mk.injEq] at hrl
      left
      rw [← hrl.1, List.length_set]
      omega

-- `hl` and `hc` are used by `decreasing_by` only
set_option linter.unusedVariables false in
/-- The `while` loop of `recompute`: passes run while the layer at `height` has two nodes or
is not the top one. -/
def recomputeLoop (layers : List (List E)) (height startIndex : Nat)
    (maybeEndIndex : Option Nat) : Option (List (List E)) :=
  match hl : layers[height]? with
  | none => none
  | some layer =>
    if hc : 1 < layer.length ∨ height < layers.length - 1 then
      match hp : recomputePass A leafHeight layers height startIndex maybeEndIndex with
      | none => none
      | some (layers', maybeEndIndex') =>
        recomputeLoop layers' (height + 1) (startIndex / 2) maybeEndIndex'
    else some layers
termination_by (layers.length - height, (layers[height]?.map List.length).getD 0)
decreasing_by
  have := recomputePass_lex A leafHeight hl hc hp
  simp only [hl, Option.map_some, Option.getD_some]
  exact this

theorem recomputeLoop_of_stop {layers : List (List E)} {layer : List E} {height s : Nat}
    {m : Option Nat} (hl : layers[height]? = some layer)
    (hc : ¬ (1 < layer.length ∨ height < layers.length - 1)) :
    recomputeLoop A leafHeight layers height s m = some layers := by
  rw [recomputeLoop]
  split
  · simp_all
  · rename_i layer' hl'
    rw [hl] at hl'
    cases hl'
    rw [dif_neg hc]

theorem recomputeLoop_of_pass {layers layers' : List (List E)} {layer : List E} {height s : Nat}
    {m m' : Option Nat} (hl : layers[height]? = some layer)
    (hc : 1 < layer.length ∨ height < layers.length - 1)
    (hp : recomputePass A leafHeight layers height s m = some (layers', m')) :
    recomputeLoop A leafHeight layers height s m =
      recomputeLoop A leafHeight layers' (height + 1) (s / 2) m' := by
  rw [recomputeLoop]
  split
  · simp_all
  · rename_i layer' hl'
    rw [hl] at hl'
    cases hl'
    rw [dif_pos hc]
    split
    · simp_all
    · rename_i l m'' hp'
      rw [hp] at hp'
      cases hp'
      rfl

/-- Loop invariant rule for `recompute`'s `while` loop: an invariant that every pass keeps
holds of the layers the loop ends on, where the top layer has at most one node. -/
theorem recomputeLoop_invariant (Inv : List (List E) → Nat → Nat → Option Nat → Prop)
    (hpass : ∀ ls k a m layer ls' m', ls[k]? = some layer →
      (1 < layer.length ∨ k < ls.length - 1) → Inv ls k a m →
      recomputePass A leafHeight ls k a m = some (ls', m') → Inv ls' (k + 1) (a / 2) m')
    {ls : List (List E)} {k a : Nat} {m : Option Nat} {res : List (List E)}
    (hinv : Inv ls k a m) (h : recomputeLoop A leafHeight ls k a m = some res) :
    ∃ k' a' m', Inv res k' a' m' ∧ k' + 1 = res.length ∧
      ∀ top, res[k']? = some top → top.length ≤ 1 := by
  fun_induction recomputeLoop A leafHeight ls k a m with
  | case1 => cases h
  | case2 => cases h
  | case3 ls k a m layer hl hc ls' m' hp ih => exact ih (hpass _ _ _ _ _ _ _ hl hc hinv hp) h
  | case4 ls k a m layer hl hc =>
    cases h
    have hk := (List.getElem?_eq_some_iff.mp hl).1
    refine ⟨k, a, m, hinv, by omega, fun top htop => ?_⟩
    rw [hl] at htop
    cases htop
    omega

end Recompute

section Operations

variable (A : Algorithm E)

/-- Given a range of changed leaf nodes, recompute the tree up to the root. -/
def recompute (t : AppendMerkleTree E) (startIndex : Nat) (maybeEndIndex : Option Nat) :
    Option (AppendMerkleTree E) :=
  (recomputeLoop A t.leafHeight t.layers 0 startIndex maybeEndIndex).map
    fun layers => { t with layers := layers }

/-- `MerkleTreeRead::node`. -/
def node (t : AppendMerkleTree E) (layer index : Nat) : Option E :=
  t.layers[layer]? >>= (·[index]?)

/-- `MerkleTreeRead::leaves`: the length of `layers[0]`. -/
def leaves (t : AppendMerkleTree E) : Option Nat :=
  t.layers[0]?.map List.length

/-- `MerkleTreeRead::root`: `node(height() - 1, 0)`. -/
def root (t : AppendMerkleTree E) : Option E :=
  t.node (t.layers.length - 1) 0

/-- The `right_most_nodes` of `commit`: `(layer.len() - 1, layer.last().unwrap())` per layer. -/
def rightMostNodes (layers : List (List E)) : Option (List (Nat × E)) :=
  layers.mapM fun layer => layer.getLast?.map fun x => (layer.length - 1, x)

/-- `commit`: record the right-most nodes and the root of the current version. -/
def commit (t : AppendMerkleTree E) (txSeq : Option Nat) : Option (AppendMerkleTree E) :=
  match txSeq with
  | none => some t
  | some txSeq =>
    match t.leaves with
    | none => none
    | some 0 =>
      -- The state is empty, so we just save the root as `null`.
      some { t with deltaNodesMap := t.deltaNodesMap.insert txSeq ⟨[]⟩ }
    | some _ =>
      match rightMostNodes t.layers, t.root with
      | some nodes, some root =>
        if nodes.getLast?.map Prod.snd = some root then
          some { t with deltaNodesMap := t.deltaNodesMap.insert txSeq ⟨nodes⟩
                        rootToTxSeqMap := t.rootToTxSeqMap.insert root txSeq }
        else none
      | _, _ => none

/-- The tree of a single layer `leaves`, before any hashing. -/
def ofLeaves (leaves : List E) (leafHeight : Nat) : AppendMerkleTree E :=
  { layers := [leaves], deltaNodesMap := ∅, rootToTxSeqMap := ∅, minDepth := none, leafHeight }

/-- An empty tree records `start_tx_seq` with no nodes. -/
def withEmptyVersion (t : AppendMerkleTree E) : Option Nat → AppendMerkleTree E
  | none => t
  | some seq => { t with deltaNodesMap := t.deltaNodesMap.insert seq ⟨[]⟩ }

/-- `AppendMerkleTree::new`. -/
def new (leaves : List E) (leafHeight : Nat) (startTxSeq : Option Nat) :
    Option (AppendMerkleTree E) :=
  if leaves.length = 0 then some ((ofLeaves leaves leafHeight).withEmptyVersion startTxSeq)
  else (recompute A (ofLeaves leaves leafHeight) 0 none).bind (commit · startTxSeq)

/-- `AppendMerkleTree::new_with_depth`, only used with `leaf_height = 0`. -/
def newWithDepth (leaves : List E) (depth : Nat) (startTxSeq : Option Nat) :
    Option (AppendMerkleTree E) :=
  let empty : AppendMerkleTree E :=
    { layers := List.replicate depth [], deltaNodesMap := ∅, rootToTxSeqMap := ∅,
      minDepth := some depth, leafHeight := 0 }
  if leaves = [] then some (empty.withEmptyVersion startTxSeq)
  -- `layers[0] = leaves` panics when `depth` is zero
  else if depth = 0 then none
  else (recompute A { empty with layers := leaves :: List.replicate (depth - 1) [] } 0 none).bind
    (commit · startTxSeq)

/-- `append`. -/
def append (t : AppendMerkleTree E) (newLeaf : E) : Option (AppendMerkleTree E) :=
  match t.layers with
  | [] => none
  | leaves :: rest => recompute A { t with layers := (leaves ++ [newLeaf]) :: rest } leaves.length none

/-- `append_list`. -/
def appendList (t : AppendMerkleTree E) (leafList : List E) : Option (AppendMerkleTree E) :=
  match t.layers with
  | [] => none
  | leaves :: rest => recompute A { t with layers := (leaves ++ leafList) :: rest } leaves.length none

/-- `update_last`: change the value of the last leaf (push it on an empty tree). -/
def updateLast (t : AppendMerkleTree E) (updatedLeaf : E) : Option (AppendMerkleTree E) :=
  match t.layers with
  | [] => none
  | leaves :: rest =>
    -- Special case for the first data.
    let leaves := if leaves = [] then [updatedLeaf] else leaves.set (leaves.length - 1) updatedLeaf
    recompute A { t with layers := leaves :: rest } (leaves.length - 1) none

/-- `fill_leaf`: fill an unknown `null` leaf; panics on a known leaf of another value. -/
def fillLeaf (t : AppendMerkleTree E) (index : Nat) (leaf : E) : Option (AppendMerkleTree E) :=
  match t.layers with
  | [] => none
  | leaves :: rest =>
    if h : index < leaves.length then
      if leaves[index] = null then
        recompute A { t with layers := leaves.set index leaf :: rest } index (some (index + 1))
      else if leaves[index] ≠ leaf then none
      else some t
    else none

/-- One round of the `for height in 0..(subtree_depth - 1)` loop of `append_subtree_inner`:
`1 << (subtree_depth - 1 - height)` null nodes appended to the layer at `height`. -/
def pushNulls (subtreeDepth : Nat) (acc : Option (List (List E))) (height : Nat) :
    Option (List (List E)) :=
  acc.bind fun layers =>
    let layers := beforeExtendLayer layers height
    layers[height]?.map fun layer =>
      layers.set height (layer ++ List.replicate (shlOne (subtreeDepth - 1 - height)) null)

/-- `append_subtree_inner`: `2 ^ (subtree_depth - 1 - height)` null nodes on every layer below
the subtree root, and the root on its own layer. -/
def appendSubtreeInner (t : AppendMerkleTree E) (subtreeDepth : Nat) (subtreeRoot : E) :
    Option (AppendMerkleTree E × Except String Unit) :=
  match t.leaves with
  | none => none
  | some leaves =>
    if subtreeDepth = 0 then some (t, .error "Subtree depth should not be zero!")
    else if leaves % shlOne (subtreeDepth - 1) ≠ 0 then
      some (t, .error ("The current leaves count is aligned with the merged subtree, leaves=" ++
        toString leaves))
    else
      match (List.range (subtreeDepth - 1)).foldl (pushNulls subtreeDepth) (some t.layers) with
      | none => none
      | some layers =>
        let layers := beforeExtendLayer layers (subtreeDepth - 1)
        layers[subtreeDepth - 1]?.map fun layer =>
          ({ t with layers := layers.set (subtreeDepth - 1) (layer ++ [subtreeRoot]) }, .ok ())

/-- `append_subtree`. -/
def appendSubtree (t : AppendMerkleTree E) (subtreeDepth : Nat) (subtreeRoot : E) :
    Option (AppendMerkleTree E × Except String Unit) :=
  match t.leaves with
  | none => none
  | some startIndex =>
    match appendSubtreeInner t subtreeDepth subtreeRoot with
    | none => none
    | some (t', .error e) => some (t', .error e)
    | some (t', .ok ()) => (recompute A t' startIndex none).map fun t'' => (t'', .ok ())

/-- The loop of `append_subtree_list`: stop at the first error, keeping what was appended. -/
def appendSubtreeInnerList (t : AppendMerkleTree E) :
    List (Nat × E) → Option (AppendMerkleTree E × Except String Unit)
  | [] => some (t, .ok ())
  | (d, r) :: rest =>
    match appendSubtreeInner t d r with
    | none => none
    | some (t', .error e) => some (t', .error e)
    | some (t', .ok ()) => appendSubtreeInnerList t' rest

/-- `append_subtree_list`. -/
def appendSubtreeList (t : AppendMerkleTree E) (subtreeList : List (Nat × E)) :
    Option (AppendMerkleTree E × Except String Unit) :=
  match t.leaves with
  | none => none
  | some startIndex =>
    match appendSubtreeInnerList t subtreeList with
    | none => none
    | some (t', .error e) => some (t', .error e)
    | some (t', .ok ()) => (recompute A t' startIndex none).map fun t'' => (t'', .ok ())

/-- `AppendMerkleTree::new_with_subtrees`. -/
def newWithSubtrees (subtreeRootList : List (Nat × E)) (leafHeight : Nat)
    (startTxSeq : Option Nat) : Option (Except String (AppendMerkleTree E)) :=
  let merkle := ofLeaves [] leafHeight
  if subtreeRootList = [] then some (.ok (merkle.withEmptyVersion startTxSeq))
  else
    match appendSubtreeList A merkle subtreeRootList with
    | none => none
    | some (_, .error e) => some (.error e)
    | some (t, .ok ()) => (commit t startTxSeq).map .ok

end Operations

end AppendMerkleTree

end Ionian.AppendMerkle
