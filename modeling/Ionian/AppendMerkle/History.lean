import Ionian.AppendMerkle.ProofGen

/-!
# AppendMerkle.History — versions of the tree: `at_root_version` and `revert_to`

`commit(Some(tx_seq))` records the right-most node of every layer (`DeltaNodes`) under the
version, and the root under it.  A `HistoryTree` reads a past version through the live layers:
the right-most node of each of its layers from the delta, every node left of it from the live
tree, and a node right of it is out of range.  `gen_proof` is a default method of the
`MerkleTreeRead` trait, so the same function reads the live tree and a history tree
(`genProof_toRead`).

`revert_to(tx_seq)` cuts every layer back to the recorded right-most index, writes the recorded
node there, and forgets the versions `tx_seq + 1, tx_seq + 2, …` while they are recorded
(`clear_after`).
-/

namespace Ionian.AppendMerkle

open HashElement

variable {E : Type} [HashElement E] [DecidableEq E]

/-! ## The `MerkleTreeRead` trait -/

/-- The required methods of `MerkleTreeRead`; a read that panics is `none`. -/
structure MerkleTreeRead (E : Type) where
  node : Nat → Nat → Option E
  height : Nat
  layerLen : Nat → Option Nat
  paddingNode : Nat → E

namespace MerkleTreeRead

/-- `leaves`: `layer_len(0)`. -/
def leaves (t : MerkleTreeRead E) : Option Nat := t.layerLen 0

/-- `root`: `node(height() - 1, 0)`. -/
def root (t : MerkleTreeRead E) : Option E := t.node (t.height - 1) 0

/-- One turn of the loop of `gen_proof`: the sibling of `index_in_layer` at `height`, and whether
that node is a left child. -/
def proofStep (t : MerkleTreeRead E) (height indexInLayer : Nat) : Option (E × Bool) :=
  if indexInLayer % 2 = 0 then do
    let len ← t.layerLen height
    if indexInLayer + 1 = len then pure (t.paddingNode height, true)
    else do pure ((← t.node height (indexInLayer + 1)), true)
  else do pure ((← t.node height (indexInLayer - 1)), false)

/-- The loop of `gen_proof` over `count` heights from `height`. -/
def proofSteps (t : MerkleTreeRead E) : Nat → Nat → Nat → Option (List E × List Bool)
  | _, 0, _ => some ([], [])
  | height, count + 1, indexInLayer => do
    let (sibling, isLeft) ← t.proofStep height indexInLayer
    let (siblings, path) ← proofSteps t (height + 1) count (indexInLayer / 2)
    pure (sibling :: siblings, isLeft :: path)

/-- The default method `gen_proof`. -/
def genProof (t : MerkleTreeRead E) (leafIndex : Nat) : Option (Except String (Proof E)) := do
  let leaves ← t.leaves
  if leaves ≤ leafIndex then
    return .error ("leaf index out of bound: leaf_index=" ++ toString leafIndex ++
      " total_leaves=" ++ toString leaves)
  let leaf ← t.node 0 leafIndex
  if leaf = null then
    return .error ("Not ready to generate proof for leaf_index=" ++ toString leafIndex)
  if t.height = 1 then
    let root ← t.root
    return .ok (← Proof.new [root, root] [])
  let (siblings, path) ← proofSteps t 0 (t.height - 1) leafIndex
  let root ← t.root
  return .ok (← Proof.new (leaf :: siblings ++ [root]) path)

end MerkleTreeRead

namespace AppendMerkleTree

/-- The tree through its `MerkleTreeRead` methods. -/
def toRead (t : AppendMerkleTree E) : MerkleTreeRead E :=
  ⟨t.node, t.layers.length, t.layerLen, t.paddingNode⟩

omit [DecidableEq E] in
theorem proofSteps_toRead (t : AppendMerkleTree E) (height count indexInLayer : Nat) :
    t.toRead.proofSteps height count indexInLayer = t.proofSteps height count indexInLayer := by
  induction count generalizing height indexInLayer with
  | zero => rfl
  | succ count ih =>
    simp only [MerkleTreeRead.proofSteps, proofSteps, ih]
    rfl

/-- The live tree's `gen_proof` is the trait's default method on its reads. -/
theorem genProof_toRead (t : AppendMerkleTree E) (leafIndex : Nat) :
    t.toRead.genProof leafIndex = t.genProof leafIndex := by
  simp only [MerkleTreeRead.genProof, genProof, proofSteps_toRead]
  rfl

end AppendMerkleTree

/-! ## Versions -/

namespace DeltaNodes

/-- `DeltaNodes::get`: the recorded node at a layer's right-most index, nothing left of it, and
an error right of it or above the recorded layers. -/
def get (d : DeltaNodes E) (height position : Nat) : Except String (Option E) :=
  match d.rightMostNodes[height]? with
  | none => .error "position out of tree range"
  | some (lastIndex, node) =>
    if position > lastIndex then .error "position out of tree range"
    else if position = lastIndex then .ok (some node)
    else .ok none

/-- `DeltaNodes::layer_len`; the index panics above the recorded layers. -/
def layerLen (d : DeltaNodes E) (height : Nat) : Option Nat :=
  d.rightMostNodes[height]?.map fun n => n.1 + 1

def height (d : DeltaNodes E) : Nat := d.rightMostNodes.length

/-- `DeltaNodes::root`: the node of the top layer (`unwrap` panics on an empty delta). -/
def root (d : DeltaNodes E) : Option E := d.rightMostNodes.getLast?.map Prod.snd

end DeltaNodes

/-- `HistoryTree`: a past version read through the live layers. -/
structure HistoryTree (E : Type) where
  layers : List (List E)
  deltaNodes : DeltaNodes E
  leafHeight : Nat

namespace HistoryTree

/-- `HistoryTree::node`: the delta's node where it has one, the live node left of it;
`expect("range checked")` panics right of it. -/
def node (h : HistoryTree E) (layer index : Nat) : Option E :=
  match h.deltaNodes.get layer index with
  | .error _ => none
  | .ok (some node) => some node
  | .ok none => h.layers[layer]? >>= (·[index]?)

/-- The history tree through its `MerkleTreeRead` methods. -/
def toRead (h : HistoryTree E) : MerkleTreeRead E :=
  ⟨h.node, h.deltaNodes.height, h.deltaNodes.layerLen, fun height => endPad (height + h.leafHeight)⟩

/-- `gen_proof` on the history tree. -/
def genProof (h : HistoryTree E) (leafIndex : Nat) : Option (Except String (Proof E)) :=
  h.toRead.genProof leafIndex

end HistoryTree

namespace AppendMerkleTree

/-- `check_root`. -/
def checkRoot (t : AppendMerkleTree E) (root : E) : Bool := decide (root ∈ t.rootToTxSeqMap)

/-- `at_root_version`; the first error's `Debug` text of the root is left out. -/
def atRootVersion (t : AppendMerkleTree E) (rootHash : E) : Except String (HistoryTree E) :=
  match t.rootToTxSeqMap.lookup rootHash with
  | none => .error "old root unavailable"
  | some txSeq =>
    match t.deltaNodesMap.lookup txSeq with
    | none => .error ("tx_seq unavailable, tx_seq=" ++ toString txSeq)
    | some deltaNodes =>
      if deltaNodes.height = 0 then .error "empty tree"
      else .ok ⟨t.layers, deltaNodes, t.leafHeight⟩

/-- `reset`: the empty layers of `new` or of `new_with_depth`. -/
def reset (t : AppendMerkleTree E) : AppendMerkleTree E :=
  { t with layers := match t.minDepth with
    | none => [[]]
    | some depth => List.replicate depth [] }

omit [HashElement E] [DecidableEq E] in
theorem length_keys_erase_lt {t : AppendMerkleTree E} {txSeq : Nat} {nodes : DeltaNodes E}
    (h : t.deltaNodesMap.lookup txSeq = some nodes) :
    (t.deltaNodesMap.erase txSeq).keys.length < t.deltaNodesMap.keys.length := by
  have hmem : txSeq ∈ t.deltaNodesMap.keys :=
    AList.mem_keys.mp (AList.lookup_isSome.mp (by simp [h]))
  rw [AList.keys_erase, List.length_erase_of_mem hmem]
  exact Nat.sub_lt (List.length_pos_of_mem hmem) Nat.one_pos

/-- The `while` loop of `clear_after` from `tx_seq`: each recorded version is forgotten with its
root, until the first version that is not recorded. -/
def clearFrom (t : AppendMerkleTree E) (txSeq : Nat) : AppendMerkleTree E :=
  match h : t.deltaNodesMap.lookup txSeq with
  | none => t
  | some nodes =>
    -- `nodes.height() != 0` exactly when the delta has a root
    let rootToTxSeqMap := match nodes.root with
      | some root => t.rootToTxSeqMap.erase root
      | none => t.rootToTxSeqMap
    clearFrom { t with deltaNodesMap := t.deltaNodesMap.erase txSeq, rootToTxSeqMap } (txSeq + 1)
termination_by t.deltaNodesMap.keys.length
decreasing_by exact length_keys_erase_lt h

/-- `clear_after`. -/
def clearAfter (t : AppendMerkleTree E) (txSeq : Nat) : AppendMerkleTree E := t.clearFrom (txSeq + 1)

/-- The `for` loop of `revert_to` over the recorded right-most nodes from layer `height` up: the
layer is cut after the right-most index and the node written there; the layer index and the
node index panic out of range. -/
def revertLayers (layers : List (List E)) : Nat → List (Nat × E) → Option (List (List E))
  | _, [] => some layers
  | height, (lastIndex, rightMostNode) :: rest =>
    match layers[height]? with
    | none => none
    | some layer =>
      let layer := layer.take (lastIndex + 1)
      if lastIndex < layer.length then
        revertLayers (layers.set height (layer.set lastIndex rightMostNode)) (height + 1) rest
      else none

/-- `revert_to`. -/
def revertTo (t : AppendMerkleTree E) (txSeq : Nat) : Option (AppendMerkleTree E × Except String Unit) :=
  match t.layers[0]? with
  | none => none
  -- Any previous state of an empty tree is always empty.
  | some [] => some (t, .ok ())
  | some _ =>
    match t.deltaNodesMap.lookup txSeq with
    | none => some (t, .error ("tx_seq unavailable, root=" ++ toString txSeq))
    | some deltaNodes =>
      -- Dropping the upper layers that are not in the old merkle tree.
      (revertLayers (t.layers.take deltaNodes.rightMostNodes.length) 0 deltaNodes.rightMostNodes).map
        fun layers => ({ t with layers }.clearAfter txSeq, .ok ())

end AppendMerkleTree

end Ionian.AppendMerkle
