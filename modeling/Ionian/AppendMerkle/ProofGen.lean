import Ionian.AppendMerkle.Incremental
import Ionian.AppendMerkle.Proof

/-!
# AppendMerkle.ProofGen — `gen_proof` and `gen_range_proof` on canonical trees

`MerkleTreeRead::gen_proof` walks from a leaf to the root, taking at each height the sibling of
the node on the way (the padding node `end_pad(height + leaf_height)` past a layer's end) and
whether that node is a left child.  On a canonical tree the sibling is `Merkle.sibling` of the
layer (`proofSteps_canonical`), so climbing the lemma rebuilds the layers above the leaf
(`climb_canonical`), and the path decodes to the leaf's index (`positionLoop_pathBits`).
`RangeProof::validate` rebuilds the slice of every layer between the two proved leaves
(`rebuild_canonical`).
-/

namespace Ionian.AppendMerkle

open HashElement Merkle

variable {E : Type} [HashElement E] [DecidableEq E]

namespace AppendMerkleTree

/-! ## The model -/

section Read

/-- `MerkleTreeRead::layer_len`. -/
def layerLen (t : AppendMerkleTree E) (layerHeight : Nat) : Option Nat :=
  t.layers[layerHeight]?.map List.length

/-- `MerkleTreeRead::padding_node`: `end_pad(height + leaf_height)`. -/
def paddingNode (t : AppendMerkleTree E) (height : Nat) : E :=
  endPad (height + t.leafHeight)

/-- One turn of the `for height in 0..(self.height() - 1)` loop of `gen_proof`: the sibling of
`index_in_layer` at `height`, and whether that node is a left child. -/
def proofStep (t : AppendMerkleTree E) (height indexInLayer : Nat) : Option (E × Bool) :=
  if indexInLayer % 2 = 0 then do
    let len ← t.layerLen height
    -- the right-most node of a layer is paired with the padding node
    if indexInLayer + 1 = len then pure (t.paddingNode height, true)
    else do pure ((← t.node height (indexInLayer + 1)), true)
  else do pure ((← t.node height (indexInLayer - 1)), false)

/-- The loop of `gen_proof` over `count` heights from `height`. -/
def proofSteps (t : AppendMerkleTree E) : Nat → Nat → Nat → Option (List E × List Bool)
  | _, 0, _ => some ([], [])
  | height, count + 1, indexInLayer => do
    let (sibling, isLeft) ← t.proofStep height indexInLayer
    let (siblings, path) ← proofSteps t (height + 1) count (indexInLayer / 2)
    pure (sibling :: siblings, isLeft :: path)

/-- `MerkleTreeRead::gen_proof`. -/
def genProof (t : AppendMerkleTree E) (leafIndex : Nat) : Option (Except String (Proof E)) := do
  let leaves ← t.leaves
  if leaves ≤ leafIndex then
    return .error ("leaf index out of bound: leaf_index=" ++ toString leafIndex ++
      " total_leaves=" ++ toString leaves)
  let leaf ← t.node 0 leafIndex
  if leaf = null then
    return .error ("Not ready to generate proof for leaf_index=" ++ toString leafIndex)
  if t.layers.length = 1 then
    let root ← t.root
    return .ok (← Proof.new [root, root] [])
  let (siblings, path) ← proofSteps t 0 (t.layers.length - 1) leafIndex
  let root ← t.root
  return .ok (← Proof.new (leaf :: siblings ++ [root]) path)

/-- `AppendMerkleTree::gen_range_proof`: the proofs of the first and the last leaf. -/
def genRangeProof (t : AppendMerkleTree E) (startIndex endIndex : Nat) :
    Option (Except String (RangeProof E)) := do
  if endIndex ≤ startIndex then
    return .error ("invalid proof range: start=" ++ toString startIndex ++ " end=" ++
      toString endIndex)
  match ← t.genProof startIndex with
  | .error e => pure (.error e)
  | .ok leftProof =>
    match ← t.genProof (endIndex - 1) with
    | .error e => pure (.error e)
    | .ok rightProof => pure (.ok ⟨leftProof, rightProof⟩)

end Read

/-! ## Proofs of a canonical tree -/

section Canonical

variable {A : Algorithm E} {t : AppendMerkleTree E} {L : List E} {D : Nat}

omit [DecidableEq E] in
theorem node_canonical (ht : Canonical A t L D) {h : Nat} (hh : h < D) (i : Nat) :
    t.node h i = (layer A.parent (padParent A t.leafHeight) h L)[i]? := by
  simp [node, ht.1, Merkle.layers, hh]

omit [DecidableEq E] in
theorem layerLen_canonical (ht : Canonical A t L D) {h : Nat} (hh : h < D) :
    t.layerLen h = some (layer A.parent (padParent A t.leafHeight) h L).length := by
  simp [layerLen, ht.1, Merkle.layers, hh]

omit [DecidableEq E] in
/-- On a canonical tree, `gen_proof`'s loop takes the `Merkle.sibling` of the node at each height,
and the path of the index. -/
theorem proofSteps_canonical (ht : Canonical A t L D) {h c idx : Nat} (hc : h + c < D)
    (hidx : idx < (layer A.parent (padParent A t.leafHeight) h L).length) :
    ∃ sibs, t.proofSteps h c idx = some (sibs, pathBits idx c) ∧ sibs.length = c ∧
      ∀ j < c, sibling (fun k => endPad (k + t.leafHeight)) (h + j)
        (layer A.parent (padParent A t.leafHeight) (h + j) L) (idx / 2 ^ j) = sibs[j]? := by
  induction c generalizing h idx with
  | zero => exact ⟨[], rfl, rfl, by simp⟩
  | succ c ih =>
    obtain ⟨s, hs⟩ := exists_sibling (fun k => endPad (k + t.leafHeight)) hidx h
    have hnext : idx / 2 < (layer A.parent (padParent A t.leafHeight) (h + 1) L).length := by
      rw [layer_succ, length_pairUp]; omega
    obtain ⟨sibs, hsteps, hlen, hsibs⟩ := ih (h := h + 1) (by omega) hnext
    have hstep : t.proofStep h idx = some (s, decide (idx % 2 = 0)) := by
      unfold proofStep
      rw [layerLen_canonical ht (by omega), node_canonical ht (by omega),
        node_canonical ht (by omega)]
      unfold sibling at hs
      split_ifs at hs ⊢ with heven hlast <;> simp_all [paddingNode]
    refine ⟨s :: sibs, ?_, by simp [hlen], ?_⟩
    · simp [proofSteps, hstep, hsteps, pathBits]
    · intro j hj
      cases j with
      | zero => simpa using hs
      | succ j =>
        have := hsibs j (by omega)
        rw [show h + 1 + j = h + (j + 1) by omega, Nat.div_div_eq_div_mul, ← pow_succ'] at this
        simpa using this

omit [DecidableEq E] in
/-- Climbing from node `idx` of layer `h` by its siblings along its path reaches its ancestor
`c` heights up. -/
theorem climb_siblings (A : Algorithm E) (lh : Nat) (L : List E) {sibs : List E}
    {h c idx : Nat} {x : E} (hx : (layer A.parent (padParent A lh) h L)[idx]? = some x)
    (hlen : sibs.length = c)
    (hs : ∀ j < c, sibling (fun k => endPad (k + lh)) (h + j)
      (layer A.parent (padParent A lh) (h + j) L) (idx / 2 ^ j) = sibs[j]?) :
    Proof.climb A x sibs (pathBits idx c) =
      (layer A.parent (padParent A lh) (h + c) L)[idx / 2 ^ c]? := by
  induction c generalizing h idx x sibs with
  | zero =>
    obtain rfl : sibs = [] := List.eq_nil_of_length_eq_zero hlen
    simpa [Proof.climb, pathBits] using hx.symm
  | succ c ih =>
    obtain ⟨s, rest, rfl⟩ := List.exists_cons_of_length_eq_add_one hlen
    have hs0 : sibling (fun k => endPad (k + lh)) h (layer A.parent (padParent A lh) h L) idx =
        some s := by simpa using hs 0 (by omega)
    -- one height up: the node and its sibling make the parent
    have hup : (layer A.parent (padParent A lh) (h + 1) L)[idx / 2]? =
        some (if idx % 2 = 0 then A.parent x s else A.parent s x) :=
      getElem?_pairUp_sibling A.parent (fun k => endPad (k + lh)) hx hs0
    have hrest := ih hup (by simpa using hlen) fun j hj => by
      have := hs (j + 1) (by omega)
      rwa [show h + (j + 1) = h + 1 + j by omega, pow_succ', ← Nat.div_div_eq_div_mul] at this
    simp only [pathBits, Proof.climb, decide_eq_true_eq]
    rw [hrest, show h + 1 + c = h + (c + 1) by omega, Nat.div_div_eq_div_mul, ← pow_succ']

omit [DecidableEq E] in
theorem leaves_canonical (ht : Canonical A t L D) : t.leaves = some L.length := by
  have hD : 0 < D := lt_of_lt_of_le (numLayers_pos _) ht.2
  simp [leaves, ht.1, Merkle.layers, hD]

omit [DecidableEq E] in
/-- The top layer of a canonical tree of nonempty leaves is its root alone. -/
theorem root_canonical (ht : Canonical A t L D) (hL : L ≠ []) :
    ∃ r, t.root = some r ∧ layer A.parent (padParent A t.leafHeight) (D - 1) L = [r] := by
  have hD : 0 < D := lt_of_lt_of_le (numLayers_pos _) ht.2
  obtain ⟨r, hr⟩ := List.length_eq_one_iff.mp
    (length_layer_eq_one A.parent (padParent A t.leafHeight) hL (j := D - 1) (by have := ht.2; omega))
  have hlen : t.layers.length = D := by rw [ht.1, length_layers]
  refine ⟨r, ?_, hr⟩
  rw [root, hlen, node_canonical ht (by omega), hr]
  rfl

/-- The proof `gen_proof` makes for leaf `i` of a canonical tree: the leaf, the siblings of its
ancestors, and the root, with the path of `i`. -/
theorem genProof_shape (ht : Canonical A t L D) (hnn : ∀ x ∈ L, x ≠ null) {i : Nat}
    (hi : i < L.length) :
    ∃ sibs r, t.root = some r ∧ layer A.parent (padParent A t.leafHeight) (D - 1) L = [r] ∧
      t.genProof i = some (.ok ⟨L[i] :: (sibs ++ [r]), pathBits i (D - 1)⟩) ∧
      sibs.length = D - 1 ∧
      ∀ j < D - 1, sibling (fun k => endPad (k + t.leafHeight)) j
        (layer A.parent (padParent A t.leafHeight) j L) (i / 2 ^ j) = sibs[j]? := by
  have hD : 0 < D := lt_of_lt_of_le (numLayers_pos _) ht.2
  have hlayers : t.layers.length = D := by rw [ht.1, length_layers]
  have hL : L ≠ [] := List.ne_nil_of_length_pos (by omega)
  obtain ⟨r, hroot, htop⟩ := root_canonical ht hL
  have hleaf : t.node 0 i = some L[i] := by rw [node_canonical ht hD]; simp
  have hnull : L[i] ≠ null := hnn _ (List.getElem_mem hi)
  rcases Nat.lt_or_ge 1 D with hD1 | hD1
  · -- one sibling per height below the root
    obtain ⟨sibs, hsteps, hlen, hsibs⟩ := proofSteps_canonical ht (h := 0) (c := D - 1)
      (by omega) (show i < (layer A.parent (padParent A t.leafHeight) 0 L).length by simpa using hi)
    have hnew := Proof.new_of_length
      (show (L[i] :: (sibs ++ [r])).length = (pathBits i (D - 1)).length + 2 by
        simp only [List.length_cons, List.length_append, List.length_nil, length_pathBits, hlen])
    refine ⟨sibs, r, hroot, htop, ?_, hlen, by simpa using hsibs⟩
    simp [genProof, leaves_canonical ht, Nat.not_le.mpr hi, hleaf, hnull, hlayers,
      show D ≠ 1 by omega, hsteps, hroot, hnew]
  · -- a single layer: the only leaf is the root, proved by `[root, root]`
    obtain rfl : D = 1 := by omega
    have hL1 : L = [r] := by simpa using htop
    subst hL1
    obtain rfl : i = 0 := by simpa using hi
    have hr : r ≠ null := by simpa using hnull
    refine ⟨[], r, hroot, htop, ?_, rfl, by simp⟩
    simp [genProof, leaves_canonical ht, hleaf, hr, hlayers, hroot, Proof.new, pathBits]

/-- A proof of that shape passes `validate_integrity`: climbing its lemma reaches the root. -/
theorem validateIntegrity_shape {lh : Nat} {sibs : List E} {r : E}
    (htop : layer A.parent (padParent A lh) (D - 1) L = [r]) (hcap : L.length ≤ 2 ^ (D - 1))
    {i : Nat} (hi : i < L.length) (hlen : sibs.length = D - 1)
    (hsibs : ∀ j < D - 1, sibling (fun k => endPad (k + lh)) j
      (layer A.parent (padParent A lh) j L) (i / 2 ^ j) = sibs[j]?) :
    Proof.validateIntegrity A ⟨L[i] :: (sibs ++ [r]), pathBits i (D - 1)⟩ = some true := by
  have hclimb := climb_siblings A lh L
    (show (layer A.parent (padParent A lh) 0 L)[i]? = some L[i] by simp) hlen
    (by simpa using hsibs)
  rw [zero_add, Nat.div_eq_of_lt (lt_of_lt_of_le hi hcap), htop] at hclimb
  rw [Proof.validateIntegrity_cons A rfl (by simp)]
  simp [hclimb]

/-- A proof of that shape validates against the leaf and its index, while the tree fits in a
`usize`. -/
theorem validate_shape {lh : Nat} {sibs : List E} {r : E}
    (htop : layer A.parent (padParent A lh) (D - 1) L = [r]) (hfit : L.length ≤ usizeModulus)
    (hcap : L.length ≤ 2 ^ (D - 1)) {i : Nat} (hi : i < L.length) (hlen : sibs.length = D - 1)
    (hsibs : ∀ j < D - 1, sibling (fun k => endPad (k + lh)) j
      (layer A.parent (padParent A lh) j L) (i / 2 ^ j) = sibs[j]?) :
    Proof.validate A ⟨L[i] :: (sibs ++ [r]), pathBits i (D - 1)⟩ L[i] i = some (.ok ()) :=
  Proof.validate_of_integrity (validateIntegrity_shape htop hcap hi hlen hsibs) rfl
    (Proof.position_pathBits (lt_of_lt_of_le hi hcap) (by omega) _)

/-- On a canonical tree every leaf of a tree within `usize` has a proof, which validates
against the leaf and its index and ends on the tree's root. -/
theorem genProof_canonical (ht : Canonical A t L D) (hnn : ∀ x ∈ L, x ≠ null) {i : Nat}
    (hi : i < L.length) (hfit : L.length ≤ usizeModulus) :
    ∃ p, t.genProof i = some (.ok p) ∧ p.validate A L[i] i = some (.ok ()) ∧
      p.root = t.root := by
  obtain ⟨sibs, r, hroot, htop, hgen, hlen, hsibs⟩ := genProof_shape ht hnn hi
  have hcap : L.length ≤ 2 ^ (D - 1) := le_trans (le_two_pow_numLayers _)
    (Nat.pow_le_pow_right two_pos (by have := ht.2; omega))
  refine ⟨_, hgen, validate_shape htop hfit hcap hi hlen hsibs, ?_⟩
  rw [hroot, Proof.root_cons_append]

end Canonical

/-! ## Range proofs of a canonical tree -/

section Range

variable {A : Algorithm E} {lh : Nat} {L : List E}

/-- `p` proves node `i` of the canonical tree of `L` over `c` heights: it has the path of `i`,
and at each height the sibling of `i`'s ancestor. -/
def ProvesIndex (A : Algorithm E) (lh : Nat) (L : List E) (c i : Nat) (p : Proof E) : Prop :=
  p.path = pathBits i c ∧ ∀ j < c, p.lemma[j + 1]? =
    sibling (fun k => endPad (k + lh)) j (layer A.parent (padParent A lh) j L) (i / 2 ^ j)

omit [HashElement E] [DecidableEq E] in
theorem take_one_drop {xs : List E} {n : Nat} {x : E} (h : xs[n]? = some x) :
    (xs.drop n).take 1 = [x] := by
  obtain ⟨hn, rfl⟩ := List.getElem?_eq_some_iff.mp h
  rw [List.drop_eq_getElem_cons hn]; rfl

omit [DecidableEq E] in
theorem leftMostParent_canonical {rp : RangeProof E} {c s h : Nat} (hh : h < c)
    (hl : ProvesIndex A lh L c s rp.leftProof) {children : List E}
    (hfirst : children[0]? = (layer A.parent (padParent A lh) h L)[s / 2 ^ h]?)
    (hs : s / 2 ^ h < (layer A.parent (padParent A lh) h L).length) :
    RangeProof.leftMostParent A rp h children =
      some (((layer A.parent (padParent A lh) (h + 1) L).drop (s / 2 ^ h / 2)).take (s / 2 ^ h % 2),
        s / 2 ^ h % 2) := by
  have hbit : rp.leftProof.path[h]? = some (decide (s / 2 ^ h % 2 = 0)) := by
    rw [hl.1, getElem?_pathBits hh]
  have hsib := hl.2 h hh
  generalize s / 2 ^ h = a at hbit hsib hfirst hs ⊢
  unfold RangeProof.leftMostParent
  rcases Nat.mod_two_eq_zero_or_one a with heven | hodd
  · simp [hbit, heven]
  · -- a left-most right child: its sibling is the node before it
    obtain ⟨x, hx⟩ : ∃ x, (layer A.parent (padParent A lh) h L)[a]? = some x :=
      ⟨_, List.getElem?_eq_getElem hs⟩
    obtain ⟨y, hy⟩ := exists_sibling (fun k => endPad (k + lh)) hs h
    have hparent := getElem?_pairUp_sibling A.parent (fun k => endPad (k + lh)) hx hy
    rw [if_neg (by omega)] at hparent
    have hparent' : (layer A.parent (padParent A lh) (h + 1) L)[a / 2]? = some (A.parent y x) :=
      hparent
    rw [hodd, take_one_drop hparent']
    simp [hbit, hodd, hsib, hy, hfirst, hx]

omit [DecidableEq E] in
/-- The chunks of an aligned slice of a canonical layer pair into a slice of the layer above. -/
theorem chunkParents_canonical {h a n : Nat} (ha : a % 2 = 0)
    (hn : a + n ≤ (layer A.parent (padParent A lh) h L).length) :
    RangeProof.chunkParents A (((layer A.parent (padParent A lh) h L).drop a).take n) =
      (((layer A.parent (padParent A lh) (h + 1) L).drop (a / 2)).take (n / 2),
        if n % 2 = 1 then (layer A.parent (padParent A lh) h L)[a + n - 1]? else none) := by
  have hlen : (((layer A.parent (padParent A lh) h L).drop a).take n).length = n := by
    simp; omega
  rw [RangeProof.chunkParents_eq A (padParent A lh) h, hlen, List.take_take,
    min_eq_left (by omega), pairUp_drop_take _ _ h _ ha, layer_succ]
  congr 1
  split_ifs with hodd
  · rw [List.getLast?_take, if_neg (by omega), List.getElem?_drop,
      show a + (n - 1) = a + n - 1 by omega, List.getElem?_eq_getElem (by omega : a + n - 1 < _),
      Option.some_or]
  · rfl

omit [DecidableEq E] in
theorem rightMostParent_canonical {rp : RangeProof E} {c u h n : Nat} (hh : h < c)
    (hr : ProvesIndex A lh L c u rp.rightProof)
    (hu : u / 2 ^ h < (layer A.parent (padParent A lh) h L).length)
    (hn : n % 2 = 1 → u / 2 ^ h % 2 = 0) :
    RangeProof.rightMostParent A rp h
        (if n % 2 = 1 then (layer A.parent (padParent A lh) h L)[u / 2 ^ h]? else none) =
      some (.ok (((layer A.parent (padParent A lh) (h + 1) L).drop (u / 2 ^ h / 2)).take
        (n % 2))) := by
  have hbit : rp.rightProof.path[h]? = some (decide (u / 2 ^ h % 2 = 0)) := by
    rw [hr.1, getElem?_pathBits hh]
  have hsib := hr.2 h hh
  generalize u / 2 ^ h = b at hbit hsib hu hn ⊢
  rcases Nat.mod_two_eq_zero_or_one n with heven | hodd
  · simp [heven, RangeProof.rightMostParent]
  · -- a right-most left child: its sibling is the node after it, or the padding node
    have hb := hn hodd
    obtain ⟨x, hx⟩ : ∃ x, (layer A.parent (padParent A lh) h L)[b]? = some x :=
      ⟨_, List.getElem?_eq_getElem hu⟩
    obtain ⟨y, hy⟩ := exists_sibling (fun k => endPad (k + lh)) hu h
    have hparent := getElem?_pairUp_sibling A.parent (fun k => endPad (k + lh)) hx hy
    rw [if_pos hb] at hparent
    have hparent' : (layer A.parent (padParent A lh) (h + 1) L)[b / 2]? = some (A.parent x y) :=
      hparent
    rw [hodd, take_one_drop hparent']
    simp [RangeProof.rightMostParent, hx, hbit, hb, hsib, hy]

/-- The slice of layer `h` between the ancestors of leaves `s` and `u`. -/
def rangeSlice (A : Algorithm E) (lh : Nat) (L : List E) (s u h : Nat) : List E :=
  ((layer A.parent (padParent A lh) h L).drop (s / 2 ^ h)).take (u / 2 ^ h - s / 2 ^ h + 1)

omit [HashElement E] [DecidableEq E] in
theorem take_drop_append_take_drop (l : List E) (x m k : Nat) :
    (l.drop x).take m ++ (l.drop (x + m)).take k = (l.drop x).take (m + k) := by
  rw [List.take_add, List.drop_drop]

omit [DecidableEq E] in
/-- One turn of `RangeProof::validate`'s loop turns the slice of layer `h` between the ancestors
of `s` and `u` into the slice of the layer above. -/
theorem parentLayer_canonical {rp : RangeProof E} {c s u h : Nat} (hh : h < c)
    (hl : ProvesIndex A lh L c s rp.leftProof) (hr : ProvesIndex A lh L c u rp.rightProof)
    (hsu : s ≤ u) (hu : u / 2 ^ h < (layer A.parent (padParent A lh) h L).length) :
    RangeProof.parentLayer A rp h (rangeSlice A lh L s u h) =
      some (.ok (rangeSlice A lh L s u (h + 1))) := by
  have hab : s / 2 ^ h ≤ u / 2 ^ h := Nat.div_le_div_right hsu
  have hfirst : (rangeSlice A lh L s u h)[0]? =
      (layer A.parent (padParent A lh) h L)[s / 2 ^ h]? := by
    simp [rangeSlice]
  have hleft := leftMostParent_canonical hh hl hfirst (by omega)
  have hup : ∀ i, i / 2 ^ (h + 1) = i / 2 ^ h / 2 := fun i => by
    rw [pow_succ, Nat.div_div_eq_div_mul]
  unfold RangeProof.parentLayer
  rw [hleft, rangeSlice, rangeSlice, hup s, hup u]
  generalize hx : layer A.parent (padParent A lh) h L = xs at hu hleft ⊢
  generalize s / 2 ^ h = a at hab hleft ⊢
  generalize hb : u / 2 ^ h = b at hab hu ⊢
  -- the chunks start at the first left child of the slice
  have hdrop : ((xs.drop a).take (b - a + 1)).drop (a % 2) =
      (xs.drop (a + a % 2)).take (b + 1 - (a + a % 2)) := by
    rw [List.drop_take, List.drop_drop]; congr 1; omega
  have hchunks := chunkParents_canonical (A := A) (by omega : (a + a % 2) % 2 = 0)
    (by rw [hx]; omega :
      a + a % 2 + (b + 1 - (a + a % 2)) ≤ (layer A.parent (padParent A lh) h L).length)
  rw [hx] at hchunks
  have hrem : (if (b + 1 - (a + a % 2)) % 2 = 1 then xs[a + a % 2 + (b + 1 - (a + a % 2)) - 1]?
      else none) = if (b + 1 - (a + a % 2)) % 2 = 1 then xs[b]? else none := by
    split_ifs with hodd
    · congr 1; omega
    · rfl
  have hright := rightMostParent_canonical (n := b + 1 - (a + a % 2)) hh hr
    (by rw [hx, hb]; exact hu) (fun hodd => by rw [hb]; omega)
  rw [hx, hb] at hright
  simp only [Option.bind_eq_bind, Option.bind_some, hdrop, hchunks, hrem, hright, layer_succ,
    hx]
  generalize pairUp A.parent (padParent A lh) h xs = P
  -- the three pieces are consecutive slices of the layer above
  rw [Option.pure_def, show (a + a % 2) / 2 = a / 2 + a % 2 by omega, take_drop_append_take_drop]
  by_cases hodd : (b + 1 - (a + a % 2)) % 2 = 1
  · rw [show b / 2 = a / 2 + (a % 2 + (b + 1 - (a + a % 2)) / 2) by omega,
      take_drop_append_take_drop]
    congr 3; omega
  · rw [show (b + 1 - (a + a % 2)) % 2 = 0 by omega, List.take_zero, List.append_nil]
    congr 3; omega

omit [DecidableEq E] in
/-- The loop of `RangeProof::validate` climbs the slices between the two proved leaves. -/
theorem rebuild_canonical {rp : RangeProof E} {c s u : Nat}
    (hl : ProvesIndex A lh L c s rp.leftProof) (hr : ProvesIndex A lh L c u rp.rightProof)
    (hsu : s ≤ u) (hu : u < L.length) :
    ∀ count h, h + count ≤ c → RangeProof.rebuild A rp h count (rangeSlice A lh L s u h) =
      some (.ok (rangeSlice A lh L s u (h + count)))
  | 0, h, _ => rfl
  | count + 1, h, hc => by
    have hlen : u / 2 ^ h < (layer A.parent (padParent A lh) h L).length := by
      rw [length_layer]; exact div_pow_lt_iterate_half hu h
    have hrest := rebuild_canonical hl hr hsu hu count (h + 1) (by omega)
    rw [RangeProof.rebuild, parentLayer_canonical (by omega) hl hr hsu hlen]
    simp only [Option.bind_eq_bind, Option.bind_some, hrest]
    rw [show h + 1 + count = h + (count + 1) by omega]

omit [DecidableEq E] in
theorem provesIndex_shape {sibs : List E} {r x : E} {c i : Nat} (hlen : sibs.length = c)
    (hsibs : ∀ j < c, sibling (fun k => endPad (k + lh)) j
      (layer A.parent (padParent A lh) j L) (i / 2 ^ j) = sibs[j]?) :
    ProvesIndex A lh L c i ⟨x :: (sibs ++ [r]), pathBits i c⟩ := by
  refine ⟨rfl, fun j hj => ?_⟩
  rw [hsibs j hj]
  simp [List.getElem?_append_left (by omega : j < sibs.length)]

end Range

section Completeness

variable {A : Algorithm E} {t : AppendMerkleTree E} {L : List E} {D : Nat}

/-- On a canonical tree every range of leaves of a tree within `usize` has a range proof, which
validates against the leaves and the range's start and ends on the tree's root. -/
theorem genRangeProof_canonical (ht : Canonical A t L D) (hnn : ∀ x ∈ L, x ≠ null) {s e : Nat}
    (hse : s < e) (he : e ≤ L.length) (hfit : L.length ≤ usizeModulus) :
    ∃ rp, t.genRangeProof s e = some (.ok rp) ∧
      rp.validate A ((L.drop s).take (e - s)) s = some (.ok ()) ∧ rp.root = t.root := by
  obtain ⟨sibsL, r, hroot, htop, hgenL, hlenL, hsibsL⟩ :=
    genProof_shape ht hnn (show s < L.length by omega)
  obtain ⟨sibsR, r', hroot', -, hgenR, hlenR, hsibsR⟩ :=
    genProof_shape ht hnn (show e - 1 < L.length by omega)
  have hrr : r = r' := Option.some_injective _ (hroot.symm.trans hroot')
  subst hrr
  have hcap : L.length ≤ 2 ^ (D - 1) := le_trans (le_two_pow_numLayers _)
    (Nat.pow_le_pow_right two_pos (by have := ht.2; omega))
  have hintL := validateIntegrity_shape htop hcap (show s < L.length by omega) hlenL hsibsL
  have hintR := validateIntegrity_shape htop hcap (show e - 1 < L.length by omega) hlenR hsibsR
  -- the slices of the rebuilt layers: the range at the leaves, the root at the top
  let rp : RangeProof E := ⟨⟨L[s] :: (sibsL ++ [r]), pathBits s (D - 1)⟩,
    ⟨L[e - 1] :: (sibsR ++ [r]), pathBits (e - 1) (D - 1)⟩⟩
  have hpL : ProvesIndex A t.leafHeight L (D - 1) s rp.leftProof := provesIndex_shape hlenL hsibsL
  have hpR : ProvesIndex A t.leafHeight L (D - 1) (e - 1) rp.rightProof :=
    provesIndex_shape hlenR hsibsR
  have hrebuild := rebuild_canonical hpL hpR (show s ≤ e - 1 by omega)
    (show e - 1 < L.length by omega) (D - 1) 0 (by omega)
  have hbottom : rangeSlice A t.leafHeight L s (e - 1) 0 = (L.drop s).take (e - s) := by
    simp only [rangeSlice, layer_zero, pow_zero, Nat.div_one]; congr 1; omega
  have htopSlice : rangeSlice A t.leafHeight L s (e - 1) (0 + (D - 1)) = [r] := by
    rw [rangeSlice, zero_add, htop, Nat.div_eq_of_lt (by omega : s < 2 ^ (D - 1)),
      Nat.div_eq_of_lt (by omega : e - 1 < 2 ^ (D - 1))]
    rfl
  rw [hbottom, htopSlice] at hrebuild
  refine ⟨rp, ?_, ?_, ?_⟩
  · simp [genRangeProof, Nat.not_le.mpr hse, hgenL, hgenR, rp]
  · have hint : RangeProof.validateIntegrity A rp = some true := by
      simp [RangeProof.validateIntegrity, rp, hintL, hintR, Proof.root_cons_append]
    have hlen : ((L.drop s).take (e - s)).length = e - s := by simp; omega
    have hfirst : ((L.drop s).take (e - s))[0]? = some L[s] := by
      simp [show 0 < e - s by omega]
    have hlast : ((L.drop s).take (e - s)).getLast? = some L[e - 1] := by
      rw [List.getLast?_eq_getElem?, hlen, List.getElem?_take, if_pos (by omega),
        List.getElem?_drop, show s + (e - s - 1) = e - 1 by omega]
      exact List.getElem?_eq_getElem _
    have hposL : rp.leftProof.position = s :=
      Proof.position_pathBits (by omega) (by omega) _
    have hposR : rp.rightProof.position = e - 1 :=
      Proof.position_pathBits (by omega) (by omega) _
    have hend : (s + (e - s) - 1) % usizeModulus = e - 1 := by
      rw [show s + (e - s) - 1 = e - 1 by omega]; exact Nat.mod_eq_of_lt (by omega)
    have hne : ((L.drop s).take (e - s)).isEmpty = false := by
      rw [List.isEmpty_eq_false_iff, ← List.length_pos_iff]; omega
    simp [RangeProof.validate, hint, hne, hlen, hend, hfirst, hlast, hposL, hposR, hrebuild,
      RangeProof.root, rp, Proof.item, Proof.root_cons_append]
  · rw [hroot]; exact Proof.root_cons_append _ _ _ _

end Completeness

end AppendMerkleTree

end Ionian.AppendMerkle
