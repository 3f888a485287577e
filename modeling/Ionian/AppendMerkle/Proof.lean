import Ionian.AppendMerkle.Tree

/-!
# AppendMerkle.Proof — `Proof` and `RangeProof` of `common/append_merkle/src/proof.rs`

A `Proof` is the lemma (the leaf, one sibling per height, then the root) and the path (one bit
per sibling, `true` when the proved node is the left child).  A `RangeProof` is the proofs of the
first and the last leaf of a range; `RangeProof::validate` rebuilds every layer of the range from
the leaves and the siblings at its two ends.  Both are decoded from a peer's message, so nothing
ties the lengths of `lemma` and `path` together.  A panic (an index out of bounds, `unwrap` of
`None`, `assert_eq!`) is `none`.  The model is of a release build: the `usize` shifts and sums of
`Proof::position` wrap (`shlOne`, `usizeModulus`), where a debug build would panic.
-/

namespace Ionian.AppendMerkle

/-- `usize` arithmetic of a release build wraps modulo `2 ^ 64`. -/
def usizeModulus : Nat := 2 ^ 64

/-- `Proof<T>`. -/
structure Proof (T : Type) where
  «lemma» : List T
  path : List Bool
  deriving DecidableEq, Repr

/-- `RangeProof<E>`. -/
structure RangeProof (E : Type) where
  leftProof : Proof E
  rightProof : Proof E
  deriving DecidableEq, Repr

variable {E : Type} [DecidableEq E]

/-- The message of a failed `ensure_eq!(given, expected)` at a line of `proof.rs`; the values'
`Debug` texts are left out. -/
def ensureEqMessage (line : Nat) (given expected : String) : String :=
  "equal check fails! common/append_merkle/src/proof.rs:" ++ toString line ++ ": " ++ given ++
    ", " ++ expected

namespace Proof

/-- `Proof::new`: `assert_eq!(hash.len() - 2, path.len())`; the subtraction underflows below 2. -/
def new (hash : List E) (path : List Bool) : Option (Proof E) :=
  if hash.length < 2 ∨ hash.length - 2 ≠ path.length then none else some ⟨hash, path⟩

/-- `Proof::item`: the first lemma node (`unwrap` panics on an empty lemma). -/
def item (p : Proof E) : Option E := p.lemma.head?

/-- `Proof::root`: the last lemma node. -/
def root (p : Proof E) : Option E := p.lemma.getLast?

/-- The `for i in 1..size - 1` loop of `validate_integrity`: `h` climbs by the lemma's middle
nodes, reading `path[i - 1]` for the side; `none` once the path runs out first. -/
def climb (A : Algorithm E) : E → List E → List Bool → Option E
  | h, [], _ => some h
  | _, _ :: _, [] => none
  | h, l :: ls, isLeft :: bits => climb A (if isLeft then A.parent h l else A.parent l h) ls bits

/-- `Proof::validate_integrity`. -/
def validateIntegrity (A : Algorithm E) (p : Proof E) : Option Bool :=
  if p.lemma.length < 2 then some false
  else do
    let item ← p.item
    let h ← climb A item ((p.lemma.drop 1).take (p.lemma.length - 2)) p.path
    let root ← p.root
    pure (decide (h = root))

/-- The loop of `Proof::position`: `pos += 1 << i` for every right turn `i`, wrapping. -/
def positionLoop : Nat → Nat → List Bool → Nat
  | pos, _, [] => pos
  | pos, i, isLeft :: rest =>
    positionLoop (if isLeft then pos else (pos + shlOne i) % usizeModulus) (i + 1) rest

/-- `Proof::position`. -/
def position (p : Proof E) : Nat := positionLoop 0 0 p.path

/-- `Proof::validate`. -/
def validate (A : Algorithm E) (p : Proof E) (item : E) (position : Nat) :
    Option (Except String Unit) := do
  let ok ← p.validateIntegrity A
  if !ok then return .error "Invalid proof"
  let proofItem ← p.item
  if item ≠ proofItem then return .error "Proof item unmatch"
  if position ≠ p.position then return .error "Proof position unmatch"
  return .ok ()

omit [DecidableEq E] in
theorem climb_eq_none_iff (A : Algorithm E) (h : E) (ls : List E) (bits : List Bool) :
    climb A h ls bits = none ↔ bits.length < ls.length := by
  induction ls generalizing h bits with
  | nil => simp [climb]
  | cons l ls ih =>
    cases bits with
    | nil => simp [climb]
    | cons isLeft bits => simp [climb, ih]

/-- `validate_integrity` of a lemma `x :: rest` with `rest` nonempty: climb from `x` by all but the
last node of `rest`, and compare with that last node. -/
theorem validateIntegrity_cons (A : Algorithm E) {p : Proof E} {x : E} {rest : List E}
    (hx : p.lemma = x :: rest) (hrest : rest ≠ []) :
    p.validateIntegrity A =
      (climb A x rest.dropLast p.path).map fun h => decide (h = rest.getLast hrest) := by
  have hlen : ¬p.lemma.length < 2 := by
    rw [hx]; cases rest with
    | nil => exact absurd rfl hrest
    | cons y ys => simp
  have hmid : (p.lemma.drop 1).take (p.lemma.length - 2) = rest.dropLast := by
    simp [hx, List.dropLast_eq_take]
  have hroot : p.root = some (rest.getLast hrest) := by
    simp [root, hx, List.getLast?_cons, List.getLast?_eq_some_getLast hrest]
  unfold validateIntegrity
  rw [if_neg hlen, hmid, hroot, item, hx, List.head?_cons]
  simp only [Option.pure_def, Option.bind_eq_bind, Option.bind_some]
  cases climb A x rest.dropLast p.path <;> rfl

/-- `validate_integrity` panics exactly when the path is shorter than the lemma's middle. -/
theorem validateIntegrity_eq_none_iff (A : Algorithm E) (p : Proof E) :
    p.validateIntegrity A = none ↔ 2 ≤ p.lemma.length ∧ p.path.length < p.lemma.length - 2 := by
  match hx : p.lemma with
  | [] => simp [validateIntegrity, hx]
  | [x] => simp [validateIntegrity, hx]
  | x :: y :: ys =>
    rw [validateIntegrity_cons A hx (List.cons_ne_nil y ys), Option.map_eq_none_iff,
      climb_eq_none_iff]
    simp

theorem two_le_of_validateIntegrity {A : Algorithm E} {p : Proof E}
    (h : p.validateIntegrity A = some true) : 2 ≤ p.lemma.length := by
  unfold validateIntegrity at h
  split_ifs at h with hlt
  · simp at h
  · omega

/-- `Proof::validate` panics exactly where `validate_integrity` does: past it, `item()` has a
node to return and the rest only compares. -/
theorem validate_eq_none_iff (A : Algorithm E) (p : Proof E) (item : E) (position : Nat) :
    p.validate A item position = none ↔
      2 ≤ p.lemma.length ∧ p.path.length < p.lemma.length - 2 := by
  rw [← validateIntegrity_eq_none_iff A p]
  cases h : p.validateIntegrity A with
  | none => simp [validate, h]
  | some ok =>
    cases ok with
    | false => simp [validate, h]
    | true =>
      have hpos : 0 < p.lemma.length := by have := two_le_of_validateIntegrity h; omega
      obtain ⟨x, rest, hx⟩ := List.exists_cons_of_ne_nil (List.ne_nil_of_length_pos hpos)
      simp only [validate, h, Proof.item, hx, List.head?_cons]
      by_cases hi : item = x <;> by_cases hp : position = p.position <;> simp [hi, hp]

omit [DecidableEq E] in
theorem root_cons_append (x r : E) (sibs : List E) (path : List Bool) :
    Proof.root ⟨x :: (sibs ++ [r]), path⟩ = some r := by
  rw [Proof.root, ← List.cons_append, List.getLast?_concat]

omit [DecidableEq E] in
theorem new_of_length {hash : List E} {path : List Bool} (h : hash.length = path.length + 2) :
    Proof.new hash path = some ⟨hash, path⟩ := by
  rw [Proof.new, if_neg (by omega)]

/-- A proof passing `validate_integrity`, with the given item and position, validates. -/
theorem validate_of_integrity {A : Algorithm E} {p : Proof E} {item : E} {position : Nat}
    (hint : p.validateIntegrity A = some true) (hitem : p.item = some item)
    (hpos : p.position = position) : p.validate A item position = some (.ok ()) := by
  simp [validate, hint, hitem, hpos]

/-- The position of the path of node `i` from height `h` adds `i * 2 ^ h`, while that fits in a
`usize`. -/
theorem positionLoop_pathBits (pos h i c : Nat) (hi : i < 2 ^ c)
    (hfit : pos + i * 2 ^ h < usizeModulus) :
    positionLoop pos h (Merkle.pathBits i c) = pos + i * 2 ^ h := by
  induction c generalizing pos h i with
  | zero =>
    obtain rfl : i = 0 := by simpa using hi
    simp [Merkle.pathBits, positionLoop]
  | succ c ih =>
    have hhalf : i / 2 < 2 ^ c := by rw [pow_succ] at hi; omega
    have hpow : 2 ^ (h + 1) = 2 * 2 ^ h := by rw [pow_succ]; ring
    rcases Nat.even_or_odd' i with ⟨q, rfl | rfl⟩
    · -- a left child adds nothing at this height
      have hq : 2 * q / 2 = q := by omega
      have hrest := ih pos (h + 1) q (by rwa [hq] at hhalf) (by rw [hpow]; nlinarith)
      simp only [Merkle.pathBits, positionLoop, hq, Nat.mul_mod_right, decide_true, if_true]
      rw [hrest, hpow]; ring
    · -- a right child adds `1 << h`, which needs `h < 64` and does not wrap
      have hq : (2 * q + 1) / 2 = q := by omega
      have hP : 2 ^ h < usizeModulus := by nlinarith
      have hh : h < 64 := by
        by_contra hge
        have : 2 ^ 64 ≤ 2 ^ h := Nat.pow_le_pow_right (by norm_num) (by omega)
        unfold usizeModulus at hP; omega
      have hshl : shlOne h = 2 ^ h := by rw [shlOne, Nat.mod_eq_of_lt hh]
      have hnowrap : (pos + shlOne h) % usizeModulus = pos + 2 ^ h := by
        rw [hshl, Nat.mod_eq_of_lt (by nlinarith)]
      have hrest := ih (pos + 2 ^ h) (h + 1) q (by rwa [hq] at hhalf) (by rw [hpow]; nlinarith)
      simp only [Merkle.pathBits, positionLoop, hq, show (2 * q + 1) % 2 = 1 by omega,
        show ¬(1 = 0) by omega, decide_false, Bool.false_eq_true, if_false, hnowrap]
      rw [hrest, hpow]; ring

/-- What a successful `validate` says: the proof passes `validate_integrity`, and its item and
position are the ones given. -/
theorem validate_ok {A : Algorithm E} {p : Proof E} {item : E} {position : Nat}
    (h : p.validate A item position = some (.ok ())) :
    p.validateIntegrity A = some true ∧ p.item = some item ∧ p.position = position := by
  cases hint : p.validateIntegrity A with
  | none => simp [validate, hint] at h
  | some ok =>
    cases ok with
    | false => simp [validate, hint] at h
    | true =>
      cases hitem : p.item with
      | none => simp [validate, hint, hitem] at h
      | some x =>
        -- the two comparisons return an error unless they hold
        by_cases hx : item = x <;> by_cases hp : position = p.position <;>
          simp [validate, hint, hitem, hx, hp] at h ⊢

/-- A path of at most 64 bits from height `k` adds less than `2 ^ (k + length)`. -/
theorem positionLoop_lt (ys : List Bool) :
    ∀ pos k, k + ys.length ≤ 64 → pos < 2 ^ k → positionLoop pos k ys < 2 ^ (k + ys.length) := by
  induction ys with
  | nil => intro pos k _ hpos; simpa [positionLoop] using hpos
  | cons b ys ih =>
    intro pos k hk hpos
    simp only [List.length_cons] at hk ⊢
    have hshl : shlOne k = 2 ^ k := by rw [shlOne, Nat.mod_eq_of_lt (by omega)]
    have hnext : 2 ^ (k + 1) = 2 ^ k + 2 ^ k := by rw [pow_succ]; ring
    have hfit : pos + 2 ^ k < usizeModulus := by
      have : 2 ^ (k + 1) ≤ 2 ^ 64 := Nat.pow_le_pow_right (by decide) (by omega)
      unfold usizeModulus
      omega
    rw [show k + (ys.length + 1) = k + 1 + ys.length by omega]
    cases b with
    | true => exact ih pos (k + 1) (by omega) (by omega)
    | false =>
      simp only [positionLoop, Bool.false_eq_true, if_false, hshl, Nat.mod_eq_of_lt hfit]
      exact ih (pos + 2 ^ k) (k + 1) (by omega) (by omega)

omit [DecidableEq E] in
/-- Climbing by two runs of siblings, the first with exactly its bits, is climbing by the first
and then by the second. -/
theorem climb_append (A : Algorithm E) :
    ∀ (h : E) (xs ys : List E) (bs cs : List Bool), bs.length = xs.length →
      climb A h (xs ++ ys) (bs ++ cs) = (climb A h xs bs).bind fun h' => climb A h' ys cs
  | h, [], ys, [], cs, _ => rfl
  | h, x :: xs, ys, b :: bs, cs, hlen => by
    simp only [List.cons_append, climb]
    exact climb_append A _ xs ys bs cs (by simpa using hlen)

/-- The position of two paths one after the other: the second resumes at the height where the
first ends. -/
theorem positionLoop_append (xs ys : List Bool) :
    ∀ pos i, positionLoop pos i (xs ++ ys) = positionLoop (positionLoop pos i xs) (i + xs.length) ys := by
  induction xs with
  | nil => intro pos i; rfl
  | cons b xs ih =>
    intro pos i
    simp only [List.cons_append, positionLoop, ih, List.length_cons]
    rw [Nat.add_assoc, Nat.add_comm 1]

/-- Below 64 heights nothing wraps: the position from height `k` is `2 ^ k` times the position of
the same path from the bottom.  The induction is on the path; its step uses the hypothesis twice,
at the next height and at height one. -/
theorem positionLoop_shift (ys : List Bool) :
    ∀ pos k, k + ys.length ≤ 64 → pos < 2 ^ k →
      positionLoop pos k ys = pos + 2 ^ k * positionLoop 0 0 ys := by
  induction ys with
  | nil => intro pos k _ _; simp [positionLoop]
  | cons b ys ih =>
    intro pos k hk hpos
    simp only [List.length_cons] at hk
    have hshl : shlOne k = 2 ^ k := by rw [shlOne, Nat.mod_eq_of_lt (by omega)]
    have hfit : pos + 2 ^ k < usizeModulus := by
      have : 2 ^ (k + 1) ≤ 2 ^ 64 := Nat.pow_le_pow_right (by decide) (by omega)
      rw [pow_succ] at this
      unfold usizeModulus
      omega
    have hone : (0 + shlOne 0) % usizeModulus = 1 := by simp [shlOne, usizeModulus]
    cases b with
    | true =>
      -- a left turn adds nothing at this height
      simp only [positionLoop, if_true]
      rw [ih pos (k + 1) (by omega) (lt_of_lt_of_le hpos (Nat.pow_le_pow_right (by decide) (by omega))),
        ih 0 1 (by omega) (by decide), pow_succ]
      ring
    | false =>
      -- a right turn adds `2 ^ k`, which does not wrap
      simp only [positionLoop, Bool.false_eq_true, if_false, hshl, Nat.mod_eq_of_lt hfit]
      rw [hone, ih (pos + 2 ^ k) (k + 1) (by omega) (by rw [pow_succ]; omega),
        ih 1 1 (by omega) (by decide), pow_succ]
      ring

omit [DecidableEq E] in
/-- The path of an index decodes to the index, while it fits in a `usize`. -/
theorem position_pathBits {i c : Nat} (hi : i < 2 ^ c) (hfit : i < usizeModulus)
    (hashes : List E) : Proof.position ⟨hashes, Merkle.pathBits i c⟩ = i := by
  have := positionLoop_pathBits 0 0 i c hi (by simpa using hfit)
  simpa [position] using this

end Proof

namespace RangeProof

/-- `RangeProof::validate_integrity`, with the short circuit of `&&`. -/
def validateIntegrity (A : Algorithm E) (rp : RangeProof E) : Option Bool := do
  if !(← rp.leftProof.validateIntegrity A) then return false
  if !(← rp.rightProof.validateIntegrity A) then return false
  let leftRoot ← rp.leftProof.root
  let rightRoot ← rp.rightProof.root
  return decide (leftRoot = rightRoot) && rp.leftProof.path.length == rp.rightProof.path.length

/-- `RangeProof::root`. -/
def root (rp : RangeProof E) : Option E := rp.leftProof.root

/-- The parents of `chunks_exact(2)` of a layer slice, and the slice's remainder. -/
def chunkParents (A : Algorithm E) : List E → List E × Option E
  | left :: right :: rest => (A.parent left right :: (chunkParents A rest).1, (chunkParents A rest).2)
  | [r] => ([], some r)
  | [] => ([], none)

omit [DecidableEq E] in
/-- `chunks_exact(2)` pairs the longest even prefix, and leaves the last node of an odd slice. -/
theorem chunkParents_eq (A : Algorithm E) (pad : Nat → E → E) (k : Nat) :
    ∀ ys : List E, chunkParents A ys = (Merkle.pairUp A.parent pad k (ys.take (2 * (ys.length / 2))),
      if ys.length % 2 = 1 then ys.getLast? else none)
  | [] => by simp [chunkParents]
  | [r] => by simp [chunkParents]
  | a :: b :: rest => by
    rw [chunkParents, chunkParents_eq A pad k rest]
    have htake : 2 * ((rest.length + 2) / 2) = 2 * (rest.length / 2) + 2 := by omega
    simp only [List.length_cons, Nat.add_assoc, Nat.reduceAdd, htake, List.take_succ_cons,
      Merkle.pairUp_cons_cons, Nat.add_mod_right, Prod.mk.injEq, true_and]
    split_ifs with hodd
    · have hrest : rest ≠ [] := by rintro rfl; simp at hodd
      simp [List.getLast?_cons, List.getLast?_eq_some_getLast hrest]
    · rfl

/-- The start of a turn of the `for height in 0..(tree_depth - 1)` loop: a left-most right child
is paired with its sibling from the left proof, and the chunks start after it. -/
def leftMostParent (A : Algorithm E) (rp : RangeProof E) (height : Nat) (childrenLayer : List E) :
    Option (List E × Nat) := do
  if !(← rp.leftProof.path[height]?) then
    let sibling ← rp.leftProof.lemma[height + 1]?
    let child ← childrenLayer[0]?
    pure ([A.parent sibling child], 1)
  else pure ([], 0)

/-- `if let [right_most] = iter.remainder()`: a right-most left child is paired with its sibling
from the right proof; a right-most right child is an error. -/
def rightMostParent (A : Algorithm E) (rp : RangeProof E) (height : Nat) :
    Option E → Option (Except String (List E))
  | none => some (.ok [])
  | some rightMost => do
    if (← rp.rightProof.path[height]?) then
      let sibling ← rp.rightProof.lemma[height + 1]?
      pure (.ok [A.parent rightMost sibling])
    else pure (.error "Unexpected error")

/-- One turn of the loop: the parent layer of the range. -/
def parentLayer (A : Algorithm E) (rp : RangeProof E) (height : Nat) (childrenLayer : List E) :
    Option (Except String (List E)) := do
  let (first, startIndex) ← leftMostParent A rp height childrenLayer
  let (pairs, remainder) := chunkParents A (childrenLayer.drop startIndex)
  match ← rightMostParent A rp height remainder with
  | .error e => pure (.error e)
  | .ok last => pure (.ok (first ++ pairs ++ last))

/-- The loop over `count` heights from `height`. -/
def rebuild (A : Algorithm E) (rp : RangeProof E) : Nat → Nat → List E →
    Option (Except String (List E))
  | _, 0, childrenLayer => some (.ok childrenLayer)
  | height, count + 1, childrenLayer => do
    match ← parentLayer A rp height childrenLayer with
    | .error e => pure (.error e)
    | .ok parents => rebuild A rp (height + 1) count parents

/-- `RangeProof::validate`. -/
def validate (A : Algorithm E) (rp : RangeProof E) (rangeLeaves : List E) (startPosition : Nat) :
    Option (Except String Unit) := do
  if !(← rp.validateIntegrity A) then return .error "Invalid range proof"
  if rangeLeaves.isEmpty then return .error "Empty range"
  let endPosition := (startPosition + rangeLeaves.length - 1) % usizeModulus
  let leftItem ← rp.leftProof.item
  let firstLeaf ← rangeLeaves[0]?
  if leftItem ≠ firstLeaf then
    return .error (ensureEqMessage 127 "self.left_proof.item()" "range_leaves[0]")
  let rightItem ← rp.rightProof.item
  let lastLeaf ← rangeLeaves.getLast?
  if rightItem ≠ lastLeaf then
    return .error (ensureEqMessage 128 "self.right_proof.item()"
      "*range_leaves.last().expect(\"not empty\")")
  if rp.leftProof.position ≠ startPosition then
    return .error (ensureEqMessage 132 "self.left_proof.position()" "start_position")
  if rp.rightProof.position ≠ endPosition then
    return .error (ensureEqMessage 133 "self.right_proof.position()" "end_position")
  match ← rebuild A rp 0 rp.leftProof.path.length rangeLeaves with
  | .error e => pure (.error e)
  | .ok childrenLayer =>
    -- assert_eq!(children_layer.len(), 1)
    if childrenLayer.length ≠ 1 then none
    else do
      let computedRoot ← childrenLayer.getLast?
      let root ← rp.root
      if computedRoot ≠ root then
        return .error (ensureEqMessage 163 "computed_root" "self.root()")
      return .ok ()

end RangeProof

/-- A decoded proof whose path is shorter than its lemma's middle makes `Proof::validate` panic
on `path[0]`; a range proof whose two proofs pass `validate_integrity` but whose paths are longer
than their lemmas makes `RangeProof::validate` panic on `lemma[2]`. -/
theorem validate_short_path_panics (A : Algorithm E) (h leaf : E) (n : Nat) :
    Proof.validate A ⟨[h, h, h], []⟩ leaf n = none ∧
      RangeProof.validate A ⟨⟨[h, h], [false, false]⟩, ⟨[h, h], [false, false]⟩⟩ [h] 3 = none := by
  constructor
  · rw [Proof.validate_eq_none_iff]; simp
  · simp [RangeProof.validate, RangeProof.validateIntegrity, Proof.validateIntegrity, Proof.climb,
      Proof.item, Proof.root, Proof.position, Proof.positionLoop, shlOne, usizeModulus,
      RangeProof.rebuild, RangeProof.parentLayer, RangeProof.leftMostParent,
      RangeProof.rightMostParent, RangeProof.chunkParents]

end Ionian.AppendMerkle
