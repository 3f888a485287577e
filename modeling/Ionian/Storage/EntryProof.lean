import Ionian.AppendMerkle.Proof
import Ionian.AppendMerkle.Incremental

/-!
# Storage.EntryProof — the proof of an entry, from its chunk's tree and the top tree

The flow tree is a top tree over the roots of the chunks of `PORA_CHUNK_SIZE` entries.  A proof of
an entry joins the proof of the entry in its chunk's tree (`sub_proof`) to the proof of the
chunk's root in the top tree (`top_proof`).  `entry_proof` drops the chunk's root from the first
and the top item from the second, so it keeps each only once, and joins the paths.

For proofs whose paths have one bit per middle node, as `Proof::new` builds them, and a joined
path of at most 64 bits, the joined proof validates the entry at `c * PORA_CHUNK_SIZE + i` under
the top root (`entryProof_validate`).  `Proof::validate` does not check that a path is no longer
than its lemma's middle, and `entry_proof` does not either: a sub proof of ten bits whose lemma
is only the leaf and the root validates, and then `Proof::new` panics on the joined lengths
(`entryProof_short_lemma_panics`).
-/

namespace Ionian.Storage

open AppendMerkle

variable {E : Type} [DecidableEq E]

/-- `log2(PORA_CHUNK_SIZE)`: the height of a chunk's tree. -/
def poraChunkHeight : Nat := 10

/-- `entry_proof(top_proof, sub_proof)`; the `Debug` texts of the two nodes in the mismatch
message are left out. -/
def entryProof (topProof subProof : Proof E) : Option (Except String (Proof E)) := do
  let topItem ← topProof.item
  let subRoot ← subProof.root
  if topItem ≠ subRoot then return .error "top tree and sub tree mismatch"
  -- `lemma.pop()` succeeds, as `root()` found a node; `lemma()[1..]` too, as `item()` did
  let p ← Proof.new (subProof.lemma.dropLast ++ topProof.lemma.drop 1)
    (subProof.path ++ topProof.path)
  return .ok p

omit [DecidableEq E] in
/-- A well-formed proof, as `Proof::new` builds it, in parts: the item, one sibling per bit of
the path, and the root. -/
theorem Proof.eq_of_length {p : Proof E} (hlen : p.lemma.length = p.path.length + 2) :
    ∃ x mid r, p.lemma = x :: (mid ++ [r]) ∧ mid.length = p.path.length := by
  match hl : p.lemma with
  | [] => rw [hl] at hlen; simp at hlen
  | [x] => rw [hl] at hlen; simp at hlen
  | x :: y :: ys =>
    have hne : y :: ys ≠ [] := List.cons_ne_nil y ys
    refine ⟨x, (y :: ys).dropLast, (y :: ys).getLast hne, by rw [List.dropLast_append_getLast], ?_⟩
    rw [hl] at hlen
    simp only [List.length_dropLast, List.length_cons] at hlen ⊢
    omega

/-- A proof passes `validate_integrity` when the climb from its item by its siblings ends at its
root. -/
theorem validateIntegrity_of_climb {A : Algorithm E} {p : Proof E} {x r : E} {mid : List E}
    (hl : p.lemma = x :: (mid ++ [r])) :
    p.validateIntegrity A = (Proof.climb A x mid p.path).map fun h => decide (h = r) := by
  rw [Proof.validateIntegrity_cons A hl (by simp), List.dropLast_concat, List.getLast_concat]

/-- The converse: a proof that passes `validate_integrity` climbs from its item to its root. -/
theorem climb_of_validateIntegrity {A : Algorithm E} {p : Proof E} {x r : E} {mid : List E}
    (hl : p.lemma = x :: (mid ++ [r])) (hint : p.validateIntegrity A = some true) :
    Proof.climb A x mid p.path = some r := by
  rw [validateIntegrity_of_climb hl] at hint
  obtain ⟨h, hh, hdec⟩ := Option.map_eq_some_iff.mp hint
  rw [hh, of_decide_eq_true hdec]

section Join

variable {A : Algorithm E} {topProof subProof : Proof E} {leaf topItem : E} {i c : Nat}

/-- **A joined proof validates the entry in the flow.**  A sub proof of the chunk's height and a
top proof, both well-formed, the top item the chunk's root, and together at most 64 bits of
path: if the sub proof validates the leaf at `i` and the top proof its item at `c`, then
`entry_proof` returns a proof that validates the leaf at `c * PORA_CHUNK_SIZE + i`, with the top
root. -/
theorem entryProof_validate (hsub : subProof.path.length = poraChunkHeight)
    (hsubw : subProof.lemma.length = subProof.path.length + 2)
    (htopw : topProof.lemma.length = topProof.path.length + 2)
    (hfit : subProof.path.length + topProof.path.length ≤ 64)
    (htop : topProof.item = some topItem) (hitem : topProof.item = subProof.root)
    (hs : subProof.validate A leaf i = some (.ok ()))
    (ht : topProof.validate A topItem c = some (.ok ())) :
    ∃ p, entryProof topProof subProof = some (.ok p) ∧
      p.validate A leaf (c * 2 ^ poraChunkHeight + i) = some (.ok ()) ∧ p.root = topProof.root := by
  obtain ⟨x, midS, rS, hlS, hmidS⟩ := Proof.eq_of_length hsubw
  obtain ⟨y, midT, rT, hlT, hmidT⟩ := Proof.eq_of_length htopw
  obtain ⟨hintS, hitemS, hposS⟩ := Proof.validate_ok hs
  obtain ⟨hintT, -, hposT⟩ := Proof.validate_ok ht
  -- the leaf heads the sub proof, and the chunk's root heads the top proof
  have hx : x = leaf := by
    rw [Proof.item, hlS, List.head?_cons] at hitemS
    exact Option.some.inj hitemS
  have hy : y = rS := by
    rw [Proof.item, hlT, List.head?_cons, Proof.root, hlS, ← List.cons_append,
      List.getLast?_concat] at hitem
    exact Option.some.inj hitem
  have hclimbS := climb_of_validateIntegrity hlS hintS
  have hclimbT := climb_of_validateIntegrity hlT hintT
  rw [hy] at hclimbT
  -- the joined lemma: the leaf, both runs of siblings, and the top root
  have hjoin : subProof.lemma.dropLast ++ topProof.lemma.drop 1 = x :: ((midS ++ midT) ++ [rT]) := by
    rw [hlS, hlT, ← List.cons_append, List.dropLast_concat, List.drop_one, List.tail_cons]
    simp
  have hnew : Proof.new (subProof.lemma.dropLast ++ topProof.lemma.drop 1)
      (subProof.path ++ topProof.path) =
      some ⟨x :: ((midS ++ midT) ++ [rT]), subProof.path ++ topProof.path⟩ := by
    rw [hjoin]
    exact Proof.new_of_length (by simp; omega)
  have hroot : subProof.root = some topItem := hitem ▸ htop
  have hentry : entryProof topProof subProof =
      some (.ok ⟨x :: ((midS ++ midT) ++ [rT]), subProof.path ++ topProof.path⟩) := by
    rw [entryProof, htop, hroot]
    simp only [Option.bind_eq_bind, Option.bind_some, ne_eq, not_true_eq_false, if_false, hnew]
    rfl
  refine ⟨_, hentry, Proof.validate_of_integrity ?_ (by rw [Proof.item, List.head?_cons, hx]) ?_, ?_⟩
  · -- the climb goes through the chunk's root to the top root
    rw [validateIntegrity_of_climb (p := ⟨x :: ((midS ++ midT) ++ [rT]), subProof.path ++ topProof.path⟩) rfl]
    dsimp only
    rw [Proof.climb_append A x midS midT subProof.path topProof.path (by omega), hclimbS,
      Option.bind_some, hclimbT]
    simp
  · -- the position of the joined path: `i`, then the top position from the chunk's height
    have hi : Proof.positionLoop 0 0 subProof.path < 2 ^ subProof.path.length := by
      simpa using Proof.positionLoop_lt subProof.path 0 0 (by omega) (by decide)
    rw [← hposS, ← hposT]
    simp only [Proof.position]
    rw [Proof.positionLoop_append, Nat.zero_add, Proof.positionLoop_shift _ _ _ (by omega) hi, hsub]
    ring
  · show (x :: (midS ++ midT ++ [rT])).getLast? = topProof.lemma.getLast?
    rw [hlT, ← List.cons_append (a := x), ← List.cons_append (a := y), List.getLast?_concat,
      List.getLast?_concat]

/-- A sub proof of ten bits over the leaf `0` with ten zero siblings (root `10` under
`a + b + 1`), at position `3`, and a top proof of one bit at position `1`: the joined proof
validates the leaf at `1027`. -/
theorem entryProof_validate_example :
    (⟨0 :: (List.replicate 10 0 ++ [10]), [false, false] ++ List.replicate 8 true⟩ :
        Proof Nat).path.length = poraChunkHeight ∧
      (⟨0 :: (List.replicate 10 0 ++ [10]), [false, false] ++ List.replicate 8 true⟩ :
        Proof Nat).lemma.length = 12 ∧
      (⟨[10, 0, 11], [false]⟩ : Proof Nat).lemma.length = 3 ∧
      (⟨[10, 0, 11], [false]⟩ : Proof Nat).item = some 10 ∧
      (⟨[10, 0, 11], [false]⟩ : Proof Nat).item =
        (⟨0 :: (List.replicate 10 0 ++ [10]), [false, false] ++ List.replicate 8 true⟩ :
          Proof Nat).root ∧
      (⟨0 :: (List.replicate 10 0 ++ [10]), [false, false] ++ List.replicate 8 true⟩ :
        Proof Nat).validate natAlgorithm 0 3 = some (.ok ()) ∧
      (⟨[10, 0, 11], [false]⟩ : Proof Nat).validate natAlgorithm 10 1 = some (.ok ()) ∧
      ∃ p, entryProof ⟨[10, 0, 11], [false]⟩
          ⟨0 :: (List.replicate 10 0 ++ [10]), [false, false] ++ List.replicate 8 true⟩ =
            some (.ok p) ∧
        p.validate natAlgorithm 0 (1 * 2 ^ poraChunkHeight + 3) = some (.ok ()) ∧
        p.root = Proof.root (⟨[10, 0, 11], [false]⟩ : Proof Nat) :=
  ⟨rfl, rfl, rfl, rfl, rfl, rfl, rfl,
    entryProof_validate rfl rfl rfl (by decide) rfl rfl rfl rfl⟩

end Join

/-- **A proof that validates but does not join.**  A sub proof with ten bits of path whose lemma
is only the leaf and the root validates, as the climb reads no bit, and so does a top proof of
the one node; `entry_proof` then joins a lemma of two nodes to ten bits, and `Proof::new` panics
on its length check. -/
theorem entryProof_short_lemma_panics (A : Algorithm E) (x : E) :
    (⟨[x, x], List.replicate 10 true⟩ : Proof E).path.length = poraChunkHeight ∧
      (⟨[x, x], []⟩ : Proof E).item = (⟨[x, x], List.replicate 10 true⟩ : Proof E).root ∧
      (⟨[x, x], List.replicate 10 true⟩ : Proof E).validate A x 0 = some (.ok ()) ∧
      (⟨[x, x], []⟩ : Proof E).validate A x 0 = some (.ok ()) ∧
      entryProof (⟨[x, x], []⟩ : Proof E) ⟨[x, x], List.replicate 10 true⟩ = none := by
  refine ⟨rfl, rfl, ?_, ?_, ?_⟩
  · simp [Proof.validate, Proof.validateIntegrity, Proof.climb, Proof.item, Proof.root,
      Proof.position, Proof.positionLoop]
  · simp [Proof.validate, Proof.validateIntegrity, Proof.climb, Proof.item, Proof.root,
      Proof.position, Proof.positionLoop]
  · simp [entryProof, Proof.new, Proof.item, Proof.root]

/-- The panic at the hash algorithm of the tests and the node `0`. -/
theorem entryProof_short_lemma_panics_natAlgorithm :
    (⟨[0, 0], List.replicate 10 true⟩ : Proof Nat).path.length = poraChunkHeight ∧
      (⟨[0, 0], []⟩ : Proof Nat).item = (⟨[0, 0], List.replicate 10 true⟩ : Proof Nat).root ∧
      (⟨[0, 0], List.replicate 10 true⟩ : Proof Nat).validate natAlgorithm 0 0 = some (.ok ()) ∧
      (⟨[0, 0], []⟩ : Proof Nat).validate natAlgorithm 0 0 = some (.ok ()) ∧
      entryProof (⟨[0, 0], []⟩ : Proof Nat) ⟨[0, 0], List.replicate 10 true⟩ = none :=
  entryProof_short_lemma_panics natAlgorithm 0

end Ionian.Storage
