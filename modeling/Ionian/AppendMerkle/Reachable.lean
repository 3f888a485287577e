import Ionian.AppendMerkle.Consistent
import Ionian.AppendMerkle.ProofGen

/-!
# AppendMerkle.Reachable — proofs of every tree the operations build

The trees reachable from `new` and `new_with_depth` by `append`, `append_list`, `update_last` and
`append_subtree` keep one invariant (`ReachInv`): either every layer covers the known parents of the
one below and the top layer has at most one node, or some leaf before the last one is unknown.  The
second case is final, since the operations only change the last leaf or add leaves after it; a
subtree of depth two or more leaves its `null` leaves there.  In the first case a tree whose nodes
are all known is canonical (`canonical_of_consistent`), so the proofs of the generator validate.
-/

namespace Ionian.AppendMerkle

open HashElement Merkle

variable {E : Type} [HashElement E] [DecidableEq E]

namespace AppendMerkleTree

/-! ## What the operations leave alone -/

section Frame

variable {A : Algorithm E}

omit [HashElement E] in
/-- `commit` only records a version. -/
theorem commit_layers {t t' : AppendMerkleTree E} {txSeq : Option Nat}
    (h : commit t txSeq = some t') : t'.layers = t.layers ∧ t'.leafHeight = t.leafHeight := by
  unfold commit at h
  split at h
  · cases h; exact ⟨rfl, rfl⟩
  · split at h
    · cases h
    · cases h; exact ⟨rfl, rfl⟩
    · split at h
      · split_ifs at h
        cases h; exact ⟨rfl, rfl⟩
      · cases h

omit [HashElement E] [DecidableEq E] in
@[simp] theorem layers_withEmptyVersion (t : AppendMerkleTree E) (txSeq : Option Nat) :
    (t.withEmptyVersion txSeq).layers = t.layers := by
  cases txSeq <;> rfl

omit [HashElement E] [DecidableEq E] in
@[simp] theorem leafHeight_withEmptyVersion (t : AppendMerkleTree E) (txSeq : Option Nat) :
    (t.withEmptyVersion txSeq).leafHeight = t.leafHeight := by
  cases txSeq <;> rfl

/-- A pass writes above the leaves. -/
theorem recomputePass_leaves {leafHeight : Nat} {ls ls' : List (List E)} {k a : Nat}
    {m m' : Option Nat} (h : recomputePass A leafHeight ls k a m = some (ls', m')) :
    ls'[0]? = ls[0]? := by
  unfold recomputePass at h
  split at h
  · cases h
  · simp only at h
    split_ifs at h
    · cases h; rfl
    · split at h
      · cases h
      · obtain ⟨r, -, heq⟩ := Option.map_eq_some_iff.mp h
        simp only [Prod.mk.injEq] at heq
        rw [← heq.1, List.getElem?_set_ne (by omega), getElem?_beforeExtendLayer_ne _ (by omega)]

/-- `recompute` keeps the leaves. -/
theorem recompute_leaves {t t' : AppendMerkleTree E} {s : Nat} {m : Option Nat}
    (h : recompute A t s m = some t') :
    t'.layers[0]? = t.layers[0]? ∧ t'.leafHeight = t.leafHeight := by
  obtain ⟨res, hloop, rfl⟩ := Option.map_eq_some_iff.mp h
  obtain ⟨-, -, -, hres, -⟩ := recomputeLoop_invariant A t.leafHeight
    (fun ls _ _ _ => ls[0]? = t.layers[0]?)
    (fun _ _ _ _ _ _ _ _ _ hi hp => (recomputePass_leaves hp).trans hi) rfl hloop
  exact ⟨hres, rfl⟩

end Frame

/-! ## `append_subtree_inner` -/

section Subtree

omit [DecidableEq E] in
theorem foldl_pushNulls_none (d : Nat) (hs : List Nat) :
    hs.foldl (pushNulls (E := E) d) none = none := by
  induction hs with
  | nil => rfl
  | cons h hs ih => exact ih

omit [DecidableEq E] in
/-- A round of the loop changes only the layer at its height. -/
theorem getElem?_pushNulls_ne {d h i : Nat} {ls ls' : List (List E)} (hi : i ≠ h)
    (hp : pushNulls d (some ls) h = some ls') : ls'[i]? = ls[i]? := by
  obtain ⟨layer, -, rfl⟩ := Option.map_eq_some_iff.mp hp
  rw [List.getElem?_set_ne (Ne.symm hi), getElem?_beforeExtendLayer_ne _ hi]

omit [DecidableEq E] in
/-- The rounds above height zero keep the leaves. -/
theorem foldl_pushNulls_leaves (d : Nat) {hs : List Nat} (hpos : ∀ h ∈ hs, 1 ≤ h) :
    ∀ {ls ls' : List (List E)}, hs.foldl (pushNulls d) (some ls) = some ls' → ls'[0]? = ls[0]? := by
  induction hs with
  | nil => intro ls ls' hf; cases hf; rfl
  | cons h hs ih =>
    intro ls ls' hf
    rw [List.foldl_cons] at hf
    cases hp : pushNulls d (some ls) h with
    | none => rw [hp, foldl_pushNulls_none] at hf; cases hf
    | some ls₁ =>
      rw [hp] at hf
      rw [ih (fun h' hh' => hpos h' (List.mem_cons_of_mem _ hh')) hf,
        getElem?_pushNulls_ne (by have := hpos h List.mem_cons_self; omega) hp]

omit [DecidableEq E] in
/-- The round at height zero appends the `null` leaves. -/
theorem pushNulls_zero (d : Nat) (L : List E) (rest : List (List E)) :
    pushNulls d (some (L :: rest)) 0 =
      some ((L ++ List.replicate (shlOne (d - 1)) null) :: rest) := by
  simp [pushNulls, beforeExtendLayer]

omit [HashElement E] [DecidableEq E] in
theorem leaves_eq {t : AppendMerkleTree E} {L : List E} {rest : List (List E)}
    (ht : t.layers = L :: rest) : t.leaves = some L.length := by
  simp [leaves, ht]

omit [DecidableEq E] in
/-- An error of `append_subtree_inner` leaves the tree as it was. -/
theorem appendSubtreeInner_error {t t' : AppendMerkleTree E} {d : Nat} {r : E} {e : String}
    (h : appendSubtreeInner t d r = some (t', .error e)) : t' = t := by
  unfold appendSubtreeInner at h
  split at h
  · cases h
  · split_ifs at h
    · cases h; rfl
    · cases h; rfl
    · split at h
      · cases h
      · obtain ⟨_, -, heq⟩ := Option.map_eq_some_iff.mp h
        cases heq

omit [DecidableEq E] in
theorem pos_of_appendSubtreeInner {t t' : AppendMerkleTree E} {d : Nat} {r : E}
    (h : appendSubtreeInner t d r = some (t', .ok ())) : 0 < d := by
  unfold appendSubtreeInner at h
  split at h
  · cases h
  · split_ifs at h with hd
    · cases h
    all_goals omega

omit [DecidableEq E] in
/-- A subtree of depth one is a leaf appended. -/
theorem appendSubtreeInner_one {t t' : AppendMerkleTree E} {L : List E} {rest : List (List E)}
    {r : E} {res : Except String Unit} (ht : t.layers = L :: rest)
    (h : appendSubtreeInner t 1 r = some (t', res)) :
    t' = { t with layers := (L ++ [r]) :: rest } := by
  simp [appendSubtreeInner, leaves_eq ht, shlOne, ht, beforeExtendLayer, Nat.mod_one] at h
  exact h.1.symm

omit [DecidableEq E] in
/-- A deeper subtree adds `1 << (subtree_depth - 1)` unknown leaves. -/
theorem appendSubtreeInner_leaves {t t' : AppendMerkleTree E} {L : List E}
    {rest : List (List E)} {d : Nat} {r : E} (ht : t.layers = L :: rest) (hd : 2 ≤ d)
    (h : appendSubtreeInner t d r = some (t', .ok ())) :
    t'.layers[0]? = some (L ++ List.replicate (shlOne (d - 1)) null) := by
  have hrange : List.range (d - 1) = 0 :: (List.range (d - 2)).map Nat.succ := by
    rw [show d - 1 = d - 2 + 1 by omega, List.range_succ_eq_map]
  unfold appendSubtreeInner at h
  rw [leaves_eq ht] at h
  dsimp only at h
  rw [if_neg (by omega)] at h
  split_ifs at h
  · cases h
  split at h
  · cases h
  · rename_i layers hfold
    rw [hrange, List.foldl_cons, ht, pushNulls_zero] at hfold
    have h0 := foldl_pushNulls_leaves d (by simp) hfold
    obtain ⟨layer, -, heq⟩ := Option.map_eq_some_iff.mp h
    simp only [Prod.mk.injEq] at heq
    rw [← heq.1, List.getElem?_set_ne (by omega), getElem?_beforeExtendLayer_ne _ (by omega), h0]
    rfl

end Subtree

/-! ## The invariant of reachable trees -/

section Invariant

variable {A : Algorithm E}

/-- A leaf before the last one is unknown: no operation can make it known again. -/
def StuckNull (t : AppendMerkleTree E) : Prop :=
  ∃ L i, t.layers[0]? = some L ∧ i + 1 < L.length ∧ L[i]? = some null

/-- What every reachable tree satisfies. -/
def ReachInv (A : Algorithm E) (t : AppendMerkleTree E) : Prop :=
  (Consistent A t.leafHeight t.layers ∧ TopSmall t.layers) ∨ StuckNull t

theorem reachInv_of_layers {t t' : AppendMerkleTree E} (hl : t'.layers = t.layers)
    (hh : t'.leafHeight = t.leafHeight) (hinv : ReachInv A t) : ReachInv A t' := by
  unfold ReachInv StuckNull
  rwa [hl, hh]

/-- Layers without nodes, as `new` and `new_with_depth` start from. -/
theorem consistent_replicate_nil (leafHeight n : Nat) :
    Consistent A leafHeight (List.replicate n []) := by
  intro j lo hi hlo hhi
  obtain rfl := List.eq_of_mem_replicate (List.mem_of_getElem? hlo)
  obtain rfl := List.eq_of_mem_replicate (List.mem_of_getElem? hhi)
  exact ⟨rfl, fun i x hx => by simp [knownParents] at hx⟩

omit [HashElement E] [DecidableEq E] in
theorem topSmall_replicate_nil (n : Nat) : TopSmall (List.replicate n ([] : List E)) := by
  intro top htop
  obtain rfl := List.eq_of_mem_replicate (List.mem_of_getLast? htop)
  simp

theorem reachInv_of_replicate_nil {t : AppendMerkleTree E} {n : Nat}
    (ht : t.layers = List.replicate n []) : ReachInv A t :=
  Or.inl ⟨ht ▸ consistent_replicate_nil _ n, ht ▸ topSmall_replicate_nil n⟩

/-- `recompute` of fresh leaves under empty layers, as in `new` and `new_with_depth`. -/
theorem reachInv_recompute_fresh {t₁ t' : AppendMerkleTree E} {L' : List E} {n : Nat}
    (ht₁ : t₁.layers = L' :: List.replicate n []) (h : recompute A t₁ 0 none = some t') :
    ReachInv A t' :=
  Or.inl (recompute_consistent (consistent_replicate_nil _ (n + 1)) (topSmall_replicate_nil (n + 1))
    ht₁ (by simp) le_rfl (by simp) h)

/-- A change of the leaves from index `s` on, with `recompute` from `s`, keeps the invariant;
`s` is at least the index of the old last leaf, so an unknown leaf before it stays. -/
theorem reachInv_recompute {t t₁ t' : AppendMerkleTree E} {L L' : List E}
    {rest : List (List E)} {s : Nat} (hinv : ReachInv A t) (ht : t.layers = L :: rest)
    (h : recompute A t₁ s none = some t') (ht₁ : t₁.layers = L' :: rest)
    (hh : t₁.leafHeight = t.leafHeight) (hagree : L'.take s = L.take s) (hs : s ≤ L.length)
    (hs' : L.length ≤ s + 1) (hLL : L.length ≤ L'.length) : ReachInv A t' := by
  rcases hinv with ⟨hc, htop⟩ | ⟨L₀, i, h0, hi, hnull⟩
  · rw [ht, ← hh] at hc
    rw [ht] at htop
    exact Or.inl (recompute_consistent hc htop ht₁ hagree hs hLL h)
  · rw [ht, List.getElem?_cons_zero, Option.some.injEq] at h0
    subst h0
    refine Or.inr ⟨L', i, ?_, by omega, ?_⟩
    · rw [(recompute_leaves h).1, ht₁, List.getElem?_cons_zero]
    · rw [getElem?_eq_of_take_eq hagree (by omega), hnull]

theorem reachInv_new {leaves : List E} {leafHeight : Nat} {startTxSeq : Option Nat}
    {t : AppendMerkleTree E} (h : new A leaves leafHeight startTxSeq = some t) : ReachInv A t := by
  unfold new at h
  split at h
  · cases h
    exact reachInv_of_replicate_nil (n := 1) (by simp_all [ofLeaves])
  · obtain ⟨t₁, hr, hc⟩ := Option.bind_eq_some_iff.mp h
    have hc := commit_layers hc
    exact reachInv_of_layers hc.1 hc.2 (reachInv_recompute_fresh (n := 0) rfl hr)

theorem reachInv_newWithDepth {leaves : List E} {depth : Nat} {startTxSeq : Option Nat}
    {t : AppendMerkleTree E} (h : newWithDepth A leaves depth startTxSeq = some t) :
    ReachInv A t := by
  unfold newWithDepth at h
  split_ifs at h with hl hd
  · cases h
    exact reachInv_of_replicate_nil (n := depth) (by simp)
  · dsimp only at h
    obtain ⟨t₁, hr, hc⟩ := Option.bind_eq_some_iff.mp h
    have hc := commit_layers hc
    exact reachInv_of_layers hc.1 hc.2 (reachInv_recompute_fresh rfl hr)

theorem reachInv_append {t t' : AppendMerkleTree E} {newLeaf : E} (hinv : ReachInv A t)
    (h : append A t newLeaf = some t') : ReachInv A t' := by
  unfold append at h
  split at h
  · cases h
  · rename_i L rest ht
    exact reachInv_recompute hinv ht h rfl rfl (by simp) le_rfl (by omega) (by simp)

theorem reachInv_appendList {t t' : AppendMerkleTree E} {leafList : List E}
    (hinv : ReachInv A t) (h : appendList A t leafList = some t') : ReachInv A t' := by
  unfold appendList at h
  split at h
  · cases h
  · rename_i L rest ht
    exact reachInv_recompute hinv ht h rfl rfl (by simp) le_rfl (by omega) (by simp)

theorem reachInv_updateLast {t t' : AppendMerkleTree E} {updatedLeaf : E} (hinv : ReachInv A t)
    (h : updateLast A t updatedLeaf = some t') : ReachInv A t' := by
  unfold updateLast at h
  split at h
  · cases h
  · rename_i L rest ht
    simp only at h
    by_cases hL : L = []
    · subst hL
      simp only [if_true, List.length_singleton, Nat.sub_self] at h
      exact reachInv_recompute hinv ht h rfl rfl (by simp) le_rfl (by simp) (by simp)
    · simp only [if_neg hL, List.length_set] at h
      refine reachInv_recompute hinv ht h rfl rfl ?_ (by omega) (by omega) (by simp)
      rw [List.take_set, List.set_eq_of_length_le
        (by simp : (L.take (L.length - 1)).length ≤ L.length - 1)]

/-- `append_subtree`, where `1 << (subtree_depth - 1)` does not overflow. -/
theorem reachInv_appendSubtree {t t' : AppendMerkleTree E} {d : Nat} {r : E}
    {res : Except String Unit} (hinv : ReachInv A t) (hd : d ≤ 64)
    (h : appendSubtree A t d r = some (t', res)) : ReachInv A t' := by
  unfold appendSubtree at h
  split at h
  · cases h
  · rename_i n hn
    obtain ⟨L, rest, ht⟩ : ∃ L rest, t.layers = L :: rest := by
      unfold leaves at hn
      cases hl : t.layers with
      | nil => simp [hl] at hn
      | cons L rest => exact ⟨L, rest, rfl⟩
    rw [leaves_eq ht, Option.some.injEq] at hn
    subst hn
    split at h
    · cases h
    · cases h
      rename_i t₁ e hin
      rwa [appendSubtreeInner_error hin]
    · rename_i t₁ hin
      obtain ⟨t₂, hr, heq⟩ := Option.map_eq_some_iff.mp h
      obtain ⟨rfl, -⟩ := Prod.mk.injEq _ _ _ _ ▸ heq
      have hd0 := pos_of_appendSubtreeInner hin
      rcases Nat.lt_or_ge d 2 with hd1 | hd2
      · -- depth one: the root is appended as a leaf
        obtain rfl : d = 1 := by omega
        rw [appendSubtreeInner_one ht hin] at hr
        exact reachInv_recompute hinv ht hr rfl rfl (by simp) le_rfl (by omega) (by simp)
      · -- the first new leaf is unknown and a second one follows it
        have hk : 2 ≤ shlOne (d - 1) := by
          have : (d - 1) % 64 = d - 1 := Nat.mod_eq_of_lt (by omega)
          unfold shlOne
          rw [this]
          calc 2 = 2 ^ 1 := rfl
            _ ≤ 2 ^ (d - 1) := Nat.pow_le_pow_right two_pos (by omega)
        refine Or.inr ⟨L ++ List.replicate (shlOne (d - 1)) null, L.length, ?_, by simp; omega, ?_⟩
        · rw [(recompute_leaves hr).1, appendSubtreeInner_leaves ht hd2 hin]
        · rw [List.getElem?_append_right le_rfl, Nat.sub_self, List.getElem?_replicate,
            if_pos (by omega)]

end Invariant

/-! ## Trees of known nodes -/

section Complete

variable {A : Algorithm E}

/-- Over known nodes, the parents `recompute` computes are those of `parent` and
`parent_single`. -/
theorem knownParents_of_known (leafHeight k : Nat) :
    ∀ {xs : List E}, (∀ x ∈ xs, x ≠ null) →
      knownParents A leafHeight k xs = pairUp A.parent (padParent A leafHeight) k xs
  | [], _ => rfl
  | [a], h => by
    simp [knownParents, remainderParent_of_ne leafHeight (h a (by simp))]
  | a :: b :: rest, h => by
    have hrest : knownParents A leafHeight k rest = pairUp A.parent (padParent A leafHeight) k rest :=
      knownParents_of_known leafHeight k (fun x hx => h x (by simp [hx]))
    simp only [knownParents, pairUp_cons_cons] at hrest ⊢
    rw [pairParent_of_ne (h a (by simp)) (h b (by simp)), hrest]

omit [DecidableEq E] in
/-- A layer that covers parents all known is those parents. -/
theorem eq_of_covers {P upper : List E} (hc : Covers P upper) (hP : ∀ x ∈ P, x ≠ null) :
    upper = P := by
  apply List.ext_getElem?
  intro i
  cases hPi : P[i]? with
  | none =>
    rw [List.getElem?_eq_none_iff] at hPi ⊢
    rw [hc.1]
    exact hPi
  | some x => exact hc.2 i x hPi (hP x (List.mem_of_getElem? hPi))

/-- Layer `j` of a consistent tree of known nodes is layer `j` above its leaves. -/
theorem getElem_of_consistent (hpar : ∀ a b, A.parent a b ≠ null) {leafHeight : Nat}
    {ls : List (List E)} {L : List E} (hc : Consistent A leafHeight ls)
    (hknown : ∀ xs ∈ ls, ∀ x ∈ xs, x ≠ null) (h0 : ls[0]? = some L) :
    ∀ j (hj : j < ls.length), ls[j] = layer A.parent (padParent A leafHeight) j L
  | 0, hj => by
    rw [List.getElem?_eq_getElem hj, Option.some.injEq] at h0
    exact h0
  | j + 1, hj => by
    have ih := getElem_of_consistent hpar hc hknown h0 j (by omega)
    have hcov := hc j ls[j] ls[j + 1] (List.getElem?_eq_getElem _) (List.getElem?_eq_getElem _)
    have hlo : ∀ x ∈ ls[j], x ≠ null := hknown _ (List.getElem_mem _)
    have hL : ∀ x ∈ L, x ≠ null := hknown L (List.mem_of_getElem? h0)
    rw [knownParents_of_known leafHeight j hlo, ih] at hcov
    exact eq_of_covers hcov (canonLayer_ne_null leafHeight hpar hL (j + 1))

/-- A consistent tree of known nodes whose top layer has at most one node is canonical. -/
theorem canonical_of_consistent (hpar : ∀ a b, A.parent a b ≠ null) {t : AppendMerkleTree E}
    {L : List E} (hc : Consistent A t.leafHeight t.layers) (htop : TopSmall t.layers)
    (hknown : ∀ xs ∈ t.layers, ∀ x ∈ xs, x ≠ null) (h0 : t.layers[0]? = some L) :
    Canonical A t L t.layers.length := by
  have hget := getElem_of_consistent hpar hc hknown h0
  have hpos : 0 < t.layers.length := (List.getElem?_eq_some_iff.mp h0).1
  refine ⟨List.ext_getElem (by simp) fun j h₁ _ => by rw [hget j h₁, getElem_layers], ?_⟩
  -- the top layer has at most one node, so the root's height is below it
  have hlen : (layer A.parent (padParent A t.leafHeight) (t.layers.length - 1) L).length ≤ 1 := by
    rw [← hget _ (by omega)]
    exact htop _ (by rw [List.getLast?_eq_getElem?]; exact List.getElem?_eq_getElem _)
  have := (one_lt_length_layer_iff A.parent (padParent A t.leafHeight) (t.layers.length - 1)
    L).not.mp (by omega)
  omega

omit [DecidableEq E] in
/-- A canonical tree of known leaves has only known nodes. -/
theorem Canonical.known (hpar : ∀ a b, A.parent a b ≠ null) {t : AppendMerkleTree E}
    {L : List E} {D : Nat} (ht : Canonical A t L D) (hnn : ∀ x ∈ L, x ≠ null) :
    ∀ xs ∈ t.layers, ∀ x ∈ xs, x ≠ null := by
  intro xs hxs
  rw [ht.1, Merkle.layers, List.mem_map] at hxs
  obtain ⟨j, -, rfl⟩ := hxs
  exact canonLayer_ne_null t.leafHeight hpar hnn j

end Complete

end AppendMerkleTree

/-- The trees reachable from `new` and `new_with_depth` by `append`, `append_list`,
`update_last` and `append_subtree`; a subtree of depth `d` has `1 << (d - 1)` leaves, so
`d ≤ 64` on a 64-bit `usize`. -/
inductive Reachable (A : Algorithm E) : AppendMerkleTree E → Prop
  | new {leaves : List E} {leafHeight : Nat} {startTxSeq : Option Nat} {t : AppendMerkleTree E} :
    AppendMerkleTree.new A leaves leafHeight startTxSeq = some t → Reachable A t
  | newWithDepth {leaves : List E} {depth : Nat} {startTxSeq : Option Nat}
      {t : AppendMerkleTree E} :
    AppendMerkleTree.newWithDepth A leaves depth startTxSeq = some t → Reachable A t
  | append {t t' : AppendMerkleTree E} {newLeaf : E} :
    Reachable A t → AppendMerkleTree.append A t newLeaf = some t' → Reachable A t'
  | appendList {t t' : AppendMerkleTree E} {leafList : List E} :
    Reachable A t → AppendMerkleTree.appendList A t leafList = some t' → Reachable A t'
  | updateLast {t t' : AppendMerkleTree E} {updatedLeaf : E} :
    Reachable A t → AppendMerkleTree.updateLast A t updatedLeaf = some t' → Reachable A t'
  | appendSubtree {t t' : AppendMerkleTree E} {subtreeDepth : Nat} {subtreeRoot : E}
      {res : Except String Unit} :
    Reachable A t → subtreeDepth ≤ 64 →
      AppendMerkleTree.appendSubtree A t subtreeDepth subtreeRoot = some (t', res) →
      Reachable A t'

open AppendMerkleTree

section Run

variable {A : Algorithm E}

/-- Every reachable tree satisfies the invariant. -/
theorem Reachable.reachInv {t : AppendMerkleTree E} (ht : Reachable A t) : ReachInv A t := by
  induction ht with
  | new h => exact reachInv_new h
  | newWithDepth h => exact reachInv_newWithDepth h
  | append _ h ih => exact reachInv_append ih h
  | appendList _ h ih => exact reachInv_appendList ih h
  | updateLast _ h ih => exact reachInv_updateLast ih h
  | appendSubtree _ hd h ih => exact reachInv_appendSubtree ih hd h

end Run

section Proofs

variable {A : Algorithm E}

/-- Proof completeness: in a reachable tree whose nodes are all known, the proof of every leaf
and the range proof of every range of leaves validate, with the root of the tree. -/
theorem reachable_gen_proofs_validate (hpar : ∀ a b, A.parent a b ≠ null)
    {t : AppendMerkleTree E} (ht : Reachable A t) (hknown : ∀ xs ∈ t.layers, ∀ x ∈ xs, x ≠ null)
    {L : List E} (hL : t.layers[0]? = some L) (hfit : L.length ≤ usizeModulus) :
    (∀ i (hi : i < L.length), ∃ p, t.genProof i = some (.ok p) ∧
        p.validate A L[i] i = some (.ok ()) ∧ p.root = t.root) ∧
      ∀ s e, s < e → e ≤ L.length → ∃ rp, t.genRangeProof s e = some (.ok rp) ∧
        rp.validate A ((L.drop s).take (e - s)) s = some (.ok ()) ∧ rp.root = t.root := by
  have hnn : ∀ x ∈ L, x ≠ null := hknown L (List.mem_of_getElem? hL)
  obtain ⟨hc, htop⟩ : Consistent A t.leafHeight t.layers ∧ TopSmall t.layers := by
    rcases ht.reachInv with hinv | ⟨L₀, i, h0, -, hnull⟩
    · exact hinv
    · -- no leaf is unknown
      exact absurd rfl (hknown L₀ (List.mem_of_getElem? h0) null (List.mem_of_getElem? hnull))
  have hcan := canonical_of_consistent hpar hc htop hknown hL
  exact ⟨fun i hi => genProof_canonical hcan hnn hi hfit,
    fun s e hse he => genRangeProof_canonical hcan hnn hse he hfit⟩

theorem reachable_gen_proofs_validate_example :
    (∀ i (hi : i < 3), ∃ p,
        (withLayers natAlgorithm (ofLeaves [1, 2, 3] 0) [1, 2, 3] (numLayers 3)).genProof i =
          some (.ok p) ∧ p.validate natAlgorithm [1, 2, 3][i] i = some (.ok ()) ∧
        p.root = (withLayers natAlgorithm (ofLeaves [1, 2, 3] 0) [1, 2, 3] (numLayers 3)).root) ∧
      ∀ s e, s < e → e ≤ 3 → ∃ rp,
        (withLayers natAlgorithm (ofLeaves [1, 2, 3] 0) [1, 2, 3] (numLayers 3)).genRangeProof s e =
          some (.ok rp) ∧
        rp.validate natAlgorithm (([1, 2, 3].drop s).take (e - s)) s = some (.ok ()) ∧
        rp.root = (withLayers natAlgorithm (ofLeaves [1, 2, 3] 0) [1, 2, 3] (numLayers 3)).root := by
  have hpar : ∀ a b, natAlgorithm.parent a b ≠ null := fun a b => by
    simp [natAlgorithm, HashElement.null]
  have hcan := withLayers_canonical (A := natAlgorithm) (ofLeaves [1, 2, 3] 0) [1, 2, 3]
    (le_refl (numLayers 3))
  exact reachable_gen_proofs_validate (L := [1, 2, 3])
    (t := withLayers natAlgorithm (ofLeaves [1, 2, 3] 0) [1, 2, 3] (numLayers 3)) hpar
    (Reachable.new (new_canonical hpar (by decide) 0)) (hcan.known hpar (by decide))
    (by rw [hcan.layers_eq_cons]; rfl) (by decide)

end Proofs

end Ionian.AppendMerkle
