import Ionian.AppendMerkle.Tree

/-!
# AppendMerkle.Consistent — what `recompute` keeps when nodes may be unknown

`recompute` computes the parent of two nodes as `null` when either is unknown, and never writes a
`null` parent over a node.  So a node above an unknown child may be stale, but every other node is
the parent of its children: the layer above `xs` *covers* `knownParents xs` (`Covers`), the
parents `recompute` itself computes.  A tree is `Consistent` when every layer covers the known
parents of the layer below; every pass of `recompute` keeps this (`recomputePass_inv`), so
`recompute` after a change of the leaves from some index on gives a consistent tree whose top
layer has at most one node (`recompute_consistent`).
-/

namespace Ionian.AppendMerkle

open HashElement Merkle

variable {E : Type} [HashElement E] [DecidableEq E]

namespace AppendMerkleTree

/-! ## Covering -/

section Covers

/-- `upper` has the length of `P` and keeps every known node of `P`. -/
def Covers (P upper : List E) : Prop :=
  upper.length = P.length ∧ ∀ (i : Nat) (x : E), P[i]? = some x → x ≠ null → upper[i]? = some x

variable (A : Algorithm E) (leafHeight : Nat)

/-- The parents `recompute` computes over the layer `xs` at height `k`: `null` above an unknown
child. -/
def knownParents (k : Nat) (xs : List E) : List E :=
  pairUp (pairParent A) (remainderParent A leafHeight) k xs

theorem length_knownParents (k : Nat) (xs : List E) :
    (knownParents A leafHeight k xs).length = (xs.length + 1) / 2 :=
  length_pairUp _ _ _ _

omit [HashElement E] [DecidableEq E] in
theorem mapIdx_cons_shift (i : Nat) (v : E) (vs : List E) :
    (v :: vs).mapIdx (fun j w => (i + j, w)) = (i, v) :: vs.mapIdx fun j w => (i + 1 + j, w) := by
  rw [List.mapIdx_cons]
  congr 2
  funext j w
  rw [Nat.add_assoc, Nat.add_comm 1 j]

/-- `parent_update` lists the known parents of the slice, indexed from `i`. -/
theorem parentUpdate_eq_mapIdx (k i : Nat) (xs : List E) :
    parentUpdate A leafHeight k i xs =
      (knownParents A leafHeight k xs).mapIdx fun j v => (i + j, v) := by
  fun_induction parentUpdate A leafHeight k i xs with
  | case1 i left right rest ih =>
    rw [knownParents, pairUp_cons_cons, ← knownParents, mapIdx_cons_shift, ih]
  | case2 i r => simp [knownParents]
  | case3 i => simp [knownParents]

end Covers

/-! ## Writing a parent update -/

section Write

/-- The layer after `apply_parent_update` writes `parent` at `index`: over a node only when the
parent is known, or pushed at the end. -/
def writeParent (layer : List E) (index : Nat) (parent : E) : List E :=
  if index < layer.length then (if parent ≠ null then layer.set index parent else layer)
  else layer ++ [parent]

/-- Whether the write changes the layer's slot. -/
def Written (layer : List E) (index : Nat) (parent : E) : Prop :=
  parent ≠ null ∨ layer.length ≤ index

instance (layer : List E) (index : Nat) (parent : E) : Decidable (Written layer index parent) :=
  inferInstanceAs (Decidable (_ ∨ _))

theorem length_writeParent {layer : List E} {index : Nat} (parent : E)
    (h : index ≤ layer.length) :
    (writeParent layer index parent).length = max layer.length (index + 1) := by
  unfold writeParent
  split_ifs <;> simp <;> omega

theorem getElem?_writeParent_ne {layer : List E} {index i : Nat} (parent : E)
    (h : index ≤ layer.length) (hi : i ≠ index) :
    (writeParent layer index parent)[i]? = layer[i]? := by
  unfold writeParent
  split_ifs with hlt hp
  · exact List.getElem?_set_ne (Ne.symm hi)
  · rfl
  · rcases Nat.lt_or_ge i layer.length with hi' | hi'
    · rw [List.getElem?_append_left hi']
    · rw [List.getElem?_eq_none (by simp; omega), List.getElem?_eq_none hi']

theorem getElem?_writeParent_self {layer : List E} {index : Nat} (parent : E)
    (h : index ≤ layer.length) :
    (writeParent layer index parent)[index]? =
      if Written layer index parent then some parent else layer[index]? := by
  unfold writeParent Written
  by_cases hlt : index < layer.length
  · by_cases hp : parent = null
    · simp [hlt, hp]
    · simp [hlt, hp]
  · obtain rfl : index = layer.length := by omega
    simp

/-- One entry of the update: `apply_parent_update` goes on from the written layer, with the
index as its last change when it wrote. -/
theorem applyParentUpdate_cons {layer : List E} {last : Option Nat} {index : Nat} {parent : E}
    {rest : List (Nat × E)} {r : List E × Option Nat}
    (h : applyParentUpdate layer last ((index, parent) :: rest) = some r) :
    index ≤ layer.length ∧ applyParentUpdate (writeParent layer index parent)
      (if Written layer index parent then some index else last) rest = some r := by
  unfold applyParentUpdate at h
  by_cases hlt : index < layer.length
  · rw [dif_pos hlt] at h
    refine ⟨hlt.le, ?_⟩
    by_cases hp : parent = null
    · -- an unknown parent is not written over a node
      rw [if_neg (not_not.mpr hp)] at h
      have hw : ¬Written layer index parent := by simp [Written, hp]; omega
      rw [if_neg hw]
      simpa [writeParent, hlt, hp] using h
    · rw [if_pos hp] at h
      split_ifs at h with hpanic
      have hw : Written layer index parent := Or.inl hp
      simpa [writeParent, hlt, hp, hw] using h
  · rw [dif_neg hlt] at h
    split_ifs at h with heq
    have hw : Written layer index parent := Or.inr (by omega)
    exact ⟨by omega, by simpa [writeParent, hlt, hw] using h⟩

theorem writeParent_of_not_written {layer : List E} {index : Nat} {parent : E}
    (hw : ¬Written layer index parent) : writeParent layer index parent = layer := by
  simp only [Written, not_or, not_le, ne_eq, not_not] at hw
  simp [writeParent, hw.1, hw.2]

/-- Past the written index the layer is unchanged. -/
theorem drop_writeParent {layer : List E} {index w : Nat} (parent : E)
    (h : index ≤ layer.length) (hw : index < w) :
    (writeParent layer index parent).drop w = layer.drop w := by
  apply List.ext_getElem?
  intro n
  rw [List.getElem?_drop, List.getElem?_drop, getElem?_writeParent_ne _ h (by omega)]

/-! The whole update: `vs` written from index `i0`. -/

theorem applyParentUpdate_length {layer N : List E} {last last' : Option Nat} {i0 : Nat}
    {vs : List E} (h : applyParentUpdate layer last (vs.mapIdx fun j v => (i0 + j, v)) =
      some (N, last')) (hi0 : i0 ≤ layer.length) :
    N.length = max layer.length (i0 + vs.length) := by
  induction vs generalizing layer last i0 with
  | nil =>
    simp only [List.mapIdx_nil, applyParentUpdate, Option.some.injEq, Prod.mk.injEq] at h
    rw [← h.1, List.length_nil, Nat.add_zero]; omega
  | cons v vs ih =>
    rw [mapIdx_cons_shift] at h
    obtain ⟨hle, hrest⟩ := applyParentUpdate_cons h
    rw [ih hrest (by rw [length_writeParent _ hle]; omega), length_writeParent _ hle]
    simp only [List.length_cons]
    omega

/-- Outside the indices of the update the layer is unchanged. -/
theorem applyParentUpdate_getElem?_outside {layer N : List E} {last last' : Option Nat}
    {i0 : Nat} {vs : List E} (h : applyParentUpdate layer last (vs.mapIdx fun j v => (i0 + j, v)) =
      some (N, last')) {i : Nat} (hi : i < i0 ∨ i0 + vs.length ≤ i) : N[i]? = layer[i]? := by
  induction vs generalizing layer last i0 with
  | nil =>
    simp only [List.mapIdx_nil, applyParentUpdate, Option.some.injEq, Prod.mk.injEq] at h
    rw [h.1]
  | cons v vs ih =>
    rw [mapIdx_cons_shift] at h
    obtain ⟨hle, hrest⟩ := applyParentUpdate_cons h
    rw [ih hrest (by simp only [List.length_cons] at hi; omega),
      getElem?_writeParent_ne _ hle (by simp only [List.length_cons] at hi; omega)]

/-- At the indices of the update the layer holds what was written. -/
theorem applyParentUpdate_getElem?_update {layer N : List E} {last last' : Option Nat}
    {i0 : Nat} {vs : List E} (h : applyParentUpdate layer last (vs.mapIdx fun j v => (i0 + j, v)) =
      some (N, last')) {j : Nat} (hj : j < vs.length) :
    N[i0 + j]? = if Written layer (i0 + j) vs[j] then some vs[j] else layer[i0 + j]? := by
  induction vs generalizing layer last i0 j with
  | nil => simp at hj
  | cons v vs ih =>
    rw [mapIdx_cons_shift] at h
    obtain ⟨hle, hrest⟩ := applyParentUpdate_cons h
    cases j with
    | zero =>
      rw [Nat.add_zero, applyParentUpdate_getElem?_outside hrest (Or.inl (by omega)),
        getElem?_writeParent_self _ hle]
      rfl
    | succ j =>
      have hj' : j < vs.length := by simpa using hj
      have hwritten : Written (writeParent layer i0 v) (i0 + 1 + j) vs[j] ↔
          Written layer (i0 + 1 + j) vs[j] := by
        have hmax : max layer.length (i0 + 1) ≤ i0 + 1 + j ↔ layer.length ≤ i0 + 1 + j := by
          omega
        simp only [Written, length_writeParent _ hle, hmax]
      rw [show i0 + (j + 1) = i0 + 1 + j by omega, ih hrest hj',
        getElem?_writeParent_ne _ hle (by omega)]
      simp only [List.getElem_cons_succ]
      exact if_congr hwritten rfl rfl

/-- Either the update wrote nothing, or the layer is unchanged after its last write, which is
the index it returns. -/
theorem applyParentUpdate_last {layer N : List E} {last last' : Option Nat} {i0 : Nat}
    {vs : List E} (h : applyParentUpdate layer last (vs.mapIdx fun j v => (i0 + j, v)) =
      some (N, last')) :
    (last' = last ∧ N = layer) ∨
      ∃ w, last' = some w ∧ i0 ≤ w ∧ w < N.length ∧ N.drop (w + 1) = layer.drop (w + 1) := by
  induction vs generalizing layer last i0 with
  | nil =>
    simp only [List.mapIdx_nil, applyParentUpdate, Option.some.injEq, Prod.mk.injEq] at h
    exact Or.inl ⟨h.2.symm, h.1.symm⟩
  | cons v vs ih =>
    rw [mapIdx_cons_shift] at h
    obtain ⟨hle, hrest⟩ := applyParentUpdate_cons h
    rcases ih hrest with ⟨hlast, rfl⟩ | ⟨w, hw, hiw, hwN, hdrop⟩
    · by_cases hwr : Written layer i0 v
      · -- the first entry is the last write
        rw [if_pos hwr] at hlast
        refine Or.inr ⟨i0, hlast, le_rfl, ?_, drop_writeParent _ hle (by omega)⟩
        rw [length_writeParent _ hle]; omega
      · rw [if_neg hwr] at hlast
        exact Or.inl ⟨hlast, writeParent_of_not_written hwr⟩
    · exact Or.inr ⟨w, hw, by omega, hwN, by rw [hdrop, drop_writeParent _ hle (by omega)]⟩

end Write

/-! ## One pass of `recompute` -/

section Pass

variable (A : Algorithm E) (leafHeight : Nat)

omit [HashElement E] [DecidableEq E] in
/-- A pass ends at an even index, or at the end of the layer. -/
theorem passEnd_even_or_eq (len : Nat) (m : Option Nat) :
    passEnd len m % 2 = 0 ∨ passEnd len m = len := by
  unfold passEnd
  cases m with
  | none => simp
  | some e => simp only [Option.getD_some]; split_ifs <;> omega

omit [HashElement E] [DecidableEq E] in
theorem le_passEnd {len e : Nat} {m : Option Nat} (hm : m = some e) : e ≤ passEnd len m := by
  subst hm; unfold passEnd; simp only [Option.getD_some]; split_ifs <;> omega

/-- The known parents of an aligned slice of a layer are a slice of its known parents. -/
theorem knownParents_slice (k : Nat) {cur : List E} {start endIndex : Nat}
    (hstart : start % 2 = 0) (hend : endIndex ≤ cur.length)
    (hpar : endIndex % 2 = 0 ∨ endIndex = cur.length) :
    knownParents A leafHeight k ((cur.drop start).take (endIndex - start)) =
      ((knownParents A leafHeight k cur).drop (start / 2)).take ((endIndex - start + 1) / 2) := by
  rcases hpar with heven | hlast
  · by_cases hse : start ≤ endIndex
    · obtain ⟨m, hm⟩ : ∃ m, endIndex - start = 2 * m := ⟨(endIndex - start) / 2, by omega⟩
      rw [hm, show (2 * m + 1) / 2 = m by omega]
      exact pairUp_drop_take _ _ k cur hstart m
    · rw [show endIndex - start = 0 by omega]; simp [knownParents]
  · -- the slice runs to the end of the layer
    subst hlast
    have hdrop : knownParents A leafHeight k (cur.drop start) =
        (knownParents A leafHeight k cur).drop (start / 2) := by
      rw [knownParents, knownParents, drop_pairUp,
        Nat.mul_div_cancel' (Nat.dvd_of_mod_eq_zero hstart)]
    rw [List.take_of_length_le (by simp), hdrop, List.take_of_length_le]
    simp only [List.length_drop, length_knownParents]
    omega

omit [HashElement E] [DecidableEq E] in
theorem getElem?_eq_of_take_eq {l₁ l₂ : List E} {n i : Nat} (h : l₁.take n = l₂.take n)
    (hi : i < n) : l₁[i]? = l₂[i]? := by
  have := congrArg (·[i]?) h
  simpa [List.getElem?_take, hi] using this

omit [HashElement E] [DecidableEq E] in
theorem getElem?_eq_of_drop_eq {l₁ l₂ : List E} {n i : Nat} (h : l₁.drop n = l₂.drop n)
    (hi : n ≤ i) : l₁[i]? = l₂[i]? := by
  have := congrArg (·[i - n]?) h
  simpa [List.getElem?_drop, show n + (i - n) = i by omega] using this

omit [HashElement E] [DecidableEq E] in
theorem length_eq_of_drop_eq {l₁ l₂ : List E} {n : Nat} (h : l₁.drop n = l₂.drop n)
    (hn : n < l₁.length) (hle : l₂.length ≤ l₁.length) : l₁.length = l₂.length := by
  have := congrArg List.length h
  simp only [List.length_drop] at this
  omega

/-- **One pass, one layer.** Layer `k` agrees with `old` before the start index `a` and after
`maybe_end_index`, and the layer `O'` above covers the known parents of `old`.  The parents the
pass writes from `a / 2` make the layer above cover the known parents of layer `k`. -/
theorem covers_pass (k : Nat) {cur old O' N : List E} {a : Nat} {m last' : Option Nat}
    (hagree : cur.take a = old.take a) (ha : a ≤ old.length) (hlen : old.length ≤ cur.length)
    (hm : ∀ e, m = some e → e ≤ cur.length ∧ cur.drop e = old.drop e)
    (hold : Covers (knownParents A leafHeight k old) O')
    (hslice : ¬(passEnd cur.length m < a - a % 2 ∨ cur.length < passEnd cur.length m))
    (happly : applyParentUpdate O' none (parentUpdate A leafHeight k (a / 2)
      ((cur.drop (a - a % 2)).take (passEnd cur.length m - (a - a % 2)))) = some (N, last')) :
    Covers (knownParents A leafHeight k cur) N := by
  generalize hend : passEnd cur.length m = endIndex at hslice happly
  have hpar : endIndex % 2 = 0 ∨ endIndex = cur.length := hend ▸ passEnd_even_or_eq _ _
  have hstart : (a - a % 2) % 2 = 0 := by omega
  rw [parentUpdate_eq_mapIdx, knownParents_slice A leafHeight k hstart (by omega) hpar,
    show (a - a % 2) / 2 = a / 2 by omega] at happly
  generalize hvs : ((knownParents A leafHeight k cur).drop (a / 2)).take
    ((endIndex - (a - a % 2) + 1) / 2) = vs at happly
  have hO' : O'.length = (old.length + 1) / 2 := by rw [hold.1, length_knownParents]
  have hNlen := applyParentUpdate_length happly (by omega)
  have hvslen : vs.length = min ((endIndex - (a - a % 2) + 1) / 2) ((cur.length + 1) / 2 - a / 2) := by
    rw [← hvs]; simp [length_knownParents]
  -- past the end of the pass, layer `k` is `old`
  have htail : endIndex < cur.length → endIndex % 2 = 0 ∧ cur.length = old.length ∧
      cur.drop endIndex = old.drop endIndex := by
    intro hlt
    cases hmv : m with
    | none => rw [hmv] at hend; simp [passEnd] at hend; omega
    | some e =>
      obtain ⟨he, hdrop⟩ := hm e hmv
      have hee : e ≤ endIndex := hend ▸ le_passEnd hmv
      refine ⟨by omega, length_eq_of_drop_eq hdrop (by omega) hlen, ?_⟩
      rw [show endIndex = e + (endIndex - e) by omega, ← List.drop_drop, hdrop, List.drop_drop]
  refine ⟨?_, fun i x hx hxn => ?_⟩
  · rw [hNlen, length_knownParents]
    by_cases hlt : endIndex < cur.length
    · have := (htail hlt).2.1; omega
    · omega
  · by_cases hlo : i < a / 2
    · -- before the pass: the parents of the agreeing prefix
      rw [applyParentUpdate_getElem?_outside happly (Or.inl hlo)]
      apply hold.2 i x _ hxn
      rw [← hx]
      exact (getElem?_eq_of_take_eq (take_pairUp_of_take_eq _ _ k hagree) hlo).symm
    · by_cases hmid : i < a / 2 + vs.length
      · -- written by the pass
        have hj : i - a / 2 < vs.length := by omega
        have hv : vs[i - a / 2]? = some x := by
          rw [← hvs, List.getElem?_take, if_pos (by omega), List.getElem?_drop,
            show a / 2 + (i - a / 2) = i by omega, hx]
        have hvx : vs[i - a / 2] = x := by simpa [List.getElem?_eq_getElem hj] using hv
        have := applyParentUpdate_getElem?_update happly hj
        rw [show a / 2 + (i - a / 2) = i by omega, hvx,
          if_pos (show Written O' i x from Or.inl hxn)] at this
        exact this
      · -- after the pass: the parents of the agreeing suffix
        have hi : i < (cur.length + 1) / 2 := by
          have := (List.getElem?_eq_some_iff.mp hx).1; rwa [length_knownParents] at this
        have hlt : endIndex < cur.length := by
          by_contra hge; omega
        obtain ⟨heven, -, hdrop⟩ := htail hlt
        rw [applyParentUpdate_getElem?_outside happly (Or.inr (by omega))]
        apply hold.2 i x _ hxn
        rw [← hx]
        have hKdrop : (knownParents A leafHeight k cur).drop (endIndex / 2) =
            (knownParents A leafHeight k old).drop (endIndex / 2) := by
          rw [knownParents, knownParents, drop_pairUp, drop_pairUp,
            Nat.mul_div_cancel' (Nat.dvd_of_mod_eq_zero heven), hdrop]
        exact (getElem?_eq_of_drop_eq hKdrop (by omega)).symm

/-- The state of `recompute`'s loop before the pass at height `k` from index `a`: the layers
below and above `k` cover the known parents of the layer under them; layer `k` agrees, before
`a` and past `maybe_end_index`, with a layer `old` whose known parents the layer above covers; and
the top layer, above `k`, or `old` when `k` is the top, has at most one node. -/
structure PassInv (ls : List (List E)) (k a : Nat) (m : Option Nat) : Prop where
  below : ∀ j < k, ∀ lo hi, ls[j]? = some lo → ls[j + 1]? = some hi →
    Covers (knownParents A leafHeight j lo) hi
  above : ∀ j, k < j → ∀ lo hi, ls[j]? = some lo → ls[j + 1]? = some hi →
    Covers (knownParents A leafHeight j lo) hi
  top : ∀ top, k + 1 < ls.length → ls.getLast? = some top → top.length ≤ 1
  layer : ∀ cur, ls[k]? = some cur → ∃ old, cur.take a = old.take a ∧ a ≤ old.length ∧
    old.length ≤ cur.length ∧ (∀ e, m = some e → e ≤ cur.length ∧ cur.drop e = old.drop e) ∧
    (∀ hi, ls[k + 1]? = some hi → Covers (knownParents A leafHeight k old) hi) ∧
    (k + 1 = ls.length → old.length ≤ 1)

omit [HashElement E] [DecidableEq E] in
/-- Lists that agree before `a` and from `e ≤ a` on are equal. -/
theorem eq_of_take_drop_eq {l₁ l₂ : List E} {a e : Nat} (htake : l₁.take a = l₂.take a)
    (hdrop : l₁.drop e = l₂.drop e) (he : e ≤ a) : l₁ = l₂ := by
  rw [← List.take_append_drop a l₁, ← List.take_append_drop a l₂, htake,
    show a = e + (a - e) by omega, ← List.drop_drop, ← List.drop_drop, hdrop]

/-- A pass that finds nothing to update leaves a layer equal to `old`, below the top. -/
theorem passInv_of_empty {ls : List (List E)} {k a : Nat} {m : Option Nat} {cur : List E}
    (hcur : ls[k]? = some cur) (hc : 1 < cur.length ∨ k < ls.length - 1)
    (hinv : PassInv A leafHeight ls k a m)
    (hslice : ¬(passEnd cur.length m < a - a % 2 ∨ cur.length < passEnd cur.length m))
    (hupd : parentUpdate A leafHeight k (a / 2)
      ((cur.drop (a - a % 2)).take (passEnd cur.length m - (a - a % 2))) = []) :
    PassInv A leafHeight ls (k + 1) (a / 2) none := by
  obtain ⟨old, hagree, ha, hlen, hm, hold, htop⟩ := hinv.layer cur hcur
  have hempty : passEnd cur.length m ≤ a - a % 2 := by
    have := congrArg List.length hupd
    rw [length_parentUpdate] at this
    simp at this; omega
  -- nothing is dirty: layer `k` is `old`
  have hcur_old : cur = old := by
    cases hmv : m with
    | none =>
      rw [hmv] at hempty; simp only [passEnd, Option.getD_none] at hempty
      rw [← List.take_of_length_le (show cur.length ≤ a by split_ifs at hempty <;> omega),
        hagree, List.take_of_length_le (by split_ifs at hempty <;> omega)]
    | some e =>
      have he : e ≤ passEnd cur.length m := le_passEnd hmv
      exact eq_of_take_drop_eq hagree (hm e hmv).2 (by omega)
  subst hcur_old
  have hk : k + 1 < ls.length := by
    by_contra hge
    have := htop (by have := (List.getElem?_eq_some_iff.mp hcur).1; omega)
    omega
  obtain ⟨hi, hhi⟩ : ∃ hi, ls[k + 1]? = some hi := ⟨_, List.getElem?_eq_getElem hk⟩
  have hcov := hold hi hhi
  refine ⟨fun j hj lo up hlo hup => ?_, fun j hj => hinv.above j (by omega),
    fun top hk' => hinv.top top (by omega), fun cur' hcur' => ?_⟩
  · rcases Nat.lt_succ_iff_lt_or_eq.mp hj with hj | rfl
    · exact hinv.below j hj lo up hlo hup
    · rw [hcur] at hlo; rw [hhi] at hup; cases hlo; cases hup; exact hcov
  · rw [hhi] at hcur'
    cases hcur'
    have hlen' : hi.length = (cur.length + 1) / 2 := by rw [hcov.1, length_knownParents]
    refine ⟨hi, rfl, by omega, le_rfl, by simp, fun up hup => hinv.above (k + 1) (by omega) hi up
      hhi hup, fun hk2 => hinv.top hi (by omega) ?_⟩
    rw [List.getLast?_eq_getElem?, show ls.length - 1 = k + 1 by omega, hhi]

/-- The parents a pass writes into the layer above `k`, inside the tree. -/
theorem passInv_of_update {ls : List (List E)} {k a : Nat} {m last' : Option Nat}
    {cur O' N : List E} (hcur : ls[k]? = some cur) (hinv : PassInv A leafHeight ls k a m)
    (hhi : ls[k + 1]? = some O')
    (hslice : ¬(passEnd cur.length m < a - a % 2 ∨ cur.length < passEnd cur.length m))
    (happly : applyParentUpdate O' none (parentUpdate A leafHeight k (a / 2)
      ((cur.drop (a - a % 2)).take (passEnd cur.length m - (a - a % 2)))) = some (N, last')) :
    PassInv A leafHeight (ls.set (k + 1) N) (k + 1) (a / 2) (last'.map (· + 1)) := by
  obtain ⟨old, hagree, ha, hlen, hm, hold, -⟩ := hinv.layer cur hcur
  have hk : k + 1 < ls.length := (List.getElem?_eq_some_iff.mp hhi).1
  have hcov := covers_pass A leafHeight k hagree ha hlen hm (hold O' hhi) hslice happly
  have hO' : O'.length = (old.length + 1) / 2 := by rw [(hold O' hhi).1, length_knownParents]
  rw [parentUpdate_eq_mapIdx] at happly
  have hNlen := applyParentUpdate_length happly (by omega)
  have hset : ∀ j, j ≠ k + 1 → (ls.set (k + 1) N)[j]? = ls[j]? :=
    fun j hj => List.getElem?_set_ne (Ne.symm hj)
  have hsetk : (ls.set (k + 1) N)[k + 1]? = some N := List.getElem?_set_self hk
  have hlast : ls.getLast? = ls[ls.length - 1]? := List.getLast?_eq_getElem?
  refine ⟨fun j hj lo up hlo hup => ?_, fun j hj lo up hlo hup => ?_, fun top hk2 htop => ?_,
    fun cur' hcur' => ?_⟩
  · rcases Nat.lt_succ_iff_lt_or_eq.mp hj with hj | rfl
    · rw [hset j (by omega)] at hlo; rw [hset (j + 1) (by omega)] at hup
      exact hinv.below j hj lo up hlo hup
    · rw [hset j (by omega), hcur] at hlo; rw [hsetk] at hup
      cases hlo; cases hup; exact hcov
  · rw [hset j (by omega)] at hlo; rw [hset (j + 1) (by omega)] at hup
    exact hinv.above j (by omega) lo up hlo hup
  · rw [List.length_set] at hk2
    rw [List.getLast?_eq_getElem?, List.length_set, hset _ (by omega), ← hlast] at htop
    exact hinv.top top (by omega) htop
  · rw [hsetk] at hcur'
    cases hcur'
    refine ⟨O', ?_, by omega, by omega, fun e he => ?_, fun up hup => ?_, fun hk2 => ?_⟩
    · -- below the start of the pass the layer above is unchanged
      apply List.ext_getElem?
      intro n
      rw [List.getElem?_take, List.getElem?_take]
      split_ifs with hn
      · exact applyParentUpdate_getElem?_outside happly (Or.inl hn)
      · rfl
    · rcases applyParentUpdate_last happly with ⟨hl, -⟩ | ⟨w, hw, -, hwN, hdrop⟩
      · rw [hl] at he; cases he
      · rw [hw, Option.map_some, Option.some.injEq] at he
        subst he
        exact ⟨by omega, hdrop⟩
    · rw [hset _ (by omega)] at hup
      exact hinv.above (k + 1) (by omega) O' up hhi hup
    · rw [List.length_set] at hk2
      exact hinv.top O' (by omega) (by rw [hlast, show ls.length - 1 = k + 1 by omega, hhi])

/-- The parents a pass writes into a new layer on top of the tree. -/
theorem passInv_of_extend {ls : List (List E)} {k a : Nat} {m last' : Option Nat}
    {cur N : List E} (hcur : ls[k]? = some cur) (hc : 1 < cur.length ∨ k < ls.length - 1)
    (hinv : PassInv A leafHeight ls k a m) (hk : k + 1 = ls.length)
    (hslice : ¬(passEnd cur.length m < a - a % 2 ∨ cur.length < passEnd cur.length m))
    (happly : applyParentUpdate [] none (parentUpdate A leafHeight k (a / 2)
      ((cur.drop (a - a % 2)).take (passEnd cur.length m - (a - a % 2)))) = some (N, last')) :
    PassInv A leafHeight (ls ++ [N]) (k + 1) (a / 2) (last'.map (· + 1)) := by
  obtain ⟨old, -, ha, -, hm, -, htop⟩ := hinv.layer cur hcur
  have hold1 := htop hk
  have hcur1 : 1 < cur.length := by omega
  -- at the top the whole layer is recomputed from index 0
  have ha0 : a / 2 = 0 := by omega
  have hs0 : a - a % 2 = 0 := by omega
  rw [ha0, hs0] at happly
  rw [hs0] at hslice
  have hm0 : ∀ e, m = some e → e ≤ cur.length ∧ cur.drop e = ([] : List E).drop e := by
    intro e he
    obtain ⟨hle, hdrop⟩ := hm e he
    refine ⟨hle, ?_⟩
    rcases Nat.eq_zero_or_pos e with rfl | hpos
    · simp only [List.drop_zero] at hdrop; subst hdrop; omega
    · rw [hdrop, List.drop_of_length_le (by omega), List.drop_of_length_le (by simp)]
  have hcov := covers_pass A leafHeight k (show cur.take 0 = ([] : List E).take 0 by simp)
    le_rfl (Nat.zero_le _) hm0
    (show Covers (knownParents A leafHeight k []) ([] : List E) from ⟨rfl, by simp [knownParents]⟩)
    (by simpa using hslice) (by simpa using happly)
  rw [parentUpdate_eq_mapIdx] at happly
  have hget : ∀ j, j < ls.length → (ls ++ [N])[j]? = ls[j]? :=
    fun j hj => List.getElem?_append_left hj
  have hgetk : (ls ++ [N])[k + 1]? = some N := by
    rw [List.getElem?_append_right (by omega), show k + 1 - ls.length = 0 by omega]; rfl
  have hnone : ∀ j, k + 1 < j → (ls ++ [N])[j]? = none :=
    fun j hj => List.getElem?_eq_none (by simp; omega)
  refine ⟨fun j hj lo up hlo hup => ?_, fun j hj lo up hlo hup => ?_, fun top hk2 => ?_,
    fun cur' hcur' => ?_⟩
  · rcases Nat.lt_succ_iff_lt_or_eq.mp hj with hj | rfl
    · rw [hget j (by omega)] at hlo; rw [hget (j + 1) (by omega)] at hup
      exact hinv.below j hj lo up hlo hup
    · rw [hget j (by omega), hcur] at hlo; rw [hgetk] at hup
      cases hlo; cases hup; exact hcov
  · rw [hnone (j + 1) (by omega)] at hup; cases hup
  · simp at hk2; omega
  · rw [hgetk] at hcur'
    cases hcur'
    refine ⟨[], by rw [ha0]; simp, by omega, by simp, fun e he => ?_, fun up hup => ?_,
      fun _ => by simp⟩
    · rcases applyParentUpdate_last happly with ⟨hl, -⟩ | ⟨w, hw, -, hwN, hdrop⟩
      · rw [hl] at he; cases he
      · rw [hw, Option.map_some, Option.some.injEq] at he
        subst he
        exact ⟨by omega, hdrop⟩
    · rw [hnone _ (by omega)] at hup; cases hup

theorem recomputePass_inv {ls ls' : List (List E)} {k a : Nat} {m m' : Option Nat}
    {cur : List E} (hcur : ls[k]? = some cur) (hc : 1 < cur.length ∨ k < ls.length - 1)
    (hinv : PassInv A leafHeight ls k a m)
    (hpass : recomputePass A leafHeight ls k a m = some (ls', m')) :
    PassInv A leafHeight ls' (k + 1) (a / 2) m' := by
  unfold recomputePass at hpass
  rw [hcur] at hpass
  simp only at hpass
  split_ifs at hpass with hslice hupd
  · cases hpass
    exact passInv_of_empty A leafHeight hcur hc hinv hslice hupd
  · have hk : k < ls.length := (List.getElem?_eq_some_iff.mp hcur).1
    rcases Nat.lt_or_ge (k + 1) ls.length with hk1 | hk1
    · -- the layer above exists: the pass writes into it
      obtain ⟨O', hO'⟩ : ∃ O', ls[k + 1]? = some O' := ⟨_, List.getElem?_eq_getElem hk1⟩
      rw [beforeExtendLayer, if_neg (by omega), hO'] at hpass
      obtain ⟨⟨N, last'⟩, happly, heq⟩ := Option.map_eq_some_iff.mp hpass
      simp only [Prod.mk.injEq] at heq
      rw [← heq.1, ← heq.2]
      exact passInv_of_update A leafHeight hcur hinv hO' hslice happly
    · -- at the top: the pass pushes a new layer
      have hk1' : k + 1 = ls.length := by omega
      have hget : (ls ++ [[]])[k + 1]? = some [] := by
        rw [List.getElem?_append_right (by omega), show k + 1 - ls.length = 0 by omega]; rfl
      rw [beforeExtendLayer, if_pos hk1', hget] at hpass
      obtain ⟨⟨N, last'⟩, happly, heq⟩ := Option.map_eq_some_iff.mp hpass
      simp only [Prod.mk.injEq] at heq
      rw [← heq.1, ← heq.2, List.set_append_right _ _ (by omega), show k + 1 - ls.length = 0 by omega]
      exact passInv_of_extend A leafHeight hcur hc hinv hk1' hslice happly

/-- Every layer covers the known parents of the layer below it. -/
def Consistent (A : Algorithm E) (leafHeight : Nat) (ls : List (List E)) : Prop :=
  ∀ j lo hi, ls[j]? = some lo → ls[j + 1]? = some hi → Covers (knownParents A leafHeight j lo) hi

/-- The top layer has at most one node. -/
def TopSmall (ls : List (List E)) : Prop :=
  ∀ top, ls.getLast? = some top → top.length ≤ 1

/-- Before the first pass: the leaves changed from index `s` on, and grew. -/
theorem passInv_start {L L' : List E} {rest : List (List E)} {s : Nat}
    (hold : Consistent A leafHeight (L :: rest)) (htop : TopSmall (L :: rest))
    (hagree : L'.take s = L.take s) (hs : s ≤ L.length) (hLL : L.length ≤ L'.length) :
    PassInv A leafHeight (L' :: rest) 0 s none := by
  refine ⟨fun j hj => absurd hj (Nat.not_lt_zero _), fun j hj lo hi hlo hhi => ?_,
    fun top hk htop' => htop top ?_, fun cur hcur => ?_⟩
  · obtain ⟨j, rfl⟩ : ∃ j', j = j' + 1 := ⟨j - 1, by omega⟩
    exact hold (j + 1) lo hi hlo hhi
  · cases rest with
    | nil => simp at hk
    | cons r rs => simpa using htop'
  · simp only [List.getElem?_cons_zero, Option.some.injEq] at hcur
    subst hcur
    refine ⟨L, hagree, hs, hLL, by simp, fun hi hhi => hold 0 L hi rfl hhi, fun h1 => ?_⟩
    cases rest with
    | nil => exact htop L rfl
    | cons r rs => simp at h1

/-- `recompute`'s loop, from a state of the invariant, ends on a consistent tree whose top layer
has at most one node. -/
theorem recomputeLoop_consistent {ls res : List (List E)} {k a : Nat} {m : Option Nat}
    (hinv : PassInv A leafHeight ls k a m) (h : recomputeLoop A leafHeight ls k a m = some res) :
    Consistent A leafHeight res ∧ TopSmall res := by
  obtain ⟨k', a', m', hinv', hk', htop⟩ := recomputeLoop_invariant A leafHeight
    (PassInv A leafHeight) (fun _ _ _ _ _ _ _ hl hc hi hp => recomputePass_inv A leafHeight hl hc hi hp)
    hinv h
  refine ⟨fun j lo hi hlo hhi => hinv'.below j ?_ lo hi hlo hhi, fun top htop' => htop top ?_⟩
  · have := (List.getElem?_eq_some_iff.mp hhi).1; omega
  · rwa [List.getLast?_eq_getElem?, show res.length - 1 = k' by omega] at htop'

end Pass

section Recompute

variable {A : Algorithm E}

/-- `recompute` from index `s`, after the leaves changed from `s` on and grew, keeps a tree
consistent with a top layer of at most one node. -/
theorem recompute_consistent {t t' : AppendMerkleTree E} {L L' : List E}
    {rest : List (List E)} {s : Nat} (hold : Consistent A t.leafHeight (L :: rest))
    (htop : TopSmall (L :: rest)) (ht : t.layers = L' :: rest) (hagree : L'.take s = L.take s)
    (hs : s ≤ L.length) (hLL : L.length ≤ L'.length) (h : recompute A t s none = some t') :
    Consistent A t'.leafHeight t'.layers ∧ TopSmall t'.layers := by
  obtain ⟨res, hloop, rfl⟩ := Option.map_eq_some_iff.mp h
  rw [ht] at hloop
  exact recomputeLoop_consistent A t.leafHeight (passInv_start A t.leafHeight hold htop hagree hs hLL) hloop

end Recompute

end AppendMerkleTree

end Ionian.AppendMerkle
