import Mathlib.Logic.Function.Iterate
import Mathlib.Data.Finset.Card
import Mathlib.Data.Finset.Range
import Mathlib.Data.Nat.Find

/-!
# Parent links

A table of parent links is a function `f : β → β`; `f^[k] x` is the `k`-th ancestor of `x`.
`Reaches f r x` says that the links lead from `x` to the root `r`, `OnChain f i x` that `i` is
`x` or one of its ancestors.

Re-parenting one node is `Function.update f i p`. `reaches_update` and `not_reaches_update` settle
which re-parentings keep the links a tree: exactly those where the node is not on the new parent's
chain. `Reaches.exists_lt` bounds the length of a chain in a table of `n` entries.
-/

namespace ParentChain

variable {β : Type*} {f : β → β} {r i p x : β}

/-- Following the links from `x` leads to `r`. -/
def Reaches (f : β → β) (r x : β) : Prop := ∃ k, f^[k] x = r

/-- `i` is `x` itself or one of its ancestors. -/
def OnChain (f : β → β) (i x : β) : Prop := ∃ k, f^[k] x = i

theorem Reaches.of_parent (h : Reaches f r (f x)) : Reaches f r x := by
  obtain ⟨k, hk⟩ := h
  exact ⟨k + 1, by rwa [Function.iterate_succ_apply]⟩

/-- A fixed root absorbs the chain: once there, every later ancestor is the root. -/
theorem iterate_root (hr : f r = r) (k : Nat) : f^[k] r = r := Function.iterate_fixed hr k

theorem Reaches.eventually (hr : f r = r) {k m : Nat} (hk : f^[k] x = r) (hkm : k ≤ m) :
    f^[m] x = r := by
  obtain ⟨d, rfl⟩ := Nat.exists_eq_add_of_le hkm
  rw [Nat.add_comm, Function.iterate_add_apply, hk, iterate_root hr]

/-- A node that the links lead back to is never led to the root. -/
theorem not_reaches_of_cycle (hr : f r = r) (hi : i ≠ r) {k : Nat} (hk : f^[k + 1] i = i) :
    ¬ Reaches f r i := by
  rintro ⟨m, hm⟩
  have hcycle : ∀ j, f^[(k + 1) * j] i = i := by
    intro j
    rw [Function.iterate_mul]
    exact Function.iterate_fixed hk j
  have hroot : f^[(k + 1) * m] i = r :=
    Reaches.eventually hr hm (Nat.le_mul_of_pos_left m (Nat.succ_pos k))
  exact hi ((hcycle m).symm.trans hroot)

/-- No node of a tree is its own proper ancestor. -/
theorem Reaches.no_cycle (hr : f r = r) (hx : x ≠ r) (h : Reaches f r x) (k : Nat) :
    f^[k + 1] x ≠ x :=
  fun hk => not_reaches_of_cycle hr hx hk h

section Update

variable [DecidableEq β]

/-- Re-parenting `i` changes no ancestor of a node whose chain avoids `i`. -/
theorem iterate_update (k : Nat) (h : ∀ j < k, f^[j] x ≠ i) :
    (Function.update f i p)^[k] x = f^[k] x := by
  induction k with
  | zero => rfl
  | succ k ih =>
    rw [Function.iterate_succ_apply', Function.iterate_succ_apply',
      ih fun j hj => h j (by omega), Function.update_of_ne (h k (by omega))]

/-- **Re-parenting keeps a tree** when the new parent's chain avoids the node: every node that
reached the root still does. -/
theorem reaches_update (hp : Reaches f r p) (havoid : ¬ OnChain f i p) (hx : Reaches f r x) :
    Reaches (Function.update f i p) r x := by
  have hp' : Reaches (Function.update f i p) r p := by
    obtain ⟨k, hk⟩ := hp
    exact ⟨k, by rw [iterate_update k fun j _ hj => havoid ⟨j, hj⟩, hk]⟩
  have hi' : Reaches (Function.update f i p) r i := by
    refine Reaches.of_parent ?_
    rwa [Function.update_self]
  obtain ⟨k, hk⟩ := hx
  induction k generalizing x with
  | zero => exact ⟨0, hk⟩
  | succ k ih =>
    by_cases hxi : x = i
    · rwa [hxi]
    · refine Reaches.of_parent ?_
      rw [Function.update_of_ne hxi]
      exact ih (by rwa [Function.iterate_succ_apply] at hk)

/-- **Re-parenting under an own descendant** cuts the node off from the root. -/
theorem not_reaches_update (hr : f r = r) (hi : i ≠ r) (hon : OnChain f i p) :
    ¬ Reaches (Function.update f i p) r i := by
  classical
  obtain ⟨k, hk, hmin⟩ : ∃ k, f^[k] p = i ∧ ∀ j < k, f^[j] p ≠ i :=
    ⟨Nat.find hon, Nat.find_spec hon, fun j hj => Nat.find_min hon hj⟩
  have hup : (Function.update f i p)^[k] p = i := by rw [iterate_update k hmin, hk]
  refine not_reaches_of_cycle (k := k) ?_ hi ?_
  · rw [Function.update_of_ne (Ne.symm hi), hr]
  · rw [Function.iterate_succ_apply, Function.update_self, hup]

end Update

/-- Up to the first visit of the root a chain does not repeat a node. -/
theorem iterate_ne_of_first {K a b : Nat} (hK : f^[K] x = r) (hmin : ∀ j < K, f^[j] x ≠ r)
    (hab : a < b) (hb : b ≤ K) : f^[a] x ≠ f^[b] x := by
  intro heq
  refine hmin (K - b + a) (by omega) ?_
  rw [Function.iterate_add_apply, heq, ← Function.iterate_add_apply, Nat.sub_add_cancel hb, hK]

/-- In a table of `n` entries closed under `f`, the root is fewer than `n` links away. -/
theorem Reaches.exists_lt {f : Nat → Nat} {r x n : Nat} (hclosed : ∀ y < n, f y < n) (hx : x < n)
    (h : Reaches f r x) : ∃ k < n, f^[k] x = r := by
  classical
  obtain ⟨K, hK, hmin⟩ : ∃ K, f^[K] x = r ∧ ∀ j < K, f^[j] x ≠ r :=
    ⟨Nat.find h, Nat.find_spec h, fun j hj => Nat.find_min h hj⟩
  have hlt : ∀ k, f^[k] x < n := by
    intro k
    induction k with
    | zero => exact hx
    | succ k ih => rw [Function.iterate_succ_apply']; exact hclosed _ ih
  -- the first `K + 1` ancestors are distinct entries of the table
  have hinj : Set.InjOn (fun k => f^[k] x) (Finset.range (K + 1)) := by
    intro a ha b hb hab
    simp only [Finset.coe_range, Set.mem_Iio] at ha hb
    rcases Nat.lt_trichotomy a b with hlt' | heq | hlt'
    · exact absurd hab (iterate_ne_of_first hK hmin hlt' (by omega))
    · exact heq
    · exact absurd hab.symm (iterate_ne_of_first hK hmin hlt' (by omega))
  have hcard := Finset.card_le_card_of_injOn (s := Finset.range (K + 1))
    (t := Finset.range n) (fun k => f^[k] x) (fun k _ => by simpa using hlt k) hinj
  rw [Finset.card_range, Finset.card_range] at hcard
  exact ⟨K, by omega, hK⟩

end ParentChain
