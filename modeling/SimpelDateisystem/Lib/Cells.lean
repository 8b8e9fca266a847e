import Mathlib.Data.Multiset.Range
import Mathlib.Data.Multiset.Filter

/-!
# Fixed-size arrays addressed by a number

A C array of `n` cells read and written at an index that need not be in range: `peek` reads a
default past the end, `poke` leaves the array as it is. `map_range_succ_eq_cons` is the rule for a
cell that is dropped by moving the last one into its place.
-/

namespace Cells

variable {α : Type*} {n : Nat}

def peek (d : α) (v : Vector α n) (i : Nat) : α := v[i]?.getD d

def poke (v : Vector α n) (i : Nat) (x : α) : Vector α n := if h : i < n then v.set i x h else v

@[simp] theorem peek_poke_self (d : α) (v : Vector α n) {i : Nat} (x : α) (hi : i < n) :
    peek d (poke v i x) i = x := by
  simp [peek, poke, hi]

@[simp] theorem peek_poke_of_ne (d : α) (v : Vector α n) {i j : Nat} (x : α) (hij : i ≠ j) :
    peek d (poke v i x) j = peek d v j := by
  unfold peek poke
  split
  · rw [Vector.getElem?_set, if_neg hij]
  · rfl

theorem peek_poke (d : α) (v : Vector α n) {i : Nat} (j : Nat) (x : α) (hi : i < n) :
    peek d (poke v i x) j = if j = i then x else peek d v j := by
  by_cases hij : j = i
  · rw [if_pos hij, hij, peek_poke_self d v x hi]
  · rw [if_neg hij, peek_poke_of_ne d v x (Ne.symm hij)]

@[simp] theorem peek_replicate (d : α) (i : Nat) : peek d (Vector.replicate n d) i = d := by
  unfold peek
  rw [Vector.getElem?_replicate]
  split <;> rfl

theorem peek_of_le (d : α) (v : Vector α n) {i : Nat} (hi : n ≤ i) : peek d v i = d := by
  simp [peek, Vector.getElem?_eq_none hi]

/-- Arrays that read the same at every index are the same. -/
theorem ext_peek (d : α) {v w : Vector α n} (h : ∀ i < n, peek d v i = peek d w i) : v = w := by
  ext i hi
  simpa [peek, hi] using h i hi

theorem peek_map {β : Type*} (f : α → β) (d : α) (v : Vector α n) (i : Nat) :
    peek (f d) (v.map f) i = f (peek d v i) := by
  unfold peek
  rw [Vector.getElem?_map]
  cases v[i]? <;> rfl

/-- The cells `0, …, n` are cell `j` and what is left when cell `n` moves into its place. -/
theorem map_range_succ_eq_cons {f g : Nat → α} {n j : Nat} (hj : j ≤ n) (hlast : j < n → g j = f n)
    (hrest : ∀ k < n, k ≠ j → g k = f k) :
    (Multiset.range (n + 1)).map f = f j ::ₘ (Multiset.range n).map g := by
  rw [Multiset.range_succ, Multiset.map_cons]
  by_cases hjn : j = n
  · subst hjn
    have hsame : (Multiset.range j).map g = (Multiset.range j).map f :=
      Multiset.map_congr rfl fun k hk => hrest k (Multiset.mem_range.1 hk) (Nat.ne_of_lt (Multiset.mem_range.1 hk))
    rw [hsame]
  · have hlt : j < n := Nat.lt_of_le_of_ne hj hjn
    have hsplit : Multiset.range n = j ::ₘ (Multiset.range n).erase j :=
      (Multiset.cons_erase (Multiset.mem_range.2 hlt)).symm
    have hsame : ((Multiset.range n).erase j).map g = ((Multiset.range n).erase j).map f := by
      refine Multiset.map_congr rfl fun k hk => ?_
      obtain ⟨hkj, hkn⟩ := (Multiset.nodup_range n).mem_erase_iff.1 hk
      exact hrest k (Multiset.mem_range.1 hkn) hkj
    rw [hsplit, Multiset.map_cons, Multiset.map_cons, hsame, hlast hlt, Multiset.cons_swap]

end Cells
