import Mathlib.Data.Finset.Card
import Mathlib.Data.List.Find
import Mathlib.Logic.Function.Basic

/-!
# Keys bound to numbered slots

A table of `capacity` slots that hold values. `assign` binds a key to the lowest free slot from 1 on,
and that slot answers to the key until it is taken again: `erase` frees it but leaves the key bound.
Slot 0 is never handed out.

* `find_take_iff` — which keys are bound to which slots after a slot was taken;
* `used_take`, `used_release` — how many slots are in use;
* `free_eq_none_iff_used` — no slot is free iff all are in use.
-/

@[ext] structure SlotMap (κ α : Type*) where
  capacity : Nat
  /-- The slot that answers to a key. -/
  find : κ → Option Nat
  live : Nat → Bool
  value : Nat → α
  find_lt : ∀ k x, find k = some x → x < capacity
  find_inj : ∀ k k' x, find k = some x → find k' = some x → k = k'

namespace SlotMap

variable {κ α : Type*} (m : SlotMap κ α)

/-- The lowest free slot from 1 on. -/
def free : Option Nat := (List.range' 1 (m.capacity - 1)).find? fun x => !m.live x

theorem free_cases :
    (∃ i, 1 ≤ i ∧ i < m.capacity ∧ m.live i = false ∧ (∀ j, 1 ≤ j → j < i → m.live j = true) ∧ m.free = some i) ∨
    ((∀ i, 1 ≤ i → i < m.capacity → m.live i = true) ∧ m.free = none) := by
  unfold free
  cases h : (List.range' 1 (m.capacity - 1)).find? fun x => !m.live x with
  | some i =>
    obtain ⟨hi, hmem, hmin⟩ := List.find?_range'_eq_some.1 h
    rw [List.mem_range'_1] at hmem
    exact .inl ⟨i, hmem.1, by omega, by simpa using hi, fun j h1 h2 => by simpa using hmin j h1 h2, rfl⟩
  | none =>
    refine .inr ⟨fun i h1 h2 => ?_, rfl⟩
    simpa using List.find?_eq_none.1 h i (List.mem_range'_1.2 ⟨h1, by omega⟩)

variable {m}

theorem free_spec {i : Nat} (h : m.free = some i) : 1 ≤ i ∧ i < m.capacity ∧ m.live i = false := by
  rcases m.free_cases with ⟨j, h1, hlt, hfree, _, hj⟩ | ⟨_, hno⟩
  · rw [hj] at h
    cases h
    exact ⟨h1, hlt, hfree⟩
  · rw [hno] at h
    cases h

theorem free_eq_none_iff : m.free = none ↔ ∀ i, 1 ≤ i → i < m.capacity → m.live i = true := by
  rcases m.free_cases with ⟨i, h1, hlt, hfree, _, hi⟩ | ⟨hall, hno⟩
  · rw [hi]
    exact iff_of_false (by simp) fun hall => by rw [hall i h1 hlt] at hfree; cases hfree
  · exact iff_of_true hno hall

/-! ## The updates -/

/-- Slot `x` is free again. Its key stays bound. -/
def release (m : SlotMap κ α) (x : Nat) : SlotMap κ α := { m with live := Function.update m.live x false }

/-- The slot `k` is bound to is freed; `false` if there is none. -/
def erase (m : SlotMap κ α) (k : κ) : Bool × SlotMap κ α :=
  match m.find k with
  | none => (false, m)
  | some x => (true, m.release x)

section take

variable [DecidableEq κ]

/-- Slot `i` is taken for `k`, and its value updated by `f`. -/
def take (m : SlotMap κ α) (k : κ) (f : α → α) (i : Nat) (hi : i < m.capacity) : SlotMap κ α where
  capacity := m.capacity
  find k' := if k' = k then some i else if m.find k' = some i then none else m.find k'
  live := Function.update m.live i true
  value := Function.update m.value i (f (m.value i))
  find_lt := by
    intro k' x h
    split at h
    · cases h; exact hi
    · split at h
      · cases h
      · exact m.find_lt k' x h
  find_inj := by
    intro k₁ k₂ x h₁ h₂
    -- no key but `k` is bound to `i` any more
    have hother : ∀ k', k' ≠ k → (if m.find k' = some i then none else m.find k') = some x →
        m.find k' = some x ∧ x ≠ i := by
      intro k' _ h
      split at h
      · cases h
      · rename_i hne
        exact ⟨h, by rintro rfl; exact hne h⟩
    by_cases hk₁ : k₁ = k <;> by_cases hk₂ : k₂ = k
    · rw [hk₁, hk₂]
    · rw [if_pos hk₁] at h₁
      rw [if_neg hk₂] at h₂
      exact absurd (Option.some.inj h₁).symm (hother k₂ hk₂ h₂).2
    · rw [if_neg hk₁] at h₁
      rw [if_pos hk₂] at h₂
      exact absurd (Option.some.inj h₂).symm (hother k₁ hk₁ h₁).2
    · rw [if_neg hk₁] at h₁
      rw [if_neg hk₂] at h₂
      exact m.find_inj k₁ k₂ x (hother k₁ hk₁ h₁).1 (hother k₂ hk₂ h₂).1

/-- The slot taken for `k`, if there is a free one. -/
def assign (m : SlotMap κ α) (k : κ) (f : α → α) : Option Nat × SlotMap κ α :=
  match h : m.free with
  | none => (none, m)
  | some i => (some i, m.take k f i (free_spec h).2.1)

theorem assign_of_free (k : κ) (f : α → α) {i : Nat} (h : m.free = some i) :
    m.assign k f = (some i, m.take k f i (free_spec h).2.1) := by
  unfold assign
  split
  · rename_i hno
    rw [h] at hno
    cases hno
  · rename_i j hj
    obtain rfl : j = i := by
      rw [hj] at h
      exact Option.some.inj h
    rfl

theorem assign_of_full (k : κ) (f : α → α) (h : m.free = none) : m.assign k f = (none, m) := by
  unfold assign
  split
  · rfl
  · rename_i j hj
    rw [h] at hj
    cases hj

/-- **The bindings after slot `i` was taken for `k`.** -/
theorem find_take_iff {k : κ} {f : α → α} {i : Nat} {hi : i < m.capacity} {k' : κ} {x : Nat} :
    (m.take k f i hi).find k' = some x ↔ (k' = k ∧ x = i) ∨ (m.find k' = some x ∧ k' ≠ k ∧ x ≠ i) := by
  change (if k' = k then some i else if m.find k' = some i then none else m.find k') = some x ↔ _
  by_cases hk : k' = k
  · rw [if_pos hk, Option.some_inj]
    exact ⟨fun h => .inl ⟨hk, h.symm⟩, fun h => (h.resolve_right fun h => h.2.1 hk).2.symm⟩
  rw [if_neg hk]
  by_cases hold : m.find k' = some i
  · rw [if_pos hold]
    refine iff_of_false (by simp) ?_
    rintro (h | ⟨h, _, hx⟩)
    · exact hk h.1
    · rw [hold] at h
      exact hx (Option.some.inj h).symm
  · rw [if_neg hold]
    refine ⟨fun h => .inr ⟨h, hk, ?_⟩, fun h => (h.resolve_left fun h => hk h.1).1⟩
    rintro rfl
    exact hold h

end take

/-! ## How many slots are in use -/

/-- The number of slots in use. -/
def used (m : SlotMap κ α) : Nat := {x ∈ Finset.range m.capacity | m.live x = true}.card

theorem used_take [DecidableEq κ] {k : κ} {f : α → α} {i : Nat} {hi : i < m.capacity} (hfree : m.live i = false) :
    (m.take k f i hi).used = m.used + 1 := by
  have hset : {x ∈ Finset.range m.capacity | Function.update m.live i true x = true} =
      insert i {x ∈ Finset.range m.capacity | m.live x = true} := by
    ext x
    by_cases hx : x = i
    · simp [hx, hi]
    · simp [hx]
  change {x ∈ Finset.range m.capacity | Function.update m.live i true x = true}.card = _
  rw [hset, Finset.card_insert_of_notMem (by simp [hfree]), used]

theorem used_release {x : Nat} (hx : x < m.capacity) :
    (m.release x).used + (if m.live x = true then 1 else 0) = m.used := by
  have hset : {y ∈ Finset.range m.capacity | Function.update m.live x false y = true} =
      {y ∈ Finset.range m.capacity | m.live y = true}.erase x := by
    ext y
    by_cases hy : y = x
    · simp [hy]
    · simp [hy]
  change {y ∈ Finset.range m.capacity | Function.update m.live x false y = true}.card + _ = _
  rw [hset]
  by_cases hlive : m.live x = true
  · rw [if_pos hlive, Finset.card_erase_add_one (by simp [hlive, hx]), used]
  · rw [if_neg hlive, Finset.erase_eq_of_notMem (by simp [hlive]), used, Nat.add_zero]

/-- **No slot is free iff all are in use.** -/
theorem free_eq_none_iff_used (h0 : m.live 0 = true) : m.free = none ↔ m.used = m.capacity := by
  have hall : m.used = m.capacity ↔ ∀ x ∈ Finset.range m.capacity, m.live x = true := by
    rw [← Finset.card_filter_eq_iff, Finset.card_range, used]
  rw [free_eq_none_iff, hall]
  simp only [Finset.mem_range]
  refine ⟨fun h x hx => ?_, fun h x _ hx => h x hx⟩
  by_cases hx0 : x = 0
  · rw [hx0, h0]
  · exact h x (Nat.one_le_iff_ne_zero.2 hx0) hx

end SlotMap
