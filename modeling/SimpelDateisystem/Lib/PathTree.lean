import Mathlib.Data.Finset.Card

/-!
# A tree of paths

A file system without its inodes: the paths of what is there, root first, and which of them are directories.
A path is a list of components, its parent `dropLast`. The tree has room for `capacity` paths.

`create` and `remove` do nothing where they are not allowed; so every tree there is is one.
-/

variable {γ : Type*} [DecidableEq γ]

/-- The paths of what is in a file system, and those of the directories among them. -/
structure PathTree (γ : Type*) where
  paths : Finset (List γ)
  dirs : Finset (List γ)
  capacity : Nat
  root : [] ∈ dirs
  subset : dirs ⊆ paths
  /-- What there is is in a directory. -/
  closed : ∀ p ∈ paths, p.dropLast ∈ dirs
  fits : paths.card ≤ capacity

namespace PathTree

/-- Nothing but the root. -/
def fresh (γ : Type*) [DecidableEq γ] (capacity : Nat) (h : 1 ≤ capacity) : PathTree γ where
  paths := {[]}
  dirs := {[]}
  capacity := capacity
  root := Finset.mem_singleton_self []
  subset := Finset.Subset.refl _
  closed p hp := by
    rw [Finset.mem_singleton.1 hp]
    exact Finset.mem_singleton_self []
  fits := by rwa [Finset.card_singleton]

/-- `p` can be made: it is in a directory, and not there yet. -/
def CanCreate (T : PathTree γ) (p : List γ) : Prop := p.dropLast ∈ T.dirs ∧ p ∉ T.paths

/-- `p` can be removed: it is there, not the root, and has no children. -/
def CanRemove (T : PathTree γ) (p : List γ) : Prop := p ∈ T.paths ∧ p ≠ [] ∧ ∀ q ∈ T.paths, q.dropLast ≠ p

instance (T : PathTree γ) (p : List γ) : Decidable (T.CanCreate p) := by unfold CanCreate; infer_instance

instance (T : PathTree γ) (p : List γ) : Decidable (T.CanRemove p) := by unfold CanRemove; infer_instance

/-- Makes `p`, unless it cannot be made or the tree is full. -/
def create (T : PathTree γ) (p : List γ) (dir : Bool) : PathTree γ :=
  if h : T.CanCreate p ∧ T.paths.card < T.capacity then
    { paths := insert p T.paths
      dirs := if dir then insert p T.dirs else T.dirs
      capacity := T.capacity
      root := by
        split
        · exact Finset.mem_insert_of_mem T.root
        · exact T.root
      subset := by
        split
        · exact Finset.insert_subset_insert p T.subset
        · exact T.subset.trans (Finset.subset_insert p T.paths)
      closed := fun q hq => by
        have hold : q.dropLast ∈ T.dirs := by
          rcases Finset.mem_insert.1 hq with rfl | hq
          · exact h.1.1
          · exact T.closed q hq
        split
        · exact Finset.mem_insert_of_mem hold
        · exact hold
      fits := by
        rw [Finset.card_insert_of_notMem h.1.2]
        exact h.2 }
  else T

/-- Removes `p`, unless it cannot be removed. -/
def remove (T : PathTree γ) (p : List γ) : PathTree γ :=
  if h : T.CanRemove p then
    { paths := T.paths.erase p
      dirs := T.dirs.erase p
      capacity := T.capacity
      root := Finset.mem_erase.2 ⟨h.2.1.symm, T.root⟩
      subset := Finset.erase_subset_erase p T.subset
      closed := fun q hq => by
        have hq' := Finset.mem_of_mem_erase hq
        exact Finset.mem_erase.2 ⟨h.2.2 q hq', T.closed q hq'⟩
      fits := (Finset.card_le_card (Finset.erase_subset p T.paths)).trans T.fits }
  else T

variable {T : PathTree γ} {p q : List γ} {dir : Bool}

theorem mem_create (h : T.CanCreate p) (hfit : T.paths.card < T.capacity) :
    q ∈ (T.create p dir).paths ↔ q = p ∨ q ∈ T.paths := by
  rw [create, dif_pos ⟨h, hfit⟩, Finset.mem_insert]

theorem mem_dirs_create (h : T.CanCreate p) (hfit : T.paths.card < T.capacity) :
    q ∈ (T.create p dir).dirs ↔ (q = p ∧ dir = true) ∨ q ∈ T.dirs := by
  rw [create, dif_pos ⟨h, hfit⟩]
  cases dir <;> simp

theorem create_of_full (hfull : T.paths.card = T.capacity) : T.create p dir = T :=
  dif_neg fun h => Nat.ne_of_lt h.2 hfull

@[simp] theorem capacity_create : (T.create p dir).capacity = T.capacity := by
  unfold create
  split <;> rfl

theorem mem_remove (h : T.CanRemove p) : q ∈ (T.remove p).paths ↔ q ≠ p ∧ q ∈ T.paths := by
  rw [remove, dif_pos h, Finset.mem_erase]

theorem mem_dirs_remove (h : T.CanRemove p) : q ∈ (T.remove p).dirs ↔ q ≠ p ∧ q ∈ T.dirs := by
  rw [remove, dif_pos h, Finset.mem_erase]

@[simp] theorem capacity_remove : (T.remove p).capacity = T.capacity := by
  unfold remove
  split <;> rfl

end PathTree
