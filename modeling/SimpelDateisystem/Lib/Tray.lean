import SimpelDateisystem.Lib.Cells
import Mathlib.Data.List.Find
import Mathlib.Data.List.Induction

/-!
# Trays

A row of `n` places, each empty or with a thing in it. `put` takes the first empty place. `remove` takes a
thing away and moves what is in the last place into its place, whether or not anything is there. From the
front one sees the things before the first gap (`row`).

* `get_put`, `get_drop` — each place after an update;
* `find_eq_some_iff` — where a thing is that is on the tray at most once.
-/

@[ext] structure Tray (α : Type*) (n : Nat) where
  places : Vector (Option α) n
deriving DecidableEq

namespace Tray

open Cells

variable {α : Type*} {n : Nat} (b : Tray α n)

def empty : Tray α n := ⟨Vector.replicate n none⟩

/-- What is in place `k`. -/
def get (k : Nat) : Option α := peek none b.places k

def firstFree : Option Nat := (List.range n).find? fun k => (b.get k).isNone

/-- Into the first empty place. A full tray stays as it is. -/
def put (a : α) : Tray α n :=
  match b.firstFree with
  | some k => ⟨poke b.places k (some a)⟩
  | none => b

/-- The last place moves to place `k`. -/
def drop (k : Nat) : Tray α n := ⟨poke (poke b.places k (b.get (n - 1))) (n - 1) none⟩

/-- The things before the first empty place. -/
def row : List α := (List.range (b.firstFree.getD n)).filterMap b.get

section find

variable [DecidableEq α]

def find (a : α) : Option Nat := (List.range n).find? fun k => b.get k = some a

def remove (a : α) : Tray α n :=
  match b.find a with
  | some k => b.drop k
  | none => b

end find

/-! ## Places -/

theorem get_empty (k : Nat) : (empty : Tray α n).get k = none := peek_replicate none k

theorem ext_get {b b' : Tray α n} (h : ∀ k < n, b.get k = b'.get k) : b = b' :=
  Tray.ext (ext_peek none h)

theorem firstFree_eq_some_iff {k : Nat} :
    b.firstFree = some k ↔ k < n ∧ b.get k = none ∧ ∀ j < k, b.get j ≠ none := by
  unfold firstFree
  rw [List.find?_range_eq_some]
  simp only [List.mem_range, Option.isNone_iff_eq_none, Bool.not_eq_true', Option.isNone_eq_false_iff,
    Option.isSome_iff_ne_none]
  tauto

theorem firstFree_eq_none_iff : b.firstFree = none ↔ ∀ k < n, b.get k ≠ none := by
  unfold firstFree
  rw [List.find?_range_eq_none]
  simp only [Bool.not_eq_true', Option.isNone_eq_false_iff, Option.isSome_iff_ne_none]

/-! ## Updates -/

theorem get_put (a : α) (k : Nat) : (b.put a).get k = if b.firstFree = some k then some a else b.get k := by
  unfold put
  cases hfree : b.firstFree with
  | none => simp
  | some j =>
    obtain ⟨hj, _⟩ := b.firstFree_eq_some_iff.1 hfree
    change peek none (poke b.places j (some a)) k = _
    rw [peek_poke none b.places k (some a) hj]
    exact if_congr (eq_comm.trans (Option.some_inj (a := j)).symm) rfl rfl

theorem get_drop {j : Nat} (hj : j < n) (k : Nat) :
    (b.drop j).get k = if k = n - 1 then none else if k = j then b.get (n - 1) else b.get k := by
  change peek none (poke (poke b.places j (b.get (n - 1))) (n - 1) none) k = _
  rw [peek_poke none _ k none (by omega), peek_poke none b.places k _ hj]
  rfl

section find

variable [DecidableEq α] {b} {a : α}

theorem find_eq_none_iff : b.find a = none ↔ ∀ k < n, b.get k ≠ some a := by
  unfold find
  rw [List.find?_range_eq_none]
  simp only [Bool.not_eq_true', decide_eq_false_iff_not, ne_eq]

theorem find_eq_some_iff (hone : ∀ j < n, ∀ k < n, b.get j = some a → b.get k = some a → j = k) {k : Nat} :
    b.find a = some k ↔ k < n ∧ b.get k = some a := by
  unfold find
  rw [List.find?_range_eq_some]
  simp only [List.mem_range, decide_eq_true_eq, Bool.not_eq_true', decide_eq_false_iff_not]
  refine ⟨fun ⟨hk, hlt, _⟩ => ⟨hlt, hk⟩, fun ⟨hlt, hk⟩ => ⟨hk, hlt, fun j hj hja => ?_⟩⟩
  exact Nat.ne_of_lt hj (hone j (Nat.lt_trans hj hlt) k hlt hja hk)

theorem remove_of_not_mem (h : ∀ k < n, b.get k ≠ some a) : b.remove a = b := by
  rw [remove, find_eq_none_iff.2 h]

theorem remove_eq_drop (hone : ∀ j < n, ∀ k < n, b.get j = some a → b.get k = some a → j = k) {k : Nat} (hk : k < n)
    (ha : b.get k = some a) : b.remove a = b.drop k := by
  rw [remove, (find_eq_some_iff hone).2 ⟨hk, ha⟩]

end find

/-! ## What happens to a tray -/

inductive Change (α : Type*) where
  | put (a : α)
  | remove (a : α)

variable [DecidableEq α]

def apply (b : Tray α n) : Change α → Tray α n
  | .put a => b.put a
  | .remove a => b.remove a

/-- The tray after some changes, the first one first. -/
def after (b : Tray α n) (cs : List (Change α)) : Tray α n := cs.foldl apply b

theorem after_append (cs cs' : List (Change α)) : b.after (cs ++ cs') = (b.after cs).after cs' :=
  List.foldl_append

/-- Things that are only ever put on a tray stand in the order they came. -/
theorem get_after_puts (as : List α) {k : Nat} (hk : k < n) :
    ((empty : Tray α n).after (as.map .put)).get k = as[k]? := by
  induction as using List.reverseRecOn generalizing k with
  | nil => exact get_empty k
  | append_singleton as a ih =>
    rw [List.map_append, after_append]
    change (((empty : Tray α n).after (as.map .put)).put a).get k = _
    have hfree : ((empty : Tray α n).after (as.map .put)).firstFree = some k ↔ k = as.length := by
      rw [firstFree_eq_some_iff, ih hk, List.getElem?_eq_none_iff]
      constructor
      · rintro ⟨_, hle, hmin⟩
        by_contra hne
        exact hmin as.length (by omega) (by rw [ih (by omega), List.getElem?_eq_none (Nat.le_refl _)])
      · rintro rfl
        refine ⟨hk, Nat.le_refl _, fun j hj hnone => ?_⟩
        rw [ih (by omega), List.getElem?_eq_none_iff] at hnone
        omega
    rw [get_put, ih hk]
    by_cases hlen : k = as.length
    · rw [if_pos (hfree.2 hlen), hlen, List.getElem?_concat_length]
    · rw [if_neg (mt hfree.1 hlen)]
      by_cases hlt : k < as.length
      · rw [List.getElem?_append_left hlt]
      · rw [List.getElem?_eq_none (by omega), List.getElem?_eq_none (by simp; omega)]

/-- **A tray that nothing was removed from** shows all that was put on it, unless it is full. -/
theorem row_after_puts {as : List α} (hroom : ((empty : Tray α n).after (as.map .put)).firstFree ≠ none) :
    ((empty : Tray α n).after (as.map .put)).row = as := by
  obtain ⟨m, hm⟩ := Option.ne_none_iff_exists'.1 hroom
  obtain ⟨hlt, hnone, hmin⟩ := (firstFree_eq_some_iff _).1 hm
  rw [get_after_puts as hlt, List.getElem?_eq_none_iff] at hnone
  have hlen : m = as.length := by
    by_contra hne
    exact hmin as.length (by omega) (by rw [get_after_puts as (by omega), List.getElem?_eq_none (Nat.le_refl _)])
  rw [row, hm, Option.getD_some, List.filterMap_congr (g := fun k => as[k]?)]
  · have hmap : (List.range as.length).map (fun k => as[k]?) = as.map some :=
      List.ext_getElem (by simp) fun k h1 h2 => by simp
    calc (List.range m).filterMap (fun k => as[k]?)
        = ((List.range as.length).map fun k => as[k]?).filterMap id := by rw [List.filterMap_map, hlen]; rfl
      _ = (as.map some).filterMap id := by rw [hmap]
      _ = as := by rw [List.filterMap_map]; exact List.filterMap_some
  · intro k hk
    exact get_after_puts as (Nat.lt_trans (List.mem_range.1 hk) hlt)

end Tray
