import SimpelDateisystem.CreateRemove
import Mathlib.Data.List.Find

/-!
# Does at most one inode answer to a path?

A freed slot keeps its two names and goes on answering to its path, so a create on a path that does
not resolve meets no slot with its names, freed ones included. `uniquelyNamed_run`: as long as
`create_inode` is called on such paths only, the names of all slots stay distinct, and
`findFileOrDir` finds the same slot in whatever order it scans them.
-/

namespace Sfs

open Trace CString

/-- `create_inode` on a path that does not resolve, `remove_inode` on any path below the root. -/
def UnresolvedAdmits (s : Process) (c : InodeCall) : Prop :=
  match c.op with
  | .create p _ => s.tbl.lookup p = none
  | .remove p => p ≠ []

instance (s : Process) (c : InodeCall) : Decidable (UnresolvedAdmits s c) :=
  match c with
  | ⟨.create p _, _⟩ => inferInstanceAs (Decidable (s.tbl.lookup p = none))
  | ⟨.remove p, _⟩ => inferInstanceAs (Decidable (p ≠ []))

theorem UnresolvedAdmits.nonRoot {s : Process} {c : InodeCall} (h : UnresolvedAdmits s c) : c.NonRoot := by
  obtain ⟨op, e⟩ := c
  cases op with
  | create p mode => simp [InodeCall.NonRoot]
  | remove p =>
    intro hop
    cases hop
    exact h rfl

namespace Table

/-- No two slots with a name, allocated or freed, have the same two names. -/
def DistinctNames (t : Table) : Prop :=
  ∀ x < t.count, ∀ y < t.count, x ≠ y → (t.inodes x).name ≠ [] →
    ¬ ((t.inodes x).name = (t.inodes y).name ∧ (t.inodes x).dir = (t.inodes y).dir)

/-- At most one slot answers to a path. -/
structure UniquelyNamed (t : Table) : Prop where
  distinct : t.DistinctNames
  /-- The first match of `findFileOrDir` is its only one. -/
  only : ∀ p : AbsPath, p ≠ [] → ∀ x < t.count, matchesPath t p.str x = true → findFileOrDir t p.str = some x
  /-- It finds the same slot, or none, in any other order of the scan. -/
  anyOrder : ∀ p : AbsPath, p ≠ [] → ∀ order : List Nat, order.Perm (List.range t.count) →
    order.find? (matchesPath t p.str) = findFileOrDir t p.str

variable {t : Table} {p : AbsPath} {e : Env} {mode : BitVec 32} {i parent : Nat}

/-! ## Distinct names -/

theorem Formatted.distinctNames (h : t.Formatted) (hsize : t.count ≤ TABLE_SIZE) : t.DistinctNames := by
  intro x hx y hy hxy hname hsame
  by_cases hx0 : x = 0
  · -- the root is the only slot with a name
    have hy0 : y ≠ 0 := fun hy0 => hxy (hx0.trans hy0.symm)
    rw [hsame.1, h.inodes y (by omega) (by omega)] at hname
    exact hname (FileControlBlock.name_zero _)
  · rw [h.inodes x (by omega) (by omega)] at hname
    exact hname (FileControlBlock.name_zero _)

/-- A create on a path that does not resolve gives the new slot names that no slot has. -/
theorem distinctNames_created (hnone : t.lookup p = none) (hd : t.DistinctNames) :
    (t.created e p mode i parent).DistinctNames := by
  intro x hx y hy hxy hname hsame
  rw [count_created] at hx hy
  obtain ⟨hxi, _, hsame'⟩ := sameNames_created hnone hx hy hxy hsame.1 hsame.2
  rw [name_created, if_neg hxi] at hname
  exact hd x hx y hy hxy hname hsame'

/-- A remove changes no name. -/
theorem distinctNames_removed {f : Nat} (hlast : (t.inodes parent).LastFilledLast) (hd : t.DistinctNames) :
    (t.removed f parent).DistinctNames := by
  intro x hx y hy hxy hname
  rw [count_removed] at hx hy
  rw [name_removed hlast] at hname
  rw [name_removed hlast, name_removed hlast, dir_removed hlast, dir_removed hlast]
  exact hd x hx y hy hxy hname

/-! ## Lookup -/

theorem DistinctNames.eq_of_carries (hd : t.DistinctNames) (hp : p ≠ []) {x y : Nat} (hx : x < t.count)
    (hy : y < t.count) (hcx : t.Carries x p) (hcy : t.Carries y p) : x = y := by
  by_contra hxy
  refine hd x hx y hy hxy ?_ ⟨hcx.1.trans hcy.1.symm, hcx.2.trans hcy.2.symm⟩
  rw [hcx.1]
  exact AbsPath.leaf_ne_nil hp

/-- **With distinct names the scan order does not matter.** -/
theorem DistinctNames.uniquelyNamed (hd : t.DistinctNames) : t.UniquelyNamed where
  distinct := hd
  only := by
    intro p hp x hx hmatch
    have hcx := matchesPath_iff.1 hmatch
    refine (lookup_eq_some_iff hp).2 ⟨hx, hcx, fun y hy hcy => ?_⟩
    exact Nat.ne_of_lt hy (hd.eq_of_carries hp (Nat.lt_trans hy hx) hx hcy hcx)
  anyOrder := by
    intro p hp order hperm
    have hone : {x ∈ List.range t.count | matchesPath t p.str x}.Subsingleton := by
      rintro x ⟨hx, hmx⟩ y ⟨hy, hmy⟩
      exact hd.eq_of_carries hp (List.mem_range.1 hx) (List.mem_range.1 hy) (matchesPath_iff.1 hmx)
        (matchesPath_iff.1 hmy)
    rw [← List.find?_eq_find?_of_perm hperm.symm hone, findFileOrDir, if_neg (AbsPath.str_ne_root hp)]

end Table

/-! ## Runs -/

/-- One admitted call keeps the names distinct. -/
theorem distinctNames_inodeStep {s : Process} {c : InodeCall} (h : s.tbl.Inv) (hc : UnresolvedAdmits s c)
    (hd : s.tbl.DistinctNames) : (inodeStep s c).tbl.DistinctNames := by
  rcases inodeStep_cases c h hc.nonRoot with
    ⟨p, mode, i, parent, hop, _, _, _, htbl⟩ | ⟨p, f, hp, _, hf, _, htbl⟩ | ⟨_, _, _, heq⟩
  · rw [htbl]
    simp only [UnresolvedAdmits, hop] at hc
    exact Table.distinctNames_created hc hd
  · obtain ⟨_, _, hu⟩ := h.lookup_used hp hf
    rw [htbl]
    exact Table.distinctNames_removed (h.lastFilledLast _ (h.parentOf_lt_size hu)) hd
  · rwa [heq]

/-- **At most one inode answers to a path**, in every state that creates on unresolved paths and removes
can reach. -/
theorem uniquelyNamed_run {s : Process} (hs : s.JustFormatted) {cs : List InodeCall}
    (hcs : EachStep inodeStep UnresolvedAdmits s cs) : (exec inodeStep s cs).tbl.UniquelyNamed := by
  have hstep : ∀ s c, s.tbl.Inv ∧ s.tbl.DistinctNames → UnresolvedAdmits s c →
      (inodeStep s c).tbl.Inv ∧ (inodeStep s c).tbl.DistinctNames :=
    fun s c h hc => ⟨inodeStep_inv h.1 hc.nonRoot, distinctNames_inodeStep h.1 hc h.2⟩
  have hend : (exec inodeStep s cs).tbl.Inv ∧ (exec inodeStep s cs).tbl.DistinctNames :=
    EachStep.invariant hstep ⟨hs.inv, hs.tbl.distinctNames hs.le_size⟩ hcs
  exact hend.2.uniquelyNamed

/-- Slot 1 is freed by `/a` and taken by `/b`; a second remove of `/a` finds nothing. -/
def reusedSlot : List InodeCall :=
  freedSlot ++ [⟨.create [.b] 0o644, ⟨1000, 1000, 0⟩⟩, ⟨.remove [.a], ⟨1000, 1000, 0⟩⟩]

theorem reusedSlot_run : EachStep inodeStep UnresolvedAdmits (formatted 200000) reusedSlot := by
  decide +kernel

theorem uniquelyNamed_reusedSlot : (exec inodeStep (formatted 200000) reusedSlot).tbl.UniquelyNamed :=
  uniquelyNamed_run justFormatted_three reusedSlot_run

end Sfs
