import SimpelDateisystem.Runs

/-!
# `remove_inode` against its contract

A remove answers `TRUE` iff the path resolves. It clears the bit and drops the entry, but the slot
keeps its names, and the lookup does not look at the bit: the path still resolves afterwards, and a
second remove of it answers `TRUE` again. `removeContract_iff`: the contract holds for a path
exactly as long as no slot, allocated or freed, carries its names.
-/

namespace Sfs

open Trace

/-- The call creates at `p`. -/
def FuseCall.CreatesAt (c : FuseCall) (p : AbsPath) : Prop :=
  ∃ mode, c.inodeCall = some ⟨.create p mode, c.env⟩

/-- What `remove_inode(p)` is to do in `s`. -/
structure RemoveContract (s : Process) (p : AbsPath) : Prop where
  /-- It returns `TRUE` exactly when `p` resolves to an allocated inode. -/
  returns : (removeInode p.str s).1 = true ↔ ∃ x, s.tbl.lookup p = some x ∧ s.tbl.Alloc x
  /-- Then the inode's bit is 0 afterwards -/
  frees : ∀ x, s.tbl.lookup p = some x → s.tbl.Alloc x → (removeInode p.str s).2.tbl.sBlock.ibit x = 0
  /-- and `p` does not resolve until it is created again. -/
  gone : (∃ x, s.tbl.lookup p = some x ∧ s.tbl.Alloc x) → ∀ cs,
    EachStep fuseStep KernelAdmits (removeInode p.str s).2 cs → (∀ c ∈ cs, ¬ c.CreatesAt p) →
    (exec fuseStep (removeInode p.str s).2 cs).tbl.lookup p = none
  /-- Else it returns `FALSE` and changes nothing. -/
  unchanged : (¬ ∃ x, s.tbl.lookup p = some x ∧ s.tbl.Alloc x) →
    (removeInode p.str s).1 = false ∧ (removeInode p.str s).2.tbl = s.tbl

namespace Table

variable {t : Table} {f parent : Nat} {p : AbsPath}

theorem carries_removed (h : (t.inodes parent).LastFilledLast) {x : Nat} :
    (t.removed f parent).Carries x p ↔ t.Carries x p := by
  rw [Carries, name_removed h, dir_removed h, Carries]

/-- The lookup does not notice a remove. -/
theorem lookup_removed (h : (t.inodes parent).LastFilledLast) (hp : p ≠ []) (hl : t.lookup p ≠ none) :
    (t.removed f parent).lookup p ≠ none := by
  intro hno
  rw [lookup_eq_none_iff hp, count_removed] at hno
  exact hl ((lookup_eq_none_iff hp).2 fun x hx hc => hno x hx ((carries_removed h).2 hc))

end Table

/-- In a state that satisfies the invariant. -/
theorem removeContract_iff_of_inv {s : Process} {p : AbsPath} (h : s.tbl.Inv) (hp : p ≠ []) :
    RemoveContract s p ↔ ∀ x < s.tbl.count, ¬ s.tbl.Carries x p := by
  rw [← Table.lookup_eq_none_iff hp]
  rcases removeInode_cases h hp with ⟨f, hf, hrem⟩ | ⟨hno, hrem⟩
  · refine ⟨fun hcon => ?_, fun hno => by rw [hf] at hno; cases hno⟩
    have hlast := h.lastFilledLast _ (h.parentOf_lt_size (h.lookup_used hp hf).2.2)
    have hgone := hcon.gone (hcon.returns.1 (by rw [hrem])) [] trivial (by simp)
    rw [exec_nil, hrem, tbl_flush] at hgone
    exact absurd hgone (Table.lookup_removed hlast hp (by rw [hf]; simp))
  · have hnot : ¬ ∃ x, s.tbl.lookup p = some x ∧ s.tbl.Alloc x := by
      rintro ⟨x, hx, _⟩
      rw [hno] at hx
      cases hx
    refine ⟨fun _ => hno, fun _ => ⟨?_, ?_, ?_, ?_⟩⟩
    · rw [hrem]
      exact ⟨by simp, fun h => absurd h hnot⟩
    · exact fun x hx ha => absurd ⟨x, hx, ha⟩ hnot
    · exact fun h => absurd h hnot
    · rw [hrem]
      exact fun _ => ⟨rfl, rfl⟩

/-- **The contract holds exactly for the paths whose names no slot carries**, in every state the
kernel can bring the file system to. -/
theorem removeContract_iff {s : Process} (hs : s.JustFormatted) {cs : List FuseCall}
    (hcs : EachStep fuseStep KernelAdmits s cs) {p : AbsPath} (hp : p ≠ []) :
    RemoveContract (exec fuseStep s cs) p ↔
      ∀ x < (exec fuseStep s cs).tbl.count, ¬ (exec fuseStep s cs).tbl.Carries x p :=
  removeContract_iff_of_inv (exec_fuseStep_inv hs.inv (hcs.mono fun _ _ h => h.nonRoot)) hp

/-- `/a` -/
def pathA : AbsPath := [.a]

/-- `/a` is created and removed. -/
def createUnlink : List FuseCall := [⟨.create pathA 0o644, ⟨1000, 1000, 0⟩⟩, ⟨.unlink pathA, ⟨1000, 1000, 0⟩⟩]

theorem createUnlink_run : EachStep fuseStep KernelAdmits (formatted 200000) createUnlink ∧
    (removeInode pathA.str (exec fuseStep (formatted 200000) createUnlink)).1 = true ∧
    (exec fuseStep (formatted 200000) createUnlink).tbl.lookup pathA = some 1 ∧
    ¬ (exec fuseStep (formatted 200000) createUnlink).tbl.Alloc 1 := by
  decide +kernel

theorem removeContract_createUnlink :
    RemoveContract (exec fuseStep (formatted 200000) createUnlink) pathA ↔
      ∀ x < (exec fuseStep (formatted 200000) createUnlink).tbl.count,
        ¬ (exec fuseStep (formatted 200000) createUnlink).tbl.Carries x pathA :=
  removeContract_iff justFormatted_three createUnlink_run.1 (by simp [pathA])

/-- A second remove of `/a` answers `TRUE` although the inode is free. -/
theorem removeContract_fails : EachStep fuseStep KernelAdmits (formatted 200000) createUnlink ∧
    ¬ RemoveContract (exec fuseStep (formatted 200000) createUnlink) pathA := by
  obtain ⟨hadmits, hremove, hlookup, hfree⟩ := createUnlink_run
  refine ⟨hadmits, fun hcon => ?_⟩
  obtain ⟨x, hx, ha⟩ := hcon.returns.1 hremove
  rw [hlookup] at hx
  cases hx
  exact hfree ha

end Sfs
