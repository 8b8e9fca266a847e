import SimpelDateisystem.Runs

/-!
# Is every allocated inode in its parent's directory?

A remove drops one entry and clears one bit, always of the same slot. A create sets a bit, but into
a full `dirContents` it enters nothing: the test `i > MAX_FILES_IN_DIR` of `add_to_direntry` never
holds. `allLinked_iff`: the links are complete all along a run iff no create of it takes a slot for
a parent whose `dirContents` is full.
-/

namespace Sfs

open Trace

/-- Every allocated inode but the root is in the `dirContents` of its parent. -/
def AllLinked (t : Table) : Prop := ∀ x, 1 ≤ x → x < t.count → t.Alloc x → t.Linked (t.parentOf x) x

/-- If the call takes a slot, the parent's `dirContents` has a free position. -/
def ParentHasRoom (s : Process) (c : FuseCall) : Prop :=
  ∀ p mode i parent, c.Takes s.tbl p mode i parent → (s.tbl.inodes parent).HasRoom

theorem Table.Formatted.allLinked {t : Table} (h : t.Formatted) : AllLinked t := by
  intro x h1 _ ha
  rw [Table.Alloc, h.ibit, if_neg (by omega)] at ha
  exact absurd ha (by decide)

namespace Table

variable {t : Table} {p : AbsPath} {e : Env} {mode : BitVec 32} {i parent f : Nat}

theorem allLinked_created (h : t.Inv) (hi : t.freeSlot = some i) (hparent : t.lookup p.parent = some parent)
    (hroom : (t.inodes parent).HasRoom) (hl : AllLinked t) : AllLinked (t.created e p mode i parent) := by
  intro x h1 hx ha
  rw [count_created] at hx
  rw [h.parentOf_created hparent, linked_created]
  by_cases hxi : x = i
  · exact .inr ⟨if_pos hxi, hxi, hroom⟩
  · rw [if_neg hxi]
    exact .inl (hl x h1 hx (((h.alloc_created (freeSlot_spec hi).2.1 x).1 ha).resolve_left hxi))

/-- Into a full directory the new inode is allocated without an entry. -/
theorem not_allLinked_created (h : t.Inv) (hi : t.freeSlot = some i)
    (hparent : t.lookup p.parent = some parent) (hfull : ¬ (t.inodes parent).HasRoom) :
    ¬ AllLinked (t.created e p mode i parent) := by
  intro hl
  obtain ⟨h1, hlt, hfree⟩ := freeSlot_spec hi
  have hparlt : parent < TABLE_SIZE := Nat.lt_of_lt_of_le (h.lookup_inumber hparent).1 h.le_size
  have hlink := hl i h1 (by rwa [count_created]) ((h.alloc_created hlt i).2 (.inl rfl))
  rw [h.parentOf_created hparent, if_pos rfl, linked_created] at hlink
  rcases hlink with hlink | ⟨_, _, hroom⟩
  · exact hfree (h.linked_spec hparlt hlink).2.2.1
  · exact hfull hroom

theorem allLinked_removed (h : t.Inv) (hf : f < t.count) (hu : t.Used f) (hl : AllLinked t) :
    AllLinked (t.removed f (t.parentOf f)) := by
  intro x h1 hx ha
  rw [count_removed] at hx
  obtain ⟨hxf, ha⟩ := (h.alloc_removed hf x).1 ha
  rw [h.parentOf_removed hu, h.linked_removed hf hu (h.parentOf_lt_size (h.used_of_alloc h1 hx ha))]
  exact ⟨hl x h1 hx ha, hxf⟩

end Table

/-- One call with room in the parent keeps the links complete. -/
theorem allLinked_fuseStep {s : Process} {c : FuseCall} (h : s.tbl.Inv) (hc : c.NonRoot)
    (hroom : ParentHasRoom s c) (hl : AllLinked s.tbl) : AllLinked (fuseStep s c).tbl := by
  rcases fuseStep_cases h hc with ⟨p, mode, i, parent, ht, htbl⟩ | ⟨p, f, hp, hf, htbl⟩ | ⟨_, _, htbl⟩
  · rw [htbl]
    exact Table.allLinked_created h ht.2.1 ht.2.2 (hroom p mode i parent ht) hl
  · rw [htbl]
    obtain ⟨_, hlt, hu⟩ := h.lookup_used hp hf.2
    exact Table.allLinked_removed h hlt hu hl
  · rwa [htbl]

/-- **The links are complete all along a run iff every create that takes a slot has room.** -/
theorem allLinked_iff {s : Process} (hs : s.JustFormatted) {cs : List FuseCall}
    (hcs : EachStep fuseStep ResolvingAdmits s cs) :
    Always fuseStep (fun s => AllLinked s.tbl) s cs ↔ EachStep fuseStep ParentHasRoom s cs := by
  have good : ∀ s c, s.tbl.Inv ∧ AllLinked s.tbl → ResolvingAdmits s c → ParentHasRoom s c →
      (fuseStep s c).tbl.Inv ∧ AllLinked (fuseStep s c).tbl :=
    fun s c h hc hroom => ⟨fuseStep_inv h.1 hc.nonRoot, allLinked_fuseStep h.1 hc.nonRoot hroom h.2⟩
  have bad : ∀ s c, s.tbl.Inv ∧ AllLinked s.tbl → ResolvingAdmits s c → ¬ ParentHasRoom s c →
      ¬ AllLinked (fuseStep s c).tbl := by
    intro s c h _ hfull
    simp only [ParentHasRoom, not_forall] at hfull
    obtain ⟨p, mode, i, parent, ht, hfull⟩ := hfull
    rw [ht.tbl]
    exact Table.not_allLinked_created h.1 ht.2.1 ht.2.2 hfull
  exact always_iff (fun _ h => h.2) good bad ⟨hs.inv, hs.tbl.allLinked⟩ hcs

theorem capital_ne (k : Fin 31) : UInt8.ofNat (65 + k) ≠ slash ∧ UInt8.ofNat (65 + k) ≠ 0 := by
  revert k; decide

/-- 31 files are created in the root directory. -/
def thirtyOneFiles : List FuseCall :=
  (List.finRange 31).map fun (k : Fin 31) =>
    ⟨.create [.letter (UInt8.ofNat (65 + k)) (capital_ne k)] 0o644, ⟨1000, 1000, 0⟩⟩

theorem formatCount_forty : formatCount 50000000 = 40 := by decide +kernel

theorem thirtyOneFiles_run : EachStep fuseStep ResolvingAdmits (formatted 50000000) thirtyOneFiles ∧
    (exec fuseStep (formatted 50000000) thirtyOneFiles).tbl.parentOf 31 = 0 ∧
    31 < (exec fuseStep (formatted 50000000) thirtyOneFiles).tbl.count ∧
    (exec fuseStep (formatted 50000000) thirtyOneFiles).tbl.Alloc 31 ∧
    ¬ (exec fuseStep (formatted 50000000) thirtyOneFiles).tbl.Linked 0 31 := by
  decide +kernel

theorem allLinked_iff_thirtyOneFiles :
    Always fuseStep (fun s => AllLinked s.tbl) (formatted 50000000) thirtyOneFiles ↔
      EachStep fuseStep ParentHasRoom (formatted 50000000) thirtyOneFiles :=
  allLinked_iff (justFormatted_formatted (by rw [formatCount_forty]; decide) (by rw [formatCount_forty]; decide))
    thirtyOneFiles_run.1

/-- The 31st file is allocated, but not in the root directory. -/
theorem allLinked_fails : EachStep fuseStep ResolvingAdmits (formatted 50000000) thirtyOneFiles ∧
    ¬ AllLinked (exec fuseStep (formatted 50000000) thirtyOneFiles).tbl := by
  obtain ⟨hadmits, hparent, hlt, ha, hno⟩ := thirtyOneFiles_run
  refine ⟨hadmits, fun hl => ?_⟩
  have hlink := hl 31 (by decide) hlt ha
  rw [hparent] at hlink
  exact hno hlink

end Sfs
