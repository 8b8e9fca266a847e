import SimpelDateisystem.Runs

/-!
# `remove_from_direntry` removes one entry

The scan for the last entry (`DateiSteuerBlock.c:150-154`) steps over two positions at every entry
and can end one past the array; `indexedRemoveFromDirentryAt?` is the same function with each access to
`dirContents` checked. `removesEntry_of_run`: after any creates and removes the scan ends at position
29, no access leaves the array, and the entries lose exactly the child's.
-/

namespace Sfs

open Trace Cells

/-! ## `indexed_remove_from_direntry` with its accesses checked -/

namespace FileControlBlock

variable (f : FileControlBlock Ptr)

/-- `dirContents[k]`, if there is such a position. -/
def entryAt? (k : Int) : Option Ptr :=
  if 0 ≤ k ∧ k < MAX_FILES_IN_DIR then some (f.entry k.toNat) else none

/-- `dirContents[k] = p`, if there is such a position. -/
def setEntryAt? (k : Int) (p : Ptr) : Option (FileControlBlock Ptr) :=
  if 0 ≤ k ∧ k < MAX_FILES_IN_DIR then some (f.setEntry k.toNat p) else none

/-- The entries that are not `NULL`. -/
def entries : Multiset Ptr := ((Multiset.range MAX_FILES_IN_DIR).map f.entry).filter (· ≠ .null)

variable {f}

theorem entryAt?_eq {k : Nat} (hk : k < MAX_FILES_IN_DIR) : f.entryAt? k = some (f.entry k) := by
  rw [entryAt?, if_pos ⟨by omega, by omega⟩, Int.toNat_natCast]

theorem setEntryAt?_eq {k : Nat} (p : Ptr) (hk : k < MAX_FILES_IN_DIR) :
    f.setEntryAt? k p = some (f.setEntry k p) := by
  rw [setEntryAt?, if_pos ⟨by omega, by omega⟩, Int.toNat_natCast]

/-- **Dropping an entry drops it once**, and loses no other. -/
theorem entries_dropEntry {j : Nat} (hj : j < MAX_FILES_IN_DIR) (hocc : f.Occupied j) :
    (f.dropEntry j).entries = f.entries.erase (f.entry j) := by
  have hdrop := fun k => f.entry_dropEntry k hj
  -- position 29 is `NULL` afterwards
  have hafter : (Multiset.range MAX_FILES_IN_DIR).map (f.dropEntry j).entry =
      .null ::ₘ (Multiset.range (MAX_FILES_IN_DIR - 1)).map (f.dropEntry j).entry := by
    rw [show MAX_FILES_IN_DIR = MAX_FILES_IN_DIR - 1 + 1 from rfl, Multiset.range_succ, Multiset.map_cons,
      hdrop, if_pos rfl]
    rfl
  have hbefore : (Multiset.range MAX_FILES_IN_DIR).map f.entry =
      f.entry j ::ₘ (Multiset.range (MAX_FILES_IN_DIR - 1)).map (f.dropEntry j).entry := by
    refine map_range_succ_eq_cons (n := MAX_FILES_IN_DIR - 1) (by omega) (fun hlt => ?_) fun k hk hkj => ?_
    · rw [hdrop, if_neg (by omega), if_pos rfl]
    · rw [hdrop, if_neg (by omega), if_neg hkj]
  rw [entries, entries, hafter, hbefore,
    Multiset.filter_cons_of_neg (p := fun a => a ≠ Ptr.null) _ (not_not.2 rfl),
    Multiset.filter_cons_of_pos (p := fun a => a ≠ Ptr.null) _ hocc, Multiset.erase_cons_head]

end FileControlBlock

/-- The loop at `:150-154`. -/
def lastScan? (f : FileControlBlock Ptr) : (rounds i : Nat) → Option Nat
  | 0, i => some i
  | rounds + 1, i =>
    if i < MAX_FILES_IN_DIR then do
      let p ← f.entryAt? i
      lastScan? f rounds ((if p ≠ .null then i + 1 else i) + 1)
    else some i

/-- `indexed_remove_from_direntry`; `none` is an access outside `dirContents`. -/
def indexedRemoveFromDirentryAt? (t : Table) (parent dirContentIndex : Nat) : Option (Bool × Table) := do
  let f := t.inodes parent
  let i ← lastScan? f MAX_FILES_IN_DIR 0
  let last : Int := i - 1
  if last ≠ -1 then
    if last = dirContentIndex then
      let f ← f.setEntryAt? last .null
      some (true, t.setInode parent f)
    else
      let p ← f.entryAt? last
      let f ← f.setEntryAt? dirContentIndex p
      let f ← f.setEntryAt? last .null
      some (true, t.setInode parent f)
  else some (false, t)

/-- The scan itself looks before it reads. -/
theorem lastScan?_eq (f : FileControlBlock Ptr) : ∀ rounds i, lastScan? f rounds i = some (lastScan f rounds i)
  | 0, i => rfl
  | rounds + 1, i => by
    rw [lastScan?, lastScan]
    split
    · rename_i hi
      rw [FileControlBlock.entryAt?_eq hi]
      exact lastScan?_eq f rounds _
    · rfl

/-- **Every access stays inside the array**, when the last position is filled last. -/
theorem indexedRemoveFromDirentryAt?_eq {t : Table} {parent j : Nat} (hj : j < MAX_FILES_IN_DIR)
    (h : (t.inodes parent).LastFilledLast) :
    indexedRemoveFromDirentryAt? t parent j = some (indexedRemoveFromDirentry t parent j) := by
  have hlast := lastEntryInDirentry_eq h
  rw [lastEntryInDirentry] at hlast
  have h29 : MAX_FILES_IN_DIR - 1 < MAX_FILES_IN_DIR := by decide
  rw [indexedRemoveFromDirentry_eq j h]
  simp only [indexedRemoveFromDirentryAt?, lastScan?_eq, Option.bind_eq_bind, Option.bind_some, hlast]
  rw [if_pos (by omega), FileControlBlock.dropEntry]
  by_cases hj29 : j = MAX_FILES_IN_DIR - 1
  · rw [if_pos (by omega), if_pos hj29, FileControlBlock.setEntryAt?_eq _ h29, hj29]
    rfl
  · rw [if_neg (by omega), if_neg hj29, FileControlBlock.entryAt?_eq h29, Option.bind_some,
      FileControlBlock.setEntryAt?_eq _ hj, Option.bind_some, FileControlBlock.setEntryAt?_eq _ h29]
    rfl

/-! ## Removing a child -/

/-- What `remove_from_direntry(&inodes[d], &inodes[c])` is to do. -/
structure RemovesEntry (t : Table) (d c : Nat) : Prop where
  returns : (removeFromDirentry t d c).1 = true
  /-- The entries lose the child, once. -/
  entries : ((removeFromDirentry t d c).2.inodes d).entries = (t.inodes d).entries.erase (.inode c)
  others : ∀ x ≠ d, ((removeFromDirentry t d c).2.inodes x).dirContents = (t.inodes x).dirContents
  /-- Whatever index it is called with, `indexed_remove_from_direntry` stays inside the array, -/
  inBounds : ∀ j < MAX_FILES_IN_DIR, indexedRemoveFromDirentryAt? t d j = some (indexedRemoveFromDirentry t d j)
  /-- and what it takes for the last entry is a position of it. -/
  last : lastEntryInDirentry (t.inodes d) < MAX_FILES_IN_DIR

/-- In a table that satisfies the invariant. -/
theorem Table.Inv.removesEntry {t : Table} (h : t.Inv) {d c : Nat} (hd : d < TABLE_SIZE) (hl : t.Linked d c) :
    RemovesEntry t d c := by
  obtain ⟨h1, hlt, ha, _⟩ := h.linked_spec hd hl
  have hlast := h.lastFilledLast d hd
  have hnum : ∀ j < MAX_FILES_IN_DIR,
      (t.inumberAt ((t.inodes d).entry j) = some (t.inodes c).inumber ↔ (t.inodes d).entry j = .inode c) :=
    fun j hj => h.inumberAt_iff hlt (h.used_of_alloc h1 hlt ha) hd hj
  obtain ⟨j, hj, hentry, hremove⟩ : ∃ j < MAX_FILES_IN_DIR, (t.inodes d).entry j = .inode c ∧
      removeFromDirentry t d c = (true, t.setInode d ((t.inodes d).dropEntry j)) := by
    rcases removeFromDirentry_cases c hlast with ⟨j, hj, heq, hremove⟩ | ⟨hno, _⟩
    · exact ⟨j, hj, (hnum j hj).1 heq, hremove⟩
    · obtain ⟨k, hk, hkc⟩ := hl
      exact absurd ((hnum k hk).2 hkc) (hno k hk)
  have hocc : (t.inodes d).Occupied j := by
    rw [FileControlBlock.Occupied, hentry]
    simp
  refine ⟨by rw [hremove], ?_, fun x hx => ?_, fun k hk => indexedRemoveFromDirentryAt?_eq hk hlast, ?_⟩
  · rw [hremove, ← hentry, ← FileControlBlock.entries_dropEntry hj hocc]
    simp only [Table.inodes_setInode, if_true]
  · rw [hremove]
    simp only [Table.inodes_setInode, if_neg hx]
  · rw [lastEntryInDirentry_eq hlast]
    decide

/-- **Removing an entry removes exactly that entry**, in every state that creates and removes can
reach. -/
theorem removesEntry_of_run {s : Process} (hs : s.JustFormatted) {cs : List InodeCall}
    (hcs : ∀ c ∈ cs, c.NonRoot) {d c : Nat} (hd : d < TABLE_SIZE) (hl : (exec inodeStep s cs).tbl.Linked d c) :
    RemovesEntry (exec inodeStep s cs).tbl d c :=
  (exec_inodeStep_inv hs.inv hcs).removesEntry hd hl

/-- `/a` and `/b` are created. -/
def twoEntries : List InodeCall := [⟨.create [.a] 0o644, ⟨1000, 1000, 0⟩⟩, ⟨.create [.b] 0o644, ⟨1000, 1000, 0⟩⟩]

theorem twoEntries_run : (∀ c ∈ twoEntries, c.NonRoot) ∧
    (exec inodeStep (formatted 200000) twoEntries).tbl.Linked 0 1 := by
  decide +kernel

theorem removesEntry_twoEntries : RemovesEntry (exec inodeStep (formatted 200000) twoEntries).tbl 0 1 :=
  removesEntry_of_run justFormatted_three twoEntries_run.1 (by decide) twoEntries_run.2

end Sfs
