import SimpelDateisystem.DateiSteuerBlock

/-!
# The flush in memory, and the table `formatDisk` leaves

The flush only writes to disk; its first-time variant also clears bits of `ibmap` that are clear.
What `formatDisk` makes of a fresh process is `Table.Formatted`: the root in slot 0, all other
slots zero. `allocLoop_spec`: the allocation loop only counts.
-/

namespace Sfs

open CString Cells

/-! ## The flush -/

section flush

variable (s : Process)

/-- The flush reads the table and writes the disk; nothing else changes. -/
theorem flushAllInodesTodisk_false :
    (flushAllInodesTodisk false s).2 = { s with disk := (flushAllInodesTodisk false s).2.disk } := by
  let P (r : Process) : Prop := r = { s with disk := r.disk }
  refine Cursor.loop_invariant (P := P) ?_ _ _ rfl
  intro i block fill r _ hr
  simp only [P, writeRound] at hr ⊢
  rw [hr]

@[simp] theorem tbl_flush : (flushAllInodesTodisk false s).2.tbl = s.tbl := by
  rw [flushAllInodesTodisk_false]

/-- The first-time flush also clears bits of `ibmap`, that of slot 0 excepted. -/
theorem flushAllInodesTodisk_true :
    ∃ ibmap disk, (flushAllInodesTodisk true s).2 =
        { s with tbl := { s.tbl with sBlock := { s.tbl.sBlock with ibmap := ibmap } }, disk := disk } ∧
      peek 0 ibmap 0 = s.tbl.sBlock.ibit 0 ∧
      ∀ x, s.tbl.sBlock.ibit x = 0 → peek 0 ibmap x = 0 := by
  let P (r : Process) : Prop := ∃ ibmap disk, r =
      { s with tbl := { s.tbl with sBlock := { s.tbl.sBlock with ibmap := ibmap } }, disk := disk } ∧
    peek 0 ibmap 0 = s.tbl.sBlock.ibit 0 ∧ ∀ x, s.tbl.sBlock.ibit x = 0 → peek 0 ibmap x = 0
  refine Cursor.loop_invariant (P := P) ?_ _ _ ⟨s.tbl.sBlock.ibmap, s.disk, rfl, rfl, fun _ h => h⟩
  rintro i block fill r hi ⟨ibmap, disk, rfl, hroot, hclear⟩
  refine ⟨poke ibmap i 0, _, rfl, ?_, fun x hx => ?_⟩
  · rw [peek_poke_of_ne 0 ibmap 0 (by omega), hroot]
  · by_cases hxi : i = x
    · subst hxi
      by_cases hlt : i < MAX_BLOCKS
      · exact peek_poke_self 0 ibmap 0 hlt
      · exact peek_of_le 0 _ (Nat.not_lt.1 hlt)
    · rw [peek_poke_of_ne 0 ibmap 0 hxi, hclear x hx]

end flush

/-! ## The superblock -/

/-- The allocation loop counts and touches nothing else. -/
theorem allocLoop_spec (remainingSpace : Int) : ∀ (rounds : Nat) (spaceUsed currAllocation : Int) (sb : Superblock),
    ∃ n m, allocLoop remainingSpace rounds spaceUsed currAllocation sb =
      { sb with numInodes := n, numDataBlocks := m }
  | 0, _, _, sb => ⟨sb.numInodes, sb.numDataBlocks, rfl⟩
  | rounds + 1, spaceUsed, currAllocation, sb => by
    simp only [allocLoop]
    split
    · split
      · exact allocLoop_spec remainingSpace rounds _ _ { sb with numInodes := _, numDataBlocks := _ }
      · exact ⟨sb.numInodes, sb.numDataBlocks, rfl⟩
    · exact ⟨sb.numInodes, sb.numDataBlocks, rfl⟩

/-- The superblock after `formatDisk`, up to its two counts. -/
theorem formatSBlock_eq (diskSize : Int) (sb : Superblock) : ∃ n m, formatSBlock diskSize sb =
    { sb with
      magicNum := 666
      numInodes := n
      numDataBlocks := m
      inodeStartIndex := 3
      numInodesPerBlock := 4
      ibmap := poke sb.ibmap 0 1 } := by
  obtain ⟨n, m, h⟩ := allocLoop_spec (diskSize - sizeofSuperblock) (diskSize - sizeofSuperblock).toNat 0 0
    { sb with
      numInodesPerBlock := BitVec.ofNat 32 (BLOCK_SIZE / sizeofFcb)
      inodeStartIndex := BitVec.ofNat 32 (1 + sizeofSuperblock / BLOCK_SIZE) }
  refine ⟨n, m, ?_⟩
  simp only [formatSBlock, h]
  rfl

/-! ## The table -/

/-- What `formatDisk` leaves in memory. -/
structure Table.Formatted (t : Table) : Prop where
  magicNum : t.sBlock.magicNum = 666
  inodeStartIndex : t.sBlock.inodeStartIndex = 3
  numInodesPerBlock : t.sBlock.numInodesPerBlock = 4
  ibit : ∀ x, t.sBlock.ibit x = if x = 0 then 1 else 0
  rootName : (t.inodes 0).name = [slash]
  rootDir : (t.inodes 0).dir = []
  rootInumber : (t.inodes 0).inumber = 0
  rootParent : (t.inodes 0).parentInumber = -1
  rootMode : (t.inodes 0).mode = (S_IFDIR ||| 0o755#32).setWidth 16
  rootEntry : ∀ k, (t.inodes 0).entry k = .null
  inodes : ∀ x, 1 ≤ x → x < TABLE_SIZE → t.inodes x = FileControlBlock.zero .null

/-- In memory, `formatDisk` is the assignments to the superblock and to slot 0, then the bits. -/
theorem formatDisk_tbl (e : Env) (s : Process) : ∃ s' : Process,
    formatDisk e s = (flushAllInodesTodisk true s').2 ∧
    s'.tbl = Table.setInode { s.tbl with sBlock := formatSBlock s.diskSize s.tbl.sBlock } 0
      (rootInode e (s.tbl.inodes 0)) :=
  ⟨_, rfl, rfl⟩

/-- The table of a fresh process after `formatDisk`. -/
theorem formatDisk_formatted (e : Env) {s : Process} (hs : s.Fresh) : (formatDisk e s).tbl.Formatted := by
  obtain ⟨n, m, hsb⟩ := formatSBlock_eq s.diskSize Superblock.zero
  obtain ⟨s', hformat, htbl⟩ := formatDisk_tbl e s
  obtain ⟨ibmap, disk, hflush, hroot, hclear⟩ := flushAllInodesTodisk_true s'
  have hslot0 : s'.tbl.inodes 0 = rootInode e (.zero .null) := by
    rw [htbl, Table.inodes_setInode, if_pos rfl, hs.inodes 0 (by decide)]
  have hbit : ∀ x, s'.tbl.sBlock.ibit x = if x = 0 then 1 else 0 := by
    intro x
    rw [htbl, Table.sBlock_setInode, hs.sBlock, hsb]
    exact (peek_poke (0 : Byte) _ x 1 (by decide)).trans (if_congr Iff.rfl rfl (peek_replicate _ _))
  have hbit' : ∀ x, peek 0 ibmap x = if x = 0 then 1 else 0 := by
    intro x
    by_cases hx : x = 0
    · rw [hx, hroot, hbit]
    · rw [if_neg hx, hclear x (by rw [hbit, if_neg hx])]
  rw [hformat, hflush]
  constructor
  case ibit => exact hbit'
  case inodes =>
    intro x h1 h2
    change s'.tbl.inodes x = _
    rw [htbl, Table.inodes_setInode, if_neg (by omega), hs.inodes x h2]
  case magicNum => simp only [htbl, Table.sBlock_setInode, hs.sBlock, hsb]
  case inodeStartIndex => simp only [htbl, Table.sBlock_setInode, hs.sBlock, hsb]
  case numInodesPerBlock => simp only [htbl, Table.sBlock_setInode, hs.sBlock, hsb]
  all_goals simp only [hslot0]
  case rootInumber => rfl
  case rootParent => rfl
  case rootMode => rfl
  case rootEntry => exact fun k => peek_replicate _ k
  case rootName => rfl
  case rootDir => rfl

/-- A process just formatted, on a disk that gives a slot besides the root's and no more slots than
`inodes[]` has. -/
structure Process.JustFormatted (s : Process) : Prop where
  formatted : ∃ e s', Process.Fresh s' ∧ s = formatDisk e s'
  two_le : 2 ≤ s.tbl.count
  le_size : s.tbl.count ≤ TABLE_SIZE

theorem Process.JustFormatted.tbl {s : Process} (h : s.JustFormatted) : s.tbl.Formatted := by
  obtain ⟨e, s', hs', rfl⟩ := h.formatted
  exact formatDisk_formatted e hs'

/-! ## How many slots -/

/-- `numInodes` after `formatDisk`, as a function of the size of the disk file. -/
def formatCount (diskSize : Int) : Nat := (formatSBlock diskSize Superblock.zero).numInodes.toInt.toNat

theorem count_formatDisk (e : Env) {s : Process} (hs : s.Fresh) :
    (formatDisk e s).tbl.count = formatCount s.diskSize := by
  obtain ⟨s', hformat, htbl⟩ := formatDisk_tbl e s
  obtain ⟨ibmap, disk, hflush, _⟩ := flushAllInodesTodisk_true s'
  rw [hformat, hflush, formatCount, ← hs.sBlock]
  simp only [Table.count, htbl, Table.sBlock_setInode]

/-- A process that has just started, all its memory zero. -/
def Process.started (diskSize : Int) : Process where
  tbl := ⟨Superblock.zero, fun _ => .zero .null⟩
  base := ⟨0x605000#64, by decide, by decide⟩
  behindSBlock := fun _ => 0
  diskSize := diskSize
  errno := 0
  disk := ⟨[], [], []⟩

theorem Process.fresh_started (diskSize : Int) : (Process.started diskSize).Fresh :=
  ⟨rfl, fun _ _ => rfl⟩

/-- It formats its disk. -/
def formatted (diskSize : Int) : Process := formatDisk ⟨1000, 1000, 0⟩ (Process.started diskSize)

theorem count_formatted (diskSize : Int) : (formatted diskSize).tbl.count = formatCount diskSize :=
  count_formatDisk _ (Process.fresh_started diskSize)

theorem justFormatted_formatted {diskSize : Int} (h2 : 2 ≤ formatCount diskSize)
    (hsize : formatCount diskSize ≤ TABLE_SIZE) : (formatted diskSize).JustFormatted :=
  ⟨⟨_, _, Process.fresh_started diskSize, rfl⟩, by rwa [count_formatted], by rwa [count_formatted]⟩

theorem formatCount_three : formatCount 200000 = 3 := by decide +kernel

/-- A disk for three inodes. -/
theorem justFormatted_three : (formatted 200000).JustFormatted :=
  justFormatted_formatted (by rw [formatCount_three]; decide) (by rw [formatCount_three]; decide)

example : formatCount 310303944 = TABLE_SIZE := by decide +kernel

end Sfs
