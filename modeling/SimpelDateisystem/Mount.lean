import SimpelDateisystem.DiskLayout
import SimpelDateisystem.Runs
import SimpelDateisystem.Sizing

/-!
# What `sfs_init` makes of a disk file

Three outcomes of the first read, three ways on (`sfs.c:81-152`): an empty file is formatted at its
size, whatever else can be read is copied over the superblock and believed, and a failed read leaves
the superblock zero. None of them refuses to serve: the branch for a foreign `magicNum` logs and is
a TODO.

| theorem | says |
| --- | --- |
| `mountTrusted_iff` | the mount is safe iff what it read already was a superblock of this program |
| `not_usableVolume` | no file without a superblock becomes a usable volume |
-/

namespace Sfs

open CString ByteFile

/-! ## The three branches -/

section branches

variable (e : Env) (buf : Vector Byte sizeofSuperblock) (s : Process)

/-- The process when the first read has returned. -/
def afterRead : Process :=
  { s with diskSize := toInt32 s.disk.bytes.length, disk := (sBlockRead 0 buf.toList s.disk).2.2 }

/-- The same with the buffer copied over the superblock. -/
def afterCopy : Process :=
  { afterRead buf s with
    tbl := { s.tbl with sBlock := Superblock.codec.dec (sBlockRead 0 buf.toList s.disk).2.1 } }

variable {e buf s}

theorem sfsInit_of_eq (h : (sBlockRead 0 buf.toList s.disk).1 = 0) :
    sfsInit e buf s = formatDisk e (afterRead buf s) := if_pos h

theorem sfsInit_of_pos (h : 0 < (sBlockRead 0 buf.toList s.disk).1) :
    sfsInit e buf s = readInodeTable (afterCopy buf s) :=
  (if_neg (Int.ne_of_gt h)).trans (if_pos (Int.le_of_lt h))

theorem sfsInit_of_neg (h : (sBlockRead 0 buf.toList s.disk).1 < 0) : sfsInit e buf s = afterRead buf s :=
  (if_neg (Int.ne_of_lt h)).trans (if_neg (Int.not_le.2 h))

end branches

/-- A first read that completes on a file that is long enough. -/
theorem afterCopy_complete (buf : Vector Byte sizeofSuperblock) {s : Process}
    (hread : s.disk.outcomes.headD .complete = .complete)
    (hlen : sizeofSuperblock ≤ s.disk.bytes.length) :
    (sBlockRead 0 buf.toList s.disk).1 = sizeofSuperblock ∧
    (afterCopy buf s).tbl.sBlock = Superblock.codec.dec (s.disk.bytes.take sizeofSuperblock) := by
  have hbuf : buf.toList.length = sizeofSuperblock := Vector.length_toList
  have hne : buf.toList ≠ [] := List.ne_nil_of_length_pos (by rw [hbuf]; decide)
  obtain ⟨hret, _, _, hgot⟩ := sBlockRead_of_complete hread 0 buf.toList
  rw [length_read, hbuf, Nat.min_eq_left (by omega)] at hret
  have himage := hgot hne (by rw [hbuf]; exact hlen)
  rw [hbuf, ← read_eq_image_of_le (by omega)] at himage
  exact ⟨hret, congrArg Superblock.codec.dec himage⟩

/-! ## The superblock afterwards -/

/-- `formatDisk` computes the superblock from the one in memory and the size of the disk. -/
theorem sBlock_formatDisk (e : Env) (s : Process) : ∃ ibmap,
    (formatDisk e s).tbl.sBlock = { formatSBlock s.diskSize s.tbl.sBlock with ibmap := ibmap } := by
  obtain ⟨s', hformat, htbl⟩ := formatDisk_tbl e s
  obtain ⟨ibmap, disk, hflush, _⟩ := flushAllInodesTodisk_true s'
  refine ⟨ibmap, ?_⟩
  rw [hformat, hflush]
  simp only [htbl, Table.sBlock_setInode]

theorem sBlock_readRound (i : Nat) (block fill : Int) (s : Process) : ∃ dbmap,
    (readRound i block fill s).2.tbl.sBlock = { s.tbl.sBlock with dbmap := dbmap } := by
  obtain ⟨_, dbmap, hround⟩ := readRound_eq i block fill s
  exact ⟨dbmap, by rw [hround]⟩

/-- Reading the inodes changes only `dbmap`. -/
theorem sBlock_readInodeTable (s : Process) : ∃ dbmap,
    (readInodeTable s).tbl.sBlock = { s.tbl.sBlock with dbmap := dbmap } := by
  let P (r : Process) : Prop := ∃ dbmap, r.tbl.sBlock = { s.tbl.sBlock with dbmap := dbmap }
  refine Cursor.loop_invariant (P := P) ?_ _ _ ⟨s.tbl.sBlock.dbmap, rfl⟩
  rintro i block fill r _ ⟨dbmap, hr⟩
  obtain ⟨dbmap', hround⟩ := sBlock_readRound i block fill r
  exact ⟨dbmap', by rw [hround, hr]⟩

/-! ## The slots indexed -/

/-- The accesses `log` adds to `old` index slots from `lo` up to `hi`, and all of these. -/
def Indexes (old log : List Access) (lo hi : Nat) : Prop :=
  ∃ new, log = old ++ new ∧ (∀ a ∈ new, ∃ j, a.object = .inode j ∧ lo ≤ j ∧ j < hi) ∧
    ∀ j, lo ≤ j → j < hi → ∃ a ∈ new, a.object = .inode j

/-- A walk whose rounds each access their own record indexes as many slots as it has rounds. -/
theorem indexes_loop (body : Nat → Int → Int → Process → Bool × Process)
    (hlog : ∀ i block fill s, ∃ new, (body i block fill s).2.disk.log = s.disk.log ++ new ∧ new ≠ [] ∧
      ∀ a ∈ new, a.object = .inode i) (count i : Nat) (block fill : Int) (s : Process) :
    Indexes s.disk.log (Cursor.loop Process.perBlock body count i block fill s).disk.log i (i + count) := by
  let P (k : Nat) (r : Process) : Prop := Indexes s.disk.log r.disk.log i k
  have hstart : P i s := ⟨[], by simp, by simp, fun j h1 h2 => absurd h2 (by omega)⟩
  refine Cursor.loop_indexed (P := P) ?_ block fill hstart
  rintro k block fill r hk _ ⟨old, hold, hslots, hall⟩
  obtain ⟨new, hnew, hne, hobj⟩ := hlog k block fill r
  refine ⟨old ++ new, by rw [hnew, hold, List.append_assoc], fun a ha => ?_, fun j h1 h2 => ?_⟩
  · rcases List.mem_append.1 ha with ha | ha
    · obtain ⟨j, hj, h1, h2⟩ := hslots a ha
      exact ⟨j, hj, h1, by omega⟩
    · exact ⟨k, hobj a ha, hk, by omega⟩
  · by_cases hjk : j < k
    · obtain ⟨a, ha, haobj⟩ := hall j h1 hjk
      exact ⟨a, List.mem_append_left _ ha, haobj⟩
    · obtain ⟨a, ha⟩ := List.exists_mem_of_ne_nil new hne
      exact ⟨a, List.mem_append_right _ ha, by rw [hobj a ha, show k = j by omega]⟩

/-- **The read loop indexes as many slots as the superblock says.** -/
theorem indexes_readInodeTable (s : Process) :
    Indexes s.disk.log (readInodeTable s).disk.log 0 s.tbl.sBlock.numInodes.toInt.toNat := by
  have hloop := indexes_loop readRound (fun i block fill s => by
    obtain ⟨a, hlog, hat, _⟩ := log_readRound i block fill s
    exact ⟨[a], hlog, by simp, by simpa using hat.1⟩) s.tbl.sBlock.numInodes.toInt.toNat 0
      s.tbl.sBlock.inodeStartIndex.toInt 0 s
  rwa [Nat.zero_add] at hloop

/-- `formatDisk` indexes the root's slot and those its first flush writes. -/
theorem slots_formatDisk (e : Env) (s : Process) : ∃ new, (formatDisk e s).disk.log = s.disk.log ++ new ∧
    ∀ a ∈ new, ∀ i, a.object = .inode i → i = 0 ∨ (i : Int) < (formatDisk e s).tbl.sBlock.numInodes.toInt := by
  obtain ⟨s₁, hgeo, hdisk, hformat⟩ := formatDisk_eq e s
  obtain ⟨sb, hsblog, hsb⟩ := log_writeSBlock s₁ sizeofSuperblock
  obtain ⟨root, hroot, _, hrootAt⟩ := log_writeRound 0 inodeStart 0 (s₁.writeSBlock sizeofSuperblock)
  rw [hsblog, hdisk] at hroot
  rw [hformat]
  generalize (writeRound 0 inodeStart 0 (s₁.writeSBlock sizeofSuperblock)).2 = r at hroot
  obtain ⟨rest, hrest, hslots, _⟩ := indexes_loop firstTimeRound (fun i block fill s => by
    obtain ⟨new, hlog, hne, hat⟩ := log_writeRound i block fill
      { s with tbl := { s.tbl with sBlock := s.tbl.sBlock.setIbit i 0 } }
    exact ⟨new, hlog, hne, fun a ha => (hat a ha).1⟩) (r.tbl.sBlock.numInodes.toInt - 1 - 1).toNat 1
      r.tbl.sBlock.inodeStartIndex.toInt 1 r
  have hflush : (flushAllInodesTodisk true r).2.disk.log = r.disk.log ++ rest := by
    rw [← hrest]
    simp only [flushAllInodesTodisk, if_true]
  obtain ⟨ibmap, disk, htrue, _⟩ := flushAllInodesTodisk_true r
  have hcount : (flushAllInodesTodisk true r).2.tbl.sBlock.numInodes = r.tbl.sBlock.numInodes := by rw [htrue]
  refine ⟨sb ++ root ++ rest, by rw [hflush, hroot]; simp only [List.append_assoc], fun a ha i hi => ?_⟩
  rw [hcount]
  rw [List.append_assoc] at ha
  rcases List.mem_append.1 ha with ha | ha
  · rw [(hsb a ha).1] at hi
    cases hi
  · rcases List.mem_append.1 ha with ha | ha
    · rw [(hrootAt a ha).1] at hi
      cases hi
      exact .inl rfl
    · obtain ⟨j, hj, _, hlt⟩ := hslots a ha
      rw [hj] at hi
      cases hi
      exact .inr (by omega)

/-! ## Trusting the image -/

/-- A superblock as this program writes it, for an `inodes[]` of its length. -/
structure Superblock.Trusted (sb : Superblock) : Prop where
  magicNum : sb.magicNum = 666
  one_le : 1 ≤ sb.numInodes.toInt
  le_size : sb.numInodes.toInt ≤ TABLE_SIZE
  numInodesPerBlock : sb.numInodesPerBlock.toInt = inodesPerBlock
  inodeStartIndex : sb.inodeStartIndex.toInt = inodeStart

/-- The mount stays inside its arrays and serves no other superblock. Each round of its loops, and
the write of the root, makes a disk access for the slot `i` at which it indexes `inodes[]` and the
bitmaps. -/
structure MountTrusted (e : Env) (buf : Vector Byte sizeofSuperblock) (s : Process) : Prop where
  slots : ∀ a ∈ (sfsInit e buf s).disk.log.drop s.disk.log.length, ∀ i, a.object = .inode i →
    i < TABLE_SIZE ∧ i < MAX_BLOCKS
  sBlock : (sfsInit e buf s).tbl.sBlock.Trusted

/-- The bitmaps do not matter. -/
theorem Superblock.trusted_iff {sb sb' : Superblock} (hmagic : sb'.magicNum = sb.magicNum)
    (hcount : sb'.numInodes = sb.numInodes) (hper : sb'.numInodesPerBlock = sb.numInodesPerBlock)
    (hstart : sb'.inodeStartIndex = sb.inodeStartIndex) : sb'.Trusted ↔ sb.Trusted := by
  constructor <;> rintro ⟨h1, h2, h3, h4, h5⟩
  · exact ⟨hmagic ▸ h1, hcount ▸ h2, hcount ▸ h3, hper ▸ h4, hstart ▸ h5⟩
  · exact ⟨hmagic ▸ h1, hcount ▸ h2, hcount ▸ h3, hper ▸ h4, hstart ▸ h5⟩

theorem toInt32_le (z : Int) : toInt32 z ≤ INT_MAX := by
  have hlt := BitVec.toInt_lt (x := BitVec.ofInt 32 z)
  rw [toInt32, INT_MAX]
  omega

/-- `formatDisk` makes such a superblock exactly for these sizes. -/
theorem trusted_formatSBlock_iff {diskSize : Int} (hd : diskSize ≤ INT_MAX) :
    (formatSBlock diskSize Superblock.zero).Trusted ↔ 73189 ≤ diskSize ∧ diskSize ≤ 310303944 := by
  obtain ⟨hinodes, _⟩ := toInt_counts hd
  obtain ⟨n, m, hsb⟩ := formatSBlock_eq diskSize Superblock.zero
  have hone : 0 < allocRounds (diskSize - sizeofSuperblock) ↔ 73189 ≤ diskSize := by
    have hspace : spaceAfter 0 = 0 := rfl
    have hwidth : (sizeofSuperblock : Int) = 11744 := rfl
    rw [lt_allocRounds_iff, allocationUnit_eq, hspace, hwidth]
    omega
  rw [← hone, ← allocRounds_le_size_iff]
  constructor
  · intro h
    have h1 := h.one_le
    have h2 := h.le_size
    rw [hinodes] at h1 h2
    exact ⟨by omega, Int.ofNat_le.1 h2⟩
  · rintro ⟨h1, h2⟩
    refine ⟨by rw [hsb], by rw [hinodes]; omega, by rw [hinodes]; exact Int.ofNat_le.2 h2, ?_, ?_⟩
    · rw [hsb]; rfl
    · rw [hsb]; rfl

theorem log_sBlockRead (blockNum : Int) (buf : List UInt8) (d : Disk) :
    ∃ a, (sBlockRead blockNum buf d).2.2.log = d.log ++ [a] ∧ a.object = .sBlock := by
  refine ⟨⟨.read, .sBlock, 0, buf.length, (d.pread .sBlock buf.length 0).1⟩, ?_, rfl⟩
  rw [← log_pread]
  simp only [sBlockRead]
  split <;> rfl

theorem log_afterCopy (buf : Vector Byte sizeofSuperblock) (s : Process) :
    ∃ a, (afterCopy buf s).disk.log = s.disk.log ++ [a] ∧ a.object = .sBlock :=
  log_sBlockRead 0 buf.toList s.disk

/-- Slots that are below `numInodes` are inside the arrays when the superblock is trusted. -/
theorem Superblock.Trusted.lt {sb : Superblock} (h : sb.Trusted) {i : Nat}
    (hi : i = 0 ∨ (i : Int) < sb.numInodes.toInt) :
    i < TABLE_SIZE ∧ i < MAX_BLOCKS := by
  have hle := h.le_size
  change sb.numInodes.toInt ≤ 100 at hle
  change i < 100 ∧ i < 5859
  omega

/-- The accesses of a mount that indexes slots below a trusted `numInodes`. -/
theorem slots_of_trusted {old log : List Access} {a : Access} {new : List Access} {sb : Superblock}
    (hlog : log = old ++ [a] ++ new) (ha : a.object = .sBlock) (hsb : sb.Trusted)
    (hnew : ∀ a ∈ new, ∀ i, a.object = .inode i → i = 0 ∨ (i : Int) < sb.numInodes.toInt) :
    ∀ a ∈ log.drop old.length, ∀ i, a.object = .inode i → i < TABLE_SIZE ∧ i < MAX_BLOCKS := by
  intro b hb i hi
  rw [hlog, List.append_assoc, List.drop_left' rfl, List.mem_append, List.mem_singleton] at hb
  rcases hb with rfl | hb
  · rw [ha] at hi
    cases hi
  · exact hsb.lt (hnew b hb i hi)

section trusted

variable (e : Env) (buf : Vector Byte sizeofSuperblock) {s : Process}

/-- A failed read leaves a superblock of zeros. -/
theorem not_mountTrusted_of_neg (hs : s.Fresh) (hneg : (sBlockRead 0 buf.toList s.disk).1 < 0) :
    ¬ MountTrusted e buf s := by
  intro h
  have hmagic := h.sBlock.magicNum
  rw [sfsInit_of_neg hneg] at hmagic
  change s.tbl.sBlock.magicNum = 666 at hmagic
  rw [hs.sBlock] at hmagic
  exact absurd hmagic (by decide)

/-- A file that is formatted. -/
theorem mountTrusted_format_iff (hs : s.Fresh) (hzero : (sBlockRead 0 buf.toList s.disk).1 = 0) :
    MountTrusted e buf s ↔
      73189 ≤ toInt32 s.disk.bytes.length ∧ toInt32 s.disk.bytes.length ≤ 310303944 := by
  obtain ⟨a, hread, ha⟩ := log_sBlockRead 0 buf.toList s.disk
  obtain ⟨ibmap, hsb⟩ := sBlock_formatDisk e (afterRead buf s)
  obtain ⟨new, hnew, hslots⟩ := slots_formatDisk e (afterRead buf s)
  have htrust : (sfsInit e buf s).tbl.sBlock.Trusted ↔
      73189 ≤ toInt32 s.disk.bytes.length ∧ toInt32 s.disk.bytes.length ≤ 310303944 := by
    rw [sfsInit_of_eq hzero, ← trusted_formatSBlock_iff (toInt32_le _), ← hs.sBlock]
    exact Superblock.trusted_iff (by rw [hsb]; rfl) (by rw [hsb]; rfl) (by rw [hsb]; rfl) (by rw [hsb]; rfl)
  rw [← htrust]
  refine ⟨fun h => h.sBlock, fun hsb' => ⟨?_, hsb'⟩⟩
  rw [sfsInit_of_eq hzero] at hsb' ⊢
  exact slots_of_trusted (by rw [hnew]; exact congrArg (· ++ new) hread) ha hsb' hslots

/-- A file whose first bytes are believed. -/
theorem mountTrusted_read_iff (hpos : 0 < (sBlockRead 0 buf.toList s.disk).1) :
    MountTrusted e buf s ↔ (Superblock.codec.dec (sBlockRead 0 buf.toList s.disk).2.1).Trusted := by
  obtain ⟨a, hread, ha⟩ := log_sBlockRead 0 buf.toList s.disk
  obtain ⟨dbmap, hsb⟩ := sBlock_readInodeTable (afterCopy buf s)
  obtain ⟨new, hnew, hslots, _⟩ := indexes_readInodeTable (afterCopy buf s)
  have htrust : (sfsInit e buf s).tbl.sBlock.Trusted ↔
      (Superblock.codec.dec (sBlockRead 0 buf.toList s.disk).2.1).Trusted := by
    rw [sfsInit_of_pos hpos]
    exact Superblock.trusted_iff (by rw [hsb]; rfl) (by rw [hsb]; rfl) (by rw [hsb]; rfl) (by rw [hsb]; rfl)
  refine ⟨fun h => htrust.1 h.sBlock, fun h => ⟨?_, htrust.2 h⟩⟩
  rw [sfsInit_of_pos hpos]
  refine slots_of_trusted (by rw [hnew]; exact congrArg (· ++ new) hread) ha h fun a ha i hi => ?_
  obtain ⟨j, hj, _, hlt⟩ := hslots a ha
  rw [hj] at hi
  cases hi
  change i < (Superblock.codec.dec (sBlockRead 0 buf.toList s.disk).2.1).numInodes.toInt.toNat at hlt
  omega

/-- **The mount is safe exactly when the first read returns nothing and the size of the file is one
`formatDisk` can do with, or what it returns is a superblock this program could have written.** -/
theorem mountTrusted_iff (e : Env) (buf : Vector Byte sizeofSuperblock) {s : Process} (hs : s.Fresh) :
    let r := sBlockRead 0 buf.toList s.disk
    let diskSize := toInt32 s.disk.bytes.length
    MountTrusted e buf s ↔
      (r.1 = 0 ∧ 73189 ≤ diskSize ∧ diskSize ≤ 310303944) ∨ (0 < r.1 ∧ (Superblock.codec.dec r.2.1).Trusted) := by
  intro r diskSize
  rcases Int.lt_trichotomy r.1 0 with hneg | hzero | hpos
  · refine iff_of_false (not_mountTrusted_of_neg e buf hs hneg) ?_
    rintro (⟨h, _⟩ | ⟨h, _⟩) <;> omega
  · rw [mountTrusted_format_iff e buf hs hzero, and_iff_right hzero, or_iff_left]
    rintro ⟨h, _⟩
    omega
  · rw [mountTrusted_read_iff e buf hpos, and_iff_right hpos, or_iff_right]
    rintro ⟨h, _⟩
    omega

end trusted

/-- A process about to mount a file that holds `bytes`. -/
def mountingBytes (bytes : List UInt8) : Process := { Process.started 0 with disk := ⟨bytes, [], []⟩ }

theorem fresh_mountingBytes (bytes : List UInt8) : (mountingBytes bytes).Fresh := ⟨rfl, fun _ _ => rfl⟩

/-- A superblock with one inode more than `inodes[]` has. -/
def oneTooMany : Superblock := { formatSBlock 200000 Superblock.zero with numInodes := 101 }

/-- What a local buffer may hold. -/
def zeroBuffer : Vector Byte sizeofSuperblock := Vector.replicate sizeofSuperblock 0

theorem mountTrusted_oneTooMany :
    let s := mountingBytes (Superblock.codec.enc oneTooMany)
    let r := sBlockRead 0 zeroBuffer.toList s.disk
    let diskSize := toInt32 s.disk.bytes.length
    MountTrusted ⟨1000, 1000, 0⟩ zeroBuffer s ↔
      (r.1 = 0 ∧ 73189 ≤ diskSize ∧ diskSize ≤ 310303944) ∨ (0 < r.1 ∧ (Superblock.codec.dec r.2.1).Trusted) :=
  mountTrusted_iff _ _ (fresh_mountingBytes _)

/-- The image is believed, and the loop reads a record into `inodes[100]`. -/
theorem mountTrusted_fails :
    ¬ MountTrusted ⟨1000, 1000, 0⟩ zeroBuffer (mountingBytes (Superblock.codec.enc oneTooMany)) := by
  have hwidth : (Superblock.codec.enc oneTooMany).length = sizeofSuperblock := Superblock.codec.length_enc _
  obtain ⟨hret, hcopy⟩ := afterCopy_complete zeroBuffer
    (show (mountingBytes (Superblock.codec.enc oneTooMany)).disk.outcomes.headD .complete = .complete from rfl)
    (Nat.le_of_eq hwidth.symm)
  rw [show (mountingBytes (Superblock.codec.enc oneTooMany)).disk.bytes = Superblock.codec.enc oneTooMany from rfl,
    List.take_of_length_le (Nat.le_of_eq hwidth), Superblock.codec.dec_enc_self] at hcopy
  intro h
  obtain ⟨new, hlog, _, hall⟩ := indexes_readInodeTable
    (afterCopy zeroBuffer (mountingBytes (Superblock.codec.enc oneTooMany)))
  rw [hcopy] at hall
  -- slot 100 is among those read
  obtain ⟨a, ha, hobj⟩ := hall 100 (Nat.zero_le _) (by decide)
  have hslots := h.slots
  rw [sfsInit_of_pos (by rw [hret]; decide), hlog] at hslots
  obtain ⟨b, hb, _⟩ := log_afterCopy zeroBuffer (mountingBytes (Superblock.codec.enc oneTooMany))
  refine absurd (hslots a ?_ 100 hobj).1 (by decide)
  rw [hb, List.append_assoc, List.drop_left' rfl]
  exact List.mem_append_right _ ha

/-! ## The first mount -/

/-- A disk file without a superblock of this program: empty, or of a size to be formatted at, with
other bytes where `magicNum` would be. -/
def NoSuperblock (bytes : List UInt8) : Prop :=
  bytes = [] ∨ (262144 ≤ bytes.length ∧ bytes.length ≤ 314572800 ∧ (Superblock.codec.dec bytes).magicNum ≠ 666)

/-- A volume that can be used. -/
structure UsableVolume (s : Process) : Prop where
  magicNum : s.tbl.sBlock.magicNum = 666
  numInodes : 2 ≤ s.tbl.sBlock.numInodes.toInt
  root : isDir (s.tbl.inodes 0).mode = true ∧ (s.tbl.inodes 0).name = [slash]
  rootBit : s.tbl.sBlock.ibit 0 = 1
  /-- `sfs_create` of a file in the root directory allocates an inode, and `sfs_open` finds it. -/
  create : ∀ (e : Env) (c : Component) (mode : BitVec 32),
    let p : AbsPath := [c]
    let r := sfsCreate e p.str mode s
    r.1 = 0 ∧ (∃ x, ¬ s.tbl.Alloc x ∧ r.2.tbl.Alloc x ∧ r.2.tbl.lookup p = some x) ∧ (sfsOpen p.str r.2).1 = 0

/-- The first four bytes are the magic number, whether or not the superblock is whole. -/
theorem magicNum_dec_take {n : Nat} (hn : 4 ≤ n) (bytes : List UInt8) :
    (Superblock.codec.dec (bytes.take n)).magicNum = (Superblock.codec.dec bytes).magicNum := by
  change BitVec.ofNat 32 (Codec.ofLeBytes ((bytes.take n).take 4)) = BitVec.ofNat 32 (Codec.ofLeBytes (bytes.take 4))
  rw [List.take_take, Nat.min_eq_left hn]

/-- A foreign file keeps its magic number. -/
theorem magicNum_sfsInit (e : Env) (buf : Vector Byte sizeofSuperblock) {s : Process}
    (hread : s.disk.outcomes.headD .complete = .complete) (hlen : sizeofSuperblock ≤ s.disk.bytes.length) :
    (sfsInit e buf s).tbl.sBlock.magicNum = (Superblock.codec.dec s.disk.bytes).magicNum := by
  obtain ⟨hret, hcopy⟩ := afterCopy_complete buf hread hlen
  obtain ⟨dbmap, hsb⟩ := sBlock_readInodeTable (afterCopy buf s)
  rw [sfsInit_of_pos (by rw [hret]; decide), hsb, hcopy]
  exact magicNum_dec_take (by decide) _

/-- An empty file is formatted at size 0. -/
theorem numInodes_sfsInit (e : Env) (buf : Vector Byte sizeofSuperblock) {s : Process} (hs : s.Fresh)
    (hread : s.disk.outcomes.headD .complete = .complete) (hempty : s.disk.bytes = []) :
    (sfsInit e buf s).tbl.sBlock.numInodes.toInt = 0 := by
  have hret : (sBlockRead 0 buf.toList s.disk).1 = 0 := by
    rw [(sBlockRead_of_complete hread 0 buf.toList).1, hempty, length_read, List.length_nil, Nat.zero_sub,
      Nat.min_zero]
    rfl
  obtain ⟨ibmap, hsb⟩ := sBlock_formatDisk e (afterRead buf s)
  have hsize : (afterRead buf s).diskSize = 0 := by
    change toInt32 s.disk.bytes.length = 0
    rw [hempty]
    decide
  have hzero : (afterRead buf s).tbl.sBlock = Superblock.zero := hs.sBlock
  rw [sfsInit_of_eq hret, hsb, hsize, hzero, (toInt_counts (by decide)).1,
    Nat.le_zero.1 (allocRounds_le_iff.2 (show Stops (0 - sizeofSuperblock) 0 by decide))]
  rfl

/-- **No file without a superblock becomes a usable volume**: an empty one gets no inodes, and any
other one keeps the superblock its bytes happen to spell. -/
theorem not_usableVolume (e : Env) (buf : Vector Byte sizeofSuperblock) {s : Process} (hs : s.Fresh)
    (hread : s.disk.outcomes.headD .complete = .complete) (hfile : NoSuperblock s.disk.bytes) :
    ¬ UsableVolume (sfsInit e buf s) := by
  intro h
  rcases hfile with hempty | ⟨hlen, _, hmagic⟩
  · have hcount := h.numInodes
    rw [numInodes_sfsInit e buf hs hread hempty] at hcount
    omega
  · have hfits : sizeofSuperblock ≤ s.disk.bytes.length := Nat.le_trans (by decide) hlen
    have h666 := h.magicNum
    rw [magicNum_sfsInit e buf hread hfits] at h666
    exact hmagic h666

theorem not_usableVolume_empty : ¬ UsableVolume (sfsInit ⟨1000, 1000, 0⟩ zeroBuffer (mountingBytes [])) :=
  not_usableVolume _ _ (fresh_mountingBytes []) rfl (.inl rfl)

/-- The file `disk_open` creates. -/
theorem usableVolume_fails : NoSuperblock [] ∧
    ¬ UsableVolume (sfsInit ⟨1000, 1000, 0⟩ zeroBuffer (mountingBytes [])) := by
  refine ⟨.inl rfl, fun h => ?_⟩
  have hcount := h.numInodes
  rw [numInodes_sfsInit _ _ (fresh_mountingBytes []) rfl rfl] at hcount
  omega

end Sfs
