import SimpelDateisystem.Truncated

/-!
# Mounting and unmounting, nothing in between

`sfs_init` reads the superblock and every record, and marks in `dbmap` which regular files have data;
`sfs_destroy` writes the superblock and every record but the last. Wherever the program is loaded, what
it reads it writes back.

* `mounted_sfsInit` — everything a mount leaves in memory, `dbmap` included;
* `cycles_eq` — after any number of mounts, each ended by an unmount, every record is as before, and the
  superblock is up to `dbmap`; the first cycle makes all of the change.
-/

namespace Sfs

open ByteFile CString Cells

/-! ## The data bitmap -/

/-- `dbmap[i]`. -/
def Superblock.dbit (sb : Superblock) (i : Nat) : Byte := peek 0 sb.dbmap i

theorem Superblock.dbit_setDbit (sb : Superblock) {i : Nat} (b : Byte) (j : Nat) (hi : i < MAX_BLOCKS) :
    (sb.setDbit i b).dbit j = if j = i then b else sb.dbit j :=
  peek_poke 0 sb.dbmap j b hi

/-- The bit of an inode after a mount that finds `b`: a directory's is left alone. -/
def FileControlBlock.markBit {π : Type} (f : FileControlBlock π) (b : Byte) : Byte :=
  if isDir f.mode then b else if isReg f.mode then (if f.fileSize.toInt < 1 then 0 else 1) else b

/-- Marking again changes nothing. -/
theorem FileControlBlock.markBit_markBit {π : Type} (f : FileControlBlock π) (b : Byte) :
    f.markBit (f.markBit b) = f.markBit b := by
  unfold markBit
  split
  · rfl
  split <;> rfl

theorem dbit_markData {i : Nat} (hi : i < MAX_BLOCKS) (s : Process) (x : Nat) :
    (markData i s).tbl.sBlock.dbit x =
      if x = i then (s.tbl.inodes i).markBit (s.tbl.sBlock.dbit i) else s.tbl.sBlock.dbit x := by
  unfold markData FileControlBlock.markBit
  simp only
  split
  · split
    · rename_i hx
      rw [hx]
    · rfl
  split
  · exact Superblock.dbit_setDbit s.tbl.sBlock _ x hi
  · split
    · rename_i hx
      rw [hx]
    · rfl

/-- A round reads, and marks what it has read unless it has read nothing. -/
theorem readRound_cases (i : Nat) (block fill : Int) (s : Process) : ∃ s' : Process,
    s'.tbl.sBlock = s.tbl.sBlock ∧
      (readRound i block fill s = (false, s') ∨ readRound i block fill s = (true, markData i s')) := by
  refine ⟨{ s with
    tbl := (inodeRead s.base block i (fill * sizeofFcb) s.tbl s.disk).2.1
    disk := (inodeRead s.base block i (fill * sizeofFcb) s.tbl s.disk).2.2 }, sBlock_inodeRead _ _ _ _ _ _, ?_⟩
  by_cases hret : (inodeRead s.base block i (fill * sizeofFcb) s.tbl s.disk).1 = 0
  · exact .inl (if_neg (not_not_intro hret))
  · exact .inr (if_pos hret)

theorem dbit_readRound {i : Nat} (hi : i < MAX_BLOCKS) (block fill : Int) (s : Process) (x : Nat) :
    (readRound i block fill s).2.tbl.sBlock.dbit x =
      if (readRound i block fill s).1 = true ∧ x = i then
        ((readRound i block fill s).2.tbl.inodes i).markBit (s.tbl.sBlock.dbit i)
      else s.tbl.sBlock.dbit x := by
  obtain ⟨s', hsb, hround | hround⟩ := readRound_cases i block fill s <;> rw [hround]
  · simp [hsb]
  · obtain ⟨dbmap, hmark⟩ := markData_eq i s'
    have hslot : (markData i s').tbl.inodes i = s'.tbl.inodes i := by rw [hmark]
    simp only [true_and, dbit_markData hi, hsb, hslot]

/-- The same superblock with another data bitmap. -/
def Superblock.withDbmap (sb : Superblock) (dbmap : Vector Byte MAX_BLOCKS) : Superblock := { sb with dbmap := dbmap }

section withDbmap

variable (sb : Superblock) (dbmap : Vector Byte MAX_BLOCKS)

theorem Superblock.numInodes_withDbmap : (sb.withDbmap dbmap).numInodes = sb.numInodes := rfl

theorem Superblock.withDbmap_self : sb.withDbmap sb.dbmap = sb := rfl

theorem Superblock.withDbmap_dbmap : sb.withDbmap (sb.withDbmap dbmap).dbmap = sb.withDbmap dbmap := rfl

theorem Superblock.trusted_withDbmap (h : sb.Trusted) : (sb.withDbmap dbmap).Trusted :=
  ⟨h.magicNum, h.one_le, h.le_size, h.numInodesPerBlock, h.inodeStartIndex⟩

theorem Superblock.dbit_withDbmap (x : Nat) : (sb.withDbmap dbmap).dbit x = peek 0 dbmap x := rfl

end withDbmap

/-- The superblock a mount of `bytes` leaves in memory. -/
def marked (bytes : List UInt8) : Superblock :=
  (storedSBlock bytes).withDbmap <| Vector.ofFn fun i =>
    if i.val < storedCount bytes then (storedRecord bytes i.val).markBit ((storedSBlock bytes).dbit i.val)
    else (storedSBlock bytes).dbit i.val

theorem dbit_marked (bytes : List UInt8) {x : Nat} (hx : x < MAX_BLOCKS) : (marked bytes).dbit x =
    if x < storedCount bytes then (storedRecord bytes x).markBit ((storedSBlock bytes).dbit x)
    else (storedSBlock bytes).dbit x := by
  rw [marked, Superblock.dbit_withDbmap]
  simp [peek, hx]

/-- The loop that reads the inodes, before record `j`, after `m` rounds that moved on. -/
structure MarkedUpTo (f : Process) (j m : Nat) (r : Process) : Prop where
  loaded : LoadedUpTo f j m r
  dbit : ∀ x, r.tbl.sBlock.dbit x =
    if x < j then (recordAt f.base f.disk.bytes x).markBit (f.tbl.sBlock.dbit x) else f.tbl.sBlock.dbit x

theorem markBit_zero (b : Byte) : (FileControlBlock.zero Ptr.null).markBit b = b := rfl

/-- One round: the record read is marked, or there was nothing to read. -/
theorem MarkedUpTo.readRound {f r : Process} {j m : Nat} (h : MarkedUpTo f j m r) (hj : j < TABLE_SIZE) :
    let round := readRound j (inodeStart + (m / inodesPerBlock : Nat)) (m % inodesPerBlock : Nat) r
    MarkedUpTo f (j + 1) (if round.1 then m + 1 else m) round.2 := by
  intro round
  have hload : LoadedUpTo f (j + 1) (if round.1 then m + 1 else m) round.2 := h.loaded.readRound hj
  have hslot : round.2.tbl.inodes j = recordAt f.base f.disk.bytes j := hload.before j (Nat.lt_add_one j)
  have hsize : TABLE_SIZE ≤ MAX_BLOCKS := by decide
  refine ⟨hload, fun x => ?_⟩
  have hround : round.2.tbl.sBlock.dbit x =
      if x = j then (recordAt f.base f.disk.bytes j).markBit (r.tbl.sBlock.dbit j) else r.tbl.sBlock.dbit x := by
    have hdbit := dbit_readRound (by omega) (inodeStart + (m / inodesPerBlock : Nat)) (m % inodesPerBlock : Nat) r x
      (i := j)
    change _ = if round.1 = true ∧ x = j then (round.2.tbl.inodes j).markBit _ else _ at hdbit
    rw [hslot] at hdbit
    rw [hdbit]
    by_cases hadv : round.1 = true
    · simp only [hadv, true_and]
    · -- the counters are past the end of the file, so record `j` is
      have hmoves := hload.moves
      rw [if_neg hadv] at hmoves
      have hmj : m ≤ j := by rcases h.loaded.moves with hm | hm <;> omega
      have hend : f.disk.bytes.length ≤ inodePos j :=
        Nat.le_trans (hmoves.resolve_left (by omega)).2 (inodePos_mono hmj)
      rw [if_neg fun hx => hadv hx.1, recordAt_of_length_le f.base hend, markBit_zero]
      split
      · rename_i hx
        rw [hx]
      · rfl
  rw [hround, h.dbit, h.dbit]
  by_cases hx : x = j
  · rw [if_pos hx, if_neg (Nat.lt_irrefl j), if_pos (by omega), hx]
  · rw [if_neg hx]
    exact if_congr (by omega) rfl rfl

/-! ## The mount -/

/-- What a mount of `file` leaves in a process loaded at `b`. -/
structure MountedFrom (file : List UInt8) (b : LoadAddress) (r : Process) : Prop where
  base : r.base = b
  bytes : r.disk.bytes = file
  outcomes : r.disk.outcomes = []
  sBlock : r.tbl.sBlock = marked file
  record : ∀ x < storedCount file, r.tbl.inodes x = recordAt b file x
  behind : ∀ x, storedCount file ≤ x → x < TABLE_SIZE → r.tbl.inodes x = .zero .null

/-- **A mount of a superblock this program could have written**, wherever the file ends. -/
theorem mounted_sfsInit (e : Env) (buf : Vector Byte sizeofSuperblock) {f : Process} (hf : f.Fresh)
    (hio : f.disk.outcomes = []) (hlen : sizeofSuperblock ≤ f.disk.bytes.length)
    (htrust : (storedSBlock f.disk.bytes).Trusted) : MountedFrom f.disk.bytes f.base (sfsInit e buf f) := by
  have hread : f.disk.outcomes.headD .complete = .complete := by rw [hio]; rfl
  obtain ⟨hret, hcopy⟩ := afterCopy_complete buf hread hlen
  obtain ⟨_, hbytes, hout, _⟩ := sBlockRead_of_complete hread 0 buf.toList
  rw [hio] at hout
  have hsame : (afterCopy buf f).disk.bytes = f.disk.bytes := hbytes
  have hsb : (afterCopy buf f).tbl.sBlock = storedSBlock f.disk.bytes := hcopy
  have hgeo : (afterCopy buf f).Geometry := by
    constructor <;> rw [hsb]
    · exact htrust.numInodesPerBlock
    · exact htrust.inodeStartIndex
  have hcount : (afterCopy buf f).tbl.count = storedCount f.disk.bytes := by rw [Table.count, hsb]; rfl
  have hsize := htrust.count_le.2
  change storedCount f.disk.bytes ≤ TABLE_SIZE at hsize
  have hstart : MarkedUpTo (afterCopy buf f) 0 0 (afterCopy buf f) := by
    refine ⟨⟨rfl, rfl, hout, hgeo, .inl rfl, fun x hx => absurd hx (Nat.not_lt_zero x), fun x _ hx => hf.inodes x hx,
      [], (List.append_nil _).symm, fun a ha => absurd ha List.not_mem_nil⟩, fun x => ?_⟩
    rw [if_neg (Nat.not_lt_zero x)]
  obtain ⟨m, hend⟩ : ∃ m, MarkedUpTo (afterCopy buf f) (0 + (afterCopy buf f).tbl.count) m
      (Cursor.loop Process.perBlock readRound (afterCopy buf f).tbl.count 0
        (inodeStart + (0 / inodesPerBlock : Nat)) (0 % inodesPerBlock : Nat) (afterCopy buf f)) :=
    Cursor.loop_moves (by decide) inodeStart (fun _ _ _ h => h.loaded.geometry.numInodesPerBlock)
      (fun j m r _ hj h => h.readRound (by omega)) hstart
  rw [← readInodeTable_eq_loop hgeo, Nat.zero_add, hcount] at hend
  obtain ⟨dbmap, hdbmap⟩ := sBlock_readInodeTable (afterCopy buf f)
  have hmarked : dbmap = (marked f.disk.bytes).dbmap := by
    refine ext_peek (0 : Byte) fun x hx => ?_
    have hdbit := hend.dbit x
    rw [hdbmap, hsb, hsame] at hdbit
    change peek 0 dbmap x = (marked f.disk.bytes).dbit x
    rw [dbit_marked f.disk.bytes hx]
    exact hdbit
  rw [sfsInit_of_pos (by rw [hret]; decide)]
  refine ⟨hend.loaded.base, hend.loaded.bytes.trans hsame, hend.loaded.outcomes, ?_, fun x hx => ?_,
    hend.loaded.behind⟩
  · rw [hdbmap, hsb]
    rw [← Superblock.withDbmap_self (marked f.disk.bytes), ← hmarked]
    rfl
  · rw [hend.loaded.before x hx, hsame]
    rfl

/-! ## Mounting and unmounting -/

/-- A start of the program: the process before `sfs_init`, which finds `buf` in its local buffer. -/
structure Boot where
  process : Process
  env : Env
  buf : Vector Byte sizeofSuperblock
  fresh : process.Fresh

/-- The process after `sfs_init` on a disk file that holds `bytes`, all of its reads complete. -/
def Boot.mount (z : Boot) (bytes : List UInt8) : Process :=
  sfsInit z.env z.buf { z.process with disk := ⟨bytes, [], []⟩ }

/-- The disk file after a mount and an unmount. -/
def Boot.cycle (z : Boot) (bytes : List UInt8) : List UInt8 := (sfsDestroy (z.mount bytes)).disk.bytes

/-- Several of them, one after the other. -/
def cycles : List Boot → List UInt8 → List UInt8
  | [], bytes => bytes
  | z :: zs, bytes => cycles zs (z.cycle bytes)

/-- A disk file that this program could have written. -/
structure Mountable (bytes : List UInt8) : Prop where
  length : sizeofSuperblock ≤ bytes.length
  trusted : (storedSBlock bytes).Trusted

/-- `file'` is `file` after such a cycle. -/
structure Cycled (file file' : List UInt8) : Prop where
  sBlock : storedSBlock file' = marked file
  record : ∀ i, image file' (inodePos i) sizeofFcb = image file (inodePos i) sizeofFcb

theorem Boot.mounted (z : Boot) {bytes : List UInt8} (h : Mountable bytes) :
    MountedFrom bytes z.process.base (z.mount bytes) := by
  have hfresh : Process.Fresh { z.process with disk := ⟨bytes, [], []⟩ } := ⟨z.fresh.sBlock, z.fresh.inodes⟩
  exact mounted_sfsInit z.env z.buf hfresh rfl h.length h.trusted

/-- `dbmap` is not among what is trusted. -/
theorem trusted_marked {bytes : List UInt8} (h : (storedSBlock bytes).Trusted) : (marked bytes).Trusted :=
  Superblock.trusted_withDbmap _ _ h

theorem count_marked (bytes : List UInt8) : (marked bytes).numInodes.toInt.toNat = storedCount bytes := by
  rw [marked, Superblock.numInodes_withDbmap, storedCount]

theorem MountedFrom.geometry {file : List UInt8} {b : LoadAddress} {r : Process} (h : MountedFrom file b r)
    (htrust : (storedSBlock file).Trusted) : r.Geometry := by
  have hmarked := trusted_marked htrust
  exact ⟨by rw [h.sBlock, hmarked.numInodesPerBlock], by rw [h.sBlock, hmarked.inodeStartIndex]⟩

theorem MountedFrom.count {file : List UInt8} {b : LoadAddress} {r : Process} (h : MountedFrom file b r) :
    r.tbl.count = storedCount file := by
  rw [Table.count, h.sBlock, count_marked]

theorem HoldsFlushed.storedSBlock {s : Process} {bytes : List UInt8} (h : HoldsFlushed s bytes) :
    sizeofSuperblock ≤ bytes.length ∧ storedSBlock bytes = s.tbl.sBlock := by
  have hfits : sizeofSuperblock ≤ inodeStart * BLOCK_SIZE := by decide
  have hlen := Nat.le_trans hfits h.length
  refine ⟨hlen, ?_⟩
  have hread : read bytes 0 sizeofSuperblock = image bytes 0 sizeofSuperblock := read_eq_image_of_le (by omega)
  rw [Sfs.storedSBlock, ← h.dec_sBlock, ← hread]
  rfl

/-- A flush of records as they were read leaves their bytes as they are. -/
theorem image_flush {s : Process} (hgeo : s.Geometry) (hout : s.disk.outcomes = [])
    (hslot : ∀ i, i + 1 < s.tbl.count → s.tbl.inodes i = recordAt s.base s.disk.bytes i) (i : Nat) :
    image (flushAllInodesTodisk false s).2.disk.bytes (inodePos i) sizeofFcb =
      image s.disk.bytes (inodePos i) sizeofFcb := by
  obtain ⟨hflush, _⟩ := flush_complete hgeo hout
  by_cases hi : i + 1 < s.tbl.count
  · rw [← inodeMemory_of_recordAt (hslot i hi)]
    exact (hflush.record i hi).1
  · exact hflush.last i (by omega)

/-- **One cycle.** -/
theorem cycled (z : Boot) {bytes : List UInt8} (h : Mountable bytes) :
    Mountable (z.cycle bytes) ∧ Cycled bytes (z.cycle bytes) := by
  have hmount := z.mounted h
  have hgeo := hmount.geometry h.trusted
  obtain ⟨hflush, _⟩ := flush_complete hgeo hmount.outcomes
  obtain ⟨hlen, hsb⟩ := hflush.storedSBlock
  have hcycle : storedSBlock (z.cycle bytes) = marked bytes := hsb.trans hmount.sBlock
  refine ⟨⟨hlen, hcycle ▸ trusted_marked h.trusted⟩, hcycle, fun i => ?_⟩
  have hsame := image_flush hgeo hmount.outcomes (fun j hj => ?_) i
  · rwa [hmount.bytes] at hsame
  · rw [hmount.count] at hj
    rw [hmount.record j (by omega), hmount.base, hmount.bytes]

/-- A second cycle marks nothing new. -/
theorem marked_of_cycled {file file' : List UInt8} (h : Cycled file file') : marked file' = marked file := by
  have hrecord : ∀ i, storedRecord file' i = storedRecord file i := fun i => by
    rw [storedRecord, h.record, storedRecord]
  have hcount : storedCount file' = storedCount file := by
    rw [storedCount, h.sBlock, count_marked]
  have hdbmap : (marked file').dbmap = (marked file).dbmap := by
    refine ext_peek (0 : Byte) fun x hx => ?_
    change (marked file').dbit x = (marked file).dbit x
    rw [dbit_marked _ hx, h.sBlock, hcount, hrecord, dbit_marked _ hx]
    split
    · rw [FileControlBlock.markBit_markBit]
    · rfl
  have hsb : marked file' = (storedSBlock file').withDbmap (marked file').dbmap :=
    (Superblock.withDbmap_dbmap _ _).symm
  rw [hsb, hdbmap, h.sBlock, Superblock.withDbmap_self]

/-- **Mounting and unmounting, any number of times, wherever the program is loaded**: every byte of every
record is as before, and so is the superblock but for the bits of `dbmap` the first mount has marked. For 97
to 100 inodes it is assumed that none of the other globals lies behind `inodes[99]` (`Table.store`). -/
theorem cycles_eq {bytes : List UInt8} (h : Mountable bytes) {zs : List Boot} (hne : zs ≠ []) :
    Cycled bytes (cycles zs bytes) := by
  induction zs generalizing bytes with
  | nil => exact absurd rfl hne
  | cons z zs ih =>
    obtain ⟨hmountable, hfirst⟩ := cycled z h
    cases zs with
    | nil => exact hfirst
    | cons z' zs =>
      obtain ⟨hsb, hrecord⟩ := ih hmountable (List.cons_ne_nil _ _)
      refine ⟨hsb.trans (marked_of_cycled hfirst), fun i => ?_⟩
      rw [cycles, hrecord, hfirst.record]

/-- The program started, loaded at `b`. -/
def bootAt (b : LoadAddress) : Boot where
  process := { Process.started 0 with base := b }
  env := ⟨1000, 1000, 0⟩
  buf := zeroBuffer
  fresh := ⟨rfl, fun _ _ => rfl⟩

/-- A process with a table of three slots. Somebody else has given `/a` one byte. -/
def oneByteFile : Process :=
  let t : Table := ⟨{ fullTable with numInodes := 3 }, fun x =>
    if x = 0 then rootInode ⟨1000, 1000, 0⟩ (.zero .null) else .zero .null⟩
  let t := t.created ⟨1000, 1000, 0⟩ [.a] 0o100644 1 0
  { Process.started 0 with tbl := t.setInode 1 { t.inodes 1 with fileSize := 1 } }

/-- What it leaves on disk when it is unmounted. -/
def oneByteVolume : List UInt8 := (sfsDestroy oneByteFile).disk.bytes

theorem trusted_oneByteFile : oneByteFile.tbl.sBlock.Trusted := by
  obtain ⟨h1, _, _, h4, h5⟩ := trusted_fullTable
  exact ⟨h1, by decide, by decide, h4, h5⟩

theorem holdsFlushed_oneByteVolume : HoldsFlushed oneByteFile oneByteVolume := by
  obtain ⟨_, _, _, h4, h5⟩ := trusted_oneByteFile
  exact (flush_complete ⟨h4, h5⟩ rfl).1

theorem mountable_oneByteVolume : Mountable oneByteVolume := by
  obtain ⟨hlen, hsb⟩ := holdsFlushed_oneByteVolume.storedSBlock
  exact ⟨hlen, hsb ▸ trusted_oneByteFile⟩

/-- The root and `/a` are on disk, and the first mount marks the bit of `/a`. -/
theorem cycles_eq_oneByteVolume : Cycled oneByteVolume
      (cycles [bootAt oneByteFile.base, bootAt ⟨0x705000#64, by decide, by decide⟩] oneByteVolume) ∧
    (storedSBlock oneByteVolume).dbit 1 = 0 ∧ (marked oneByteVolume).dbit 1 = 1 := by
  refine ⟨cycles_eq mountable_oneByteVolume (List.cons_ne_nil _ _), ?_⟩
  obtain ⟨_, hsb⟩ := holdsFlushed_oneByteVolume.storedSBlock
  have hrecord := holdsFlushed_oneByteVolume.recordAt oneByteFile.base (i := 1) (by decide)
  have hmark : (storedRecord oneByteVolume 1).markBit 0 = (oneByteFile.tbl.inodes 1).markBit 0 := by
    change (recordAt oneByteFile.base oneByteVolume 1).markBit 0 = _
    rw [hrecord]
    rfl
  have hbit : oneByteFile.tbl.sBlock.dbit 1 = 0 := by decide
  rw [dbit_marked _ (by decide), storedCount, hsb, hbit, hmark]
  decide

end Sfs
