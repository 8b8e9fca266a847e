import SimpelDateisystem.Format
import SimpelDateisystem.Sfs

/-!
# Where the inodes lie on disk

Four pieces of code walk the inode table and keep their own block and fill counters: the root write
of `formatDisk`, the two loops of `flushAllInodesTodisk` (starting at record 0 and at record 1), and
the loop of `sfs_init`. `inodePos` is the position all of them mean.

| code | theorem |
| --- | --- |
| `flushAllInodesTodisk`, both loops | `log_flush` |
| `formatDisk`                       | `log_formatDisk` |
| `sfs_init`                         | `log_readInodeTable` |

The read loop is right only as long as no read returns 0: such a read leaves its counters behind.
-/

namespace Sfs

/-- The inodes in one block, as `formatDisk` computes it. -/
def inodesPerBlock : Nat := BLOCK_SIZE / sizeofFcb

/-- The first block of inodes, as `formatDisk` computes it. -/
def inodeStart : Nat := 1 + sizeofSuperblock / BLOCK_SIZE

/-- The byte position of inode `i` on disk. -/
def inodePos (i : Nat) : Nat := (inodeStart + i / inodesPerBlock) * BLOCK_SIZE + (i % inodesPerBlock) * sizeofFcb

/-! ## The positions -/

theorem inodePos_eq (i : Nat) : inodePos i = (3 + i / 4) * 4096 + (i % 4) * 840 := rfl

/-- Where the counters of the loops put it. -/
theorem blockPos_eq (i : Nat) : (inodeStart + (i / inodesPerBlock : Nat) : Int) * BLOCK_SIZE +
    ((i % inodesPerBlock : Nat) : Int) * sizeofFcb = inodePos i := by
  rw [inodePos]
  push_cast
  rfl

/-- A record fits into its block. -/
theorem inodePos_in_block (i : Nat) :
    (inodeStart + i / inodesPerBlock) * BLOCK_SIZE ≤ inodePos i ∧
    inodePos i + sizeofFcb ≤ (inodeStart + i / inodesPerBlock + 1) * BLOCK_SIZE := by
  change (3 + i / 4) * 4096 ≤ inodePos i ∧ inodePos i + 840 ≤ (3 + i / 4 + 1) * 4096
  rw [inodePos_eq]
  omega

theorem inodePos_add_le {i j : Nat} (h : i < j) : inodePos i + sizeofFcb ≤ inodePos j := by
  change inodePos i + 840 ≤ inodePos j
  rw [inodePos_eq, inodePos_eq]
  omega

theorem inodePos_mono {i j : Nat} (h : i ≤ j) : inodePos i ≤ inodePos j := by
  rcases Nat.lt_or_eq_of_le h with hlt | rfl
  · exact Nat.le_trans (Nat.le_add_right _ _) (inodePos_add_le hlt)
  · exact Nat.le_refl _

/-- Different records do not meet. -/
theorem inodePos_disjoint {i j : Nat} (h : i ≠ j) :
    inodePos i + sizeofFcb ≤ inodePos j ∨ inodePos j + sizeofFcb ≤ inodePos i :=
  (Nat.lt_or_gt_of_ne h).imp inodePos_add_le inodePos_add_le

/-- They stay out of the blocks of the superblock. -/
theorem inodeStart_le_inodePos (i : Nat) : inodeStart * BLOCK_SIZE ≤ inodePos i := by
  change 3 * 4096 ≤ inodePos i
  rw [inodePos_eq]
  omega

/-- The positions of the slots of `inodes[]` are far inside an `int`. -/
theorem inodePos_lt {i : Nat} (h : i < TABLE_SIZE) : inodePos i + sizeofFcb < 2 ^ 31 := by
  change i < 100 at h
  change inodePos i + 840 < 2 ^ 31
  rw [inodePos_eq]
  omega

/-! ## Accesses -/

/-- The access is where its object belongs: a whole record at its position, or the superblock inside
its own blocks. -/
def Access.InPlace (a : Access) : Prop :=
  match a.object with
  | .inode i => a.offset = inodePos i ∧ a.size = sizeofFcb
  | .sBlock => a.offset = 0 ∧ a.size ≤ inodeStart * BLOCK_SIZE

theorem log_pwrite (d : Disk) (kind : Kind) (object : Object) (buf : List UInt8) (offset : Int) :
    (d.pwrite kind object buf offset).2.log =
      d.log ++ [⟨kind, object, offset, buf.length, (d.pwrite kind object buf offset).1⟩] := by
  unfold Disk.pwrite
  split <;> rfl

theorem log_pread (d : Disk) (object : Object) (size : Nat) (offset : Int) :
    (d.pread object size offset).2.2.log =
      d.log ++ [⟨.read, object, offset, size, (d.pread object size offset).1⟩] := by
  unfold Disk.pread
  split <;> rfl

/-- A padded write makes one or two calls for its object, both at the same place. -/
theorem log_writePadded (d : Disk) (object : Object) (buf : List UInt8) (offset : Int) :
    ∃ new, (d.writePadded object buf offset).2.log = d.log ++ new ∧ new ≠ [] ∧
      ∀ a ∈ new, a.object = object ∧ a.offset = offset ∧ a.size = buf.length := by
  simp only [Disk.writePadded]
  split
  · refine ⟨_, by rw [log_pwrite, log_pwrite, List.append_assoc], by simp, fun a ha => ?_⟩
    rcases List.mem_append.1 ha with ha | ha <;> rw [List.mem_singleton] at ha <;> subst ha <;> simp
  · refine ⟨_, log_pwrite _ _ _ _ _, by simp, fun a ha => ?_⟩
    rw [List.mem_singleton] at ha
    subst ha
    simp

/-- The geometry `formatDisk` writes into the superblock. -/
structure Process.Geometry (s : Process) : Prop where
  numInodesPerBlock : s.tbl.sBlock.numInodesPerBlock.toInt = inodesPerBlock
  inodeStartIndex : s.tbl.sBlock.inodeStartIndex.toInt = inodeStart

@[simp] theorem length_inodeMemory (s : Process) (x : Nat) : (s.inodeMemory x).length = sizeofFcb :=
  FileControlBlock.codec.length_enc _

/-- What a disk access of record `i` by the counters `block`, `fill` looks like. -/
def Access.At (a : Access) (i : Nat) (block fill : Int) : Prop :=
  a.object = .inode i ∧ a.offset = block * BLOCK_SIZE + fill * sizeofFcb ∧ a.size = sizeofFcb

theorem log_writeRound (i : Nat) (block fill : Int) (s : Process) :
    ∃ new, (writeRound i block fill s).2.disk.log = s.disk.log ++ new ∧ new ≠ [] ∧
      ∀ a ∈ new, a.At i block fill := by
  obtain ⟨new, hlog, hne, hnew⟩ :=
    log_writePadded s.disk (.inode i) (s.inodeMemory i) (block * BLOCK_SIZE + fill * sizeofFcb)
  refine ⟨new, hlog, hne, fun a ha => ?_⟩
  obtain ⟨h1, h2, h3⟩ := hnew a ha
  exact ⟨h1, h2, by rw [h3, length_inodeMemory]⟩

/-- The counters of record `i` are a division with remainder. -/
theorem Access.At.inPlace {a : Access} {i : Nat}
    (h : a.At i (inodeStart + (i / inodesPerBlock : Nat)) (i % inodesPerBlock : Nat)) : a.InPlace := by
  obtain ⟨hobj, hoff, hsize⟩ := h
  simp only [InPlace, hobj, hoff, hsize, and_true, inodePos]
  push_cast
  rfl

/-- **A walk that writes each record where its counters say writes each record in its place.** -/
theorem log_walk (body : Nat → Int → Int → Process → Bool × Process)
    (hadv : ∀ i block fill s, (body i block fill s).1 = true)
    (hgeo : ∀ i block fill s, s.Geometry → (body i block fill s).2.Geometry)
    (hlog : ∀ i block fill s, ∃ new, (body i block fill s).2.disk.log = s.disk.log ++ new ∧ new ≠ [] ∧
      ∀ a ∈ new, a.At i block fill) (count i : Nat) {s : Process} (hs : s.Geometry) :
    ∃ new, (Cursor.loop Process.perBlock body count i (inodeStart + (i / inodesPerBlock : Nat))
        (i % inodesPerBlock : Nat) s).disk.log = s.disk.log ++ new ∧
      (∀ a ∈ new, a.InPlace) ∧ ∀ j, i ≤ j → j < i + count → ∃ a ∈ new, a.object = .inode j := by
  let P (k : Nat) (r : Process) : Prop := r.Geometry ∧ ∃ new, r.disk.log = s.disk.log ++ new ∧
    (∀ a ∈ new, a.InPlace) ∧ ∀ j, i ≤ j → j < k → ∃ a ∈ new, a.object = .inode j
  have hstart : P i s := ⟨hs, [], by simp, by simp, fun j h1 h2 => absurd h2 (by omega)⟩
  have hstep : ∀ k r, P k r →
      P (k + 1) (body k (inodeStart + (k / inodesPerBlock : Nat)) (k % inodesPerBlock : Nat) r).2 := by
    rintro k r ⟨hr, old, hold, hplace, hall⟩
    obtain ⟨new, hnew, hne, hat⟩ := hlog k (inodeStart + (k / inodesPerBlock : Nat)) (k % inodesPerBlock : Nat) r
    refine ⟨hgeo _ _ _ r hr, old ++ new, by rw [hnew, hold, List.append_assoc], fun a ha => ?_, fun j h1 h2 => ?_⟩
    · rcases List.mem_append.1 ha with ha | ha
      · exact hplace a ha
      · exact (hat a ha).inPlace
    · by_cases hjk : j < k
      · obtain ⟨a, ha, hobj⟩ := hall j h1 hjk
        exact ⟨a, List.mem_append_left _ ha, hobj⟩
      · obtain ⟨a, ha⟩ := List.exists_mem_of_ne_nil new hne
        refine ⟨a, List.mem_append_right _ ha, ?_⟩
        rw [(hat a ha).1, show k = j by omega]
  have hper : ∀ k r, P k r → r.perBlock = inodesPerBlock := fun k r h => h.1.numInodesPerBlock
  have hend : P (i + count) (Cursor.loop Process.perBlock body count i (inodeStart + (i / inodesPerBlock : Nat))
      (i % inodesPerBlock : Nat) s) :=
    Cursor.loop_spec (by decide) inodeStart hper (fun k r _ _ h => hstep k r h)
      (fun k r _ _ _ => hadv k _ _ r) hstart
  exact hend.2

/-! ## The flush -/

theorem length_sBlockMemory (s : Process) (size : Nat) : (s.sBlockMemory size).length = size := by
  have hwidth : (Superblock.codec.enc s.tbl.sBlock).length = sizeofSuperblock := Superblock.codec.length_enc _
  simp only [Process.sBlockMemory, List.length_take, List.length_append, List.length_map, List.length_range,
    hwidth]
  omega

theorem log_writeSBlock (s : Process) (size : Nat) :
    ∃ new, (s.writeSBlock size).disk.log = s.disk.log ++ new ∧
      ∀ a ∈ new, a.object = .sBlock ∧ a.offset = 0 ∧ a.size = size := by
  obtain ⟨new, hlog, _, hnew⟩ := log_writePadded s.disk .sBlock (s.sBlockMemory size) 0
  rw [length_sBlockMemory] at hnew
  exact ⟨new, hlog, hnew⟩

/-- The records a flush writes: all but the last, the first time also without the root. -/
def Flushed (firstTime : Bool) (s : Process) (i : Nat) : Prop :=
  (firstTime = true → 1 ≤ i) ∧ (i : Int) < s.tbl.sBlock.numInodes.toInt - 1

/-- **Both loops of the flush write each record in its place.** -/
theorem log_flush (firstTime : Bool) {s : Process} (hs : s.Geometry) :
    ∃ new, (flushAllInodesTodisk firstTime s).2.disk.log = s.disk.log ++ new ∧
      (∀ a ∈ new, a.InPlace) ∧ ∀ i, Flushed firstTime s i → ∃ a ∈ new, a.object = .inode i := by
  cases firstTime with
  | true =>
    obtain ⟨new, hlog, hplace, hall⟩ := log_walk firstTimeRound (fun _ _ _ _ => rfl)
      (fun _ _ _ _ h => ⟨h.1, h.2⟩) (fun i block fill s => log_writeRound i block fill _)
      (s.tbl.sBlock.numInodes.toInt - 1 - 1).toNat 1 hs
    refine ⟨new, ?_, hplace, fun i hi => hall i (hi.1 rfl) (by have := hi.2; omega)⟩
    rw [← hlog]
    simp only [flushAllInodesTodisk, if_true, hs.inodeStartIndex]
    rfl
  | false =>
    obtain ⟨sb, hsb, hplace⟩ := log_writeSBlock s (inodeStart * BLOCK_SIZE)
    have hgeo : (s.writeSBlock (inodeStart * BLOCK_SIZE)).Geometry := ⟨hs.1, hs.2⟩
    obtain ⟨new, hlog, hnew, hall⟩ := log_walk writeRound (fun _ _ _ _ => rfl)
      (fun _ _ _ _ h => ⟨h.1, h.2⟩) log_writeRound (s.tbl.sBlock.numInodes.toInt - 1).toNat 0 hgeo
    refine ⟨sb ++ new, ?_, fun a ha => ?_, fun i hi => ?_⟩
    · rw [← List.append_assoc, ← hsb, ← hlog]
      simp only [flushAllInodesTodisk, Bool.false_eq_true, if_false, hs.inodeStartIndex]
      rfl
    · rcases List.mem_append.1 ha with ha | ha
      · obtain ⟨hobj, hoff, hsize⟩ := hplace a ha
        simp only [Access.InPlace, hobj, hoff, hsize, true_and, Nat.le_refl]
      · exact hnew a ha
    · obtain ⟨a, ha, hobj⟩ := hall i (Nat.zero_le i) (by have := hi.2; omega)
      exact ⟨a, List.mem_append_right _ ha, hobj⟩

/-! ## Formatting -/

/-- The process when `formatDisk` starts to write. -/
def formatting (e : Env) (s : Process) : Process :=
  let t : Table := { s.tbl with sBlock := formatSBlock s.diskSize s.tbl.sBlock }
  { s with tbl := t.setInode 0 (rootInode e (t.inodes 0)) }

theorem geometry_formatting (e : Env) (s : Process) : (formatting e s).Geometry := by
  obtain ⟨n, m, hsb⟩ := formatSBlock_eq s.diskSize s.tbl.sBlock
  constructor <;> simp only [formatting, Table.sBlock_setInode, hsb] <;> rfl

theorem formatDisk_formatting (e : Env) (s : Process) : formatDisk e s =
    (flushAllInodesTodisk true (writeRound 0 inodeStart 0
      ((formatting e s).writeSBlock sizeofSuperblock)).2).2 := by
  have hstart : ((formatting e s).writeSBlock sizeofSuperblock).tbl.sBlock.inodeStartIndex.toInt = inodeStart :=
    (geometry_formatting e s).2
  rw [writeRound, ← hstart]
  rfl

/-- The writes of `formatDisk`: superblock, root, first-time flush. -/
theorem formatDisk_eq (e : Env) (s : Process) : ∃ s₁ : Process, s₁.Geometry ∧ s₁.disk = s.disk ∧
    formatDisk e s =
      (flushAllInodesTodisk true (writeRound 0 inodeStart 0 (s₁.writeSBlock sizeofSuperblock)).2).2 :=
  ⟨formatting e s, geometry_formatting e s, rfl, formatDisk_formatting e s⟩

/-- **`formatDisk` writes the root, and what it flushes, in place.** -/
theorem log_formatDisk (e : Env) (s : Process) :
    ∃ new, (formatDisk e s).disk.log = s.disk.log ++ new ∧
      (∀ a ∈ new, a.InPlace) ∧ ∃ a ∈ new, a.object = .inode 0 := by
  obtain ⟨s₁, hgeo, hdisk, hformat⟩ := formatDisk_eq e s
  obtain ⟨sb, hsblog, hsbplace⟩ := log_writeSBlock s₁ sizeofSuperblock
  obtain ⟨root, hroot, hne, hrootAt⟩ := log_writeRound 0 inodeStart 0 (s₁.writeSBlock sizeofSuperblock)
  have hgeo' : (writeRound 0 inodeStart 0 (s₁.writeSBlock sizeofSuperblock)).2.Geometry := ⟨hgeo.1, hgeo.2⟩
  obtain ⟨rest, hrest, hrestplace, _⟩ := log_flush true hgeo'
  refine ⟨sb ++ root ++ rest, ?_, fun a ha => ?_, ?_⟩
  · rw [hformat, hrest, hroot, hsblog, hdisk]
    simp only [List.append_assoc]
  · rw [List.append_assoc] at ha
    rcases List.mem_append.1 ha with ha | ha
    · obtain ⟨hobj, hoff, hsize⟩ := hsbplace a ha
      simp only [Access.InPlace, hobj, hoff, hsize, true_and]
      decide
    · rcases List.mem_append.1 ha with ha | ha
      · exact (hrootAt a ha).inPlace
      · exact hrestplace a ha
  · obtain ⟨a, ha⟩ := List.exists_mem_of_ne_nil root hne
    exact ⟨a, by simp [ha], (hrootAt a ha).1⟩

/-! ## Mounting -/

theorem inodeRead_eq (b : LoadAddress) (blockNum : Int) (x : Nat) (offset : Int) (t : Table) (d : Disk) :
    (inodeRead b blockNum x offset t d).1 = (d.pread (.inode x) sizeofFcb (blockNum * BLOCK_SIZE + offset)).1 ∧
    (inodeRead b blockNum x offset t d).2.2 =
      (d.pread (.inode x) sizeofFcb (blockNum * BLOCK_SIZE + offset)).2.2 := by
  simp only [inodeRead]
  split <;> exact ⟨rfl, rfl⟩

/-- Marking data blocks changes only `dbmap`. -/
theorem markData_eq (i : Nat) (s : Process) : ∃ dbmap,
    markData i s = { s with tbl := { s.tbl with sBlock := { s.tbl.sBlock with dbmap := dbmap } } } := by
  simp only [markData]
  split
  · exact ⟨s.tbl.sBlock.dbmap, rfl⟩
  · split
    · exact ⟨_, rfl⟩
    · exact ⟨s.tbl.sBlock.dbmap, rfl⟩

theorem sBlock_inodeRead (b : LoadAddress) (blockNum : Int) (x : Nat) (offset : Int) (t : Table) (d : Disk) :
    (inodeRead b blockNum x offset t d).2.1.sBlock = t.sBlock := by
  simp only [inodeRead]
  split <;> rfl

/-- A round is a read and a change of `dbmap`; a return value of 0 keeps the counters where they are. -/
theorem readRound_eq (i : Nat) (block fill : Int) (s : Process) :
    let rd := inodeRead s.base block i (fill * sizeofFcb) s.tbl s.disk
    (readRound i block fill s).1 = decide (rd.1 ≠ 0) ∧ ∃ dbmap, (readRound i block fill s).2 =
      { s with tbl := { rd.2.1 with sBlock := { s.tbl.sBlock with dbmap := dbmap } }, disk := rd.2.2 } := by
  intro rd
  have hsb : rd.2.1.sBlock = s.tbl.sBlock := sBlock_inodeRead _ _ _ _ _ _
  change (if rd.1 ≠ 0 then (true, markData i { s with tbl := rd.2.1, disk := rd.2.2 })
    else (false, { s with tbl := rd.2.1, disk := rd.2.2 })).1 = _ ∧ ∃ dbmap,
      (if rd.1 ≠ 0 then (true, markData i { s with tbl := rd.2.1, disk := rd.2.2 })
        else (false, { s with tbl := rd.2.1, disk := rd.2.2 })).2 = _
  by_cases hret : rd.1 = 0
  · rw [if_neg (not_not_intro hret)]
    exact ⟨(decide_eq_false (not_not_intro hret)).symm, s.tbl.sBlock.dbmap, by rw [← hsb]⟩
  · obtain ⟨dbmap, hmark⟩ := markData_eq i { s with tbl := rd.2.1, disk := rd.2.2 }
    rw [if_pos hret]
    exact ⟨(decide_eq_true hret).symm, dbmap, by rw [hmark, hsb]⟩

/-- One round reads one record. -/
theorem log_readRound (i : Nat) (block fill : Int) (s : Process) :
    ∃ a, (readRound i block fill s).2.disk.log = s.disk.log ++ [a] ∧ a.At i block fill ∧
      (readRound i block fill s).1 = decide (a.ret ≠ 0) := by
  obtain ⟨hret, hdisk⟩ := inodeRead_eq s.base block i (fill * sizeofFcb) s.tbl s.disk
  obtain ⟨hadv, dbmap, hround⟩ := readRound_eq i block fill s
  refine ⟨⟨.read, .inode i, block * BLOCK_SIZE + fill * sizeofFcb, sizeofFcb,
    (s.disk.pread (.inode i) sizeofFcb (block * BLOCK_SIZE + fill * sizeofFcb)).1⟩, ?_, ⟨rfl, rfl, rfl⟩, ?_⟩
  · rw [hround, ← log_pread, ← hdisk]
  · rw [hadv, hret]

theorem geometry_readRound (i : Nat) (block fill : Int) {s : Process} (hs : s.Geometry) :
    (readRound i block fill s).2.Geometry := by
  obtain ⟨_, dbmap, hround⟩ := readRound_eq i block fill s
  rw [hround]
  exact ⟨hs.numInodesPerBlock, hs.inodeStartIndex⟩

/-- One read for each of `count` records from `i` on, in order. -/
def ReadsFrom (i count : Nat) (reads : List Access) : Prop :=
  reads.length = count ∧
  ∀ (k : Nat) (a : Access), reads[k]? = some a → a.object = .inode (i + k) ∧ a.size = sizeofFcb

/-- The reads that no read of 0 bytes comes before are in place. -/
def InPlaceWhileNonzero (reads : List Access) : Prop :=
  ∀ (k : Nat) (a : Access), reads[k]? = some a → (∀ j < k, ∀ b : Access, reads[j]? = some b → b.ret ≠ 0) → a.InPlace

/-- The loop invariant before record `j`, after `m` rounds that moved on. -/
structure ReadUpTo (s : Process) (j m : Nat) (r : Process) : Prop where
  geometry : r.Geometry
  reads : ∃ reads, r.disk.log = s.disk.log ++ reads ∧ ReadsFrom 0 j reads ∧ InPlaceWhileNonzero reads ∧
    ((∀ b ∈ reads, b.ret ≠ 0) → m = j)

/-- The next read. -/
theorem ReadsFrom.concat {i j : Nat} {reads : List Access} {a : Access} (h : ReadsFrom i j reads)
    (hobj : a.object = .inode (i + j)) (hsize : a.size = sizeofFcb) : ReadsFrom i (j + 1) (reads ++ [a]) := by
  obtain ⟨hlen, hreads⟩ := h
  refine ⟨by rw [List.length_append, hlen, List.length_singleton], fun k b hb => ?_⟩
  by_cases hk : k < j
  · rw [List.getElem?_append_left (by omega)] at hb
    exact hreads k b hb
  · rw [List.getElem?_append_right (by omega), hlen, List.getElem?_singleton] at hb
    split at hb
    · cases hb
      exact ⟨by rw [hobj, show k = j by omega], hsize⟩
    · cases hb

theorem InPlaceWhileNonzero.concat {reads : List Access} {a : Access} (h : InPlaceWhileNonzero reads)
    (ha : (∀ b ∈ reads, b.ret ≠ 0) → a.InPlace) : InPlaceWhileNonzero (reads ++ [a]) := by
  intro k b hb hne
  by_cases hk : k < reads.length
  · rw [List.getElem?_append_left hk] at hb
    refine h k b hb fun j hj c hc => hne j hj c ?_
    rwa [List.getElem?_append_left (by omega)]
  · rw [List.getElem?_append_right (by omega), List.getElem?_singleton] at hb
    split at hb
    · cases hb
      refine ha fun c hc => ?_
      obtain ⟨j, hj, hcj⟩ := List.getElem_of_mem hc
      refine hne j (by omega) c ?_
      rw [List.getElem?_append_left hj, List.getElem?_eq_getElem hj, hcj]
    · cases hb

theorem ReadUpTo.readRound {s r : Process} {j m : Nat} (h : ReadUpTo s j m r) :
    let round := readRound j (inodeStart + (m / inodesPerBlock : Nat)) (m % inodesPerBlock : Nat) r
    ReadUpTo s (j + 1) (if round.1 then m + 1 else m) round.2 := by
  intro round
  obtain ⟨reads, hold, hreads, hplace, hmoves⟩ := h.reads
  obtain ⟨a, hlog, hat, hadv⟩ :=
    log_readRound j (inodeStart + (m / inodesPerBlock : Nat)) (m % inodesPerBlock : Nat) r
  refine ⟨geometry_readRound _ _ _ h.geometry, reads ++ [a], ?_, ?_, ?_, fun hne => ?_⟩
  · rw [hlog, hold, List.append_assoc]
  · exact hreads.concat (by rw [hat.1, Nat.zero_add]) hat.2.2
  · refine hplace.concat fun hne => ?_
    rw [hmoves hne] at hat
    exact hat.inPlace
  · have hret : a.ret ≠ 0 := hne a (List.mem_append_right _ (List.mem_singleton_self a))
    rw [if_pos (hadv.trans (decide_eq_true hret)), hmoves fun b hb => hne b (List.mem_append_left _ hb)]

/-- **`sfs_init` reads each record in its place**, up to the first read of 0 bytes. -/
theorem log_readInodeTable {s : Process} (hs : s.Geometry) :
    ∃ reads, (readInodeTable s).disk.log = s.disk.log ++ reads ∧ ReadsFrom 0 s.tbl.count reads ∧
      InPlaceWhileNonzero reads := by
  have hstart : ReadUpTo s 0 0 s :=
    ⟨hs, [], (List.append_nil _).symm, ⟨rfl, by simp⟩, by simp [InPlaceWhileNonzero], fun _ => rfl⟩
  obtain ⟨m, hend⟩ : ∃ m, ReadUpTo s (0 + s.tbl.count) m (Cursor.loop Process.perBlock readRound s.tbl.count 0
      (inodeStart + (0 / inodesPerBlock : Nat)) (0 % inodesPerBlock : Nat) s) :=
    Cursor.loop_moves (by decide) inodeStart (fun _ _ _ h => h.geometry.numInodesPerBlock)
      (fun _ _ _ _ _ h => h.readRound) hstart
  obtain ⟨reads, hlog, hreads, hplace, _⟩ := hend.reads
  rw [readInodeTable, hs.inodeStartIndex]
  rw [Nat.zero_add] at hreads
  exact ⟨reads, hlog, hreads, hplace⟩

/-! ## Agreement -/

/-- All paths to the disk agree on where record `i` is, and the places do not meet. -/
structure LayoutAgrees (e : Env) (s : Process) : Prop where
  formatDisk : ∃ new, (formatDisk e s).disk.log = s.disk.log ++ new ∧
    (∀ a ∈ new, a.InPlace) ∧ ∃ a ∈ new, a.object = .inode 0
  flush : ∀ firstTime, ∃ new, (flushAllInodesTodisk firstTime s).2.disk.log = s.disk.log ++ new ∧
    (∀ a ∈ new, a.InPlace) ∧ ∀ i, Flushed firstTime s i → ∃ a ∈ new, a.object = .inode i
  mount : ∃ reads, (readInodeTable s).disk.log = s.disk.log ++ reads ∧ ReadsFrom 0 s.tbl.count reads ∧
    InPlaceWhileNonzero reads
  disjoint : ∀ i j, i ≠ j → inodePos i + sizeofFcb ≤ inodePos j ∨ inodePos j + sizeofFcb ≤ inodePos i
  inBlock : ∀ i, ∃ block, block * BLOCK_SIZE ≤ inodePos i ∧ inodePos i + sizeofFcb ≤ (block + 1) * BLOCK_SIZE
  outside : ∀ i, inodeStart * BLOCK_SIZE ≤ inodePos i

/-- **One layout**, for every number of inodes. -/
theorem layout_agrees (e : Env) {s : Process} (hs : s.Geometry) : LayoutAgrees e s where
  formatDisk := log_formatDisk e s
  flush firstTime := log_flush firstTime hs
  mount := log_readInodeTable hs
  disjoint _ _ := inodePos_disjoint
  inBlock i := ⟨_, inodePos_in_block i⟩
  outside := inodeStart_le_inodePos

theorem Process.JustFormatted.geometry {s : Process} (hs : s.JustFormatted) : s.Geometry where
  numInodesPerBlock := by rw [hs.tbl.numInodesPerBlock]; rfl
  inodeStartIndex := by rw [hs.tbl.inodeStartIndex]; rfl

theorem layout_agrees_formatted : LayoutAgrees ⟨1000, 1000, 0⟩ (formatted 200000) :=
  layout_agrees _ justFormatted_three.geometry

end Sfs
