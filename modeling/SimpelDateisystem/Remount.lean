import SimpelDateisystem.DiskLayout
import SimpelDateisystem.Runs

/-!
# What a mount reads back of a flush

`flush_complete`: after `flushAllInodesTodisk(FALSE)` with all writes complete, the disk holds the
superblock and every record but the last in its place; the loop ends one record early
(`i < endCond - 1`), so the last place keeps what was there before. `mount_complete`: `sfs_init`
reads every place, the last one too, and zeros past the end of the file.
-/

namespace Sfs

open ByteFile CString

/-! ## Complete writes -/

/-- What a padded write of `buf` at `pos` leaves on disk. -/
structure Written (d d' : Disk) (pos : Nat) (buf : List UInt8) : Prop where
  outcomes : d'.outcomes = []
  stored : image d'.bytes pos buf.length = buf
  frame : ∀ off n, off + n ≤ pos ∨ pos + buf.length ≤ off → image d'.bytes off n = image d.bytes off n
  length : d.bytes.length ≤ d'.bytes.length
  reaches : buf ≠ [] → pos + buf.length ≤ d'.bytes.length

/-- Both calls go through: the second one counts. -/
theorem writePadded_full {d : Disk} {buf : List UInt8} (h0 : d.Full 0 buf.length) (h1 : d.Full 1 buf.length)
    (object : Object) (pos : Nat) :
    (d.writePadded object buf pos).2.bytes = write d.bytes pos buf ∧
    (d.writePadded object buf pos).2.outcomes = d.outcomes.drop 2 ∧
    ∃ new, (d.writePadded object buf pos).2.log = d.log ++ new ∧ ∀ a ∈ new, a.ret = a.size := by
  let zeros := List.replicate buf.length digitZero
  have hlen : zeros.length = buf.length := List.length_replicate
  have h0' : d.Full 0 zeros.length := by rwa [hlen]
  obtain ⟨hret, hbytes⟩ := Disk.pwrite_of_full h0' .pad object pos
  obtain ⟨hret', hbytes'⟩ := Disk.pwrite_of_full ((Disk.full_pwrite .pad object zeros pos 0 _).2 h1) .write
    object pos
  rw [hbytes, write_write _ _ hlen] at hbytes'
  have hif : d.writePadded object buf pos = (d.pwrite .pad object zeros pos).2.pwrite .write object buf pos := by
    rw [Disk.writePadded, if_pos (by rw [hret]; omega)]
  rw [hif]
  refine ⟨hbytes', ?_, _, by rw [log_pwrite, log_pwrite, List.append_assoc], ?_⟩
  · rw [Disk.outcomes_pwrite, Disk.outcomes_pwrite, ← List.drop_one, ← List.drop_one, List.drop_drop]
  · intro a ha
    rcases List.mem_append.1 ha with ha | ha <;> rw [List.mem_singleton] at ha <;> subst ha
    · exact hret
    · exact hret'

theorem written {d : Disk} (hd : d.outcomes = []) (object : Object) (buf : List UInt8) (pos : Nat) :
    Written d (d.writePadded object buf pos).2 pos buf := by
  obtain ⟨hbytes, hout, _⟩ := writePadded_full (Disk.full_of_nil hd 0 buf.length)
    (Disk.full_of_nil hd 1 buf.length) object pos
  refine ⟨?_, ?_, fun off n h => ?_, ?_, fun hne => ?_⟩
  · rw [hout, hd]
    rfl
  · rw [hbytes, image_write_self]
  · rw [hbytes, image_write_of_disjoint _ h]
  · rw [hbytes]
    exact le_length_write _ _ _
  · rw [hbytes, length_write hne]
    omega

/-- A round of a flush writes its own record. -/
theorem writeRound_written {s : Process} (hout : s.disk.outcomes = []) (k : Nat) :
    Written s.disk (writeRound k (inodeStart + (k / inodesPerBlock : Nat)) (k % inodesPerBlock : Nat) s).2.disk
      (inodePos k) (s.inodeMemory k) := by
  have hw := written hout (.inode k) (s.inodeMemory k) (inodePos k)
  rwa [← blockPos_eq] at hw

/-- The other records stay. -/
theorem Written.image_record {d d' : Disk} {k i : Nat} {buf : List UInt8} (h : Written d d' (inodePos k) buf)
    (hbuf : buf.length = sizeofFcb) (hi : i ≠ k) :
    image d'.bytes (inodePos i) sizeofFcb = image d.bytes (inodePos i) sizeofFcb :=
  h.frame _ _ (by rw [hbuf]; exact inodePos_disjoint hi)

theorem Written.image_record_of_sBlock {d d' : Disk} {buf : List UInt8} (h : Written d d' 0 buf)
    (hbuf : buf.length ≤ inodeStart * BLOCK_SIZE) (i : Nat) :
    image d'.bytes (inodePos i) sizeofFcb = image d.bytes (inodePos i) sizeofFcb :=
  h.frame _ _ (.inr (by rw [Nat.zero_add]; exact Nat.le_trans hbuf (inodeStart_le_inodePos i)))

/-! ## The flush -/

/-- What a flush leaves on disk: the superblock, all records but the last, and whatever there was
in the last place. -/
structure HoldsFlushed (s : Process) (bytes : List UInt8) : Prop where
  sBlock : image bytes 0 (inodeStart * BLOCK_SIZE) = s.sBlockMemory (inodeStart * BLOCK_SIZE)
  length : inodeStart * BLOCK_SIZE ≤ bytes.length
  record : ∀ i, i + 1 < s.tbl.count →
    image bytes (inodePos i) sizeofFcb = s.inodeMemory i ∧ inodePos i + sizeofFcb ≤ bytes.length
  last : ∀ i, s.tbl.count ≤ i + 1 →
    image bytes (inodePos i) sizeofFcb = image s.disk.bytes (inodePos i) sizeofFcb

/-- The loop invariant of the flush before record `k`. -/
structure FlushedUpTo (s : Process) (k : Nat) (r : Process) : Prop where
  tbl : r.tbl = s.tbl
  base : r.base = s.base
  outcomes : r.disk.outcomes = []
  sBlock : image r.disk.bytes 0 (inodeStart * BLOCK_SIZE) = s.sBlockMemory (inodeStart * BLOCK_SIZE)
  length : inodeStart * BLOCK_SIZE ≤ r.disk.bytes.length
  record : ∀ i < k, image r.disk.bytes (inodePos i) sizeofFcb = s.inodeMemory i ∧
    inodePos i + sizeofFcb ≤ r.disk.bytes.length
  rest : ∀ i, k ≤ i → image r.disk.bytes (inodePos i) sizeofFcb = image s.disk.bytes (inodePos i) sizeofFcb

theorem flushedUpTo_writeSBlock {s : Process} (hout : s.disk.outcomes = []) :
    FlushedUpTo s 0 (s.writeSBlock (inodeStart * BLOCK_SIZE)) := by
  have hw := written hout .sBlock (s.sBlockMemory (inodeStart * BLOCK_SIZE)) 0
  have hlen := length_sBlockMemory s (inodeStart * BLOCK_SIZE)
  refine ⟨rfl, rfl, hw.outcomes, ?_, ?_, fun i hi => absurd hi (Nat.not_lt_zero i), fun i _ => ?_⟩
  · have himage := hw.stored
    rwa [hlen] at himage
  · have hreach := hw.reaches (List.ne_nil_of_length_pos (by rw [hlen]; decide))
    rwa [hlen, Nat.zero_add] at hreach
  · exact hw.image_record_of_sBlock (by rw [hlen]) i

theorem FlushedUpTo.writeRound {s r : Process} {k : Nat} (h : FlushedUpTo s k r) :
    FlushedUpTo s (k + 1)
      (writeRound k (inodeStart + (k / inodesPerBlock : Nat)) (k % inodesPerBlock : Nat) r).2 := by
  have hw := writeRound_written h.outcomes k
  have hlen := length_inodeMemory r k
  have hmem : r.inodeMemory k = s.inodeMemory k := by rw [Process.inodeMemory, h.tbl, h.base]; rfl
  refine ⟨h.tbl, h.base, hw.outcomes, ?_, ?_, fun i hi => ?_, fun i hi => ?_⟩
  · rw [← h.sBlock]
    exact hw.frame _ _ (.inl (by rw [Nat.zero_add]; exact inodeStart_le_inodePos k))
  · exact Nat.le_trans h.length hw.length
  · by_cases hik : i = k
    · rw [hik, ← hmem]
      have himage := hw.stored
      have hreach := hw.reaches (List.ne_nil_of_length_pos (by rw [hlen]; decide))
      rw [hlen] at himage hreach
      exact ⟨himage, hreach⟩
    · obtain ⟨himage, hreach⟩ := h.record i (by omega)
      exact ⟨(hw.image_record hlen hik).trans himage, Nat.le_trans hreach hw.length⟩
  · rw [← h.rest i (by omega)]
    exact hw.image_record hlen (by omega)

/-- The flush after the first, its counters where records are. -/
theorem flushAllInodesTodisk_eq_loop {s : Process} (hs : s.Geometry) :
    (flushAllInodesTodisk false s).2 = Cursor.loop Process.perBlock writeRound (s.tbl.count - 1) 0
      (inodeStart + (0 / inodesPerBlock : Nat)) (0 % inodesPerBlock : Nat)
      (s.writeSBlock (inodeStart * BLOCK_SIZE)) := by
  have hc : (s.tbl.sBlock.numInodes.toInt - 1).toNat = s.tbl.count - 1 := by
    rw [Table.count]; omega
  simp only [flushAllInodesTodisk, Bool.false_eq_true, if_false, hs.inodeStartIndex, hc]
  rfl

/-- **A flush with all writes complete.** -/
theorem flush_complete {s : Process} (hs : s.Geometry) (hout : s.disk.outcomes = []) :
    HoldsFlushed s (flushAllInodesTodisk false s).2.disk.bytes ∧
    (flushAllInodesTodisk false s).2.disk.outcomes = [] := by
  have hper : ∀ k r, FlushedUpTo s k r → r.perBlock = inodesPerBlock := by
    intro k r h
    rw [Process.perBlock, h.tbl]
    exact hs.numInodesPerBlock
  have hend : FlushedUpTo s (0 + (s.tbl.count - 1)) (Cursor.loop Process.perBlock writeRound (s.tbl.count - 1) 0
      (inodeStart + (0 / inodesPerBlock : Nat)) (0 % inodesPerBlock : Nat)
      (s.writeSBlock (inodeStart * BLOCK_SIZE))) :=
    Cursor.loop_spec (by decide) inodeStart hper (fun k r _ _ h => h.writeRound) (fun _ _ _ _ _ => rfl)
      (flushedUpTo_writeSBlock hout)
  rw [flushAllInodesTodisk_eq_loop hs]
  exact ⟨⟨hend.sBlock, hend.length, fun i hi => hend.record i (by omega), fun i hi => hend.rest i (by omega)⟩,
    hend.outcomes⟩

/-! ## Formatting -/

/-- The loop invariant of the first-time flush before record `k`. -/
structure UntouchedFrom (bytes : List UInt8) (k : Nat) (r : Process) : Prop where
  geometry : r.Geometry
  outcomes : r.disk.outcomes = []
  rest : ∀ i, k ≤ i → image r.disk.bytes (inodePos i) sizeofFcb = image bytes (inodePos i) sizeofFcb

theorem UntouchedFrom.writeRound {bytes : List UInt8} {r : Process} {k : Nat} (h : UntouchedFrom bytes k r) :
    UntouchedFrom bytes (k + 1)
      (writeRound k (inodeStart + (k / inodesPerBlock : Nat)) (k % inodesPerBlock : Nat) r).2 := by
  have hw := writeRound_written h.outcomes k
  refine ⟨⟨h.geometry.1, h.geometry.2⟩, hw.outcomes, fun i hi => ?_⟩
  rw [← h.rest i (by omega)]
  exact hw.image_record (length_inodeMemory r k) (by omega)

/-- **`formatDisk` does not write the last record either**, nor those behind it. -/
theorem formatDisk_complete (e : Env) {s : Process} (hout : s.disk.outcomes = []) :
    (formatDisk e s).disk.outcomes = [] ∧ ∀ i, 1 ≤ i → (formatDisk e s).tbl.count ≤ i + 1 →
      image (formatDisk e s).disk.bytes (inodePos i) sizeofFcb = image s.disk.bytes (inodePos i) sizeofFcb := by
  obtain ⟨s₁, hgeo, hdisk, hformat⟩ := formatDisk_eq e s
  have hw : Written s₁.disk (s₁.writeSBlock sizeofSuperblock).disk 0 (s₁.sBlockMemory sizeofSuperblock) :=
    written (by rw [hdisk]; exact hout) .sBlock _ 0
  have hsb : UntouchedFrom s.disk.bytes 0 (s₁.writeSBlock sizeofSuperblock) := by
    refine ⟨⟨hgeo.1, hgeo.2⟩, hw.outcomes, fun i _ => ?_⟩
    rw [hw.image_record_of_sBlock (by rw [length_sBlockMemory]; decide), hdisk]
  have hroot : UntouchedFrom s.disk.bytes 1 (writeRound 0 inodeStart 0 (s₁.writeSBlock sizeofSuperblock)).2 :=
    hsb.writeRound
  rw [hformat]
  generalize (writeRound 0 inodeStart 0 (s₁.writeSBlock sizeofSuperblock)).2 = r at hroot
  have hend : UntouchedFrom s.disk.bytes (1 + (r.tbl.sBlock.numInodes.toInt - 1 - 1).toNat)
      (flushAllInodesTodisk true r).2 := by
    have hstep : ∀ k q, UntouchedFrom s.disk.bytes k q → UntouchedFrom s.disk.bytes (k + 1)
        (firstTimeRound k (inodeStart + (k / inodesPerBlock : Nat)) (k % inodesPerBlock : Nat) q).2 := by
      intro k q h
      have hbit : UntouchedFrom s.disk.bytes k { q with tbl := q.tbl.setIbit k 0 } :=
        ⟨⟨h.geometry.1, h.geometry.2⟩, h.outcomes, h.rest⟩
      exact hbit.writeRound
    have hloop : UntouchedFrom s.disk.bytes (1 + (r.tbl.sBlock.numInodes.toInt - 1 - 1).toNat)
        (Cursor.loop Process.perBlock firstTimeRound (r.tbl.sBlock.numInodes.toInt - 1 - 1).toNat 1
          (inodeStart + (1 / inodesPerBlock : Nat)) (1 % inodesPerBlock : Nat) r) :=
      Cursor.loop_spec (by decide) inodeStart (fun _ _ h => h.geometry.numInodesPerBlock)
        (fun k q _ _ h => hstep k q h) (fun _ _ _ _ _ => rfl) hroot
    simp only [flushAllInodesTodisk, if_true, hroot.geometry.inodeStartIndex]
    exact hloop
  obtain ⟨ibmap, disk, htrue, _⟩ := flushAllInodesTodisk_true r
  refine ⟨hend.outcomes, fun i h1 hi => hend.rest i ?_⟩
  rw [htrue] at hi
  have hi' : r.tbl.sBlock.numInodes.toInt.toNat ≤ i + 1 := hi
  omega

/-! ## The mount -/

/-- The record `i` of a disk file, zero past its end. -/
def storedRecord (bytes : List UInt8) (i : Nat) : FileControlBlock (BitVec 64) :=
  FileControlBlock.codec.dec (image bytes (inodePos i) sizeofFcb)

/-- The same record in a process loaded at `b`. -/
def recordAt (b : LoadAddress) (bytes : List UInt8) (i : Nat) : FileControlBlock Ptr :=
  (storedRecord bytes i).mapPtr b.decode

theorem enc_zero : FileControlBlock.codec.enc (.zero 0) = List.replicate sizeofFcb 0 := by
  decide +kernel

/-- A read into a zero record, cut off at the end of the file, is the zero-extended image. -/
theorem overwrite_zero (b : LoadAddress) (bytes : List UInt8) (i : Nat)
    (hne : read bytes (inodePos i) sizeofFcb ≠ []) :
    (FileControlBlock.zero Ptr.null).overwrite b (read bytes (inodePos i) sizeofFcb) = recordAt b bytes i := by
  have hwhole : read bytes (inodePos i) sizeofFcb ++
      (List.replicate sizeofFcb 0).drop (read bytes (inodePos i) sizeofFcb).length =
      image bytes (inodePos i) sizeofFcb := by
    rw [length_read, List.drop_replicate]
    have hdrop := drop_image bytes (inodePos i) sizeofFcb
    rw [read_eq_image, show sizeofFcb - min sizeofFcb (bytes.length - inodePos i) =
      sizeofFcb - (bytes.length - inodePos i) by omega, ← hdrop, List.take_append_drop]
  rw [FileControlBlock.overwrite, if_neg hne, FileControlBlock.mapPtr_zero, LoadAddress.encode_null,
    Codec.overwrite, enc_zero, hwhole, recordAt, storedRecord]

/-- A record past the end of the file. -/
theorem recordAt_of_length_le (b : LoadAddress) {bytes : List UInt8} {i : Nat} (h : bytes.length ≤ inodePos i) :
    recordAt b bytes i = .zero .null := by
  rw [recordAt, storedRecord, image_of_length_le _ h, ← enc_zero, Codec.dec_enc_self,
    FileControlBlock.mapPtr_zero, LoadAddress.decode_zero]

/-- Clearing a part of a record that is zero. -/
theorem overwrite_zeros (b : LoadAddress) {k : Nat} (hk : k ≤ sizeofFcb) :
    (FileControlBlock.zero Ptr.null).overwrite b (List.replicate k 0) = .zero .null := by
  by_cases h0 : List.replicate k (0 : UInt8) = []
  · rw [FileControlBlock.overwrite, if_pos h0]
  · have hwhole : List.replicate k (0 : UInt8) ++ (List.replicate sizeofFcb 0).drop k =
        FileControlBlock.codec.enc (.zero 0) := by
      rw [enc_zero, List.drop_replicate, List.replicate_append_replicate, Nat.add_sub_cancel' hk]
    rw [FileControlBlock.overwrite, if_neg h0, FileControlBlock.mapPtr_zero, LoadAddress.encode_null,
      Codec.overwrite, List.length_replicate, enc_zero, hwhole, Codec.dec_enc_self,
      FileControlBlock.mapPtr_zero, LoadAddress.decode_zero]

section store

variable (b : LoadAddress) (t : Table) (bs : List UInt8) {i k : Nat}

theorem inodes_store_of_lt (h : i < k) : (t.store b k bs).inodes i = t.inodes i := if_pos h

theorem inodes_store_self : (t.store b k bs).inodes k = (t.inodes k).overwrite b (bs.take sizeofFcb) := by
  simp [Table.store]

/-- Bytes of one record do not reach the next one. -/
theorem inodes_store_of_gt (h : k < i) (hbs : bs.length ≤ sizeofFcb) : (t.store b k bs).inodes i = t.inodes i := by
  have hdrop : bs.drop ((i - k) * sizeofFcb) = [] :=
    List.drop_eq_nil_of_le (Nat.le_trans hbs (Nat.le_mul_of_pos_left _ (by omega)))
  change (if i < k then t.inodes i else
    (t.inodes i).overwrite b ((bs.drop ((i - k) * sizeofFcb)).take sizeofFcb)) = t.inodes i
  rw [if_neg (by omega), hdrop, List.take_nil, FileControlBlock.overwrite, if_pos rfl]

end store

/-- Clearing memory that is zero. -/
theorem inodes_store_zeros (b : LoadAddress) {t : Table} {x i n : Nat} (h : t.inodes i = .zero .null) :
    (t.store b x (List.replicate n 0)).inodes i = .zero .null := by
  by_cases hi : i < x
  · rw [inodes_store_of_lt b t _ hi, h]
  · have hslot : (t.store b x (List.replicate n 0)).inodes i =
        (t.inodes i).overwrite b (((List.replicate n 0).drop ((i - x) * sizeofFcb)).take sizeofFcb) := if_neg hi
    rw [hslot, h, List.drop_replicate, List.take_replicate, overwrite_zeros b (Nat.min_le_left _ _)]

/-- `inode_read` into a slot that is zero: the slot holds the record of the disk afterwards, and when
the whole record is on disk, nothing else changes. -/
theorem inodeRead_complete {b : LoadAddress} {blockNum offset : Int} {k : Nat} {t : Table} {d : Disk}
    (hd : d.outcomes = []) (hpos : blockNum * BLOCK_SIZE + offset = inodePos k)
    (hzero : t.inodes k = FileControlBlock.zero .null) :
    let r := inodeRead b blockNum k offset t d
    r.2.1.sBlock = t.sBlock ∧ r.2.2.bytes = d.bytes ∧ r.2.2.outcomes = [] ∧
    r.2.1.inodes k = recordAt b d.bytes k ∧ (∀ i < k, r.2.1.inodes i = t.inodes i) ∧
    (inodePos k + sizeofFcb ≤ d.bytes.length → r.1 = sizeofFcb ∧ ∀ i, k < i → r.2.1.inodes i = t.inodes i) := by
  obtain ⟨hret, hgot, hbytes, hout⟩ := Disk.pread_of_complete (by rw [hd]; rfl) (.inode k) sizeofFcb (inodePos k)
  rw [hd] at hout
  have hlen := length_read d.bytes (inodePos k) sizeofFcb
  have hwidth : sizeofFcb = 840 := rfl
  simp only [inodeRead, hpos, hret, hgot]
  by_cases hempty : ((read d.bytes (inodePos k) sizeofFcb).length : Int) ≤ 0
  · simp only [if_pos hempty]
    have hend : d.bytes.length ≤ inodePos k := by omega
    refine ⟨rfl, hbytes, hout, ?_, fun i hi => inodes_store_of_lt b t _ hi, fun h => by omega⟩
    rw [inodes_store_zeros b hzero, recordAt_of_length_le b hend]
  · simp only [if_neg hempty]
    refine ⟨rfl, hbytes, hout, ?_, fun i hi => inodes_store_of_lt b t _ hi, fun h => ⟨by omega, fun i hi => ?_⟩⟩
    · rw [inodes_store_self, hzero, List.take_of_length_le (by omega)]
      exact overwrite_zero b d.bytes k fun hnil => hempty (by rw [hnil]; decide)
    · exact inodes_store_of_gt b t _ hi (by omega)

/-- The loop invariant of the mount before record `k`, `f` being the process when it starts. -/
structure MountedUpTo (f : Process) (k : Nat) (r : Process) : Prop where
  base : r.base = f.base
  bytes : r.disk.bytes = f.disk.bytes
  outcomes : r.disk.outcomes = []
  sBlock : ∃ dbmap, r.tbl.sBlock = { f.tbl.sBlock with dbmap := dbmap }
  record : ∀ i < k, r.tbl.inodes i = recordAt f.base f.disk.bytes i
  zero : k + 1 ≤ f.tbl.count → ∀ i, k ≤ i → i < f.tbl.count → r.tbl.inodes i = .zero .null

/-- Once record `k` is in its slot, and unless it is the last one the slots behind it still zero. -/
theorem MountedUpTo.succ {f r : Process} {k : Nat} {t : Table} {d : Disk} (h : MountedUpTo f k r)
    (hk : k < f.tbl.count) (hsb : t.sBlock = r.tbl.sBlock) (hbytes : d.bytes = f.disk.bytes)
    (hout : d.outcomes = []) (hself : t.inodes k = recordAt f.base f.disk.bytes k)
    (hbefore : ∀ i < k, t.inodes i = r.tbl.inodes i)
    (hbehind : k + 1 < f.tbl.count → ∀ i, k < i → t.inodes i = r.tbl.inodes i) :
    MountedUpTo f (k + 1) { r with tbl := t, disk := d } := by
  obtain ⟨dbmap, hdbmap⟩ := h.sBlock
  refine ⟨h.base, hbytes, hout, ⟨dbmap, hsb.trans hdbmap⟩, fun i hi => ?_, fun hk' i hi hlt => ?_⟩
  · by_cases hik : i = k
    · subst hik; exact hself
    · exact (hbefore i (by omega)).trans (h.record i (by omega))
  · exact (hbehind hk' i (by omega)).trans (h.zero hk i (by omega) hlt)

theorem MountedUpTo.markData {f r : Process} {k i : Nat} (h : MountedUpTo f k r) :
    MountedUpTo f k (markData i r) := by
  obtain ⟨dbmap, hmark⟩ := markData_eq i r
  obtain ⟨dbmap', hdbmap⟩ := h.sBlock
  rw [hmark]
  exact ⟨h.base, h.bytes, h.outcomes, ⟨dbmap, by rw [hdbmap]⟩, h.record, h.zero⟩

/-- One round of the mount; all records but the last are on disk. -/
theorem MountedUpTo.readRound {f r : Process} {k : Nat} (h : MountedUpTo f k r) (hk : k < f.tbl.count)
    (hfits : ∀ i, i + 1 < f.tbl.count → inodePos i + sizeofFcb ≤ f.disk.bytes.length) :
    MountedUpTo f (k + 1) (readRound k (inodeStart + (k / inodesPerBlock : Nat)) (k % inodesPerBlock : Nat) r).2 ∧
    (k + 1 < f.tbl.count →
      (Sfs.readRound k (inodeStart + (k / inodesPerBlock : Nat)) (k % inodesPerBlock : Nat) r).1 = true) := by
  obtain ⟨hsb, hbytes, hout, hself, hbefore, hfull⟩ :=
    inodeRead_complete (b := r.base) h.outcomes (blockPos_eq k) (h.zero hk k (Nat.le_refl k) hk)
  simp only [Sfs.readRound]
  generalize inodeRead r.base (inodeStart + (k / inodesPerBlock : Nat)) k
    ((k % inodesPerBlock : Nat) * sizeofFcb) r.tbl r.disk = rd at *
  rw [h.base, h.bytes] at hself
  rw [h.bytes] at hbytes hfull
  have hnext := h.succ hk hsb hbytes hout hself hbefore fun hk' => (hfull (hfits k hk')).2
  by_cases hret : rd.1 = 0
  · refine ⟨?_, fun hk' => ?_⟩
    · rw [if_neg (by simp [hret])]
      exact hnext
    · have := (hfull (hfits k hk')).1
      rw [hret] at this
      exact absurd this (by decide)
  · refine ⟨?_, fun _ => ?_⟩
    · rw [if_pos hret]
      exact hnext.markData
    · rw [if_pos hret]

/-- The loop that reads the inodes, its counters where records are. -/
theorem readInodeTable_eq_loop {s : Process} (hs : s.Geometry) :
    readInodeTable s = Cursor.loop Process.perBlock readRound s.tbl.count 0
      (inodeStart + (0 / inodesPerBlock : Nat)) (0 % inodesPerBlock : Nat) s := by
  rw [readInodeTable, hs.inodeStartIndex]
  rfl

/-- The whole loop, from slots that are zero. -/
theorem readInodeTable_complete {f : Process} (hf : f.Geometry) (hout : f.disk.outcomes = [])
    (hzero : ∀ i < f.tbl.count, f.tbl.inodes i = .zero .null)
    (hfits : ∀ i, i + 1 < f.tbl.count → inodePos i + sizeofFcb ≤ f.disk.bytes.length) :
    MountedUpTo f f.tbl.count (readInodeTable f) := by
  have hstart : MountedUpTo f 0 f :=
    ⟨rfl, rfl, hout, ⟨f.tbl.sBlock.dbmap, rfl⟩, fun i hi => absurd hi (Nat.not_lt_zero i),
      fun _ i _ hi => hzero i hi⟩
  have hper : ∀ k r, MountedUpTo f k r → r.perBlock = inodesPerBlock := by
    intro k r h
    obtain ⟨dbmap, hdbmap⟩ := h.sBlock
    rw [Process.perBlock, hdbmap]
    exact hf.numInodesPerBlock
  have hend : MountedUpTo f (0 + f.tbl.count) (Cursor.loop Process.perBlock readRound f.tbl.count 0
      (inodeStart + (0 / inodesPerBlock : Nat)) (0 % inodesPerBlock : Nat) f) :=
    Cursor.loop_spec (by decide) inodeStart hper (fun k r _ hk h => (h.readRound (by omega) hfits).1)
      (fun k r _ hk h => (h.readRound (by omega) hfits).2 (by omega)) hstart
  rw [readInodeTable_eq_loop hf]
  rwa [Nat.zero_add] at hend

/-- The bytes at `sBlock` start with the superblock. -/
theorem take_sBlockMemory (s : Process) {size : Nat} (h : sizeofSuperblock ≤ size) :
    (s.sBlockMemory size).take sizeofSuperblock = Superblock.codec.enc s.tbl.sBlock := by
  have hwidth : (Superblock.codec.enc s.tbl.sBlock).length = sizeofSuperblock := Superblock.codec.length_enc _
  rw [Process.sBlockMemory, List.take_take, Nat.min_eq_left h, List.take_left' hwidth]

/-- The superblock a flush leaves on disk is the one in memory. -/
theorem HoldsFlushed.dec_sBlock {s : Process} {bytes : List UInt8} (h : HoldsFlushed s bytes) :
    Superblock.codec.dec (image bytes 0 sizeofSuperblock) = s.tbl.sBlock := by
  have hfits : sizeofSuperblock ≤ inodeStart * BLOCK_SIZE := by decide
  rw [← image_take bytes 0 hfits, h.sBlock, take_sBlockMemory s hfits, Codec.dec_enc_self]

/-- What `sfs_init` makes of a disk file that a flush of `s` has written. -/
structure Mounted (s f r : Process) : Prop where
  sBlock : ∃ dbmap, r.tbl.sBlock = { s.tbl.sBlock with dbmap := dbmap }
  record : ∀ i < s.tbl.count, r.tbl.inodes i = recordAt f.base f.disk.bytes i

/-- **A mount with all reads complete.** -/
theorem mount_complete {s f : Process} (hs : s.Geometry) (hsize : s.tbl.count ≤ TABLE_SIZE)
    (hf : f.Fresh) (hout : f.disk.outcomes = []) (hflush : HoldsFlushed s f.disk.bytes)
    (e : Env) (buf : Vector Byte sizeofSuperblock) : Mounted s f (sfsInit e buf f) := by
  have hbuf : buf.toList.length = sizeofSuperblock := Vector.length_toList
  have hlen : inodeStart * BLOCK_SIZE ≤ f.disk.bytes.length := hflush.length
  have hfits : sizeofSuperblock ≤ inodeStart * BLOCK_SIZE := by decide
  obtain ⟨hret, hbytes, hout', hgot⟩ := sBlockRead_of_complete (by rw [hout]; rfl) 0 buf.toList
  rw [length_read, Nat.min_eq_left (by omega), hbuf] at hret
  have himage := hgot (List.ne_nil_of_length_pos (by rw [hbuf]; decide)) (by omega)
  rw [hbuf] at himage
  rw [hout] at hout'
  -- the process when the loop starts
  let g : Process := { f with
    diskSize := toInt32 f.disk.bytes.length
    disk := (sBlockRead 0 buf.toList f.disk).2.2
    tbl := { f.tbl with sBlock := s.tbl.sBlock } }
  have hinit : sfsInit e buf f = readInodeTable g := by
    have hdec : Superblock.codec.dec (sBlockRead 0 buf.toList f.disk).2.1 = s.tbl.sBlock := by
      rw [himage, hflush.dec_sBlock]
    simp only [sfsInit, g]
    rw [if_neg (by rw [hret]; decide), if_pos (by rw [hret]; decide), hdec]
  have hrecords : ∀ i, i + 1 < g.tbl.count → inodePos i + sizeofFcb ≤ g.disk.bytes.length := by
    intro i hi
    rw [show g.disk.bytes = f.disk.bytes from hbytes]
    exact (hflush.record i hi).2
  have hcount : g.tbl.count = s.tbl.count := rfl
  have hend : MountedUpTo g g.tbl.count (readInodeTable g) :=
    readInodeTable_complete ⟨hs.1, hs.2⟩ hout' (fun i hi => hf.inodes i (by omega)) hrecords
  rw [hinit]
  refine ⟨hend.sBlock, fun i hi => ?_⟩
  rw [hend.record i hi, show g.disk.bytes = f.disk.bytes from hbytes]

/-- A record the flush has written comes back with its pointers decoded in the new process. -/
theorem HoldsFlushed.recordAt {s : Process} {bytes : List UInt8} (h : HoldsFlushed s bytes) (b : LoadAddress)
    {i : Nat} (hi : i + 1 < s.tbl.count) :
    recordAt b bytes i = ((s.tbl.inodes i).mapPtr s.base.encode).mapPtr b.decode := by
  rw [Sfs.recordAt, storedRecord, (h.record i hi).1, Process.inodeMemory, Codec.dec_enc_self]

end Sfs
