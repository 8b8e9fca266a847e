import SimpelDateisystem.Remount

/-!
# The flush as a sequence of writes

`formatDisk` and the flushes after it write the same things: the bytes of the superblock, then the
records from the first one on, each at its place. Both stop before the last record, the loops because
of `i < endCond - 1`. `writeTable` is this sequence, whatever the calls return.

| theorem | says |
| --- | --- |
| `disk_flush`       | a flush writes so, at the places the superblock's numbers give |
| `disk_formatDisk`  | so does `formatDisk`, 11744 bytes of the superblock |
| `bytes_writeTable` | the bytes when all calls go through |
-/

namespace Sfs

open ByteFile CString

/-- The disk after the superblock's bytes `sb` and the first `n` records. -/
def writeTable (sb : List UInt8) (mem : Nat → List UInt8) (pos : Nat → Nat) : Nat → Disk → Disk
  | 0, d => (d.writePadded .sBlock sb 0).2
  | n + 1, d => ((writeTable sb mem pos n d).writePadded (.inode n) (mem n) (pos n)).2

/-- The bytes a flush passes to `pwrite` for the superblock. -/
def Process.sBlockSize (s : Process) : Nat := (BLOCK_SIZE * s.tbl.sBlock.inodeStartIndex.toInt).toNat

/-- Where a flush puts record `i`, by the numbers in the superblock. A block gets at least one record. -/
def Process.recordOffset (s : Process) (i : Nat) : Int :=
  let perBlock := (max 1 s.perBlock).toNat
  (s.tbl.sBlock.inodeStartIndex.toInt + (i / perBlock : Nat)) * BLOCK_SIZE + (i % perBlock : Nat) * sizeofFcb

def Process.recordPos (s : Process) (i : Nat) : Nat := (s.recordOffset i).toNat

/-! ## The two ways to write it -/

/-- One round of a flush, on the disk alone. -/
theorem disk_writeRound {pos : Nat} (k : Nat) {block fill : Int} (s : Process)
    (hpos : block * BLOCK_SIZE + fill * sizeofFcb = pos) : (writeRound k block fill s).2 =
      { s with disk := (s.disk.writePadded (.inode k) (s.inodeMemory k) pos).2 } := by
  rw [← hpos]
  rfl

/-- **The rule of the flush's loop**: record `k` is written at its offset. -/
theorem flush_loop {s : Process} {P : Nat → Process → Prop} (hper : ∀ k r, P k r → r.perBlock = s.perBlock)
    (hstart : P 0 (s.writeSBlock s.sBlockSize))
    (hstep : ∀ k r block fill, k + 1 < s.tbl.count → block * BLOCK_SIZE + fill * sizeofFcb = s.recordOffset k →
      P k r → P (k + 1) (writeRound k block fill r).2) :
    P (s.tbl.count - 1) (flushAllInodesTodisk false s).2 := by
  let start := s.tbl.sBlock.inodeStartIndex.toInt
  let perBlock := (max 1 s.perBlock).toNat
  have hper' : ∀ k r, P k r → max 1 r.perBlock = perBlock := by
    intro k r hr
    rw [hper k r hr]
    exact (Int.toNat_of_nonneg (by omega)).symm
  have hend : P (0 + (s.tbl.count - 1)) (Cursor.loop (fun s => max 1 s.perBlock) writeRound (s.tbl.count - 1) 0
      (start + (0 / perBlock : Nat)) (0 % perBlock : Nat) (s.writeSBlock s.sBlockSize)) :=
    Cursor.loop_spec (by omega) start hper' (fun k r _ hk hr => hstep k r _ _ (by omega) rfl hr)
      (fun _ _ _ _ _ => rfl) hstart
  have hcount : (s.tbl.sBlock.numInodes.toInt - 1).toNat = s.tbl.count - 1 := by rw [Table.count]; omega
  have hflush : (flushAllInodesTodisk false s).2 = Cursor.loop Process.perBlock writeRound (s.tbl.count - 1) 0
      start 0 (s.writeSBlock s.sBlockSize) := by
    rw [← hcount]
    rfl
  rw [Nat.zero_div, Nat.zero_mod, Nat.zero_add, Int.natCast_zero, Int.add_zero,
    ← Cursor.loop_max _ _ _ _ _ (Int.le_refl 0)] at hend
  rw [hflush]
  exact hend

/-- **What a flush writes**, unless a record's offset is negative. -/
theorem disk_flush {s : Process} (hoff : ∀ i, i + 1 < s.tbl.count → 0 ≤ s.recordOffset i) :
    (flushAllInodesTodisk false s).2.disk =
      writeTable (s.sBlockMemory s.sBlockSize) s.inodeMemory s.recordPos (s.tbl.count - 1) s.disk := by
  let table (k : Nat) : Disk := writeTable (s.sBlockMemory s.sBlockSize) s.inodeMemory s.recordPos k s.disk
  let P (k : Nat) (r : Process) : Prop := r = { s with disk := table k }
  have hend : P (s.tbl.count - 1) (flushAllInodesTodisk false s).2 := by
    refine flush_loop (fun k r hr => ?_) rfl fun k r block fill hk hpos hr => ?_
    · rw [hr]
      rfl
    · rw [← Int.toNat_of_nonneg (hoff k hk)] at hpos
      rw [disk_writeRound k r hpos]
      simp only [P] at hr ⊢
      rw [hr]
      rfl
  rw [hend]

/-- In the geometry of `formatDisk`. -/
theorem recordPos_eq {s : Process} (hs : s.Geometry) : s.recordPos = inodePos ∧ ∀ i, 0 ≤ s.recordOffset i := by
  have hper : (max 1 s.perBlock).toNat = inodesPerBlock := by
    rw [Process.perBlock, hs.numInodesPerBlock]
    rfl
  have hoff : ∀ i, s.recordOffset i = inodePos i := by
    intro i
    simp only [Process.recordOffset]
    rw [hper, hs.inodeStartIndex, blockPos_eq]
  refine ⟨funext fun i => ?_, fun i => ?_⟩
  · rw [Process.recordPos, hoff, Int.toNat_natCast]
  · rw [hoff]
    exact Int.natCast_nonneg _

theorem sBlockSize_eq {s : Process} (hs : s.Geometry) : s.sBlockSize = inodeStart * BLOCK_SIZE := by
  rw [Process.sBlockSize, hs.inodeStartIndex]
  rfl

theorem disk_flush_of_geometry {s : Process} (hs : s.Geometry) : (flushAllInodesTodisk false s).2.disk =
    writeTable (s.sBlockMemory (inodeStart * BLOCK_SIZE)) s.inodeMemory inodePos (s.tbl.count - 1) s.disk := by
  obtain ⟨hpos, hoff⟩ := recordPos_eq hs
  rw [disk_flush fun i _ => hoff i, hpos, sBlockSize_eq hs]

/-- The first-time flush leaves the inodes and the number of them alone. -/
theorem inodes_formatDisk (e : Env) (s : Process) :
    (formatDisk e s).tbl.inodes = (formatting e s).tbl.inodes ∧
    (formatDisk e s).tbl.count = (formatting e s).tbl.count ∧ (formatDisk e s).base = s.base := by
  rw [formatDisk_formatting]
  obtain ⟨ibmap, disk, htrue, _⟩ := flushAllInodesTodisk_true
    (writeRound 0 inodeStart 0 ((formatting e s).writeSBlock sizeofSuperblock)).2
  rw [htrue]
  exact ⟨rfl, rfl, rfl⟩

theorem disk_formatDisk (e : Env) {s : Process} (h2 : 2 ≤ (formatDisk e s).tbl.count) :
    (formatDisk e s).disk = writeTable ((formatting e s).sBlockMemory sizeofSuperblock)
      (formatting e s).inodeMemory inodePos ((formatDisk e s).tbl.count - 1) s.disk := by
  obtain ⟨_, hcount, _⟩ := inodes_formatDisk e s
  rw [hcount] at h2 ⊢
  rw [formatDisk_formatting]
  have hgeo := geometry_formatting e s
  have hdisk : (formatting e s).disk = s.disk := rfl
  generalize formatting e s = f at *
  rw [← hdisk]
  let table (k : Nat) : Disk := writeTable (f.sBlockMemory sizeofSuperblock) f.inodeMemory inodePos k f.disk
  -- the loop clears bits of `ibmap` on its way
  let P (k : Nat) (r : Process) : Prop := ∃ ibmap,
    r = { f with tbl := { f.tbl with sBlock := { f.tbl.sBlock with ibmap := ibmap } }, disk := table k }
  have hroot : P 1 (writeRound 0 inodeStart 0 (f.writeSBlock sizeofSuperblock)).2 :=
    ⟨f.tbl.sBlock.ibmap, disk_writeRound 0 (f.writeSBlock sizeofSuperblock) (blockPos_eq 0)⟩
  have hstep : ∀ k r, P k r →
      P (k + 1) (firstTimeRound k (inodeStart + (k / inodesPerBlock : Nat)) (k % inodesPerBlock : Nat) r).2 := by
    rintro k r ⟨ibmap, rfl⟩
    exact ⟨Cells.poke ibmap k 0, disk_writeRound k _ (blockPos_eq k)⟩
  generalize (writeRound 0 inodeStart 0 (f.writeSBlock sizeofSuperblock)).2 = r at hroot
  have hr : r.tbl.sBlock.inodeStartIndex.toInt = inodeStart ∧
      (r.tbl.sBlock.numInodes.toInt - 1 - 1).toNat = f.tbl.count - 2 := by
    obtain ⟨ibmap, rfl⟩ := hroot
    refine ⟨hgeo.inodeStartIndex, ?_⟩
    change (f.tbl.sBlock.numInodes.toInt - 1 - 1).toNat = f.tbl.sBlock.numInodes.toInt.toNat - 2
    omega
  have hend : P (1 + (f.tbl.count - 2)) (Cursor.loop Process.perBlock firstTimeRound (f.tbl.count - 2) 1
      (inodeStart + (1 / inodesPerBlock : Nat)) (1 % inodesPerBlock : Nat) r) :=
    Cursor.loop_spec (by decide) inodeStart
      (fun k q h => by obtain ⟨ibmap, rfl⟩ := h; exact hgeo.numInodesPerBlock)
      (fun k q _ _ h => hstep k q h) (fun _ _ _ _ _ => rfl) hroot
  obtain ⟨ibmap, hend⟩ := hend
  simp only [flushAllInodesTodisk, if_true, hr]
  change (Cursor.loop Process.perBlock firstTimeRound (f.tbl.count - 2) 1
    (inodeStart + (1 / inodesPerBlock : Nat)) (1 % inodesPerBlock : Nat) r).disk = _
  rw [hend, show 1 + (f.tbl.count - 2) = f.tbl.count - 1 by omega]

/-! ## When all calls go through -/

/-- The writes, as bytes and places. -/
def tableWrites (sb : List UInt8) (mem : Nat → List UInt8) (pos : Nat → Nat) (n : Nat) : List Patch :=
  ⟨0, sb⟩ :: (List.range n).map fun i => ⟨pos i, mem i⟩

theorem tableWrites_succ (sb : List UInt8) (mem : Nat → List UInt8) (pos : Nat → Nat) (n : Nat) :
    tableWrites sb mem pos (n + 1) = tableWrites sb mem pos n ++ [⟨pos n, mem n⟩] := by
  rw [tableWrites, List.range_succ, List.map_append, List.map_singleton, ← List.cons_append]
  rfl

theorem mem_tableWrites_iff {sb : List UInt8} {mem : Nat → List UInt8} {pos : Nat → Nat} {n : Nat} {w : Patch} :
    w ∈ tableWrites sb mem pos n ↔ w = ⟨0, sb⟩ ∨ ∃ i < n, w = ⟨pos i, mem i⟩ := by
  simp only [tableWrites, List.mem_cons, List.mem_map, List.mem_range, eq_comm]

/-- The size of call `k`: the two for the superblock come first. -/
def callSize (sb : List UInt8) (k : Nat) : Nat := if k < 2 then sb.length else sizeofFcb

section table

variable {sb : List UInt8} {mem : Nat → List UInt8} {pos : Nat → Nat} {d : Disk}

/-- **All calls go through.** -/
theorem bytes_writeTable (hmem : ∀ i, (mem i).length = sizeofFcb) :
    ∀ n : Nat, (∀ k < 2 * (n + 1), d.Full k (callSize sb k)) →
      (writeTable sb mem pos n d).bytes = writeAll d.bytes (tableWrites sb mem pos n) ∧
      (writeTable sb mem pos n d).outcomes = d.outcomes.drop (2 * (n + 1)) ∧
      ∃ new, (writeTable sb mem pos n d).log = d.log ++ new ∧ ∀ a ∈ new, a.ret = a.size
  | 0, hfull => writePadded_full (hfull 0 (by decide)) (hfull 1 (by decide)) .sBlock 0
  | n + 1, hfull => by
    obtain ⟨hbytes, hout, old, hold, hfullOld⟩ := bytes_writeTable hmem n fun k hk => hfull k (by omega)
    have h0 := hfull (2 * (n + 1)) (by omega)
    have h1 := hfull (2 * (n + 1) + 1) (by omega)
    rw [callSize, if_neg (by omega), ← hmem n] at h0 h1
    have hdrop := Disk.full_of_drop hout
    obtain ⟨hbytes', hout', new, hnew, hfullNew⟩ :=
      writePadded_full ((hdrop 0 _).2 h0) ((hdrop 1 _).2 h1) (.inode n) (pos n)
    refine ⟨?_, ?_, old ++ new, ?_, fun a ha => ?_⟩
    · rw [tableWrites_succ, writeAll_concat, ← hbytes]
      exact hbytes'
    · rw [writeTable, hout', hout, List.drop_drop]
      rfl
    · rw [writeTable, hnew, hold, List.append_assoc]
    · exact (List.mem_append.1 ha).elim (hfullOld a) (hfullNew a)

end table

/-- Bytes `bytes'` hold the superblock's bytes and the first `n` records, written to `bytes`. -/
structure HoldsTable (sb : List UInt8) (mem : Nat → List UInt8) (n : Nat) (bytes bytes' : List UInt8) : Prop where
  sBlock : read bytes' 0 sb.length = sb
  record : ∀ i < n, read bytes' (inodePos i) sizeofFcb = mem i
  rest : ∀ i, n ≤ i → image bytes' (inodePos i) sizeofFcb = image bytes (inodePos i) sizeofFcb
  length : bytes.length ≤ bytes'.length ∧ bytes'.length ≤ max bytes.length (inodePos n)

section places

variable {sb : List UInt8} {mem : Nat → List UInt8} {n : Nat}

/-- In the geometry of `formatDisk`, what is written at a position is written by one write only. -/
theorem eq_of_covers_tableWrites (hfits : sb.length ≤ inodeStart * BLOCK_SIZE) (hmem : ∀ i, (mem i).length = sizeofFcb)
    {v w : Patch} {k : Nat} (hv : v ∈ tableWrites sb mem inodePos n) (hw : w ∈ tableWrites sb mem inodePos n)
    (hvk : v.Covers k) (hwk : w.Covers k) : v = w := by
  have hrecord : ∀ i, Patch.Covers ⟨inodePos i, mem i⟩ k → inodePos i ≤ k ∧ k < inodePos i + sizeofFcb := by
    intro i hik
    rw [← hmem i]
    exact hik
  have hsb : ∀ i, Patch.Covers ⟨0, sb⟩ k → ¬ Patch.Covers ⟨inodePos i, mem i⟩ k := by
    rintro i ⟨_, hlt⟩ hik
    have hge : inodeStart * BLOCK_SIZE ≤ k := Nat.le_trans (inodeStart_le_inodePos i) hik.1
    exact absurd (Nat.le_trans hfits hge) (Nat.not_le.2 (by rwa [Nat.zero_add] at hlt))
  rcases mem_tableWrites_iff.1 hv with rfl | ⟨i, _, rfl⟩ <;> rcases mem_tableWrites_iff.1 hw with rfl | ⟨j, _, rfl⟩
  · rfl
  · exact absurd hwk (hsb j hvk)
  · exact absurd hvk (hsb i hwk)
  · by_cases hij : i = j
    · rw [hij]
    · have hi := hrecord i hvk
      have hj := hrecord j hwk
      rcases inodePos_disjoint hij with h | h <;> omega

/-- All that is written lies before the place of the next record. -/
theorem lt_inodePos_of_covers (hfits : sb.length ≤ inodeStart * BLOCK_SIZE) (hmem : ∀ i, (mem i).length = sizeofFcb)
    {w : Patch} {k : Nat} (hw : w ∈ tableWrites sb mem inodePos n) (hwk : w.Covers k) : k < inodePos n := by
  rcases mem_tableWrites_iff.1 hw with rfl | ⟨i, hi, rfl⟩
  · have hlt : k < sb.length := by
      have h := hwk.2
      rwa [Nat.zero_add] at h
    exact Nat.lt_of_lt_of_le hlt (Nat.le_trans hfits (inodeStart_le_inodePos n))
  · have hlt : k < inodePos i + sizeofFcb := by
      rw [← hmem i]
      exact hwk.2
    exact Nat.lt_of_lt_of_le hlt (inodePos_add_le hi)

/-- **Superblock and records are in their places**, the rest is as before. -/
theorem holdsTable (hfits : sb.length ≤ inodeStart * BLOCK_SIZE) (hmem : ∀ i, (mem i).length = sizeofFcb)
    (bytes : List UInt8) (n : Nat) :
    HoldsTable sb mem n bytes (writeAll bytes (tableWrites sb mem inodePos n)) := by
  have hstored : ∀ w ∈ tableWrites sb mem inodePos n, w.Stored (writeAll bytes (tableWrites sb mem inodePos n)) := by
    refine (stored_writeAll_iff fun w hw k hwk _ _ _ => ⟨w, hw, hwk, rfl⟩).2 ⟨fun v hv w hw k hvk hwk => ?_, ?_⟩
    · rw [eq_of_covers_tableWrites hfits hmem hv hw hvk hwk]
    · intro v hv k hvk hno
      exact absurd hvk (hno v hv)
  refine ⟨?_, fun i hi => ?_, fun i hi => ?_, ?_, ?_⟩
  · exact hstored ⟨0, sb⟩ (mem_tableWrites_iff.2 (.inl rfl))
  · have hrecord := hstored ⟨inodePos i, mem i⟩ (mem_tableWrites_iff.2 (.inr ⟨i, hi, rfl⟩))
    rwa [Patch.Stored, hmem] at hrecord
  · refine List.map_congr_left fun k _ => byteAt_writeAll_of_not_covers fun w hw hwk => ?_
    have hlt := lt_inodePos_of_covers hfits hmem hw hwk
    have hge := inodePos_mono hi
    omega
  · by_contra hlt
    exact Nat.lt_irrefl _ (lt_length_writeAll_iff.2 (.inl (Nat.not_le.1 hlt)))
  · by_contra hlt
    rcases lt_length_writeAll_iff.1 (Nat.not_le.1 hlt) with hold | ⟨w, hw, j, hj, hwj⟩
    · exact absurd hold (Nat.not_lt.2 (Nat.le_max_left _ _))
    · have hjn := lt_inodePos_of_covers hfits hmem hw hwj
      exact absurd (Nat.le_trans (Nat.le_max_right _ _) hj) (Nat.not_le.2 hjn)

end places

end Sfs
