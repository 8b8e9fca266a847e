import SimpelDateisystem.Restore

/-!
# A flush that is cut off

Each record, the superblock first, is written twice at its place: as many `'0'` characters, then the
record (`block.c:104`, `:123`). There is no journal and nothing is ordered against anything else. So
after the first `k` calls of a flush each place holds what it held before, the new record, or, if
the cut came between its two calls, the characters.

| theorem | says |
| --- | --- |
| `cutFlush_of_cut` | what each place holds, as a function of `k` |
| `survivesCut`     | old or new record everywhere but at the one place the cut hits |
-/

namespace Sfs

open Trace ByteFile CString

/-! ## Calls that fail from some point on -/

/-- The first `k` calls take effect, the `n` behind them fail. -/
def cutAfter (k n : Nat) : List Outcome := List.replicate k .complete ++ List.replicate n .fail

/-- A place at which the first `m` of its two calls have taken effect. -/
def padded (m : Nat) (old new : List UInt8) : List UInt8 :=
  match m with
  | 0 => old
  | 1 => List.replicate new.length digitZero
  | _ + 2 => new

theorem take_padded (m n : Nat) (old new : List UInt8) :
    (padded m old new).take n = padded m (old.take n) (new.take n) := by
  match m with
  | 0 => rfl
  | 1 => rw [padded, padded, List.take_replicate, List.length_take]
  | _ + 2 => rfl

theorem padded_eq_or {m : Nat} (hm : m ≠ 1) (old new : List UInt8) :
    padded m old new = old ∨ padded m old new = new := by
  match m with
  | 0 => exact .inl rfl
  | 1 => exact absurd rfl hm
  | _ + 2 => exact .inr rfl

/-- What a padded write of `buf` at `pos` leaves when the calls fail after the next `k`. -/
structure CutWritten (k n : Nat) (d d' : Disk) (pos : Nat) (buf : List UInt8) : Prop where
  outcomes : ∃ m, n ≤ m + 1 ∧ d'.outcomes = cutAfter (k - 2) m
  stored : image d'.bytes pos buf.length = padded k (image d.bytes pos buf.length) buf
  frame : ∀ off len, off + len ≤ pos ∨ pos + buf.length ≤ off → image d'.bytes off len = image d.bytes off len

theorem cutAfter_succ_left (k n : Nat) : cutAfter (k + 1) n = .complete :: cutAfter k n := rfl

theorem cutAfter_succ_right (n : Nat) : cutAfter 0 (n + 1) = .fail :: cutAfter 0 n := rfl

/-- The two calls of a padded write, the second only if the first has not failed. -/
theorem cutWritten {k n : Nat} {d : Disk} (hd : d.outcomes = cutAfter k n) (hn : 0 < n) (object : Object)
    (buf : List UInt8) (pos : Nat) :
    CutWritten k n d (d.writePadded object buf pos).2 pos buf := by
  simp only [Disk.writePadded]
  obtain ⟨m, rfl⟩ : ∃ m, n = m + 1 := ⟨n - 1, by omega⟩
  rcases k with _ | _ | k
  · rw [cutAfter_succ_right] at hd
    obtain ⟨hret, hbytes, hout⟩ :=
      Disk.pwrite_of_fail (by rw [hd]; rfl) .pad object (List.replicate buf.length digitZero) pos
    rw [hd] at hout
    rw [if_neg (by rw [hret]; decide)]
    exact ⟨⟨m, Nat.le_refl _, hout⟩, by rw [hbytes]; rfl, fun off len _ => by rw [hbytes]⟩
  · rw [cutAfter_succ_left, cutAfter_succ_right] at hd
    obtain ⟨hret, hbytes, hout⟩ :=
      Disk.pwrite_of_complete (by rw [hd]; rfl) .pad object (List.replicate buf.length digitZero) pos
    rw [hd] at hout
    obtain ⟨_, hbytes', hout'⟩ := Disk.pwrite_of_fail (by rw [hout]; rfl) .write object buf pos
    rw [hout] at hout'
    rw [if_pos (by rw [hret]; omega)]
    refine ⟨⟨m, Nat.le_refl _, hout'⟩, ?_, fun off len h => ?_⟩
    · have himage := image_write_self d.bytes pos (List.replicate buf.length digitZero)
      rw [List.length_replicate] at himage
      rw [hbytes', hbytes, himage]
      rfl
    · rw [hbytes', hbytes, image_write_of_disjoint _ (by simpa using h)]
  · rw [cutAfter_succ_left, cutAfter_succ_left] at hd
    obtain ⟨hret, hbytes, hout⟩ :=
      Disk.pwrite_of_complete (by rw [hd]; rfl) .pad object (List.replicate buf.length digitZero) pos
    rw [hd] at hout
    obtain ⟨_, hbytes', hout'⟩ := Disk.pwrite_of_complete (by rw [hout]; rfl) .write object buf pos
    rw [hout] at hout'
    rw [if_pos (by rw [hret]; omega)]
    refine ⟨⟨m + 1, by omega, hout'⟩, ?_, fun off len h => ?_⟩
    · rw [hbytes', image_write_self]
      rfl
    · rw [hbytes', hbytes, image_write_of_disjoint _ h, image_write_of_disjoint _ (by simpa using h)]

/-! ## The flush -/

/-- What a flush of `s` leaves when only its first `k` calls take effect. -/
structure CutFlush (s : Process) (k : Nat) (bytes : List UInt8) : Prop where
  sBlock : image bytes 0 (inodeStart * BLOCK_SIZE) =
    padded k (image s.disk.bytes 0 (inodeStart * BLOCK_SIZE)) (s.sBlockMemory (inodeStart * BLOCK_SIZE))
  record : ∀ i, i + 1 < s.tbl.count → image bytes (inodePos i) sizeofFcb =
    padded (k - (2 + 2 * i)) (image s.disk.bytes (inodePos i) sizeofFcb) (s.inodeMemory i)
  last : ∀ i, s.tbl.count ≤ i + 1 →
    image bytes (inodePos i) sizeofFcb = image s.disk.bytes (inodePos i) sizeofFcb

/-- The loop invariant before record `j`. -/
structure CutUpTo (s : Process) (k j : Nat) (r : Process) : Prop where
  tbl : r.tbl = s.tbl
  base : r.base = s.base
  /-- There are failures left for the records to come. -/
  outcomes : ∃ m, s.tbl.count ≤ m + j ∧ r.disk.outcomes = cutAfter (k - (2 + 2 * j)) m
  sBlock : image r.disk.bytes 0 (inodeStart * BLOCK_SIZE) =
    padded k (image s.disk.bytes 0 (inodeStart * BLOCK_SIZE)) (s.sBlockMemory (inodeStart * BLOCK_SIZE))
  record : ∀ i < j, image r.disk.bytes (inodePos i) sizeofFcb =
    padded (k - (2 + 2 * i)) (image s.disk.bytes (inodePos i) sizeofFcb) (s.inodeMemory i)
  rest : ∀ i, j ≤ i → image r.disk.bytes (inodePos i) sizeofFcb = image s.disk.bytes (inodePos i) sizeofFcb

theorem cutUpTo_writeSBlock {s : Process} {k n : Nat} (hout : s.disk.outcomes = cutAfter k n)
    (hn : s.tbl.count < n) : CutUpTo s k 0 (s.writeSBlock (inodeStart * BLOCK_SIZE)) := by
  have hlen := length_sBlockMemory s (inodeStart * BLOCK_SIZE)
  obtain ⟨⟨m, hm, houtcomes⟩, hstored, hframe⟩ :
      CutWritten k n s.disk (s.writeSBlock (inodeStart * BLOCK_SIZE)).disk 0
        (s.sBlockMemory (inodeStart * BLOCK_SIZE)) :=
    cutWritten hout (by omega) .sBlock _ 0
  rw [hlen] at hstored hframe
  refine ⟨rfl, rfl, ⟨m, by omega, houtcomes⟩, hstored, fun i hi => absurd hi (Nat.not_lt_zero i), fun i _ => ?_⟩
  exact hframe _ _ (.inr (by rw [Nat.zero_add]; exact inodeStart_le_inodePos i))

/-- One record. -/
theorem CutUpTo.writeRound {s r : Process} {k j : Nat} (h : CutUpTo s k j r) (hj : j < s.tbl.count) :
    CutUpTo s k (j + 1) (writeRound j (inodeStart + (j / inodesPerBlock : Nat)) (j % inodesPerBlock : Nat) r).2 := by
  obtain ⟨m, hm, houtcomes⟩ := h.outcomes
  have hlen := length_inodeMemory r j
  have hmem : r.inodeMemory j = s.inodeMemory j := by rw [Process.inodeMemory, h.tbl, h.base]; rfl
  have hw : CutWritten (k - (2 + 2 * j)) m r.disk
      (Sfs.writeRound j (inodeStart + (j / inodesPerBlock : Nat)) (j % inodesPerBlock : Nat) r).2.disk (inodePos j)
      (r.inodeMemory j) := by
    have hcut := cutWritten houtcomes (by omega) (.inode j) (r.inodeMemory j) (inodePos j)
    rw [← blockPos_eq] at hcut
    exact hcut
  obtain ⟨⟨m', hm', houtcomes'⟩, hstored, hframe⟩ := hw
  rw [hlen] at hstored hframe
  refine ⟨h.tbl, h.base, ⟨m', by omega, ?_⟩, ?_, fun i hi => ?_, fun i hi => ?_⟩
  · rw [houtcomes', show k - (2 + 2 * j) - 2 = k - (2 + 2 * (j + 1)) by omega]
  · rw [← h.sBlock]
    exact hframe _ _ (.inl (by rw [Nat.zero_add]; exact inodeStart_le_inodePos j))
  · by_cases hij : i = j
    · rw [hij, hstored, hmem, h.rest j (Nat.le_refl j)]
    · rw [← h.record i (by omega)]
      exact hframe _ _ (inodePos_disjoint hij)
  · rw [← h.rest i (by omega)]
    exact hframe _ _ (inodePos_disjoint (by omega))

/-- **A flush whose calls fail from some point on.** -/
theorem cutFlush_of_cut {s : Process} {k n : Nat} (hs : s.Geometry)
    (hout : s.disk.outcomes = cutAfter k n) (hn : s.tbl.count < n) :
    CutFlush s k (flushAllInodesTodisk false s).2.disk.bytes := by
  have hper : ∀ j r, CutUpTo s k j r → r.perBlock = inodesPerBlock := by
    intro j r h
    rw [Process.perBlock, h.tbl]
    exact hs.numInodesPerBlock
  have hend : CutUpTo s k (0 + (s.tbl.count - 1)) (Cursor.loop Process.perBlock writeRound (s.tbl.count - 1) 0
      (inodeStart + (0 / inodesPerBlock : Nat)) (0 % inodesPerBlock : Nat)
      (s.writeSBlock (inodeStart * BLOCK_SIZE))) :=
    Cursor.loop_spec (by decide) inodeStart hper (fun j r _ hj h => h.writeRound (by omega)) (fun _ _ _ _ _ => rfl)
      (cutUpTo_writeSBlock hout hn)
  rw [flushAllInodesTodisk_eq_loop hs]
  exact ⟨hend.sBlock, fun i hi => hend.record i (by omega), fun i hi => hend.rest i (by omega)⟩

/-! ## After a cut -/

/-- The disk file after a flush of `s` with all writes complete. -/
def flushedBytes (s : Process) : List UInt8 :=
  (flushAllInodesTodisk false { s with disk := { s.disk with outcomes := [] } }).2.disk.bytes

/-- The process `s` about to flush to a disk file that holds `bytes`, all calls but the first `k` of
which fail. -/
def cutProcess (s : Process) (bytes : List UInt8) (k n : Nat) : Process :=
  { s with disk := ⟨bytes, cutAfter k n, s.disk.log⟩ }

/-- What holds when no flush of `s`, wherever it is cut, can destroy the volume in `old`. -/
structure NeverDestroys (old : List UInt8) (s : Process) (bytes : List UInt8) : Prop where
  sBlock : image bytes 0 sizeofSuperblock = image old 0 sizeofSuperblock ∨
    image bytes 0 sizeofSuperblock = Superblock.codec.enc s.tbl.sBlock
  magicNum : (Superblock.codec.dec (image bytes 0 sizeofSuperblock)).magicNum = 666
  record : ∀ i, storedRecord bytes i = storedRecord old i ∨
    storedRecord bytes i = (s.tbl.inodes i).mapPtr s.base.encode

/-- What holds when the flush is cut after its call `k`: the same, but for the place that call has
filled with `'0'` characters. -/
structure SurvivesCut (old : List UInt8) (s : Process) (k : Nat) (bytes : List UInt8) : Prop where
  sBlock : k ≠ 1 → image bytes 0 sizeofSuperblock = image old 0 sizeofSuperblock ∨
    image bytes 0 sizeofSuperblock = Superblock.codec.enc s.tbl.sBlock
  magicNum : k ≠ 1 → (Superblock.codec.dec (image bytes 0 sizeofSuperblock)).magicNum = 666
  sBlockPad : k = 1 → image bytes 0 sizeofSuperblock = List.replicate sizeofSuperblock digitZero
  record : ∀ i, (i + 1 < s.tbl.count → k ≠ 2 * i + 3) → storedRecord bytes i = storedRecord old i ∨
    storedRecord bytes i = (s.tbl.inodes i).mapPtr s.base.encode
  recordPad : ∀ i, i + 1 < s.tbl.count → k = 2 * i + 3 →
    image bytes (inodePos i) sizeofFcb = List.replicate sizeofFcb digitZero

/-- The superblock of the file. -/
theorem CutFlush.image_sBlock {s : Process} {k : Nat} {bytes : List UInt8} (h : CutFlush s k bytes) :
    image bytes 0 sizeofSuperblock =
      padded k (image s.disk.bytes 0 sizeofSuperblock) (Superblock.codec.enc s.tbl.sBlock) := by
  have hfits : sizeofSuperblock ≤ inodeStart * BLOCK_SIZE := by decide
  rw [← image_take bytes 0 hfits, h.sBlock, take_padded, image_take _ 0 hfits, take_sBlockMemory s hfits]

theorem CutFlush.survives {s : Process} {k : Nat} {bytes : List UInt8} (h : CutFlush s k bytes)
    (hold : (Superblock.codec.dec (image s.disk.bytes 0 sizeofSuperblock)).magicNum = 666)
    (hnew : s.tbl.sBlock.magicNum = 666) : SurvivesCut s.disk.bytes s k bytes := by
  have hwidth : (Superblock.codec.enc s.tbl.sBlock).length = sizeofSuperblock := Superblock.codec.length_enc _
  have hsb : k ≠ 1 → image bytes 0 sizeofSuperblock = image s.disk.bytes 0 sizeofSuperblock ∨
      image bytes 0 sizeofSuperblock = Superblock.codec.enc s.tbl.sBlock := by
    intro hk
    rw [h.image_sBlock]
    exact padded_eq_or hk _ _
  constructor
  case sBlock => exact hsb
  case magicNum =>
    intro hk
    rcases hsb hk with heq | heq <;> rw [heq]
    · exact hold
    · rw [Codec.dec_enc_self, hnew]
  case sBlockPad =>
    intro hk
    rw [h.image_sBlock, hk, padded, hwidth]
  case record =>
    intro i hk
    by_cases hi : i + 1 < s.tbl.count
    · -- `k - (2 + 2 * i)` calls for this record have taken effect
      have hne : k - (2 + 2 * i) ≠ 1 := fun h1 => hk hi (by omega)
      rw [storedRecord, h.record i hi]
      rcases padded_eq_or hne (image s.disk.bytes (inodePos i) sizeofFcb) (s.inodeMemory i) with heq | heq
      · rw [heq]
        exact .inl rfl
      · rw [heq, Process.inodeMemory, Codec.dec_enc_self]
        exact .inr rfl
    · rw [storedRecord, h.last i (by omega)]
      exact .inl rfl
  case recordPad =>
    intro i hi hk
    rw [h.record i hi, show k - (2 + 2 * i) = 1 by omega, padded, length_inodeMemory]

/-! ## The calls in between -/

/-- Whatever the table is like, a call changes at most `ibmap` in the superblock. -/
theorem sBlock_inodeStep (s : Process) (c : InodeCall) :
    ∃ ibmap, (inodeStep s c).tbl.sBlock = { s.tbl.sBlock with ibmap := ibmap } := by
  obtain ⟨op, e⟩ := c
  cases op with
  | create p mode =>
    rw [inodeStep_create]
    rcases createInode_cases e p mode s with ⟨i, parent, _, _, heq⟩ | ⟨_, heq⟩
    · rw [heq, tbl_flush, Table.sBlock_created]
      exact ⟨_, rfl⟩
    · rw [heq]
      exact ⟨_, rfl⟩
  | remove p =>
    rw [inodeStep_remove, removeInode]
    split
    · exact ⟨_, rfl⟩
    split
    · exact ⟨_, rfl⟩
    rename_i f _ _ parent _
    have hsb := Table.sBlock_removeFromDirentry s.tbl parent f
    simp only
    split
    · rw [tbl_flush, Table.setIbit, hsb]
      exact ⟨_, rfl⟩
    · exact ⟨_, hsb⟩

theorem sBlock_exec_inodeStep (s : Process) (cs : List InodeCall) :
    ∃ ibmap, (exec inodeStep s cs).tbl.sBlock = { s.tbl.sBlock with ibmap := ibmap } := by
  let P (r : Process) : Prop := ∃ ibmap, r.tbl.sBlock = { s.tbl.sBlock with ibmap := ibmap }
  have hstep : ∀ r c, P r → True → P (inodeStep r c) := by
    rintro r c ⟨ibmap, hr⟩ -
    obtain ⟨ibmap', hr'⟩ := sBlock_inodeStep r c
    exact ⟨ibmap', by rw [hr', hr]⟩
  exact EachStep.invariant hstep ⟨_, rfl⟩ (eachStep_of_forall_mem s cs fun _ _ => trivial)

/-- What a later flush, cut after its call `k`, leaves. -/
theorem cutFlush_exec {s : Process} (hs : s.Geometry) (cs : List InodeCall) (bytes : List UInt8) (k : Nat) {n : Nat}
    (hn : 2 * s.tbl.count < n) :
    CutFlush (cutProcess (exec inodeStep s cs) bytes k n) k
      (flushAllInodesTodisk false (cutProcess (exec inodeStep s cs) bytes k n)).2.disk.bytes := by
  obtain ⟨ibmap, hsb⟩ := sBlock_exec_inodeStep s cs
  have hgeo : (cutProcess (exec inodeStep s cs) bytes k n).Geometry := by
    constructor <;> rw [cutProcess, hsb]
    · exact hs.numInodesPerBlock
    · exact hs.inodeStartIndex
  have hcount : (cutProcess (exec inodeStep s cs) bytes k n).tbl.count = s.tbl.count := by
    rw [Table.count, cutProcess, hsb]
    rfl
  exact cutFlush_of_cut hgeo rfl (by rw [hcount]; omega)

/-- **A flush cut after its call `k`** leaves old or new records, but for the place it was about to
write: `s` has flushed, the calls `cs` follow, and the next flush is cut. -/
theorem survivesCut {s : Process} (hs : s.Geometry) (hmagic : s.tbl.sBlock.magicNum = 666) (cs : List InodeCall)
    (k : Nat) {n : Nat} (hn : 2 * s.tbl.count < n) :
    SurvivesCut (flushedBytes s) (exec inodeStep s cs) k
      (flushAllInodesTodisk false (cutProcess (exec inodeStep s cs) (flushedBytes s) k n)).2.disk.bytes := by
  have hflushed : HoldsFlushed { s with disk := { s.disk with outcomes := [] } } (flushedBytes s) :=
    (flush_complete (s := { s with disk := { s.disk with outcomes := [] } }) ⟨hs.1, hs.2⟩ rfl).1
  have hold : (Superblock.codec.dec (image (flushedBytes s) 0 sizeofSuperblock)).magicNum = 666 := by
    rw [hflushed.dec_sBlock]
    exact hmagic
  have hnew : (exec inodeStep s cs).tbl.sBlock.magicNum = 666 := by
    obtain ⟨ibmap, hsb⟩ := sBlock_exec_inodeStep s cs
    rw [hsb]
    exact hmagic
  obtain ⟨hsBlock, hmagicNum, hsBlockPad, hrecord, hrecordPad⟩ :=
    (cutFlush_exec hs cs (flushedBytes s) k hn).survives hold hnew
  exact ⟨hsBlock, hmagicNum, hsBlockPad, hrecord, hrecordPad⟩

theorem survivesCut_oneFile :
    SurvivesCut (flushedBytes (formatted 200000)) (exec inodeStep (formatted 200000) oneFile) 1
      (flushAllInodesTodisk false (cutProcess (exec inodeStep (formatted 200000) oneFile)
        (flushedBytes (formatted 200000)) 1 7)).2.disk.bytes :=
  survivesCut justFormatted_three.geometry justFormatted_three.tbl.magicNum oneFile 1
    (by rw [count_formatted, formatCount_three]; decide)

/-- `'0'` characters are no superblock. -/
theorem magicNum_dec_digits :
    (Superblock.codec.dec (List.replicate sizeofSuperblock digitZero)).magicNum ≠ 666 := by
  change BitVec.ofNat 32 (Codec.ofLeBytes ((List.replicate sizeofSuperblock digitZero).take 4)) ≠ 666
  rw [List.take_replicate]
  decide

/-- A flush cut after its first call has destroyed the volume. -/
theorem not_neverDestroys_of_one {s : Process} (hs : s.Geometry) (old : List UInt8) (cs : List InodeCall) {n : Nat}
    (hn : 2 * s.tbl.count < n) :
    ¬ NeverDestroys old (exec inodeStep s cs)
      (flushAllInodesTodisk false (cutProcess (exec inodeStep s cs) old 1 n)).2.disk.bytes := by
  intro h
  have hcut := (cutFlush_exec hs cs old 1 hn).image_sBlock
  have hmagic := h.magicNum
  rw [hcut, padded, Superblock.codec.length_enc] at hmagic
  exact magicNum_dec_digits hmagic

/-- So has the one that follows the creation of `/a`. -/
theorem neverDestroys_fails :
    ¬ NeverDestroys (flushedBytes (formatted 200000)) (exec inodeStep (formatted 200000) oneFile)
      (flushAllInodesTodisk false (cutProcess (exec inodeStep (formatted 200000) oneFile)
        (flushedBytes (formatted 200000)) 1 7)).2.disk.bytes :=
  not_neverDestroys_of_one justFormatted_three.geometry _ oneFile
    (by rw [count_formatted, formatCount_three]; decide)

end Sfs
