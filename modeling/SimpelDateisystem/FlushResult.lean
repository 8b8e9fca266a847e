import SimpelDateisystem.Flush

/-!
# Does the flush report write failures?

`sBlock_write_padded` and `block_write_padded` return what their last `pwrite` returned; the flush
looks at none of these values and returns `TRUE` (`DateiSteuerBlock.c:478-502`). A call that fails or
is short goes unnoticed, and so does the last record, for which no call is made: `flushReports_iff`,
for every superblock, whatever places its numbers give the records.
-/

namespace Sfs

open ByteFile

/-- The superblock and the records, each in its place. -/
def Process.placed (s : Process) : List Patch :=
  tableWrites (Superblock.codec.enc s.tbl.sBlock) s.inodeMemory s.recordPos s.tbl.count

/-- What a flush writes of it: `BLOCK_SIZE * inodeStartIndex` bytes from the superblock on, and no last
record. -/
def Process.flushed (s : Process) : List Patch :=
  tableWrites (s.sBlockMemory s.sBlockSize) s.inodeMemory s.recordPos (s.tbl.count - 1)

/-- What `TRUE` says: every `pwrite` has written all its bytes, and superblock and records are on disk
as they are in memory. -/
structure FlushedInFull (s : Process) (d' : Disk) : Prop where
  calls : ∀ a ∈ d'.log.drop s.disk.log.length, a.ret = a.size
  onDisk : ∀ o ∈ s.placed, o.Stored d'.bytes

/-- The flush returns `TRUE` if that is so, else `FALSE`. -/
def FlushReports (s : Process) : Prop :=
  (flushAllInodesTodisk false s).1 = true ↔ FlushedInFull s (flushAllInodesTodisk false s).2.disk

/-- The next calls, two for the superblock and two for each record but the last, write all their
bytes. -/
structure AllCallsFull (s : Process) : Prop where
  full : ∀ k < 2 * s.tbl.count, s.disk.Full k (if k < 2 then s.sBlockSize else sizeofFcb)
  /-- `pwrite` takes no negative offset. -/
  offset : ∀ i, i + 1 < s.tbl.count → 0 ≤ s.recordOffset i

/-- It always returns `TRUE`. -/
theorem flushReports_eq (s : Process) :
    FlushReports s ↔ FlushedInFull s (flushAllInodesTodisk false s).2.disk := by
  have hret : (flushAllInodesTodisk false s).1 = true := rfl
  rw [FlushReports, hret]
  exact ⟨fun h => h.1 rfl, fun h => iff_of_true rfl h⟩

/-! ## The calls -/

/-- If all calls of a padded write return their size, there are two, and both go through. -/
theorem full_of_writePadded (d : Disk) (object : Object) (buf : List UInt8) (offset : Int) :
    ∃ new, (d.writePadded object buf offset).2.log = d.log ++ new ∧ ((∀ a ∈ new, a.ret = a.size) →
      0 ≤ offset ∧ d.Full 0 buf.length ∧ d.Full 1 buf.length ∧
        (d.writePadded object buf offset).2.outcomes = d.outcomes.drop 2) := by
  let zeros := List.replicate buf.length digitZero
  have hlen : zeros.length = buf.length := List.length_replicate
  by_cases hret : 0 ≤ (d.pwrite .pad object zeros offset).1
  · have hif : d.writePadded object buf offset =
        (d.pwrite .pad object zeros offset).2.pwrite .write object buf offset := by
      rw [Disk.writePadded, if_pos hret]
    rw [hif]
    refine ⟨_, by rw [log_pwrite, log_pwrite, List.append_assoc], fun hall => ?_⟩
    obtain ⟨hoffset, hpad⟩ :=
      Disk.full_of_pwrite (hall _ (List.mem_append_left _ (List.mem_singleton_self _)))
    obtain ⟨_, hwrite⟩ := Disk.full_of_pwrite (hall _ (List.mem_append_right _ (List.mem_singleton_self _)))
    rw [hlen] at hpad
    refine ⟨hoffset, hpad, (Disk.full_pwrite _ _ _ _ 0 _).1 hwrite, ?_⟩
    rw [Disk.outcomes_pwrite, Disk.outcomes_pwrite, ← List.drop_one, ← List.drop_one, List.drop_drop]
  · have hif : d.writePadded object buf offset = d.pwrite .pad object zeros offset := by
      rw [Disk.writePadded, if_neg hret]
    rw [hif]
    refine ⟨_, log_pwrite _ _ _ _ _, fun hall => absurd ?_ hret⟩
    have hpad : (d.pwrite .pad object zeros offset).1 = zeros.length := hall _ (List.mem_singleton_self _)
    rw [hpad]
    exact Int.natCast_nonneg _

/-- What the calls made for the superblock and `k` records say about the outcomes, if they all return
their size. -/
structure FullUpTo (s : Process) (k : Nat) (r : Process) : Prop where
  perBlock : r.perBlock = s.perBlock
  calls : ∃ new, r.disk.log = s.disk.log ++ new ∧ ((∀ a ∈ new, a.ret = a.size) →
    (∀ j < 2 * (k + 1), s.disk.Full j (if j < 2 then s.sBlockSize else sizeofFcb)) ∧
      (∀ i < k, 0 ≤ s.recordOffset i) ∧ r.disk.outcomes = s.disk.outcomes.drop (2 * (k + 1)))

theorem fullUpTo_writeSBlock (s : Process) : FullUpTo s 0 (s.writeSBlock s.sBlockSize) := by
  obtain ⟨new, hlog, hfull⟩ := full_of_writePadded s.disk .sBlock (s.sBlockMemory s.sBlockSize) 0
  rw [length_sBlockMemory] at hfull
  refine ⟨rfl, new, hlog, fun hall => ?_⟩
  obtain ⟨_, h0, h1, hout⟩ := hfull hall
  refine ⟨fun j hj => ?_, fun i hi => absurd hi (Nat.not_lt_zero i), hout⟩
  rw [if_pos (by omega)]
  obtain rfl | rfl : j = 0 ∨ j = 1 := by omega
  · exact h0
  · exact h1

theorem FullUpTo.writeRound {s r : Process} {k : Nat} {block fill : Int} (h : FullUpTo s k r)
    (hpos : block * BLOCK_SIZE + fill * sizeofFcb = s.recordOffset k) :
    FullUpTo s (k + 1) (writeRound k block fill r).2 := by
  obtain ⟨old, hold, hfullOld⟩ := h.calls
  obtain ⟨new, hlog, hfull⟩ := full_of_writePadded r.disk (.inode k) (r.inodeMemory k)
    (block * BLOCK_SIZE + fill * sizeofFcb)
  rw [length_inodeMemory] at hfull
  refine ⟨h.perBlock, old ++ new, ?_, fun hall => ?_⟩
  · rw [← List.append_assoc, ← hold, ← hlog]
    rfl
  obtain ⟨hbefore, hoffset, hout⟩ := hfullOld fun a ha => hall a (List.mem_append_left _ ha)
  obtain ⟨hk, h0, h1, hout'⟩ := hfull fun a ha => hall a (List.mem_append_right _ ha)
  have hshift := Disk.full_of_drop hout
  refine ⟨fun j hj => ?_, fun i hi => ?_, ?_⟩
  · by_cases hlt : j < 2 * (k + 1)
    · exact hbefore j hlt
    · rw [if_neg (by omega)]
      obtain rfl | rfl : j = 2 * (k + 1) ∨ j = 2 * (k + 1) + 1 := by omega
      · exact (hshift 0 _).1 h0
      · exact (hshift 1 _).1 h1
  · by_cases hlt : i < k
    · exact hoffset i hlt
    · rw [show i = k by omega, ← hpos]
      exact hk
  · rw [hout, List.drop_drop] at hout'
    exact hout'

/-- **A flush whose calls all return their size got them all through.** -/
theorem allCallsFull_of_flushed {s : Process} (h1 : 1 ≤ s.tbl.count)
    (h : FlushedInFull s (flushAllInodesTodisk false s).2.disk) : AllCallsFull s := by
  have hend : FullUpTo s (s.tbl.count - 1) (flushAllInodesTodisk false s).2 :=
    flush_loop (fun _ _ hr => hr.perBlock) (fullUpTo_writeSBlock s) fun _ _ _ _ _ hpos hr => hr.writeRound hpos
  obtain ⟨new, hlog, hfull⟩ := hend.calls
  have hcalls := h.calls
  rw [hlog, List.drop_left' rfl] at hcalls
  obtain ⟨hall, hoffset, _⟩ := hfull hcalls
  rw [Nat.sub_add_cancel h1] at hall
  exact ⟨hall, fun i hi => hoffset i (by omega)⟩

/-- What is on disk if they go through. -/
theorem bytes_flush {s : Process} (h1 : 1 ≤ s.tbl.count) (h : AllCallsFull s) :
    (flushAllInodesTodisk false s).2.disk.bytes = writeAll s.disk.bytes s.flushed ∧
    ∀ a ∈ (flushAllInodesTodisk false s).2.disk.log.drop s.disk.log.length, a.ret = a.size := by
  have hfull : ∀ k < 2 * (s.tbl.count - 1 + 1), s.disk.Full k (callSize (s.sBlockMemory s.sBlockSize) k) := by
    intro k hk
    rw [callSize, length_sBlockMemory]
    exact h.full k (by omega)
  obtain ⟨hbytes, _, new, hlog, hnew⟩ := bytes_writeTable (length_inodeMemory s) (s.tbl.count - 1) hfull
  rw [disk_flush h.offset, hlog, List.drop_left' rfl]
  exact ⟨hbytes, hnew⟩

/-! ## The bytes on disk -/

/-- No record is placed where the superblock is written. -/
theorem sBlockSize_le_recordPos (s : Process) (i : Nat) : s.sBlockSize ≤ s.recordPos i := by
  have hblock : (BLOCK_SIZE : Int) = 4096 := rfl
  have hwidth : (sizeofFcb : Int) = 840 := rfl
  have hdiv := Int.natCast_nonneg (i / (max 1 s.perBlock).toNat)
  have hmod := Int.natCast_nonneg (i % (max 1 s.perBlock).toNat)
  simp only [Process.sBlockSize, Process.recordPos, Process.recordOffset]
  rw [hblock, hwidth]
  omega

/-- The superblock's own bytes are written as they are. -/
theorem byteAt_sBlockMemory (s : Process) {size k : Nat} (hk : k < size) (hsb : k < sizeofSuperblock) :
    byteAt (s.sBlockMemory size) k = byteAt (Superblock.codec.enc s.tbl.sBlock) k := by
  have hwidth : (Superblock.codec.enc s.tbl.sBlock).length = sizeofSuperblock := Superblock.codec.length_enc _
  rw [Process.sBlockMemory, byteAt_take, if_pos hk, byteAt, List.getElem?_append_left (by omega), byteAt]

/-- What is written over the table belongs to it. -/
theorem flushed_own (s : Process) : ∀ w ∈ s.flushed, ∀ k, w.Covers k → ∀ o ∈ s.placed, o.Covers k →
    ∃ v ∈ s.placed, v.Covers k ∧ v.byte k = w.byte k := by
  intro w hw k hwk o ho hok
  rcases mem_tableWrites_iff.1 hw with rfl | ⟨i, hi, rfl⟩
  · have hlt : k < s.sBlockSize := by
      have h := hwk.2
      rwa [length_sBlockMemory, Nat.zero_add] at h
    rcases mem_tableWrites_iff.1 ho with rfl | ⟨i, _, rfl⟩
    · have hsb : k < sizeofSuperblock := by
        have h := hok.2
        rwa [Superblock.codec.length_enc, Nat.zero_add] at h
      exact ⟨_, ho, hok, (byteAt_sBlockMemory s hlt hsb).symm⟩
    · exact absurd (Nat.le_trans (sBlockSize_le_recordPos s i) hok.1) (Nat.not_le.2 hlt)
  · exact ⟨_, mem_tableWrites_iff.2 (.inr ⟨i, by omega, rfl⟩), hwk, rfl⟩

section geometry

variable {s : Process} (hs : s.Geometry)

include hs

/-- In the geometry of `formatDisk` all that is written lies before the last record. -/
theorem lt_recordPos_of_flushed {w : Patch} {k : Nat} (hw : w ∈ s.flushed) (hwk : w.Covers k) :
    k < s.recordPos (s.tbl.count - 1) := by
  have hfits : (s.sBlockMemory s.sBlockSize).length ≤ inodeStart * BLOCK_SIZE := by
    rw [length_sBlockMemory, sBlockSize_eq hs]
  rw [Process.flushed, (recordPos_eq hs).1] at hw
  rw [(recordPos_eq hs).1]
  exact lt_inodePos_of_covers hfits (length_inodeMemory s) hw hwk

theorem eq_of_covers_placed {v w : Patch} {k : Nat} (hv : v ∈ s.placed) (hw : w ∈ s.placed) (hvk : v.Covers k)
    (hwk : w.Covers k) : v = w := by
  have hfits : (Superblock.codec.enc s.tbl.sBlock).length ≤ inodeStart * BLOCK_SIZE := by
    rw [Superblock.codec.length_enc]
    decide
  rw [Process.placed, (recordPos_eq hs).1] at hv hw
  exact eq_of_covers_tableWrites hfits (length_inodeMemory s) hv hw hvk hwk

/-- All but the last record is written. -/
theorem flushed_or_last {o : Patch} {k : Nat} (ho : o ∈ s.placed) (hok : o.Covers k) :
    (∃ w ∈ s.flushed, w.Covers k) ∨ o = ⟨s.recordPos (s.tbl.count - 1), s.inodeMemory (s.tbl.count - 1)⟩ := by
  rcases mem_tableWrites_iff.1 ho with rfl | ⟨i, hi, rfl⟩
  · refine .inl ⟨_, mem_tableWrites_iff.2 (.inl rfl), Nat.zero_le k, Nat.lt_of_lt_of_le hok.2 ?_⟩
    rw [Superblock.codec.length_enc, length_sBlockMemory, sBlockSize_eq hs]
    exact Nat.add_le_add_left (by decide) 0
  · by_cases hlast : i = s.tbl.count - 1
    · exact .inr (by rw [hlast])
    · exact .inl ⟨_, mem_tableWrites_iff.2 (.inr ⟨i, by omega, rfl⟩), hok⟩

/-- So all depends on the last record. -/
theorem fits_iff_of_geometry (h1 : 1 ≤ s.tbl.count) : Fits s.disk.bytes s.flushed s.placed ↔
    read s.disk.bytes (s.recordPos (s.tbl.count - 1)) sizeofFcb = s.inodeMemory (s.tbl.count - 1) := by
  let last : Patch := ⟨s.recordPos (s.tbl.count - 1), s.inodeMemory (s.tbl.count - 1)⟩
  have hlast : last ∈ s.placed := mem_tableWrites_iff.2 (.inr ⟨s.tbl.count - 1, by omega, rfl⟩)
  have hstored : read s.disk.bytes (s.recordPos (s.tbl.count - 1)) sizeofFcb = s.inodeMemory (s.tbl.count - 1) ↔
      last.Stored s.disk.bytes := by
    rw [Patch.Stored, length_inodeMemory]
  rw [hstored, Patch.stored_iff]
  constructor
  · intro h k hk
    have hno : ∀ j, k ≤ j → ∀ w ∈ s.flushed, ¬ w.Covers j := fun j hj w hw hwj =>
      absurd (Nat.le_trans hk.1 hj) (Nat.not_le.2 (lt_recordPos_of_flushed hs hw hwj))
    obtain ⟨hreach, hbyte⟩ := h.kept last hlast k hk (hno k (Nat.le_refl k))
    refine ⟨hreach.resolve_right ?_, hbyte⟩
    rintro ⟨w, hw, j, hj, hwj⟩
    exact hno j hj w hw hwj
  · intro h
    refine ⟨fun o ho w hw k hok hwk => ?_, fun o ho k hok hno => ?_⟩
    · obtain ⟨v, hv, hvk, hbyte⟩ := flushed_own s w hw k hwk o ho hok
      rw [eq_of_covers_placed hs ho hv hok hvk, hbyte]
    · rcases flushed_or_last hs ho hok with ⟨w, hw, hwk⟩ | rfl
      · exact absurd hwk (hno w hw)
      · obtain ⟨hreach, hbyte⟩ := h k hok
        exact ⟨.inl hreach, hbyte⟩

end geometry

/-! ## The result -/

/-- **When the flush's `TRUE` is true**: all its calls go through, they do not put records over
each other or over the superblock, and what they leave out already was on disk. In the geometry of
`formatDisk`, this last is the last record. -/
theorem flushReports_iff {s : Process} (h1 : 1 ≤ s.tbl.count) :
    (FlushReports s ↔ AllCallsFull s ∧ Fits s.disk.bytes s.flushed s.placed) ∧
    (s.Geometry → (FlushReports s ↔ AllCallsFull s ∧
      read s.disk.bytes (s.recordPos (s.tbl.count - 1)) sizeofFcb = s.inodeMemory (s.tbl.count - 1))) := by
  have hiff : FlushReports s ↔ AllCallsFull s ∧ Fits s.disk.bytes s.flushed s.placed := by
    rw [flushReports_eq]
    constructor
    · intro h
      have hall := allCallsFull_of_flushed h1 h
      have hstored := h.onDisk
      rw [(bytes_flush h1 hall).1] at hstored
      exact ⟨hall, (stored_writeAll_iff (flushed_own s)).1 hstored⟩
    · rintro ⟨hall, hfits⟩
      obtain ⟨hbytes, hcalls⟩ := bytes_flush h1 hall
      refine ⟨hcalls, ?_⟩
      rw [hbytes]
      exact (stored_writeAll_iff (flushed_own s)).2 hfits
  refine ⟨hiff, fun hs => ?_⟩
  rw [hiff, fits_iff_of_geometry hs h1]

/-- A table of three inodes whose next `pwrite` fails. -/
def failingDisk : Process :=
  { formatted 200000 with disk := { (formatted 200000).disk with outcomes := [.fail] } }

theorem flushReports_failingDisk :
    (FlushReports failingDisk ↔
      AllCallsFull failingDisk ∧ Fits failingDisk.disk.bytes failingDisk.flushed failingDisk.placed) ∧
    (failingDisk.Geometry → (FlushReports failingDisk ↔ AllCallsFull failingDisk ∧
      read failingDisk.disk.bytes (failingDisk.recordPos (failingDisk.tbl.count - 1)) sizeofFcb =
        failingDisk.inodeMemory (failingDisk.tbl.count - 1))) :=
  flushReports_iff (Nat.le_trans (by decide) justFormatted_three.two_le)

/-- The superblock is not written, and the flush returns `TRUE`. -/
theorem flushReports_fails : failingDisk.Geometry ∧ 2 ≤ failingDisk.tbl.count ∧
    failingDisk.tbl.count ≤ TABLE_SIZE ∧ ¬ FlushReports failingDisk := by
  have h2 : 2 ≤ failingDisk.tbl.count := justFormatted_three.two_le
  have hgeo := justFormatted_three.geometry
  refine ⟨⟨hgeo.1, hgeo.2⟩, h2, justFormatted_three.le_size, fun h => ?_⟩
  have hfull := (allCallsFull_of_flushed (by omega) ((flushReports_eq _).1 h)).full 0 (by omega)
  cases hfull

end Sfs
