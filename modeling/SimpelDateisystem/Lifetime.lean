import SimpelDateisystem.FreshTable
import SimpelDateisystem.History
import SimpelDateisystem.MountCycle
import SimpelDateisystem.Restore
import SimpelDateisystem.SameTable

/-!
# The life of a volume

A volume is formatted once and then mounted again and again, each time by a process that may be unmounted
or just killed between two calls. Nothing but the disk file goes from one process to the next. All calls of
`pread` and `pwrite` complete, and nothing removes the root.

* `Durable` — the disk holds the table, and holds no data: every file is empty, no data block is marked;
* `lifetime_eq` — as long as the program is loaded at the same address, no create takes the last slot, and
  its place on disk is zero, the processes together do what one process would have done;
* `disk_lifetime` — one call changes one byte of the superblock on disk, and two records.
-/

namespace Sfs

open Trace ByteFile CString Cells

/-! ## No data -/

/-- All files are empty, and no data block is in use. -/
structure Table.Dataless (t : Table) : Prop where
  dbmap : ∀ x < MAX_BLOCKS, t.sBlock.dbit x = 0
  fileSize : ∀ x < TABLE_SIZE, (t.inodes x).fileSize = 0
  numBlocks : ∀ x < TABLE_SIZE, (t.inodes x).numBlocks = 0

namespace Table

variable {t t' : Table}

theorem Agrees.dataless (h : t.Agrees t') (hd : t.Dataless) : t'.Dataless where
  dbmap x hx := by rw [← h.sBlock, hd.dbmap x hx]
  fileSize x hx := by rw [← h.inodes x hx, hd.fileSize x hx]
  numBlocks x hx := by rw [← h.inodes x hx, hd.numBlocks x hx]

/-- Neither a create nor a remove touches what is counted as data. -/
theorem dataless_of_inodes (hd : t.Dataless) (hsb : ∃ i b, t'.sBlock = t.sBlock.setIbit i b)
    (hinodes : ∀ x, (t'.inodes x).fileSize = (t.inodes x).fileSize ∧ (t'.inodes x).numBlocks = (t.inodes x).numBlocks) :
    t'.Dataless := by
  obtain ⟨i, b, hsb⟩ := hsb
  refine ⟨fun x hx => ?_, fun x hx => ?_, fun x hx => ?_⟩
  · rw [hsb]
    exact hd.dbmap x hx
  · rw [(hinodes x).1, hd.fileSize x hx]
  · rw [(hinodes x).2, hd.numBlocks x hx]

theorem Dataless.created (hd : t.Dataless) (e : Env) (p : AbsPath) (mode : BitVec 32) (i parent : Nat) :
    (t.created e p mode i parent).Dataless := by
  refine dataless_of_inodes hd ⟨i, 1, sBlock_created e p mode t i parent⟩ fun x => ?_
  obtain ⟨dc, pn, h⟩ := inodes_created e p mode t i parent x
  rw [h]
  split
  · rename_i hx
    rw [hx]
    exact ⟨rfl, rfl⟩
  · exact ⟨rfl, rfl⟩

theorem Dataless.removed (hd : t.Dataless) {f parent : Nat} (hlast : (t.inodes parent).LastFilledLast) :
    (t.removed f parent).Dataless := by
  refine dataless_of_inodes hd ⟨f, 0, sBlock_removed t f parent⟩ fun x => ?_
  obtain ⟨dc, h⟩ := inodes_removed hlast (f := f) x
  rw [h]
  exact ⟨rfl, rfl⟩

end Table

theorem dataless_fuseStep {s : Process} (h : s.tbl.Inv) (hd : s.tbl.Dataless) (c : FuseCall) :
    (fuseStep s c).tbl.Dataless := by
  by_cases hc : c.NonRoot
  · rcases fuseStep_cases h hc with ⟨p, mode, i, parent, _, htbl⟩ | ⟨p, f, hp, hf, htbl⟩ | ⟨_, _, htbl⟩ <;> rw [htbl]
    · exact hd.created c.env p mode i parent
    · obtain ⟨_, _, hu⟩ := h.lookup_used hp hf.2
      exact hd.removed (h.lastFilledLast _ (h.parentOf_lt_size hu))
    · exact hd
  · rwa [tbl_fuseStep_root h hc]

theorem trusted_setIbit {sb : Superblock} (h : sb.Trusted) (i : Nat) (b : Byte) : (sb.setIbit i b).Trusted :=
  ⟨h.magicNum, h.one_le, h.le_size, h.numInodesPerBlock, h.inodeStartIndex⟩

/-- Records of inodes without data are not marked. -/
theorem marked_eq_self {bytes : List UInt8} (hdbmap : ∀ x < MAX_BLOCKS, (storedSBlock bytes).dbit x = 0)
    (hsize : ∀ x < storedCount bytes, (storedRecord bytes x).fileSize = 0) : marked bytes = storedSBlock bytes := by
  have hsame : (marked bytes).dbmap = (storedSBlock bytes).dbmap := by
    refine ext_peek (0 : Byte) fun x hx => ?_
    change (marked bytes).dbit x = (storedSBlock bytes).dbit x
    rw [dbit_marked bytes hx, hdbmap x hx]
    split
    · rename_i hcount
      unfold FileControlBlock.markBit
      rw [hsize x hcount]
      split
      · rfl
      split <;> rfl
    · rfl
  have hsb : marked bytes = (storedSBlock bytes).withDbmap (marked bytes).dbmap :=
    (Superblock.withDbmap_dbmap _ _).symm
  rw [hsb, hsame, Superblock.withDbmap_self]

/-! ## The disk holds the table -/

/-- A process between two calls whose disk holds what it has in memory; the last slot is untouched. -/
structure Durable (s : Process) : Prop where
  inv : s.tbl.Inv
  dataless : s.tbl.Dataless
  trusted : s.tbl.sBlock.Trusted
  outcomes : s.disk.outcomes = []
  length : sizeofSuperblock ≤ s.disk.bytes.length
  sBlock : storedSBlock s.disk.bytes = s.tbl.sBlock
  record : ∀ x < s.tbl.count, recordAt s.base s.disk.bytes x = s.tbl.inodes x
  last : s.tbl.Unused (s.tbl.count - 1)

/-- The pointers of the table survive the disk in a process loaded at the same address. -/
theorem Table.Inv.mapPtr_self {t : Table} (h : t.Inv) (b : LoadAddress) {x : Nat} (hx : x < TABLE_SIZE) :
    ((t.inodes x).mapPtr b.encode).mapPtr b.decode = t.inodes x := by
  have hentries : (((t.inodes x).mapPtr b.encode).mapPtr b.decode).dirContents = (t.inodes x).dirContents := by
    refine ext_peek Ptr.null fun k hk => ?_
    change (((t.inodes x).mapPtr b.encode).mapPtr b.decode).entry k = (t.inodes x).entry k
    rw [entry_mapPtr]
    by_cases hnull : (t.inodes x).entry k = .null
    · rw [hnull, LoadAddress.encode_null, LoadAddress.decode_zero]
    · obtain ⟨y, hy, _, hlt, _⟩ := h.entry x hx k hk hnull
      rw [hy, LoadAddress.decode_encode_iff b b (Nat.lt_of_lt_of_le hlt h.le_size)]
  change { t.inodes x with dirContents := (((t.inodes x).mapPtr b.encode).mapPtr b.decode).dirContents } = _
  rw [hentries]

theorem Table.Unused.recordAt_eq {t : Table} {x : Nat} (h : t.Unused x) {b : LoadAddress} {bytes : List UInt8}
    (hzero : storedRecord bytes x = .zero 0) : recordAt b bytes x = t.inodes x := by
  rw [recordAt, hzero, FileControlBlock.mapPtr_zero, LoadAddress.decode_zero, h.record]

theorem storedRecord_of_recordAt {b : LoadAddress} {bytes : List UInt8} {x : Nat} :
    storedRecord bytes x = (recordAt b bytes x).mapPtr b.encode :=
  (FileControlBlock.mapPtr_inverse b.encode_decode _).symm

/-- The slots behind the table are never touched. -/
theorem Table.Inv.record_of_le {t : Table} (h : t.Inv) {x : Nat} (hx : t.count ≤ x) (hsize : x < TABLE_SIZE) :
    t.inodes x = .zero .null := by
  have h2 := h.two_le
  exact ((h.slot x (by omega) hsize).resolve_right fun hu => Nat.not_lt.2 hx hu.lt).record

/-- A mount of a disk file that holds a table without data marks nothing. -/
theorem marked_of_dataless {t : Table} (hdata : t.Dataless) (hsize : t.count ≤ TABLE_SIZE) {b : LoadAddress}
    {bytes : List UInt8} (hsb : storedSBlock bytes = t.sBlock)
    (hrecord : ∀ x < t.count, recordAt b bytes x = t.inodes x) : marked bytes = t.sBlock := by
  have hcount : storedCount bytes = t.count := by rw [storedCount, hsb, Table.count]
  rw [marked_eq_self, hsb]
  · rw [hsb]
    exact hdata.dbmap
  · intro x hx
    rw [hcount] at hx
    rw [storedRecord_of_recordAt (b := b), hrecord x hx]
    exact hdata.fileSize x (by omega)

/-- **A mount of a disk file that holds `t`**, in a process loaded where it was written. -/
theorem agrees_mount {t : Table} (hdata : t.Dataless) (htrust : t.sBlock.Trusted) (hsize : t.count ≤ TABLE_SIZE)
    (hbehind : ∀ x, t.count ≤ x → x < TABLE_SIZE → t.inodes x = .zero .null) {z : Boot} {bytes : List UInt8}
    (hlen : sizeofSuperblock ≤ bytes.length) (hsb : storedSBlock bytes = t.sBlock)
    (hrecord : ∀ x < t.count, recordAt z.process.base bytes x = t.inodes x) : t.Agrees (z.mount bytes).tbl := by
  have hmount := z.mounted ⟨hlen, hsb.symm ▸ htrust⟩
  have hcount : storedCount bytes = t.count := by rw [storedCount, hsb, Table.count]
  refine ⟨by rw [hmount.sBlock, marked_of_dataless hdata hsize hsb hrecord], fun x hx => ?_⟩
  by_cases hxt : x < t.count
  · rw [hmount.record x (by rw [hcount]; exact hxt), hrecord x hxt]
  · rw [hmount.behind x (by rw [hcount]; omega) hx, hbehind x (by omega) hx]

namespace Durable

variable {s : Process} (h : Durable s)

include h

theorem geometry : s.Geometry := ⟨h.trusted.numInodesPerBlock, h.trusted.inodeStartIndex⟩

theorem storedRecord_last : storedRecord s.disk.bytes (s.tbl.count - 1) = .zero 0 := by
  have h2 := h.inv.two_le
  rw [storedRecord_of_recordAt (b := s.base), h.record _ (by omega), h.last.record, FileControlBlock.mapPtr_zero,
    LoadAddress.encode_null]

omit h in
/-- **A flush makes the table durable**, when all its writes complete. -/
theorem flush (hinv : s.tbl.Inv) (hdata : s.tbl.Dataless) (htrust : s.tbl.sBlock.Trusted)
    (hout : s.disk.outcomes = []) (hlast : s.tbl.Unused (s.tbl.count - 1))
    (hzero : storedRecord s.disk.bytes (s.tbl.count - 1) = .zero 0) : Durable (flushAllInodesTodisk false s).2 := by
  have hgeo : s.Geometry := ⟨htrust.numInodesPerBlock, htrust.inodeStartIndex⟩
  have hsize := hinv.le_size
  obtain ⟨hflush, hout'⟩ := flush_complete hgeo hout
  obtain ⟨hlen, hsb⟩ := hflush.storedSBlock
  rw [flushAllInodesTodisk_false]
  refine ⟨hinv, hdata, htrust, hout', hlen, hsb, fun x hx => ?_, hlast⟩
  change recordAt s.base (flushAllInodesTodisk false s).2.disk.bytes x = s.tbl.inodes x
  change x < s.tbl.count at hx
  by_cases hxlast : x + 1 < s.tbl.count
  · rw [hflush.recordAt s.base hxlast, hinv.mapPtr_self s.base (by omega)]
  · obtain rfl : x = s.tbl.count - 1 := by omega
    refine hlast.recordAt_eq ?_
    rw [storedRecord, hflush.last _ (by omega)]
    exact hzero

theorem destroy : Durable (sfsDestroy s) :=
  flush h.inv h.dataless h.trusted h.outcomes h.last h.storedRecord_last

/-- Another process on the same disk file, with the same table at the same address. -/
theorem congr {s' : Process} (hagrees : s.tbl.Agrees s'.tbl) (hbase : s'.base = s.base)
    (hbytes : s'.disk.bytes = s.disk.bytes) (hout : s'.disk.outcomes = []) : Durable s' := by
  have hsize := h.inv.le_size
  have h2 := h.inv.two_le
  have hcount := hagrees.count
  refine ⟨hagrees.inv h.inv, hagrees.dataless h.dataless, ?_, hout, ?_, ?_, fun x hx => ?_, ?_⟩
  · rw [← hagrees.sBlock]; exact h.trusted
  · rw [hbytes]; exact h.length
  · rw [hbytes, h.sBlock, hagrees.sBlock]
  · rw [← hcount] at hx
    rw [hbytes, hbase, h.record x hx, hagrees.inodes x (by omega)]
  · rw [← hcount]
    exact hagrees.unused (by omega) h.last

/-- **A mount gives the table back.** -/
theorem mount {z : Boot} (hbase : z.process.base = s.base) :
    Durable (z.mount s.disk.bytes) ∧ s.tbl.Agrees (z.mount s.disk.bytes).tbl ∧
      (z.mount s.disk.bytes).base = s.base := by
  have hmount := z.mounted ⟨h.length, h.sBlock.symm ▸ h.trusted⟩
  rw [hbase] at hmount
  have hagrees : s.tbl.Agrees (z.mount s.disk.bytes).tbl :=
    agrees_mount h.dataless h.trusted h.inv.le_size (fun _ => h.inv.record_of_le) h.length h.sBlock
      (by rw [hbase]; exact h.record)
  exact ⟨h.congr hagrees hmount.base hmount.bytes hmount.outcomes, hagrees, hmount.base⟩

end Durable

/-! ## A call -/

/-- A call sets `errno` at most, or changes the table and flushes it. -/
theorem fuseStep_flush {s : Process} (h : s.tbl.Inv) (c : FuseCall) : ∃ errno,
    fuseStep s c = { s with errno := errno } ∨
    fuseStep s c = { (flushAllInodesTodisk false { s with tbl := (fuseStep s c).tbl }).2 with errno := errno } := by
  obtain ⟨errno, heq⟩ := fuseStep_eq s c
  refine ⟨errno, ?_⟩
  cases hcall : c.inodeCall with
  | none =>
    rw [hcall] at heq
    exact .inl heq
  | some d =>
    rw [hcall, Option.elim_some] at heq
    rcases inodeStep_flush h d with hsame | ⟨t, i, b, _, _, hflush⟩
    · rw [hsame] at heq
      exact .inl heq
    · refine .inr ?_
      have htbl : (fuseStep s c).tbl = t := by rw [heq, hflush, tbl_flush]
      rw [htbl, heq, hflush]

/-- **A call keeps the table durable**, unless it takes the last slot. -/
theorem Durable.fuseStep {s : Process} (h : Durable s) {c : FuseCall}
    (hlast : ∀ p mode parent, ¬ c.Takes s.tbl p mode (s.tbl.count - 1) parent) : Durable (fuseStep s c) := by
  have h2 := h.inv.two_le
  have hsize := h.inv.le_size
  have hresident : Resident s s := ⟨h.inv, h.geometry, rfl, rfl⟩
  have hnext := hresident.fuseStep c
  have hdata := dataless_fuseStep h.inv h.dataless c
  have hunused : (Sfs.fuseStep s c).tbl.Unused (s.tbl.count - 1) :=
    (hresident.unused_fuseStep_iff c (by omega) (by omega)).2 ⟨h.last, hlast⟩
  have htrust : (Sfs.fuseStep s c).tbl.sBlock.Trusted := by
    by_cases hc : c.NonRoot
    · rcases fuseStep_cases h.inv hc with ⟨p, mode, i, parent, _, htbl⟩ | ⟨p, f, _, _, htbl⟩ | ⟨_, _, htbl⟩ <;>
        rw [htbl]
      · rw [Table.sBlock_created]; exact trusted_setIbit h.trusted i 1
      · rw [Table.sBlock_removed]; exact trusted_setIbit h.trusted f 0
      · exact h.trusted
    · rw [tbl_fuseStep_root h.inv hc]
      exact h.trusted
  obtain ⟨errno, heq | heq⟩ := fuseStep_flush h.inv c
  · rw [heq]
    exact h.congr (Table.Agrees.refl s.tbl) rfl rfl h.outcomes
  · have hflush := Durable.flush (s := { s with tbl := (Sfs.fuseStep s c).tbl }) hnext.inv hdata htrust h.outcomes
      (by rw [hnext.count]; exact hunused) (by rw [hnext.count]; exact h.storedRecord_last)
    rw [heq]
    exact hflush.congr (Table.Agrees.refl _) rfl rfl hflush.outcomes

/-! ## The start -/

/-- A process that has just formatted a disk with zeros in the last place. -/
structure Process.Pristine (s : Process) : Prop where
  formatted : ∃ e f, Process.Fresh f ∧ f.disk.outcomes = [] ∧ s = formatDisk e f
  two_le : 2 ≤ s.tbl.count
  le_size : s.tbl.count ≤ TABLE_SIZE
  last : storedRecord s.disk.bytes (s.tbl.count - 1) = .zero 0

theorem Process.Pristine.justFormatted {s : Process} (h : s.Pristine) : s.JustFormatted := by
  obtain ⟨e, f, hf, _, heq⟩ := h.formatted
  exact ⟨⟨e, f, hf, heq⟩, h.two_le, h.le_size⟩

theorem Table.Formatted.trusted {t : Table} (h : t.Formatted) (h2 : 2 ≤ t.count) (hsize : t.count ≤ TABLE_SIZE) :
    t.sBlock.Trusted := by
  rw [Table.count] at h2 hsize
  change t.sBlock.numInodes.toInt.toNat ≤ 100 at hsize
  refine ⟨h.magicNum, by omega, ?_, by rw [h.numInodesPerBlock]; rfl, by rw [h.inodeStartIndex]; rfl⟩
  change t.sBlock.numInodes.toInt ≤ 100
  omega

section format

variable (e : Env) {f : Process} (hf : f.Fresh)

include hf

/-- The first-time flush clears bits that are clear. -/
theorem sBlock_formatting : (formatting e f).tbl.sBlock = (formatDisk e f).tbl.sBlock := by
  obtain ⟨ibmap, hsb⟩ := sBlock_formatDisk e f
  have hibmap : ibmap = (formatting e f).tbl.sBlock.ibmap := by
    refine ext_peek (0 : Byte) fun x _ => ?_
    have hbit := (formatDisk_formatted e hf).ibit x
    rw [hsb] at hbit
    change peek 0 ibmap x = _ at hbit
    rw [hbit]
    exact (ibit_formatting e hf x).symm
  rw [hsb, hibmap]
  rfl

theorem dataless_formatDisk : (formatDisk e f).tbl.Dataless := by
  obtain ⟨ibmap, hsb⟩ := sBlock_formatDisk e f
  obtain ⟨n, m, hformat⟩ := formatSBlock_eq f.diskSize f.tbl.sBlock
  have hinodes : ∀ x < TABLE_SIZE, (formatDisk e f).tbl.inodes x =
      if x = 0 then rootInode e (.zero .null) else .zero .null := by
    intro x hx
    rw [(inodes_formatDisk e f).1, inodes_formatting e hf hx]
  refine ⟨fun x _ => ?_, fun x hx => ?_, fun x hx => ?_⟩
  · rw [hsb, hformat, hf.sBlock]
    exact peek_replicate _ _
  · rw [hinodes x hx]
    split <;> rfl
  · rw [hinodes x hx]
    split <;> rfl

end format

theorem Process.Pristine.durable {s : Process} (h : s.Pristine) : Durable s := by
  have hjust := h.justFormatted
  have hlast := h.last
  have h2 := h.two_le
  have hsize := h.le_size
  have hunused : s.tbl.Unused (s.tbl.count - 1) :=
    ⟨hjust.tbl.inodes _ (by omega) (by omega), by rw [hjust.tbl.ibit, if_neg (by omega)]⟩
  obtain ⟨e, f, hf, hio, rfl⟩ := h.formatted
  obtain ⟨hinodes, _, hbase⟩ := inodes_formatDisk e f
  have hdisk := holdsTable_formatDisk e hio h2
  have hlen := length_sBlockMemory (formatting e f) sizeofSuperblock
  have hwhole := take_sBlockMemory (formatting e f) (Nat.le_refl sizeofSuperblock)
  rw [List.take_of_length_le (Nat.le_of_eq hlen)] at hwhole
  have hread := hdisk.sBlock
  have hne : (formatting e f).sBlockMemory sizeofSuperblock ≠ [] := List.ne_nil_of_length_pos (by rw [hlen]; decide)
  have hreach := ((read_eq_iff hne).1 hread).1
  rw [hlen, Nat.zero_add] at hreach
  rw [hlen, hwhole] at hread
  refine ⟨hjust.inv, dataless_formatDisk e hf, hjust.tbl.trusted h2 hsize, (formatDisk_complete e hio).1, hreach, ?_,
    fun x hx => ?_, hunused⟩
  · have hdec := congrArg Superblock.codec.dec hread
    rw [Codec.dec_enc_self, sBlock_formatting e hf] at hdec
    exact hdec
  · by_cases hxlast : x + 1 < (formatDisk e f).tbl.count
    · rw [recordAt, (hdisk.storedRecord (by omega)).2, ← hinodes, hbase]
      exact hjust.inv.mapPtr_self f.base (by omega)
    · obtain rfl : x = (formatDisk e f).tbl.count - 1 := by omega
      exact hunused.recordAt_eq hlast

/-! ## Sessions -/

/-- How a process comes to its end, and the start of the next one. -/
structure Restart where
  /-- Unmounted; else killed between two calls. -/
  clean : Bool
  boot : Boot

/-- The next process, after its mount. -/
def restart (s : Process) (r : Restart) : Process :=
  r.boot.mount (if r.clean then sfsDestroy s else s).disk.bytes

/-- `s` is a process of a volume that is mounted again and again, `t` one that never ends. -/
structure SameVolume (b : LoadAddress) (s t : Process) : Prop where
  base : s.base = b
  durable : Durable s
  agrees : s.tbl.Agrees t.tbl

theorem SameVolume.restart {b : LoadAddress} {s t : Process} (h : SameVolume b s t) {r : Restart}
    (hbase : r.boot.process.base = b) : SameVolume b (restart s r) t := by
  unfold Sfs.restart
  split
  · have hsame : (sfsDestroy s).base = s.base ∧ (sfsDestroy s).tbl = s.tbl := by
      rw [sfsDestroy, flushAllInodesTodisk_false]
      exact ⟨rfl, rfl⟩
    obtain ⟨hdurable, hagrees, hmount⟩ := h.durable.destroy.mount (z := r.boot) (by rw [hbase, hsame.1, h.base])
    rw [hsame.1, h.base] at hmount
    rw [hsame.2] at hagrees
    exact ⟨hmount, hdurable, hagrees.symm.trans h.agrees⟩
  · obtain ⟨hdurable, hagrees, hmount⟩ := h.durable.mount (z := r.boot) (by rw [hbase, h.base])
    rw [h.base] at hmount
    exact ⟨hmount, hdurable, hagrees.symm.trans h.agrees⟩

theorem SameVolume.fuseStep {b : LoadAddress} {s t : Process} (h : SameVolume b s t) {c : FuseCall}
    (hlast : ∀ p mode parent, ¬ c.Takes t.tbl p mode (t.tbl.count - 1) parent) :
    SameVolume b (fuseStep s c) (fuseStep t c) := by
  have hresident : Resident s s := ⟨h.durable.inv, h.durable.geometry, rfl, rfl⟩
  refine ⟨(hresident.fuseStep c).base.trans h.base, h.durable.fuseStep fun p mode parent ht => ?_,
    agrees_fuseStep h.agrees h.durable.inv c⟩
  rw [h.agrees.takes h.durable.inv.le_size, h.agrees.count] at ht
  exact hlast p mode parent ht

/-- The request does not take the last slot, nor remove the root. -/
def SparesLast (s : Process) (r : Request) : Prop :=
  r.NonRoot ∧ (r.takes s).map Prod.snd ≠ some (s.tbl.count - 1)

instance (s : Process) (r : Request) : Decidable (SparesLast s r) := by unfold SparesLast; infer_instance

theorem SparesLast.not_takes {s : Process} {r : Request} {c : FuseCall} (h : SparesLast s r) (hc : r.call = some c)
    (p : AbsPath) (mode : BitVec 32) (parent : Nat) : ¬ c.Takes s.tbl p mode (s.tbl.count - 1) parent := by
  intro ht
  rw [SparesLast, (Request.takes_of_call hc ht).1] at h
  exact h.2 rfl

theorem SameVolume.requestStep {b : LoadAddress} {s t : Process} (h : SameVolume b s t) {r : Request}
    (hlast : SparesLast t r) : SameVolume b (requestStep s r) (requestStep t r) := by
  cases hcall : r.call with
  | none =>
    obtain ⟨errno, heq⟩ := exec_of_not_change (s := s) hcall
    obtain ⟨errno', heq'⟩ := exec_of_not_change (s := t) hcall
    rw [heq, heq']
    exact ⟨h.base, h.durable.congr (Table.Agrees.refl s.tbl) rfl rfl h.durable.outcomes, h.agrees⟩
  | some c =>
    rw [requestStep_of_call hcall, requestStep_of_call hcall]
    exact h.fuseStep (hlast.not_takes hcall)

/-- **Sessions are one run.** -/
theorem sameVolume_sessions {s : Process} (hs : s.Pristine) {zs : List (Restart × List Request)}
    (hbase : ∀ z ∈ zs, z.1.boot.process.base = s.base)
    (hrun : EachStep requestStep SparesLast s (zs.flatMap Prod.snd)) :
    SameVolume s.base (sessions restart requestStep s zs) (exec requestStep s (zs.flatMap Prod.snd)) := by
  have hstep : ∀ u t r, SameVolume s.base u t → SparesLast t r →
      SameVolume s.base (requestStep u r) (requestStep t r) := fun _ _ _ h hr => h.requestStep hr
  have hrestart : ∀ u t r, SameVolume s.base u t → r.boot.process.base = s.base → SameVolume s.base (restart u r) t :=
    fun _ _ _ h hr => h.restart hr
  exact sessions_rel hstep hrestart ⟨rfl, hs.durable, Table.Agrees.refl s.tbl⟩ hbase hrun

/-! ## What can be seen of it -/

/-- Two tables that differ in what only writers look at: `ibmap`, `dirContents`. -/
structure Table.SameFiles (t t' : Table) : Prop where
  count : t.count = t'.count
  record : ∀ x < t.count, SameRecord (t.inodes x) (t'.inodes x)

section sameFiles

variable {t t' : Table}

theorem Table.Agrees.sameFiles (h : t.Agrees t') (hsize : t.count ≤ TABLE_SIZE) : t.SameFiles t' := by
  refine ⟨h.count, fun x hx => ?_⟩
  rw [h.inodes x (by omega)]
  exact ⟨rfl, rfl, rfl, rfl, rfl, rfl, rfl, rfl, rfl⟩

theorem Table.SameFiles.lookup (h : t.SameFiles t') (p : AbsPath) : t.lookup p = t'.lookup p := by
  refine lookup_congr h.count (fun x hx => ?_) p
  constructor
  · rw [FileControlBlock.name, FileControlBlock.name, (h.record x hx).fileName]
  · rw [FileControlBlock.dir, FileControlBlock.dir, (h.record x hx).parentDir]

/-- **Requests that neither change the table nor follow its pointers are answered alike.** -/
theorem reply_sameFiles {s s' : Process} (h : s.tbl.SameFiles s'.tbl) (hpos : 0 < s.tbl.count) {r : Request}
    (hr : r.Asks) : (r.exec s).1 = (r.exec s').1 := by
  have hfind : ∀ p : AbsPath, findFileOrDir s.tbl p.str = findFileOrDir s'.tbl p.str := h.lookup
  have hask : ∀ p : AbsPath, (lookupPath p.str s).1 = (lookupPath p.str s').1 := by
    intro p
    unfold lookupPath
    rw [hfind]
    split <;> rfl
  obtain ⟨op, e⟩ := r
  cases op with
  | change op => exact hr.elim
  | readDir p => exact hr.elim
  | getattr p statbuf =>
    have hroot := h.record 0 hpos
    have hdummy : ∀ st, dummyStat e p.str s.tbl st = dummyStat e p.str s'.tbl st := fun st => by
      rw [dummyStat, dummyStat, hroot.uid, hroot.fileSize, hroot.time]
    have hinode : ∀ x st, s.tbl.lookup p = some x →
        inodeStat e (s.tbl.inodes x) st = inodeStat e (s'.tbl.inodes x) st := by
      intro x st hx
      have hsame := h.record x (Table.lt_count_of_lookup hpos hx)
      rw [inodeStat, inodeStat, hsame.mode, hsame.uid, hsame.fileSize, hsame.time]
    have hattr : (sfsGetattr e p.str statbuf s).1 = (sfsGetattr e p.str statbuf s').1 ∧
        (sfsGetattr e p.str statbuf s).2.1 = (sfsGetattr e p.str statbuf s').2.1 := by
      unfold sfsGetattr
      rw [← hfind]
      split
      · exact ⟨rfl, rfl⟩
      split
      · exact ⟨rfl, rfl⟩
      split
      · rw [hdummy]
        exact ⟨rfl, rfl⟩
      split
      · exact ⟨rfl, rfl⟩
      · rename_i x hx
        rw [hinode x _ hx]
        exact ⟨rfl, rfl⟩
    exact congrArg₂ Reply.attr hattr.1 hattr.2
  | openFile p => exact congrArg Reply.ret (hask p)
  | releaseFile p => exact congrArg Reply.ret (hask p)
  | openDir p => exact congrArg Reply.ret (hask p)
  | releaseDir p => rfl
  | readFile p buf offset => exact congrArg (Reply.data · buf) (hask p)
  | writeFile p buf offset =>
    refine congrArg Reply.ret ?_
    unfold sfsWrite
    rw [hfind]
    split
    · split <;> rfl
    · rfl

end sameFiles

/-- **Processes with the same table answer alike**, except to a create that fails. -/
theorem reply_agrees {s t : Process} (h : s.tbl.Agrees t.tbl) (hinv : s.tbl.Inv) {r : Request} (hroot : r.NonRoot)
    (hr : ∀ p mode, r.op = .change (.create p mode) → (createInode r.env p.str mode t).1 ≠ none) :
    (r.exec s).1 = (r.exec t).1 := by
  have hsize := hinv.le_size
  have h2 := hinv.two_le
  cases hcall : r.call with
  | none =>
    rcases Request.call_eq_none_iff.1 hcall with hasks | ⟨p, hop⟩
    · exact reply_sameFiles (h.sameFiles hsize) (by omega) hasks
    · obtain ⟨op, e⟩ := r
      cases hop
      exact congrArg Reply.listing (h.readdir hinv p)
  | some c =>
    have hremove : ∀ p : AbsPath, p ≠ [] → (removePath p.str s).1 = (removePath p.str t).1 := by
      intro p hp
      rw [removePath_fst hinv hp, removePath_fst (h.inv hinv) hp, h.lookup hsize]
    obtain ⟨op, e⟩ := r
    cases op with
    | change op =>
      cases op with
      | create p mode =>
        have ht := hr p mode rfl
        have hs : (createInode e p.str mode s).1 ≠ none := by
          rw [createInode_fst] at ht ⊢
          rwa [h.lookup hsize, h.freeSlot]
        exact congrArg Reply.ret ((sfsCreate_fst hs).trans (sfsCreate_fst ht).symm)
      | mkdir p mode =>
        exact congrArg Reply.ret ((sfsMkdir_fst e p.str mode s).trans (sfsMkdir_fst e p.str mode t).symm)
      | unlink p => exact congrArg Reply.ret (hremove p hroot)
      | rmdir p => exact congrArg Reply.ret (hremove p hroot)
    | _ => cases hcall

/-- **The processes of a volume do together what one process would do**, killed or unmounted in between:
their table is the same, and so are the answers to every request, listings included, but for a create that
fails. A mount that reads nothing for the last slot clears 4096 bytes from there on: for 97 to 100 inodes it is
assumed that none of the other globals lies behind `inodes[99]` (`Table.store`). -/
theorem lifetime_eq {s : Process} (hs : s.Pristine) {zs : List (Restart × List Request)}
    (hbase : ∀ z ∈ zs, z.1.boot.process.base = s.base)
    (hrun : EachStep requestStep SparesLast s (zs.flatMap Prod.snd)) :
    (sessions restart requestStep s zs).tbl.Agrees (exec requestStep s (zs.flatMap Prod.snd)).tbl ∧
    ∀ r : Request, r.NonRoot → (∀ p mode, r.op = .change (.create p mode) →
        (createInode r.env p.str mode (exec requestStep s (zs.flatMap Prod.snd))).1 ≠ none) →
      (r.exec (sessions restart requestStep s zs)).1 = (r.exec (exec requestStep s (zs.flatMap Prod.snd))).1 := by
  have h := sameVolume_sessions hs hbase hrun
  exact ⟨h.agrees, fun r hroot hr => reply_agrees h.agrees h.durable.inv hroot hr⟩

theorem pristine_three : (formatted 200000).Pristine where
  formatted := ⟨_, _, Process.fresh_started 200000, rfl, rfl⟩
  two_le := justFormatted_three.two_le
  le_size := justFormatted_three.le_size
  last := by
    rw [count_formatted, formatCount_three]
    exact storedRecord_formatted (by decide) (by rw [formatCount_three])

/-- `/a` is made by a process that is killed, and removed by one that is unmounted; a third one makes `/b`. -/
def threeProcesses : List (Restart × List Request) :=
  [(⟨false, bootAt (Process.started 200000).base⟩, [⟨.change (.mkdir [.a] 493), ⟨1000, 1000, 0⟩⟩]),
    (⟨false, bootAt (Process.started 200000).base⟩, [⟨.change (.rmdir [.a]), ⟨1000, 1000, 0⟩⟩]),
    (⟨true, bootAt (Process.started 200000).base⟩, [⟨.change (.create [.b] 0o644), ⟨1000, 1000, 7⟩⟩])]

theorem threeProcesses_run :
    EachStep requestStep SparesLast (formatted 200000) (threeProcesses.flatMap Prod.snd) := by
  decide +kernel

theorem base_formatted (diskSize : Int) : (formatted diskSize).base = (Process.started diskSize).base :=
  (inodes_formatDisk _ _).2.2

theorem threeProcesses_base : ∀ z ∈ threeProcesses, z.1.boot.process.base = (formatted 200000).base := by
  rw [base_formatted]
  simp [threeProcesses, bootAt]

theorem lifetime_eq_threeProcesses :
    let u := sessions restart requestStep (formatted 200000) threeProcesses
    let t := exec requestStep (formatted 200000) (threeProcesses.flatMap Prod.snd)
    u.tbl.Agrees t.tbl ∧ ∀ r : Request, r.NonRoot → (∀ p mode, r.op = .change (.create p mode) →
      (createInode r.env p.str mode t).1 ≠ none) → (r.exec u).1 = (r.exec t).1 :=
  lifetime_eq pristine_three threeProcesses_base threeProcesses_run

/-- **No data is ever stored**, whatever is written: in memory and on disk every file is empty, and no data
block is marked as used. -/
theorem dataless_lifetime {s : Process} (hs : s.Pristine) {zs : List (Restart × List Request)}
    (hbase : ∀ z ∈ zs, z.1.boot.process.base = s.base)
    (hrun : EachStep requestStep SparesLast s (zs.flatMap Prod.snd)) :
    let u := sessions restart requestStep s zs
    u.tbl.Dataless ∧ (∀ x < MAX_BLOCKS, (storedSBlock u.disk.bytes).dbit x = 0) ∧
      ∀ x < u.tbl.count, (storedRecord u.disk.bytes x).fileSize = 0 ∧ (storedRecord u.disk.bytes x).numBlocks = 0 := by
  intro u
  have h : Durable u := (sameVolume_sessions hs hbase hrun).durable
  have hsize := h.inv.le_size
  refine ⟨h.dataless, fun x hx => ?_, fun x hx => ?_⟩
  · rw [h.sBlock, h.dataless.dbmap x hx]
  · rw [storedRecord_of_recordAt (b := u.base), h.record x hx]
    exact ⟨h.dataless.fileSize x (by omega), h.dataless.numBlocks x (by omega)⟩

theorem dataless_lifetime_threeProcesses :
    let u := sessions restart requestStep (formatted 200000) threeProcesses
    u.tbl.Dataless ∧ (∀ x < MAX_BLOCKS, (storedSBlock u.disk.bytes).dbit x = 0) ∧
      ∀ x < u.tbl.count, (storedRecord u.disk.bytes x).fileSize = 0 ∧ (storedRecord u.disk.bytes x).numBlocks = 0 :=
  dataless_lifetime pristine_three threeProcesses_base threeProcesses_run

/-! ## What one call changes on disk -/

/-- The disk before and after a request: bytes `file` and `file'`. -/
inductive DiskStep (s : Process) (r : Request) (file file' : List UInt8) : Prop where
  | takes (p : AbsPath) (i parent : Nat) (htakes : r.takes s = some (p, i))
      (hparent : s.tbl.lookup p.parent = some parent)
      (sBlock : storedSBlock file' = (storedSBlock file).setIbit i 1)
      (record : ∀ x < s.tbl.count, x ≠ i → x ≠ parent → storedRecord file' x = storedRecord file x)
  | frees (f : Nat) (hfrees : r.frees s = some f) (sBlock : storedSBlock file' = (storedSBlock file).setIbit f 0)
      (record : ∀ x < s.tbl.count, x ≠ s.tbl.parentOf f → storedRecord file' x = storedRecord file x)
  | unchanged (htakes : r.takes s = none) (hfrees : r.frees s = none) (sBlock : storedSBlock file' = storedSBlock file)
      (record : ∀ x < s.tbl.count, storedRecord file' x = storedRecord file x)

theorem diskStep_of_durable {s : Process} {r : Request} (h : Durable s) (h' : Durable (requestStep s r))
    (hbase : (requestStep s r).base = s.base) (hr : r.NonRoot) :
    DiskStep s r s.disk.bytes (requestStep s r).disk.bytes := by
  have hrecord : ∀ x < s.tbl.count, (requestStep s r).tbl.count = s.tbl.count →
      (requestStep s r).tbl.inodes x = s.tbl.inodes x →
      storedRecord (requestStep s r).disk.bytes x = storedRecord s.disk.bytes x := by
    intro x hx hcount hsame
    have hnew : recordAt s.base (requestStep s r).disk.bytes x = (requestStep s r).tbl.inodes x := by
      rw [← hbase]
      exact h'.record x (by omega)
    exact (storedRecord_of_recordAt (b := s.base)).trans
      ((congrArg (·.mapPtr s.base.encode) (hnew.trans (hsame.trans (h.record x hx).symm))).trans
        (storedRecord_of_recordAt (b := s.base)).symm)
  have hsBlock : storedSBlock (requestStep s r).disk.bytes = (requestStep s r).tbl.sBlock := h'.sBlock
  rw [tbl_requestStep] at hsBlock hrecord
  cases hcall : r.call with
  | none =>
    rw [hcall] at hsBlock hrecord
    refine .unchanged (by rw [Request.takes, hcall]; rfl) (by rw [Request.frees, hcall]; rfl) ?_
      fun x hx => hrecord x hx rfl rfl
    rw [hsBlock, h.sBlock]
    rfl
  | some c =>
    rw [hcall, Option.elim_some] at hsBlock hrecord
    rcases fuseStep_cases h.inv (hr.call hcall) with
      ⟨p, mode, i, parent, ht, htbl⟩ | ⟨p, f, hp, hf, htbl⟩ | ⟨htakes, hfrees, htbl⟩ <;> rw [htbl] at hsBlock hrecord
    · refine .takes p i parent (Request.takes_of_call hcall ht).1 ht.2.2 ?_ fun x hx hi hparent => ?_
      · rw [hsBlock, Table.sBlock_created, h.sBlock]
      · exact hrecord x hx (Table.count_created ..) (Table.inodes_created_of_ne_of_ne _ _ _ _ _ _ hi hparent)
    · obtain ⟨_, hlt, hu⟩ := h.inv.lookup_used hp hf.2
      refine .frees f (Request.frees_of_call hcall hf).2 ?_ fun x hx hparent => hrecord x hx (Table.count_removed ..) ?_
      · rw [hsBlock, Table.sBlock_removed, h.sBlock]
      · rcases h.inv.inodes_removed_cases hlt hu with ⟨j, _, _, hinodes⟩ | ⟨_, hinodes⟩ <;> rw [hinodes]
        exact if_neg hparent
    · obtain ⟨htakes', hfrees'⟩ := Request.of_call hcall htakes hfrees
      refine .unchanged htakes' hfrees' ?_ fun x hx => hrecord x hx rfl rfl
      rw [hsBlock, h.sBlock]

/-- **A request changes on disk one byte of the superblock, and two records**, though it writes them all:
a create the slot taken and its parent, a remove the parent alone. -/
theorem disk_lifetime {s : Process} (hs : s.Pristine) {zs : List (Restart × List Request)}
    (hbase : ∀ z ∈ zs, z.1.boot.process.base = s.base)
    (hrun : EachStep requestStep SparesLast s (zs.flatMap Prod.snd)) {r : Request}
    (hlast : SparesLast (sessions restart requestStep s zs) r) :
    let u := sessions restart requestStep s zs
    DiskStep u r u.disk.bytes (requestStep u r).disk.bytes := by
  intro u
  have h : SameVolume s.base u (exec requestStep s (zs.flatMap Prod.snd)) := sameVolume_sessions hs hbase hrun
  have h' : SameVolume s.base (requestStep u r) (requestStep u r) :=
    SameVolume.requestStep ⟨h.base, h.durable, Table.Agrees.refl u.tbl⟩ hlast
  exact diskStep_of_durable h.durable h'.durable (h'.base.trans h.base.symm) hlast.1

/-- The third process removes `/b`. -/
def lastRequest : Request := ⟨.change (.unlink [.b]), ⟨1000, 1000, 9⟩⟩

theorem lastRequest_sparesLast (s : Process) : SparesLast s lastRequest := by
  refine ⟨by decide, ?_⟩
  change Option.map Prod.snd none ≠ _
  simp

theorem disk_lifetime_threeProcesses :
    let u := sessions restart requestStep (formatted 200000) threeProcesses
    DiskStep u lastRequest u.disk.bytes (requestStep u lastRequest).disk.bytes :=
  disk_lifetime pristine_three threeProcesses_base threeProcesses_run (lastRequest_sparesLast _)

end Sfs
