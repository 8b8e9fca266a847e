import SimpelDateisystem.Mount
import SimpelDateisystem.Remount

/-!
# Loading a disk file that ends early

A record past the end of the file reads as nothing: `inode_read` then clears `BLOCK_SIZE` bytes at
`&inodes[i]` (`block.c:81`), not the 840 bytes of the record, and the counters of `sfs_init` stay
where they are. In a fresh process all of `inodes[]` that is cleared is zero anyway, so that every
slot ends up right, but a block is longer than four records: `loadsTruncated_iff`, the loader stays
inside the table iff the last record starts before the end of the file.
-/

namespace Sfs

open ByteFile CString

/-- The superblock a disk file starts with. -/
def storedSBlock (bytes : List UInt8) : Superblock := Superblock.codec.dec (bytes.take sizeofSuperblock)

/-- The number of records in a disk file, by its superblock. -/
def storedCount (bytes : List UInt8) : Nat := (storedSBlock bytes).numInodes.toInt.toNat

/-- The bytes `inode_read` stores at its buffer: those read, or the zeros of the `memset`. -/
def Access.stored (a : Access) : Nat := if a.ret ≤ 0 then BLOCK_SIZE else a.ret.toNat

/-- `r` is `f` after a mount that leaves each record in its slot, and stores nothing outside
`inodes[0..numInodes-1]`. -/
structure LoadsTruncated (f r : Process) : Prop where
  whole : ∀ i < storedCount f.disk.bytes, inodePos i + sizeofFcb ≤ f.disk.bytes.length →
    r.inodeMemory i = image f.disk.bytes (inodePos i) sizeofFcb
  missing : ∀ i < storedCount f.disk.bytes, f.disk.bytes.length ≤ inodePos i →
    r.inodeMemory i = List.replicate sizeofFcb 0
  inside : ∀ a ∈ r.disk.log.drop f.disk.log.length, ∀ i, a.object = .inode i →
    i * sizeofFcb + a.stored ≤ storedCount f.disk.bytes * sizeofFcb

/-! ## Records and slots -/

theorem length_pread (d : Disk) (object : Object) (size : Nat) (offset : Int) :
    ((d.pread object size offset).2.1.length : Int) = max 0 (d.pread object size offset).1 := by
  unfold Disk.pread
  split
  · exact (max_eq_right (Int.natCast_nonneg _)).symm
  · rfl

/-- What `inode_read` stores, and how much. -/
theorem inodeRead_stored (b : LoadAddress) (blockNum : Int) (x : Nat) (offset : Int) (t : Table) (d : Disk) :
    ∃ (a : Access) (bs : List UInt8),
      (inodeRead b blockNum x offset t d).2.2.log = d.log ++ [a] ∧ a.object = .inode x ∧
      a.ret = (d.pread (.inode x) sizeofFcb (blockNum * BLOCK_SIZE + offset)).1 ∧
      (inodeRead b blockNum x offset t d).2.1 = t.store b x bs ∧ bs.length = a.stored ∧
      bs = if a.ret ≤ 0 then List.replicate BLOCK_SIZE 0
        else (d.pread (.inode x) sizeofFcb (blockNum * BLOCK_SIZE + offset)).2.1 := by
  have hlen := length_pread d (.inode x) sizeofFcb (blockNum * BLOCK_SIZE + offset)
  have hlog := log_pread d (.inode x) sizeofFcb (blockNum * BLOCK_SIZE + offset)
  simp only [inodeRead]
  generalize d.pread (.inode x) sizeofFcb (blockNum * BLOCK_SIZE + offset) = r at *
  refine ⟨⟨.read, .inode x, blockNum * BLOCK_SIZE + offset, sizeofFcb, r.1⟩,
    if r.1 ≤ 0 then List.replicate BLOCK_SIZE 0 else r.2.1, ?_, rfl, rfl, ?_, ?_, rfl⟩
  · split <;> exact hlog
  · split <;> rfl
  · simp only [Access.stored]
    split
    · exact List.length_replicate
    · omega

/-- A read at `pos` that gets all there is. -/
theorem inodeRead_at {blockNum offset : Int} {pos : Nat} (b : LoadAddress) (x : Nat) (t : Table) {d : Disk}
    (hd : d.outcomes = []) (hpos : blockNum * BLOCK_SIZE + offset = pos) :
    let r := inodeRead b blockNum x offset t d
    r.2.2.bytes = d.bytes ∧ r.2.2.outcomes = [] ∧ (r.1 = 0 ↔ d.bytes.length ≤ pos) ∧ ∃ a : Access,
      r.2.2.log = d.log ++ [a] ∧ a.object = .inode x ∧ (a.ret ≤ 0 ↔ d.bytes.length ≤ pos) ∧ a.ret ≤ sizeofFcb ∧
      r.2.1 = t.store b x
        (if d.bytes.length ≤ pos then List.replicate BLOCK_SIZE 0 else read d.bytes pos sizeofFcb) := by
  intro r
  obtain ⟨hfst, hdisk⟩ := inodeRead_eq b blockNum x offset t d
  obtain ⟨a, bs, hlog, hobj, hret, htbl, -, hbs⟩ := inodeRead_stored b blockNum x offset t d
  obtain ⟨hread, hgot, hbytes, hout⟩ := Disk.pread_of_complete (by rw [hd]; rfl) (.inode x) sizeofFcb pos
  rw [hpos] at hfst hdisk hret hbs
  rw [hread] at hfst hret
  have hlen := length_read d.bytes pos sizeofFcb
  have hwidth : 0 < sizeofFcb := by decide
  have hstop : a.ret ≤ 0 ↔ d.bytes.length ≤ pos := by rw [hret]; omega
  rw [hgot, if_congr hstop rfl rfl] at hbs
  refine ⟨?_, ?_, ?_, a, hlog, hobj, hstop, ?_, by rw [← hbs]; exact htbl⟩
  · exact (congrArg (·.bytes) hdisk).trans hbytes
  · rw [hd] at hout
    exact (congrArg (·.outcomes) hdisk).trans hout
  · rw [show r.1 = _ from hfst]
    omega
  · rw [hret]
    omega

/-- A slot that holds its record holds the bytes of the record. -/
theorem inodeMemory_of_recordAt {r : Process} {bytes : List UInt8} {i : Nat}
    (h : r.tbl.inodes i = recordAt r.base bytes i) : r.inodeMemory i = image bytes (inodePos i) sizeofFcb := by
  have hwidth : (image bytes (inodePos i) sizeofFcb).length = FileControlBlock.codec.width := by
    rw [length_image, FileControlBlock.width_codec]
  rw [Process.inodeMemory, h, recordAt, FileControlBlock.mapPtr_inverse r.base.encode_decode, storedRecord,
    Codec.enc_dec _ _ (Nat.le_of_eq hwidth.symm), List.take_of_length_le (Nat.le_of_eq hwidth)]

/-! ## The loop -/

/-- The reads `new` for the slots before `j`: one returns something iff the slot's record starts before the
end of the file. -/
def ReadsUpTo (bytes : List UInt8) (j : Nat) (new : List Access) : Prop :=
  ∀ a ∈ new, ∃ x < j, a.object = .inode x ∧ (a.ret ≤ 0 ↔ bytes.length ≤ inodePos x) ∧ a.ret ≤ sizeofFcb

/-- The loop invariant of the mount before record `j`, after `m` rounds that moved on. -/
structure LoadedUpTo (f : Process) (j m : Nat) (r : Process) : Prop where
  base : r.base = f.base
  bytes : r.disk.bytes = f.disk.bytes
  outcomes : r.disk.outcomes = []
  geometry : r.Geometry
  moves : m = j ∨ (m < j ∧ f.disk.bytes.length ≤ inodePos m)
  before : ∀ x < j, r.tbl.inodes x = recordAt f.base f.disk.bytes x
  behind : ∀ x, j ≤ x → x < TABLE_SIZE → r.tbl.inodes x = .zero .null
  reads : ∃ new, r.disk.log = f.disk.log ++ new ∧ ReadsUpTo f.disk.bytes j new

/-- The read of a round returns something iff the record of its slot starts before the end of the file,
wherever the counters are. -/
theorem LoadedUpTo.length_le_iff {f r : Process} {j m : Nat} (h : LoadedUpTo f j m r) :
    f.disk.bytes.length ≤ inodePos m ↔ f.disk.bytes.length ≤ inodePos j := by
  rcases h.moves with rfl | ⟨hlt, hend⟩
  · rfl
  · exact iff_of_true hend (Nat.le_trans hend (inodePos_mono (Nat.le_of_lt hlt)))

/-- What the round stores puts the record into its slot and leaves those behind it zero. -/
theorem LoadedUpTo.store {f r : Process} {j m : Nat} (h : LoadedUpTo f j m r) (hj : j < TABLE_SIZE) :
    let t := r.tbl.store r.base j (if f.disk.bytes.length ≤ inodePos m then List.replicate BLOCK_SIZE 0
      else read f.disk.bytes (inodePos m) sizeofFcb)
    (∀ x < j + 1, t.inodes x = recordAt f.base f.disk.bytes x) ∧
    ∀ x, j + 1 ≤ x → x < TABLE_SIZE → t.inodes x = .zero .null := by
  intro t
  have hzero := h.behind j (Nat.le_refl j) hj
  have hself : t.inodes j = recordAt f.base f.disk.bytes j ∧
      ∀ x, j + 1 ≤ x → x < TABLE_SIZE → t.inodes x = .zero .null := by
    by_cases hend : f.disk.bytes.length ≤ inodePos m
    · have ht : t = r.tbl.store r.base j (List.replicate BLOCK_SIZE 0) := by simp only [t, if_pos hend]
      rw [ht]
      refine ⟨?_, fun x hx hsize => inodes_store_zeros r.base (h.behind x (by omega) hsize)⟩
      rw [inodes_store_zeros r.base hzero, recordAt_of_length_le f.base (h.length_le_iff.1 hend)]
    · have ht : t = r.tbl.store r.base j (read f.disk.bytes (inodePos m) sizeofFcb) := by
        simp only [t, if_neg hend]
      obtain rfl : m = j := h.moves.resolve_right fun hstuck => hend hstuck.2
      have hlen := length_read f.disk.bytes (inodePos m) sizeofFcb
      have hwidth : 0 < sizeofFcb := by decide
      have hle : (read f.disk.bytes (inodePos m) sizeofFcb).length ≤ sizeofFcb := by omega
      have hne : read f.disk.bytes (inodePos m) sizeofFcb ≠ [] := List.ne_nil_of_length_pos (by omega)
      rw [ht]
      refine ⟨?_, fun x hx hsize => ?_⟩
      · rw [inodes_store_self, hzero, List.take_of_length_le hle, h.base]
        exact overwrite_zero f.base f.disk.bytes m hne
      · rw [inodes_store_of_gt r.base r.tbl _ hx hle, h.behind x (by omega) hsize]
  refine ⟨fun x hx => ?_, hself.2⟩
  by_cases hxj : x = j
  · rw [hxj, hself.1]
  · rw [inodes_store_of_lt r.base r.tbl _ (by omega), h.before x (by omega)]

/-- One round of the mount. -/
theorem LoadedUpTo.readRound {f r : Process} {j m : Nat} (h : LoadedUpTo f j m r) (hj : j < TABLE_SIZE) :
    let round := readRound j (inodeStart + (m / inodesPerBlock : Nat)) (m % inodesPerBlock : Nat) r
    LoadedUpTo f (j + 1) (if round.1 then m + 1 else m) round.2 := by
  intro round
  obtain ⟨hadv, dbmap, hround⟩ :=
    readRound_eq j (inodeStart + (m / inodesPerBlock : Nat)) (m % inodesPerBlock : Nat) r
  have hgeo : round.2.Geometry :=
    geometry_readRound j (inodeStart + (m / inodesPerBlock : Nat)) (m % inodesPerBlock : Nat) h.geometry
  obtain ⟨hbytes, hout, hzero, a, hlog, hobj, hstop, hle, htbl⟩ :=
    inodeRead_at r.base j r.tbl h.outcomes (blockPos_eq m)
  obtain ⟨hbefore, hbehind⟩ := h.store hj
  rw [h.bytes] at hbytes hzero hstop htbl
  rw [← htbl] at hbefore hbehind
  have hmove : round.1 = true ↔ ¬ f.disk.bytes.length ≤ inodePos m := by
    rw [hadv, decide_eq_true_iff]
    exact not_congr hzero
  refine ⟨?_, ?_, ?_, hgeo, ?_, ?_, ?_, ?_⟩
  · rw [hround]; exact h.base
  · rw [hround]; exact hbytes
  · rw [hround]; exact hout
  · by_cases hend : f.disk.bytes.length ≤ inodePos m
    · rw [if_neg (mt hmove.1 (not_not_intro hend))]
      refine .inr ⟨?_, hend⟩
      rcases h.moves with rfl | ⟨hlt, _⟩ <;> omega
    · rw [if_pos (hmove.2 hend), h.moves.resolve_right fun hstuck => hend hstuck.2]
      exact .inl rfl
  · rw [hround]; exact hbefore
  · rw [hround]; exact hbehind
  · obtain ⟨old, hold, hreads⟩ := h.reads
    refine ⟨old ++ [a], by rw [hround, hlog, hold, List.append_assoc], fun c hc => ?_⟩
    rcases List.mem_append.1 hc with hc | hc
    · obtain ⟨x, hx, hrest⟩ := hreads c hc
      exact ⟨x, by omega, hrest⟩
    · rw [List.mem_singleton] at hc
      subst hc
      exact ⟨j, Nat.lt_add_one j, hobj, hstop.trans h.length_le_iff, hle⟩

/-- **The whole loop**, in a process whose `inodes[]` is zero. -/
theorem loadedUpTo_readInodeTable {f : Process} (hf : f.Geometry) (hout : f.disk.outcomes = [])
    (hzero : ∀ x < TABLE_SIZE, f.tbl.inodes x = .zero .null) (hsize : f.tbl.count ≤ TABLE_SIZE) :
    ∃ m, LoadedUpTo f f.tbl.count m (readInodeTable f) := by
  have hstart : LoadedUpTo f 0 0 f :=
    ⟨rfl, rfl, hout, hf, .inl rfl, fun x hx => absurd hx (Nat.not_lt_zero x), fun x _ hx => hzero x hx,
      [], (List.append_nil _).symm, fun a ha => absurd ha List.not_mem_nil⟩
  obtain ⟨m, hend⟩ : ∃ m, LoadedUpTo f (0 + f.tbl.count) m (Cursor.loop Process.perBlock readRound f.tbl.count 0
      (inodeStart + (0 / inodesPerBlock : Nat)) (0 % inodesPerBlock : Nat) f) :=
    Cursor.loop_moves (by decide) inodeStart (fun _ _ _ h => h.geometry.numInodesPerBlock)
      (fun j m r _ hj h => h.readRound (by omega)) hstart
  rw [readInodeTable_eq_loop hf]
  rw [Nat.zero_add] at hend
  exact ⟨m, hend⟩

/-! ## The mount -/

theorem Superblock.Trusted.count_le {sb : Superblock} (h : sb.Trusted) :
    1 ≤ sb.numInodes.toInt.toNat ∧ sb.numInodes.toInt.toNat ≤ TABLE_SIZE := by
  have hone := h.one_le
  have hle := h.le_size
  change sb.numInodes.toInt ≤ 100 at hle
  change 1 ≤ sb.numInodes.toInt.toNat ∧ sb.numInodes.toInt.toNat ≤ 100
  omega

section mount

variable (e : Env) (buf : Vector Byte sizeofSuperblock) {f : Process}

/-- The slots and the reads when a trusted superblock has been read. -/
theorem mount_truncated (hf : f.Fresh) (hio : f.disk.outcomes = [])
    (hlen : sizeofSuperblock ≤ f.disk.bytes.length) (htrust : (storedSBlock f.disk.bytes).Trusted) :
    (∀ i < storedCount f.disk.bytes,
      (sfsInit e buf f).inodeMemory i = image f.disk.bytes (inodePos i) sizeofFcb) ∧
    ∃ sb reads, (sfsInit e buf f).disk.log = f.disk.log ++ ([sb] ++ reads) ∧ sb.object = .sBlock ∧
      ReadsUpTo f.disk.bytes (storedCount f.disk.bytes) reads ∧
      ∀ i < storedCount f.disk.bytes, ∃ a ∈ reads, a.object = .inode i := by
  have hread : f.disk.outcomes.headD .complete = .complete := by rw [hio]; rfl
  obtain ⟨hret, hcopy⟩ := afterCopy_complete buf hread hlen
  obtain ⟨_, hbytes, hout, _⟩ := sBlockRead_of_complete hread 0 buf.toList
  obtain ⟨sb, hlog, hsb⟩ := log_afterCopy buf f
  rw [hio] at hout
  have hinit : sfsInit e buf f = readInodeTable (afterCopy buf f) := sfsInit_of_pos (by rw [hret]; decide)
  have hgeo : (afterCopy buf f).Geometry := by
    constructor <;> rw [hcopy]
    · exact htrust.numInodesPerBlock
    · exact htrust.inodeStartIndex
  have hcount : (afterCopy buf f).tbl.count = storedCount f.disk.bytes := by rw [Table.count, hcopy]; rfl
  obtain ⟨m, hend⟩ := loadedUpTo_readInodeTable hgeo hout hf.inodes (hcount ▸ htrust.count_le.2)
  obtain ⟨reads, hreads, hup⟩ := hend.reads
  obtain ⟨new, hnew, _, hall⟩ := indexes_readInodeTable (afterCopy buf f)
  rw [hreads, List.append_cancel_left_eq] at hnew
  subst hnew
  have hsame : (afterCopy buf f).disk.bytes = f.disk.bytes := hbytes
  rw [hcount, hsame] at hup
  rw [hinit]
  refine ⟨fun i hi => ?_, sb, reads, by rw [hreads, hlog, List.append_assoc], hsb, hup, fun i hi => ?_⟩
  · have hslot := hend.before i (by rw [hcount]; exact hi)
    rw [← hend.base, hsame] at hslot
    exact inodeMemory_of_recordAt hslot
  · exact hall i (Nat.zero_le i) (by rw [← hcount] at hi; exact hi)

/-- **When a disk file that ends early is loaded without touching anything else.** -/
theorem loadsTruncated_iff (hf : f.Fresh) (hio : f.disk.outcomes = [])
    (hlen : sizeofSuperblock ≤ f.disk.bytes.length) (htrust : (storedSBlock f.disk.bytes).Trusted) :
    LoadsTruncated f (sfsInit e buf f) ↔ inodePos (storedCount f.disk.bytes - 1) < f.disk.bytes.length := by
  obtain ⟨hslots, sb, reads, hlog, hsb, hreads, hall⟩ := mount_truncated e buf hf hio hlen htrust
  have hone : 1 ≤ storedCount f.disk.bytes := htrust.count_le.1
  have hlast : storedCount f.disk.bytes - 1 < storedCount f.disk.bytes := Nat.sub_lt hone Nat.one_pos
  constructor
  · intro h
    obtain ⟨a, ha, hobj⟩ := hall _ hlast
    obtain ⟨x, _, hobj', hstop, _⟩ := hreads a ha
    obtain rfl : storedCount f.disk.bytes - 1 = x := Object.inode.inj (hobj.symm.trans hobj')
    have hinside := h.inside a (by rw [hlog, List.drop_left' rfl]; exact List.mem_append_right _ ha) _ hobj
    by_contra hend
    -- the last read clears a whole block
    rw [Access.stored, if_pos (hstop.2 (Nat.not_lt.1 hend)), ← Nat.sub_add_cancel hone, Nat.add_sub_cancel,
      Nat.succ_mul] at hinside
    exact absurd (Nat.add_le_add_iff_left.1 hinside) (by decide)
  · intro hstart
    refine ⟨fun i hi _ => hslots i hi, fun i hi hend => ?_, fun a ha i hobj => ?_⟩
    · rw [hslots i hi, image_of_length_le _ hend]
    · rw [hlog, List.drop_left' rfl] at ha
      rcases List.mem_append.1 ha with ha | ha
      · rw [List.mem_singleton.1 ha, hsb] at hobj
        cases hobj
      · obtain ⟨x, hx, hobj', hstop, hle⟩ := hreads a ha
        obtain rfl : i = x := Object.inode.inj (hobj.symm.trans hobj')
        have hbefore : inodePos i < f.disk.bytes.length :=
          Nat.lt_of_le_of_lt (inodePos_mono (Nat.le_sub_one_of_lt hx)) hstart
        have hstored : a.stored ≤ sizeofFcb := by
          rw [Access.stored, if_neg (mt hstop.1 (Nat.not_le.2 hbefore))]
          exact Int.toNat_le.2 hle
        calc i * sizeofFcb + a.stored ≤ i * sizeofFcb + sizeofFcb := Nat.add_le_add_left hstored _
          _ = (i + 1) * sizeofFcb := (Nat.succ_mul i sizeofFcb).symm
          _ ≤ storedCount f.disk.bytes * sizeofFcb := Nat.mul_le_mul_right _ hx

end mount

/-- A superblock for all of `inodes[]`. -/
def fullTable : Superblock := { formatSBlock 200000 Superblock.zero with numInodes := 100 }

theorem trusted_fullTable : fullTable.Trusted := by
  have hformat : (formatSBlock 200000 Superblock.zero).Trusted :=
    (trusted_formatSBlock_iff (by decide)).2 ⟨by decide, by decide⟩
  obtain ⟨h1, _, _, h4, h5⟩ := hformat
  exact ⟨h1, by decide, by decide, h4, h5⟩

/-- A disk file that ends after it. -/
def sBlockOnly : Process := mountingBytes (Superblock.codec.enc fullTable)

theorem fresh_sBlockOnly : sBlockOnly.Fresh := fresh_mountingBytes _

theorem storedSBlock_sBlockOnly : storedSBlock sBlockOnly.disk.bytes = fullTable := by
  have hwidth : (Superblock.codec.enc fullTable).length = sizeofSuperblock := Superblock.codec.length_enc _
  change Superblock.codec.dec ((Superblock.codec.enc fullTable).take sizeofSuperblock) = fullTable
  rw [List.take_of_length_le (Nat.le_of_eq hwidth), Codec.dec_enc_self]

theorem length_sBlockOnly : sBlockOnly.disk.bytes.length = sizeofSuperblock := Superblock.codec.length_enc _

theorem loadsTruncated_sBlockOnly :
    LoadsTruncated sBlockOnly (sfsInit ⟨1000, 1000, 0⟩ zeroBuffer sBlockOnly) ↔
      inodePos (storedCount sBlockOnly.disk.bytes - 1) < sBlockOnly.disk.bytes.length :=
  loadsTruncated_iff _ _ fresh_sBlockOnly rfl (Nat.le_of_eq length_sBlockOnly.symm)
    (storedSBlock_sBlockOnly ▸ trusted_fullTable)

/-- The read of slot 99 clears 3256 bytes behind the array. -/
theorem loadsTruncated_fails : sBlockOnly.Fresh ∧ (storedSBlock sBlockOnly.disk.bytes).Trusted ∧
    sizeofSuperblock ≤ sBlockOnly.disk.bytes.length ∧
    ¬ LoadsTruncated sBlockOnly (sfsInit ⟨1000, 1000, 0⟩ zeroBuffer sBlockOnly) ∧
    ∃ a ∈ (sfsInit ⟨1000, 1000, 0⟩ zeroBuffer sBlockOnly).disk.log, a.object = .inode 99 ∧
      99 * sizeofFcb + a.stored = TABLE_SIZE * sizeofFcb + 3256 := by
  have htrust : (storedSBlock sBlockOnly.disk.bytes).Trusted := storedSBlock_sBlockOnly ▸ trusted_fullTable
  have hlen := Nat.le_of_eq length_sBlockOnly.symm
  have hcount : storedCount sBlockOnly.disk.bytes = 100 := by
    rw [storedCount, storedSBlock_sBlockOnly]
    decide
  obtain ⟨-, sb, reads, hlog, -, hreads, hall⟩ := mount_truncated ⟨1000, 1000, 0⟩ zeroBuffer
    fresh_sBlockOnly rfl hlen htrust
  obtain ⟨a, ha, hobj⟩ := hall 99 (by rw [hcount]; decide)
  obtain ⟨x, _, hobj', hstop, _⟩ := hreads a ha
  obtain rfl : 99 = x := Object.inode.inj (hobj.symm.trans hobj')
  have hend : sBlockOnly.disk.bytes.length ≤ inodePos 99 := by
    rw [length_sBlockOnly]
    exact Nat.le_trans (by decide) (inodeStart_le_inodePos 99)
  have hstored : a.stored = 4096 := by rw [Access.stored, if_pos (hstop.2 hend)]
  have hsize : sizeofFcb = 840 := rfl
  refine ⟨fresh_sBlockOnly, htrust, hlen, fun h => ?_, a, ?_, hobj, ?_⟩
  · have hinside := h.inside a (by rw [hlog, List.drop_left' rfl]; exact List.mem_append_right _ ha) 99 hobj
    rw [hstored, hcount, hsize] at hinside
    omega
  · rw [hlog]
    exact List.mem_append_right _ (List.mem_append_right _ ha)
  · rw [hstored]
    rfl

end Sfs
