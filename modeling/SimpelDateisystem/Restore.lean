import SimpelDateisystem.Remount

/-!
# Flush, then mount

What a second process finds after a first one has created and removed, flushed and ended.

* `restores_iff` — the slots come back iff the last one, which no flush writes, is described by what
  the disk file held in its place all along; on a file with zeros there, iff no create has taken it;
* `entry_remount_iff` — a directory entry comes back iff it was `NULL` or both processes are loaded
  at the same address: the disk holds the raw pointers.
-/

namespace Sfs

open Trace ByteFile CString

/-! ## The process between two calls -/

/-- What the calls keep, `s₀` being the process before the first. -/
structure Resident (s₀ s : Process) : Prop where
  inv : s.tbl.Inv
  geometry : s.Geometry
  count : s.tbl.count = s₀.tbl.count
  base : s.base = s₀.base

/-- What they keep besides when all writes complete: nobody writes the last record. -/
structure LastUnwritten (s₀ s : Process) : Prop where
  outcomes : s.disk.outcomes = []
  last : storedRecord s.disk.bytes (s₀.tbl.count - 1) = storedRecord s₀.disk.bytes (s₀.tbl.count - 1)

theorem Process.JustFormatted.resident {s : Process} (h : s.JustFormatted) : Resident s s :=
  ⟨h.inv, h.geometry, rfl, rfl⟩

section inodeStep

variable {s₀ s : Process} (h : Resident s₀ s) (c : InodeCall)

include h

theorem Resident.inodeStep : Resident s₀ (inodeStep s c) := by
  rcases inodeStep_flush h.inv c with heq | ⟨t, i, b, ht, hsb, heq⟩
  · rwa [heq]
  · rw [heq, flushAllInodesTodisk_false]
    refine ⟨ht, ⟨?_, ?_⟩, ?_, h.base⟩
    · simp only [hsb]; exact h.geometry.numInodesPerBlock
    · simp only [hsb]; exact h.geometry.inodeStartIndex
    · simp only [Table.count, hsb]; exact h.count

theorem Resident.lastUnwritten_inodeStep (hlast : LastUnwritten s₀ s) : LastUnwritten s₀ (Sfs.inodeStep s c) := by
  have hnext := h.inodeStep c
  rcases inodeStep_flush h.inv c with heq | ⟨t, i, b, ht, hsb, heq⟩
  · rwa [heq]
  · rw [heq] at hnext ⊢
    have hgeo : Process.Geometry { s with tbl := t } := by
      constructor <;> simp only [hsb]
      · exact h.geometry.numInodesPerBlock
      · exact h.geometry.inodeStartIndex
    have hcount : t.count = s₀.tbl.count := by
      simpa only [tbl_flush] using hnext.count
    have h2 := ht.two_le
    obtain ⟨hflush, hout⟩ := flush_complete hgeo hlast.outcomes
    refine ⟨hout, ?_⟩
    rw [← hlast.last, storedRecord, hflush.last (s₀.tbl.count - 1) (show t.count ≤ _ by omega), storedRecord]

end inodeStep

section fuseStep

variable {s₀ s : Process} (h : Resident s₀ s) (c : FuseCall)

include h

theorem Resident.fuseStep : Resident s₀ (fuseStep s c) := by
  obtain ⟨errno, heq⟩ := fuseStep_eq s c
  rw [heq]
  cases c.inodeCall with
  | none => exact ⟨h.inv, ⟨h.geometry.1, h.geometry.2⟩, h.count, h.base⟩
  | some d =>
    have hd := h.inodeStep d
    exact ⟨hd.inv, ⟨hd.geometry.1, hd.geometry.2⟩, hd.count, hd.base⟩

theorem Resident.lastUnwritten_fuseStep (hlast : LastUnwritten s₀ s) : LastUnwritten s₀ (Sfs.fuseStep s c) := by
  obtain ⟨errno, heq⟩ := fuseStep_eq s c
  rw [heq]
  cases c.inodeCall with
  | none => exact ⟨hlast.outcomes, hlast.last⟩
  | some d =>
    have hd := h.lastUnwritten_inodeStep d hlast
    exact ⟨hd.outcomes, hd.last⟩

/-- A slot stays untouched until a call takes it. -/
theorem Resident.unused_fuseStep_iff {y : Nat} (h1 : 1 ≤ y) (hy : y < TABLE_SIZE) :
    (Sfs.fuseStep s c).tbl.Unused y ↔ s.tbl.Unused y ∧ ∀ p mode parent, ¬ c.Takes s.tbl p mode y parent := by
  by_cases hc : c.NonRoot
  · rcases fuseStep_cases h.inv hc with ⟨p, mode, i, parent, ht, htbl⟩ | ⟨p, f, hp, hf, htbl⟩ | ⟨hno, _, htbl⟩
    · rw [htbl]
      by_cases hyi : y = i
      · subst hyi
        have hused : (s.tbl.created c.env p mode y parent).Used y := h.inv.used_created ht.2.2 ht.2.1 (.inl rfl)
        exact ⟨fun hu => absurd hused (hu.not_used h1 hy), fun hu => absurd ht (hu.2 p mode parent)⟩
      · refine ⟨fun hu => ⟨?_, fun q m d hd => hyi (hd.inj ht).2.2.1⟩,
          fun hu => h.inv.unused_created ht.2.2 ht.2.1 h1 hy hyi hu.1⟩
        refine (h.inv.slot y h1 hy).resolve_right fun hused => hu.not_used h1 hy ?_
        exact h.inv.used_created ht.2.2 ht.2.1 (.inr hused)
    · rw [htbl]
      obtain ⟨_, hlt, hfu⟩ := h.inv.lookup_used hp hf.2
      refine ⟨fun hu => ⟨?_, fun q m d hd => hd.not_frees hf⟩, fun hu => h.inv.unused_removed hlt hfu hu.1⟩
      exact (h.inv.slot y h1 hy).resolve_right fun hused => hu.not_used h1 hy (h.inv.used_removed hfu hused)
    · rw [htbl]
      exact (and_iff_left fun p mode parent => hno p mode y parent).symm
  · rw [tbl_fuseStep_root h.inv hc]
    refine (and_iff_left fun p mode parent ht => ?_).symm
    have hcall := ht.1
    rw [FuseCall.inodeCall_root hc] at hcall
    cases hcall

end fuseStep

/-! ## The second process -/

/-- A process about to mount, loaded anywhere, the disk file `s` has flushed to. -/
structure MountsAfter (s f : Process) : Prop where
  fresh : f.Fresh
  outcomes : f.disk.outcomes = []
  bytes : f.disk.bytes = (flushAllInodesTodisk false s).2.disk.bytes

theorem MountsAfter.holdsFlushed {s₀ s f : Process} (hf : MountsAfter s f) (h : Resident s₀ s)
    (hout : s.disk.outcomes = []) : HoldsFlushed s f.disk.bytes := by
  have h2 := h.inv.two_le
  rw [hf.bytes]
  exact (flush_complete h.geometry hout).1

theorem MountsAfter.mounted {s₀ s f : Process} (hf : MountsAfter s f) (h : Resident s₀ s)
    (hout : s.disk.outcomes = []) (e : Env) (buf : Vector Byte sizeofSuperblock) :
    Mounted s f (sfsInit e buf f) :=
  mount_complete h.geometry h.inv.le_size hf.fresh hf.outcomes (hf.holdsFlushed h hout) e buf

/-! ## The slots -/

/-- Two records agree in everything but `block`, the padding and `dirContents`. -/
structure SameRecord {π ρ : Type} (f : FileControlBlock π) (g : FileControlBlock ρ) : Prop where
  fileName : f.fileName = g.fileName
  fileSize : f.fileSize = g.fileSize
  numBlocks : f.numBlocks = g.numBlocks
  inumber : f.inumber = g.inumber
  parentInumber : f.parentInumber = g.parentInumber
  parentDir : f.parentDir = g.parentDir
  mode : f.mode = g.mode
  uid : f.uid = g.uid
  time : f.time = g.time

theorem sameRecord_mapPtr {π ρ τ : Type} (k : π → τ) (f : FileControlBlock π) (g : FileControlBlock ρ) :
    SameRecord (f.mapPtr k) g ↔ SameRecord f g :=
  ⟨fun ⟨h1, h2, h3, h4, h5, h6, h7, h8, h9⟩ => ⟨h1, h2, h3, h4, h5, h6, h7, h8, h9⟩,
    fun ⟨h1, h2, h3, h4, h5, h6, h7, h8, h9⟩ => ⟨h1, h2, h3, h4, h5, h6, h7, h8, h9⟩⟩

/-- The table `t'` of the second process has the superblock and the slots of `t`. -/
structure Restores (t t' : Table) : Prop where
  magicNum : t'.sBlock.magicNum = t.sBlock.magicNum
  numInodes : t'.sBlock.numInodes = t.sBlock.numInodes
  numInodesPerBlock : t'.sBlock.numInodesPerBlock = t.sBlock.numInodesPerBlock
  inodeStartIndex : t'.sBlock.inodeStartIndex = t.sBlock.inodeStartIndex
  ibmap : t'.sBlock.ibmap = t.sBlock.ibmap
  record : ∀ i < t.count, SameRecord (t'.inodes i) (t.inodes i)

/-- All slots come back but the last, which is read from bytes the flush has not written. -/
theorem mount_restores_iff {s₀ s f : Process} (h : Resident s₀ s) (hlast : LastUnwritten s₀ s)
    (hf : MountsAfter s f) (e : Env) (buf : Vector Byte sizeofSuperblock) :
    Restores s.tbl (sfsInit e buf f).tbl ↔
      SameRecord (storedRecord s₀.disk.bytes (s₀.tbl.count - 1)) (s.tbl.inodes (s₀.tbl.count - 1)) := by
  have h2 := h.inv.two_le
  have hcount := h.count
  have hflush := hf.holdsFlushed h hlast.outcomes
  obtain ⟨⟨dbmap, hsb⟩, hrecord⟩ := hf.mounted h hlast.outcomes e buf
  have hstored : storedRecord f.disk.bytes (s₀.tbl.count - 1) = storedRecord s₀.disk.bytes (s₀.tbl.count - 1) := by
    rw [← hlast.last, storedRecord, hflush.last _ (by omega), storedRecord]
  have hiff : SameRecord ((sfsInit e buf f).tbl.inodes (s₀.tbl.count - 1)) (s.tbl.inodes (s₀.tbl.count - 1)) ↔
      SameRecord (storedRecord s₀.disk.bytes (s₀.tbl.count - 1)) (s.tbl.inodes (s₀.tbl.count - 1)) := by
    rw [hrecord _ (by omega), recordAt, hstored, sameRecord_mapPtr]
  rw [← hiff]
  refine ⟨fun hr => hr.record _ (by omega), fun hsame => ?_⟩
  constructor
  case record =>
    intro i hi
    by_cases hilast : i + 1 = s.tbl.count
    · rwa [show i = s₀.tbl.count - 1 by omega]
    · rw [hrecord i hi, hflush.recordAt f.base (by omega), sameRecord_mapPtr, sameRecord_mapPtr]
      exact ⟨rfl, rfl, rfl, rfl, rfl, rfl, rfl, rfl, rfl⟩
  all_goals rw [hsb]

/-- A record of zeros describes the last slot iff it is untouched. -/
theorem sameRecord_zero_iff {t : Table} {x : Nat} (h : t.Inv) (h1 : 1 ≤ x) (hx : x < TABLE_SIZE) :
    SameRecord (FileControlBlock.zero (0 : BitVec 64)) (t.inodes x) ↔ t.Unused x := by
  constructor
  · intro hsame
    refine (h.slot x h1 hx).resolve_right fun hu => ?_
    have := Table.ofNat_inj (x := 0) (by decide) hx (hsame.inumber.trans hu.inumber)
    omega
  · intro hu
    rw [hu.record]
    exact ⟨rfl, rfl, rfl, rfl, rfl, rfl, rfl, rfl, rfl⟩

section run

variable {s₀ f : Process} {cs : List FuseCall}

theorem resident_exec_fuseStep (hs : s₀.JustFormatted) (cs : List FuseCall) : Resident s₀ (exec fuseStep s₀ cs) := by
  have hstep : ∀ s c, Resident s₀ s → True → Resident s₀ (fuseStep s c) := fun _ c h _ => h.fuseStep c
  exact EachStep.invariant hstep hs.resident (eachStep_of_forall_mem s₀ cs fun _ _ => trivial)

theorem lastUnwritten_exec (hs : s₀.JustFormatted) (hio : s₀.disk.outcomes = []) (cs : List FuseCall) :
    LastUnwritten s₀ (exec fuseStep s₀ cs) := by
  have hstep : ∀ s c, Resident s₀ s ∧ LastUnwritten s₀ s → True →
      Resident s₀ (fuseStep s c) ∧ LastUnwritten s₀ (fuseStep s c) :=
    fun _ c h _ => ⟨h.1.fuseStep c, h.1.lastUnwritten_fuseStep c h.2⟩
  exact (EachStep.invariant hstep ⟨hs.resident, hio, rfl⟩ (eachStep_of_forall_mem s₀ cs fun _ _ => trivial)).2

/-- The last slot is untouched after a run iff no create has taken it. -/
theorem unused_last_exec_iff (hs : s₀.JustFormatted) :
    (exec fuseStep s₀ cs).tbl.Unused (s₀.tbl.count - 1) ↔
      EachStep fuseStep (fun s c => ∀ p mode parent, ¬ c.Takes s.tbl p mode (s₀.tbl.count - 1) parent) s₀ cs := by
  have h2 := hs.two_le
  have hsize := hs.le_size
  have hstart : s₀.tbl.Unused (s₀.tbl.count - 1) :=
    ⟨hs.tbl.inodes _ (by omega) (by omega), by rw [hs.tbl.ibit, if_neg (by omega)]⟩
  have hinv : ∀ s c, Resident s₀ s → Resident s₀ (fuseStep s c) := fun _ c h => h.fuseStep c
  rw [exec_iff_eachStep (P := fun s => s.tbl.Unused (s₀.tbl.count - 1)) hinv
    (fun s c h => h.unused_fuseStep_iff c (by omega) (by omega)) hs.resident]
  exact and_iff_right hstart

/-- **The slots come back iff the last one is described by what the disk file held in its place all
along**; where that is zeros, iff no create has taken the last slot. If nothing is read for one of the slots
96 to 99, `inode_read` clears bytes behind `inodes[99]`: for 97 to 100 inodes it is assumed that none of the
other globals lies there. -/
theorem restores_iff (hs : s₀.JustFormatted) (hio : s₀.disk.outcomes = [])
    (hf : MountsAfter (exec fuseStep s₀ cs) f) (e : Env) (buf : Vector Byte sizeofSuperblock) :
    (Restores (exec fuseStep s₀ cs).tbl (sfsInit e buf f).tbl ↔
      SameRecord (storedRecord s₀.disk.bytes (s₀.tbl.count - 1))
        ((exec fuseStep s₀ cs).tbl.inodes (s₀.tbl.count - 1))) ∧
    (storedRecord s₀.disk.bytes (s₀.tbl.count - 1) = .zero 0 →
      (Restores (exec fuseStep s₀ cs).tbl (sfsInit e buf f).tbl ↔
        EachStep fuseStep (fun s c => ∀ p mode parent, ¬ c.Takes s.tbl p mode (s₀.tbl.count - 1) parent)
          s₀ cs)) := by
  have h := resident_exec_fuseStep hs cs
  have h2 := hs.two_le
  have hsize := hs.le_size
  have hiff := mount_restores_iff h (lastUnwritten_exec hs hio cs) hf e buf
  refine ⟨hiff, fun hzero => ?_⟩
  rw [hiff, hzero, sameRecord_zero_iff h.inv (by omega) (by omega), unused_last_exec_iff hs]

end run

theorem storedRecord_formatted {diskSize : Int} {i : Nat} (h1 : 1 ≤ i) (hi : formatCount diskSize ≤ i + 1) :
    storedRecord (formatted diskSize).disk.bytes i = .zero 0 := by
  rw [← count_formatted] at hi
  rw [storedRecord, formatted, (formatDisk_complete _ rfl).2 i h1 hi, image_of_length_le _ (Nat.zero_le _),
    ← enc_zero, Codec.dec_enc_self]

/-- A process about to mount, loaded at `b`, the disk file that `s` flushes to. -/
def mounting (b : LoadAddress) (s : Process) : Process where
  tbl := ⟨Superblock.zero, fun _ => .zero .null⟩
  base := b
  behindSBlock := fun _ => 0
  diskSize := 0
  errno := 0
  disk := ⟨(flushAllInodesTodisk false s).2.disk.bytes, [], []⟩

theorem mountsAfter_mounting (b : LoadAddress) (s : Process) : MountsAfter s (mounting b s) :=
  ⟨⟨rfl, fun _ _ => rfl⟩, rfl, rfl⟩

/-- What such a process makes of it. -/
def remounted (b : LoadAddress) (s : Process) : Process :=
  sfsInit ⟨1000, 1000, 0⟩ (Vector.replicate sizeofSuperblock 0) (mounting b s)

/-- Another place to be loaded at. -/
def elsewhere : LoadAddress := ⟨0x705000#64, by decide, by decide⟩

/-- `/a` and `/b` fill a table of three slots. -/
def twoFiles : List FuseCall :=
  [⟨.create [.a] 0o644, ⟨1000, 1000, 0⟩⟩,
   ⟨.create [.b] 0o644, ⟨1000, 1000, 0⟩⟩]

theorem twoFiles_run : EachStep fuseStep ResolvingAdmits (formatted 200000) twoFiles ∧
    ((exec fuseStep (formatted 200000) twoFiles).tbl.inodes 2).inumber ≠ 0 := by
  decide +kernel

theorem outcomes_three : (formatted 200000).disk.outcomes = [] := (formatDisk_complete _ rfl).1

theorem restores_iff_twoFiles :
    let s₀ := formatted 200000
    let s := exec fuseStep s₀ twoFiles
    (Restores s.tbl (remounted s.base s).tbl ↔
      SameRecord (storedRecord s₀.disk.bytes (s₀.tbl.count - 1)) (s.tbl.inodes (s₀.tbl.count - 1))) ∧
    (storedRecord s₀.disk.bytes (s₀.tbl.count - 1) = .zero 0 →
      (Restores s.tbl (remounted s.base s).tbl ↔
        EachStep fuseStep (fun s c => ∀ p mode parent, ¬ c.Takes s.tbl p mode (s₀.tbl.count - 1) parent)
          s₀ twoFiles)) :=
  restores_iff justFormatted_three outcomes_three (mountsAfter_mounting _ _) _ _

/-- The slot of `/b` is the last one; the mount finds no inode in it. -/
theorem restores_fails : EachStep fuseStep ResolvingAdmits (formatted 200000) twoFiles ∧
    ¬ Restores (exec fuseStep (formatted 200000) twoFiles).tbl
      (remounted (formatted 200000).base (exec fuseStep (formatted 200000) twoFiles)).tbl := by
  obtain ⟨hadmits, hnum⟩ := twoFiles_run
  refine ⟨hadmits, fun hr => hnum ?_⟩
  have hsame := (mount_restores_iff (resident_exec_fuseStep justFormatted_three twoFiles)
    (lastUnwritten_exec justFormatted_three outcomes_three twoFiles) (mountsAfter_mounting _ _) _ _).1 hr
  rw [count_formatted, formatCount_three, storedRecord_formatted (by decide) (by rw [formatCount_three])] at hsame
  exact hsame.inumber.symm

/-! ## The directory entries -/

section entries

variable {s₀ s f : Process}

theorem resident_exec_inodeStep (hs : s₀.JustFormatted) (cs : List InodeCall) :
    Resident s₀ (exec inodeStep s₀ cs) := by
  have hstep : ∀ s c, Resident s₀ s → True → Resident s₀ (Sfs.inodeStep s c) := fun _ c h _ => h.inodeStep c
  exact EachStep.invariant hstep hs.resident (eachStep_of_forall_mem s₀ cs fun _ _ => trivial)

theorem entry_mapPtr (b b' : LoadAddress) (g : FileControlBlock Ptr) (k : Nat) :
    ((g.mapPtr b.encode).mapPtr b'.decode).entry k = b'.decode (b.encode (g.entry k)) := by
  have hdec := Cells.peek_map b'.decode 0 (g.dirContents.map b.encode) k
  have henc := Cells.peek_map b.encode .null g.dirContents k
  rw [LoadAddress.decode_zero] at hdec
  rw [LoadAddress.encode_null] at henc
  exact hdec.trans (congrArg b'.decode henc)

/-- The second process reads the addresses of the first with its own. -/
theorem entry_mount (h : Resident s₀ s) (hout : s.disk.outcomes = []) (hf : MountsAfter s f) (e : Env)
    (buf : Vector Byte sizeofSuperblock) {d : Nat} (hd : d + 1 < s.tbl.count) (k : Nat) :
    ((sfsInit e buf f).tbl.inodes d).entry k = f.base.decode (s.base.encode ((s.tbl.inodes d).entry k)) := by
  rw [(hf.mounted h hout e buf).record d (by omega), (hf.holdsFlushed h hout).recordAt f.base hd, entry_mapPtr]

/-- **An entry comes back iff it was `NULL` or both processes are loaded at the same address.** -/
theorem entry_remount_iff (hs : s₀.JustFormatted) {cs : List InodeCall}
    (hio : (exec inodeStep s₀ cs).disk.outcomes = []) (hf : MountsAfter (exec inodeStep s₀ cs) f) (e : Env)
    (buf : Vector Byte sizeofSuperblock) {d k : Nat} (hd : d + 1 < s₀.tbl.count) (hk : k < MAX_FILES_IN_DIR) :
    ((sfsInit e buf f).tbl.inodes d).entry k = ((exec inodeStep s₀ cs).tbl.inodes d).entry k ↔
      ((exec inodeStep s₀ cs).tbl.inodes d).entry k = .null ∨ s₀.base.addr = f.base.addr := by
  have h := resident_exec_inodeStep hs cs
  have hsize := hs.le_size
  rw [entry_mount h hio hf e buf (by rw [h.count]; exact hd), ← h.base]
  by_cases hnull : ((exec inodeStep s₀ cs).tbl.inodes d).entry k = .null
  · rw [hnull, LoadAddress.encode_null, LoadAddress.decode_zero]
    exact iff_of_true rfl (.inl rfl)
  · obtain ⟨x, hx, _, hlt, _⟩ := h.inv.entry d (by omega) k hk hnull
    rw [hx, LoadAddress.decode_encode_iff _ _ (Nat.lt_of_lt_of_le hlt h.inv.le_size)]
    simp

end entries

/-- `/a` is created. -/
def oneFile : List InodeCall := [⟨.create [.a] 0o644, ⟨1000, 1000, 0⟩⟩]

theorem oneFile_run : (exec inodeStep (formatted 200000) oneFile).disk.outcomes = [] ∧
    ((exec inodeStep (formatted 200000) oneFile).tbl.inodes 0).entry 0 = .inode 1 ∧
    (exec inodeStep (formatted 200000) oneFile).base.addr ≠ elsewhere.addr := by
  decide +kernel

theorem one_lt_count_three : 0 + 1 < (formatted 200000).tbl.count := by
  rw [count_formatted, formatCount_three]; decide

theorem entry_remount_iff_oneFile :
    ((remounted elsewhere (exec inodeStep (formatted 200000) oneFile)).tbl.inodes 0).entry 0 =
        ((exec inodeStep (formatted 200000) oneFile).tbl.inodes 0).entry 0 ↔
      ((exec inodeStep (formatted 200000) oneFile).tbl.inodes 0).entry 0 = .null ∨
        (formatted 200000).base.addr = elsewhere.addr := by
  rw [remounted]
  exact entry_remount_iff justFormatted_three oneFile_run.1 (mountsAfter_mounting elsewhere _) _ _
    one_lt_count_three (by decide)

/-- The entry of `/a` points nowhere when the program is loaded elsewhere. -/
theorem entry_remount_fails :
    ((exec inodeStep (formatted 200000) oneFile).tbl.inodes 0).entry 0 = .inode 1 ∧
    ((remounted elsewhere (exec inodeStep (formatted 200000) oneFile)).tbl.inodes 0).entry 0 ≠ .inode 1 := by
  obtain ⟨hout, hentry, hbase⟩ := oneFile_run
  have h := resident_exec_inodeStep justFormatted_three oneFile
  refine ⟨hentry, ?_⟩
  rw [remounted, entry_mount h hout (mountsAfter_mounting elsewhere _) _ _ (by rw [h.count]; exact one_lt_count_three)
    0, hentry, ne_eq, LoadAddress.decode_encode_iff _ _ (by decide)]
  exact hbase

end Sfs
