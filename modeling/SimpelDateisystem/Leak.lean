import SimpelDateisystem.Flush

/-!
# Does memory behind the superblock reach the disk?

`formatDisk` writes `sizeof(superblock)` = 11744 bytes of the superblock, the later flushes write
`BLOCK_SIZE * inodeStartIndex` = 12288 bytes from the same address (`DateiSteuerBlock.c:480`): 544 bytes
of whatever lies behind `sBlockData`. `flushConfined_iff`: two runs that differ only there leave the
same disk iff they agree on the part of it that `pwrite` takes.
-/

namespace Sfs

open ByteFile CString

/-- The bytes of an object in memory. -/
def Object.size : Object → Nat
  | .sBlock => sizeofSuperblock
  | .inode _ => sizeofFcb

/-- No `pwrite` of an object takes more bytes than it holds. -/
def Confined (log : List Access) : Prop := ∀ a ∈ log, a.kind = .write → a.size ≤ a.object.size

/-- None of those made since `s`. -/
def WritesConfined (s : Process) (d' : Disk) : Prop := Confined (d'.log.drop s.disk.log.length)

/-- Two processes that differ at most in the memory behind `sBlockData`. -/
structure AlikeButBehind (s s' : Process) : Prop where
  sBlock : s'.tbl.sBlock = s.tbl.sBlock
  inodes : ∀ x < TABLE_SIZE, s'.inodeMemory x = s.inodeMemory x
  disk : s'.disk = s.disk

/-- What the two calls for the superblock make of their 12288 bytes. -/
def Process.sBlockTransfers (s : Process) : Option Nat × Option Nat :=
  ((s.disk.outcomes.getD 0 .complete).transferred (inodeStart * BLOCK_SIZE),
    (s.disk.outcomes.getD 1 .complete).transferred (inodeStart * BLOCK_SIZE))

/-- The bytes from behind `sBlockData` that a flush writes. -/
def leaked (s : Process) : Nat :=
  match s.sBlockTransfers with
  | (some _, some m) => m - sizeofSuperblock
  | _ => 0

theorem getD_zero_outcomes (d : Disk) : d.outcomes.getD 0 .complete = d.outcomes.headD .complete := by
  cases d.outcomes <;> rfl

/-! ## Two disks written alike -/

/-- The same outcomes to come, the same length, the same bytes from `low` on. -/
structure AgreeFrom (low : Nat) (d d' : Disk) : Prop where
  outcomes : d'.outcomes = d.outcomes
  length : d'.bytes.length = d.bytes.length
  bytes : ∀ k, low ≤ k → byteAt d'.bytes k = byteAt d.bytes k

/-- They hold the same iff they do below `low`. -/
theorem AgreeFrom.bytes_eq_iff {low : Nat} {d d' : Disk} (h : AgreeFrom low d d') :
    d'.bytes = d.bytes ↔ ∀ k < low, byteAt d'.bytes k = byteAt d.bytes k := by
  constructor
  · intro heq k _
    rw [heq]
  · intro hlow
    refine ext_byteAt h.length fun k => ?_
    by_cases hk : k < low
    · exact hlow k hk
    · exact h.bytes k (Nat.not_lt.1 hk)

/-- What one `pwrite` does to the bytes. -/
theorem bytes_pwrite_cases (d : Disk) (kind : Kind) (object : Object) (buf : List UInt8) (pos : Nat) :
    ((d.outcomes.headD .complete).transferred buf.length = none ∧ (d.pwrite kind object buf pos).1 = -1 ∧
      (d.pwrite kind object buf pos).2.bytes = d.bytes) ∨
    ∃ m, (d.outcomes.headD .complete).transferred buf.length = some m ∧ (d.pwrite kind object buf pos).1 = m ∧
      (d.pwrite kind object buf pos).2.bytes = write d.bytes pos (buf.take m) := by
  have hnext := d.next_natCast pos buf.length
  unfold Disk.pwrite
  cases h : (d.outcomes.headD .complete).transferred buf.length with
  | none =>
    rw [hnext, h]
    exact .inl ⟨rfl, rfl, rfl⟩
  | some m =>
    rw [hnext, h]
    exact .inr ⟨m, rfl, rfl, rfl⟩

/-- A padded write stops after the padding if that fails. -/
theorem writePadded_cases (d : Disk) (object : Object) (buf : List UInt8) (pos : Nat) :
    let padded := d.pwrite .pad object (List.replicate buf.length digitZero) pos
    ((d.outcomes.headD .complete).transferred buf.length = none ∧ d.writePadded object buf pos = padded) ∨
    ∃ m, (d.outcomes.headD .complete).transferred buf.length = some m ∧
      d.writePadded object buf pos = padded.2.pwrite .write object buf pos := by
  intro padded
  have hcases := bytes_pwrite_cases d .pad object (List.replicate buf.length digitZero) pos
  rw [List.length_replicate] at hcases
  rcases hcases with ⟨hnone, hret, -⟩ | ⟨m, hsome, hret, -⟩
  · have hneg : ¬ 0 ≤ padded.1 := by rw [hret]; decide
    exact .inl ⟨hnone, if_neg hneg⟩
  · have hpos : 0 ≤ padded.1 := by rw [hret]; exact Int.natCast_nonneg m
    exact .inr ⟨m, hsome, if_pos hpos⟩

section agree

variable {low : Nat} {d d' : Disk} (object : Object) {buf buf' : List UInt8} {pos : Nat}

/-- Buffers of one length, equal where the disks are to agree. -/
theorem AgreeFrom.pwrite (kind : Kind) (h : AgreeFrom low d d') (hlen : buf'.length = buf.length)
    (hbuf : ∀ k, low ≤ pos + k → byteAt buf' k = byteAt buf k) :
    AgreeFrom low (d.pwrite kind object buf pos).2 (d'.pwrite kind object buf' pos).2 ∧
    (d'.pwrite kind object buf' pos).1 = (d.pwrite kind object buf pos).1 := by
  have hout : (d'.pwrite kind object buf' pos).2.outcomes = (d.pwrite kind object buf pos).2.outcomes := by
    rw [Disk.outcomes_pwrite, Disk.outcomes_pwrite, h.outcomes]
  rcases bytes_pwrite_cases d kind object buf pos with ⟨hnone, hret, hbytes⟩ | ⟨m, hsome, hret, hbytes⟩ <;>
    rcases bytes_pwrite_cases d' kind object buf' pos with ⟨hnone', hret', hbytes'⟩ | ⟨m', hsome', hret', hbytes'⟩
  · exact ⟨⟨hout, by rw [hbytes, hbytes', h.length], fun k hk => by rw [hbytes, hbytes', h.bytes k hk]⟩,
      by rw [hret, hret']⟩
  · rw [h.outcomes, hlen, hnone] at hsome'
    cases hsome'
  · rw [h.outcomes, hlen, hsome] at hnone'
    cases hnone'
  · rw [h.outcomes, hlen, hsome] at hsome'
    cases hsome'
    have htake : (buf'.take m).length = (buf.take m).length := by rw [List.length_take, List.length_take, hlen]
    refine ⟨⟨hout, ?_, fun k hk => ?_⟩, by rw [hret, hret']⟩
    · rw [hbytes, hbytes', length_write_congr pos h.length htake]
    · rw [hbytes, hbytes', byteAt_write, byteAt_write, htake, h.bytes k hk]
      split
      · rw [byteAt_take, byteAt_take, hbuf (k - pos) (by omega)]
      · rfl

theorem AgreeFrom.writePadded (h : AgreeFrom low d d') (hlen : buf'.length = buf.length)
    (hbuf : ∀ k, low ≤ pos + k → byteAt buf' k = byteAt buf k) :
    AgreeFrom low (d.writePadded object buf pos).2 (d'.writePadded object buf' pos).2 := by
  obtain ⟨hpad, hret⟩ : AgreeFrom low (d.pwrite .pad object (List.replicate buf.length digitZero) pos).2 _ ∧ _ :=
    h.pwrite object .pad rfl fun _ _ => rfl
  simp only [Disk.writePadded, hlen, hret]
  split
  · exact (hpad.pwrite object .write hlen hbuf).1
  · exact hpad

/-- A padded write leaves the bytes before its place alone. -/
theorem byteAt_writePadded (d : Disk) (buf : List UInt8) {k : Nat} (hk : k < pos) :
    byteAt (d.writePadded object buf pos).2.bytes k = byteAt d.bytes k := by
  have hone : ∀ (d : Disk) (kind : Kind) (buf : List UInt8),
      byteAt (d.pwrite kind object buf pos).2.bytes k = byteAt d.bytes k := by
    intro d kind buf
    rcases bytes_pwrite_cases d kind object buf pos with ⟨_, _, hbytes⟩ | ⟨m, _, _, hbytes⟩
    · rw [hbytes]
    · rw [hbytes, byteAt_write, if_neg (by omega)]
  simp only [Disk.writePadded]
  split
  · rw [hone, hone]
  · rw [hone]

end agree

/-! ## Two flushes -/

section table

variable {sb sb' : List UInt8} (mem : Nat → List UInt8) (d : Disk)

theorem agreeFrom_writeTable (hlen : sb'.length = sb.length) :
    ∀ n : Nat, AgreeFrom sb.length (writeTable sb mem inodePos n d) (writeTable sb' mem inodePos n d)
  | 0 => by
    have hsame : AgreeFrom sb.length d d := ⟨rfl, rfl, fun _ _ => rfl⟩
    refine AgreeFrom.writePadded .sBlock hsame hlen fun k hk => ?_
    rw [Nat.zero_add] at hk
    rw [byteAt, byteAt, List.getElem?_eq_none (by omega), List.getElem?_eq_none hk]
  | n + 1 => (agreeFrom_writeTable hlen n).writePadded (.inode n) rfl fun _ _ => rfl

/-- The records leave the blocks of the superblock alone. -/
theorem byteAt_writeTable (sb : List UInt8) {k : Nat} (hk : k < inodeStart * BLOCK_SIZE) :
    ∀ n : Nat, byteAt (writeTable sb mem inodePos n d).bytes k = byteAt (writeTable sb mem inodePos 0 d).bytes k
  | 0 => rfl
  | n + 1 =>
    (byteAt_writePadded _ _ _ (Nat.lt_of_lt_of_le hk (inodeStart_le_inodePos n))).trans (byteAt_writeTable sb hk n)

/-- So the disks are the same at the end iff they are once the superblock is written. -/
theorem bytes_writeTable_eq_iff (hlen : sb'.length = sb.length) (hfits : sb.length ≤ inodeStart * BLOCK_SIZE)
    (n : Nat) : (writeTable sb' mem inodePos n d).bytes = (writeTable sb mem inodePos n d).bytes ↔
      (writeTable sb' mem inodePos 0 d).bytes = (writeTable sb mem inodePos 0 d).bytes := by
  rw [(agreeFrom_writeTable mem d hlen n).bytes_eq_iff, (agreeFrom_writeTable mem d hlen 0).bytes_eq_iff]
  refine forall_congr' fun k => imp_congr_right fun hk => ?_
  rw [byteAt_writeTable mem d sb (by omega) n, byteAt_writeTable mem d sb' (by omega) n]

end table

/-- What is written can be told from the disk, as far as it is transferred. -/
theorem bytes_pwrite_eq_iff (d : Disk) (kind : Kind) (object : Object) {buf buf' : List UInt8} (pos : Nat)
    (hlen : buf'.length = buf.length) :
    (d.pwrite kind object buf' pos).2.bytes = (d.pwrite kind object buf pos).2.bytes ↔
      ∀ m, (d.outcomes.headD .complete).transferred buf.length = some m → buf'.take m = buf.take m := by
  have hcases' := bytes_pwrite_cases d kind object buf' pos
  rw [hlen] at hcases'
  rcases bytes_pwrite_cases d kind object buf pos with ⟨hnone, -, hbytes⟩ | ⟨m, hsome, -, hbytes⟩ <;>
    rcases hcases' with ⟨hnone', -, hbytes'⟩ | ⟨m', hsome', -, hbytes'⟩
  · rw [hnone]
    exact iff_of_true (hbytes'.trans hbytes.symm) fun _ h => by cases h
  · rw [hnone] at hsome'
    cases hsome'
  · rw [hsome] at hnone'
    cases hnone'
  · rw [hsome] at hsome'
    cases hsome'
    have htake : (buf'.take m).length = (buf.take m).length := by rw [List.length_take, List.length_take, hlen]
    refine (Eq.congr hbytes' hbytes).trans ((write_left_inj d.bytes pos htake).trans ?_)
    rw [hsome]
    constructor
    · rintro h _ ⟨⟩
      exact h
    · intro h
      exact h m rfl

/-- The two calls for the superblock. -/
theorem bytes_writeSBlock_eq_iff (d : Disk) {sb sb' : List UInt8} (hlen : sb'.length = sb.length) :
    (d.writePadded .sBlock sb' 0).2.bytes = (d.writePadded .sBlock sb 0).2.bytes ↔
      ∀ m₀ m, (d.outcomes.getD 0 .complete).transferred sb.length = some m₀ →
        (d.outcomes.getD 1 .complete).transferred sb.length = some m → sb'.take m = sb.take m := by
  have hsecond : d.outcomes.getD 1 .complete = d.outcomes.tail.headD .complete := by
    rcases d.outcomes with _ | ⟨_, _ | ⟨_, _⟩⟩ <;> rfl
  have hcases : _ ∨ ∃ m, _ := writePadded_cases d .sBlock sb 0
  have hcases' : _ ∨ ∃ m, _ := writePadded_cases d .sBlock sb' 0
  rw [hlen] at hcases'
  rw [getD_zero_outcomes, hsecond]
  rcases hcases with ⟨hnone, heq⟩ | ⟨m₀, hsome, heq⟩ <;> rcases hcases' with ⟨hnone', heq'⟩ | ⟨m₀', hsome', heq'⟩
  · rw [hnone]
    exact iff_of_true (congrArg (·.2.bytes) (heq'.trans heq.symm)) fun _ _ h => by cases h
  · rw [hnone] at hsome'
    cases hsome'
  · rw [hsome] at hnone'
    cases hnone'
  · rw [hsome, ← Disk.outcomes_pwrite .pad .sBlock (List.replicate sb.length digitZero) 0]
    refine (Eq.congr (congrArg (·.2.bytes) heq') (congrArg (·.2.bytes) heq)).trans
      ((bytes_pwrite_eq_iff _ .write .sBlock 0 hlen).trans ?_)
    constructor
    · rintro h _ m - hm
      exact h m hm
    · intro h m hm
      exact h m₀ m rfl hm

/-- Only the records below `n` matter. -/
theorem writeTable_congr (sb : List UInt8) {mem mem' : Nat → List UInt8} (d : Disk) :
    ∀ {n : Nat}, (∀ i < n, mem' i = mem i) → writeTable sb mem' inodePos n d = writeTable sb mem inodePos n d
  | 0, _ => rfl
  | n + 1, h => by
    rw [writeTable, writeTable, writeTable_congr sb d fun i hi => h i (Nat.lt_succ_of_lt hi), h n (Nat.lt_add_one n)]

/-- The first `m` bytes from `sBlockData` on. -/
theorem take_sBlockMemory_eq_iff {s s' : Process} (h : s'.tbl.sBlock = s.tbl.sBlock) {size m : Nat} (hm : m ≤ size) :
    (s'.sBlockMemory size).take m = (s.sBlockMemory size).take m ↔
      ∀ j < m - sizeofSuperblock, s'.behindSBlock j = s.behindSBlock j := by
  have htake : ∀ r : Process, (r.sBlockMemory size).take m = (Superblock.codec.enc r.tbl.sBlock).take m ++
      (List.range (m - sizeofSuperblock)).map r.behindSBlock := by
    intro r
    have hwidth : (Superblock.codec.enc r.tbl.sBlock).length = sizeofSuperblock := Superblock.codec.length_enc _
    rw [Process.sBlockMemory, List.take_take, Nat.min_eq_left hm, List.take_append, hwidth, ← List.map_take,
      List.take_range, Nat.min_eq_left (by omega)]
  rw [htake s, htake s', h, List.append_cancel_left_eq, List.map_inj_left]
  exact forall_congr' fun j => by rw [List.mem_range]

/-- **Two flushes** that differ behind the superblock leave the same disk iff what is leaked is the
same. -/
theorem bytes_flush_eq_iff {s s' : Process} (hs : s.Geometry) (hsize : s.tbl.count ≤ TABLE_SIZE)
    (h : AlikeButBehind s s') :
    (flushAllInodesTodisk false s').2.disk.bytes = (flushAllInodesTodisk false s).2.disk.bytes ↔
      ∀ j < leaked s, s'.behindSBlock j = s.behindSBlock j := by
  have hs' : s'.Geometry := ⟨by rw [h.sBlock]; exact hs.1, by rw [h.sBlock]; exact hs.2⟩
  have hcount : s'.tbl.count = s.tbl.count := by rw [Table.count, Table.count, h.sBlock]
  have hlen := length_sBlockMemory s (inodeStart * BLOCK_SIZE)
  have hlen' := length_sBlockMemory s' (inodeStart * BLOCK_SIZE)
  have hmem : ∀ i < s.tbl.count - 1, s'.inodeMemory i = s.inodeMemory i := fun i hi => h.inodes i (by omega)
  rw [disk_flush_of_geometry hs, disk_flush_of_geometry hs', h.disk, hcount, writeTable_congr _ _ hmem,
    bytes_writeTable_eq_iff s.inodeMemory s.disk (hlen'.trans hlen.symm) (Nat.le_of_eq hlen)]
  refine (bytes_writeSBlock_eq_iff s.disk (hlen'.trans hlen.symm)).trans ?_
  rw [hlen, leaked, Process.sBlockTransfers]
  cases (s.disk.outcomes.getD 0 .complete).transferred (inodeStart * BLOCK_SIZE) with
  | none => exact iff_of_true (fun _ _ h => by cases h) fun j hj => absurd hj (Nat.not_lt_zero j)
  | some m₀ =>
    cases hsecond : (s.disk.outcomes.getD 1 .complete).transferred (inodeStart * BLOCK_SIZE) with
    | none => exact iff_of_true (fun _ _ _ h => by cases h) fun j hj => absurd hj (Nat.not_lt_zero j)
    | some m =>
      rw [← take_sBlockMemory_eq_iff h.sBlock (Outcome.transferred_le hsecond)]
      constructor
      · intro heq
        exact heq m₀ m rfl rfl
      · rintro heq _ _ - ⟨⟩
        exact heq

/-! ## The sizes of the writes -/

/-- A padded write of `buf` is confined iff its buffer is no larger than the object, or the write of
the padding fails. -/
theorem confined_writePadded (d : Disk) (object : Object) (buf : List UInt8) (pos : Nat) :
    ∃ new, (d.writePadded object buf pos).2.log = d.log ++ new ∧ (Confined new ↔
      (d.outcomes.headD .complete).transferred buf.length = none ∨ buf.length ≤ object.size) := by
  rcases writePadded_cases d object buf pos with ⟨hnone, heq⟩ | ⟨m, hsome, heq⟩
  · rw [heq]
    refine ⟨_, log_pwrite _ _ _ _ _, iff_of_true (fun a ha hkind => ?_) (.inl hnone)⟩
    rw [List.mem_singleton] at ha
    subst ha
    cases hkind
  · rw [heq, hsome]
    refine ⟨_, by rw [log_pwrite, log_pwrite, List.append_assoc], ?_⟩
    constructor
    · intro hconf
      exact .inr (hconf _ (List.mem_append_right _ (List.mem_singleton_self _)) rfl)
    · rintro (⟨⟨⟩⟩ | hle) a ha hkind
      rcases List.mem_append.1 ha with ha | ha <;> rw [List.mem_singleton] at ha <;> subst ha
      · cases hkind
      · exact hle

/-- Of the calls for the table, those for the records are confined. -/
theorem confined_writeTable {sb : List UInt8} {mem : Nat → List UInt8} (hmem : ∀ i, (mem i).length = sizeofFcb)
    (d : Disk) : ∀ n : Nat, ∃ new, (writeTable sb mem inodePos n d).log = d.log ++ new ∧ (Confined new ↔
      (d.outcomes.getD 0 .complete).transferred sb.length = none ∨ sb.length ≤ sizeofSuperblock)
  | 0 => by
    rw [getD_zero_outcomes]
    exact confined_writePadded d .sBlock sb 0
  | n + 1 => by
    obtain ⟨old, hold, hiff⟩ := confined_writeTable hmem d n
    obtain ⟨new, hnew, hrecord⟩ := confined_writePadded (writeTable sb mem inodePos n d) (.inode n) (mem n) (inodePos n)
    have hconf : Confined new := hrecord.2 (.inr (Nat.le_of_eq (hmem n)))
    refine ⟨old ++ new, by rw [writeTable, hnew, hold, List.append_assoc], Iff.trans ?_ hiff⟩
    constructor
    · intro hall a ha
      exact hall a (List.mem_append_left _ ha)
    · intro hall a ha
      exact (List.mem_append.1 ha).elim (hall a) (hconf a)

theorem writesConfined_iff {s : Process} (hs : s.Geometry) :
    WritesConfined s (flushAllInodesTodisk false s).2.disk ↔ s.sBlockTransfers.1 = none := by
  let sb := s.sBlockMemory (inodeStart * BLOCK_SIZE)
  obtain ⟨new, hlog, hiff⟩ : ∃ new, (writeTable sb s.inodeMemory inodePos (s.tbl.count - 1) s.disk).log = _ ∧ _ :=
    confined_writeTable (length_inodeMemory s) s.disk (s.tbl.count - 1)
  have hlarge : ¬ inodeStart * BLOCK_SIZE ≤ sizeofSuperblock := by decide
  rw [length_sBlockMemory, or_iff_left hlarge] at hiff
  rw [WritesConfined, disk_flush_of_geometry hs, hlog, List.drop_left' rfl]
  exact hiff

/-! ## The result -/

/-- **What of the memory behind the superblock reaches the disk**, and when the calls stay in bounds. -/
theorem flushConfined_iff {s s' : Process} (hs : s.Geometry) (hsize : s.tbl.count ≤ TABLE_SIZE)
    (h : AlikeButBehind s s') :
    ((flushAllInodesTodisk false s').2.disk.bytes = (flushAllInodesTodisk false s).2.disk.bytes ↔
      ∀ j < leaked s, s'.behindSBlock j = s.behindSBlock j) ∧
    (WritesConfined s (flushAllInodesTodisk false s).2.disk ↔ s.sBlockTransfers.1 = none) :=
  ⟨bytes_flush_eq_iff hs hsize h, writesConfined_iff hs⟩

/-- A table of three inodes, with this memory behind the superblock. -/
def followedBy (b : Byte) : Process := { formatted 200000 with behindSBlock := fun _ => b }

theorem alike_followedBy (b c : Byte) : AlikeButBehind (followedBy b) (followedBy c) :=
  ⟨rfl, fun _ _ => rfl, rfl⟩

theorem flushConfined_followedBy :
    ((flushAllInodesTodisk false (followedBy 1)).2.disk.bytes =
      (flushAllInodesTodisk false (followedBy 0)).2.disk.bytes ↔
        ∀ j < leaked (followedBy 0), (followedBy 1).behindSBlock j = (followedBy 0).behindSBlock j) ∧
    (WritesConfined (followedBy 0) (flushAllInodesTodisk false (followedBy 0)).2.disk ↔
      (followedBy 0).sBlockTransfers.1 = none) :=
  flushConfined_iff ⟨justFormatted_three.geometry.1, justFormatted_three.geometry.2⟩ justFormatted_three.le_size
    (alike_followedBy 0 1)

/-- All 12288 bytes go through, 544 of them from behind the superblock. -/
theorem flush_leaks : (followedBy 0).Geometry ∧ 2 ≤ (followedBy 0).tbl.count ∧
    (followedBy 0).tbl.count ≤ TABLE_SIZE ∧ AlikeButBehind (followedBy 0) (followedBy 1) ∧
    (flushAllInodesTodisk false (followedBy 1)).2.disk.bytes ≠
      (flushAllInodesTodisk false (followedBy 0)).2.disk.bytes ∧
    ¬ WritesConfined (followedBy 0) (flushAllInodesTodisk false (followedBy 0)).2.disk := by
  have hgeo : (followedBy 0).Geometry := ⟨justFormatted_three.geometry.1, justFormatted_three.geometry.2⟩
  have hsize : (followedBy 0).tbl.count ≤ TABLE_SIZE := justFormatted_three.le_size
  have hleaked : leaked (followedBy 0) = 544 := rfl
  refine ⟨hgeo, justFormatted_three.two_le, hsize, alike_followedBy 0 1, fun hsame => ?_, fun hconf => ?_⟩
  · have hzero := (bytes_flush_eq_iff hgeo hsize (alike_followedBy 0 1)).1 hsame 0 (by rw [hleaked]; decide)
    exact absurd hzero (by decide)
  · cases (writesConfined_iff hgeo).1 hconf

end Sfs
