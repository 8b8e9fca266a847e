import SimpelDateisystem.Knoten
import SimpelDateisystem.Lib.ByteFile

/-!
# Disk access (`block.c`)

| here | there |
| --- | --- |
| `pread`, `pwrite`    | the system calls on the descriptor `diskfile` |
| `blockRead`          | `block_read` (`block.c:45`) |
| `sBlockRead`         | `sBlock_read` (`block.c:59`) |
| `inodeRead`          | `inode_read` (`block.c:77`) |
| `blockWrite`         | `block_write` (`block.c:94`) |
| `sBlockWritePadded`  | `sBlock_write_padded` (`block.c:104`) |
| `blockWritePadded`   | `block_write_padded` (`block.c:123`) |

What the kernel makes of each call is up to the environment: `Disk.outcomes` lists the outcomes of
the calls to come, and calls past its end complete. `Disk.log` records the calls made, with the
object each one is made for. `block_read` and `block_write` are called by nothing.

A buffer is passed as the bytes the callee transfers. `int` arithmetic is exact here: signed
overflow is undefined in C, and `inodePos_lt` shows that a slot of `inodes[]` never meets it.

`block.c` calls `pread` and `pwrite` without a prototype, so an `int` offset is passed as it is and not
widened to `off_t`. That makes a difference for negative offsets alone: they fail here, and compiled code
takes them for large ones.
-/

namespace Sfs

open CString

/-- What the kernel makes of one call: all bytes, at most `n`, or `-1`. -/
inductive Outcome where
  | complete
  | short (n : Nat)
  | fail

/-- How many of `size` bytes go through; `none` is the return value `-1`. -/
def Outcome.transferred : Outcome → Nat → Option Nat
  | .complete, size => some size
  | .short n, size => some (min n size)
  | .fail, _ => none

theorem Outcome.transferred_le : ∀ {o : Outcome} {size m : Nat}, o.transferred size = some m → m ≤ size
  | .complete, _, _, h => Nat.le_of_eq (Option.some.inj h).symm
  | .short n, size, _, h => Nat.le_trans (Nat.le_of_eq (Option.some.inj h).symm) (Nat.min_le_right n size)

/-- The object in memory a call is made for. -/
inductive Object where
  | sBlock
  | inode (slot : Nat)
deriving DecidableEq

inductive Kind where
  | read
  /-- The `tmp_buffer` of `'0'` characters written ahead of the object. -/
  | pad
  | write
deriving DecidableEq

structure Access where
  kind : Kind
  object : Object
  offset : Int
  size : Nat
  ret : Int

structure Disk where
  bytes : List UInt8
  outcomes : List Outcome
  log : List Access

namespace Disk

/-- The bytes the next call of `size` bytes at `offset` transfers; a negative offset is `EINVAL`. -/
def next (d : Disk) (offset : Int) (size : Nat) : Option Nat :=
  if offset < 0 then none else (d.outcomes.headD .complete).transferred size

/-- The disk after a call that transferred `m` bytes (`none`: failed) and left `bytes`. -/
def record (d : Disk) (kind : Kind) (object : Object) (offset : Int) (size : Nat) (ret : Int)
    (bytes : List UInt8) : Disk where
  bytes := bytes
  outcomes := d.outcomes.tail
  log := d.log ++ [⟨kind, object, offset, size, ret⟩]

/-- `pwrite(diskfile, buf, size, offset)`, `buf` being the `size` bytes written. A negative offset fails. -/
def pwrite (d : Disk) (kind : Kind) (object : Object) (buf : List UInt8) (offset : Int) : Int × Disk :=
  match d.next offset buf.length with
  | some m => (m, d.record kind object offset buf.length m (ByteFile.write d.bytes offset.toNat (buf.take m)))
  | none => (-1, d.record kind object offset buf.length (-1) d.bytes)

/-- `pread(diskfile, buf, size, offset)`: the return value and the bytes stored in `buf`. A negative offset
fails. -/
def pread (d : Disk) (object : Object) (size : Nat) (offset : Int) : Int × List UInt8 × Disk :=
  match d.next offset size with
  | some m =>
    let got := ByteFile.read d.bytes offset.toNat m
    (got.length, got, d.record .read object offset size got.length d.bytes)
  | none => (-1, [], d.record .read object offset size (-1) d.bytes)

/-! ### At a position in the file -/

theorem next_natCast (d : Disk) (pos size : Nat) :
    d.next pos size = (d.outcomes.headD .complete).transferred size := if_neg (by omega)

variable {d : Disk}

/-- Call `k` from now on transfers all of its `size` bytes. -/
def Full (d : Disk) (k size : Nat) : Prop := (d.outcomes.getD k .complete).transferred size = some size

instance (d : Disk) (k size : Nat) : Decidable (d.Full k size) := by unfold Full; infer_instance

theorem full_of_nil (hd : d.outcomes = []) (k size : Nat) : d.Full k size := by
  rw [Full, hd]
  rfl

theorem next_of_full {size : Nat} (hd : d.Full 0 size) (pos : Nat) : d.next pos size = some size := by
  rw [next_natCast]
  unfold Full at hd
  cases h : d.outcomes with
  | nil => rfl
  | cons o os =>
    rw [h] at hd
    exact hd

/-- The calls left after `n` calls. -/
theorem full_of_drop {d' : Disk} {n : Nat} (h : d'.outcomes = d.outcomes.drop n) (k size : Nat) :
    d'.Full k size ↔ d.Full (n + k) size := by
  rw [Full, Full, h, List.getD_eq_getElem?_getD, List.getElem?_drop, ← List.getD_eq_getElem?_getD]

@[simp] theorem outcomes_pwrite (kind : Kind) (object : Object) (buf : List UInt8) (offset : Int) :
    (d.pwrite kind object buf offset).2.outcomes = d.outcomes.tail := by
  unfold pwrite
  split <;> rfl

theorem full_pwrite (kind : Kind) (object : Object) (buf : List UInt8) (offset : Int) (k size : Nat) :
    (d.pwrite kind object buf offset).2.Full k size ↔ d.Full (k + 1) size := by
  unfold Full
  rw [outcomes_pwrite]
  cases d.outcomes <;> rfl

theorem pwrite_of_full {buf : List UInt8} (hd : d.Full 0 buf.length) (kind : Kind) (object : Object) (pos : Nat) :
    (d.pwrite kind object buf pos).1 = buf.length ∧
    (d.pwrite kind object buf pos).2.bytes = ByteFile.write d.bytes pos buf := by
  simp only [pwrite, next_of_full hd, record, List.take_length, Int.toNat_natCast, and_self]

/-- A return value of the full size says so, and the offset is not negative. -/
theorem full_of_pwrite {kind : Kind} {object : Object} {buf : List UInt8} {offset : Int}
    (h : (d.pwrite kind object buf offset).1 = buf.length) : 0 ≤ offset ∧ d.Full 0 buf.length := by
  have hnext : d.next offset buf.length = some buf.length := by
    unfold pwrite at h
    split at h
    · rename_i m hm
      rw [hm, Int.ofNat.inj h]
    · exact absurd h (by change (-1 : Int) ≠ _; omega)
  unfold next at hnext
  unfold Full
  split at hnext
  · cases hnext
  · rename_i hoffset
    refine ⟨Int.not_lt.1 hoffset, ?_⟩
    cases ho : d.outcomes with
    | nil => rfl
    | cons o os =>
      rw [ho] at hnext
      exact hnext

theorem pwrite_of_complete (hd : d.outcomes.headD .complete = .complete) (kind : Kind) (object : Object)
    (buf : List UInt8) (pos : Nat) :
    (d.pwrite kind object buf pos).1 = buf.length ∧
    (d.pwrite kind object buf pos).2.bytes = ByteFile.write d.bytes pos buf ∧
    (d.pwrite kind object buf pos).2.outcomes = d.outcomes.tail := by
  have hnext : d.next pos buf.length = some buf.length := by rw [next_natCast, hd]; rfl
  simp only [pwrite, hnext, record, List.take_length, Int.toNat_natCast, and_self]

theorem pwrite_of_fail (hd : d.outcomes.headD .complete = .fail) (kind : Kind) (object : Object)
    (buf : List UInt8) (pos : Nat) :
    (d.pwrite kind object buf pos).1 = -1 ∧ (d.pwrite kind object buf pos).2.bytes = d.bytes ∧
    (d.pwrite kind object buf pos).2.outcomes = d.outcomes.tail := by
  have hnext : d.next pos buf.length = none := by rw [next_natCast, hd]; rfl
  simp only [pwrite, hnext, record, and_self]

theorem pread_of_complete (hd : d.outcomes.headD .complete = .complete) (object : Object) (size pos : Nat) :
    (d.pread object size pos).1 = (ByteFile.read d.bytes pos size).length ∧
    (d.pread object size pos).2.1 = ByteFile.read d.bytes pos size ∧
    (d.pread object size pos).2.2.bytes = d.bytes ∧
    (d.pread object size pos).2.2.outcomes = d.outcomes.tail := by
  have hnext : d.next pos size = some size := by rw [next_natCast, hd]; rfl
  simp only [pread, hnext, record, Int.toNat_natCast, and_self]

theorem pread_of_fail (hd : d.outcomes.headD .complete = .fail) (object : Object) (size pos : Nat) :
    (d.pread object size pos).1 = -1 ∧ (d.pread object size pos).2.2.bytes = d.bytes ∧
    (d.pread object size pos).2.2.outcomes = d.outcomes.tail := by
  have hnext : d.next pos size = none := by rw [next_natCast, hd]; rfl
  simp only [pread, hnext, record, and_self]

end Disk

/-- The character `'0'`. -/
abbrev digitZero : Byte := 48

/-- `sBlock_write_padded`. It writes at offset 0 whatever block it is given. -/
def sBlockWritePadded (_blockNum : Int) (buf : List UInt8) (d : Disk) : Int × Disk :=
  let r := d.pwrite .pad .sBlock (List.replicate buf.length digitZero) 0
  if 0 ≤ r.1 then r.2.pwrite .write .sBlock buf 0 else r

/-- `block_write_padded`. -/
def blockWritePadded (object : Object) (blockNum : Int) (buf : List UInt8) (offset : Int) (d : Disk) :
    Int × Disk :=
  let r := d.pwrite .pad object (List.replicate buf.length digitZero) (blockNum * BLOCK_SIZE + offset)
  if 0 ≤ r.1 then r.2.pwrite .write object buf (blockNum * BLOCK_SIZE + offset) else r

/-- What both padded writes do at their byte position. -/
def Disk.writePadded (d : Disk) (object : Object) (buf : List UInt8) (offset : Int) : Int × Disk :=
  let r := d.pwrite .pad object (List.replicate buf.length digitZero) offset
  if 0 ≤ r.1 then r.2.pwrite .write object buf offset else r

/-- `sBlock_read` into a buffer that holds `buf` before: the return value, the buffer, the disk. -/
def sBlockRead (_blockNum : Int) (buf : List UInt8) (d : Disk) : Int × List UInt8 × Disk :=
  let r := d.pread .sBlock buf.length 0
  if r.1 ≤ 0 then (r.1, List.replicate buf.length 0, r.2.2)
  else (r.1, r.2.1 ++ buf.drop r.2.1.length, r.2.2)

/-- A read that completes returns what the file holds, up to the size of the buffer. -/
theorem sBlockRead_of_complete {d : Disk} (hd : d.outcomes.headD .complete = .complete) (blockNum : Int)
    (buf : List UInt8) :
    (sBlockRead blockNum buf d).1 = (ByteFile.read d.bytes 0 buf.length).length ∧
    (sBlockRead blockNum buf d).2.2.bytes = d.bytes ∧
    (sBlockRead blockNum buf d).2.2.outcomes = d.outcomes.tail ∧
    (buf ≠ [] → buf.length ≤ d.bytes.length →
      (sBlockRead blockNum buf d).2.1 = ByteFile.image d.bytes 0 buf.length) := by
  obtain ⟨hret, hgot, hbytes, hout⟩ :
      (d.pread .sBlock buf.length 0).1 = _ ∧ (d.pread .sBlock buf.length 0).2.1 = _ ∧ _ :=
    Disk.pread_of_complete hd .sBlock buf.length 0
  simp only [sBlockRead]
  refine ⟨by split <;> exact hret, by split <;> exact hbytes, by split <;> exact hout, fun hne hlen => ?_⟩
  have hpos := List.length_pos_iff.2 hne
  rw [ByteFile.read_eq_image_of_le (by omega)] at hret hgot
  rw [ByteFile.length_image] at hret
  rw [if_neg (by omega)]
  simp only [hgot, ByteFile.length_image, List.drop_length, List.append_nil]

/-- `block_read(blockNum, buf)`. -/
def blockRead (object : Object) (blockNum : Int) (buf : List UInt8) (d : Disk) : Int × List UInt8 × Disk :=
  let r := d.pread object BLOCK_SIZE (blockNum * BLOCK_SIZE)
  if r.1 ≤ 0 then (r.1, List.replicate BLOCK_SIZE 0, r.2.2)
  else (r.1, r.2.1 ++ buf.drop r.2.1.length, r.2.2)

/-- `block_write(blockNum, buf)`, `buf` being the `BLOCK_SIZE` bytes written. -/
def blockWrite (object : Object) (blockNum : Int) (buf : List UInt8) (d : Disk) : Int × Disk :=
  d.pwrite .write object buf (blockNum * BLOCK_SIZE)

/-- A record after the first bytes of its image, in a process loaded at `b`, are overwritten. -/
def FileControlBlock.overwrite (b : LoadAddress) (f : FileControlBlock Ptr) (bs : List UInt8) :
    FileControlBlock Ptr :=
  if bs = [] then f else (FileControlBlock.codec.overwrite (f.mapPtr b.encode) bs).mapPtr b.decode

/-- Bytes stored from `&inodes[x]` on, over as many records as they reach. Behind `inodes[99]` lie further
slots: whatever other globals are there are left as they are. -/
def Table.store (b : LoadAddress) (t : Table) (x : Nat) (bs : List UInt8) : Table :=
  { t with inodes := fun y =>
      if y < x then t.inodes y
      else (t.inodes y).overwrite b ((bs.drop ((y - x) * sizeofFcb)).take sizeofFcb) }

/-- `inode_read(blockNum, &inodes[x], offset)`. A failed or empty read clears a whole block of
memory, not one record. -/
def inodeRead (b : LoadAddress) (blockNum : Int) (x : Nat) (offset : Int) (t : Table) (d : Disk) :
    Int × Table × Disk :=
  let r := d.pread (.inode x) sizeofFcb (blockNum * BLOCK_SIZE + offset)
  if r.1 ≤ 0 then (r.1, t.store b x (List.replicate BLOCK_SIZE 0), r.2.2)
  else (r.1, t.store b x r.2.1, r.2.2)

/-! ## A process -/

/-- What one call learns from the operating system: `getuid()`, `getgid()`, `time(NULL)`. -/
structure Env where
  uid : BitVec 32
  gid : BitVec 32
  now : BitVec 64

/-- The globals of the program (`sfs.c:57-61`), the memory behind `sBlockData`, and the disk file. -/
structure Process where
  tbl : Table
  base : LoadAddress
  behindSBlock : Nat → Byte
  diskSize : Int
  errno : Int
  disk : Disk

namespace Process

/-- The `size` bytes at `sBlock`. -/
def sBlockMemory (s : Process) (size : Nat) : List UInt8 :=
  (Superblock.codec.enc s.tbl.sBlock ++
    (List.range (size - sizeofSuperblock)).map s.behindSBlock).take size

/-- The `sizeof(fileControlBlock)` bytes at `&inodes[x]`. -/
def inodeMemory (s : Process) (x : Nat) : List UInt8 :=
  FileControlBlock.codec.enc ((s.tbl.inodes x).mapPtr s.base.encode)

/-- A process before `sfs_init`: the globals are zero, everything else is arbitrary. -/
structure Fresh (s : Process) : Prop where
  sBlock : s.tbl.sBlock = Superblock.zero
  inodes : ∀ x < TABLE_SIZE, s.tbl.inodes x = FileControlBlock.zero .null

end Process

end Sfs
