import SimpelDateisystem.Lib.Cells
import SimpelDateisystem.Lib.CString
import SimpelDateisystem.Lib.Codec

/-!
# The data model (`knoten.h`, `block.h`, `sfs.c:57-61`)

The layout is the x86-64 one the project is configured for (`int` 4, `long` and pointers 8 bytes,
natural alignment), including the padding bytes, so that a record and its image in memory
determine each other.

| here | there |
| --- | --- |
| `FileControlBlock π` | `struct fileControlBlock` (`knoten.h:30`), `π` what a `dirContents` cell holds |
| `Ptr`                | a `fileControlBlock *`: `NULL`, the address of a slot of `inodes[]`, or any other address |
| `Superblock`         | `superblock` (`knoten.h:15`) |
| `LoadAddress`        | the address of `inodes[]` in one process |
| `Table`              | the globals `sBlockData` and `inodes` (`sfs.c:58`, `:60`) |

`Table.inodes` is total: the slots from `TABLE_SIZE` on are the memory behind the array.
-/

namespace Sfs

open CString Cells

abbrev BLOCK_SIZE : Nat := 4096
abbrev MAX_BLOCKS : Nat := 5859
abbrev NAME_SIZE : Nat := 256
abbrev MAX_FILES_IN_DIR : Nat := 30

/-- The length of `inodes[]` (`sfs.c:60`). -/
abbrev TABLE_SIZE : Nat := 100

/-- The byte `/`. -/
abbrev slash : Byte := 47

/-! ## `fileControlBlock` -/

/-- A `fileControlBlock *`. -/
inductive Ptr where
  | null
  | inode (slot : Nat)
  | wild (addr : BitVec 64)
deriving DecidableEq

structure FileControlBlock (π : Type) where
  fileName : Vector Byte NAME_SIZE
  fileSize : BitVec 64
  numBlocks : BitVec 16
  /-- Its own index number in the array of inodes. -/
  inumber : BitVec 16
  /-- Its parent's inumber. -/
  parentInumber : BitVec 16
  parentDir : Vector Byte NAME_SIZE
  mode : BitVec 16
  uid : BitVec 16
  block : Vector Byte 60
  /-- The two bytes that align `time`. -/
  pad : Vector Byte 2
  time : BitVec 64
  dirContents : Vector π MAX_FILES_IN_DIR

namespace FileControlBlock

variable {π ρ : Type}

/-- The record of all zero bytes, `z` being the zero pointer. -/
def zero (z : π) : FileControlBlock π where
  fileName := Vector.replicate NAME_SIZE 0
  fileSize := 0
  numBlocks := 0
  inumber := 0
  parentInumber := 0
  parentDir := Vector.replicate NAME_SIZE 0
  mode := 0
  uid := 0
  block := Vector.replicate 60 0
  pad := Vector.replicate 2 0
  time := 0
  dirContents := Vector.replicate MAX_FILES_IN_DIR z

/-- The same record with its directory pointers read another way. -/
def mapPtr (g : π → ρ) (f : FileControlBlock π) : FileControlBlock ρ :=
  { f with dirContents := f.dirContents.map g }

/-- Pointers converted there and back. -/
theorem mapPtr_inverse {g : π → ρ} {h : ρ → π} (hgh : ∀ p, h (g p) = p) (f : FileControlBlock π) :
    (f.mapPtr g).mapPtr h = f := by
  have hmap : (f.dirContents.map g).map h = f.dirContents := by
    rw [Vector.map_map, show h ∘ g = id from funext hgh, Vector.map_id]
  rw [mapPtr, mapPtr, hmap]

theorem mapPtr_zero (g : π → ρ) (z : π) : (zero z).mapPtr g = zero (g z) := by
  simp [mapPtr, zero]

/-- The string in `fileName`. -/
def name (f : FileControlBlock π) : CStr := cstr f.fileName.toList

/-- The string in `parentDir`. -/
def dir (f : FileControlBlock π) : CStr := cstr f.parentDir.toList

/-- `dirContents[k]`. -/
def entry (f : FileControlBlock Ptr) (k : Nat) : Ptr := peek .null f.dirContents k

/-- `dirContents[k] = p`. -/
def setEntry (f : FileControlBlock Ptr) (k : Nat) (p : Ptr) : FileControlBlock Ptr :=
  { f with dirContents := poke f.dirContents k p }

theorem entry_setEntry (f : FileControlBlock Ptr) {k : Nat} (p : Ptr) (j : Nat)
    (hk : k < MAX_FILES_IN_DIR) : (f.setEntry k p).entry j = if j = k then p else f.entry j :=
  peek_poke Ptr.null f.dirContents j p hk

@[simp] theorem entry_zero (k : Nat) : (zero Ptr.null).entry k = .null := peek_replicate _ _

@[simp] theorem name_zero (z : π) : (zero z).name = [] := rfl

/-- The bytes of a record, with its pointers as machine addresses. -/
def codec : Codec (FileControlBlock (BitVec 64)) :=
  (((Codec.byte.array NAME_SIZE).prod <| (Codec.le 64 8 rfl).prod <| (Codec.le 16 2 rfl).prod <|
    (Codec.le 16 2 rfl).prod <| (Codec.le 16 2 rfl).prod <| (Codec.byte.array NAME_SIZE).prod <|
    (Codec.le 16 2 rfl).prod <| (Codec.le 16 2 rfl).prod <| (Codec.byte.array 60).prod <|
    (Codec.byte.array 2).prod <| (Codec.le 64 8 rfl).prod <|
    (Codec.le 64 8 rfl).array MAX_FILES_IN_DIR)).iso
    (fun f => (f.fileName, f.fileSize, f.numBlocks, f.inumber, f.parentInumber, f.parentDir, f.mode,
      f.uid, f.block, f.pad, f.time, f.dirContents))
    (fun t => ⟨t.1, t.2.1, t.2.2.1, t.2.2.2.1, t.2.2.2.2.1, t.2.2.2.2.2.1, t.2.2.2.2.2.2.1,
      t.2.2.2.2.2.2.2.1, t.2.2.2.2.2.2.2.2.1, t.2.2.2.2.2.2.2.2.2.1, t.2.2.2.2.2.2.2.2.2.2.1,
      t.2.2.2.2.2.2.2.2.2.2.2⟩)
    (fun _ => rfl) (fun _ => rfl)

end FileControlBlock

/-- `sizeof(fileControlBlock)`. -/
abbrev sizeofFcb : Nat := 840

theorem FileControlBlock.width_codec : FileControlBlock.codec.width = sizeofFcb := rfl

/-- `S_ISDIR`, `S_ISREG` of a `short` promoted to `int`. -/
def fileType (mode : BitVec 16) : BitVec 32 := mode.signExtend 32 &&& 0xF000#32

def S_IFDIR : BitVec 32 := 0x4000#32
def S_IFREG : BitVec 32 := 0x8000#32

def isDir (mode : BitVec 16) : Bool := fileType mode == S_IFDIR
def isReg (mode : BitVec 16) : Bool := fileType mode == S_IFREG

/-! ## `superblock` -/

structure Superblock where
  magicNum : BitVec 32
  numInodes : BitVec 32
  numDataBlocks : BitVec 32
  inodeStartIndex : BitVec 32
  datablockStartIndex : BitVec 32
  numInodesPerBlock : BitVec 32
  ibmap : Vector Byte MAX_BLOCKS
  dbmap : Vector Byte MAX_BLOCKS
  /-- The two bytes that round the record up to a multiple of four. -/
  pad : Vector Byte 2

namespace Superblock

def zero : Superblock where
  magicNum := 0
  numInodes := 0
  numDataBlocks := 0
  inodeStartIndex := 0
  datablockStartIndex := 0
  numInodesPerBlock := 0
  ibmap := Vector.replicate MAX_BLOCKS 0
  dbmap := Vector.replicate MAX_BLOCKS 0
  pad := Vector.replicate 2 0

/-- `ibmap[i]`. -/
def ibit (sb : Superblock) (i : Nat) : Byte := peek 0 sb.ibmap i

/-- `ibmap[i] = b`. -/
def setIbit (sb : Superblock) (i : Nat) (b : Byte) : Superblock := { sb with ibmap := poke sb.ibmap i b }

/-- `dbmap[i] = b`. -/
def setDbit (sb : Superblock) (i : Nat) (b : Byte) : Superblock := { sb with dbmap := poke sb.dbmap i b }

theorem ibit_setIbit (sb : Superblock) {i : Nat} (b : Byte) (j : Nat) (hi : i < MAX_BLOCKS) :
    (sb.setIbit i b).ibit j = if j = i then b else sb.ibit j :=
  peek_poke 0 sb.ibmap j b hi

@[simp] theorem numInodes_setIbit (sb : Superblock) (i : Nat) (b : Byte) :
    (sb.setIbit i b).numInodes = sb.numInodes := rfl

/-- The bytes of the superblock. -/
def codec : Codec Superblock :=
  (((Codec.le 32 4 rfl).prod <| (Codec.le 32 4 rfl).prod <| (Codec.le 32 4 rfl).prod <|
    (Codec.le 32 4 rfl).prod <| (Codec.le 32 4 rfl).prod <| (Codec.le 32 4 rfl).prod <|
    (Codec.byte.array MAX_BLOCKS).prod <| (Codec.byte.array MAX_BLOCKS).prod <|
    Codec.byte.array 2)).iso
    (fun sb => (sb.magicNum, sb.numInodes, sb.numDataBlocks, sb.inodeStartIndex,
      sb.datablockStartIndex, sb.numInodesPerBlock, sb.ibmap, sb.dbmap, sb.pad))
    (fun t => ⟨t.1, t.2.1, t.2.2.1, t.2.2.2.1, t.2.2.2.2.1, t.2.2.2.2.2.1, t.2.2.2.2.2.2.1,
      t.2.2.2.2.2.2.2.1, t.2.2.2.2.2.2.2.2⟩)
    (fun _ => rfl) (fun _ => rfl)

end Superblock

/-- `sizeof(superblock)`. -/
abbrev sizeofSuperblock : Nat := 11744

theorem Superblock.width_codec : Superblock.codec.width = sizeofSuperblock := rfl

/-! ## Addresses -/

/-- Where `inodes[]` lies in one process: not at `NULL`, and wholly inside the address space. -/
structure LoadAddress where
  addr : BitVec 64
  nonnull : addr ≠ 0
  fits : addr.toNat + TABLE_SIZE * sizeofFcb ≤ 2 ^ 64

namespace LoadAddress

/-- The machine address a pointer stands for. -/
def encode (b : LoadAddress) : Ptr → BitVec 64
  | .null => 0
  | .inode s => b.addr + BitVec.ofNat 64 (s * sizeofFcb)
  | .wild a => a

/-- What a machine address points at in a process with `inodes[]` at `b`. -/
def decode (b : LoadAddress) (a : BitVec 64) : Ptr :=
  if a = 0 then .null
  else if (a - b.addr).toNat % sizeofFcb = 0 ∧ (a - b.addr).toNat / sizeofFcb < TABLE_SIZE then
    .inode ((a - b.addr).toNat / sizeofFcb)
  else .wild a

@[simp] theorem encode_null (b : LoadAddress) : b.encode .null = 0 := rfl

@[simp] theorem decode_zero (b : LoadAddress) : b.decode 0 = .null := if_pos rfl

/-- An address points at slot `x` iff it is the slot's own. -/
theorem decode_eq_inode_iff (b : LoadAddress) {a : BitVec 64} {x : Nat} (hx : x < TABLE_SIZE) :
    b.decode a = .inode x ↔ a = b.encode (.inode x) := by
  have hfits : b.addr.toNat + 100 * 840 ≤ 2 ^ 64 := b.fits
  have hnonnull : b.addr.toNat ≠ 0 := fun h => b.nonnull (BitVec.eq_of_toNat_eq h)
  change x < 100 at hx
  constructor
  · intro h
    unfold decode at h
    split at h
    · cases h
    split at h
    · rename_i hslot
      obtain ⟨hmod, hlt⟩ := hslot
      cases h
      change (a - b.addr).toNat % 840 = 0 at hmod
      change (a - b.addr).toNat / 840 < 100 at hlt
      change a = b.addr + BitVec.ofNat 64 ((a - b.addr).toNat / 840 * 840)
      rw [Nat.div_mul_cancel (Nat.dvd_of_mod_eq_zero hmod)]
      bv_omega
    · cases h
  · rintro rfl
    change b.decode (b.addr + BitVec.ofNat 64 (x * 840)) = _
    have hoff : (b.addr + BitVec.ofNat 64 (x * 840) - b.addr).toNat = x * 840 := by
      rw [BitVec.add_comm, BitVec.add_sub_cancel, BitVec.toNat_ofNat, Nat.mod_eq_of_lt (by omega)]
    have hne : b.addr + BitVec.ofNat 64 (x * 840) ≠ 0 := by
      intro h0
      have hsum := congrArg BitVec.toNat h0
      rw [BitVec.toNat_add, BitVec.toNat_ofNat, Nat.mod_eq_of_lt (show x * 840 < 2 ^ 64 by omega),
        Nat.mod_eq_of_lt (by omega)] at hsum
      change b.addr.toNat + x * 840 = 0 at hsum
      omega
    have hdiv : x * 840 / sizeofFcb = x := Nat.mul_div_cancel x (by decide)
    have hslot : x * 840 % sizeofFcb = 0 ∧ x * 840 / sizeofFcb < TABLE_SIZE :=
      ⟨Nat.mul_mod_left x 840, by rw [hdiv]; exact hx⟩
    rw [decode, if_neg hne, hoff, if_pos hslot, hdiv]

/-- A slot's address means the same slot in another process iff both are loaded at the same place. -/
theorem decode_encode_iff (b b' : LoadAddress) {x : Nat} (hx : x < TABLE_SIZE) :
    b'.decode (b.encode (.inode x)) = .inode x ↔ b.addr = b'.addr := by
  rw [decode_eq_inode_iff b' hx]
  exact BitVec.add_left_inj _

/-- No address is lost. -/
theorem encode_decode (b : LoadAddress) (a : BitVec 64) : b.encode (b.decode a) = a := by
  by_cases h0 : a = 0
  · rw [h0, decode_zero, encode_null]
  by_cases hslot : (a - b.addr).toNat % sizeofFcb = 0 ∧ (a - b.addr).toNat / sizeofFcb < TABLE_SIZE
  · have hdec : b.decode a = .inode ((a - b.addr).toNat / sizeofFcb) := by
      rw [decode, if_neg h0, if_pos hslot]
    rw [hdec, ← (b.decode_eq_inode_iff hslot.2).1 hdec]
  · rw [decode, if_neg h0, if_neg hslot, encode]

end LoadAddress

/-! ## The inode table -/

structure Table where
  sBlock : Superblock
  inodes : Nat → FileControlBlock Ptr

namespace Table

/-- The rounds of a loop `i < sBlock->numInodes` from 0. -/
def count (t : Table) : Nat := t.sBlock.numInodes.toInt.toNat

/-- `ibmap[x] == 1`. -/
def Alloc (t : Table) (x : Nat) : Prop := t.sBlock.ibit x = 1

instance (t : Table) (x : Nat) : Decidable (t.Alloc x) := by unfold Alloc; infer_instance

/-- Slot `x` is overwritten by `f`. -/
def setInode (t : Table) (x : Nat) (f : FileControlBlock Ptr) : Table :=
  { t with inodes := fun y => if y = x then f else t.inodes y }

@[simp] theorem sBlock_setInode (t : Table) (x : Nat) (f : FileControlBlock Ptr) :
    (t.setInode x f).sBlock = t.sBlock := rfl

theorem inodes_setInode (t : Table) (x : Nat) (f : FileControlBlock Ptr) (y : Nat) :
    (t.setInode x f).inodes y = if y = x then f else t.inodes y := rfl

end Table

end Sfs
