import SimpelDateisystem.Direntry
import SimpelDateisystem.Path
import SimpelDateisystem.Lib.Cursor

/-!
# Lookup, creation, removal, formatting (`DateiSteuerBlock.c`)

| here | there |
| --- | --- |
| `findFileOrDir`        | `findFileOrDir` (`DateiSteuerBlock.c:324`): the first slot whose two stored names fit |
| `getParentFcb`         | `getParentFcb` (`:106`) |
| `getFreeInodeNum`      | `getFreeInodeNum` (`:92`), which nothing calls |
| `Table.freeSlot`       | the `while` scan of `create_inode` (`:213-217`) |
| `Table.parentSlot`     | its search for the parent (`:225-237`) |
| `initInode`            | its assignments to the new slot (`:254-261`) |
| `createInode`          | `create_inode` (`:211`) |
| `removeInode`          | `remove_inode` (`:279`) |
| `flushAllInodesTodisk` | `flushAllInodesTodisk` (`:444`); the local copy `curr` is never written and is left out |
| `formatDisk`           | `formatDisk` (`:387`) |

Neither the scan for a free slot nor the lookup looks at what the other one does: the lookup
compares names and ignores `ibmap`, the scan looks at `ibmap` and ignores names.
-/

namespace Sfs

open CString Cells

/-! ## Lookup -/

/-- `&inodes[0]`, which is not `NULL`. -/
def findRootOrDieTrying : Nat := 0

/-- The test on one slot (`:335-346`). Without a parent name the last component decides alone. -/
def matchesPath (t : Table) (filePath : CStr) (x : Nat) : Bool :=
  decide ((t.inodes x).name = relativeName filePath) &&
    match getRelativeParentName filePath with
    | some relativeParentName => decide ((t.inodes x).dir = relativeParentName)
    | none => true

def findFileOrDir (t : Table) (filePath : CStr) : Option Nat :=
  if filePath = [slash] then some findRootOrDieTrying
  else (List.range t.count).find? (matchesPath t filePath)

/-- `&inodes[child->parent_inumber]`. A negative number is no slot: undefined in C, and met only
for the root. -/
def getParentFcb (t : Table) (child : Nat) : Option Nat :=
  let number := (t.inodes child).parentInumber.toInt
  if 0 ≤ number then some number.toNat else none

/-! ## Writing the table to disk -/

/-- One round of the loop at `:487-497`. -/
def writeRound (i : Nat) (currBlock currBlockFillNum : Int) (s : Process) : Bool × Process :=
  (true, { s with
    disk := (blockWritePadded (.inode i) currBlock (s.inodeMemory i) (currBlockFillNum * sizeofFcb) s.disk).2 })

/-- One round of the first-time loop at `:451-474`: the record written is the slot itself. -/
def firstTimeRound (i : Nat) (currBlock currBlockFillNum : Int) (s : Process) : Bool × Process :=
  writeRound i currBlock currBlockFillNum
    { s with tbl := { s.tbl with sBlock := s.tbl.sBlock.setIbit i 0 } }

/-- `sBlock->numInodesPerBlock`. -/
def Process.perBlock (s : Process) : Int := s.tbl.sBlock.numInodesPerBlock.toInt

/-- `sBlock_write_padded(0, sBlock, size)`. -/
def Process.writeSBlock (s : Process) (size : Nat) : Process :=
  { s with disk := (sBlockWritePadded 0 (s.sBlockMemory size) s.disk).2 }

def flushAllInodesTodisk (firstTime : Bool) (s : Process) : Bool × Process :=
  let start := s.tbl.sBlock.inodeStartIndex.toInt
  let endCond := s.tbl.sBlock.numInodes.toInt
  if firstTime then
    (true, Cursor.loop Process.perBlock firstTimeRound (endCond - 1 - 1).toNat 1 start 1 s)
  else
    let s := s.writeSBlock (BLOCK_SIZE * start).toNat
    (true, Cursor.loop Process.perBlock writeRound (endCond - 1).toNat 0 start 0 s)

/-! ## Creating and removing -/

/-- The first slot whose bit is 0, or -1. -/
def getFreeInodeNum (sb : Superblock) : Int :=
  match (List.range sb.numInodes.toInt.toNat).find? fun i => sb.ibit i = 0 with
  | some i => i
  | none => -1

/-- The first slot from 1 on whose bit is not 1. -/
def Table.freeSlot (t : Table) : Option Nat :=
  (List.range' 1 (t.count - 1)).find? fun i => t.sBlock.ibit i ≠ 1

def Table.parentSlot (t : Table) (path parentDir : CStr) : Option Nat :=
  if parentDir = [slash] then some findRootOrDieTrying else findFileOrDir t (absolutePathToParent path)

/-- The new slot's fields, in the order the code assigns them. `dirContents`, `fileSize` and
`numBlocks` keep what the slot held before. -/
def initInode (e : Env) (t : Table) (i parent : Nat) (relName parentDir : CStr) (mode : BitVec 32) :
    Table :=
  let f := t.inodes i
  let t := t.setInode i { f with
    fileName := strcpyArray f.fileName relName
    parentDir := strcpyArray f.parentDir parentDir }
  let t := t.setInode i { t.inodes i with
    parentInumber := (t.inodes parent).inumber
    mode := mode.setWidth 16
    uid := e.uid.setWidth 16
    time := e.now
    inumber := BitVec.ofNat 16 i }
  t.setInode i { t.inodes i with parentInumber := (t.inodes parent).inumber }

/-- `ibmap[i] = b`. -/
def Table.setIbit (t : Table) (i : Nat) (b : Byte) : Table := { t with sBlock := t.sBlock.setIbit i b }

/-- `create_inode`: the slot whose address is returned. -/
def createInode (e : Env) (path : CStr) (mode : BitVec 32) (s : Process) : Option Nat × Process :=
  match s.tbl.freeSlot with
  | none => (none, s)
  | some i =>
    match getRelativeParentName path with
    | none => (none, s)
    | some parentDir =>
      match s.tbl.parentSlot path parentDir with
      | none => (none, s)
      | some parent =>
        let r := addToDirentry s.tbl parent i
        if r.1 then
          let t := (initInode e r.2 i parent (relativeName path) parentDir mode).setIbit i 1
          (some i, (flushAllInodesTodisk false { s with tbl := t }).2)
        else (none, { s with tbl := r.2 })

/-- `remove_inode`. -/
def removeInode (filePath : CStr) (s : Process) : Bool × Process :=
  match findFileOrDir s.tbl filePath with
  | none => (false, s)
  | some f =>
    match getParentFcb s.tbl f with
    | none => (false, s)
    | some p =>
      let r := removeFromDirentry s.tbl p f
      if r.1 then
        let t := r.2.setIbit (r.2.inodes f).inumber.toInt.toNat 0
        (true, (flushAllInodesTodisk false { s with tbl := t }).2)
      else (false, { s with tbl := r.2 })

/-! ## Formatting -/

/-- What one inode costs (`:402`). -/
def allocationUnit : Int := BLOCK_SIZE * 15 + BLOCK_SIZE / sizeofFcb

/-- The allocation loop (`:401-412`). `spaceUsed` grows in every round, so `remainingSpace` rounds
are enough. -/
def allocLoop (remainingSpace : Int) :
    (rounds : Nat) → (spaceUsed currAllocation : Int) → Superblock → Superblock
  | 0, _, _, sb => sb
  | rounds + 1, spaceUsed, currAllocation, sb =>
    if spaceUsed < remainingSpace then
      let currAllocation := currAllocation + allocationUnit
      if currAllocation < remainingSpace then
        allocLoop remainingSpace rounds (spaceUsed + currAllocation) currAllocation
          { sb with numInodes := sb.numInodes + 1, numDataBlocks := sb.numDataBlocks + 15 }
      else sb
    else sb

/-- `initDirContents` (`:374`). -/
def initDirContents (f : FileControlBlock Ptr) : FileControlBlock Ptr :=
  { f with dirContents := Vector.replicate MAX_FILES_IN_DIR .null }

/-- The root directory (`:419-429`). -/
def rootInode (e : Env) (f : FileControlBlock Ptr) : FileControlBlock Ptr :=
  initDirContents { f with
    fileName := poke (poke f.fileName 0 slash) 1 0
    fileSize := 0
    parentDir := poke f.parentDir 0 0
    mode := (S_IFDIR ||| 0o755#32).setWidth 16
    uid := e.uid.setWidth 16
    time := e.now
    inumber := 0
    parentInumber := -1 }

/-- The superblock fields set before anything is written (`:389-416`). -/
def formatSBlock (diskSize : Int) (sb : Superblock) : Superblock :=
  let remainingSpace := diskSize - sizeofSuperblock
  let sb := allocLoop remainingSpace remainingSpace.toNat 0 0 { sb with
    numInodesPerBlock := BitVec.ofNat 32 (BLOCK_SIZE / sizeofFcb)
    inodeStartIndex := BitVec.ofNat 32 (1 + sizeofSuperblock / BLOCK_SIZE) }
  { sb with magicNum := 666, ibmap := poke sb.ibmap 0 1 }

/-- `formatDisk`; it always returns 1. -/
def formatDisk (e : Env) (s : Process) : Process :=
  let t : Table := { s.tbl with sBlock := formatSBlock s.diskSize s.tbl.sBlock }
  let s := { s with tbl := t.setInode 0 (rootInode e (t.inodes 0)) }
  let s := s.writeSBlock sizeofSuperblock
  let s := { s with
    disk := (blockWritePadded (.inode 0) s.tbl.sBlock.inodeStartIndex.toInt (s.inodeMemory 0) 0 s.disk).2 }
  (flushAllInodesTodisk true s).2

end Sfs
