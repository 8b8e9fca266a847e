import SimpelDateisystem.DateiSteuerBlock

/-!
# The file system calls (`sfs.c`)

| here | there |
| --- | --- |
| `sfsInit`     | `sfs_init` (`sfs.c:64`), `readRound` one round of its loop (`:104-147`) |
| `sfsGetattr`  | `sfs_getattr` (`:176`) |
| `sfsCreate`, `sfsMkdir`  | `sfs_create` (`:272`), `sfs_mkdir` (`:429`) |
| `sfsUnlink`, `sfsRmdir`  | `sfs_unlink` (`:285`), `sfs_rmdir` (`:444`) |
| `sfsReaddir`  | `sfs_readdir` (`:503`) |
| `sfsOpen`, `sfsRelease`, `sfsOpendir` | `sfs_open` (`:308`), `sfs_release` (`:337`), `sfs_opendir` (`:466`) |
| `sfsReleasedir` | `sfs_releasedir` (`:547`) |
| `sfsRead`, `sfsWrite` | `sfs_read` (`:363`), `sfs_write` (`:391`): neither transfers a byte |
| `sfsDestroy`  | `sfs_destroy` (`:165`) |

`FuseCall` is one call of the four that change the inode table; `FuseCall.exec` runs it.
-/

namespace Sfs

open CString

def ENOENT : Int := 2
def EIO : Int := 5
def EFBIG : Int := 27
def ENAMETOOLONG : Int := 36

def PATH_MAX : Nat := 4096

/-! ## Mounting -/

/-- The value of an `int` assigned from a wider integer. -/
def toInt32 (z : Int) : Int := (BitVec.ofInt 32 z).toInt

/-- The data bitmap update for the slot just read (`:112-130`). -/
def markData (i : Nat) (s : Process) : Process :=
  let fcb := s.tbl.inodes i
  if isDir fcb.mode then s
  else if isReg fcb.mode then
    { s with tbl := { s.tbl with
        sBlock := s.tbl.sBlock.setDbit i (if fcb.fileSize.toInt < 1 then 0 else 1) } }
  else s

/-- One round of the loop that reads the inode table. A failed read counts as success: only a
return value of 0 keeps the counters where they are. -/
def readRound (i : Nat) (currBlock currBlockFillNum : Int) (s : Process) : Bool × Process :=
  let r := inodeRead s.base currBlock i (currBlockFillNum * sizeofFcb) s.tbl s.disk
  let s := { s with tbl := r.2.1, disk := r.2.2 }
  if r.1 ≠ 0 then (true, markData i s) else (false, s)

/-- The loop at `:100-147`. -/
def readInodeTable (s : Process) : Process :=
  Cursor.loop Process.perBlock readRound s.tbl.sBlock.numInodes.toInt.toNat 0
    s.tbl.sBlock.inodeStartIndex.toInt 0 s

/-- `sfs_init`; `buf` is what the local buffer holds on entry. -/
def sfsInit (e : Env) (buf : Vector Byte sizeofSuperblock) (s : Process) : Process :=
  let s := { s with diskSize := toInt32 s.disk.bytes.length }
  let r := sBlockRead 0 buf.toList s.disk
  let s := { s with disk := r.2.2 }
  if r.1 = 0 then formatDisk e s
  else if 0 ≤ r.1 then
    readInodeTable { s with tbl := { s.tbl with sBlock := Superblock.codec.dec r.2.1 } }
  else s

/-! ## Attributes -/

structure Stat where
  stDev : BitVec 64
  stIno : BitVec 64
  stMode : BitVec 32
  stNlink : BitVec 64
  stUid : BitVec 32
  stGid : BitVec 32
  stRdev : BitVec 64
  stSize : BitVec 64
  stAtime : BitVec 64
  stMtime : BitVec 64
  stCtime : BitVec 64
  stBlksize : BitVec 64
  stBlocks : BitVec 64

/-- `"/.Trash"`. -/
def trash : CStr := [47, 46, 84, 114, 97, 115, 104]

/-- The paths `sfs_getattr` answers without a lookup (`:194-198`). -/
def dummyPath (path : CStr) : Bool :=
  path = trash || (path.take 8 = trash ++ [45] && path.length = 13) || path = [slash]

/-- The attributes of such a path. -/
def dummyStat (e : Env) (path : CStr) (t : Table) (st : Stat) : Stat :=
  { st with
    stDev := 0
    stIno := 0
    stMode := if path = [slash] then S_IFDIR ||| 0o755#32 else S_IFREG ||| 0o666#32
    stNlink := 0
    stUid := (t.inodes 0).uid.signExtend 32
    stGid := e.gid
    stRdev := 0
    stSize := (t.inodes 0).fileSize
    stAtime := (t.inodes 0).time
    stMtime := 0
    stCtime := 0
    stBlksize := BitVec.ofNat 64 BLOCK_SIZE
    stBlocks := 0 }

/-- The attributes of a slot (`:231-249`). A mode other than the three is left as it is. -/
def inodeStat (e : Env) (f : FileControlBlock Ptr) (st : Stat) : Stat :=
  { st with
    stDev := 0
    stIno := 0
    stMode := if f.mode.toInt = 493 ∨ f.mode.toInt = 16384 then S_IFDIR
      else if f.mode.toInt = -32348 then S_IFREG else st.stMode
    stNlink := 0
    stUid := f.uid.signExtend 32
    stGid := e.gid
    stRdev := 0
    stSize := f.fileSize
    stAtime := f.time
    stMtime := f.time
    stCtime := f.time
    stBlksize := BitVec.ofNat 64 BLOCK_SIZE
    stBlocks := 0 }

/-- `sfs_getattr`: the return value, `*statbuf` afterwards, the process. -/
def sfsGetattr (e : Env) (path : CStr) (statbuf : Option Stat) (s : Process) :
    Int × Option Stat × Process :=
  if PATH_MAX < path.length then (-1, statbuf, { s with errno := ENAMETOOLONG })
  else
    match statbuf with
    | none => (-1, none, { s with errno := EIO })
    | some st =>
      if dummyPath path then (0, some (dummyStat e path s.tbl st), s)
      else
        match findFileOrDir s.tbl path with
        | none => (-ENOENT, some st, s)
        | some x => (0, some (inodeStat e (s.tbl.inodes x) st), s)

/-! ## Creating and removing -/

def sfsCreate (e : Env) (path : CStr) (mode : BitVec 32) (s : Process) : Int × Process :=
  match createInode e path mode s with
  | (none, s) => (-s.errno, s)
  | (some _, s) => (0, s)

/-- `sfs_mkdir`. `mode_t` is unsigned, so the second comparison is with `-32348` modulo `2^32`. -/
def sfsMkdir (e : Env) (path : CStr) (mode : BitVec 32) (s : Process) : Int × Process :=
  if mode = 493 then (0, (createInode e path S_IFDIR s).2)
  else if mode = BitVec.ofInt 32 (-32348) then (0, (createInode e path S_IFREG s).2)
  else (0, s)

/-- The body `sfs_unlink` and `sfs_rmdir` share. -/
def removePath (path : CStr) (s : Process) : Int × Process :=
  match removeInode path s with
  | (false, s) => (-ENOENT, { s with errno := ENOENT })
  | (true, s) => (0, s)

def sfsUnlink (path : CStr) (s : Process) : Int × Process := removePath path s

def sfsRmdir (path : CStr) (s : Process) : Int × Process := removePath path s

/-! ## Opening -/

/-- The body `sfs_open`, `sfs_release` and `sfs_opendir` share: succeed iff the path resolves. -/
def lookupPath (path : CStr) (s : Process) : Int × Process :=
  match findFileOrDir s.tbl path with
  | some _ => (0, s)
  | none => (-ENOENT, { s with errno := ENOENT })

def sfsOpen (path : CStr) (s : Process) : Int × Process := lookupPath path s

def sfsRelease (path : CStr) (s : Process) : Int × Process := lookupPath path s

def sfsOpendir (path : CStr) (s : Process) : Int × Process := lookupPath path s

def sfsReleasedir (_path : CStr) (s : Process) : Int × Process := (0, s)

/-! ## Reading and writing -/

/-- `sfs_read`: the return value, `buf` afterwards, the process. It finds the file and stops. -/
def sfsRead (path : CStr) (buf : List Byte) (_offset : BitVec 64) (s : Process) : Int × List Byte × Process :=
  let r := lookupPath path s
  (r.1, buf, r.2)

/-- `capacity` (`:401-402`): `block` is an array of 60 `char`, so it counts 60 blocks, not the 15 of the
comment. -/
def capacity : Nat := 60 * BLOCK_SIZE

/-- `sfs_write`. The loop over `numBlocks` is empty, and `bytes_written` stays -1. -/
def sfsWrite (path : CStr) (buf : List Byte) (_offset : BitVec 64) (s : Process) : Int × Process :=
  match findFileOrDir s.tbl path with
  | some _ => if buf.length ≤ capacity then (-1, s) else (-1, { s with errno := EFBIG })
  | none => (-1, { s with errno := ENOENT })

/-! ## Listing -/

/-- The names passed to `filler`, and how the call ends. -/
inductive Listing where
  | done (ret : Int) (names : List CStr)
  /-- The loop reads `dirContents[MAX_FILES_IN_DIR]`. -/
  | outOfBounds (names : List CStr)
deriving DecidableEq

/-- `p->fileName`; there is nothing to read behind any other address. -/
def Table.nameAt (t : Table) : Ptr → CStr
  | .inode s => (t.inodes s).name
  | _ => []

/-- The `while` loop at `:523-533`, `left` positions before the end of the array. -/
def readdirLoop (t : Table) (directory : FileControlBlock Ptr) :
    (left i : Nat) → (names : List CStr) → Listing
  | 0, _, names => .outOfBounds names
  | left + 1, i, names =>
    if directory.entry i = .null then .done 0 names
    else readdirLoop t directory left (i + 1) (names ++ [t.nameAt (directory.entry i)])

/-- `"."` and `".."`. -/
def dots : List CStr := [[46], [46, 46]]

def sfsReaddir (path : CStr) (t : Table) : Listing :=
  match findFileOrDir t path with
  | none => .done (-1) dots
  | some d => readdirLoop t (t.inodes d) MAX_FILES_IN_DIR 0 dots

/-! ## Unmounting -/

def sfsDestroy (s : Process) : Process := (flushAllInodesTodisk false s).2

/-! ## Runs -/

inductive FuseOp where
  | create (p : AbsPath) (mode : BitVec 32)
  | mkdir (p : AbsPath) (mode : BitVec 32)
  | unlink (p : AbsPath)
  | rmdir (p : AbsPath)

/-- One call, with what it learns from the operating system. -/
structure FuseCall where
  op : FuseOp
  env : Env

/-- The return value of a call and the process after it. -/
def FuseCall.exec (s : Process) (c : FuseCall) : Int × Process :=
  match c.op with
  | .create p mode => sfsCreate c.env p.str mode s
  | .mkdir p mode => sfsMkdir c.env p.str mode s
  | .unlink p => sfsUnlink p.str s
  | .rmdir p => sfsRmdir p.str s

/-- The process after a call. -/
def fuseStep (s : Process) (c : FuseCall) : Process := (c.exec s).2

end Sfs
