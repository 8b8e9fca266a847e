import SimpelDateisystem.PathSplit
import SimpelDateisystem.RemoveEntry

/-!
# `create_inode` and `remove_inode`, with every access checked

The functions of `DateiSteuerBlock.c` up to the flush, once more: each index is compared with the length of
its array, each pointer followed must be the address of a slot, each string read must be terminated inside
its buffer, and each copy must fit. They are `none` where one of these checks fails.

| here | there |
| --- | --- |
| `findFileOrDir?`        | `findFileOrDir` (`DateiSteuerBlock.c:324`) |
| `addToDirentryAt?`      | `add_to_direntry` (`:115`) |
| `removeFromDirentryAt?` | `remove_from_direntry` (`:174`) |
| `createTable?`          | `create_inode` (`:211-264`) |
| `removeTable?`          | `remove_inode` (`:279-285`) |

`checked_run`: in every state creates and removes can reach, the checks hold for every path but one, the
root's, which `remove_inode` would look up `inodes[-1]` for.
-/

namespace Sfs

open Trace CString

/-- Index `x` of an array of `n` elements. -/
def index? (n : Nat) (x : Int) : Option Nat := if 0 ≤ x ∧ x < n then some x.toNat else none

/-- The first of `rounds` numbers from `i` on that passes a checked test. -/
def firstFrom? (test : Nat → Option Bool) : (rounds i : Nat) → Option (Option Nat)
  | 0, _ => some none
  | rounds + 1, i => do
    if ← test i then some (some i) else firstFrom? test rounds (i + 1)

/-- `exitIndex`, with a checked test. -/
def exitIndex? (test : Nat → Option Bool) : Option Nat :=
  (firstFrom? test MAX_FILES_IN_DIR 0).map (·.getD MAX_FILES_IN_DIR)

/-- `strcpy` into an array. -/
def strcpyArray? {n : Nat} (dst : Vector Byte n) (src : CStr) : Option (Vector Byte n) :=
  if src.length < n then some (strcpyArray dst src) else none

/-- `p->inumber`. -/
def Table.inumberAt? (t : Table) : Ptr → Option (BitVec 16)
  | .inode s => (index? TABLE_SIZE s).map fun s => (t.inodes s).inumber
  | _ => none

def Table.freeSlot? (t : Table) : Option (Option Nat) :=
  firstFrom? (fun i => (index? MAX_BLOCKS i).map fun i => t.sBlock.ibit i ≠ 1) (t.count - 1) 1

section lookup

variable (r00t : Vector Byte 2) (t : Table)

/-- The parent's name is computed when the other name fits. -/
def matchesPath? (filePath : CStr) (x : Nat) : Option Bool := do
  let x ← index? TABLE_SIZE x
  let name ← cstr? (t.inodes x).fileName.toList
  if name = relativeName filePath then
    match ← getRelativeParentName? toInt32 r00t filePath with
    | some relativeParentName => (cstr? (t.inodes x).parentDir.toList).map fun dir => dir = relativeParentName
    | none => some true
  else some false

def findFileOrDir? (filePath : CStr) : Option (Option Nat) :=
  if filePath = [slash] then some (some findRootOrDieTrying)
  else firstFrom? (matchesPath? r00t t filePath) t.count 0

def parentSlot? (path parentDir : CStr) : Option (Option Nat) :=
  if parentDir = [slash] then some (some findRootOrDieTrying)
  else (absolutePathToParent? path).bind (findFileOrDir? r00t t)

end lookup

def addToDirentryAt? (t : Table) (parent child : Nat) : Option (Bool × Table) := do
  let f := t.inodes parent
  let i ← exitIndex? fun i => (f.entryAt? i).map fun p => p = .null
  let t' ← if i < MAX_FILES_IN_DIR then (f.setEntryAt? i (.inode child)).map (t.setInode parent) else some t
  some (if MAX_FILES_IN_DIR < i then (false, t') else (true, t'))

def removeFromDirentryAt? (t : Table) (parent child : Nat) : Option (Bool × Table) := do
  let f := t.inodes parent
  let i ← exitIndex? fun i => do
    let p ← f.entryAt? i
    if p = .null then some false else (t.inumberAt? p).map fun inumber => inumber = (t.inodes child).inumber
  if i < MAX_FILES_IN_DIR then indexedRemoveFromDirentryAt? t parent i
  else if MAX_FILES_IN_DIR < i then some (false, t)
  else some (true, t)

/-- The assignments to the new slot; the two copies come first. -/
def initInode? (e : Env) (t : Table) (i parent : Nat) (relName parentDir : CStr) (mode : BitVec 32) : Option Table := do
  let _ ← strcpyArray? (t.inodes i).fileName relName
  let _ ← strcpyArray? (t.inodes i).parentDir parentDir
  some (initInode e t i parent relName parentDir mode)

/-- `create_inode` up to the flush; `r00t` is what `malloc` returns there. -/
def createTable? (r00t : Vector Byte 2) (e : Env) (path : CStr) (mode : BitVec 32) (t : Table) :
    Option (Option Nat × Table) := do
  match ← t.freeSlot? with
  | none => some (none, t)
  | some i =>
    match ← getRelativeParentName? toInt32 r00t path with
    | none => some (none, t)
    | some parentDir =>
      match ← parentSlot? r00t t path parentDir with
      | none => some (none, t)
      | some parent =>
        let i ← index? TABLE_SIZE i
        let r ← addToDirentryAt? t parent i
        if r.1 then
          let t ← initInode? e r.2 i parent (relativeName path) parentDir mode
          let i ← index? MAX_BLOCKS i
          some (some i, t.setIbit i 1)
        else some (none, r.2)

/-- `remove_inode` up to the flush. -/
def removeTable? (r00t : Vector Byte 2) (filePath : CStr) (t : Table) : Option (Bool × Table) := do
  match ← findFileOrDir? r00t t filePath with
  | none => some (false, t)
  | some f =>
    let p ← index? TABLE_SIZE (t.inodes f).parentInumber.toInt
    let r ← removeFromDirentryAt? t p f
    if r.1 then
      let i ← index? MAX_BLOCKS (r.2.inodes f).inumber.toInt
      some (true, r.2.setIbit i 0)
    else some (false, r.2)

/-! ## Loops and copies -/

theorem index?_natCast {n x : Nat} (hx : x < n) : index? n x = some x := by
  rw [index?, if_pos ⟨by omega, by omega⟩, Int.toNat_natCast]

/-- A loop whose tests are in bounds finds what the unchecked one does. -/
theorem firstFrom?_eq {test : Nat → Option Bool} {p : Nat → Bool} : ∀ {rounds i : Nat},
    (∀ j, i ≤ j → j < i + rounds → test j = some (p j)) →
    firstFrom? test rounds i = some ((List.range' i rounds).find? p)
  | 0, i, _ => rfl
  | rounds + 1, i, h => by
    rw [firstFrom?, h i (Nat.le_refl i) (by omega), List.range'_succ, List.find?_cons]
    cases p i with
    | true => rfl
    | false => exact firstFrom?_eq fun j h1 h2 => h j (by omega) (by omega)

theorem exitIndex?_eq {test : Nat → Option Bool} {p : Nat → Bool}
    (h : ∀ j < MAX_FILES_IN_DIR, test j = some (p j)) : exitIndex? test = some (exitIndex p) := by
  rw [exitIndex?, firstFrom?_eq fun j _ hj => h j (by omega), Option.map_some, exitIndex, List.range_eq_range']

theorem strcpyArray?_eq {n : Nat} (dst : Vector Byte n) {src : CStr} (h : src.length < n) :
    strcpyArray? dst src = some (strcpyArray dst src) := if_pos h

/-- A buffer whose string is shorter than it is terminated. -/
theorem cstr?_of_length_lt {buf : List Byte} (h : (cstr buf).length < buf.length) : cstr? buf = some (cstr buf) := by
  refine if_pos (by_contra fun hno => ?_)
  have hwhole : cstr buf = buf := List.takeWhile_eq_self_iff.2 fun b hb => by
    have hne : b ≠ 0 := fun h0 => hno (h0 ▸ hb)
    simpa using hne
  rw [hwhole] at h
  exact Nat.lt_irrefl _ h

/-! ## Paths -/

namespace AbsPath

variable {p : AbsPath} (r00t : Vector Byte 2)

theorem getRelativeParentName?_str (hlen : p.str.length < 2 ^ 31) :
    getRelativeParentName? toInt32 r00t p.str = some (some p.parentName) := by
  obtain rfl | ⟨q, c, rfl⟩ := p.eq_nil_or_concat
  · exact getRelativeParentName?_top (c := []) (by simp) (toInt32_natCast (n := 0) (by decide))
  rw [List.concat_eq_append, str_concat] at hlen ⊢
  obtain rfl | ⟨q, d, rfl⟩ := q.eq_nil_or_concat
  · exact getRelativeParentName?_top c.noSlash (toInt32_natCast (n := 0) (by decide))
  · rw [List.concat_eq_append, List.map_append, List.map_singleton, join_concat] at hlen ⊢
    rw [parentName_concat]
    refine getRelativeParentName?_append _ (zero_notMem_join_bytes q) d.noSlash d.noNul c.noSlash (toInt32_natCast ?_)
    rw [List.length_append] at hlen
    omega

theorem absolutePathToParent?_str (hp : p.parent ≠ []) : absolutePathToParent? p.str = some p.parent.str := by
  obtain rfl | ⟨q, c, rfl⟩ := p.eq_nil_or_concat
  · exact absurd rfl hp
  rw [List.concat_eq_append, parent_concat] at hp ⊢
  rw [str_concat, absolutePathToParent?_append (zero_notMem_join_bytes q) c.noSlash, str, if_neg hp]

/-- The parent's path is no longer. -/
theorem length_parent_le (p : AbsPath) : p.parent.str.length ≤ p.str.length := by
  obtain rfl | ⟨q, c, rfl⟩ := p.eq_nil_or_concat
  · exact Nat.le_refl _
  rw [List.concat_eq_append, parent_concat, str_concat, str, List.length_append, List.length_cons]
  split
  · rw [List.length_singleton]
    omega
  · omega

end AbsPath

/-! ## The functions -/

namespace Table

/-- Every name is shorter than its array. -/
def ShortNames (t : Table) : Prop :=
  ∀ x < TABLE_SIZE, (t.inodes x).name.length < NAME_SIZE ∧ (t.inodes x).dir.length < NAME_SIZE

section lookup

variable {t : Table} {p : AbsPath} (hsize : t.count ≤ TABLE_SIZE)

include hsize

theorem freeSlot?_eq : t.freeSlot? = some t.freeSlot := by
  have hmax : TABLE_SIZE ≤ MAX_BLOCKS := by decide
  refine firstFrom?_eq fun j _ hj => ?_
  rw [index?_natCast (by omega), Option.map_some]

variable (hshort : t.ShortNames) (r00t : Vector Byte 2) (hlen : p.str.length < 2 ^ 31)

include hshort hlen

theorem findFileOrDir?_eq : findFileOrDir? r00t t p.str = some (t.lookup p) := by
  have hmatch : ∀ x < TABLE_SIZE, matchesPath? r00t t p.str x = some (matchesPath t p.str x) := by
    intro x hx
    obtain ⟨hname, hdir⟩ := hshort x hx
    have hname' : cstr? (t.inodes x).fileName.toList = some (t.inodes x).name :=
      cstr?_of_length_lt (by rw [Vector.length_toList]; exact hname)
    have hdir' : cstr? (t.inodes x).parentDir.toList = some (t.inodes x).dir :=
      cstr?_of_length_lt (by rw [Vector.length_toList]; exact hdir)
    rw [matchesPath?, matchesPath, index?_natCast hx, p.getRelativeParentName_str]
    simp only [Option.bind_eq_bind, Option.bind_some, hname', hdir', AbsPath.getRelativeParentName?_str r00t hlen,
      Option.map_some]
    by_cases heq : (t.inodes x).name = relativeName p.str
    · simp [heq]
    · simp [heq]
  rw [lookup, findFileOrDir?, findFileOrDir]
  split
  · rfl
  · rw [firstFrom?_eq fun x _ hx => hmatch x (by omega), List.range_eq_range']

theorem parentSlot?_eq : parentSlot? r00t t p.str p.parentName = some (t.lookup p.parent) := by
  rw [parentSlot?]
  by_cases hp : p.parent = []
  · rw [if_pos (AbsPath.parentName_eq_root_iff.2 hp), hp, lookup_nil]
    rfl
  · have hle := p.length_parent_le
    rw [if_neg (mt AbsPath.parentName_eq_root_iff.1 hp), AbsPath.absolutePathToParent?_str hp, Option.bind_some]
    exact findFileOrDir?_eq hsize hshort r00t (by omega)

end lookup

theorem addToDirentryAt?_eq (t : Table) (parent child : Nat) :
    addToDirentryAt? t parent child = some (addToDirentry t parent child) := by
  have hexit : exitIndex? (fun i => ((t.inodes parent).entryAt? i).map fun p => decide (p = .null)) =
      some (exitIndex fun i => (t.inodes parent).entry i = .null) :=
    exitIndex?_eq fun j hj => by rw [FileControlBlock.entryAt?_eq hj, Option.map_some]
  simp only [addToDirentryAt?, addToDirentry, hexit, Option.bind_eq_bind, Option.bind_some]
  split
  · rw [FileControlBlock.setEntryAt?_eq _ ‹_›]
    rfl
  · rfl

/-- A directory whose entries are addresses of slots. -/
theorem Inv.removeFromDirentryAt?_eq {t : Table} (h : t.Inv) {d : Nat} (hd : d < TABLE_SIZE) (child : Nat) :
    removeFromDirentryAt? t d child = some (removeFromDirentry t d child) := by
  have hsize := h.le_size
  have hexit : (exitIndex? fun j => ((t.inodes d).entryAt? j).bind fun p => if p = .null then some false
        else (t.inumberAt? p).map fun inumber => decide (inumber = (t.inodes child).inumber)) =
      some (exitIndex fun j => t.inumberAt ((t.inodes d).entry j) = some (t.inodes child).inumber) := by
    refine exitIndex?_eq fun j hj => ?_
    rw [FileControlBlock.entryAt?_eq hj, Option.bind_some]
    by_cases hocc : (t.inodes d).Occupied j
    · obtain ⟨x, hx, _, hlt, _⟩ := h.entry d hd j hj hocc
      rw [hx, if_neg (by simp), inumberAt?, index?_natCast (by omega), inumberAt]
      simp
    · rw [not_not.1 hocc, if_pos rfl]
      rfl
  simp only [removeFromDirentryAt?, removeFromDirentry, Option.bind_eq_bind, hexit, Option.bind_some]
  split
  · rw [indexedRemoveFromDirentryAt?_eq ‹_› (h.lastFilledLast d hd)]
    split
    · exact congrArg some (Prod.ext ‹_› rfl)
    · exact congrArg some (Prod.ext (Bool.eq_false_of_not_eq_true ‹_›) rfl)
  · split <;> rfl

end Table

section functions

variable {s : Process} {p : AbsPath} (h : s.tbl.Inv) (hshort : s.tbl.ShortNames) (r00t : Vector Byte 2)

include h hshort

/-- **`create_inode` stays in bounds**, for every path. -/
theorem createTable?_eq (e : Env) (mode : BitVec 32) (hlen : p.str.length < 2 ^ 31) :
    createTable? r00t e p.str mode s.tbl =
      some ((createInode e p.str mode s).1, (createInode e p.str mode s).2.tbl) := by
  have hsize := h.le_size
  have hmax : TABLE_SIZE ≤ MAX_BLOCKS := by decide
  have hname := AbsPath.getRelativeParentName?_str r00t hlen
  have hslot := Table.parentSlot?_eq hsize hshort r00t hlen
  simp only [createTable?, Table.freeSlot?_eq hsize, Option.bind_eq_bind, Option.bind_some]
  rcases createInode_cases e p mode s with ⟨i, parent, hi, hparent, heq⟩ | ⟨hno, heq⟩ <;> rw [heq]
  · obtain ⟨_, hlt, _⟩ := Table.freeSlot_spec hi
    simp only [hi, hname, Option.bind_some, hslot, hparent, index?_natCast (Nat.lt_of_lt_of_le hlt hsize),
      Table.addToDirentryAt?_eq, addToDirentry_fst, if_true, tbl_flush, p.relativeName_str, initInode?,
      strcpyArray?_eq _ p.leaf_short, strcpyArray?_eq _ p.parentName_short,
      index?_natCast (show i < MAX_BLOCKS by omega)]
    rfl
  · cases hi : s.tbl.freeSlot with
    | none => rfl
    | some i => simp only [hname, Option.bind_some, hslot, hno.resolve_left (by rw [hi]; simp)]

/-- **`remove_inode` stays in bounds**, for every path but the root's. -/
theorem removeTable?_eq (hp : p ≠ []) (hlen : p.str.length < 2 ^ 31) :
    removeTable? r00t p.str s.tbl = some ((removeInode p.str s).1, (removeInode p.str s).2.tbl) := by
  have hsize := h.le_size
  have hmax : TABLE_SIZE ≤ MAX_BLOCKS := by decide
  simp only [removeTable?, Table.findFileOrDir?_eq hsize hshort r00t hlen, Option.bind_eq_bind, Option.bind_some]
  rcases removeInode_cases h hp with ⟨f, hf, heq⟩ | ⟨hnone, heq⟩ <;> rw [heq]
  · obtain ⟨_, hlt, hu⟩ := h.lookup_used hp hf
    obtain ⟨hpar, hnum⟩ := h.parentOf_used hu
    have hlast := h.lastFilledLast _ (h.parentOf_lt_size hu)
    have hindex : index? TABLE_SIZE (s.tbl.inodes f).parentInumber.toInt = some (s.tbl.parentOf f) := by
      rw [hnum, Table.toInt_ofNat (h.parentOf_lt_size hu), index?_natCast (h.parentOf_lt_size hu)]
    have hinumber : ((removeFromDirentry s.tbl (s.tbl.parentOf f) f).2.inodes f).inumber = BitVec.ofNat 16 f := by
      have hsame := Table.inumber_removed hlast (f := f) f
      exact hsame.trans hu.inumber
    simp only [hf, hindex, Option.bind_some, h.removeFromDirentryAt?_eq (h.parentOf_lt_size hu),
      removeFromDirentry_fst f hlast, if_true, hinumber, Table.toInt_ofNat (Nat.lt_of_lt_of_le hlt hsize),
      index?_natCast (show f < MAX_BLOCKS by omega), tbl_flush]
    rfl
  · simp only [hnone]

omit hshort in
/-- The parent of the root is `inodes[-1]`. -/
theorem removeTable?_root : removeTable? r00t (AbsPath.str []) s.tbl = none := by
  have hroot : findFileOrDir? r00t s.tbl (AbsPath.str []) = some (some 0) := if_pos rfl
  simp only [removeTable?, hroot, Option.bind_eq_bind, Option.bind_some, h.rootParent]
  rfl

end functions

/-! ## Over whole runs -/

theorem Process.JustFormatted.shortNames {s : Process} (h : s.JustFormatted) : s.tbl.ShortNames := by
  intro x hx
  obtain rfl | h1 := Nat.eq_zero_or_pos x
  · rw [h.tbl.rootName, h.tbl.rootDir]
    decide
  · rw [h.tbl.inodes x h1 hx]
    decide

/-- **No call stores a name that does not fit.** -/
theorem inodeStep_shortNames {s : Process} {c : InodeCall} (h : s.tbl.Inv ∧ s.tbl.ShortNames) (hc : c.NonRoot) :
    (inodeStep s c).tbl.Inv ∧ (inodeStep s c).tbl.ShortNames := by
  refine ⟨inodeStep_inv h.1 hc, fun x hx => ?_⟩
  have hold := h.2 x hx
  rcases inodeStep_cases c h.1 hc with
    ⟨p, mode, i, parent, _, _, _, _, htbl⟩ | ⟨p, f, hp, _, hf, _, htbl⟩ | ⟨_, _, _, heq⟩
  · rw [htbl, Table.name_created, Table.dir_created]
    split
    · exact ⟨p.leaf_short, p.parentName_short⟩
    · exact hold
  · obtain ⟨_, _, hu⟩ := h.1.lookup_used hp hf
    have hlast := h.1.lastFilledLast _ (h.1.parentOf_lt_size hu)
    rwa [htbl, Table.name_removed hlast, Table.dir_removed hlast]
  · rwa [heq]

/-- **Creates and removes stay in bounds**, in every state they can reach: each returns what it returns
without the checks and leaves the same table. Only removing the root is caught. -/
theorem checked_run {s : Process} (hs : s.JustFormatted) {cs : List InodeCall} (hcs : ∀ c ∈ cs, c.NonRoot)
    (r00t : Vector Byte 2) (e : Env) (mode : BitVec 32) {p : AbsPath} (hlen : p.str.length < 2 ^ 31) :
    let s' := exec inodeStep s cs
    createTable? r00t e p.str mode s'.tbl =
      some ((createInode e p.str mode s').1, (createInode e p.str mode s').2.tbl) ∧
    removeTable? r00t p.str s'.tbl =
      if p = [] then none else some ((removeInode p.str s').1, (removeInode p.str s').2.tbl) := by
  have hstep : ∀ (s : Process) (c : InodeCall), s.tbl.Inv ∧ s.tbl.ShortNames → c.NonRoot →
      (inodeStep s c).tbl.Inv ∧ (inodeStep s c).tbl.ShortNames := fun _ _ h hc => inodeStep_shortNames h hc
  obtain ⟨h, hshort⟩ : (exec inodeStep s cs).tbl.Inv ∧ (exec inodeStep s cs).tbl.ShortNames :=
    EachStep.invariant hstep ⟨hs.inv, hs.shortNames⟩ (eachStep_of_forall_mem s cs hcs)
  refine ⟨createTable?_eq h hshort r00t e mode hlen, ?_⟩
  split
  · rename_i hp
    rw [hp]
    exact removeTable?_root h r00t
  · rename_i hp
    exact removeTable?_eq h hshort r00t hp hlen

/-- `/a` after `/a` and `/b` are created. -/
theorem checked_run_twoEntries :
    let s' := exec inodeStep (formatted 200000) twoEntries
    createTable? (Vector.replicate 2 255) ⟨1000, 1000, 0⟩ (AbsPath.str [.a]) 0o644 s'.tbl =
      some ((createInode ⟨1000, 1000, 0⟩ (AbsPath.str [.a]) 0o644 s').1,
        (createInode ⟨1000, 1000, 0⟩ (AbsPath.str [.a]) 0o644 s').2.tbl) ∧
    removeTable? (Vector.replicate 2 255) (AbsPath.str [.a]) s'.tbl =
      if ([.a] : AbsPath) = [] then none
      else some ((removeInode (AbsPath.str [.a]) s').1, (removeInode (AbsPath.str [.a]) s').2.tbl) :=
  checked_run justFormatted_three twoEntries_run.1 _ _ _ (by decide)

end Sfs
