import SimpelDateisystem.Lib.SlotMap
import SimpelDateisystem.Requests
import SimpelDateisystem.Trays

/-!
# The namespace the file system keeps

What the requests have to do with each other, without the table: a `Namespace` binds the last two names
of a path to a slot, knows which slots are allocated and the attributes of each, keeps a tray of names for
each slot, and remembers `errno`. It is a map of names, not a tree: a listing is read off a tray, and nothing
else is.

* `Namespace.exec` — what each request answers and changes, in these terms;
* `Table.names`, `Table.trays` — what of a table is in it;
* `answers_refine` — in every run that creates on paths that do not resolve, the file system answers as
  its namespace does.
-/

namespace Sfs

open Trace CString

/-! ## The specification -/

/-- The attributes `sfs_getattr` reports. -/
structure Attr where
  size : BitVec 64
  mode : BitVec 16
  uid : BitVec 16
  time : BitVec 64

structure Namespace where
  slots : SlotMap Key Attr
  /-- The tray of each slot; it outlives the directory. -/
  trays : Nat → Tray Key MAX_FILES_IN_DIR
  errno : Int

/-- The attributes of a new inode; the size is the one its slot had. -/
def Attr.created (e : Env) (mode : BitVec 32) (a : Attr) : Attr :=
  { a with mode := mode.setWidth 16, uid := e.uid.setWidth 16, time := e.now }

/-- What `stat` shows of an inode. Types other than the three known ones are left as they were. -/
def Attr.stat (e : Env) (a : Attr) (st : Stat) : Stat where
  stDev := 0
  stIno := 0
  stMode := if a.mode.toInt = 493 ∨ a.mode.toInt = 16384 then S_IFDIR
    else if a.mode.toInt = -32348 then S_IFREG else st.stMode
  stNlink := 0
  stUid := a.uid.signExtend 32
  stGid := e.gid
  stRdev := 0
  stSize := a.size
  stAtime := a.time
  stMtime := a.time
  stCtime := a.time
  stBlksize := 4096
  stBlocks := 0

/-- What it shows of the paths answered from the root's attributes. -/
def Attr.dummyStat (e : Env) (path : CStr) (a : Attr) : Stat where
  stDev := 0
  stIno := 0
  stMode := if path = [slash] then S_IFDIR ||| 0o755#32 else S_IFREG ||| 0o666#32
  stNlink := 0
  stUid := a.uid.signExtend 32
  stGid := e.gid
  stRdev := 0
  stSize := a.size
  stAtime := a.time
  stMtime := 0
  stCtime := 0
  stBlksize := 4096
  stBlocks := 0

namespace Namespace

/-- The slot a path is bound to; the root is slot 0. -/
def resolve (n : Namespace) (p : AbsPath) : Option Nat := if p = [] then some 0 else n.slots.find p.key

/-- Creating binds the path to the lowest free slot, if its parent resolves, and puts its names on the
parent's tray. -/
def create (e : Env) (p : AbsPath) (mode : BitVec 32) (n : Namespace) : Option Nat × Namespace :=
  match n.resolve p.parent with
  | none => (none, n)
  | some parent =>
    match n.slots.assign p.key (Attr.created e mode) with
    | (none, _) => (none, n)
    | (some i, slots) =>
      (some i, { n with slots := slots, trays := Function.update n.trays parent ((n.trays parent).put p.key) })

/-- Removing frees the slot and leaves the path bound to it. Its names go from whatever tray they are on. -/
def remove (p : AbsPath) (n : Namespace) : Int × Namespace :=
  match n.slots.erase p.key with
  | (false, _) => (-ENOENT, { n with errno := ENOENT })
  | (true, slots) => (0, { n with slots := slots, trays := fun d => (n.trays d).remove p.key })

/-- A request that only asks whether the path resolves. -/
def ask (p : AbsPath) (n : Namespace) : Int × Namespace :=
  match n.resolve p with
  | some _ => (0, n)
  | none => (-ENOENT, { n with errno := ENOENT })

def list (p : AbsPath) (n : Namespace) : Listing :=
  match n.resolve p with
  | some d => listingOf (n.trays d)
  | none => .done (-1) dots

def getattr (e : Env) (p : AbsPath) (statbuf : Option Stat) (n : Namespace) : Int × Option Stat × Namespace :=
  if PATH_MAX < p.str.length then (-1, statbuf, { n with errno := ENAMETOOLONG })
  else
    match statbuf with
    | none => (-1, none, { n with errno := EIO })
    | some st =>
      if dummyPath p.str then (0, some ((n.slots.value 0).dummyStat e p.str), n)
      else
        match n.resolve p with
        | none => (-ENOENT, some st, n)
        | some x => (0, some ((n.slots.value x).stat e st), n)

/-- Nothing is ever written; what `errno` says depends on the length and the path. -/
def write (p : AbsPath) (length : Nat) (n : Namespace) : Int × Namespace :=
  match n.resolve p with
  | some _ => if length ≤ capacity then (-1, n) else (-1, { n with errno := EFBIG })
  | none => (-1, { n with errno := ENOENT })

def change (e : Env) (op : FuseOp) (n : Namespace) : Int × Namespace :=
  match op with
  | .create p mode =>
    match n.create e p mode with
    | (none, n) => (-n.errno, n)
    | (some _, n) => (0, n)
  | .mkdir p mode =>
    if mode = 493 then (0, (n.create e p S_IFDIR).2)
    else if mode = BitVec.ofInt 32 (-32348) then (0, (n.create e p S_IFREG).2)
    else (0, n)
  | .unlink p => n.remove p
  | .rmdir p => n.remove p

/-- **The specification of a request.** -/
def exec (n : Namespace) (r : Request) : Reply × Namespace :=
  match r.op with
  | .change op =>
    let a := n.change r.env op
    (.ret a.1, a.2)
  | .getattr p statbuf =>
    let a := n.getattr r.env p statbuf
    (.attr a.1 a.2.1, a.2.2)
  | .openFile p | .releaseFile p | .openDir p =>
    let a := n.ask p
    (.ret a.1, a.2)
  | .readDir p => (.listing (n.list p), n)
  | .releaseDir _ => (.ret 0, n)
  | .readFile p buf _ =>
    let a := n.ask p
    (.data a.1 buf, a.2)
  | .writeFile p buf _ =>
    let a := n.write p buf.length
    (.ret a.1, a.2)

end Namespace

/-! ## What a table knows of it -/

def FileControlBlock.attr (f : FileControlBlock Ptr) : Attr := ⟨f.fileSize, f.mode, f.uid, f.time⟩

namespace Table

/-- Slot `x` stores the two names. -/
def Stores (t : Table) (k : Key) (x : Nat) : Prop := (t.inodes x).name = k.1 ∧ (t.inodes x).dir = k.2

instance (t : Table) (k : Key) (x : Nat) : Decidable (t.Stores k x) := by unfold Stores; infer_instance

/-- The first slot that stores the two names. A slot without a name was never taken. -/
def findKey (t : Table) (k : Key) : Option Nat :=
  if k.1 = [] then none else (List.range t.count).find? fun x => t.Stores k x

variable {t : Table}

theorem findKey_eq_some_iff {k : Key} {x : Nat} :
    t.findKey k = some x ↔ k.1 ≠ [] ∧ x < t.count ∧ t.Stores k x ∧ ∀ y < x, ¬ t.Stores k y := by
  unfold findKey
  by_cases hk : k.1 = []
  · rw [if_pos hk]
    exact iff_of_false (by simp) fun h => h.1 hk
  · rw [if_neg hk, List.find?_range_eq_some]
    simp only [decide_eq_true_eq, List.mem_range, Bool.not_eq_eq_eq_not, Bool.not_true, decide_eq_false_iff_not]
    tauto

/-- **The namespace of a table.** -/
def names (t : Table) : SlotMap Key Attr where
  capacity := t.count
  find := t.findKey
  live x := decide (t.Alloc x)
  value x := (t.inodes x).attr
  find_lt k x h := (findKey_eq_some_iff.1 h).2.1
  find_inj := by
    intro k k' x h h'
    obtain ⟨_, _, ⟨hname, hdir⟩, _⟩ := findKey_eq_some_iff.1 h
    obtain ⟨_, _, ⟨hname', hdir'⟩, _⟩ := findKey_eq_some_iff.1 h'
    exact Prod.ext (hname.symm.trans hname') (hdir.symm.trans hdir')

/-- With distinct names no other slot is in the way. -/
theorem DistinctNames.findKey_iff (hd : t.DistinctNames) {k : Key} {x : Nat} :
    t.findKey k = some x ↔ k.1 ≠ [] ∧ x < t.count ∧ t.Stores k x := by
  rw [findKey_eq_some_iff]
  refine ⟨fun ⟨h1, h2, h3, _⟩ => ⟨h1, h2, h3⟩, fun ⟨h1, h2, h3⟩ => ⟨h1, h2, h3, fun y hy hyk => ?_⟩⟩
  refine hd x h2 y (Nat.lt_trans hy h2) (Nat.ne_of_gt hy) (by rw [h3.1]; exact h1) ?_
  exact ⟨h3.1.trans hyk.1.symm, h3.2.trans hyk.2.symm⟩

/-- A path resolves to the slot its two names are bound to. -/
theorem findKey_key {p : AbsPath} (hp : p ≠ []) : t.findKey p.key = t.lookup p := by
  refine Option.ext fun x => ?_
  rw [findKey_eq_some_iff, lookup_eq_some_iff hp]
  exact and_iff_right (AbsPath.leaf_ne_nil hp)

/-- The lowest free slot is the one `create_inode` finds. -/
theorem free_names : t.names.free = t.freeSlot := by
  unfold SlotMap.free freeSlot
  congr 1
  funext x
  simp [names, Alloc]

/-- **A create takes the slot for the path's names.** -/
theorem names_created {e : Env} {p : AbsPath} {mode : BitVec 32} {i parent : Nat} (h : t.Inv)
    (hd : t.DistinctNames) (hnone : t.lookup p = none) (hi : i < t.names.capacity) :
    (t.created e p mode i parent).names = t.names.take p.key (Attr.created e mode) i hi := by
  have hp := ne_nil_of_lookup_eq_none hnone
  have hd' : (t.created e p mode i parent).DistinctNames := distinctNames_created hnone hd
  have hstores : ∀ k x, (t.created e p mode i parent).Stores k x ↔
      if x = i then p.key = k else t.Stores k x := by
    intro k x
    rw [Stores, name_created, dir_created]
    by_cases hx : x = i
    · rw [if_pos hx, if_pos hx, if_pos hx]
      exact (show p.key = k ↔ _ from Prod.ext_iff).symm
    · rw [if_neg hx, if_neg hx, if_neg hx, Stores]
  refine SlotMap.ext (count_created e p mode t i parent) (funext fun k => Option.ext fun x => ?_)
    (funext fun x => ?_) (funext fun x => ?_)
  · change (t.created e p mode i parent).findKey k = some x ↔ _
    rw [SlotMap.find_take_iff, hd'.findKey_iff, count_created, hstores]
    change _ ↔ _ ∨ t.findKey k = some x ∧ _
    by_cases hx : x = i
    · subst hx
      rw [if_pos rfl]
      refine ⟨fun ⟨_, _, hk⟩ => .inl ⟨hk.symm, rfl⟩, fun hk => ?_⟩
      obtain ⟨rfl, _⟩ := hk.resolve_right fun hk => hk.2.2 rfl
      exact ⟨AbsPath.leaf_ne_nil hp, hi, rfl⟩
    · rw [if_neg hx, ← hd.findKey_iff]
      refine ⟨fun hk => .inr ⟨hk, ?_, hx⟩, fun hk => (hk.resolve_left fun hk => hx hk.2).1⟩
      rintro rfl
      rw [findKey_key hp, hnone] at hk
      cases hk
  · change decide ((t.created e p mode i parent).Alloc x) = Function.update (fun x => decide (t.Alloc x)) i true x
    simp only [h.alloc_created hi, Function.update_apply]
    by_cases hx : x = i <;> simp [hx]
  · change ((t.created e p mode i parent).inodes x).attr =
      Function.update (fun x => (t.inodes x).attr) i (((t.inodes i).attr).created e mode) x
    obtain ⟨dc, pn, hinode⟩ := inodes_created e p mode t i parent x
    rw [hinode, Function.update_apply]
    by_cases hx : x = i <;> simp only [hx, if_true, if_false] <;> rfl

/-- **A remove frees the slot.** -/
theorem names_removed {f : Nat} (h : t.Inv) (hf : f < t.count) (hu : t.Used f) :
    (t.removed f (t.parentOf f)).names = t.names.release f := by
  have hlast := h.lastFilledLast _ (h.parentOf_lt_size hu)
  refine SlotMap.ext (count_removed t f (t.parentOf f)) (funext fun k => Option.ext fun x => ?_)
    (funext fun x => ?_) (funext fun x => ?_)
  · change (t.removed f (t.parentOf f)).findKey k = some x ↔ t.findKey k = some x
    simp only [findKey_eq_some_iff, count_removed, Stores, name_removed hlast, dir_removed hlast]
  · change decide ((t.removed f (t.parentOf f)).Alloc x) = Function.update (fun x => decide (t.Alloc x)) f false x
    simp only [Alloc, ibit_removed (h.lt_maxBlocks hf), Function.update_apply]
    by_cases hx : x = f <;> simp [hx]
  · obtain ⟨dc, hinode⟩ := inodes_removed hlast (f := f) x
    change ((t.removed f (t.parentOf f)).inodes x).attr = (t.inodes x).attr
    rw [hinode]
    rfl

end Table

/-- What a process knows of it. -/
def Process.toNamespace (s : Process) : Namespace := ⟨s.tbl.names, s.tbl.trays, s.errno⟩

/-! ## Runs -/

/-- Creates on paths that do not resolve, removes on any path below the root; the rest as it comes. -/
def NewPathAdmits (s : Process) (r : Request) : Prop :=
  match r.op with
  | .change (.create p _) => s.tbl.lookup p = none
  | .change (.mkdir p _) => s.tbl.lookup p = none
  | .change (.unlink p) => p ≠ []
  | .change (.rmdir p) => p ≠ []
  | _ => True

instance (s : Process) (r : Request) : Decidable (NewPathAdmits s r) :=
  match r with
  | ⟨.change (.create p _), _⟩ => inferInstanceAs (Decidable (s.tbl.lookup p = none))
  | ⟨.change (.mkdir p _), _⟩ => inferInstanceAs (Decidable (s.tbl.lookup p = none))
  | ⟨.change (.unlink p), _⟩ => inferInstanceAs (Decidable (p ≠ []))
  | ⟨.change (.rmdir p), _⟩ => inferInstanceAs (Decidable (p ≠ []))
  | ⟨.getattr _ _, _⟩ => .isTrue trivial
  | ⟨.openFile _, _⟩ => .isTrue trivial
  | ⟨.releaseFile _, _⟩ => .isTrue trivial
  | ⟨.openDir _, _⟩ => .isTrue trivial
  | ⟨.readDir _, _⟩ => .isTrue trivial
  | ⟨.releaseDir _, _⟩ => .isTrue trivial
  | ⟨.readFile _ _ _, _⟩ => .isTrue trivial
  | ⟨.writeFile _ _ _, _⟩ => .isTrue trivial

/-- What a run of such requests keeps. -/
structure NamesKept (s : Process) : Prop where
  inv : s.tbl.Inv
  distinct : s.tbl.DistinctNames

theorem Process.JustFormatted.namesKept {s : Process} (h : s.JustFormatted) : NamesKept s :=
  ⟨h.inv, h.tbl.distinctNames h.le_size⟩

section step

variable {s : Process} {p : AbsPath}

theorem resolve_toNamespace (s : Process) (p : AbsPath) : s.toNamespace.resolve p = s.tbl.lookup p := by
  by_cases hp : p = []
  · rw [Namespace.resolve, if_pos hp, hp, Table.lookup_nil]
  · rw [Namespace.resolve, if_neg hp]
    exact Table.findKey_key hp

theorem toNamespace_flush (s : Process) : (flushAllInodesTodisk false s).2.toNamespace = s.toNamespace := by
  rw [flushAllInodesTodisk_false]
  rfl

/-- `create_inode`, as the namespace sees it. -/
theorem create_toNamespace (h : NamesKept s) (hnone : s.tbl.lookup p = none) (e : Env) (mode : BitVec 32) :
    s.toNamespace.create e p mode = ((createInode e p.str mode s).1, (createInode e p.str mode s).2.toNamespace) := by
  rcases createInode_cases e p mode s with ⟨i, parent, hi, hparent, heq⟩ | ⟨hno, heq⟩
  · have hfree : s.toNamespace.slots.free = some i := Table.free_names.trans hi
    have hlt := (Table.freeSlot_spec hi).2.1
    have hd : parent < TABLE_SIZE := Nat.lt_of_lt_of_le (h.inv.lookup_inumber hparent).1 h.inv.le_size
    have hnames : (s.tbl.created e p mode i parent).names = s.tbl.names.take p.key (Attr.created e mode) i hlt :=
      Table.names_created h.inv h.distinct hnone hlt
    have htrays := Table.trays_created (p := p) h.inv hi hd e mode
    rw [heq, toNamespace_flush, Namespace.create, resolve_toNamespace, hparent]
    simp only [SlotMap.assign_of_free _ _ hfree]
    exact congrArg₂ (fun slots trays => (some i, Namespace.mk slots trays s.errno)) hnames.symm htrays.symm
  · rw [heq, Namespace.create, resolve_toNamespace]
    cases hparent : s.tbl.lookup p.parent with
    | none => rfl
    | some parent =>
      have hfull : s.toNamespace.slots.free = none :=
        Table.free_names.trans (hno.resolve_right (by rw [hparent]; simp))
      simp only [SlotMap.assign_of_full _ _ hfull]

/-- `remove_inode` and what `sfs_unlink` and `sfs_rmdir` make of it. -/
theorem remove_toNamespace (h : NamesKept s) (hp : p ≠ []) :
    s.toNamespace.remove p = ((removePath p.str s).1, (removePath p.str s).2.toNamespace) := by
  have hfind : s.toNamespace.slots.find p.key = s.tbl.lookup p := Table.findKey_key hp
  rcases removeInode_cases h.inv hp with ⟨f, hf, heq⟩ | ⟨hno, heq⟩
  · obtain ⟨_, hlt, hu⟩ := h.inv.lookup_used hp hf
    have hnames := Table.names_removed h.inv hlt hu
    have htrays := Table.trays_removed h.inv h.distinct hp hf
    rw [removePath, heq, Namespace.remove, SlotMap.erase, hfind, hf]
    simp only [toNamespace_flush]
    exact congrArg₂ (fun slots trays => ((0 : Int), Namespace.mk slots trays s.errno)) hnames.symm htrays.symm
  · rw [removePath, heq, Namespace.remove, SlotMap.erase, hfind, hno]
    rfl

theorem ask_toNamespace (s : Process) (p : AbsPath) :
    s.toNamespace.ask p = ((lookupPath p.str s).1, (lookupPath p.str s).2.toNamespace) := by
  have hfind : findFileOrDir s.tbl p.str = s.tbl.lookup p := rfl
  rw [Namespace.ask, resolve_toNamespace, lookupPath, hfind]
  cases s.tbl.lookup p <;> rfl

theorem list_toNamespace (h : s.tbl.Inv) (p : AbsPath) : s.toNamespace.list p = sfsReaddir p.str s.tbl := by
  rw [Namespace.list, resolve_toNamespace]
  cases hp : s.tbl.lookup p with
  | none => exact (readdir_eq_of_none hp).symm
  | some d =>
    have hd : d < TABLE_SIZE := Nat.lt_of_lt_of_le (h.lookup_inumber hp).1 h.le_size
    have htray : s.toNamespace.trays d = s.tbl.tray d := if_pos hd
    exact (congrArg listingOf htray).trans (readdir_eq_listingOf h hp).symm

theorem write_toNamespace (s : Process) (p : AbsPath) (buf : List Byte) (offset : BitVec 64) :
    s.toNamespace.write p buf.length =
      ((sfsWrite p.str buf offset s).1, (sfsWrite p.str buf offset s).2.toNamespace) := by
  have hfind : findFileOrDir s.tbl p.str = s.tbl.lookup p := rfl
  rw [Namespace.write, resolve_toNamespace, sfsWrite, hfind]
  cases s.tbl.lookup p with
  | none => rfl
  | some x =>
    by_cases hlen : buf.length ≤ capacity
    · simp only [if_pos hlen]
    · simp only [if_neg hlen]
      rfl

theorem getattr_toNamespace (e : Env) (s : Process) (p : AbsPath) (statbuf : Option Stat) :
    s.toNamespace.getattr e p statbuf = ((sfsGetattr e p.str statbuf s).1, (sfsGetattr e p.str statbuf s).2.1,
      (sfsGetattr e p.str statbuf s).2.2.toNamespace) := by
  have hfind : findFileOrDir s.tbl p.str = s.tbl.lookup p := rfl
  unfold Namespace.getattr sfsGetattr
  rw [resolve_toNamespace, hfind]
  by_cases hlen : PATH_MAX < p.str.length
  · rw [if_pos hlen, if_pos hlen]
    rfl
  rw [if_neg hlen, if_neg hlen]
  cases statbuf with
  | none => rfl
  | some st =>
    by_cases hdummy : dummyPath p.str = true
    · simp only [if_pos hdummy]
      rfl
    · simp only [if_neg hdummy]
      cases s.tbl.lookup p <;> rfl

/-- **One request answers as the specification says**, and does to the namespace what it says. -/
theorem exec_toNamespace {r : Request} (h : NamesKept s) (hr : NewPathAdmits s r) :
    s.toNamespace.exec r = ((r.exec s).1, (r.exec s).2.toNamespace) := by
  obtain ⟨op, e⟩ := r
  cases op with
  | getattr p statbuf =>
    simp only [Namespace.exec, getattr_toNamespace]
    rfl
  | openFile p =>
    simp only [Namespace.exec, ask_toNamespace]
    rfl
  | releaseFile p =>
    simp only [Namespace.exec, ask_toNamespace]
    rfl
  | openDir p =>
    simp only [Namespace.exec, ask_toNamespace]
    rfl
  | readDir p =>
    simp only [Namespace.exec, list_toNamespace h.inv]
    rfl
  | releaseDir p => rfl
  | readFile p buf offset =>
    simp only [Namespace.exec, ask_toNamespace]
    rfl
  | writeFile p buf offset =>
    simp only [Namespace.exec, write_toNamespace s p buf offset]
    rfl
  | change op =>
    cases op with
    | create p mode =>
      simp only [Namespace.exec, Namespace.change, create_toNamespace h hr, Request.exec, FuseCall.exec, sfsCreate]
      split <;> rename_i heq <;> simp only [Prod.mk.injEq] at heq
      · obtain ⟨hret, rfl⟩ := heq
        rw [show createInode e p.str mode s = (none, (createInode e p.str mode s).2) from Prod.ext hret rfl]
        rfl
      · obtain ⟨hret, rfl⟩ := heq
        rw [show createInode e p.str mode s = (some _, (createInode e p.str mode s).2) from Prod.ext hret rfl]
    | mkdir p mode =>
      simp only [Namespace.exec, Namespace.change, create_toNamespace h hr, Request.exec, FuseCall.exec, sfsMkdir]
      split
      · rfl
      · split <;> rfl
    | unlink p =>
      simp only [Namespace.exec, Namespace.change, remove_toNamespace h hr]
      rfl
    | rmdir p =>
      simp only [Namespace.exec, Namespace.change, remove_toNamespace h hr]
      rfl

end step

/-- The call a request makes never removes the root, and takes a slot only for a path that does not
resolve. -/
theorem NewPathAdmits.call {s : Process} {r : Request} {c : FuseCall} (h : NewPathAdmits s r)
    (hc : r.call = some c) :
    c.NonRoot ∧ ∀ p mode i parent, c.Takes s.tbl p mode i parent → s.tbl.lookup p = none := by
  obtain ⟨op, e⟩ := r
  cases op with
  | change op =>
    cases hc
    cases op with
    | create p mode =>
      refine ⟨⟨by simp, by simp⟩, fun q m i parent ht => ?_⟩
      obtain ⟨m', hop | hop⟩ := ht.op <;> cases hop
      exact h
    | mkdir p mode =>
      refine ⟨⟨by simp, by simp⟩, fun q m i parent ht => ?_⟩
      obtain ⟨m', hop | hop⟩ := ht.op <;> cases hop
      exact h
    | unlink p =>
      have hp : p ≠ [] := h
      refine ⟨⟨by simpa using hp, by simp⟩, fun q m i parent ht => ?_⟩
      obtain ⟨m', hop | hop⟩ := ht.op <;> cases hop
    | rmdir p =>
      have hp : p ≠ [] := h
      refine ⟨⟨by simp, by simpa using hp⟩, fun q m i parent ht => ?_⟩
      obtain ⟨m', hop | hop⟩ := ht.op <;> cases hop
  | _ => cases hc

/-- One admitted request keeps the names distinct. -/
theorem namesKept_requestStep {s : Process} {r : Request} (h : NamesKept s) (hr : NewPathAdmits s r) :
    NamesKept (requestStep s r) := by
  have htbl := tbl_requestStep s r
  cases hcall : r.call with
  | none =>
    rw [hcall] at htbl
    constructor <;> rw [htbl]
    · exact h.inv
    · exact h.distinct
  | some c =>
    obtain ⟨hnonroot, hnew⟩ := hr.call hcall
    rw [hcall, Option.elim_some] at htbl
    constructor <;> rw [htbl]
    · exact fuseStep_inv h.inv hnonroot
    · rcases fuseStep_cases h.inv hnonroot with
        ⟨p, mode, i, parent, ht, hstep⟩ | ⟨p, f, hp, hf, hstep⟩ | ⟨_, _, hstep⟩ <;> rw [hstep]
      · exact Table.distinctNames_created (hnew p mode i parent ht) h.distinct
      · obtain ⟨_, _, hu⟩ := h.inv.lookup_used hp hf.2
        exact Table.distinctNames_removed (h.inv.lastFilledLast _ (h.inv.parentOf_lt_size hu)) h.distinct
      · exact h.distinct

theorem namesKept_run {s : Process} (hs : s.JustFormatted) {rs : List Request}
    (hrs : EachStep requestStep NewPathAdmits s rs) : NamesKept (exec requestStep s rs) := by
  have hstep : ∀ s r, NamesKept s → NewPathAdmits s r → NamesKept (requestStep s r) :=
    fun _ _ h hr => namesKept_requestStep h hr
  exact EachStep.invariant hstep hs.namesKept hrs

/-- **The file system is its namespace**: after formatting, every run of requests that creates on paths
that do not resolve is answered as the specification answers it, and ends in the state it ends in. -/
theorem answers_refine {s : Process} (hs : s.JustFormatted) {rs : List Request}
    (hrs : EachStep requestStep NewPathAdmits s rs) :
    answers (fun s r => r.exec s) s rs = answers Namespace.exec s.toNamespace rs ∧
      (exec requestStep s rs).toNamespace = exec (fun n r => (n.exec r).2) s.toNamespace rs := by
  have hstep : ∀ (s : Process) (r : Request), NamesKept s → NewPathAdmits s r → NamesKept (r.exec s).2 ∧
      (r.exec s).1 = (s.toNamespace.exec r).1 ∧ (r.exec s).2.toNamespace = (s.toNamespace.exec r).2 := by
    intro s r h hr
    rw [exec_toNamespace h hr]
    exact ⟨namesKept_requestStep h hr, rfl, rfl⟩
  exact answers_eq hstep hs.namesKept hrs

/-- `/a` is made, removed and opened, then `/b` takes its slot: `/a` is gone. -/
def reopenedPath : List Request :=
  [⟨.change (.mkdir [.a] 493), ⟨1000, 1000, 0⟩⟩, ⟨.change (.rmdir [.a]), ⟨1000, 1000, 0⟩⟩,
    ⟨.openDir [.a], ⟨1000, 1000, 0⟩⟩, ⟨.change (.create [.b] 0o644), ⟨1000, 1000, 7⟩⟩,
    ⟨.openDir [.a], ⟨1000, 1000, 0⟩⟩, ⟨.writeFile [.b] [] 0, ⟨1000, 1000, 0⟩⟩, ⟨.readDir [], ⟨1000, 1000, 0⟩⟩]

theorem reopenedPath_run : EachStep requestStep NewPathAdmits (formatted 200000) reopenedPath := by
  decide +kernel

theorem answers_refine_reopenedPath :
    answers (fun s r => r.exec s) (formatted 200000) reopenedPath =
        answers Namespace.exec (formatted 200000).toNamespace reopenedPath ∧
      (exec requestStep (formatted 200000) reopenedPath).toNamespace =
        exec (fun n r => (n.exec r).2) (formatted 200000).toNamespace reopenedPath :=
  answers_refine justFormatted_three reopenedPath_run

end Sfs
