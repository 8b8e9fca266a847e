import SimpelDateisystem.Invariant
import SimpelDateisystem.Sfs
import SimpelDateisystem.Lib.Trace

/-!
# Runs

Two systems share the inode table: the calls of `create_inode` and `remove_inode` (`InodeCall`)
and the calls of the file system (`FuseCall`), each of which makes at most one of the former
(`FuseCall.inodeCall`). `fuseStep_cases` is everything a call does to the table, and
`fuseStep_eq` everything it does besides that.

* `KernelAdmits` — the kernel asks `sfs_getattr` before it creates; it never removes the root;
* `ResolvingAdmits` — creates on paths that do not resolve, removes on paths that do;
* `ParentAdmits` — the kernel has also looked up the parent of what it creates;
* `CreateAdmits` — as `KernelAdmits`, without removes.
-/

namespace Sfs

open Trace CString

/-! ## Calls of `create_inode` and `remove_inode` -/

inductive InodeOp where
  | create (p : AbsPath) (mode : BitVec 32)
  | remove (p : AbsPath)

structure InodeCall where
  op : InodeOp
  env : Env

namespace InodeCall

/-- The slot `create_inode` returns, and the process after the call. -/
def exec (s : Process) (c : InodeCall) : Option Nat × Process :=
  match c.op with
  | .create p mode => createInode c.env p.str mode s
  | .remove p => (none, (removeInode p.str s).2)

/-- The call does not remove the root. -/
def NonRoot (c : InodeCall) : Prop := c.op ≠ .remove []

instance : DecidablePred NonRoot := fun c =>
  match h : c.op with
  | .create _ _ => .isTrue (by simp [NonRoot, h])
  | .remove [] => .isFalse (by simp [NonRoot, h])
  | .remove (_ :: _) => .isTrue (by simp [NonRoot, h])

end InodeCall

/-- The process after a call. -/
def inodeStep (s : Process) (c : InodeCall) : Process := (c.exec s).2

@[simp] theorem inodeStep_create (s : Process) (p : AbsPath) (mode : BitVec 32) (e : Env) :
    inodeStep s ⟨.create p mode, e⟩ = (createInode e p.str mode s).2 := rfl

@[simp] theorem inodeStep_remove (s : Process) (p : AbsPath) (e : Env) :
    inodeStep s ⟨.remove p, e⟩ = (removeInode p.str s).2 := rfl

/-- **`remove_inode`** under the invariant: the slot the path resolves to is freed, or nothing. -/
theorem removeInode_cases {s : Process} {p : AbsPath} (h : s.tbl.Inv) (hp : p ≠ []) :
    (∃ f, s.tbl.lookup p = some f ∧ removeInode p.str s =
      (true, (flushAllInodesTodisk false { s with tbl := s.tbl.removed f (s.tbl.parentOf f) }).2)) ∨
    (s.tbl.lookup p = none ∧ removeInode p.str s = (false, s)) := by
  have hfind : findFileOrDir s.tbl p.str = s.tbl.lookup p := rfl
  cases hf : s.tbl.lookup p with
  | none => exact .inr ⟨rfl, by simp only [removeInode, hfind, hf]⟩
  | some f =>
    refine .inl ⟨f, rfl, ?_⟩
    obtain ⟨_, hlt, hu⟩ := h.lookup_used hp hf
    have hsize := h.le_size
    obtain ⟨hparlt, hparent⟩ := h.parentOf_used hu
    have hlast := h.lastFilledLast _ (h.parentOf_lt_size hu)
    have hrem := removeFromDirentry_fst f hlast
    have hnum : ((removeFromDirentry s.tbl (s.tbl.parentOf f) f).2.inodes f).inumber.toInt.toNat = f := by
      have hkeep := Table.inumber_removed hlast (f := f) f
      rw [Table.removed, Table.setIbit] at hkeep
      rw [hkeep, hu.inumber, Table.toInt_ofNat (by omega), Int.toNat_natCast]
    simp only [removeInode, hfind, hf, Table.getParentFcb_eq hparent (h.parentOf_lt_size hu), hrem,
      if_true, hnum]
    rfl

/-- Everything a call of `create_inode` or `remove_inode` does to the table. -/
theorem inodeStep_cases {s : Process} (c : InodeCall) (h : s.tbl.Inv) (hc : c.NonRoot) :
    (∃ p mode i parent, c.op = .create p mode ∧ s.tbl.freeSlot = some i ∧
      s.tbl.lookup p.parent = some parent ∧ (c.exec s).1 = some i ∧
      (inodeStep s c).tbl = s.tbl.created c.env p mode i parent) ∨
    (∃ p f, p ≠ [] ∧ c.op = .remove p ∧ s.tbl.lookup p = some f ∧ (c.exec s).1 = none ∧
      (inodeStep s c).tbl = s.tbl.removed f (s.tbl.parentOf f)) ∨
    ((∀ p mode, c.op = .create p mode → s.tbl.freeSlot = none ∨ s.tbl.lookup p.parent = none) ∧
      (∀ p, c.op = .remove p → s.tbl.lookup p = none) ∧ (c.exec s).1 = none ∧ inodeStep s c = s) := by
  obtain ⟨op, e⟩ := c
  cases op with
  | create p mode =>
    simp only [inodeStep, InodeCall.exec]
    rcases createInode_cases e p mode s with ⟨i, parent, hi, hparent, heq⟩ | ⟨hno, heq⟩
    · refine .inl ⟨p, mode, i, parent, rfl, hi, hparent, ?_, ?_⟩
      · rw [heq]
      · rw [heq, tbl_flush]
    · refine .inr (.inr ⟨?_, ?_, ?_, ?_⟩)
      · rintro _ _ ⟨⟩; exact hno
      · rintro _ ⟨⟩
      · rw [heq]
      · rw [heq]
  | remove p =>
    have hp : p ≠ [] := fun h0 => hc (by rw [h0])
    simp only [inodeStep, InodeCall.exec]
    rcases removeInode_cases h hp with ⟨f, hf, heq⟩ | ⟨hno, heq⟩
    · exact .inr (.inl ⟨p, f, hp, rfl, hf, trivial, by rw [heq, tbl_flush]⟩)
    · refine .inr (.inr ⟨?_, ?_, trivial, ?_⟩)
      · rintro _ _ ⟨⟩
      · rintro _ ⟨⟩; exact hno
      · rw [heq]

/-- The root has no parent: `remove_inode` on it does nothing here, and is undefined in C. -/
theorem inodeStep_root {s : Process} {c : InodeCall} (h : s.tbl.Inv) (hc : ¬ c.NonRoot) : inodeStep s c = s := by
  obtain ⟨op, e⟩ := c
  have hop : op = .remove [] := not_not.1 hc
  have hparent : getParentFcb s.tbl findRootOrDieTrying = none := by
    rw [getParentFcb, show s.tbl.inodes findRootOrDieTrying = s.tbl.inodes 0 from rfl, h.rootParent]
    decide
  rw [hop, inodeStep_remove]
  simp only [removeInode, AbsPath.str_nil, findFileOrDir, if_true, hparent]

/-- A call changes nothing, or flips one bit of the superblock, edits the slots, and flushes. -/
theorem inodeStep_flush {s : Process} (h : s.tbl.Inv) (c : InodeCall) :
    inodeStep s c = s ∨ ∃ (t : Table) (i : Nat) (b : Byte), t.Inv ∧ t.sBlock = s.tbl.sBlock.setIbit i b ∧
      inodeStep s c = (flushAllInodesTodisk false { s with tbl := t }).2 := by
  by_cases hc : c.NonRoot
  · obtain ⟨op, e⟩ := c
    cases op with
    | create p mode =>
      rw [inodeStep_create]
      rcases createInode_cases e p mode s with ⟨i, parent, hi, hparent, heq⟩ | ⟨_, heq⟩
      · exact .inr ⟨_, i, 1, h.created hparent hi, Table.sBlock_created _ _ _ _ _ _, by rw [heq]⟩
      · exact .inl (by rw [heq])
    | remove p =>
      have hp : p ≠ [] := fun h0 => hc (by rw [h0])
      rw [inodeStep_remove]
      rcases removeInode_cases h hp with ⟨f, hf, heq⟩ | ⟨_, heq⟩
      · obtain ⟨h1, hlt, hu⟩ := h.lookup_used hp hf
        exact .inr ⟨_, f, 0, h.removed h1 hlt hu, Table.sBlock_removed _ _ _,
          by rw [heq]⟩
      · exact .inl (by rw [heq])
  · exact .inl (inodeStep_root h hc)

/-- **One call keeps the invariant.** -/
theorem inodeStep_inv {s : Process} {c : InodeCall} (h : s.tbl.Inv) (hc : c.NonRoot) :
    (inodeStep s c).tbl.Inv := by
  rcases inodeStep_cases c h hc with
    ⟨p, mode, i, parent, _, hi, hparent, _, htbl⟩ | ⟨p, f, hp, _, hf, _, htbl⟩ | ⟨_, _, _, heq⟩
  · rw [htbl]
    exact h.created hparent hi
  · rw [htbl]
    obtain ⟨h1, hlt, hu⟩ := h.lookup_used hp hf
    exact h.removed h1 hlt hu
  · rwa [heq]

theorem Process.JustFormatted.inv {s : Process} (h : s.JustFormatted) : s.tbl.Inv :=
  h.tbl.inv h.two_le h.le_size

/-- **Every reachable table satisfies the invariant.** -/
theorem exec_inodeStep_inv {s : Process} {cs : List InodeCall} (h : s.tbl.Inv)
    (hcs : ∀ c ∈ cs, c.NonRoot) : (exec inodeStep s cs).tbl.Inv := by
  have hstep : ∀ (s : Process) (c : InodeCall), s.tbl.Inv → c.NonRoot → (inodeStep s c).tbl.Inv :=
    fun _ _ h hc => inodeStep_inv h hc
  exact EachStep.invariant hstep h (eachStep_of_forall_mem s cs hcs)

/-! ## Calls of the file system -/

@[simp] theorem fuseStep_create (s : Process) (p : AbsPath) (mode : BitVec 32) (e : Env) :
    fuseStep s ⟨.create p mode, e⟩ = (sfsCreate e p.str mode s).2 := rfl

@[simp] theorem fuseStep_mkdir (s : Process) (p : AbsPath) (mode : BitVec 32) (e : Env) :
    fuseStep s ⟨.mkdir p mode, e⟩ = (sfsMkdir e p.str mode s).2 := rfl

/-- The call of `create_inode` or `remove_inode` that a call of the file system makes. -/
def FuseCall.inodeCall (c : FuseCall) : Option InodeCall :=
  match c.op with
  | .create p mode => some ⟨.create p mode, c.env⟩
  | .mkdir p mode =>
    if mode = 493 then some ⟨.create p S_IFDIR, c.env⟩
    else if mode = BitVec.ofInt 32 (-32348) then some ⟨.create p S_IFREG, c.env⟩
    else none
  | .unlink p => some ⟨.remove p, c.env⟩
  | .rmdir p => some ⟨.remove p, c.env⟩

/-- The call takes slot `i` for `p`, with `parent` as parent. -/
def FuseCall.Takes (t : Table) (c : FuseCall) (p : AbsPath) (mode : BitVec 32) (i parent : Nat) : Prop :=
  c.inodeCall = some ⟨.create p mode, c.env⟩ ∧ t.freeSlot = some i ∧ t.lookup p.parent = some parent

/-- The call frees slot `f`, which `p` resolves to. -/
def FuseCall.Frees (t : Table) (c : FuseCall) (p : AbsPath) (f : Nat) : Prop :=
  c.inodeCall = some ⟨.remove p, c.env⟩ ∧ t.lookup p = some f

/-- The call does not remove the root. -/
def FuseCall.NonRoot (c : FuseCall) : Prop := c.op ≠ .unlink [] ∧ c.op ≠ .rmdir []

theorem FuseCall.inodeCall_cases (c : FuseCall) :
    c.inodeCall = none ∨ (∃ p mode, c.inodeCall = some ⟨.create p mode, c.env⟩) ∨
      ∃ p, c.inodeCall = some ⟨.remove p, c.env⟩ ∧ (c.NonRoot → p ≠ []) := by
  obtain ⟨op, e⟩ := c
  cases op with
  | create p mode => exact .inr (.inl ⟨p, mode, rfl⟩)
  | mkdir p mode =>
    simp only [FuseCall.inodeCall]
    split
    · exact .inr (.inl ⟨p, S_IFDIR, rfl⟩)
    · split
      · exact .inr (.inl ⟨p, S_IFREG, rfl⟩)
      · exact .inl rfl
  | unlink p => exact .inr (.inr ⟨p, rfl, fun h h0 => h.1 (by rw [h0])⟩)
  | rmdir p => exact .inr (.inr ⟨p, rfl, fun h h0 => h.2 (by rw [h0])⟩)

/-- Which calls call `create_inode`. -/
theorem FuseCall.Takes.op {t : Table} {c : FuseCall} {p : AbsPath} {mode : BitVec 32} {i parent : Nat}
    (h : c.Takes t p mode i parent) : ∃ m, c.op = .create p m ∨ c.op = .mkdir p m := by
  obtain ⟨op, e⟩ := c
  have hcall := h.1
  cases op with
  | create q m =>
    cases hcall
    exact ⟨mode, .inl rfl⟩
  | mkdir q m =>
    refine ⟨m, .inr ?_⟩
    simp only [FuseCall.inodeCall] at hcall
    split at hcall
    · cases hcall
      rfl
    · split at hcall <;> cases hcall
      rfl
  | unlink q => cases hcall
  | rmdir q => cases hcall

/-- Which calls call `remove_inode`. -/
theorem FuseCall.Frees.op {t : Table} {c : FuseCall} {p : AbsPath} {f : Nat} (h : c.Frees t p f) :
    c.op = .unlink p ∨ c.op = .rmdir p := by
  obtain ⟨op, e⟩ := c
  have hcall := h.1
  cases op with
  | create q mode => cases hcall
  | mkdir q mode =>
    simp only [FuseCall.inodeCall] at hcall
    split at hcall
    · cases hcall
    · split at hcall <;> cases hcall
  | unlink q =>
    cases hcall
    exact .inl rfl
  | rmdir q =>
    cases hcall
    exact .inr rfl

/-- Beyond its call of `create_inode` or `remove_inode`, a call sets at most `errno`. -/
theorem fuseStep_eq (s : Process) (c : FuseCall) :
    ∃ errno, fuseStep s c = { (c.inodeCall.elim s (inodeStep s)) with errno := errno } := by
  have hremove : ∀ p, ∃ errno, (removePath p s).2 = { (removeInode p s).2 with errno := errno } := by
    intro p
    unfold removePath
    cases h : removeInode p s with
    | mk b s' => cases b <;> exact ⟨_, rfl⟩
  obtain ⟨op, e⟩ := c
  cases op with
  | create p mode =>
    refine ⟨(inodeStep s ⟨.create p mode, e⟩).errno, ?_⟩
    simp only [fuseStep, FuseCall.exec, sfsCreate, FuseCall.inodeCall, Option.elim_some, inodeStep_create]
    split <;> rename_i h <;> rw [h]
  | mkdir p mode =>
    simp only [fuseStep, FuseCall.exec, sfsMkdir, FuseCall.inodeCall]
    split
    · exact ⟨_, rfl⟩
    · split
      · exact ⟨_, rfl⟩
      · exact ⟨s.errno, rfl⟩
  | unlink p => exact hremove p.str
  | rmdir p => exact hremove p.str

theorem tbl_fuseStep (s : Process) (c : FuseCall) :
    (fuseStep s c).tbl = (c.inodeCall.elim s (inodeStep s)).tbl := by
  obtain ⟨errno, h⟩ := fuseStep_eq s c
  rw [h]

theorem FuseCall.inodeCall_root {c : FuseCall} (hc : ¬ c.NonRoot) : c.inodeCall = some ⟨.remove [], c.env⟩ := by
  obtain ⟨op, e⟩ := c
  cases op with
  | create p mode => exact absurd ⟨by simp, by simp⟩ hc
  | mkdir p mode => exact absurd ⟨by simp, by simp⟩ hc
  | unlink p =>
    by_cases hp : p = []
    · rw [hp]; rfl
    · exact absurd ⟨by simpa, by simp⟩ hc
  | rmdir p =>
    by_cases hp : p = []
    · rw [hp]; rfl
    · exact absurd ⟨by simp, by simpa⟩ hc

theorem tbl_fuseStep_root {s : Process} {c : FuseCall} (h : s.tbl.Inv) (hc : ¬ c.NonRoot) :
    (fuseStep s c).tbl = s.tbl := by
  rw [tbl_fuseStep, FuseCall.inodeCall_root hc, Option.elim_some, inodeStep_root h (fun hn => hn rfl)]

theorem FuseCall.Takes.not_frees {t : Table} {c : FuseCall} {p q : AbsPath} {mode : BitVec 32} {i parent f : Nat}
    (h : c.Takes t p mode i parent) : ¬ c.Frees t q f := by
  intro hf
  have := h.1.symm.trans hf.1
  cases this

theorem FuseCall.Takes.inj {t : Table} {c : FuseCall} {p q : AbsPath} {mode mode' : BitVec 32}
    {i i' parent parent' : Nat} (h : c.Takes t p mode i parent) (h' : c.Takes t q mode' i' parent') :
    p = q ∧ mode = mode' ∧ i = i' ∧ parent = parent' := by
  obtain ⟨hcall, hi, hparent⟩ := h
  obtain ⟨hcall', hi', hparent'⟩ := h'
  rw [hcall] at hcall'
  cases hcall'
  rw [hi] at hi'
  rw [hparent] at hparent'
  cases hi'
  cases hparent'
  exact ⟨rfl, rfl, rfl, rfl⟩

theorem FuseCall.Frees.inj {t : Table} {c : FuseCall} {p q : AbsPath} {f f' : Nat} (h : c.Frees t p f)
    (h' : c.Frees t q f') : p = q ∧ f = f' := by
  obtain ⟨hcall, hf⟩ := h
  obtain ⟨hcall', hf'⟩ := h'
  rw [hcall] at hcall'
  cases hcall'
  rw [hf] at hf'
  cases hf'
  exact ⟨rfl, rfl⟩

/-- The table after a call that takes a slot. -/
theorem FuseCall.Takes.tbl {s : Process} {c : FuseCall} {p : AbsPath} {mode : BitVec 32} {i parent : Nat}
    (h : c.Takes s.tbl p mode i parent) : (fuseStep s c).tbl = s.tbl.created c.env p mode i parent := by
  obtain ⟨hcall, hi, hparent⟩ := h
  rw [tbl_fuseStep, hcall, Option.elim_some, inodeStep_create]
  rcases createInode_cases c.env p mode s with ⟨i', parent', hi', hparent', heq⟩ | ⟨hno, _⟩
  · rw [hi] at hi'
    rw [hparent] at hparent'
    cases hi'
    cases hparent'
    rw [heq, tbl_flush]
  · rw [hi, hparent] at hno
    simp at hno

/-- The table after a call that frees a slot. -/
theorem FuseCall.Frees.tbl {s : Process} {c : FuseCall} {p : AbsPath} {f : Nat} (h : c.Frees s.tbl p f)
    (hinv : s.tbl.Inv) (hp : p ≠ []) : (fuseStep s c).tbl = s.tbl.removed f (s.tbl.parentOf f) := by
  obtain ⟨hcall, hf⟩ := h
  rw [tbl_fuseStep, hcall, Option.elim_some, inodeStep_remove]
  rcases removeInode_cases hinv hp with ⟨f', hf', heq⟩ | ⟨hno, _⟩
  · rw [hf] at hf'
    cases hf'
    rw [heq, tbl_flush]
  · rw [hf] at hno
    cases hno

theorem FuseCall.Frees.ne_nil {t : Table} {c : FuseCall} {p : AbsPath} {f : Nat} (h : c.Frees t p f)
    (hc : c.NonRoot) : p ≠ [] := by
  rcases c.inodeCall_cases with hno | ⟨q, mode, hcall⟩ | ⟨q, hcall, hq⟩
  · rw [FuseCall.Frees, hno] at h
    cases h.1
  · rw [FuseCall.Frees, hcall] at h
    cases h.1
  · rw [FuseCall.Frees, hcall] at h
    cases h.1
    exact hq hc

/-- **Everything a call does to the table.** -/
theorem fuseStep_cases {s : Process} {c : FuseCall} (h : s.tbl.Inv) (hc : c.NonRoot) :
    (∃ p mode i parent, c.Takes s.tbl p mode i parent ∧
      (fuseStep s c).tbl = s.tbl.created c.env p mode i parent) ∨
    (∃ p f, p ≠ [] ∧ c.Frees s.tbl p f ∧ (fuseStep s c).tbl = s.tbl.removed f (s.tbl.parentOf f)) ∨
    ((∀ p mode i parent, ¬ c.Takes s.tbl p mode i parent) ∧ (∀ p f, ¬ c.Frees s.tbl p f) ∧
      (fuseStep s c).tbl = s.tbl) := by
  by_cases htakes : ∃ p mode i parent, c.Takes s.tbl p mode i parent
  · obtain ⟨p, mode, i, parent, ht⟩ := htakes
    exact .inl ⟨p, mode, i, parent, ht, ht.tbl⟩
  by_cases hfrees : ∃ p f, c.Frees s.tbl p f
  · obtain ⟨p, f, hf⟩ := hfrees
    exact .inr (.inl ⟨p, f, hf.ne_nil hc, hf, hf.tbl h (hf.ne_nil hc)⟩)
  refine .inr (.inr ⟨fun p mode i parent ht => htakes ⟨p, mode, i, parent, ht⟩,
    fun p f hf => hfrees ⟨p, f, hf⟩, ?_⟩)
  rw [tbl_fuseStep]
  rcases c.inodeCall_cases with hno | ⟨p, mode, hcall⟩ | ⟨p, hcall, hp⟩
  · rw [hno]; rfl
  · rw [hcall, Option.elim_some, inodeStep_create]
    rcases createInode_cases c.env p mode s with ⟨i, parent, hi, hparent, _⟩ | ⟨_, heq⟩
    · exact absurd ⟨p, mode, i, parent, hcall, hi, hparent⟩ htakes
    · rw [heq]
  · rw [hcall, Option.elim_some, inodeStep_remove]
    rcases removeInode_cases h (hp hc) with ⟨f, hf, _⟩ | ⟨_, heq⟩
    · exact absurd ⟨p, f, hcall, hf⟩ hfrees
    · rw [heq]

/-- **One call keeps the invariant.** -/
theorem fuseStep_inv {s : Process} {c : FuseCall} (h : s.tbl.Inv) (hc : c.NonRoot) :
    (fuseStep s c).tbl.Inv := by
  rcases fuseStep_cases h hc with ⟨p, mode, i, parent, ht, htbl⟩ | ⟨p, f, hp, hf, htbl⟩ | ⟨_, _, htbl⟩
  · rw [htbl]
    exact h.created ht.2.2 ht.2.1
  · rw [htbl]
    obtain ⟨h1, hlt, hu⟩ := h.lookup_used hp hf.2
    exact h.removed h1 hlt hu
  · rwa [htbl]

/-! ## What the kernel asks for -/

/-- `sfs_getattr` answers `-ENOENT`. -/
def GetattrENOENT (s : Process) (p : AbsPath) : Prop :=
  ∀ e st, (sfsGetattr e p.str (some st) s).1 = -ENOENT

/-- `sfs_getattr` answers 0. -/
def GetattrOk (s : Process) (p : AbsPath) : Prop := ∀ e st, (sfsGetattr e p.str (some st) s).1 = 0

/-- Creates where `sfs_getattr` says there is nothing; never removes the root. -/
def KernelAdmits (s : Process) (c : FuseCall) : Prop :=
  match c.op with
  | .create p _ => GetattrENOENT s p
  | .mkdir p _ => GetattrENOENT s p
  | .unlink p => p ≠ []
  | .rmdir p => p ≠ []

/-- Creates on paths that do not resolve, removes on paths below the root that do. -/
def ResolvingAdmits (s : Process) (c : FuseCall) : Prop :=
  match c.op with
  | .create p _ => s.tbl.lookup p = none
  | .mkdir p _ => s.tbl.lookup p = none
  | .unlink p => p ≠ [] ∧ s.tbl.lookup p ≠ none
  | .rmdir p => p ≠ [] ∧ s.tbl.lookup p ≠ none

/-- Creates where `sfs_getattr` finds the parent but nothing at the path itself; removes on paths
below the root that resolve. -/
def ParentAdmits (s : Process) (c : FuseCall) : Prop :=
  match c.op with
  | .create p _ => GetattrENOENT s p ∧ GetattrOk s p.parent
  | .mkdir p _ => GetattrENOENT s p ∧ GetattrOk s p.parent
  | .unlink p => p ≠ [] ∧ s.tbl.lookup p ≠ none
  | .rmdir p => p ≠ [] ∧ s.tbl.lookup p ≠ none

/-- Creates where `sfs_getattr` says there is nothing; never removes. -/
def CreateAdmits (s : Process) (c : FuseCall) : Prop :=
  match c.op with
  | .create p _ => GetattrENOENT s p
  | .mkdir p _ => GetattrENOENT s p
  | .unlink _ => False
  | .rmdir _ => False

theorem getattrENOENT_iff {s : Process} {p : AbsPath} :
    GetattrENOENT s p ↔ p.str.length ≤ PATH_MAX ∧ dummyPath p.str = false ∧ s.tbl.lookup p = none := by
  have hfind : findFileOrDir s.tbl p.str = s.tbl.lookup p := rfl
  constructor
  · intro h
    have h' := h ⟨0, 0, 0⟩ ⟨0, 0, 0, 0, 0, 0, 0, 0, 0, 0, 0, 0, 0⟩
    have hminus : (-1 : Int) ≠ -ENOENT := by decide
    have hzero : (0 : Int) ≠ -ENOENT := by decide
    simp only [sfsGetattr, hfind] at h'
    split at h'
    · exact absurd h' hminus
    split at h'
    · exact absurd h' hzero
    rename_i hlen hdummy
    split at h'
    · exact ⟨Nat.not_lt.1 hlen, Bool.eq_false_iff.2 hdummy, ‹_›⟩
    · exact absurd h' hzero
  · rintro ⟨hlen, hdummy, hno⟩ e st
    simp only [sfsGetattr, if_neg (Nat.not_lt.2 hlen), hdummy, Bool.false_eq_true, if_false, hfind, hno]

theorem GetattrENOENT.lookup {s : Process} {p : AbsPath} (h : GetattrENOENT s p) : s.tbl.lookup p = none :=
  (getattrENOENT_iff.1 h).2.2

theorem getattrOk_iff {s : Process} {p : AbsPath} :
    GetattrOk s p ↔ p.str.length ≤ PATH_MAX ∧ (dummyPath p.str = true ∨ s.tbl.lookup p ≠ none) := by
  have hfind : findFileOrDir s.tbl p.str = s.tbl.lookup p := rfl
  constructor
  · intro h
    have h' := h ⟨0, 0, 0⟩ ⟨0, 0, 0, 0, 0, 0, 0, 0, 0, 0, 0, 0, 0⟩
    have hminus : (-1 : Int) ≠ 0 := by decide
    have henoent : -ENOENT ≠ 0 := by decide
    simp only [sfsGetattr, hfind] at h'
    split at h'
    · exact absurd h' hminus
    rename_i hlen
    refine ⟨Nat.not_lt.1 hlen, ?_⟩
    split at h'
    · exact .inl ‹_›
    split at h'
    · exact absurd h' henoent
    · rename_i x hx
      exact .inr (by rw [hx]; simp)
  · rintro ⟨hlen, hfound⟩ e st
    simp only [sfsGetattr, if_neg (Nat.not_lt.2 hlen), hfind]
    split
    · rfl
    rename_i hdummy
    obtain ⟨x, hx⟩ := Option.ne_none_iff_exists'.1 (hfound.resolve_left hdummy)
    rw [hx]

instance (s : Process) (p : AbsPath) : Decidable (GetattrENOENT s p) := decidable_of_iff' _ getattrENOENT_iff

instance (s : Process) (p : AbsPath) : Decidable (GetattrOk s p) := decidable_of_iff' _ getattrOk_iff

instance (s : Process) (c : FuseCall) : Decidable (KernelAdmits s c) :=
  match c with
  | ⟨.create p _, _⟩ => inferInstanceAs (Decidable (GetattrENOENT s p))
  | ⟨.mkdir p _, _⟩ => inferInstanceAs (Decidable (GetattrENOENT s p))
  | ⟨.unlink p, _⟩ => inferInstanceAs (Decidable (p ≠ []))
  | ⟨.rmdir p, _⟩ => inferInstanceAs (Decidable (p ≠ []))

instance (s : Process) (c : FuseCall) : Decidable (ResolvingAdmits s c) :=
  match c with
  | ⟨.create p _, _⟩ => inferInstanceAs (Decidable (s.tbl.lookup p = none))
  | ⟨.mkdir p _, _⟩ => inferInstanceAs (Decidable (s.tbl.lookup p = none))
  | ⟨.unlink p, _⟩ => inferInstanceAs (Decidable (p ≠ [] ∧ s.tbl.lookup p ≠ none))
  | ⟨.rmdir p, _⟩ => inferInstanceAs (Decidable (p ≠ [] ∧ s.tbl.lookup p ≠ none))

instance (s : Process) (c : FuseCall) : Decidable (ParentAdmits s c) :=
  match c with
  | ⟨.create p _, _⟩ => inferInstanceAs (Decidable (GetattrENOENT s p ∧ GetattrOk s p.parent))
  | ⟨.mkdir p _, _⟩ => inferInstanceAs (Decidable (GetattrENOENT s p ∧ GetattrOk s p.parent))
  | ⟨.unlink p, _⟩ => inferInstanceAs (Decidable (p ≠ [] ∧ s.tbl.lookup p ≠ none))
  | ⟨.rmdir p, _⟩ => inferInstanceAs (Decidable (p ≠ [] ∧ s.tbl.lookup p ≠ none))

instance (s : Process) (c : FuseCall) : Decidable (CreateAdmits s c) :=
  match c with
  | ⟨.create p _, _⟩ => inferInstanceAs (Decidable (GetattrENOENT s p))
  | ⟨.mkdir p _, _⟩ => inferInstanceAs (Decidable (GetattrENOENT s p))
  | ⟨.unlink _, _⟩ => inferInstanceAs (Decidable (False))
  | ⟨.rmdir _, _⟩ => inferInstanceAs (Decidable (False))

/-- A guard that keeps removes below the root. -/
theorem FuseCall.nonRoot_of {c : FuseCall} (h : ∀ p, c.op = .unlink p ∨ c.op = .rmdir p → p ≠ []) : c.NonRoot :=
  ⟨fun hop => h [] (.inl hop) rfl, fun hop => h [] (.inr hop) rfl⟩

theorem KernelAdmits.nonRoot {s : Process} {c : FuseCall} (h : KernelAdmits s c) : c.NonRoot := by
  refine FuseCall.nonRoot_of fun p hp => ?_
  unfold KernelAdmits at h
  rcases hp with hop | hop <;> rw [hop] at h <;> exact h

theorem ResolvingAdmits.nonRoot {s : Process} {c : FuseCall} (h : ResolvingAdmits s c) : c.NonRoot := by
  refine FuseCall.nonRoot_of fun p hp => ?_
  unfold ResolvingAdmits at h
  rcases hp with hop | hop <;> rw [hop] at h <;> exact h.1

theorem ParentAdmits.nonRoot {s : Process} {c : FuseCall} (h : ParentAdmits s c) : c.NonRoot := by
  refine FuseCall.nonRoot_of fun p hp => ?_
  unfold ParentAdmits at h
  rcases hp with hop | hop <;> rw [hop] at h <;> exact h.1

theorem CreateAdmits.nonRoot {s : Process} {c : FuseCall} (h : CreateAdmits s c) : c.NonRoot := by
  refine FuseCall.nonRoot_of fun p hp => ?_
  unfold CreateAdmits at h
  rcases hp with hop | hop <;> rw [hop] at h <;> exact h.elim

theorem CreateAdmits.not_frees {s : Process} {c : FuseCall} {p : AbsPath} {f : Nat} (h : CreateAdmits s c) :
    ¬ c.Frees s.tbl p f := by
  intro hf
  unfold CreateAdmits at h
  rcases hf.op with hop | hop <;> rw [hop] at h <;> exact h

/-- The path of a create that takes a slot is the one the kernel asked for. -/
theorem CreateAdmits.lookup_of_takes {s : Process} {c : FuseCall} {p : AbsPath} {mode : BitVec 32}
    {i parent : Nat} (h : CreateAdmits s c) (ht : c.Takes s.tbl p mode i parent) : s.tbl.lookup p = none := by
  unfold CreateAdmits at h
  obtain ⟨m, hop | hop⟩ := ht.op <;> rw [hop] at h <;> exact h.lookup

/-- **Every reachable table satisfies the invariant.** -/
theorem exec_fuseStep_inv {s : Process} {cs : List FuseCall} (h : s.tbl.Inv)
    (hcs : EachStep fuseStep (fun _ c => c.NonRoot) s cs) : (exec fuseStep s cs).tbl.Inv := by
  have hstep : ∀ (s : Process) (c : FuseCall), s.tbl.Inv → c.NonRoot → (fuseStep s c).tbl.Inv :=
    fun _ _ h hc => fuseStep_inv h hc
  exact EachStep.invariant hstep h hcs

end Sfs
