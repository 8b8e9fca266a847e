import SimpelDateisystem.Runs

/-!
# The requests of the kernel

`sfs_oper` (`sfs.c:555-573`) names the function for each kind of request. `Request.exec` runs it: what
the kernel gets back, and the process afterwards. The four that change the table are the calls of
`FuseCall`; the others set `errno` at most (`exec_of_not_change`). `init` and `destroy` are no requests: they
begin and end a process.

`readdir` alone follows the pointers of a directory. Its answer is what it passes to `filler`. In a full
directory it reads a pointer behind `dirContents`; the answer then is `outOfBounds`, and the process is taken
to survive as it was.
-/

namespace Sfs

open CString

inductive RequestOp where
  /-- `create`, `mkdir`, `unlink`, `rmdir`. -/
  | change (op : FuseOp)
  | getattr (p : AbsPath) (statbuf : Option Stat)
  | openFile (p : AbsPath)
  | releaseFile (p : AbsPath)
  | openDir (p : AbsPath)
  | readDir (p : AbsPath)
  | releaseDir (p : AbsPath)
  | readFile (p : AbsPath) (buf : List Byte) (offset : BitVec 64)
  | writeFile (p : AbsPath) (buf : List Byte) (offset : BitVec 64)

/-- One request, with what it learns from the operating system. -/
structure Request where
  op : RequestOp
  env : Env

/-- What the kernel gets back. -/
inductive Reply where
  | ret (ret : Int)
  | attr (ret : Int) (statbuf : Option Stat)
  | data (ret : Int) (buf : List Byte)
  | listing (names : Listing)

def Request.exec (s : Process) (r : Request) : Reply × Process :=
  match r.op with
  | .change op =>
    let a := FuseCall.exec s ⟨op, r.env⟩
    (.ret a.1, a.2)
  | .getattr p statbuf =>
    let a := sfsGetattr r.env p.str statbuf s
    (.attr a.1 a.2.1, a.2.2)
  | .openFile p =>
    let a := sfsOpen p.str s
    (.ret a.1, a.2)
  | .releaseFile p =>
    let a := sfsRelease p.str s
    (.ret a.1, a.2)
  | .openDir p =>
    let a := sfsOpendir p.str s
    (.ret a.1, a.2)
  | .readDir p => (.listing (sfsReaddir p.str s.tbl), s)
  | .releaseDir p =>
    let a := sfsReleasedir p.str s
    (.ret a.1, a.2)
  | .readFile p buf offset =>
    let a := sfsRead p.str buf offset s
    (.data a.1 a.2.1, a.2.2)
  | .writeFile p buf offset =>
    let a := sfsWrite p.str buf offset s
    (.ret a.1, a.2)

/-- The process after a request. -/
def requestStep (s : Process) (r : Request) : Process := (r.exec s).2

/-- The call a request makes that may change the table. -/
def Request.call (r : Request) : Option FuseCall :=
  match r.op with
  | .change op => some ⟨op, r.env⟩
  | _ => none

/-- The request neither changes the table nor follows a pointer in it. -/
def Request.Asks (r : Request) : Prop :=
  match r.op with
  | .change _ => False
  | .readDir _ => False
  | _ => True

/-- The request does not remove the root, for which `remove_inode` is undefined in C. -/
def Request.NonRoot (r : Request) : Prop :=
  match r.op with
  | .change (.unlink p) => p ≠ []
  | .change (.rmdir p) => p ≠ []
  | _ => True

instance : DecidablePred Request.NonRoot := fun r =>
  match r with
  | ⟨.change (.create _ _), _⟩ => .isTrue trivial
  | ⟨.change (.mkdir _ _), _⟩ => .isTrue trivial
  | ⟨.change (.unlink p), _⟩ => inferInstanceAs (Decidable (p ≠ []))
  | ⟨.change (.rmdir p), _⟩ => inferInstanceAs (Decidable (p ≠ []))
  | ⟨.getattr _ _, _⟩ => .isTrue trivial
  | ⟨.openFile _, _⟩ => .isTrue trivial
  | ⟨.releaseFile _, _⟩ => .isTrue trivial
  | ⟨.openDir _, _⟩ => .isTrue trivial
  | ⟨.readDir _, _⟩ => .isTrue trivial
  | ⟨.releaseDir _, _⟩ => .isTrue trivial
  | ⟨.readFile _ _ _, _⟩ => .isTrue trivial
  | ⟨.writeFile _ _ _, _⟩ => .isTrue trivial

theorem Request.NonRoot.call {r : Request} {c : FuseCall} (h : r.NonRoot) (hc : r.call = some c) : c.NonRoot := by
  obtain ⟨op, e⟩ := r
  cases op with
  | change op =>
    cases hc
    cases op with
    | create p mode => exact ⟨by simp, by simp⟩
    | mkdir p mode => exact ⟨by simp, by simp⟩
    | unlink p => exact ⟨fun heq => h (FuseOp.unlink.inj heq), by simp⟩
    | rmdir p => exact ⟨by simp, fun heq => h (FuseOp.rmdir.inj heq)⟩
  | _ => cases hc

/-- What is not one of the four asks, or lists a directory. -/
theorem Request.call_eq_none_iff {r : Request} : r.call = none ↔ r.Asks ∨ ∃ p, r.op = .readDir p := by
  obtain ⟨op, e⟩ := r
  cases op <;> simp [Request.call, Request.Asks]

theorem Request.Asks.call {r : Request} (h : r.Asks) : r.call = none := Request.call_eq_none_iff.2 (.inl h)

theorem errno_lookupPath (path : CStr) (s : Process) : ∃ errno, (lookupPath path s).2 = { s with errno := errno } := by
  unfold lookupPath
  split
  · exact ⟨s.errno, rfl⟩
  · exact ⟨ENOENT, rfl⟩

theorem errno_sfsGetattr (e : Env) (path : CStr) (statbuf : Option Stat) (s : Process) :
    ∃ errno, (sfsGetattr e path statbuf s).2.2 = { s with errno := errno } := by
  unfold sfsGetattr
  split
  · exact ⟨_, rfl⟩
  split
  · exact ⟨_, rfl⟩
  split
  · exact ⟨s.errno, rfl⟩
  split
  · exact ⟨s.errno, rfl⟩
  · exact ⟨s.errno, rfl⟩

theorem errno_sfsWrite (path : CStr) (buf : List Byte) (offset : BitVec 64) (s : Process) :
    ∃ errno, (sfsWrite path buf offset s).2 = { s with errno := errno } := by
  unfold sfsWrite
  split
  · split
    · exact ⟨s.errno, rfl⟩
    · exact ⟨EFBIG, rfl⟩
  · exact ⟨ENOENT, rfl⟩

/-- **A request that is none of the four sets `errno` at most.** -/
theorem exec_of_not_change {s : Process} {r : Request} (h : r.call = none) :
    ∃ errno, requestStep s r = { s with errno := errno } := by
  obtain ⟨op, e⟩ := r
  cases op with
  | change op => cases h
  | getattr p statbuf => exact errno_sfsGetattr e p.str statbuf s
  | openFile p => exact errno_lookupPath p.str s
  | releaseFile p => exact errno_lookupPath p.str s
  | openDir p => exact errno_lookupPath p.str s
  | readDir p => exact ⟨s.errno, rfl⟩
  | releaseDir p => exact ⟨s.errno, rfl⟩
  | readFile p buf offset => exact errno_lookupPath p.str s
  | writeFile p buf offset => exact errno_sfsWrite p.str buf offset s

theorem requestStep_of_call {s : Process} {r : Request} {c : FuseCall} (h : r.call = some c) :
    requestStep s r = fuseStep s c := by
  obtain ⟨op, e⟩ := r
  cases op with
  | change op => cases h; rfl
  | _ => cases h

/-- The table after a request. -/
theorem tbl_requestStep (s : Process) (r : Request) :
    (requestStep s r).tbl = (r.call.elim s (fuseStep s)).tbl := by
  cases h : r.call with
  | none =>
    obtain ⟨errno, heq⟩ := exec_of_not_change (s := s) h
    rw [heq]
    rfl
  | some c => rw [requestStep_of_call h, Option.elim_some]

/-! ## What the four answer -/

/-- Removing answers by the path alone. -/
theorem removePath_fst {s : Process} {p : AbsPath} (h : s.tbl.Inv) (hp : p ≠ []) :
    (removePath p.str s).1 = if s.tbl.lookup p = none then -ENOENT else 0 := by
  rcases removeInode_cases h hp with ⟨f, hf, heq⟩ | ⟨hno, heq⟩
  · rw [hf, if_neg (by simp), removePath, heq]
  · rw [if_pos hno, removePath, heq]

theorem createInode_fst (e : Env) (p : AbsPath) (mode : BitVec 32) (s : Process) :
    (createInode e p.str mode s).1 = if s.tbl.lookup p.parent = none then none else s.tbl.freeSlot := by
  rcases createInode_cases e p mode s with ⟨i, parent, hi, hparent, heq⟩ | ⟨hno, heq⟩ <;> rw [heq]
  · rw [hparent, hi]
    simp
  · split
    · rfl
    · exact (hno.resolve_right ‹_›).symm

/-- A create answers 0 or, when it fails, what `errno` was. -/
theorem sfsCreate_fst {e : Env} {p : AbsPath} {mode : BitVec 32} {s : Process}
    (h : (createInode e p.str mode s).1 ≠ none) : (sfsCreate e p.str mode s).1 = 0 := by
  unfold sfsCreate
  split
  · rename_i heq
    rw [heq] at h
    exact absurd rfl h
  · rfl

theorem sfsMkdir_fst (e : Env) (path : CStr) (mode : BitVec 32) (s : Process) : (sfsMkdir e path mode s).1 = 0 := by
  unfold sfsMkdir
  split
  · rfl
  split <;> rfl

end Sfs
