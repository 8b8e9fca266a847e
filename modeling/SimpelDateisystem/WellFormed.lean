import SimpelDateisystem.Runs

/-!
# The representation of the table over whole runs

Whatever `create_inode` and `remove_inode` are called with, and in whatever order, the numbers in
the slots and the pointers in the directories stay inside the table (`inodeTable_wellFormed`).
-/

namespace Sfs

open Trace

/-- Some `create_inode` of the run returned slot `x`. -/
def EverCreated (s : Process) (cs : List InodeCall) (x : Nat) : Prop :=
  ∃ pre c post, cs = pre ++ c :: post ∧ (c.exec (exec inodeStep s pre)).1 = some x

/-- A slot taken once keeps its numbers. -/
theorem used_inodeStep {s : Process} {c : InodeCall} {x : Nat} (h : s.tbl.Inv) (hc : c.NonRoot)
    (hx : s.tbl.Used x) : (inodeStep s c).tbl.Used x := by
  rcases inodeStep_cases c h hc with
    ⟨p, mode, i, parent, _, hi, hparent, _, htbl⟩ | ⟨p, f, hp, _, hf, _, htbl⟩ | ⟨_, _, _, heq⟩
  · rw [htbl]
    exact h.used_created hparent hi (.inr hx)
  · rw [htbl]
    exact h.used_removed (h.lookup_used hp hf).2.2 hx
  · rwa [heq]

/-- The slot `create_inode` returns is one it took. -/
theorem used_of_exec {s : Process} {c : InodeCall} {x : Nat} (h : s.tbl.Inv) (hc : c.NonRoot)
    (hx : (c.exec s).1 = some x) : (inodeStep s c).tbl.Used x := by
  rcases inodeStep_cases c h hc with
    ⟨p, mode, i, parent, _, hi, hparent, hret, htbl⟩ | ⟨_, _, _, _, _, hret, _⟩ | ⟨_, _, hret, _⟩
  · rw [hret] at hx
    cases hx
    rw [htbl]
    exact h.used_created hparent hi (.inl rfl)
  · rw [hret] at hx; cases hx
  · rw [hret] at hx; cases hx

theorem used_of_everCreated {s : Process} {cs : List InodeCall} {x : Nat} (h : s.tbl.Inv)
    (hcs : ∀ c ∈ cs, c.NonRoot) (hx : EverCreated s cs x) : (exec inodeStep s cs).tbl.Used x := by
  obtain ⟨pre, c, post, rfl, hret⟩ := hx
  have hpre : (exec inodeStep s pre).tbl.Inv :=
    exec_inodeStep_inv h fun d hd => hcs d (List.mem_append_left _ hd)
  have hc : c.NonRoot := hcs c (by simp)
  have hpost : EachStep inodeStep (fun _ d => d.NonRoot) (inodeStep (exec inodeStep s pre) c) post :=
    eachStep_of_forall_mem _ post fun d hd => hcs d (by simp [hd])
  have hstep : ∀ (s : Process) (c : InodeCall), s.tbl.Inv ∧ s.tbl.Used x → c.NonRoot →
      (inodeStep s c).tbl.Inv ∧ (inodeStep s c).tbl.Used x :=
    fun _ _ h hc => ⟨inodeStep_inv h.1 hc, used_inodeStep h.1 hc h.2⟩
  rw [exec_append, exec_cons]
  exact (EachStep.invariant hstep ⟨inodeStep_inv hpre hc, used_of_exec hpre hc hret⟩ hpost).2

/-- The numbers and pointers of a table stay inside it, `ever` being the slots ever taken. -/
structure WellFormed (t : Table) (ever : Nat → Prop) : Prop where
  /-- A slot ever taken has its own number, and a parent number inside the table. -/
  numbers : ∀ x, ever x → (t.inodes x).inumber.toInt = x ∧ 0 ≤ (t.inodes x).parentInumber.toInt ∧
    (t.inodes x).parentInumber.toInt < t.sBlock.numInodes.toInt
  /-- An entry of a directory, allocated or freed, is an allocated slot whose parent it is. -/
  entries : ∀ d < TABLE_SIZE, ∀ k < MAX_FILES_IN_DIR, (t.inodes d).entry k ≠ .null →
    ∃ x, (t.inodes d).entry k = .inode x ∧ t.Alloc x ∧ (t.inodes x).parentInumber.toInt = d
  /-- No slot is entered twice. -/
  once : ∀ d < TABLE_SIZE, ∀ d' < TABLE_SIZE, ∀ k < MAX_FILES_IN_DIR, ∀ k' < MAX_FILES_IN_DIR, ∀ x,
    (t.inodes d).entry k = .inode x → (t.inodes d').entry k' = .inode x → d = d' ∧ k = k'
  rootName : (t.inodes 0).name = [slash]
  rootAlloc : t.Alloc 0

/-- **The representation invariant** of every table reached from `formatDisk` by calls of
`create_inode` and `remove_inode`, resolving or not. -/
theorem inodeTable_wellFormed {s : Process} (hs : s.JustFormatted) {cs : List InodeCall}
    (hcs : ∀ c ∈ cs, c.NonRoot) : WellFormed (exec inodeStep s cs).tbl (EverCreated s cs) := by
  have hinv := exec_inodeStep_inv hs.inv hcs
  have hused := fun x => used_of_everCreated (x := x) hs.inv hcs
  generalize (exec inodeStep s cs).tbl = t at hinv hused ⊢
  have hsize := hinv.le_size
  refine ⟨fun x hx => ?_, fun d hd k hk hocc => ?_, ?_, hinv.rootName, hinv.rootAlloc⟩
  · have hu := hused x hx
    obtain ⟨hlt, hnum⟩ := hinv.parentOf_used hu
    have hxlt := hu.lt
    rw [hnum, hu.inumber, Table.toInt_ofNat (by omega), Table.toInt_ofNat (by omega)]
    refine ⟨rfl, by omega, ?_⟩
    have hcount : t.count = t.sBlock.numInodes.toInt.toNat := rfl
    omega
  · obtain ⟨x, hx, h1, hlt, ha, hpar⟩ := hinv.entry d hd k hk hocc
    refine ⟨x, hx, ha, ?_⟩
    obtain ⟨_, hnum⟩ := hinv.parentOf_used (hinv.used_of_alloc h1 hlt ha)
    rw [hnum, hpar, Table.toInt_ofNat hd]
  · intro d hd d' hd' k hk k' hk' x hx hx'
    have heq : d = d' := by
      rw [← (hinv.linked_spec hd ⟨k, hk, hx⟩).2.2.2, ← (hinv.linked_spec hd' ⟨k', hk', hx'⟩).2.2.2]
    subst heq
    exact ⟨rfl, hinv.inj d hd k hk k' hk' x hx hx'⟩

/-- `/a` is created, removed, and created again below itself. -/
def reuseCalls : List InodeCall :=
  [⟨.create [.a] 0o644, ⟨1000, 1000, 0⟩⟩,
   ⟨.remove [.a], ⟨1000, 1000, 0⟩⟩,
   ⟨.create [.a, .b] 0o644, ⟨1000, 1000, 0⟩⟩]

theorem inodeTable_wellFormed_reuse :
    WellFormed (exec inodeStep (formatted 200000) reuseCalls).tbl
      (EverCreated (formatted 200000) reuseCalls) :=
  inodeTable_wellFormed justFormatted_three (by decide)

end Sfs
