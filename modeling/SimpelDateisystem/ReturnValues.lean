import SimpelDateisystem.CreateRemove
import SimpelDateisystem.Restore

/-!
# What `sfs_create` and `sfs_mkdir` return

`sfs_create` returns `-errno` when `create_inode` fails, but nothing on the way sets `errno`:
the caller gets the negative of whatever an earlier call has left there. `sfs_mkdir` returns 0
whatever happens, and calls `create_inode` only for the modes 0755 and -32348.

`truthful_iff`: when they tell the truth.
-/

namespace Sfs

open Trace CString

/-- The call has allocated the inode that `p` now resolves to. -/
def Allocated (s s' : Process) (p : AbsPath) : Prop :=
  ∃ x, s'.tbl.lookup p = some x ∧ ¬ s.tbl.Alloc x ∧ s'.tbl.Alloc x

/-- The return value `r.1` of a call in `s` is 0 if it has created `p`; else it is negative and the
call has changed nothing in the table. -/
structure Truthful (s : Process) (p : AbsPath) (r : Int × Process) : Prop where
  zero_iff : r.1 = 0 ↔ Allocated s r.2 p
  failed : ¬ Allocated s r.2 p → r.1 < 0 ∧ r.2.tbl = s.tbl

/-- What `create_inode` needs: a free slot, and a parent path that resolves. -/
def Creatable (t : Table) (p : AbsPath) : Prop :=
  (∃ x, 1 ≤ x ∧ x < t.count ∧ ¬ t.Alloc x) ∧ t.lookup p.parent ≠ none

section call

variable {s : Process} {p : AbsPath} (hnone : s.tbl.lookup p = none)

theorem allocated_of_takes (h : s.tbl.Inv) {c : FuseCall} {mode : BitVec 32} {i parent : Nat}
    (ht : c.Takes s.tbl p mode i parent) (hnone : s.tbl.lookup p = none) : Allocated s (fuseStep s c) p := by
  obtain ⟨_, hlt, hfree⟩ := Table.freeSlot_spec ht.2.1
  refine ⟨i, ht.lookup_self hnone, hfree, ?_⟩
  rw [Table.Alloc, ht.tbl, Table.ibit_created _ _ _ _ _ _ (h.lt_maxBlocks hlt), if_pos rfl]

include hnone in
theorem not_allocated : ¬ Allocated s s p := by
  rintro ⟨x, hx, _⟩
  rw [hnone] at hx
  cases hx

/-- A call that has created `p` has to return 0. -/
theorem truthful_of_allocated {r : Int × Process} (ha : Allocated s r.2 p) : Truthful s p r ↔ r.1 = 0 :=
  ⟨fun h => h.zero_iff.2 ha, fun h0 => ⟨iff_of_true h0 ha, fun hn => absurd ha hn⟩⟩

include hnone in
/-- A call that has not changed anything has to return a negative value. -/
theorem truthful_unchanged_iff (ret : Int) : Truthful s p (ret, s) ↔ ret < 0 := by
  constructor
  · exact fun h => (h.failed (not_allocated hnone)).1
  · intro hneg
    exact ⟨iff_of_false (Int.ne_of_lt hneg) (not_allocated hnone), fun _ => ⟨hneg, rfl⟩⟩

/-- `create_inode` returns `NULL`, and then does nothing, iff it lacks something. -/
theorem createInode_creatable (e : Env) (mode : BitVec 32) :
    (Creatable s.tbl p ∧ (createInode e p.str mode s).1 ≠ none) ∨
      (¬ Creatable s.tbl p ∧ createInode e p.str mode s = (none, s)) := by
  rcases createInode_cases e p mode s with ⟨i, parent, hi, hparent, heq⟩ | ⟨hno, heq⟩
  · obtain ⟨h1, hlt, hfree⟩ := Table.freeSlot_spec hi
    exact .inl ⟨⟨⟨i, h1, hlt, hfree⟩, by rw [hparent]; simp⟩, by rw [heq]; simp⟩
  · refine .inr ⟨?_, heq⟩
    rintro ⟨⟨x, h1, hlt, hx⟩, hparent⟩
    rcases hno with hfull | hno
    · exact hx (Table.freeSlot_eq_none_iff.1 hfull x h1 hlt)
    · exact hparent hno

variable (h : s.tbl.Inv) (e : Env) (mode : BitVec 32)

include h hnone

theorem truthful_create_iff : Truthful s p (sfsCreate e p.str mode s) ↔ Creatable s.tbl p ∨ 0 < s.errno := by
  rcases createInode_creatable e mode (s := s) (p := p) with ⟨hc, hsome⟩ | ⟨hc, heq⟩
  · obtain ⟨i, parent, ht⟩ := exists_takes hc.1 hc.2 (c := ⟨.create p mode, e⟩) rfl
    have ha := allocated_of_takes h ht hnone
    rw [fuseStep_create] at ha
    rw [truthful_of_allocated ha]
    refine iff_of_true ?_ (.inl hc)
    unfold sfsCreate
    split
    · rename_i hnull
      exact absurd (congrArg Prod.fst hnull) hsome
    · rfl
  · have hret : sfsCreate e p.str mode s = (-s.errno, s) := by
      rw [sfsCreate, heq]
    rw [hret, truthful_unchanged_iff hnone, or_iff_right hc]
    omega

/-- `sfs_mkdir` with a mode that makes it call `create_inode`. -/
theorem truthful_mkdir_iff (hmode : mode.toNat < 0o10000) :
    Truthful s p (sfsMkdir e p.str mode s) ↔ mode = 493 ∧ Creatable s.tbl p := by
  have hneg : mode ≠ BitVec.ofInt 32 (-32348) := by
    rintro rfl
    exact absurd hmode (by decide)
  by_cases h493 : mode = 493
  · rw [and_iff_right h493]
    have hret : sfsMkdir e p.str mode s = (0, (createInode e p.str S_IFDIR s).2) := by
      rw [sfsMkdir, if_pos h493]
    rcases createInode_creatable e S_IFDIR (s := s) (p := p) with ⟨hc, _⟩ | ⟨hc, heq⟩
    · obtain ⟨i, parent, ht⟩ := exists_takes hc.1 hc.2 (c := ⟨.mkdir p mode, e⟩) (by rw [h493]; rfl)
      have ha := allocated_of_takes h ht hnone
      rw [fuseStep_mkdir] at ha
      rw [truthful_of_allocated ha, hret]
      exact iff_of_true rfl hc
    · rw [hret, heq, truthful_unchanged_iff hnone]
      exact iff_of_false (Int.lt_irrefl 0) hc
  · rw [sfsMkdir, if_neg h493, if_neg hneg, truthful_unchanged_iff hnone]
    exact iff_of_false (Int.lt_irrefl 0) fun hand => h493 hand.1

end call

/-- **When `sfs_create` and `sfs_mkdir` tell the truth**, in every reachable state and whatever
`errno` holds. -/
theorem truthful_iff {s₀ : Process} (hs : s₀.JustFormatted) (cs : List FuseCall) (errno : Int) {p : AbsPath}
    (hnone : (exec fuseStep s₀ cs).tbl.lookup p = none) (e : Env) (mode : BitVec 32) :
    let s := { exec fuseStep s₀ cs with errno := errno }
    (Truthful s p (sfsCreate e p.str mode s) ↔ Creatable s.tbl p ∨ 0 < errno) ∧
      (mode.toNat < 0o10000 → (Truthful s p (sfsMkdir e p.str mode s) ↔ mode = 493 ∧ Creatable s.tbl p)) := by
  intro s
  have h : s.tbl.Inv := (resident_exec_fuseStep hs cs).inv
  exact ⟨truthful_create_iff (s := s) hnone h e mode, truthful_mkdir_iff (s := s) hnone h e mode⟩

theorem full_twoFiles_run : (exec fuseStep (formatted 200000) twoFiles).tbl.lookup [.c] = none ∧
    (exec fuseStep (formatted 200000) twoFiles).tbl.freeSlot = none := by
  decide +kernel

theorem truthful_twoFiles :
    let s := { exec fuseStep (formatted 200000) twoFiles with errno := 28 }
    Truthful s [.c] (sfsCreate ⟨1000, 1000, 0⟩ (AbsPath.str [.c]) 0o644 s) :=
  (truthful_iff justFormatted_three twoFiles 28 full_twoFiles_run.1 _ _).1.2 (.inr (by decide))

/-- The table is full and `errno` is 0: the create returns 0, and so does `sfs_mkdir` with any mode. -/
theorem truthful_fails :
    let s := { exec fuseStep (formatted 200000) twoFiles with errno := 0 }
    ¬ Truthful s [.c] (sfsCreate ⟨1000, 1000, 0⟩ (AbsPath.str [.c]) 0o644 s) ∧
      ¬ Truthful s [.c] (sfsMkdir ⟨1000, 1000, 0⟩ (AbsPath.str [.c]) 0o755 s) ∧
      ¬ Truthful s [.c] (sfsMkdir ⟨1000, 1000, 0⟩ (AbsPath.str [.c]) 0o700 s) := by
  obtain ⟨hnone, hfull⟩ := full_twoFiles_run
  intro s
  have h : s.tbl.Inv := (resident_exec_fuseStep justFormatted_three twoFiles).inv
  have hno : ¬ Creatable s.tbl [.c] := by
    rintro ⟨⟨x, h1, hlt, hx⟩, _⟩
    exact hx (Table.freeSlot_eq_none_iff.1 hfull x h1 hlt)
  rw [truthful_create_iff (s := s) hnone h, truthful_mkdir_iff (s := s) hnone h _ _ (by decide),
    truthful_mkdir_iff (s := s) hnone h _ _ (by decide)]
  refine ⟨?_, fun hand => hno hand.2, fun hand => hno hand.2⟩
  rintro (hc | herrno)
  · exact hno hc
  · exact absurd herrno (Int.lt_irrefl 0)

end Sfs
