import SimpelDateisystem.Runs

/-!
# `create_inode` and `findFileOrDir`, `create_inode` and `remove_inode`

| theorem | says |
| --- | --- |
| `create_then_lookup` | a create fails only for want of a slot or a parent; else its path resolves to the new slot, others as before |
| `create_then_remove` | a remove of the path just created restores `ibmap` and every `dirContents` |

A create takes a slot that no allocated inode has, and its two names are carried by no slot, or
the path had resolved before: so the new slot shadows nothing. The add takes the first `NULL`
position and the remove moves position 29 into the gap; they cancel because position 29 is `NULL`
as long as any position is (`FileControlBlock.LastFilledLast`).
-/

namespace Sfs

open Trace Cells CString

/-! ## Looking up after a create -/

namespace Table

variable {t : Table} {e : Env} {p q : AbsPath} {mode : BitVec 32} {i parent y : Nat}

/-- **The path just created resolves to the new slot.** -/
theorem lookup_created_self (hnone : t.lookup p = none) (hi : i < t.count) :
    (t.created e p mode i parent).lookup p = some i := by
  have hp := Table.ne_nil_of_lookup_eq_none hnone
  have hno := (lookup_eq_none_iff hp).1 hnone
  rw [lookup_eq_some_iff hp, count_created]
  refine ⟨hi, ?_, fun y hy => ?_⟩
  · rw [carries_created, if_pos rfl]
    exact ⟨rfl, rfl⟩
  · rw [carries_created, if_neg (Nat.ne_of_lt hy)]
    exact hno y (Nat.lt_trans hy hi)

/-- **Other slots are still what their paths resolve to.** A path with the names of the new slot would
have resolved to a slot with the names of the path created. -/
theorem lookup_created_of_ne (hnone : t.lookup p = none) (hq : t.lookup q = some y) (hyi : y ≠ i) :
    (t.created e p mode i parent).lookup q = some y := by
  by_cases hroot : q = []
  · rw [hroot, lookup_nil] at hq ⊢
    exact hq
  have hp := Table.ne_nil_of_lookup_eq_none hnone
  obtain ⟨hlt, hc, hmin⟩ := (lookup_eq_some_iff hroot).1 hq
  have hnames : ¬ (p.leaf = q.leaf ∧ p.parentName = q.parentName) := by
    rintro ⟨hleaf, hdir⟩
    exact (lookup_eq_none_iff hp).1 hnone y hlt ⟨hc.1.trans hleaf.symm, hc.2.trans hdir.symm⟩
  rw [lookup_eq_some_iff hroot, count_created]
  refine ⟨hlt, ?_, fun x hx => ?_⟩
  · rw [carries_created, if_neg hyi]
    exact hc
  · rw [carries_created]
    split
    · exact hnames
    · exact hmin x hx

theorem lookup_created_of_alloc (hnone : t.lookup p = none) (hfree : ¬ t.Alloc i)
    (hq : t.lookup q = some y) (hy : t.Alloc y) : (t.created e p mode i parent).lookup q = some y := by
  refine lookup_created_of_ne hnone hq ?_
  rintro rfl
  exact hfree hy

end Table

section takes

variable {s : Process} {c : FuseCall} {p : AbsPath} {mode : BitVec 32}

/-- A create takes a slot if one is free and the parent path resolves. -/
theorem exists_takes (hfree : ∃ x, 1 ≤ x ∧ x < s.tbl.count ∧ ¬ s.tbl.Alloc x)
    (hparent : s.tbl.lookup p.parent ≠ none) (hc : c.inodeCall = some ⟨.create p mode, c.env⟩) :
    ∃ i parent, c.Takes s.tbl p mode i parent := by
  have hsome : s.tbl.freeSlot ≠ none := by
    intro hno
    obtain ⟨x, h1, hlt, hx⟩ := hfree
    exact hx (Table.freeSlot_eq_none_iff.1 hno x h1 hlt)
  obtain ⟨i, hi⟩ := Option.ne_none_iff_exists'.1 hsome
  obtain ⟨parent, hpar⟩ := Option.ne_none_iff_exists'.1 hparent
  exact ⟨i, parent, hc, hi, hpar⟩

/-- The path resolves to the slot just taken. -/
theorem FuseCall.Takes.lookup_self {i parent : Nat} (ht : c.Takes s.tbl p mode i parent)
    (hnone : s.tbl.lookup p = none) : (fuseStep s c).tbl.lookup p = some i := by
  rw [ht.tbl]
  exact Table.lookup_created_self hnone (Table.freeSlot_spec ht.2.1).2.1

end takes

/-- What `create_inode(p, m)` is to do in `s` on a path that does not resolve. -/
structure CreateContract (e : Env) (p : AbsPath) (mode : BitVec 32) (s : Process) : Prop where
  /-- It returns `NULL` exactly when no slot is free or the parent path does not resolve. -/
  returnsNull : (createInode e p.str mode s).1 = none ↔
    (∀ x, 1 ≤ x → x < s.tbl.count → s.tbl.sBlock.ibit x = 1) ∨ s.tbl.lookup p.parent = none
  /-- Then nothing changes. -/
  unchanged : (createInode e p.str mode s).1 = none → (createInode e p.str mode s).2.tbl = s.tbl
  /-- Else it returns a slot whose bit was 0 and is 1 -/
  takes : ∀ x, (createInode e p.str mode s).1 = some x →
    s.tbl.sBlock.ibit x = 0 ∧ (createInode e p.str mode s).2.tbl.sBlock.ibit x = 1
  /-- and which `p` resolves to; -/
  resolves : ∀ x, (createInode e p.str mode s).1 = some x →
    (createInode e p.str mode s).2.tbl.lookup p = some x
  /-- a path that resolved to an allocated slot still does. -/
  keeps : ∀ x, (createInode e p.str mode s).1 = some x → ∀ q ≠ p, ∀ y, s.tbl.lookup q = some y →
    s.tbl.sBlock.ibit y = 1 → (createInode e p.str mode s).2.tbl.lookup q = some y

/-- In a state that satisfies the invariant. -/
theorem createContract_of_inv {s : Process} {p : AbsPath} (h : s.tbl.Inv) (hnone : s.tbl.lookup p = none)
    (e : Env) (mode : BitVec 32) : CreateContract e p mode s := by
  rcases createInode_cases e p mode s with ⟨i, parent, hi, hparent, hcreate⟩ | ⟨hno, hcreate⟩
  · obtain ⟨h1, hlt, hfree⟩ := Table.freeSlot_spec hi
    have hret : ∀ x, (createInode e p.str mode s).1 = some x → x = i := by
      intro x hx
      rw [hcreate] at hx
      exact (Option.some_inj.1 hx).symm
    have htbl : (createInode e p.str mode s).2.tbl = s.tbl.created e p mode i parent := by
      rw [hcreate, tbl_flush]
    constructor
    case returnsNull =>
      rw [hcreate]
      refine iff_of_false (by simp) ?_
      rintro (hfull | hno)
      · exact hfree (hfull i h1 hlt)
      · rw [hparent] at hno
        cases hno
    case unchanged =>
      intro hx
      rw [hcreate] at hx
      cases hx
    case takes =>
      intro x hx
      rw [htbl, hret x hx, Table.ibit_created e p mode s.tbl i parent (h.lt_maxBlocks hlt), if_pos rfl]
      exact ⟨(h.bit i).resolve_right hfree, rfl⟩
    case resolves =>
      intro x hx
      rw [htbl, hret x hx]
      exact Table.lookup_created_self hnone hlt
    case keeps =>
      intro x _ q _ y hq hy
      rw [htbl]
      exact Table.lookup_created_of_alloc hnone hfree hq hy
  · have hnot : ∀ x, (createInode e p.str mode s).1 ≠ some x := by simp [hcreate]
    refine ⟨?_, fun _ => by rw [hcreate], fun x hx => absurd hx (hnot x), fun x hx => absurd hx (hnot x),
      fun x hx => absurd hx (hnot x)⟩
    rw [hcreate]
    exact iff_of_true rfl (hno.imp_left Table.freeSlot_eq_none_iff.1)

/-- **Create, then look up**, in every state that creates and removes can reach. -/
theorem create_then_lookup {s : Process} (hs : s.JustFormatted) {cs : List InodeCall}
    (hcs : ∀ c ∈ cs, c.NonRoot) {p : AbsPath} (hnone : (exec inodeStep s cs).tbl.lookup p = none)
    (e : Env) (mode : BitVec 32) : CreateContract e p mode (exec inodeStep s cs) :=
  createContract_of_inv (exec_inodeStep_inv hs.inv hcs) hnone e mode

/-- `/a` is created and removed, which leaves its names in slot 1. -/
def freedSlot : List InodeCall := [⟨.create [.a] 0o644, ⟨1000, 1000, 0⟩⟩, ⟨.remove [.a], ⟨1000, 1000, 0⟩⟩]

theorem freedSlot_run : (∀ c ∈ freedSlot, c.NonRoot) ∧
    (exec inodeStep (formatted 200000) freedSlot).tbl.lookup [.b] = none ∧
    (createInode ⟨1000, 1000, 0⟩ (AbsPath.str [.b]) 0o644
      (exec inodeStep (formatted 200000) freedSlot)).1 = some 1 := by
  decide +kernel

theorem create_then_lookup_freedSlot :
    CreateContract ⟨1000, 1000, 0⟩ [.b] 0o644 (exec inodeStep (formatted 200000) freedSlot) :=
  create_then_lookup justFormatted_three freedSlot_run.1 freedSlot_run.2.1 _ _

/-! ## Removing what was created -/

namespace Table

variable {t : Table} {e : Env} {p : AbsPath} {mode : BitVec 32} {i parent : Nat}

/-- Setting and clearing the bit of a free slot. -/
theorem ibmap_removed_created (h : t.Inv) (hparent : t.lookup p.parent = some parent)
    (hi : t.freeSlot = some i) :
    ((t.created e p mode i parent).removed i parent).sBlock.ibmap = t.sBlock.ibmap := by
  obtain ⟨_, hlt, hfree⟩ := freeSlot_spec hi
  have hparlt : parent < TABLE_SIZE := Nat.lt_of_lt_of_le (h.lookup_inumber hparent).1 h.le_size
  have hbit : t.sBlock.ibit i = 0 := (h.bit i).resolve_right hfree
  rw [sBlock_removed, sBlock_created]
  refine ext_peek (0 : Byte) fun x _ => ?_
  change ((t.sBlock.setIbit i 1).setIbit i 0).ibit x = t.sBlock.ibit x
  rw [Superblock.ibit_setIbit _ _ _ (h.lt_maxBlocks hlt), Superblock.ibit_setIbit _ _ _ (h.lt_maxBlocks hlt)]
  by_cases hx : x = i
  · rw [if_pos hx, hx, hbit]
  · rw [if_neg hx, if_neg hx]

/-- Dropping the entry that took the first free position. -/
theorem entry_dropEntry_created {f g : FileControlBlock Ptr} {j : Nat} (hj : j < MAX_FILES_IN_DIR)
    (hfree : ¬ f.Occupied j) (hlast : f.LastFilledLast)
    {child : Ptr} (hg : ∀ k, g.entry k = if k = j then child else f.entry k) (k : Nat) :
    (g.dropEntry j).entry k = f.entry k := by
  -- a position is free, so position 29 is
  have hlastFree : f.entry (MAX_FILES_IN_DIR - 1) = .null := not_not.1 fun hocc => hfree (hlast hocc j hj)
  rw [FileControlBlock.entry_dropEntry _ _ hj]
  by_cases hk29 : k = MAX_FILES_IN_DIR - 1
  · rw [if_pos hk29, hk29, hlastFree]
  rw [if_neg hk29]
  by_cases hkj : k = j
  · rw [if_pos hkj, hg, if_neg (by omega), hlastFree, hkj]
    exact (not_not.1 hfree).symm
  · rw [if_neg hkj, hg, if_neg hkj]

/-- **The remove undoes the add**, in a directory with room, with holes, or full. -/
theorem dirContents_removed_created (h : t.Inv) (hparent : t.lookup p.parent = some parent)
    (hi : t.freeSlot = some i) (d : Nat) :
    (((t.created e p mode i parent).removed i parent).inodes d).dirContents = (t.inodes d).dirContents := by
  obtain ⟨_, hlt, hfree⟩ := freeSlot_spec hi
  have hparlt : parent < TABLE_SIZE := Nat.lt_of_lt_of_le (h.lookup_inumber hparent).1 h.le_size
  have h' : (t.created e p mode i parent).Inv := h.created hparent hi
  have hu : (t.created e p mode i parent).Used i := h.used_created hparent hi (.inl rfl)
  have hpar : (t.created e p mode i parent).parentOf i = parent := by
    rw [h.parentOf_created hparent, if_pos rfl]
  have hnot : ¬ t.Linked parent i := fun hl => hfree (h.linked_spec hparlt hl).2.2.1
  have hremoved := h'.inodes_removed_cases (by rwa [count_created]) hu
  rw [hpar] at hremoved
  refine ext_peek Ptr.null fun k _ => ?_
  change (((t.created e p mode i parent).removed i parent).inodes d).entry k = (t.inodes d).entry k
  rcases hremoved with ⟨j, hj, hentry, hinodes⟩ | ⟨hno, hinodes⟩ <;> rw [hinodes]
  · rcases entry_created_cases e p mode t i parent with ⟨m, hm, hmfree, _, hcreated⟩ | ⟨_, hcreated⟩
    · have hjm : j = m := by
        by_contra hne
        rw [hcreated, if_neg fun hpos => hne hpos.2] at hentry
        exact hnot ⟨j, hj, hentry⟩
      subst hjm
      by_cases hd : d = parent
      · subst hd
        rw [if_pos rfl]
        have hadded : ∀ k, ((t.created e p mode i d).inodes d).entry k =
            if k = j then .inode i else (t.inodes d).entry k := by simpa only [true_and] using hcreated d
        exact entry_dropEntry_created hj hmfree (h.lastFilledLast d hparlt) hadded k
      · rw [if_neg hd, hcreated, if_neg fun hpos => hd hpos.1]
    · rw [hcreated] at hentry
      exact absurd ⟨j, hj, hentry⟩ hnot
  · rw [linked_created, not_or] at hno
    rcases entry_created_cases e p mode t i parent with ⟨m, hm, hmfree, _, _⟩ | ⟨_, hcreated⟩
    · exact absurd ⟨rfl, rfl, m, hm, hmfree⟩ hno.2
    · exact hcreated d k

end Table

/-- The table after a create and a remove of the same path. -/
theorem removeInode_createInode {s : Process} {p : AbsPath} (h : s.tbl.Inv) (hnone : s.tbl.lookup p = none)
    {e : Env} {mode : BitVec 32} {x : Nat} (hx : (createInode e p.str mode s).1 = some x) :
    ∃ i parent, s.tbl.freeSlot = some i ∧ s.tbl.lookup p.parent = some parent ∧
      (removeInode p.str (createInode e p.str mode s).2).1 = true ∧
      (removeInode p.str (createInode e p.str mode s).2).2.tbl =
        (s.tbl.created e p mode i parent).removed i parent := by
  have hp := Table.ne_nil_of_lookup_eq_none hnone
  rcases createInode_cases e p mode s with ⟨i, parent, hi, hparent, hcreate⟩ | ⟨_, hcreate⟩
  · have htbl : (createInode e p.str mode s).2.tbl = s.tbl.created e p mode i parent := by
      rw [hcreate, tbl_flush]
    have hself : (createInode e p.str mode s).2.tbl.lookup p = some i := by
      rw [htbl]
      exact Table.lookup_created_self hnone (Table.freeSlot_spec hi).2.1
    have hpar : (createInode e p.str mode s).2.tbl.parentOf i = parent := by
      rw [htbl, h.parentOf_created hparent, if_pos rfl]
    have hinv : (createInode e p.str mode s).2.tbl.Inv := by
      rw [htbl]
      exact h.created hparent hi
    rcases removeInode_cases hinv hp with ⟨f, hf, hremove⟩ | ⟨hno, _⟩
    · rw [hself] at hf
      cases hf
      refine ⟨i, parent, hi, hparent, by rw [hremove], ?_⟩
      rw [hremove, tbl_flush, hpar, htbl]
    · rw [hself] at hno
      cases hno
  · rw [hcreate] at hx
    cases hx

/-- **Remove undoes create**, in every state that creates and removes can reach. -/
theorem create_then_remove {s : Process} (hs : s.JustFormatted) {cs : List InodeCall}
    (hcs : ∀ c ∈ cs, c.NonRoot) {p : AbsPath} (hnone : (exec inodeStep s cs).tbl.lookup p = none)
    {e : Env} {mode : BitVec 32} {x : Nat}
    (hx : (createInode e p.str mode (exec inodeStep s cs)).1 = some x) :
    let t := (exec inodeStep s cs).tbl
    let r := removeInode p.str (createInode e p.str mode (exec inodeStep s cs)).2
    r.1 = true ∧ r.2.tbl.sBlock.ibmap = t.sBlock.ibmap ∧
      ∀ d, (r.2.tbl.inodes d).dirContents = (t.inodes d).dirContents := by
  have h := exec_inodeStep_inv hs.inv hcs
  obtain ⟨i, parent, hi, hparent, hret, htbl⟩ := removeInode_createInode h hnone hx
  refine ⟨hret, ?_, fun d => ?_⟩
  · rw [htbl]
    exact Table.ibmap_removed_created h hparent hi
  · rw [htbl]
    exact Table.dirContents_removed_created h hparent hi d

theorem create_then_remove_freedSlot :
    let s := exec inodeStep (formatted 200000) freedSlot
    let r := removeInode (AbsPath.str [.b]) (createInode ⟨1000, 1000, 0⟩ (AbsPath.str [.b]) 0o644 s).2
    r.1 = true ∧ r.2.tbl.sBlock.ibmap = s.tbl.sBlock.ibmap ∧
      ∀ d, (r.2.tbl.inodes d).dirContents = (s.tbl.inodes d).dirContents :=
  create_then_remove justFormatted_three freedSlot_run.1 freedSlot_run.2.1 freedSlot_run.2.2

end Sfs
