import SimpelDateisystem.Runs

/-!
# Two processes with the same table

What a call does to the table depends on the superblock and on the slots of `inodes[]` alone: not on the
memory behind the array, on `errno`, or on the disk. `agrees_fuseStep`: two processes whose tables agree
there make the same of a call.
-/

namespace Sfs

open CString

namespace Table

/-- What a path resolves to depends on the names alone. -/
theorem lookup_congr {t t' : Table} (hcount : t.count = t'.count)
    (hnames : ∀ x < t.count, (t.inodes x).name = (t'.inodes x).name ∧ (t.inodes x).dir = (t'.inodes x).dir)
    (p : AbsPath) : t.lookup p = t'.lookup p := by
  by_cases hp : p = []
  · rw [hp, lookup_nil, lookup_nil]
  refine Option.ext fun x => ?_
  rw [lookup_eq_some_iff hp, lookup_eq_some_iff hp, ← hcount]
  have hcarries : ∀ y < t.count, t.Carries y p ↔ t'.Carries y p := fun y hy => by
    rw [Carries, Carries, (hnames y hy).1, (hnames y hy).2]
  refine and_congr_right fun hx => ?_
  rw [hcarries x hx]
  exact and_congr_right fun _ => forall₂_congr fun y hy => not_congr (hcarries y (Nat.lt_trans hy hx))

theorem lt_count_of_lookup {t : Table} (hpos : 0 < t.count) {p : AbsPath} {x : Nat} (hx : t.lookup p = some x) :
    x < t.count := by
  by_cases hp : p = []
  · rw [hp, lookup_nil] at hx
    cases hx
    exact hpos
  · exact ((lookup_eq_some_iff hp).1 hx).1

/-- The same superblock and the same `inodes[]`. -/
structure Agrees (t t' : Table) : Prop where
  sBlock : t.sBlock = t'.sBlock
  inodes : ∀ x < TABLE_SIZE, t.inodes x = t'.inodes x

namespace Agrees

variable {t t' u : Table} {p : AbsPath} {i parent : Nat}

theorem refl (t : Table) : t.Agrees t := ⟨rfl, fun _ _ => rfl⟩

theorem symm (h : t.Agrees t') : t'.Agrees t := ⟨h.sBlock.symm, fun x hx => (h.inodes x hx).symm⟩

theorem trans (h : t.Agrees t') (h' : t'.Agrees u) : t.Agrees u :=
  ⟨h.sBlock.trans h'.sBlock, fun x hx => (h.inodes x hx).trans (h'.inodes x hx)⟩

theorem count (h : t.Agrees t') : t.count = t'.count := by
  rw [Table.count, Table.count, h.sBlock]

theorem alloc (h : t.Agrees t') (x : Nat) : t.Alloc x ↔ t'.Alloc x := by
  rw [Alloc, Alloc, h.sBlock]

theorem setInode (h : t.Agrees t') {f f' : FileControlBlock Ptr} (hf : f = f') (x : Nat) :
    (t.setInode x f).Agrees (t'.setInode x f') := by
  refine ⟨h.sBlock, fun y hy => ?_⟩
  rw [inodes_setInode, inodes_setInode, hf, h.inodes y hy]

theorem setIbit (h : t.Agrees t') (x : Nat) (b : Byte) : (t.setIbit x b).Agrees (t'.setIbit x b) :=
  ⟨by rw [Table.setIbit, Table.setIbit, h.sBlock], h.inodes⟩

/-! ## What a call reads -/

theorem freeSlot (h : t.Agrees t') : t.freeSlot = t'.freeSlot := by
  rw [Table.freeSlot, Table.freeSlot, h.count, h.sBlock]

theorem parentOf (h : t.Agrees t') {x : Nat} (hx : x < TABLE_SIZE) : t.parentOf x = t'.parentOf x := by
  rw [Table.parentOf, Table.parentOf, h.inodes x hx]

theorem linked (h : t.Agrees t') {d s : Nat} (hd : d < TABLE_SIZE) : t.Linked d s ↔ t'.Linked d s := by
  rw [Linked, Linked, h.inodes d hd]

theorem lookup (h : t.Agrees t') (hsize : t.count ≤ TABLE_SIZE) (p : AbsPath) : t.lookup p = t'.lookup p :=
  lookup_congr h.count (fun x hx => by rw [h.inodes x (by omega)]; exact ⟨rfl, rfl⟩) p

theorem unused (h : t.Agrees t') {x : Nat} (hx : x < TABLE_SIZE) (hu : t.Unused x) : t'.Unused x :=
  ⟨by rw [← h.inodes x hx, hu.record], by rw [← h.sBlock, hu.bit]⟩

theorem used (h : t.Agrees t') {x : Nat} (hx : x < TABLE_SIZE) (hu : t.Used x) : t'.Used x := by
  obtain ⟨d, hd, heq⟩ := hu.parent
  exact ⟨by rw [← h.count]; exact hu.lt, by rw [← h.inodes x hx, hu.inumber], d, by rw [← h.count]; exact hd,
    by rw [← h.inodes x hx, heq]⟩

/-- The invariant is about nothing else. -/
theorem inv (h : t.Agrees t') (hi : t.Inv) : t'.Inv := by
  have hroot := h.inodes 0 (by decide)
  constructor
  case two_le => rw [← h.count]; exact hi.two_le
  case le_size => rw [← h.count]; exact hi.le_size
  case rootName => rw [← hroot, hi.rootName]
  case rootDir => rw [← hroot, hi.rootDir]
  case rootInumber => rw [← hroot, hi.rootInumber]
  case rootParent => rw [← hroot, hi.rootParent]
  case rootAlloc => exact (h.alloc 0).1 hi.rootAlloc
  case bit => intro x; rw [← h.sBlock]; exact hi.bit x
  case slot => exact fun x h1 hx => (hi.slot x h1 hx).imp (h.unused hx) (h.used hx)
  case entry =>
    intro d hd k hk hocc
    rw [← h.inodes d hd] at hocc ⊢
    obtain ⟨s, hs, h1, hlt, ha, hpar⟩ := hi.entry d hd k hk hocc
    have hsize := hi.le_size
    exact ⟨s, hs, h1, by rw [← h.count]; exact hlt, (h.alloc s).1 ha, by rw [← h.parentOf (by omega), hpar]⟩
  case inj =>
    intro d hd j hj k hk s
    rw [← h.inodes d hd]
    exact hi.inj d hd j hj k hk s
  case lastFilledLast => intro d hd; rw [← h.inodes d hd]; exact hi.lastFilledLast d hd

/-! ## What it writes -/

theorem addToDirentry (h : t.Agrees t') (hp : parent < TABLE_SIZE) (child : Nat) :
    (Sfs.addToDirentry t parent child).2.Agrees (Sfs.addToDirentry t' parent child).2 := by
  have hparent := h.inodes parent hp
  have hocc : ∀ k, (t.inodes parent).Occupied k ↔ (t'.inodes parent).Occupied k := fun k => by rw [hparent]
  rcases addToDirentry_cases t parent child with ⟨j, hj, hfree, hmin, heq⟩ | ⟨hfull, heq⟩ <;>
    rcases addToDirentry_cases t' parent child with ⟨j', hj', hfree', hmin', heq'⟩ | ⟨hfull', heq'⟩ <;>
    rw [heq, heq']
  · have hjj : j = j' := by
      apply Nat.le_antisymm
      · exact Nat.not_lt.1 fun hlt => hfree' ((hocc j').1 (hmin j' hlt))
      · exact Nat.not_lt.1 fun hlt => hfree ((hocc j).2 (hmin' j hlt))
    exact h.setInode (by rw [hparent, hjj]) parent
  · exact absurd ⟨j, hj, hfree⟩ (hparent ▸ hfull')
  · exact absurd ⟨j', hj', hfree'⟩ (hparent ▸ hfull)
  · exact h

theorem initInode (h : t.Agrees t') (hi : i < TABLE_SIZE) (hp : parent < TABLE_SIZE) (e : Env)
    (relName parentDir : CStr) (mode : BitVec 32) :
    (Sfs.initInode e t i parent relName parentDir mode).Agrees
      (Sfs.initInode e t' i parent relName parentDir mode) := by
  unfold Sfs.initInode
  have h1 := h.setInode (f := { t.inodes i with
    fileName := strcpyArray (t.inodes i).fileName relName
    parentDir := strcpyArray (t.inodes i).parentDir parentDir }) (by rw [h.inodes i hi]) i
  have h2 := h1.setInode (f := { (t.setInode i _).inodes i with
    parentInumber := ((t.setInode i _).inodes parent).inumber
    mode := mode.setWidth 16
    uid := e.uid.setWidth 16
    time := e.now
    inumber := BitVec.ofNat 16 i }) (by rw [h1.inodes i hi, h1.inodes parent hp]) i
  exact h2.setInode (by rw [h2.inodes i hi, h2.inodes parent hp]) i

theorem created (h : t.Agrees t') (hi : i < TABLE_SIZE) (hp : parent < TABLE_SIZE) (e : Env) (p : AbsPath)
    (mode : BitVec 32) : (t.created e p mode i parent).Agrees (t'.created e p mode i parent) :=
  ((h.addToDirentry hp i).initInode hi hp e p.leaf p.parentName mode).setIbit i 1

theorem removed (h : t.Agrees t') (hinv : t.Inv) {f : Nat} (hf : f < t.count) (hu : t.Used f) :
    (t.removed f (t.parentOf f)).Agrees (t'.removed f (t'.parentOf f)) := by
  have hsize := hinv.le_size
  have hlt : f < TABLE_SIZE := by omega
  have hp := hinv.parentOf_lt_size hu
  have hinv' := h.inv hinv
  have hparent := h.inodes _ hp
  have hpar := h.parentOf hlt
  refine ⟨by rw [sBlock_removed, sBlock_removed, h.sBlock], fun x hx => ?_⟩
  rcases hinv.inodes_removed_cases hf hu with ⟨j, hj, hjf, heq⟩ | ⟨hno, heq⟩ <;>
    rcases hinv'.inodes_removed_cases (by rw [← h.count]; exact hf) (h.used hlt hu) with
      ⟨j', hj', hjf', heq'⟩ | ⟨hno', heq'⟩ <;>
    rw [heq, heq']
  · rw [← hpar, ← hparent] at hjf'
    rw [← hpar, hinv.inj _ hp j hj j' hj' f hjf hjf', hparent, h.inodes x hx]
  · exact absurd ((h.linked hp).1 ⟨j, hj, hjf⟩) (hpar ▸ hno')
  · rw [← hpar, ← hparent] at hjf'
    exact absurd ⟨j', hj', hjf'⟩ hno
  · exact h.inodes x hx

end Agrees

end Table

/-! ## Calls -/

section

variable {s s' : Process} {c : FuseCall}

theorem Table.Agrees.takes (h : s.tbl.Agrees s'.tbl) (hsize : s.tbl.count ≤ TABLE_SIZE) {p : AbsPath} {mode : BitVec 32}
    {i parent : Nat} : c.Takes s.tbl p mode i parent ↔ c.Takes s'.tbl p mode i parent := by
  rw [FuseCall.Takes, FuseCall.Takes, h.freeSlot, h.lookup hsize]

theorem Table.Agrees.frees (h : s.tbl.Agrees s'.tbl) (hsize : s.tbl.count ≤ TABLE_SIZE) {p : AbsPath} {f : Nat} :
    c.Frees s.tbl p f ↔ c.Frees s'.tbl p f := by
  rw [FuseCall.Frees, FuseCall.Frees, h.lookup hsize]

/-- **Processes with the same table make the same of a call.** -/
theorem agrees_fuseStep (h : s.tbl.Agrees s'.tbl) (hinv : s.tbl.Inv) (c : FuseCall) :
    (fuseStep s c).tbl.Agrees (fuseStep s' c).tbl := by
  have hinv' := h.inv hinv
  have hsize := hinv.le_size
  by_cases hc : c.NonRoot
  · rcases fuseStep_cases hinv hc with ⟨p, mode, i, parent, ht, htbl⟩ | ⟨p, f, hp, hf, htbl⟩ | ⟨htakes, hfrees, htbl⟩
    · obtain ⟨_, hlt, _⟩ := Table.freeSlot_spec ht.2.1
      rw [htbl, ((h.takes hsize).1 ht).tbl]
      exact h.created (by omega) (Nat.lt_of_lt_of_le (hinv.lookup_inumber ht.2.2).1 hsize) c.env p mode
    · obtain ⟨_, hlt, hu⟩ := hinv.lookup_used hp hf.2
      rw [htbl, ((h.frees hsize).1 hf).tbl hinv' hp]
      exact h.removed hinv hlt hu
    · rcases fuseStep_cases hinv' hc with ⟨p, mode, i, parent, ht, _⟩ | ⟨p, f, _, hf, _⟩ | ⟨_, _, htbl'⟩
      · exact absurd ((h.takes hsize).2 ht) (htakes p mode i parent)
      · exact absurd ((h.frees hsize).2 hf) (hfrees p f)
      · rwa [htbl, htbl']
  · rwa [tbl_fuseStep_root hinv hc, tbl_fuseStep_root hinv' hc]

end

end Sfs
