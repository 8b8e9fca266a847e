import SimpelDateisystem.Requests
import SimpelDateisystem.TreeWalk

/-!
# The files `sfs_getattr` makes up

For `/.Trash` and `/.Trash-XXXXX` (`dummyPath`) `sfs_getattr` answers without a lookup (`sfs.c:194-215`), so
that a desktop finds a file there. The kernel creates nothing where `sfs_getattr` finds something:
`dummy_run`, these files can be looked at, but never opened, listed or removed, whatever else is done.
-/

namespace Sfs

open Trace CString

namespace Table

/-- No slot below the root has the name `n`, whether by its own record or by its number for the parent. -/
def NotAtTop (t : Table) (n : CStr) : Prop :=
  ∀ x, 1 ≤ x → x < t.count → (t.inodes x).name = n → (t.inodes x).dir ≠ [slash] ∧ t.parentOf x ≠ 0

variable {t : Table} {p : AbsPath} {c : Component} {e : Env} {mode : BitVec 32} {i parent : Nat}

theorem Formatted.notAtTop (h : t.Formatted) (hsize : t.count ≤ TABLE_SIZE) : t.NotAtTop c.bytes := by
  intro x h1 hx hname
  rw [h.inodes x h1 (by omega), FileControlBlock.name_zero] at hname
  exact absurd hname.symm c.nonempty

/-- A path that ends in the name is at the top level only if it is the name. -/
theorem eq_singleton_of_leaf (hp : p ≠ []) (htop : p.parent = []) (hleaf : p.leaf = c.bytes) : p = [c] := by
  obtain rfl | ⟨q, b, rfl⟩ := p.eq_nil_or_concat
  · exact absurd rfl hp
  rw [List.concat_eq_append] at htop hleaf ⊢
  rw [AbsPath.parent_concat] at htop
  rw [AbsPath.leaf_concat] at hleaf
  obtain ⟨_, _, _, _, _⟩ := b
  obtain ⟨_, _, _, _, _⟩ := c
  cases hleaf
  rw [htop, List.nil_append]

theorem NotAtTop.created (hno : t.NotAtTop c.bytes) (h : t.Inv) (hparent : t.lookup p.parent = some parent)
    (hp : p ≠ []) (hne : p ≠ [c]) : (t.created e p mode i parent).NotAtTop c.bytes := by
  intro x h1 hx hname
  rw [count_created] at hx
  rw [name_created] at hname
  rw [dir_created, h.parentOf_created hparent]
  by_cases hxi : x = i
  · rw [if_pos hxi] at hname ⊢
    have hbelow : p.parent ≠ [] := fun htop => hne (eq_singleton_of_leaf hp htop hname)
    rw [if_pos hxi]
    exact ⟨fun hdir => hbelow (AbsPath.parentName_eq_root_iff.1 hdir),
      Nat.one_le_iff_ne_zero.1 (h.lookup_used hbelow hparent).1⟩
  · rw [if_neg hxi] at hname ⊢
    rw [if_neg hxi]
    exact hno x h1 hx hname

theorem NotAtTop.removed {f : Nat} (hno : t.NotAtTop c.bytes) (h : t.Inv) (hu : t.Used f) :
    (t.removed f (t.parentOf f)).NotAtTop c.bytes := by
  have hlast := h.lastFilledLast _ (h.parentOf_lt_size hu)
  intro x h1 hx hname
  rw [count_removed] at hx
  rw [name_removed hlast] at hname
  rw [dir_removed hlast, h.parentOf_removed hu]
  exact hno x h1 hx hname

theorem NotAtTop.lookup (hno : t.NotAtTop c.bytes) (h : t.Inv) : t.lookup [c] = none := by
  refine (lookup_eq_none_iff (by simp)).2 fun x hx hc => ?_
  obtain ⟨h1, _⟩ := h.used_of_carries (by simp) hx hc
  have hname : (t.inodes x).name = c.bytes := by rw [hc.1, ← AbsPath.leaf_concat [], List.nil_append]
  exact (hno x h1 hx hname).1 (hc.2.trans (AbsPath.parentName_top c))

theorem NotAtTop.not_listed {names : List CStr} (hno : t.NotAtTop c.bytes) (h : t.Inv)
    (hlist : sfsReaddir (AbsPath.str []) t = .done 0 (dots ++ names)) : c.bytes ∉ names := by
  intro hlisted
  obtain ⟨x, h1, hx, _, hpar, hname⟩ := mem_listing h lookup_nil hlist hlisted
  exact (hno x h1 hx hname).2 hpar

end Table

/-! ## Runs -/

/-- The kernel creates nothing where `sfs_getattr` finds something. -/
theorem KernelAdmits.not_dummy {s : Process} {c : FuseCall} {p : AbsPath} {mode : BitVec 32} {i parent : Nat}
    (h : KernelAdmits s c) (ht : c.Takes s.tbl p mode i parent) : dummyPath p.str = false ∧ s.tbl.lookup p = none := by
  have hno : GetattrENOENT s p := by
    unfold KernelAdmits at h
    obtain ⟨m, hop | hop⟩ := ht.op <;> rw [hop] at h <;> exact h
  exact (getattrENOENT_iff.1 hno).2

theorem notAtTop_fuseStep {s : Process} {c : FuseCall} {n : Component} (h : s.tbl.Inv) (hc : KernelAdmits s c)
    (hdummy : dummyPath (AbsPath.str [n]) = true) (hno : s.tbl.NotAtTop n.bytes) :
    (fuseStep s c).tbl.NotAtTop n.bytes := by
  rcases fuseStep_cases h hc.nonRoot with ⟨p, mode, i, parent, ht, htbl⟩ | ⟨p, f, hp, hf, htbl⟩ | ⟨_, _, htbl⟩
  · obtain ⟨hreal, hnone⟩ := hc.not_dummy ht
    rw [htbl]
    refine hno.created h ht.2.2 (Table.ne_nil_of_lookup_eq_none hnone) ?_
    rintro rfl
    rw [hreal] at hdummy
    cases hdummy
  · rw [htbl]
    exact hno.removed h (h.lookup_used hp hf.2).2.2
  · rwa [htbl]

/-- What answers to a path that does not resolve. -/
theorem exec_of_lookup_eq_none {s : Process} {p : AbsPath} (h : s.tbl.Inv) (hno : s.tbl.lookup p = none) (e : Env) :
    (Request.exec s ⟨.openFile p, e⟩).1 = .ret (-ENOENT) ∧ (Request.exec s ⟨.openDir p, e⟩).1 = .ret (-ENOENT) ∧
    (Request.exec s ⟨.change (.unlink p), e⟩).1 = .ret (-ENOENT) ∧
    (Request.exec s ⟨.change (.rmdir p), e⟩).1 = .ret (-ENOENT) := by
  have hfind : findFileOrDir s.tbl p.str = none := hno
  have hask : (lookupPath p.str s).1 = -ENOENT := by rw [lookupPath, hfind]
  have hremove : (removePath p.str s).1 = -ENOENT := by
    rw [removePath_fst h (Table.ne_nil_of_lookup_eq_none hno), if_pos hno]
  exact ⟨congrArg Reply.ret hask, congrArg Reply.ret hask, congrArg Reply.ret hremove, congrArg Reply.ret hremove⟩

/-- **A file that `sfs_getattr` makes up stays made up**: in every state the kernel can bring about it has
attributes, no inode, no place in the listing of `/`, and can be neither opened nor removed. -/
theorem dummy_run {s : Process} (hs : s.JustFormatted) {cs : List FuseCall} (hcs : EachStep fuseStep KernelAdmits s cs)
    {c : Component} (hdummy : dummyPath (AbsPath.str [c]) = true) :
    let u := exec fuseStep s cs
    GetattrOk u [c] ∧ u.tbl.lookup [c] = none ∧
    (∀ names, sfsReaddir (AbsPath.str []) u.tbl = .done 0 (dots ++ names) → c.bytes ∉ names) ∧
    ∀ e, (Request.exec u ⟨.openFile [c], e⟩).1 = .ret (-ENOENT) ∧
      (Request.exec u ⟨.openDir [c], e⟩).1 = .ret (-ENOENT) ∧
      (Request.exec u ⟨.change (.unlink [c]), e⟩).1 = .ret (-ENOENT) ∧
      (Request.exec u ⟨.change (.rmdir [c]), e⟩).1 = .ret (-ENOENT) := by
  intro u
  have hstep : ∀ s a, s.tbl.Inv ∧ s.tbl.NotAtTop c.bytes → KernelAdmits s a →
      (fuseStep s a).tbl.Inv ∧ (fuseStep s a).tbl.NotAtTop c.bytes :=
    fun s a h ha => ⟨fuseStep_inv h.1 ha.nonRoot, notAtTop_fuseStep h.1 ha hdummy h.2⟩
  obtain ⟨h, hno⟩ : u.tbl.Inv ∧ u.tbl.NotAtTop c.bytes :=
    EachStep.invariant hstep ⟨hs.inv, hs.tbl.notAtTop hs.le_size⟩ hcs
  have hlookup := hno.lookup h
  refine ⟨getattrOk_iff.2 ⟨?_, .inl hdummy⟩, hlookup, fun names hlist => hno.not_listed h hlist,
    exec_of_lookup_eq_none h hlookup⟩
  -- all such paths are short
  have hshort := c.short
  have hlen : (AbsPath.str [c]).length = c.bytes.length + 1 := by simp [AbsPath.str, join]
  have hmax : NAME_SIZE ≤ PATH_MAX := by decide
  omega

/-- `.Trash` -/
def trashName : Component where
  bytes := [46, 84, 114, 97, 115, 104]
  nonempty := by simp
  short := by decide
  noSlash := by decide
  noNul := by decide

/-- A directory `/a` with a file `/a/.Trash`, which is a file like any other. -/
def trashInDirectory : List FuseCall :=
  [⟨.mkdir [.a] 493, ⟨1000, 1000, 0⟩⟩,
   ⟨.create [.a, trashName] 0o644, ⟨1000, 1000, 0⟩⟩]

theorem trashInDirectory_run : EachStep fuseStep KernelAdmits (formatted 200000) trashInDirectory := by decide +kernel

theorem dummy_run_trashInDirectory :
    let u := exec fuseStep (formatted 200000) trashInDirectory
    GetattrOk u [trashName] ∧ u.tbl.lookup [trashName] = none ∧
    (∀ names, sfsReaddir (AbsPath.str []) u.tbl = .done 0 (dots ++ names) → trashName.bytes ∉ names) ∧
    ∀ e, (Request.exec u ⟨.openFile [trashName], e⟩).1 = .ret (-ENOENT) ∧
      (Request.exec u ⟨.openDir [trashName], e⟩).1 = .ret (-ENOENT) ∧
      (Request.exec u ⟨.change (.unlink [trashName]), e⟩).1 = .ret (-ENOENT) ∧
      (Request.exec u ⟨.change (.rmdir [trashName]), e⟩).1 = .ret (-ENOENT) :=
  dummy_run justFormatted_three trashInDirectory_run (by decide)

end Sfs
