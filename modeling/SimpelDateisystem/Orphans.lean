import SimpelDateisystem.Runs

/-!
# Do freed slots keep children?

`sfs_rmdir` is `sfs_unlink`: it asks for no empty directory, and the children of a removed one stay
allocated. `create_inode` never calls `initDirContents`, as `formatDisk` does for the root, and the
lookup offers it freed slots as parents. `noOrphans_iff`: freed slots are without children, and new
directories without entries, all along a run iff it frees no slot that is the parent of another
allocated one and creates nothing below a freed slot.
-/

namespace Sfs

open Trace

/-- A freed slot has no entries and is the parent of no allocated inode. -/
def NoOrphans (t : Table) : Prop :=
  ∀ d, 1 ≤ d → d < t.count → t.sBlock.ibit d = 0 →
    (∀ k < MAX_FILES_IN_DIR, (t.inodes d).entry k = .null) ∧
    ∀ x < t.count, t.Alloc x → (t.inodes x).parentInumber.toInt ≠ d

/-- If the call is an `sfs_mkdir` that takes a slot, the slot has no entries afterwards. -/
def MkdirStartsEmpty (s : Process) (c : FuseCall) : Prop :=
  ∀ p i parent, c.op = .mkdir p 493 → c.Takes s.tbl p S_IFDIR i parent →
    ∀ k < MAX_FILES_IN_DIR, ((fuseStep s c).tbl.inodes i).entry k = .null

/-- A create finds an allocated parent — or no directory is made and the slot is taken below itself;
a remove frees a slot that no other allocated inode has as its parent. -/
def KeepsFamilies (s : Process) (c : FuseCall) : Prop :=
  (∀ p mode i parent, c.Takes s.tbl p mode i parent →
    s.tbl.Alloc parent ∨ (parent = i ∧ ∀ q, c.op ≠ .mkdir q 493)) ∧
  ∀ p f, c.Frees s.tbl p f → ∀ x < s.tbl.count, s.tbl.Alloc x → s.tbl.parentOf x = f → x = f

namespace Table

variable {t : Table} {p : AbsPath} {e : Env} {mode : BitVec 32} {i parent f : Nat}

/-- Without orphans there are no entries in freed slots either: an entry is a child. -/
theorem noOrphans_iff_parentsAlloc (h : t.Inv) : NoOrphans t ↔ ParentsAlloc t := by
  constructor
  · intro hno x hx ha
    by_cases h0 : x = 0
    · rw [h0, h.parentOf_root]; exact h.rootAlloc
    obtain ⟨hlt, hnum⟩ := h.parentOf_used (h.used_of_alloc (by omega) hx ha)
    by_contra hfree
    have hne : t.parentOf x ≠ 0 := fun heq => hfree (by rw [heq]; exact h.rootAlloc)
    refine (hno _ (by omega) hlt ((h.bit _).resolve_right hfree)).2 x hx ha ?_
    rw [hnum, toInt_ofNat (Nat.lt_of_lt_of_le hlt h.le_size)]
  · intro hpa d h1 hd hbit
    have hfree : ¬ t.Alloc d := by rw [Alloc, hbit]; decide
    have hchild : ∀ x < t.count, t.Alloc x → t.parentOf x ≠ d := by
      rintro x hx ha rfl
      exact hfree (hpa x hx ha)
    refine ⟨fun k hk => ?_, fun x hx ha hnum => hchild x hx ha ?_⟩
    · by_contra hocc
      obtain ⟨s, _, _, hslt, hsa, hspar⟩ := h.entry d (Nat.lt_of_lt_of_le hd h.le_size) k hk hocc
      exact hchild s hslt hsa hspar
    · rw [parentOf, hnum, Int.toNat_natCast]

/-- A freed slot that is taken has no entries, unless it was taken below itself. -/
theorem entry_created_new (h : t.Inv) (hi : t.freeSlot = some i) (hpa : ParentsAlloc t) :
    (∀ k < MAX_FILES_IN_DIR, ((t.created e p mode i parent).inodes i).entry k = .null) ↔ parent ≠ i := by
  obtain ⟨h1, hlt, hfree⟩ := freeSlot_spec hi
  have hempty : ∀ k < MAX_FILES_IN_DIR, (t.inodes i).entry k = .null :=
    ((noOrphans_iff_parentsAlloc h).2 hpa i h1 hlt ((h.bit i).resolve_right hfree)).1
  rcases entry_created_cases e p mode t i parent with ⟨j, hj, _, _, hentry⟩ | ⟨hfull, hentry⟩
  · simp only [hentry]
    constructor
    · intro hnull hpi
      have := hnull j hj
      rw [if_pos ⟨hpi.symm, rfl⟩] at this
      cases this
    · intro hne k hk
      rw [if_neg fun hpos => hne hpos.1.symm, hempty k hk]
  · simp only [hentry]
    refine ⟨fun _ hpi => hfull ⟨0, by decide, ?_⟩, fun _ => hempty⟩
    rw [hpi]
    exact not_not.2 (hempty 0 (by decide))

end Table

section takes

variable {s : Process} {c : FuseCall} {p : AbsPath} {mode : BitVec 32} {i parent : Nat}
  (ht : c.Takes s.tbl p mode i parent)

include ht

theorem FuseCall.Takes.mkdirStartsEmpty_iff (h : s.tbl.Inv) (hpa : s.tbl.ParentsAlloc) :
    MkdirStartsEmpty s c ↔ ∀ q, c.op = .mkdir q 493 → parent ≠ i := by
  constructor
  · intro hstart q hop
    have hq : c.inodeCall = some ⟨.create q S_IFDIR, c.env⟩ := by
      simp only [FuseCall.inodeCall, hop, if_true]
    rw [ht.1] at hq
    cases hq
    have hnull := hstart p i parent hop ht
    rw [ht.tbl] at hnull
    exact (Table.entry_created_new h ht.2.1 hpa).1 hnull
  · intro hne q i' parent' hop ht'
    obtain ⟨rfl, rfl, rfl, rfl⟩ := ht.inj ht'
    rw [ht.tbl]
    exact (Table.entry_created_new h ht.2.1 hpa).2 (hne p hop)

theorem FuseCall.Takes.keepsFamilies_iff :
    KeepsFamilies s c ↔ s.tbl.Alloc parent ∨ (parent = i ∧ ∀ q, c.op ≠ .mkdir q 493) := by
  constructor
  · exact fun hk => hk.1 p mode i parent ht
  · intro hpar
    refine ⟨fun q mode' i' parent' ht' => ?_, fun q f hf => absurd hf ht.not_frees⟩
    obtain ⟨rfl, rfl, rfl, rfl⟩ := ht.inj ht'
    exact hpar

end takes

/-- The effect of one call, on a table without orphans. -/
theorem keepsFamilies_iff {s : Process} {c : FuseCall} (h : s.tbl.Inv) (hc : c.NonRoot)
    (hpa : s.tbl.ParentsAlloc) :
    (fuseStep s c).tbl.ParentsAlloc ∧ MkdirStartsEmpty s c ↔ KeepsFamilies s c := by
  rcases fuseStep_cases h hc with ⟨p, mode, i, parent, ht, htbl⟩ | ⟨p, f, hp, hf, htbl⟩ | ⟨hnt, hnf, htbl⟩
  · have hi := ht.2.1
    rw [htbl, Table.parentsAlloc_created_iff h hi ht.2.2 hpa, ht.mkdirStartsEmpty_iff h hpa, ht.keepsFamilies_iff]
    constructor
    · rintro ⟨ha | rfl, hne⟩
      · exact .inl ha
      · exact .inr ⟨rfl, fun q hop => hne q hop rfl⟩
    · rintro (ha | ⟨rfl, hne⟩)
      · exact ⟨.inl ha, fun q _ heq => (Table.freeSlot_spec hi).2.2 (heq ▸ ha)⟩
      · exact ⟨.inr rfl, fun q hop => absurd hop (hne q)⟩
  · obtain ⟨h1, hlt, hu⟩ := h.lookup_used hp hf.2
    rw [htbl, Table.parentsAlloc_removed_iff h hlt hu hpa]
    constructor
    · rintro ⟨hno, _⟩
      refine ⟨fun q mode i parent ht => absurd hf ht.not_frees, fun q f' hf' => ?_⟩
      obtain ⟨_, rfl⟩ := hf.inj hf'
      exact hno
    · intro hk
      exact ⟨hk.2 p f hf, fun q i parent _ ht => absurd hf ht.not_frees⟩
  · rw [htbl]
    refine ⟨fun _ => ⟨?_, ?_⟩, fun _ => ⟨hpa, ?_⟩⟩
    · exact fun p mode i parent ht => absurd ht (hnt p mode i parent)
    · exact fun p f hf => absurd hf (hnf p f)
    · exact fun p i parent _ ht => absurd ht (hnt p _ i parent)

/-- **No orphans, and empty new directories, all along a run iff every call keeps families.** -/
theorem noOrphans_iff {s : Process} (hs : s.JustFormatted) {cs : List FuseCall}
    (hcs : EachStep fuseStep ResolvingAdmits s cs) :
    Always fuseStep (fun s => NoOrphans s.tbl) s cs ∧ EachStep fuseStep MkdirStartsEmpty s cs ↔
      EachStep fuseStep KeepsFamilies s cs := by
  have good : ∀ s c, s.tbl.Inv ∧ s.tbl.ParentsAlloc → ResolvingAdmits s c → KeepsFamilies s c →
      ((fuseStep s c).tbl.Inv ∧ (fuseStep s c).tbl.ParentsAlloc) ∧ MkdirStartsEmpty s c := by
    intro s c h hc hk
    obtain ⟨hpa, hstart⟩ := (keepsFamilies_iff h.1 hc.nonRoot h.2).2 hk
    exact ⟨⟨fuseStep_inv h.1 hc.nonRoot, hpa⟩, hstart⟩
  have bad : ∀ s c, s.tbl.Inv ∧ s.tbl.ParentsAlloc → ResolvingAdmits s c → ¬ KeepsFamilies s c →
      ¬ (NoOrphans (fuseStep s c).tbl ∧ MkdirStartsEmpty s c) := by
    intro s c h hc hk hno
    rw [Table.noOrphans_iff_parentsAlloc (fuseStep_inv h.1 hc.nonRoot)] at hno
    exact hk ((keepsFamilies_iff h.1 hc.nonRoot h.2).1 hno)
  exact always_iff_eachStep (fun s h => (Table.noOrphans_iff_parentsAlloc h.1).2 h.2) good bad
    ⟨hs.inv, hs.tbl.parentsAlloc⟩ hcs

/-- A directory `/d` with a file `/d/c` in it is removed. -/
def rmdirNonEmpty : List FuseCall :=
  [⟨.mkdir [.d] 493, ⟨1000, 1000, 0⟩⟩,
   ⟨.create [.d, .c] 0o644, ⟨1000, 1000, 0⟩⟩,
   ⟨.rmdir [.d], ⟨1000, 1000, 0⟩⟩]

theorem rmdirNonEmpty_run : EachStep fuseStep ResolvingAdmits (formatted 200000) rmdirNonEmpty ∧
    2 < (exec fuseStep (formatted 200000) rmdirNonEmpty).tbl.count ∧
    (exec fuseStep (formatted 200000) rmdirNonEmpty).tbl.sBlock.ibit 1 = 0 ∧
    (exec fuseStep (formatted 200000) rmdirNonEmpty).tbl.Alloc 2 ∧
    ((exec fuseStep (formatted 200000) rmdirNonEmpty).tbl.inodes 2).parentInumber.toInt = 1 := by
  decide +kernel

theorem noOrphans_iff_rmdirNonEmpty :
    Always fuseStep (fun s => NoOrphans s.tbl) (formatted 200000) rmdirNonEmpty ∧
        EachStep fuseStep MkdirStartsEmpty (formatted 200000) rmdirNonEmpty ↔
      EachStep fuseStep KeepsFamilies (formatted 200000) rmdirNonEmpty :=
  noOrphans_iff justFormatted_three rmdirNonEmpty_run.1

/-- `/d/c` stays allocated below the freed slot of `/d`. -/
theorem noOrphans_fails : EachStep fuseStep ResolvingAdmits (formatted 200000) rmdirNonEmpty ∧
    ¬ NoOrphans (exec fuseStep (formatted 200000) rmdirNonEmpty).tbl := by
  obtain ⟨hadmits, hlt, hfree, halloc, hparent⟩ := rmdirNonEmpty_run
  exact ⟨hadmits, fun hno => (hno 1 (by decide) (by omega) hfree).2 2 hlt halloc hparent⟩

end Sfs
