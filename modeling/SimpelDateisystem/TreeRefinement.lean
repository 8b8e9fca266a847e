import SimpelDateisystem.Lib.PathTree
import SimpelDateisystem.TreeWalk

/-!
# The file system as a tree of paths

What a client means by its calls: `PathTree`, a set of paths. `Follows` is a client that keeps to the rules
of the tree: it creates in directories that are there, and removes what is there and has no children.

`pathTree_run`: as long as the kernel finds nothing at the path of a create, the paths of the allocated
inodes are those of the tree, each path of the tree resolves to its inode, and a walk over listings comes to
all of them if no directory fills up and removes take the last entry. What the tree leaves out is why the
kernel might find something: names of freed slots, and other paths that end in the same two names.
-/

namespace Sfs

open Trace

/-- What the call means for the tree. -/
def treeStep (T : PathTree Component) (c : FuseCall) : PathTree Component :=
  match c.inodeCall with
  | some ⟨.create p mode, _⟩ => T.create p (isDir (mode.setWidth 16))
  | some ⟨.remove p, _⟩ => T.remove p
  | none => T

/-- The client keeps to the rules of the tree. -/
def Follows (T : PathTree Component) (c : FuseCall) : Prop :=
  match c.inodeCall with
  | some ⟨.create p _, _⟩ => p.parent ∈ T.dirs
  | some ⟨.remove p, _⟩ => T.CanRemove p
  | none => True

instance (T : PathTree Component) (c : FuseCall) : Decidable (Follows T c) := by
  unfold Follows
  split <;> infer_instance

namespace Table

variable {t : Table} {p q : AbsPath} {x : Nat} {e : Env} {mode : BitVec 32} {i parent f : Nat}

/-- The paths of the allocated inodes are those of the tree. -/
structure HasTree (t : Table) (T : PathTree Component) : Prop where
  paths : ∀ p : AbsPath, p ∈ T.paths ↔ ∃ x < t.count, t.Alloc x ∧ Spells t x p
  dirs : ∀ p : AbsPath, p ∈ T.dirs ↔ ∃ x < t.count, t.Alloc x ∧ Spells t x p ∧ isDir (t.inodes x).mode
  capacity : T.capacity = t.count

/-! ## Paths after a call -/

/-- A create changes no path of an allocated inode. -/
theorem InOrder.spells_created_of_alloc (ho : t.InOrder) (h : t.Inv) (hi : t.freeSlot = some i)
    (hparent : t.lookup p.parent = some parent) (hx : x < t.count) (ha : t.Alloc x) :
    Spells (t.created e p mode i parent) x q ↔ Spells t x q := by
  obtain ⟨_, _, hfree⟩ := freeSlot_spec hi
  induction q using List.reverseRecOn generalizing x with
  | nil => exact Iff.rfl
  | append_singleton q c ih =>
    have hxi : x ≠ i := fun heq => hfree (heq ▸ ha)
    rw [spells_concat, spells_concat, name_created, if_neg hxi, h.parentOf_created hparent, if_neg hxi,
      ih (h.parentOf_lt hx) (ho.parents x hx ha)]

/-- The new inode is at the path it was created for. -/
theorem InOrder.spells_created_self (ho : t.InOrder) (h : t.Inv) (hi : t.freeSlot = some i)
    (hparent : t.lookup p.parent = some parent) (hp : p ≠ []) (ha : t.Alloc parent)
    (hs : Spells t parent p.parent) : Spells (t.created e p mode i parent) i q ↔ q = p := by
  obtain ⟨h1, _, _⟩ := freeSlot_spec hi
  have hpar := (h.lookup_inumber hparent).1
  have hself : Spells (t.created e p mode i parent) i p := by
    obtain rfl | ⟨p', c, rfl⟩ := p.eq_nil_or_concat
    · exact absurd rfl hp
    rw [List.concat_eq_append] at hparent hs ⊢
    rw [AbsPath.parent_concat] at hs
    refine spells_concat.2 ⟨by omega, by rw [name_created, if_pos rfl, AbsPath.leaf_concat], ?_⟩
    rw [h.parentOf_created hparent, if_pos rfl, ho.spells_created_of_alloc h hi hparent hpar ha]
    exact hs
  refine ⟨fun hq => hq.unique hself, ?_⟩
  rintro rfl
  exact hself

theorem spells_removed (h : t.Inv) (hu : t.Used f) : Spells (t.removed f (t.parentOf f)) x q ↔ Spells t x q := by
  have hlast := h.lastFilledLast _ (h.parentOf_lt_size hu)
  induction q using List.reverseRecOn generalizing x with
  | nil => exact Iff.rfl
  | append_singleton q c ih =>
    rw [spells_concat, spells_concat, name_removed hlast, h.parentOf_removed hu]
    exact and_congr_right fun _ => and_congr_right fun _ => ih

namespace HasTree

variable {T : PathTree Component} (hT : t.HasTree T) (ho : t.InOrder) (h : t.Inv)

include hT ho

theorem lookup_of_mem (hp : p ∈ T.paths) : ∃ x < t.count, t.Alloc x ∧ Spells t x p ∧ t.lookup p = some x := by
  obtain ⟨x, hx, ha, hs⟩ := (hT.paths p).1 hp
  exact ⟨x, hx, ha, hs, ho.lookup_of_spells hx ha hs⟩

include h

/-- There are as many paths as allocated slots. -/
theorem card_paths : T.paths.card = {x ∈ Finset.range t.count | t.Alloc x}.card := by
  refine Finset.card_nbij (fun p => (t.lookup p).getD 0) (fun p hp => ?_) (fun p hp q hq heq => ?_) fun x hx => ?_
  · obtain ⟨x, hx, ha, _, hl⟩ := hT.lookup_of_mem ho hp
    simp only [hl, Option.getD_some, Finset.coe_filter, Finset.mem_range]
    exact ⟨hx, ha⟩
  · obtain ⟨x, _, _, hs, hl⟩ := hT.lookup_of_mem ho hp
    obtain ⟨y, _, _, hs', hl'⟩ := hT.lookup_of_mem ho hq
    simp only [hl, hl', Option.getD_some] at heq
    rw [heq] at hs
    exact hs.unique hs'
  · rw [Finset.mem_coe, Finset.mem_filter, Finset.mem_range] at hx
    obtain ⟨k, hroot⟩ := ho.reach x hx.1
    obtain ⟨p, _, hs⟩ := ho.exists_spells h hx.1 hx.2 hroot
    refine ⟨p, (hT.paths p).2 ⟨x, hx.1, hx.2, hs⟩, ?_⟩
    simp only [ho.lookup_of_spells hx.1 hx.2 hs, Option.getD_some]

/-- The tree is full when no slot is free. -/
theorem card_lt_iff : T.paths.card < T.capacity ↔ t.freeSlot ≠ none := by
  have hall : t.freeSlot = none ↔ {x ∈ Finset.range t.count | t.Alloc x} = Finset.range t.count := by
    rw [freeSlot_eq_none_iff, Finset.filter_eq_self]
    refine forall_congr' fun x => ?_
    rw [Finset.mem_range]
    refine ⟨fun hx hlt => ?_, fun hx _ => hx⟩
    by_cases h0 : x = 0
    · rw [h0]
      exact h.rootAlloc
    · exact hx (Nat.one_le_iff_ne_zero.2 h0) hlt
  have hle := Finset.card_filter_le (Finset.range t.count) fun x => t.Alloc x
  rw [Ne, hall, hT.card_paths ho h, hT.capacity]
  rw [Finset.card_range] at hle
  constructor
  · intro hlt heq
    rw [heq, Finset.card_range] at hlt
    exact Nat.lt_irrefl _ hlt
  · intro hne
    refine Nat.lt_of_le_of_ne hle fun heq => hne ?_
    exact Finset.eq_of_subset_of_card_le (Finset.filter_subset _ _) (by rw [heq, Finset.card_range])

omit h in
/-- A child of an inode at `p` is at `p` and its own name. -/
theorem mem_child (hp : p ∈ T.paths) {f : Nat} (hf : t.lookup p = some f) (hx : x < t.count) (h1 : 1 ≤ x)
    (ha : t.Alloc x) (hpar : t.parentOf x = f) : ∃ q ∈ T.paths, q.dropLast = p := by
  obtain ⟨y, _, _, hs, hl⟩ := hT.lookup_of_mem ho hp
  rw [hf] at hl
  cases hl
  obtain ⟨c, hc⟩ := ho.named x h1 hx ha
  refine ⟨p ++ [c], (hT.paths _).2 ⟨x, hx, ha, spells_child h1 hc (by rw [hpar]; exact hs)⟩, ?_⟩
  exact List.dropLast_concat

/-- Where the tree has room, a create adds its path. -/
theorem created (hi : t.freeSlot = some i) (hparent : t.lookup p.parent = some parent) (hnone : t.lookup p = none)
    (hcan : p.parent ∈ T.dirs) :
    (t.created e p mode i parent).HasTree (T.create p (isDir (mode.setWidth 16))) := by
  obtain ⟨_, hlt, hfree⟩ := freeSlot_spec hi
  have hp := ne_nil_of_lookup_eq_none hnone
  obtain ⟨y, hy, hya, hs, hdir⟩ := (hT.dirs p.parent).1 hcan
  have hsame := ho.lookup_of_spells hy hya hs
  rw [hparent] at hsame
  cases hsame
  have hnew : T.CanCreate p := by
    refine ⟨hcan, fun hmem => ?_⟩
    obtain ⟨_, _, _, _, hl⟩ := hT.lookup_of_mem ho hmem
    rw [hnone] at hl
    cases hl
  have hroom : T.paths.card < T.capacity := (hT.card_lt_iff ho h).2 (by rw [hi]; simp)
  have halloc : ∀ x, (t.created e p mode i parent).Alloc x ↔ x = i ∨ t.Alloc x := h.alloc_created hlt
  have hold : ∀ x < t.count, t.Alloc x → ∀ q : AbsPath, Spells (t.created e p mode i parent) x q ↔ Spells t x q :=
    fun x hx ha q => ho.spells_created_of_alloc h hi hparent hx ha
  have hself : ∀ q : AbsPath, Spells (t.created e p mode i parent) i q ↔ q = p :=
    fun q => ho.spells_created_self h hi hparent hp hya hs
  refine ⟨fun q => ?_, fun q => ?_, by rw [PathTree.capacity_create, hT.capacity, count_created]⟩
  · rw [PathTree.mem_create hnew hroom, hT.paths, count_created]
    constructor
    · rintro (rfl | ⟨x, hx, ha, hq⟩)
      · exact ⟨i, hlt, (halloc i).2 (.inl rfl), (hself _).2 rfl⟩
      · exact ⟨x, hx, (halloc x).2 (.inr ha), (hold x hx ha q).2 hq⟩
    · rintro ⟨x, hx, ha, hq⟩
      by_cases hxi : x = i
      · rw [hxi, hself] at hq
        exact .inl hq
      · have ha' := ((halloc x).1 ha).resolve_left hxi
        exact .inr ⟨x, hx, ha', (hold x hx ha' q).1 hq⟩
  · rw [PathTree.mem_dirs_create hnew hroom, hT.dirs, count_created]
    constructor
    · rintro (⟨rfl, hd⟩ | ⟨x, hx, ha, hq, hd⟩)
      · exact ⟨i, hlt, (halloc i).2 (.inl rfl), (hself _).2 rfl, by rw [mode_created, if_pos rfl]; exact hd⟩
      · have hxi : x ≠ i := fun heq => hfree (heq ▸ ha)
        exact ⟨x, hx, (halloc x).2 (.inr ha), (hold x hx ha q).2 hq, by rw [mode_created, if_neg hxi]; exact hd⟩
    · rintro ⟨x, hx, ha, hq, hd⟩
      rw [mode_created] at hd
      by_cases hxi : x = i
      · rw [if_pos hxi] at hd
        rw [hxi, hself] at hq
        exact .inl ⟨hq, hd⟩
      · rw [if_neg hxi] at hd
        have ha' := ((halloc x).1 ha).resolve_left hxi
        exact .inr ⟨x, hx, ha', (hold x hx ha' q).1 hq, hd⟩

/-- A remove takes its path out of the tree. -/
theorem removed {f : Nat} (hf : t.lookup p = some f) (hcan : T.CanRemove p) :
    (t.removed f (t.parentOf f)).HasTree (T.remove p) := by
  obtain ⟨_, hlt, hu⟩ := h.lookup_used hcan.2.1 hf
  have hlast := h.lastFilledLast _ (h.parentOf_lt_size hu)
  obtain ⟨y, _, _, hs, hl⟩ := hT.lookup_of_mem ho hcan.1
  rw [hf] at hl
  cases hl
  -- two inodes have two paths, and one inode has one
  have hother : ∀ x < t.count, t.Alloc x → ∀ q : AbsPath, Spells t x q → (q ≠ p ↔ x ≠ f) := by
    intro x hx ha q hq
    refine not_congr ⟨?_, ?_⟩
    · rintro rfl
      have hsame := ho.lookup_of_spells hx ha hq
      rw [hf] at hsame
      exact (Option.some.inj hsame).symm
    · rintro rfl
      exact hq.unique hs
  refine ⟨fun q => ?_, fun q => ?_, by rw [PathTree.capacity_remove, hT.capacity, count_removed]⟩
  · rw [PathTree.mem_remove hcan, hT.paths, count_removed]
    constructor
    · rintro ⟨hqp, x, hx, ha, hq⟩
      exact ⟨x, hx, (h.alloc_removed hlt x).2 ⟨(hother x hx ha q hq).1 hqp, ha⟩, (spells_removed h hu).2 hq⟩
    · rintro ⟨x, hx, ha, hq⟩
      obtain ⟨hxf, ha⟩ := (h.alloc_removed hlt x).1 ha
      rw [spells_removed h hu] at hq
      exact ⟨(hother x hx ha q hq).2 hxf, x, hx, ha, hq⟩
  · rw [PathTree.mem_dirs_remove hcan, hT.dirs, count_removed]
    constructor
    · rintro ⟨hqp, x, hx, ha, hq, hd⟩
      exact ⟨x, hx, (h.alloc_removed hlt x).2 ⟨(hother x hx ha q hq).1 hqp, ha⟩, (spells_removed h hu).2 hq,
        by rw [mode_removed hlast]; exact hd⟩
    · rintro ⟨x, hx, ha, hq, hd⟩
      obtain ⟨hxf, ha⟩ := (h.alloc_removed hlt x).1 ha
      rw [spells_removed h hu] at hq
      rw [mode_removed hlast] at hd
      exact ⟨(hother x hx ha q hq).2 hxf, x, hx, ha, hq, hd⟩

end HasTree

theorem Formatted.hasTree {t : Table} (h : t.Formatted) (h1 : 1 ≤ t.count) :
    t.HasTree (PathTree.fresh Component t.count h1) := by
  have hroot : ∀ x, t.Alloc x ↔ x = 0 := by
    intro x
    rw [Alloc, h.ibit]
    by_cases h0 : x = 0 <;> simp [h0]
  have hdir : isDir (t.inodes 0).mode = true := by
    rw [h.rootMode]
    decide
  have hspells : ∀ p : AbsPath, (∃ x < t.count, t.Alloc x ∧ Spells t x p) ↔ p = [] := by
    intro p
    constructor
    · rintro ⟨x, _, ha, hs⟩
      rw [(hroot x).1 ha] at hs
      exact hs.unique (q := []) rfl
    · rintro rfl
      exact ⟨0, h1, (hroot 0).2 rfl, rfl⟩
  refine ⟨fun p => ?_, fun p => ?_, rfl⟩
  · rw [hspells]
    exact Finset.mem_singleton
  · refine Finset.mem_singleton.trans ((hspells p).symm.trans ⟨?_, ?_⟩)
    · rintro ⟨x, hx, ha, hs⟩
      exact ⟨x, hx, ha, hs, by rw [(hroot x).1 ha, hdir]⟩
    · rintro ⟨x, hx, ha, hs, _⟩
      exact ⟨x, hx, ha, hs⟩

end Table

/-! ## Runs -/

/-- The table has the tree of the client. -/
structure Mirrors (s : Process) (T : PathTree Component) : Prop where
  inv : s.tbl.Inv
  inOrder : s.tbl.InOrder
  tree : s.tbl.HasTree T

section follows

variable {s : Process} {T : PathTree Component} {c : FuseCall} (h : Mirrors s T) (hf : Follows T c)

include h hf

/-- **A client that keeps to the rules of the tree is orderly.** -/
theorem Follows.orderly : Orderly s c := by
  constructor
  · intro p mode i parent ht
    have hdir : p.parent ∈ T.dirs := by
      rw [Follows, ht.1] at hf
      exact hf
    obtain ⟨x, hx, ha, hs, hd⟩ := (h.tree.dirs p.parent).1 hdir
    have hsame := h.inOrder.lookup_of_spells hx ha hs
    rw [ht.2.2] at hsame
    cases hsame
    exact ⟨ha, hd⟩
  · intro p f hfree x hx ha hpar
    have hcan : T.CanRemove p := by
      rw [Follows, hfree.1] at hf
      exact hf
    obtain ⟨hf1, _, _⟩ := h.inv.lookup_used hcan.2.1 hfree.2
    have h1 : 1 ≤ x := by
      by_contra h0
      rw [show x = 0 by omega, h.inv.parentOf_root] at hpar
      omega
    obtain ⟨q, hq, hchild⟩ := h.tree.mem_child h.inOrder hcan.1 hfree.2 hx h1 ha hpar
    exact hcan.2.2 q hq hchild

/-- **One call does to the tree what the client means.** -/
theorem Mirrors.fuseStep (hc : ResolvingAdmits s c) : Mirrors (fuseStep s c) (treeStep T c) := by
  refine ⟨fuseStep_inv h.inv hc.nonRoot, inOrder_fuseStep h.inv h.inOrder hc (hf.orderly h), ?_⟩
  rcases fuseStep_cases h.inv hc.nonRoot with ⟨p, mode, i, parent, ht, htbl⟩ | ⟨p, f, _, hfree, htbl⟩ | ⟨hnt, hnf, htbl⟩
  · have hdir : p.parent ∈ T.dirs := by
      rw [Follows, ht.1] at hf
      exact hf
    rw [htbl, treeStep, ht.1]
    exact h.tree.created h.inOrder h.inv ht.2.1 ht.2.2 (hc.lookup_of_takes ht) hdir
  · have hcan : T.CanRemove p := by
      rw [Follows, hfree.1] at hf
      exact hf
    rw [htbl, treeStep, hfree.1]
    exact h.tree.removed h.inOrder h.inv hfree.2 hcan
  · -- neither: no slot is free
    rw [htbl]
    have hsame : treeStep T c = T := by
      rw [treeStep]
      rw [Follows] at hf
      rcases c.inodeCall_cases with hno | ⟨p, mode, hcall⟩ | ⟨p, hcall, _⟩
      · rw [hno]
      · rw [hcall] at hf ⊢
        obtain ⟨parent, _, _, _, hparent⟩ := h.tree.lookup_of_mem h.inOrder (T.subset hf)
        refine PathTree.create_of_full (Nat.le_antisymm T.fits (Nat.not_lt.1 fun hlt => ?_))
        obtain ⟨i, hi⟩ := Option.ne_none_iff_exists'.1 ((h.tree.card_lt_iff h.inOrder h.inv).1 hlt)
        exact hnt p mode i parent ⟨hcall, hi, hparent⟩
      · rw [hcall] at hf
        obtain ⟨x, _, _, _, hx⟩ := h.tree.lookup_of_mem h.inOrder hf.1
        exact absurd ⟨hcall, hx⟩ (hnf p x)
    rw [hsame]
    exact h.tree

end follows

/-- The tree of a file system that was just formatted. -/
def freshTree {s : Process} (hs : s.JustFormatted) : PathTree Component :=
  PathTree.fresh Component s.tbl.count (Nat.le_of_succ_le hs.two_le)

theorem Mirrors.fresh {s : Process} (hs : s.JustFormatted) : Mirrors s (freshTree hs) :=
  ⟨hs.inv, hs.tbl.inOrder hs.le_size, hs.tbl.hasTree (Nat.le_of_succ_le hs.two_le)⟩

/-- **For a client that keeps to its rules the file system is a tree of paths**: the paths of the allocated
inodes are those of the tree, and each resolves to its inode. A walk over listings comes to all of them, when
in addition no directory fills up and removes take the last entry. -/
theorem pathTree_run {s : Process} (hs : s.JustFormatted) {cs : List FuseCall}
    (hcs : EachStep fuseStep ResolvingAdmits s cs) (hfollows : EachStep treeStep Follows (freshTree hs) cs) :
    let t := (exec fuseStep s cs).tbl
    let T := exec treeStep (freshTree hs) cs
    (∀ p : AbsPath, p ∈ T.paths ↔ ∃ x < t.count, t.Alloc x ∧ Spells t x p) ∧
    (∀ p ∈ T.paths, ∃ x < t.count, t.Alloc x ∧ t.lookup p = some x ∧ (p ∈ T.dirs ↔ isDir (t.inodes x).mode)) ∧
    (EachStep fuseStep KeepsListable s cs → ∀ p : AbsPath, p ∈ T.paths ↔ ∃ x, Walk t p x) := by
  intro t T
  have hstep : ∀ s T c, Mirrors s T → ResolvingAdmits s c → Follows T c → Mirrors (fuseStep s c) (treeStep T c) :=
    fun _ _ _ h hc hf => h.fuseStep hf hc
  have hend : Mirrors (exec fuseStep s cs) T := exec_rel hstep (Mirrors.fresh hs) hcs hfollows
  have hord : EachStep fuseStep Orderly s cs :=
    EachStep.of_rel hstep (fun _ _ _ h _ hf => hf.orderly h) (Mirrors.fresh hs) hcs hfollows
  refine ⟨hend.tree.paths, fun p hp => ?_, fun hkeep p => ?_⟩
  · obtain ⟨x, hx, ha, hsp, hl⟩ := hend.tree.lookup_of_mem hend.inOrder hp
    refine ⟨x, hx, ha, hl, (hend.tree.dirs p).trans ⟨?_, fun hd => ⟨x, hx, ha, hsp, hd⟩⟩⟩
    rintro ⟨y, hy, hya, hys, hd⟩
    have hsame := hend.inOrder.lookup_of_spells hy hya hys
    rw [hl] at hsame
    cases hsame
    exact hd
  · rw [hend.tree.paths]
    obtain ⟨hroom, hpacked, hl⟩ := listable_run hs hcs hord hkeep
    refine exists_congr fun x => ⟨fun ⟨hx, ha, hsp⟩ => ?_, fun hw => hend.inOrder.walk_sound hend.inv hw⟩
    exact hend.inOrder.walk_complete hend.inv hroom hpacked hl hx ha hsp

theorem tidyRun_follows : EachStep treeStep Follows (freshTree justFormatted_three) tidyRun := by
  have hthree : ∀ n (h1 : 1 ≤ n), n = 3 → EachStep treeStep Follows (PathTree.fresh Component n h1) tidyRun := by
    rintro n h1 rfl
    have hrun : EachStep treeStep Follows (PathTree.fresh Component 3 (by decide)) tidyRun := by decide +kernel
    exact hrun
  exact hthree _ _ (by rw [count_formatted, formatCount_three])

theorem pathTree_run_tidyRun :
    let t := (exec fuseStep (formatted 200000) tidyRun).tbl
    let T := exec treeStep (freshTree justFormatted_three) tidyRun
    (∀ p : AbsPath, p ∈ T.paths ↔ ∃ x < t.count, t.Alloc x ∧ Spells t x p) ∧
    (∀ p ∈ T.paths, ∃ x < t.count, t.Alloc x ∧ t.lookup p = some x ∧ (p ∈ T.dirs ↔ isDir (t.inodes x).mode)) ∧
    ∀ p : AbsPath, p ∈ T.paths ↔ ∃ x, Walk t p x := by
  obtain ⟨hpaths, hresolve, hwalk⟩ := pathTree_run justFormatted_three tidyRun_admits tidyRun_follows
  exact ⟨hpaths, hresolve, hwalk tidyRun_keepsListable⟩

end Sfs
