import SimpelDateisystem.Ancestry
import SimpelDateisystem.Orphans
import SimpelDateisystem.ReaddirBounds
import SimpelDateisystem.Tree
import SimpelDateisystem.UniqueNames

/-!
# Walking the tree from outside

`readdir` goes down the `dirContents`, the lookup compares two names, and the tree is in `parent_inumber`:
three records of one hierarchy that nothing keeps together. They do agree when the client is `Orderly`, that
is when it creates in directories that are there and removes nothing that still has children.

* `orderly_paths` — each allocated inode has one path, and the path resolves to it;
* `walk_iff_spells` — who lists a directory, looks up what is listed, and goes on from there, comes to
  nothing but allocated inodes at their own paths; and to all of them, when in addition no directory fills up
  and removes take the last entry.
-/

namespace Sfs

open Trace CString ParentChain

/-- A create is in an allocated directory; a remove frees a slot that no allocated inode has as parent. -/
def Orderly (s : Process) (c : FuseCall) : Prop :=
  (∀ p mode i parent, c.Takes s.tbl p mode i parent →
    s.tbl.Alloc parent ∧ isDir (s.tbl.inodes parent).mode) ∧
  ∀ p f, c.Frees s.tbl p f → ∀ x < s.tbl.count, s.tbl.Alloc x → s.tbl.parentOf x ≠ f

section orderly

variable {s : Process} {c : FuseCall} {p : AbsPath}

theorem FuseCall.Takes.orderly_iff {mode : BitVec 32} {i parent : Nat} (ht : c.Takes s.tbl p mode i parent) :
    Orderly s c ↔ s.tbl.Alloc parent ∧ isDir (s.tbl.inodes parent).mode := by
  refine ⟨fun hord => hord.1 p mode i parent ht, fun hpar => ⟨fun q m j d ht' => ?_, fun q f hf => ?_⟩⟩
  · obtain ⟨rfl, rfl, rfl, rfl⟩ := ht.inj ht'
    exact hpar
  · exact absurd hf ht.not_frees

theorem FuseCall.Frees.orderly_iff {f : Nat} (hf : c.Frees s.tbl p f) :
    Orderly s c ↔ ∀ x < s.tbl.count, s.tbl.Alloc x → s.tbl.parentOf x ≠ f := by
  refine ⟨fun hord => hord.2 p f hf, fun hno => ⟨fun q m i parent ht => ?_, fun q g hg => ?_⟩⟩
  · exact absurd hf ht.not_frees
  · obtain ⟨rfl, rfl⟩ := hf.inj hg
    exact hno

end orderly

/-- What a client comes to that lists directories and looks up the names listed. -/
inductive Walk (t : Table) : AbsPath → Nat → Prop
  | root : Walk t [] 0
  | down {p : AbsPath} {d x : Nat} {c : Component} {names : List CStr} (walk : Walk t p d)
      (dir : isDir (t.inodes d).mode) (list : sfsReaddir p.str t = .done 0 (dots ++ names)) (listed : c.bytes ∈ names)
      (lookup : t.lookup (p ++ [c]) = some x) : Walk t (p ++ [c]) x

namespace Table

/-- The names of an allocated inode are its own and its parent's, its parent is an allocated directory, and
its links lead to the root. -/
structure InOrder (t : Table) : Prop where
  named : ∀ x, 1 ≤ x → x < t.count → t.Alloc x → ∃ c : Component, (t.inodes x).name = c.bytes
  dir : ∀ x, 1 ≤ x → x < t.count → t.Alloc x →
    (t.inodes x).dir = if t.parentOf x = 0 then [slash] else (t.inodes (t.parentOf x)).name
  isDir : ∀ x, 1 ≤ x → x < t.count → t.Alloc x → isDir (t.inodes (t.parentOf x)).mode
  distinct : t.DistinctNames
  parents : t.ParentsAlloc
  reach : t.AllReach

variable {t : Table} {p : AbsPath} {x d : Nat}

theorem Formatted.inOrder {t : Table} (h : t.Formatted) (hsize : t.count ≤ TABLE_SIZE) : t.InOrder where
  named := (h.grown hsize).named
  dir := (h.grown hsize).dir
  isDir x h1 _ ha := by
    rw [Alloc, h.ibit, if_neg (by omega)] at ha
    exact absurd ha (by decide)
  distinct := h.distinctNames hsize
  parents := h.parentsAlloc
  reach := h.allReach hsize

/-! ## Paths -/

namespace InOrder

variable (ho : t.InOrder) (h : t.Inv)

include ho h

/-- The links of an allocated inode spell a path. -/
theorem exists_spells {k : Nat} (hx : x < t.count) (ha : t.Alloc x) (hk : t.parentOf^[k] x = 0) :
    ∃ p : AbsPath, p.length ≤ k ∧ Spells t x p := by
  induction k generalizing x with
  | zero => exact ⟨[], Nat.le_refl 0, hk⟩
  | succ k ih =>
    by_cases h0 : x = 0
    · exact ⟨[], Nat.zero_le _, h0⟩
    · obtain ⟨c, hc⟩ := ho.named x (Nat.one_le_iff_ne_zero.2 h0) hx ha
      obtain ⟨p, hlen, hp⟩ := ih (h.parentOf_lt hx) (ho.parents x hx ha) (by rwa [Function.iterate_succ_apply] at hk)
      exact ⟨p ++ [c], by simpa using hlen, spells_concat.2 ⟨h0, hc, hp⟩⟩

omit h in
theorem carries_of_spells (hp : p ≠ []) (hx : x < t.count) (ha : t.Alloc x) (hs : Spells t x p) :
    t.Carries x p := by
  obtain rfl | ⟨q, c, rfl⟩ := p.eq_nil_or_concat
  · exact absurd rfl hp
  rw [List.concat_eq_append] at hs ⊢
  rw [spells_concat] at hs
  obtain ⟨h0, hname, hq⟩ := hs
  refine ⟨by rw [AbsPath.leaf_concat, hname], ?_⟩
  rw [ho.dir x (Nat.one_le_iff_ne_zero.2 h0) hx ha]
  obtain rfl | ⟨q, b, rfl⟩ := q.eq_nil_or_concat
  · rw [if_pos (spells_nil.1 hq)]
    exact (AbsPath.parentName_top c).symm
  · rw [List.concat_eq_append] at hq ⊢
    rw [spells_concat] at hq
    rw [if_neg hq.1, AbsPath.parentName_concat, hq.2.1]

omit h in
/-- **The path resolves to the inode.** -/
theorem lookup_of_spells (hx : x < t.count) (ha : t.Alloc x) (hs : Spells t x p) : t.lookup p = some x := by
  by_cases hp : p = []
  · rw [hp, lookup_nil]
    rw [hp, spells_nil] at hs
    rw [hs]
  · exact ho.distinct.uniquelyNamed.only p hp x hx (matchesPath_iff.2 (ho.carries_of_spells hp hx ha hs))

/-- The parent of an allocated inode is no free slot, nor is any of its ancestors. -/
theorem not_onChain {i parent : Nat} (hpar : parent < t.count) (ha : t.Alloc parent) (hfree : ¬ t.Alloc i) :
    ¬ OnChain t.parentOf i parent := by
  rintro ⟨k, hk⟩
  have hchain : t.parentOf^[k] parent < t.count ∧ t.Alloc (t.parentOf^[k] parent) := by
    clear hk
    induction k with
    | zero => exact ⟨hpar, ha⟩
    | succ k ih =>
      rw [Function.iterate_succ_apply']
      exact ⟨h.parentOf_lt ih.1, ho.parents _ ih.1 ih.2⟩
  exact hfree (hk ▸ hchain.2)

end InOrder

/-! ## Calls -/

section created

variable {e : Env} {mode : BitVec 32} {i parent f : Nat}

theorem InOrder.created (ho : t.InOrder) (h : t.Inv) (hi : t.freeSlot = some i)
    (hparent : t.lookup p.parent = some parent) (hnone : t.lookup p = none) (ha : t.Alloc parent)
    (hdir : Sfs.isDir (t.inodes parent).mode) : (t.created e p mode i parent).InOrder := by
  obtain ⟨hi1, hlt, hfree⟩ := freeSlot_spec hi
  have halloc : ∀ y, (t.created e p mode i parent).Alloc y ↔ y = i ∨ t.Alloc y := h.alloc_created hlt
  have hne : parent ≠ i := fun heq => hfree (heq ▸ ha)
  -- the slot taken was free, so no allocated inode had it as parent
  have hold : ∀ y < t.count, t.Alloc y → t.parentOf y ≠ i := fun y hy hya heq => hfree (heq ▸ ho.parents y hy hya)
  constructor
  case named =>
    intro y h1 hy hya
    rw [count_created] at hy
    rw [name_created]
    by_cases hyi : y = i
    · obtain rfl | ⟨q, c, rfl⟩ := p.eq_nil_or_concat
      · exact absurd rfl (ne_nil_of_lookup_eq_none hnone)
      · exact ⟨c, by rw [if_pos hyi, List.concat_eq_append, AbsPath.leaf_concat]⟩
    · rw [if_neg hyi]
      exact ho.named y h1 hy (((halloc y).1 hya).resolve_left hyi)
  case dir =>
    intro y h1 hy hya
    rw [count_created] at hy
    rw [dir_created, h.parentOf_created hparent]
    by_cases hyi : y = i
    · rw [if_pos hyi, if_pos hyi, name_created, if_neg hne]
      rcases p.parentName_cases with ⟨htop, hname⟩ | ⟨htop, hname⟩
      · rw [htop, lookup_nil] at hparent
        cases hparent
        rw [if_pos rfl, hname]
      · obtain ⟨hpos, _, _⟩ := h.lookup_used htop hparent
        rw [if_neg (by omega), hname, (carries_of_lookup htop hparent).2.1]
    · have hya' := ((halloc y).1 hya).resolve_left hyi
      rw [if_neg hyi, if_neg hyi, name_created, if_neg (hold y hy hya'), ho.dir y h1 hy hya']
  case isDir =>
    intro y h1 hy hya
    rw [count_created] at hy
    rw [h.parentOf_created hparent, mode_created]
    by_cases hyi : y = i
    · rw [if_pos hyi, if_neg hne]
      exact hdir
    · have hya' := ((halloc y).1 hya).resolve_left hyi
      rw [if_neg hyi, if_neg (hold y hy hya')]
      exact ho.isDir y h1 hy hya'
  case distinct => exact distinctNames_created hnone ho.distinct
  case parents => exact (parentsAlloc_created_iff h hi hparent ho.parents).2 (.inl ha)
  case reach =>
    exact allReach_created h hparent (ho.not_onChain h (h.lookup_inumber hparent).1 ha hfree) ho.reach

theorem InOrder.removed (ho : t.InOrder) (h : t.Inv) (hf : f < t.count) (hu : t.Used f)
    (hno : ∀ x < t.count, t.Alloc x → t.parentOf x ≠ f) : (t.removed f (t.parentOf f)).InOrder := by
  have hlast := h.lastFilledLast _ (h.parentOf_lt_size hu)
  have halloc : ∀ y, (t.removed f (t.parentOf f)).Alloc y → t.Alloc y := fun y hy => ((h.alloc_removed hf y).1 hy).2
  constructor
  case named =>
    intro y h1 hy hya
    rw [count_removed] at hy
    rw [name_removed hlast]
    exact ho.named y h1 hy (halloc y hya)
  case dir =>
    intro y h1 hy hya
    rw [count_removed] at hy
    rw [dir_removed hlast, h.parentOf_removed hu, name_removed hlast]
    exact ho.dir y h1 hy (halloc y hya)
  case isDir =>
    intro y h1 hy hya
    rw [count_removed] at hy
    rw [h.parentOf_removed hu, mode_removed hlast]
    exact ho.isDir y h1 hy (halloc y hya)
  case distinct => exact distinctNames_removed hlast ho.distinct
  case parents =>
    exact (parentsAlloc_removed_iff h hf hu ho.parents).2 fun x hx hxa heq => absurd heq (hno x hx hxa)
  case reach => exact allReach_removed h hu ho.reach

end created

end Table

/-- **One orderly call.** -/
theorem inOrder_fuseStep {s : Process} {c : FuseCall} (h : s.tbl.Inv) (ho : s.tbl.InOrder) (hc : ResolvingAdmits s c)
    (hord : Orderly s c) : (fuseStep s c).tbl.InOrder := by
  rcases fuseStep_cases h hc.nonRoot with ⟨p, mode, i, parent, ht, htbl⟩ | ⟨p, f, hp, hf, htbl⟩ | ⟨_, _, htbl⟩
  · obtain ⟨ha, hdir⟩ := hord.1 p mode i parent ht
    rw [htbl]
    exact ho.created h ht.2.1 ht.2.2 (hc.lookup_of_takes ht) ha hdir
  · obtain ⟨_, hlt, hu⟩ := h.lookup_used hp hf.2
    rw [htbl]
    exact ho.removed h hlt hu (hord.2 p f hf)
  · rwa [htbl]

theorem inOrder_run {s : Process} (hs : s.JustFormatted) {cs : List FuseCall}
    (hcs : EachStep fuseStep ResolvingAdmits s cs) (hord : EachStep fuseStep Orderly s cs) :
    (exec fuseStep s cs).tbl.Inv ∧ (exec fuseStep s cs).tbl.InOrder := by
  have hstep : ∀ s c, s.tbl.Inv ∧ s.tbl.InOrder → ResolvingAdmits s c ∧ Orderly s c →
      (fuseStep s c).tbl.Inv ∧ (fuseStep s c).tbl.InOrder :=
    fun s c h hc => ⟨fuseStep_inv h.1 hc.1.nonRoot, inOrder_fuseStep h.1 h.2 hc.1 hc.2⟩
  exact EachStep.invariant hstep ⟨hs.inv, hs.tbl.inOrder hs.le_size⟩ (hcs.and hord)

/-- **Each allocated inode has one path, shorter than there are slots, and the path resolves to it.** -/
theorem orderly_paths {s : Process} (hs : s.JustFormatted) {cs : List FuseCall}
    (hcs : EachStep fuseStep ResolvingAdmits s cs) (hord : EachStep fuseStep Orderly s cs) :
    let t := (exec fuseStep s cs).tbl
    ∀ x < t.count, t.Alloc x → ∃ p : AbsPath, p.length < t.count ∧ t.lookup p = some x ∧
      ∀ q, Spells t x q ↔ q = p := by
  intro t x hx ha
  obtain ⟨h, ho⟩ : t.Inv ∧ t.InOrder := inOrder_run hs hcs hord
  obtain ⟨k, hk, hroot⟩ := (ho.reach x hx).exists_lt (fun y => h.parentOf_lt) hx
  obtain ⟨p, hlen, hp⟩ := ho.exists_spells h hx ha hroot
  refine ⟨p, by omega, ho.lookup_of_spells hx ha hp, fun q => ⟨fun hq => hq.unique hp, ?_⟩⟩
  rintro rfl
  exact hp

/-- A directory `/a` with a file `/a/b`, which is removed again. -/
def tidyRun : List FuseCall :=
  [⟨.mkdir [.a] 493, ⟨1000, 1000, 0⟩⟩,
   ⟨.create [.a, .b] 0o644, ⟨1000, 1000, 0⟩⟩,
   ⟨.unlink [.a, .b], ⟨1000, 1000, 0⟩⟩]

theorem tidyRun_admits : EachStep fuseStep ResolvingAdmits (formatted 200000) tidyRun := by decide +kernel

theorem tidyRun_takes :
    FuseCall.Takes (formatted 200000).tbl ⟨.mkdir [.a] 493, ⟨1000, 1000, 0⟩⟩ [.a] S_IFDIR 1 0 ∧
    FuseCall.Takes (exec fuseStep (formatted 200000) (tidyRun.take 1)).tbl
      ⟨.create [.a, .b] 0o644, ⟨1000, 1000, 0⟩⟩ [.a, .b] 0o644 2 1 ∧
    FuseCall.Frees (exec fuseStep (formatted 200000) (tidyRun.take 2)).tbl
      ⟨.unlink [.a, .b], ⟨1000, 1000, 0⟩⟩ [.a, .b] 2 :=
  ⟨⟨rfl, by decide +kernel, by decide +kernel⟩, ⟨rfl, by decide +kernel, by decide +kernel⟩, ⟨rfl, by decide +kernel⟩⟩

theorem tidyRun_orderly : EachStep fuseStep Orderly (formatted 200000) tidyRun := by
  obtain ⟨htop, hbelow, hfree⟩ := tidyRun_takes
  exact ⟨htop.orderly_iff.2 (by decide +kernel), hbelow.orderly_iff.2 (by decide +kernel),
    hfree.orderly_iff.2 (by decide +kernel), trivial⟩

theorem orderly_paths_tidyRun :
    let t := (exec fuseStep (formatted 200000) tidyRun).tbl
    ∀ x < t.count, t.Alloc x → ∃ p : AbsPath, p.length < t.count ∧ t.lookup p = some x ∧
      ∀ q, Spells t x q ↔ q = p :=
  orderly_paths justFormatted_three tidyRun_admits tidyRun_orderly

/-! ## The walk -/

namespace Table

variable {t : Table} {p : AbsPath} {x d : Nat}

/-- A listing that ends has the slots up to the first free position. -/
theorem readdir_eq (h : t.Inv) (hp : t.lookup p = some d) (hroom : (t.inodes d).HasRoom) :
    ∃ m < MAX_FILES_IN_DIR, ¬ (t.inodes d).Occupied m ∧ (∀ k < m, (t.inodes d).Occupied k) ∧
      sfsReaddir p.str t = .done 0 (dots ++ (t.firstSlots d m).map fun x => (t.inodes x).name) := by
  have hd : d < TABLE_SIZE := Nat.lt_of_lt_of_le (h.lookup_inumber hp).1 h.le_size
  have hfind : findFileOrDir t p.str = some d := hp
  obtain ⟨m, hm, hfree, hocc⟩ : ∃ m < MAX_FILES_IN_DIR, ¬ (t.inodes d).Occupied m ∧
      ∀ k < m, (t.inodes d).Occupied k := by
    classical
    obtain ⟨hk, hfree⟩ := Nat.find_spec hroom
    exact ⟨Nat.find hroom, hk, hfree, fun j hj => not_not.1 fun hno => Nat.find_min hroom hj ⟨by omega, hno⟩⟩
  refine ⟨m, hm, hfree, hocc, ?_⟩
  rw [← map_nameAt_firstSlots h hd (by omega) hocc]
  simp only [sfsReaddir, hfind]
  exact readdirLoop_of_free t _ _ 0 m _ (Nat.zero_le m) (by omega) (fun k _ hk => hocc k hk) hfree

/-- **Every name listed is that of an allocated inode with the directory as parent.** -/
theorem mem_listing {names : List CStr} {n : CStr} (h : t.Inv) (hp : t.lookup p = some d)
    (hlist : sfsReaddir p.str t = .done 0 (dots ++ names)) (hn : n ∈ names) :
    ∃ x, 1 ≤ x ∧ x < t.count ∧ t.Alloc x ∧ t.parentOf x = d ∧ (t.inodes x).name = n := by
  have hd : d < TABLE_SIZE := Nat.lt_of_lt_of_le (h.lookup_inumber hp).1 h.le_size
  obtain ⟨m, hm, _, hocc, heq⟩ := readdir_eq h hp ((isDone_iff_hasRoom hp).1 ⟨0, _, hlist⟩)
  rw [hlist] at heq
  simp only [Listing.done.injEq, true_and, List.append_cancel_left_eq] at heq
  rw [heq] at hn
  obtain ⟨x, hx, hname⟩ := List.mem_map.1 hn
  obtain ⟨k, hk, hentry⟩ := (mem_firstSlots_iff h hd (by omega) hocc).1 hx
  obtain ⟨h1, hlt, ha, hpar⟩ := h.linked_spec hd ⟨k, by omega, hentry⟩
  exact ⟨x, h1, hlt, ha, hpar, hname⟩

/-- The child of an inode at `p` is at `p` and its own name. -/
theorem spells_child {c : Component} (h1 : 1 ≤ x) (hname : (t.inodes x).name = c.bytes)
    (hp : Spells t (t.parentOf x) p) : Spells t x (p ++ [c]) :=
  spells_concat.2 ⟨by omega, hname, hp⟩

/-- **A walk does not go astray.** -/
theorem InOrder.walk_sound (ho : t.InOrder) (h : t.Inv) (hw : Walk t p x) :
    x < t.count ∧ t.Alloc x ∧ Spells t x p := by
  have h2 := h.two_le
  induction hw with
  | root => exact ⟨by omega, h.rootAlloc, rfl⟩
  | down _ _ list listed lookup ih =>
    obtain ⟨hd, ha, hs⟩ := ih
    obtain ⟨y, h1, hy, hya, rfl, hname⟩ := mem_listing h (ho.lookup_of_spells hd ha hs) list listed
    have hspells := spells_child h1 hname hs
    have hsame := ho.lookup_of_spells hy hya hspells
    rw [lookup] at hsame
    cases hsame
    exact ⟨hy, hya, hspells⟩

/-- **A walk comes to every allocated inode**, if no directory is full and all entries are in place. -/
theorem InOrder.walk_complete (ho : t.InOrder) (h : t.Inv) (hroom : t.AllHaveRoom) (hpacked : t.AllPacked)
    (hl : AllLinked t) (hx : x < t.count) (ha : t.Alloc x) (hs : Spells t x p) : Walk t p x := by
  induction p using List.reverseRecOn generalizing x with
  | nil =>
    rw [spells_nil] at hs
    rw [hs]
    exact .root
  | append_singleton p c ih =>
    have hlookup := ho.lookup_of_spells hx ha hs
    rw [spells_concat] at hs
    obtain ⟨h0, hname, hs⟩ := hs
    have hsize := h.le_size
    have hparlt := h.parentOf_lt hx
    have hpara := ho.parents x hx ha
    have hdir := ho.isDir x (by omega) hx ha
    have hparent := ho.lookup_of_spells hparlt hpara hs
    obtain ⟨m, hm, hfree, hocc, hlist⟩ := readdir_eq h hparent (hroom _ (by omega) hdir)
    refine .down (ih hparlt hpara hs) hdir hlist (List.mem_map.2 ⟨x, ?_, hname⟩) hlookup
    -- the entries are all before the first free position
    obtain ⟨k, hk, hentry⟩ := hl x (by omega) hx ha
    refine (mem_firstSlots_iff h (by omega) (by omega) hocc).2 ⟨k, ?_, hentry⟩
    by_contra hge
    have hkocc : (t.inodes (t.parentOf x)).Occupied k := by rw [FileControlBlock.Occupied, hentry]; simp
    rcases Nat.lt_or_eq_of_le (Nat.not_lt.1 hge) with hlt | heq
    · exact hfree (hpacked _ (by omega) k hk hkocc m hlt)
    · exact hfree (heq ▸ hkocc)

end Table

/-- A create in a directory with two free positions, a remove of the last entry. -/
def KeepsListable (s : Process) (c : FuseCall) : Prop := LeavesRoom s c ∧ RemovesLast s c

section keepsListable

variable {s : Process} {c : FuseCall} {p : AbsPath}

theorem FuseCall.Takes.keepsListable_iff {mode : BitVec 32} {i parent : Nat} (ht : c.Takes s.tbl p mode i parent) :
    KeepsListable s c ↔ (isDir (if parent = i then mode.setWidth 16 else (s.tbl.inodes parent).mode) →
      (s.tbl.inodes parent).HasSpare) ∧ (isDir (mode.setWidth 16) → (s.tbl.inodes i).HasRoom) := by
  refine ⟨fun hkeep => hkeep.1 p mode i parent ht, fun hroom => ⟨fun q m j d ht' => ?_, fun q f hf => ?_⟩⟩
  · obtain ⟨rfl, rfl, rfl, rfl⟩ := ht.inj ht'
    exact hroom
  · exact absurd hf ht.not_frees

theorem FuseCall.Frees.keepsListable_iff {f : Nat} (hf : c.Frees s.tbl p f) : KeepsListable s c ↔
    ∀ j < MAX_FILES_IN_DIR, (s.tbl.inodes (s.tbl.parentOf f)).entry j = .inode f →
      (∀ k < MAX_FILES_IN_DIR, j < k → ¬ (s.tbl.inodes (s.tbl.parentOf f)).Occupied k) ∨
        ¬ (s.tbl.inodes (s.tbl.parentOf f)).HasRoom := by
  refine ⟨fun hkeep => hkeep.2 p f hf, fun hlast => ⟨fun q m i parent ht => ?_, fun q g hg => ?_⟩⟩
  · exact absurd hf ht.not_frees
  · obtain ⟨rfl, rfl⟩ := hf.inj hg
    exact hlast

end keepsListable

/-- An orderly create that leaves room has room. -/
theorem KeepsListable.parentHasRoom {s : Process} {c : FuseCall} (h : KeepsListable s c) (hord : Orderly s c) :
    ParentHasRoom s c := by
  intro p mode i parent ht
  obtain ⟨ha, hdir⟩ := hord.1 p mode i parent ht
  have hne : parent ≠ i := fun heq => (Table.freeSlot_spec ht.2.1).2.2 (heq ▸ ha)
  obtain ⟨k, hk, j, hj, hjfree, _⟩ := (h.1 p mode i parent ht).1 (by rwa [if_neg hne])
  exact ⟨j, by omega, hjfree⟩

/-- Where no directory fills up and removes take the last entry, listings are complete. -/
theorem listable_run {s : Process} (hs : s.JustFormatted) {cs : List FuseCall}
    (hcs : EachStep fuseStep ResolvingAdmits s cs) (hord : EachStep fuseStep Orderly s cs)
    (hkeep : EachStep fuseStep KeepsListable s cs) :
    (exec fuseStep s cs).tbl.AllHaveRoom ∧ (exec fuseStep s cs).tbl.AllPacked ∧ AllLinked (exec fuseStep s cs).tbl := by
  have hstep : ∀ s c, s.tbl.Inv ∧ s.tbl.AllHaveRoom ∧ s.tbl.AllPacked ∧ AllLinked s.tbl →
      (ResolvingAdmits s c ∧ Orderly s c) ∧ KeepsListable s c →
      (fuseStep s c).tbl.Inv ∧ (fuseStep s c).tbl.AllHaveRoom ∧ (fuseStep s c).tbl.AllPacked ∧
        AllLinked (fuseStep s c).tbl := by
    intro s c ⟨h, hroom, hpacked, hl⟩ ⟨⟨hc, hord⟩, hkeep⟩
    exact ⟨fuseStep_inv h hc.nonRoot, allHaveRoom_fuseStep h hc.nonRoot hkeep.1 hroom,
      allPacked_fuseStep h hc.nonRoot hkeep.2 hpacked, allLinked_fuseStep h hc.nonRoot (hkeep.parentHasRoom hord) hl⟩
  exact (EachStep.invariant hstep ⟨hs.inv, hs.tbl.allHaveRoom, hs.tbl.allPacked, hs.tbl.allLinked⟩
    ((hcs.and hord).and hkeep)).2

/-- **Who walks the tree comes to nothing but allocated inodes, each at its own path.** Where no directory
fills up and removes take the last entry, he comes to all of them. -/
theorem walk_iff_spells {s : Process} (hs : s.JustFormatted) {cs : List FuseCall}
    (hcs : EachStep fuseStep ResolvingAdmits s cs) (hord : EachStep fuseStep Orderly s cs) :
    let t := (exec fuseStep s cs).tbl
    (∀ p x, Walk t p x → x < t.count ∧ t.Alloc x ∧ Spells t x p) ∧
    (EachStep fuseStep KeepsListable s cs → ∀ p x, Walk t p x ↔ x < t.count ∧ t.Alloc x ∧ Spells t x p) := by
  intro t
  obtain ⟨h, ho⟩ : t.Inv ∧ t.InOrder := inOrder_run hs hcs hord
  refine ⟨fun p x hw => ho.walk_sound h hw, fun hkeep p x => ⟨fun hw => ho.walk_sound h hw, ?_⟩⟩
  obtain ⟨hroom, hpacked, hl⟩ := listable_run hs hcs hord hkeep
  exact fun ⟨hx, ha, hsp⟩ => ho.walk_complete h hroom hpacked hl hx ha hsp

theorem tidyRun_keepsListable : EachStep fuseStep KeepsListable (formatted 200000) tidyRun := by
  obtain ⟨htop, hbelow, hfree⟩ := tidyRun_takes
  refine ⟨htop.keepsListable_iff.2 (by decide +kernel), hbelow.keepsListable_iff.2 (by decide +kernel),
    hfree.keepsListable_iff.2 ?_, trivial⟩
  decide +kernel

theorem walk_iff_spells_tidyRun :
    let t := (exec fuseStep (formatted 200000) tidyRun).tbl
    (∀ p x, Walk t p x → x < t.count ∧ t.Alloc x ∧ Spells t x p) ∧
    ∀ p x, Walk t p x ↔ x < t.count ∧ t.Alloc x ∧ Spells t x p := by
  obtain ⟨hsound, hall⟩ := walk_iff_spells justFormatted_three tidyRun_admits tidyRun_orderly
  exact ⟨hsound, hall tidyRun_keepsListable⟩

end Sfs
