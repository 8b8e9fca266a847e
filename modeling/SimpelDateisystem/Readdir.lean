import SimpelDateisystem.Linked
import Mathlib.Data.List.Nodup
import Mathlib.Data.List.Perm.Subperm

/-!
# Is a directory listing exact?

`sfs_readdir` stops at the first `NULL`, so it lists a directory iff the entries are `Packed` and
complete. A create fills the first gap. A remove means to move the last entry into the gap it makes,
but moves position 29 (see `Direntry`): the entries stay packed iff the dropped one was the last or
the array was full. `listingExact_iff` settles one listing in any state reached, `readdirExact_run`
all listings along a run.
-/

namespace Sfs

open CString Trace

/-- The entries are at the front of the array. -/
def FileControlBlock.Packed (f : FileControlBlock Ptr) : Prop :=
  ∀ k < MAX_FILES_IN_DIR, f.Occupied k → ∀ j < k, f.Occupied j

namespace Table

/-- The allocated inodes whose `parent_inumber` is `d`. -/
def children (t : Table) (d : Nat) : List Nat :=
  (List.range t.count).filter fun x => t.Alloc x ∧ (t.inodes x).parentInumber.toInt = d

/-- Every child of `d` is in the `dirContents` of `d`. -/
def ChildrenLinked (t : Table) (d : Nat) : Prop := ∀ x ∈ t.children d, t.Linked d x

/-- Every `dirContents` is packed. -/
def AllPacked (t : Table) : Prop := ∀ d < TABLE_SIZE, (t.inodes d).Packed

end Table

/-- `sfs_readdir` on `p` passes the dots and the names of the children of `d`, each once, in some
order, to `filler`. -/
def ListingExact (t : Table) (d : Nat) (p : AbsPath) : Prop :=
  ∃ names, sfsReaddir p.str t = .done 0 (dots ++ names) ∧
    names.Perm ((t.children d).map fun x => (t.inodes x).name)

/-- The listings of all allocated directories with fewer than 30 children are exact. -/
def ReaddirExact (t : Table) : Prop :=
  ∀ d p, t.lookup p = some d → t.Alloc d → isDir (t.inodes d).mode → (t.children d).length < MAX_FILES_IN_DIR →
    ListingExact t d p

/-- If the call frees a slot that is entered in its parent's `dirContents`, its entry is the last one
or the array is full. -/
def RemovesLast (s : Process) (c : FuseCall) : Prop :=
  ∀ p f, c.Frees s.tbl p f → ∀ j < MAX_FILES_IN_DIR, (s.tbl.inodes (s.tbl.parentOf f)).entry j = .inode f →
    (∀ k < MAX_FILES_IN_DIR, j < k → ¬ (s.tbl.inodes (s.tbl.parentOf f)).Occupied k) ∨
    ¬ (s.tbl.inodes (s.tbl.parentOf f)).HasRoom

/-! ## The loop of `sfs_readdir` -/

section loop

variable (t : Table) (f : FileControlBlock Ptr)

/-- The loop lists the positions up to the first free one. -/
theorem readdirLoop_of_free : ∀ (left i m : Nat) (names : List CStr), i ≤ m → m < i + left →
    (∀ k, i ≤ k → k < m → f.Occupied k) → ¬ f.Occupied m →
    readdirLoop t f left i names =
      .done 0 (names ++ (List.range' i (m - i)).map fun k => t.nameAt (f.entry k))
  | 0, i, m, names, h1, h2, _, _ => by omega
  | left + 1, i, m, names, h1, h2, hocc, hfree => by
    unfold readdirLoop
    by_cases him : i = m
    · rw [if_pos (not_not.1 (him ▸ hfree)), him, Nat.sub_self]
      simp
    · rw [if_neg (hocc i (Nat.le_refl i) (by omega)),
        readdirLoop_of_free left (i + 1) m _ (by omega) (by omega) (fun k h1 h2 => hocc k (by omega) h2) hfree,
        show m - i = (m - (i + 1)) + 1 by omega, List.range'_succ]
      simp

end loop

namespace Table

variable {t : Table} {d : Nat}

theorem mem_children {x : Nat} :
    x ∈ t.children d ↔ x < t.count ∧ t.Alloc x ∧ (t.inodes x).parentInumber.toInt = d := by
  simp [children]

theorem nodup_children (t : Table) (d : Nat) : (t.children d).Nodup := List.nodup_range.filter _

/-- The slot at position `k` of a directory, if any. -/
def slotAt (t : Table) (d k : Nat) : Nat :=
  match (t.inodes d).entry k with
  | .inode s => s
  | _ => 0

/-- The slots at the first `m` positions. -/
def firstSlots (t : Table) (d m : Nat) : List Nat := (List.range m).map (t.slotAt d)

section firstSlots

variable {m : Nat} (h : t.Inv) (hd : d < TABLE_SIZE) (hm : m ≤ MAX_FILES_IN_DIR)
  (hocc : ∀ k < m, (t.inodes d).Occupied k)

include h hd hm hocc

theorem entry_eq_slotAt {k : Nat} (hk : k < m) : (t.inodes d).entry k = .inode (t.slotAt d k) := by
  obtain ⟨s, hs, _⟩ := h.entry d hd k (by omega) (hocc k hk)
  rw [slotAt, hs]

theorem mem_firstSlots_iff {x : Nat} : x ∈ t.firstSlots d m ↔ ∃ k < m, (t.inodes d).entry k = .inode x := by
  simp only [firstSlots, List.mem_map, List.mem_range]
  refine exists_congr fun k => and_congr_right fun hk => ?_
  rw [entry_eq_slotAt h hd hm hocc hk, Ptr.inode.injEq]

theorem nodup_firstSlots : (t.firstSlots d m).Nodup := by
  refine (List.nodup_map_iff_inj_on List.nodup_range).2 fun j hj k hk heq => ?_
  rw [List.mem_range] at hj hk
  refine h.inj d hd j (by omega) k (by omega) (t.slotAt d k) ?_ ?_
  · rw [entry_eq_slotAt h hd hm hocc hj, heq]
  · exact entry_eq_slotAt h hd hm hocc hk

theorem firstSlots_subset : t.firstSlots d m ⊆ t.children d := by
  intro x hx
  obtain ⟨k, hk, hentry⟩ := (mem_firstSlots_iff h hd hm hocc).1 hx
  obtain ⟨h1, hlt, ha, hpar⟩ := h.linked_spec hd ⟨k, by omega, hentry⟩
  refine mem_children.2 ⟨hlt, ha, ?_⟩
  rw [(h.parentOf_used (h.used_of_alloc h1 hlt ha)).2, hpar, toInt_ofNat hd]

theorem length_firstSlots_le : m ≤ (t.children d).length := by
  have hle := ((nodup_firstSlots h hd hm hocc).subperm (firstSlots_subset h hd hm hocc)).length_le
  rwa [firstSlots, List.length_map, List.length_range] at hle

theorem map_nameAt_firstSlots : ((List.range' 0 m).map fun k => t.nameAt ((t.inodes d).entry k)) =
    (t.firstSlots d m).map fun x => (t.inodes x).name := by
  rw [firstSlots, List.map_map, List.range_eq_range']
  refine List.map_congr_left fun k hk => ?_
  rw [List.mem_range'_1] at hk
  rw [Function.comp_apply, entry_eq_slotAt h hd hm hocc (by omega), nameAt]

/-- They are all the children iff no entry comes behind the first free position and no child is missing. -/
theorem children_subset_firstSlots_iff (hlt : m < MAX_FILES_IN_DIR) (hfree : ¬ (t.inodes d).Occupied m) :
    t.children d ⊆ t.firstSlots d m ↔ (t.inodes d).Packed ∧ t.ChildrenLinked d := by
  constructor
  · intro hall
    refine ⟨fun k hk hkocc j hj => ?_, fun x hx => ?_⟩
    · obtain ⟨s, hs, h1, hslt, ha, hpar⟩ := h.entry d hd k hk hkocc
      have hchild : s ∈ t.children d := mem_children.2 ⟨hslt, ha, by
        rw [(h.parentOf_used (h.used_of_alloc h1 hslt ha)).2, hpar, toInt_ofNat hd]⟩
      obtain ⟨k', hk', hs'⟩ := (mem_firstSlots_iff h hd hm hocc).1 (hall hchild)
      have hkk := h.inj d hd k hk k' (by omega) s hs hs'
      exact hocc j (by omega)
    · obtain ⟨k, hk, hentry⟩ := (mem_firstSlots_iff h hd hm hocc).1 (hall hx)
      exact ⟨k, by omega, hentry⟩
  · rintro ⟨hpacked, hcomplete⟩ x hx
    obtain ⟨k, hk, hentry⟩ := hcomplete x hx
    refine (mem_firstSlots_iff h hd hm hocc).2 ⟨k, ?_, hentry⟩
    by_contra hge
    have hkocc : (t.inodes d).Occupied k := by rw [FileControlBlock.Occupied, hentry]; simp
    rcases Nat.lt_or_eq_of_le (Nat.not_lt.1 hge) with hlt' | heq
    · exact hfree (hpacked k hk hkocc m hlt')
    · exact hfree (heq ▸ hkocc)

end firstSlots

/-- The first free position of a directory with fewer than 30 children. -/
theorem exists_first_free (h : t.Inv) (hd : d < TABLE_SIZE) (hfew : (t.children d).length < MAX_FILES_IN_DIR) :
    ∃ m < MAX_FILES_IN_DIR, ¬ (t.inodes d).Occupied m ∧ ∀ k < m, (t.inodes d).Occupied k := by
  rcases exitIndex_cases fun k => (t.inodes d).entry k = .null with ⟨m, hm, _, hfree, hmin⟩ | ⟨_, hall⟩
  · exact ⟨m, hm, by simpa [FileControlBlock.Occupied] using hfree,
      fun k hk => by simpa [FileControlBlock.Occupied] using hmin k hk⟩
  · have hle := length_firstSlots_le h hd (Nat.le_refl MAX_FILES_IN_DIR)
      fun k hk => by simpa [FileControlBlock.Occupied] using hall k hk
    omega

end Table

/-! ## One listing -/

/-- **A listing is exact iff the entries are packed and complete.** -/
theorem listingExact_iff {t : Table} {d : Nat} {p : AbsPath} (h : t.Inv) (hp : t.lookup p = some d)
    (hfew : (t.children d).length < MAX_FILES_IN_DIR) :
    ListingExact t d p ↔ (t.inodes d).Packed ∧ t.ChildrenLinked d := by
  have hd : d < TABLE_SIZE := Nat.lt_of_lt_of_le (h.lookup_inumber hp).1 h.le_size
  obtain ⟨m, hm, hfree, hocc⟩ := Table.exists_first_free h hd hfew
  have hfind : findFileOrDir t p.str = t.lookup p := rfl
  have hlist : sfsReaddir p.str t =
      .done 0 (dots ++ (t.firstSlots d m).map fun x => (t.inodes x).name) := by
    rw [← Table.map_nameAt_firstSlots h hd (by omega) hocc]
    simp only [sfsReaddir, hfind, hp]
    exact readdirLoop_of_free t _ _ 0 m _ (Nat.zero_le m) (by omega) (fun k _ hk => hocc k hk) hfree
  have hnodup := Table.nodup_firstSlots h hd (by omega) hocc
  have hsub := Table.firstSlots_subset h hd (by omega) hocc
  rw [← Table.children_subset_firstSlots_iff h hd (by omega) hocc hm hfree]
  constructor
  · rintro ⟨names, heq, hperm⟩ x hx
    rw [hlist] at heq
    simp only [Listing.done.injEq, true_and, List.append_cancel_left_eq] at heq
    -- as many names as children, so the distinct slots listed are all the children
    have hlen : (t.children d).length ≤ (t.firstSlots d m).length := by
      have := hperm.length_eq
      rw [← heq, List.length_map, List.length_map] at this
      omega
    exact ((hnodup.subperm hsub).perm_of_length_le hlen).mem_iff.2 hx
  · intro hall
    refine ⟨_, hlist, List.Perm.map _ ?_⟩
    refine (List.perm_ext_iff_of_nodup hnodup (Table.nodup_children t d)).2 fun x => ?_
    exact ⟨fun hx => hsub hx, fun hx => hall hx⟩

/-- In a table whose entries are packed and complete, every listing is exact. -/
theorem readdirExact_of_packed {t : Table} (h : t.Inv) (hpacked : t.AllPacked) (hl : AllLinked t) :
    ReaddirExact t := by
  intro d p hp _ _ hfew
  have hd : d < TABLE_SIZE := Nat.lt_of_lt_of_le (h.lookup_inumber hp).1 h.le_size
  refine (listingExact_iff h hp hfew).2 ⟨hpacked d hd, fun x hx => ?_⟩
  obtain ⟨hlt, ha, hpar⟩ := Table.mem_children.1 hx
  have h0 : x ≠ 0 := by
    rintro rfl
    rw [h.rootParent] at hpar
    have : (-1 : BitVec 16).toInt = -1 := rfl
    omega
  have hparent : t.parentOf x = d := by rw [Table.parentOf, hpar, Int.toNat_natCast]
  rw [← hparent]
  exact hl x (Nat.one_le_iff_ne_zero.2 h0) hlt ha

/-! ## Keeping the entries packed -/

namespace Table

variable {t : Table} {p : AbsPath} {e : Env} {mode : BitVec 32} {i parent f d : Nat}

theorem Formatted.allPacked {t : Table} (h : t.Formatted) : t.AllPacked := by
  intro d hd k _ hocc
  refine absurd ?_ hocc
  by_cases h0 : d = 0
  · rw [h0, h.rootEntry]
  · rw [h.inodes d (by omega) hd, FileControlBlock.entry_zero]

/-- A create fills the first gap. -/
theorem allPacked_created (hpacked : t.AllPacked) : (t.created e p mode i parent).AllPacked := by
  intro d hd k hk hocc j hj
  have hold := hpacked d hd
  rcases entry_created_cases e p mode t i parent with ⟨m, _, _, hmin, hentry⟩ | ⟨_, hentry⟩
  · simp only [FileControlBlock.Packed, FileControlBlock.Occupied, hentry] at hold hmin hocc ⊢
    by_cases hpos : d = parent ∧ j = m
    · rw [if_pos hpos]; simp
    rw [if_neg hpos]
    by_cases hpos' : d = parent ∧ k = m
    · rw [hpos'.1]
      exact hmin j (by omega)
    · rw [if_neg hpos'] at hocc
      exact hold k hk hocc j hj
  · simp only [FileControlBlock.Packed, FileControlBlock.Occupied, hentry] at hold hocc ⊢
    exact hold k hk hocc j hj

/-- A remove leaves no gap iff the entry it drops is the last one or the array is full. -/
theorem packed_dropEntry_iff {f : FileControlBlock Ptr} {j : Nat} (hj : j < MAX_FILES_IN_DIR)
    (hlast : f.LastFilledLast) (hocc : f.Occupied j) (hpacked : f.Packed) :
    (f.dropEntry j).Packed ↔ (∀ k < MAX_FILES_IN_DIR, j < k → ¬ f.Occupied k) ∨ ¬ f.HasRoom := by
  have h29 : MAX_FILES_IN_DIR - 1 < MAX_FILES_IN_DIR := by decide
  simp only [FileControlBlock.Packed, FileControlBlock.Occupied, FileControlBlock.entry_dropEntry _ _ hj]
  constructor
  · intro hdrop
    by_contra hno
    simp only [not_or, not_not, not_forall] at hno
    obtain ⟨⟨k, hk, hjk, hkocc⟩, m, hm, hmfree⟩ := hno
    have hfree29 : f.entry (MAX_FILES_IN_DIR - 1) = .null :=
      not_not.1 fun hocc29 => hmfree (hlast hocc29 m hm)
    have hk29 : k ≠ MAX_FILES_IN_DIR - 1 := by
      rintro rfl
      exact hkocc hfree29
    have hgap := hdrop k hk (by rw [if_neg hk29, if_neg (by omega)]; exact hkocc) j hjk
    rw [if_neg (by omega), if_pos rfl] at hgap
    exact hgap hfree29
  · intro hcase k hk hkocc m hmk
    have hk29 : k ≠ MAX_FILES_IN_DIR - 1 := by
      rintro rfl
      rw [if_pos rfl] at hkocc
      exact hkocc rfl
    rw [if_neg hk29] at hkocc
    rw [if_neg (by omega)]
    rcases hcase with hlastEntry | hfull
    · -- position `j` is cleared, and all occupied positions are before it
      have hkj : k < j := by
        by_contra hge
        by_cases heq : k = j
        · rw [if_pos heq] at hkocc
          exact hlastEntry _ h29 (by omega) hkocc
        · rw [if_neg heq] at hkocc
          exact hlastEntry k hk (by omega) hkocc
      rw [if_neg (by omega)]
      exact hpacked j hj hocc m (by omega)
    · have hall : ∀ k < MAX_FILES_IN_DIR, f.entry k ≠ .null :=
        fun k hk hnull => hfull ⟨k, hk, not_not.2 hnull⟩
      split
      · exact hall _ h29
      · exact hall m (by omega)

end Table

/-- One call that removes a last entry, or from a full array, keeps the entries packed. -/
theorem allPacked_fuseStep {s : Process} {c : FuseCall} (h : s.tbl.Inv) (hc : c.NonRoot)
    (hlast : RemovesLast s c) (hpacked : s.tbl.AllPacked) : (fuseStep s c).tbl.AllPacked := by
  rcases fuseStep_cases h hc with ⟨p, mode, i, parent, _, htbl⟩ | ⟨p, f, hp, hf, htbl⟩ | ⟨_, _, htbl⟩
  · rw [htbl]
    exact Table.allPacked_created hpacked
  · obtain ⟨_, hlt, hu⟩ := h.lookup_used hp hf.2
    have hparlt := h.parentOf_lt_size hu
    rw [htbl]
    rcases h.inodes_removed_cases hlt hu with ⟨j, hj, hentry, hinodes⟩ | ⟨_, hinodes⟩
    · intro d hd
      rw [hinodes]
      by_cases hdp : d = s.tbl.parentOf f
      · have hocc : (s.tbl.inodes (s.tbl.parentOf f)).Occupied j := by
          rw [FileControlBlock.Occupied, hentry]; simp
        rw [if_pos hdp]
        exact (Table.packed_dropEntry_iff hj (h.lastFilledLast _ hparlt) hocc (hpacked _ hparlt)).2
          (hlast p f hf j hj hentry)
      · rw [if_neg hdp]
        exact hpacked d hd
    · intro d hd
      rw [hinodes]
      exact hpacked d hd
  · rwa [htbl]

/-- **When listings are exact.** All along a run in which every create that takes a slot has room in
the parent and every remove drops a last entry, or one of a full array. In any state reached, the
listing of an allocated directory is exact iff its entries are packed and hold all its children. -/
theorem readdirExact_run {s : Process} (hs : s.JustFormatted) {cs : List FuseCall}
    (hcs : EachStep fuseStep ResolvingAdmits s cs) :
    (EachStep fuseStep (fun s c => ParentHasRoom s c ∧ RemovesLast s c) s cs →
      Always fuseStep (fun s => ReaddirExact s.tbl) s cs) ∧
    ∀ d p, (exec fuseStep s cs).tbl.lookup p = some d → (exec fuseStep s cs).tbl.Alloc d →
      isDir ((exec fuseStep s cs).tbl.inodes d).mode →
      ((exec fuseStep s cs).tbl.children d).length < MAX_FILES_IN_DIR →
      (ListingExact (exec fuseStep s cs).tbl d p ↔
        ((exec fuseStep s cs).tbl.inodes d).Packed ∧ (exec fuseStep s cs).tbl.ChildrenLinked d) := by
  have hinv := exec_fuseStep_inv hs.inv (hcs.mono fun _ _ hc => hc.nonRoot)
  refine ⟨fun hcond => ?_, fun d p hp _ _ hfew => listingExact_iff hinv hp hfew⟩
  have hstep : ∀ s c, s.tbl.Inv ∧ s.tbl.AllPacked ∧ AllLinked s.tbl →
      ResolvingAdmits s c ∧ ParentHasRoom s c ∧ RemovesLast s c →
      (fuseStep s c).tbl.Inv ∧ (fuseStep s c).tbl.AllPacked ∧ AllLinked (fuseStep s c).tbl := by
    intro s c ⟨h, hpacked, hl⟩ ⟨hc, hroom, hlast⟩
    exact ⟨fuseStep_inv h hc.nonRoot, allPacked_fuseStep h hc.nonRoot hlast hpacked,
      allLinked_fuseStep h hc.nonRoot hroom hl⟩
  exact EachStep.always (fun s h => readdirExact_of_packed h.1 h.2.1 h.2.2) hstep
    ⟨hs.inv, hs.tbl.allPacked, hs.tbl.allLinked⟩ (hcs.and hcond)

/-- Files `/a` and `/b` are created, then `/b` is removed: its entry is the last one. -/
def removeLast : List FuseCall :=
  [⟨.create [.a] 0o644, ⟨1000, 1000, 0⟩⟩,
   ⟨.create [.b] 0o644, ⟨1000, 1000, 0⟩⟩,
   ⟨.unlink [.b], ⟨1000, 1000, 0⟩⟩]

theorem packs_removeLast :
    EachStep fuseStep (fun s c => ParentHasRoom s c ∧ RemovesLast s c) (formatted 200000) removeLast := by
  refine ⟨⟨fun p mode i parent ht => ?_, fun p f hf => ?_⟩, ⟨fun p mode i parent ht => ?_, fun p f hf => ?_⟩,
    ⟨fun p mode i parent ht => ?_, fun p f hf => ?_⟩, trivial⟩
  · have htakes : FuseCall.Takes (formatted 200000).tbl ⟨.create [.a] 0o644, ⟨1000, 1000, 0⟩⟩
        [.a] 0o644 1 0 := ⟨rfl, by decide +kernel, by decide +kernel⟩
    obtain ⟨_, _, _, rfl⟩ := htakes.inj ht
    decide +kernel
  · cases hf.1
  · have htakes : FuseCall.Takes (exec fuseStep (formatted 200000) (removeLast.take 1)).tbl
        ⟨.create [.b] 0o644, ⟨1000, 1000, 0⟩⟩ [.b] 0o644 2 0 := ⟨rfl, by decide +kernel, by decide +kernel⟩
    obtain ⟨_, _, _, rfl⟩ := htakes.inj ht
    decide +kernel
  · cases hf.1
  · cases ht.1
  · obtain ⟨hcall, hlookup⟩ := hf
    cases hcall
    have htwo : (exec fuseStep (formatted 200000) (removeLast.take 2)).tbl.lookup [.b] = some 2 := by
      decide +kernel
    rw [show f = 2 from Option.some.inj (hlookup.symm.trans htwo)]
    decide +kernel

theorem removeLast_run : EachStep fuseStep ResolvingAdmits (formatted 200000) removeLast ∧
    (exec fuseStep (formatted 200000) removeLast).tbl.Alloc 0 ∧
    isDir ((exec fuseStep (formatted 200000) removeLast).tbl.inodes 0).mode ∧
    ((exec fuseStep (formatted 200000) removeLast).tbl.children 0).length < MAX_FILES_IN_DIR := by
  decide +kernel

theorem readdirExact_run_removeLast :
    Always fuseStep (fun s => ReaddirExact s.tbl) (formatted 200000) removeLast ∧
    (ListingExact (exec fuseStep (formatted 200000) removeLast).tbl 0 [] ↔
      ((exec fuseStep (formatted 200000) removeLast).tbl.inodes 0).Packed ∧
        (exec fuseStep (formatted 200000) removeLast).tbl.ChildrenLinked 0) := by
  obtain ⟨hadmits, halloc, hdir, hfew⟩ := removeLast_run
  obtain ⟨hrun, hstate⟩ := readdirExact_run justFormatted_three hadmits
  exact ⟨hrun packs_removeLast, hstate 0 [] Table.lookup_nil halloc hdir hfew⟩

/-- Files `/a` and `/b` are created, then `/a` is removed. -/
def removeFirst : List FuseCall :=
  [⟨.create [.a] 0o644, ⟨1000, 1000, 0⟩⟩,
   ⟨.create [.b] 0o644, ⟨1000, 1000, 0⟩⟩,
   ⟨.unlink [.a], ⟨1000, 1000, 0⟩⟩]

theorem removeFirst_run : EachStep fuseStep ResolvingAdmits (formatted 200000) removeFirst ∧
    (exec fuseStep (formatted 200000) removeFirst).tbl.Alloc 0 ∧
    isDir ((exec fuseStep (formatted 200000) removeFirst).tbl.inodes 0).mode ∧
    (exec fuseStep (formatted 200000) removeFirst).tbl.children 0 = [2] ∧
    sfsReaddir (AbsPath.str []) (exec fuseStep (formatted 200000) removeFirst).tbl = .done 0 dots := by
  decide +kernel

/-- `/b` is missing from the listing of `/`. -/
theorem readdirExact_fails : EachStep fuseStep ResolvingAdmits (formatted 200000) removeFirst ∧
    ¬ ReaddirExact (exec fuseStep (formatted 200000) removeFirst).tbl := by
  obtain ⟨hadmits, halloc, hdir, hone, hempty⟩ := removeFirst_run
  refine ⟨hadmits, fun hexact => ?_⟩
  obtain ⟨names, hlist, hperm⟩ :=
    hexact 0 [] Table.lookup_nil halloc hdir (by rw [hone]; decide)
  rw [hempty] at hlist
  have hlen := hperm.length_eq
  rw [List.length_map, hone] at hlen
  simp only [Listing.done.injEq, true_and, List.self_eq_append_right] at hlist
  rw [hlist] at hlen
  cases hlen

end Sfs
