import SimpelDateisystem.Readdir
import SimpelDateisystem.CreateRemove

/-!
# Does a directory listing stay inside `dirContents`?

The loop of `sfs_readdir` (`sfs.c:523-533`) runs to the first `NULL` and knows no other bound.
`add_to_direntry` fills all 30 positions, so that the listing of a full directory reads on behind
the array: `isDone_iff_hasRoom`. `readdirInBounds_iff`: no listing does so along a run iff every
create leaves a position free, in the parent and in the slot it takes, as far as these are
directories.

The slot taken counts because it keeps the `dirContents` of the file it was freed from.
-/

namespace Sfs

open Trace CString

/-- The loop ends at a `NULL` inside the array. -/
def Listing.IsDone (l : Listing) : Prop := ∃ ret names, l = .done ret names

/-- Every listing of a directory that resolves stays inside its `dirContents`. -/
def ReaddirInBounds (t : Table) : Prop :=
  ∀ p d, t.lookup p = some d → isDir (t.inodes d).mode → (sfsReaddir p.str t).IsDone

/-- Two positions of `dirContents` are `NULL`. -/
def FileControlBlock.HasSpare (f : FileControlBlock Ptr) : Prop :=
  ∃ k < MAX_FILES_IN_DIR, ∃ j < k, ¬ f.Occupied j ∧ ¬ f.Occupied k

instance (f : FileControlBlock Ptr) : Decidable f.HasSpare := by
  unfold FileControlBlock.HasSpare; infer_instance

/-- If the call takes a slot: the parent has two free positions, if it is a directory, and so has the
slot one, if it becomes a directory. -/
def LeavesRoom (s : Process) (c : FuseCall) : Prop :=
  ∀ p mode i parent, c.Takes s.tbl p mode i parent →
    (isDir (if parent = i then mode.setWidth 16 else (s.tbl.inodes parent).mode) →
      (s.tbl.inodes parent).HasSpare) ∧
    (isDir (mode.setWidth 16) → (s.tbl.inodes i).HasRoom)

/-! ## One listing -/

/-- The loop ends inside the array iff it meets a `NULL`. -/
theorem readdirLoop_isDone_iff (t : Table) (f : FileControlBlock Ptr) : ∀ (left i : Nat) (names : List CStr),
    (readdirLoop t f left i names).IsDone ↔ ∃ k, i ≤ k ∧ k < i + left ∧ ¬ f.Occupied k
  | 0, i, names => by
    refine iff_of_false ?_ ?_
    · rintro ⟨ret, l, h⟩
      cases h
    · rintro ⟨k, h1, h2, _⟩
      omega
  | left + 1, i, names => by
    unfold readdirLoop
    by_cases hi : f.entry i = .null
    · rw [if_pos hi]
      exact iff_of_true ⟨0, names, rfl⟩ ⟨i, Nat.le_refl i, by omega, not_not.2 hi⟩
    · rw [if_neg hi, readdirLoop_isDone_iff t f left (i + 1)]
      constructor
      · rintro ⟨k, h1, h2, hk⟩
        exact ⟨k, by omega, by omega, hk⟩
      · rintro ⟨k, h1, h2, hk⟩
        have hne : k ≠ i := by
          rintro rfl
          exact hk hi
        exact ⟨k, by omega, by omega, hk⟩

/-- **A listing stays inside the array iff the array is not full.** -/
theorem isDone_iff_hasRoom {t : Table} {p : AbsPath} {d : Nat} (hp : t.lookup p = some d) :
    (sfsReaddir p.str t).IsDone ↔ (t.inodes d).HasRoom := by
  have hfind : findFileOrDir t p.str = some d := hp
  simp only [sfsReaddir, hfind, readdirLoop_isDone_iff, Nat.zero_le, true_and, Nat.zero_add]
  rfl

namespace Table

/-- Every directory has room, whether or not a path resolves to it. -/
def AllHaveRoom (t : Table) : Prop := ∀ d < TABLE_SIZE, isDir (t.inodes d).mode → (t.inodes d).HasRoom

variable {t : Table} {e : Env} {p : AbsPath} {mode : BitVec 32} {i parent f : Nat}

theorem Formatted.allHaveRoom (h : t.Formatted) : t.AllHaveRoom := by
  intro d hd _
  refine ⟨0, by decide, not_not.2 ?_⟩
  by_cases h0 : d = 0
  · rw [h0, h.rootEntry]
  · rw [h.inodes d (by omega) hd, FileControlBlock.entry_zero]

/-! ## Creating -/

/-- A create takes the first free position of the parent and no other one. -/
theorem hasRoom_created_iff (d : Nat) : ((t.created e p mode i parent).inodes d).HasRoom ↔
    if d = parent then (t.inodes d).HasSpare else (t.inodes d).HasRoom := by
  rcases entry_created_cases e p mode t i parent with ⟨m, hm, hfree, hmin, hentry⟩ | ⟨hfull, hentry⟩
  · by_cases hd : d = parent
    · subst hd
      rw [if_pos rfl]
      simp only [FileControlBlock.HasRoom, FileControlBlock.HasSpare, FileControlBlock.Occupied, hentry,
        true_and]
      constructor
      · rintro ⟨k, hk, hkfree⟩
        by_cases hkm : k = m
        · rw [if_pos hkm] at hkfree
          exact absurd (by simp) hkfree
        · rw [if_neg hkm] at hkfree
          have hmk : m < k := by
            by_contra hge
            exact hkfree (hmin k (by omega))
          exact ⟨k, hk, m, hmk, hfree, hkfree⟩
      · rintro ⟨k, hk, j, hjk, hjfree, hkfree⟩
        have hmj : m ≤ j := Nat.not_lt.1 fun hlt => hjfree (hmin j hlt)
        exact ⟨k, hk, by rwa [if_neg (by omega)]⟩
    · rw [if_neg hd]
      simp only [FileControlBlock.HasRoom, FileControlBlock.Occupied, hentry, hd, false_and, if_false]
  · have hsame : ((t.created e p mode i parent).inodes d).HasRoom ↔ (t.inodes d).HasRoom := by
      simp only [FileControlBlock.HasRoom, FileControlBlock.Occupied, hentry]
    rw [hsame]
    split
    · rename_i hd
      subst hd
      refine iff_of_false hfull ?_
      rintro ⟨k, hk, j, hjk, hjfree, _⟩
      exact hfull ⟨j, by omega, hjfree⟩
    · exact Iff.rfl

/-- What a create is to leave: room in the parent and in the slot taken, where these are directories. -/
theorem hasRoom_created_of_leaves {d : Nat}
    (hparent : isDir (if parent = i then mode.setWidth 16 else (t.inodes parent).mode) →
      (t.inodes parent).HasSpare)
    (hslot : isDir (mode.setWidth 16) → (t.inodes i).HasRoom)
    (hold : isDir (t.inodes d).mode → (t.inodes d).HasRoom)
    (hdir : isDir ((t.created e p mode i parent).inodes d).mode) :
    ((t.created e p mode i parent).inodes d).HasRoom := by
  rw [mode_created] at hdir
  rw [hasRoom_created_iff]
  split
  · rename_i hd
    subst hd
    exact hparent hdir
  · by_cases hdi : d = i
    · rw [if_pos hdi] at hdir
      rw [hdi]
      exact hslot hdir
    · rw [if_neg hdi] at hdir
      exact hold hdir

/-! ## Removing -/

theorem hasRoom_dropEntry (g : FileControlBlock Ptr) {j : Nat} (hj : j < MAX_FILES_IN_DIR) :
    (g.dropEntry j).HasRoom := by
  refine ⟨MAX_FILES_IN_DIR - 1, by decide, not_not.2 ?_⟩
  rw [FileControlBlock.entry_dropEntry _ _ hj, if_pos rfl]

/-- A remove can only make room. -/
theorem allHaveRoom_removed (h : t.Inv) (hf : f < t.count) (hu : t.Used f) (hall : t.AllHaveRoom) :
    (t.removed f (t.parentOf f)).AllHaveRoom := by
  intro d hd hdir
  rw [mode_removed (h.lastFilledLast _ (h.parentOf_lt_size hu))] at hdir
  rcases h.inodes_removed_cases hf hu with ⟨j, hj, _, hinodes⟩ | ⟨_, hinodes⟩
  · rw [hinodes]
    split
    · exact hasRoom_dropEntry _ hj
    · exact hall d hd hdir
  · rw [hinodes]
    exact hall d hd hdir

end Table

/-! ## Runs -/

/-- The path of a create that takes a slot does not resolve. -/
theorem ResolvingAdmits.lookup_of_takes {s : Process} {c : FuseCall} {p : AbsPath} {mode : BitVec 32}
    {i parent : Nat} (h : ResolvingAdmits s c) (ht : c.Takes s.tbl p mode i parent) : s.tbl.lookup p = none := by
  unfold ResolvingAdmits at h
  obtain ⟨m, hop | hop⟩ := ht.op <;> rw [hop] at h <;> exact h

theorem readdirInBounds_of_allHaveRoom {t : Table} (h : t.Inv) (hall : t.AllHaveRoom) : ReaddirInBounds t := by
  intro p d hp hdir
  exact (isDone_iff_hasRoom hp).2 (hall d (Nat.lt_of_lt_of_le (h.lookup_inumber hp).1 h.le_size) hdir)

/-- One call that leaves room keeps room everywhere. -/
theorem allHaveRoom_fuseStep {s : Process} {c : FuseCall} (h : s.tbl.Inv) (hc : c.NonRoot)
    (hroom : LeavesRoom s c) (hall : s.tbl.AllHaveRoom) : (fuseStep s c).tbl.AllHaveRoom := by
  rcases fuseStep_cases h hc with ⟨p, mode, i, parent, ht, htbl⟩ | ⟨p, f, hp, hf, htbl⟩ | ⟨_, _, htbl⟩
  · obtain ⟨hparent, hslot⟩ := hroom p mode i parent ht
    rw [htbl]
    intro d hd hdir
    exact Table.hasRoom_created_of_leaves hparent hslot (hall d hd) hdir
  · obtain ⟨_, hlt, hu⟩ := h.lookup_used hp hf.2
    rw [htbl]
    exact Table.allHaveRoom_removed h hlt hu hall
  · rwa [htbl]

/-- **A create that leaves no room makes a listing leave the array**: the parent's own listing, or
that of the new directory. -/
theorem not_readdirInBounds_of_not_leavesRoom {s : Process} {c : FuseCall} (hc : ResolvingAdmits s c)
    (hroom : ¬ LeavesRoom s c) : ¬ ReaddirInBounds (fuseStep s c).tbl := by
  simp only [LeavesRoom, not_forall, not_and_or] at hroom
  obtain ⟨p, mode, i, parent, ht, hroom⟩ := hroom
  have hnone := hc.lookup_of_takes ht
  have hself := ht.lookup_self hnone
  rw [ht.tbl] at hself ⊢
  intro hin
  rcases hroom with ⟨hdir, hspare⟩ | ⟨hdir, hslot⟩
  · have hresolves : ∃ q, (s.tbl.created c.env p mode i parent).lookup q = some parent := by
      by_cases hpi : parent = i
      · subst hpi
        exact ⟨p, hself⟩
      · exact ⟨p.parent, Table.lookup_created_of_ne hnone ht.2.2 hpi⟩
    obtain ⟨q, hq⟩ := hresolves
    have hdone := (isDone_iff_hasRoom hq).1 (hin q parent hq (by rw [Table.mode_created]; exact hdir))
    rw [Table.hasRoom_created_iff, if_pos rfl] at hdone
    exact hspare hdone
  · have hdone := (isDone_iff_hasRoom hself).1
      (hin p i hself (by rw [Table.mode_created, if_pos rfl]; exact hdir))
    rw [Table.hasRoom_created_iff] at hdone
    split at hdone
    · obtain ⟨k, hk, j, hjk, hj, _⟩ := hdone
      exact hslot ⟨j, by omega, hj⟩
    · exact hslot hdone

/-- **Listings stay inside the array all along a run iff every create leaves room.** -/
theorem readdirInBounds_iff {s : Process} (hs : s.JustFormatted) {cs : List FuseCall}
    (hcs : EachStep fuseStep ResolvingAdmits s cs) :
    Always fuseStep (fun s => ReaddirInBounds s.tbl) s cs ↔ EachStep fuseStep LeavesRoom s cs := by
  have good : ∀ s c, s.tbl.Inv ∧ s.tbl.AllHaveRoom → ResolvingAdmits s c → LeavesRoom s c →
      (fuseStep s c).tbl.Inv ∧ (fuseStep s c).tbl.AllHaveRoom :=
    fun s c h hc hroom => ⟨fuseStep_inv h.1 hc.nonRoot, allHaveRoom_fuseStep h.1 hc.nonRoot hroom h.2⟩
  have bad : ∀ s c, s.tbl.Inv ∧ s.tbl.AllHaveRoom → ResolvingAdmits s c → ¬ LeavesRoom s c →
      ¬ ReaddirInBounds (fuseStep s c).tbl :=
    fun s c _ hc hroom => not_readdirInBounds_of_not_leavesRoom hc hroom
  exact always_iff (fun _ h => readdirInBounds_of_allHaveRoom h.1 h.2) good bad
    ⟨hs.inv, hs.tbl.allHaveRoom⟩ hcs

theorem readdirInBounds_iff_thirtyOneFiles :
    Always fuseStep (fun s => ReaddirInBounds s.tbl) (formatted 50000000) thirtyOneFiles ↔
      EachStep fuseStep LeavesRoom (formatted 50000000) thirtyOneFiles :=
  readdirInBounds_iff
    (justFormatted_formatted (by rw [formatCount_forty]; decide) (by rw [formatCount_forty]; decide))
    thirtyOneFiles_run.1

theorem fullRoot_run : isDir ((exec fuseStep (formatted 50000000) thirtyOneFiles).tbl.inodes 0).mode ∧
    ¬ ((exec fuseStep (formatted 50000000) thirtyOneFiles).tbl.inodes 0).HasRoom := by
  decide +kernel

/-- The root directory is full, and its listing reads `dirContents[30]`. -/
theorem readdirInBounds_fails : EachStep fuseStep ResolvingAdmits (formatted 50000000) thirtyOneFiles ∧
    ¬ ReaddirInBounds (exec fuseStep (formatted 50000000) thirtyOneFiles).tbl := by
  obtain ⟨hdir, hfull⟩ := fullRoot_run
  refine ⟨thirtyOneFiles_run.1, fun hin => hfull ?_⟩
  exact (isDone_iff_hasRoom Table.lookup_nil).1 (hin [] 0 Table.lookup_nil hdir)

end Sfs
