import SimpelDateisystem.Lib.Tray
import SimpelDateisystem.Readdir
import SimpelDateisystem.SameTable
import SimpelDateisystem.UniqueNames

/-!
# A directory as a tray

A `dirContents` is a tray of 30 places for the names of what was created in the directory. An add puts a
name into the first empty place; a remove moves the last *place* into the gap, so it leaves a hole, and
`sfs_readdir` stops at the first one. A tray that is full takes nothing more, and its listing runs over
the end of the array.

* `readdir_eq_listingOf` — a listing is read off the tray (`listingOf`);
* `trays_created`, `trays_removed` — what a create and a remove do to the trays of all directories.
-/

namespace Sfs

open Trace CString

/-- The two names by which a path is found. -/
abbrev Key := CStr × CStr

def AbsPath.key (p : AbsPath) : Key := (p.leaf, p.parentName)

/-- What `sfs_readdir` makes of a tray. -/
def listingOf (b : Tray Key MAX_FILES_IN_DIR) : Listing :=
  if b.firstFree = none then .outOfBounds (dots ++ b.row.map Prod.fst) else .done 0 (dots ++ b.row.map Prod.fst)

namespace Table

variable {t : Table} {p : AbsPath} {d : Nat}

/-- The two names of the slot behind a pointer. -/
def keyAt (t : Table) : Ptr → Option Key
  | .inode x => some ((t.inodes x).name, (t.inodes x).dir)
  | _ => none

/-- The `dirContents` of slot `d` as a tray. -/
def tray (t : Table) (d : Nat) : Tray Key MAX_FILES_IN_DIR := ⟨(t.inodes d).dirContents.map t.keyAt⟩

theorem get_tray (t : Table) (d k : Nat) : (t.tray d).get k = t.keyAt ((t.inodes d).entry k) :=
  Cells.peek_map t.keyAt .null _ k

/-! ## Listing -/

namespace Inv

variable (h : t.Inv) (hd : d < TABLE_SIZE)

include h hd

theorem get_tray_cases {k : Nat} (hk : k < MAX_FILES_IN_DIR) :
    ((t.inodes d).entry k = .null ∧ (t.tray d).get k = none) ∨
    ∃ x < t.count, (t.inodes d).entry k = .inode x ∧ t.Alloc x ∧ t.parentOf x = d ∧
      (t.tray d).get k = some ((t.inodes x).name, (t.inodes x).dir) := by
  rw [get_tray]
  by_cases hocc : (t.inodes d).Occupied k
  · obtain ⟨x, hx, _, hlt, ha, hpar⟩ := h.entry d hd k hk hocc
    exact .inr ⟨x, hlt, hx, ha, hpar, by rw [hx, keyAt]⟩
  · have hnull : (t.inodes d).entry k = .null := not_not.1 hocc
    exact .inl ⟨hnull, by rw [hnull]; rfl⟩

theorem get_tray_eq_none_iff {k : Nat} (hk : k < MAX_FILES_IN_DIR) :
    (t.tray d).get k = none ↔ ¬ (t.inodes d).Occupied k := by
  rw [FileControlBlock.Occupied, not_not]
  rcases h.get_tray_cases hd hk with ⟨hnull, hget⟩ | ⟨x, _, hx, _, _, hget⟩
  · simp [hnull, hget]
  · simp [hx, hget]

theorem nameAt_entry {k : Nat} (hk : k < MAX_FILES_IN_DIR) (hocc : (t.inodes d).Occupied k) :
    ((t.tray d).get k).map Prod.fst = some (t.nameAt ((t.inodes d).entry k)) := by
  rcases h.get_tray_cases hd hk with ⟨hnull, _⟩ | ⟨x, _, hx, _, _, hget⟩
  · exact absurd hnull hocc
  · rw [hget, hx, Option.map_some, nameAt]

/-- The names before position `m` are seen from the front of the tray. -/
theorem map_row {m : Nat} (hm : m ≤ MAX_FILES_IN_DIR) (hocc : ∀ k < m, (t.inodes d).Occupied k) :
    ((List.range m).filterMap (t.tray d).get).map Prod.fst =
      (List.range' 0 m).map fun k => t.nameAt ((t.inodes d).entry k) := by
  rw [List.map_filterMap, ← List.filterMap_eq_map, List.range_eq_range']
  refine List.filterMap_congr fun k hk => ?_
  have hkm : k < m := by
    rw [List.mem_range'_1] at hk
    omega
  exact h.nameAt_entry hd (Nat.lt_of_lt_of_le hkm hm) (hocc k hkm)

end Inv

end Table

/-- The loop runs over the end of a full array. -/
theorem readdirLoop_of_full (t : Table) (f : FileControlBlock Ptr) : ∀ (left i : Nat) (names : List CStr),
    (∀ k, i ≤ k → k < i + left → f.Occupied k) →
    readdirLoop t f left i names = .outOfBounds (names ++ (List.range' i left).map fun k => t.nameAt (f.entry k))
  | 0, i, names, _ => by simp [readdirLoop]
  | left + 1, i, names, hocc => by
    unfold readdirLoop
    rw [if_neg (hocc i (Nat.le_refl i) (by omega)),
      readdirLoop_of_full t f left (i + 1) _ fun k h1 h2 => hocc k (by omega) (by omega), List.range'_succ]
    simp

theorem readdir_eq_of_none {t : Table} {p : AbsPath} (hp : t.lookup p = none) :
    sfsReaddir p.str t = .done (-1) dots := by
  have hfind : findFileOrDir t p.str = none := hp
  simp only [sfsReaddir, hfind]

/-- **A listing is read off the tray.** -/
theorem readdir_eq_listingOf {t : Table} {p : AbsPath} {d : Nat} (h : t.Inv) (hp : t.lookup p = some d) :
    sfsReaddir p.str t = listingOf (t.tray d) := by
  have hd : d < TABLE_SIZE := Nat.lt_of_lt_of_le (h.lookup_inumber hp).1 h.le_size
  have hfind : findFileOrDir t p.str = some d := hp
  simp only [sfsReaddir, hfind, listingOf, Tray.row]
  cases hfree : (t.tray d).firstFree with
  | none =>
    have hocc : ∀ k < MAX_FILES_IN_DIR, (t.inodes d).Occupied k := fun k hk =>
      not_not.1 fun hno => (Tray.firstFree_eq_none_iff _).1 hfree k hk ((h.get_tray_eq_none_iff hd hk).2 hno)
    rw [if_pos rfl, Option.getD_none, h.map_row hd (Nat.le_refl _) hocc,
      readdirLoop_of_full t _ _ 0 _ fun k _ hk => hocc k (by omega)]
  | some m =>
    obtain ⟨hm, hgap, hmin⟩ := (Tray.firstFree_eq_some_iff _).1 hfree
    have hocc : ∀ k < m, (t.inodes d).Occupied k := fun k hk =>
      not_not.1 fun hno => hmin k hk ((h.get_tray_eq_none_iff hd (Nat.lt_trans hk hm)).2 hno)
    rw [if_neg (by simp), Option.getD_some, h.map_row hd (Nat.le_of_lt hm) hocc,
      readdirLoop_of_free t _ _ 0 m _ (Nat.zero_le m) (by omega) (fun k _ hk => hocc k hk)
        ((h.get_tray_eq_none_iff hd hm).1 hgap)]
    rfl

/-! ## What a call does -/

namespace Table

variable {t : Table} {p : AbsPath} {d : Nat} (h : t.Inv) (hd : d < TABLE_SIZE)

include h hd

/-- A create puts its names on the tray of the parent. -/
theorem tray_created {e : Env} {mode : BitVec 32} {i parent : Nat} (hi : t.freeSlot = some i) :
    (t.created e p mode i parent).tray d = if d = parent then (t.tray d).put p.key else t.tray d := by
  obtain ⟨_, _, hfree⟩ := freeSlot_spec hi
  -- what is on a tray is allocated, so it is not the slot taken
  have hold : ∀ k < MAX_FILES_IN_DIR,
      (t.created e p mode i parent).keyAt ((t.inodes d).entry k) = (t.tray d).get k := by
    intro k hk
    rcases h.get_tray_cases hd hk with ⟨hnull, hget⟩ | ⟨x, _, hx, ha, _, hget⟩
    · rw [hnull, hget]
      rfl
    · have hxi : x ≠ i := fun heq => hfree (heq ▸ ha)
      rw [hx, hget, keyAt, name_created, dir_created, if_neg hxi, if_neg hxi]
  have hnew : (t.created e p mode i parent).keyAt (.inode i) = some p.key := by
    rw [keyAt, name_created, dir_created, if_pos rfl, if_pos rfl]
    rfl
  refine Tray.ext_get fun k hk => ?_
  rw [get_tray]
  rcases entry_created_cases e p mode t i parent with ⟨j, hj, hjfree, hmin, hentry⟩ | ⟨hfull, hentry⟩
  · rw [hentry]
    by_cases hdp : d = parent
    · subst hdp
      have hfirst : (t.tray d).firstFree = some j :=
        (Tray.firstFree_eq_some_iff _).2 ⟨hj, (h.get_tray_eq_none_iff hd hj).2 hjfree, fun m hm hnone =>
          (h.get_tray_eq_none_iff hd (Nat.lt_trans hm hj)).1 hnone (hmin m hm)⟩
      rw [if_pos rfl, Tray.get_put, hfirst]
      by_cases hkj : k = j
      · rw [if_pos ⟨rfl, hkj⟩, hnew, if_pos (by rw [hkj])]
      · rw [if_neg fun hpos => hkj hpos.2, hold k hk, if_neg fun heq => hkj (Option.some.inj heq).symm]
    · rw [if_neg fun hpos => hdp hpos.1, if_neg hdp, hold k hk]
  · rw [hentry, hold k hk]
    by_cases hdp : d = parent
    · subst hdp
      have hfirst : (t.tray d).firstFree = none :=
        (Tray.firstFree_eq_none_iff _).2 fun m hm hnone =>
          hfull ⟨m, hm, (h.get_tray_eq_none_iff hd hm).1 hnone⟩
      rw [if_pos rfl, Tray.get_put, hfirst, if_neg (by simp)]
    · rw [if_neg hdp]

/-- Names that resolve to nothing are on no tray. -/
theorem not_on_tray_of_none (hp : p ≠ []) (hnone : t.lookup p = none) {k : Nat} (hk : k < MAX_FILES_IN_DIR) :
    (t.tray d).get k ≠ some p.key := by
  intro hkey
  rcases h.get_tray_cases hd hk with ⟨_, hget⟩ | ⟨x, hx, _, _, _, hget⟩ <;> rw [hget] at hkey
  · cases hkey
  · exact (lookup_eq_none_iff hp).1 hnone x hx (Prod.ext_iff.1 (Option.some.inj hkey))

variable {f : Nat} (hdist : t.DistinctNames) (hp : p ≠ []) (hf : t.lookup p = some f)

include hdist hp hf

/-- The names of a slot are where its entry is. -/
theorem on_tray_iff {k : Nat} (hk : k < MAX_FILES_IN_DIR) :
    (t.tray d).get k = some p.key ↔ (t.inodes d).entry k = .inode f := by
  obtain ⟨hlt, hcarries⟩ := carries_of_lookup hp hf
  rcases h.get_tray_cases hd hk with ⟨hnull, hget⟩ | ⟨x, hx, hentry, _, _, hget⟩
  · rw [hget, hnull]
    exact iff_of_false (by simp) (by simp)
  · rw [hget, hentry, Option.some_inj, Ptr.inode.injEq]
    constructor
    · intro hkey
      exact hdist.eq_of_carries hp hx hlt (Prod.ext_iff.1 hkey) hcarries
    · rintro rfl
      exact Prod.ext hcarries.1 hcarries.2

/-- A remove takes the names off the tray they are on, if any. -/
theorem tray_removed : (t.removed f (t.parentOf f)).tray d = (t.tray d).remove p.key := by
  obtain ⟨_, hlt, hu⟩ := h.lookup_used hp hf
  have hlast := h.lastFilledLast _ (h.parentOf_lt_size hu)
  have hkeys : ∀ q, (t.removed f (t.parentOf f)).keyAt q = t.keyAt q := by
    intro q
    cases q with
    | inode x => rw [keyAt, keyAt, name_removed hlast, dir_removed hlast]
    | null => rfl
    | wild a => rfl
  have honce : ∀ j < MAX_FILES_IN_DIR, ∀ k < MAX_FILES_IN_DIR, (t.tray d).get j = some p.key →
      (t.tray d).get k = some p.key → j = k := by
    intro j hj k hk hjkey hkkey
    exact h.inj d hd j hj k hk f ((on_tray_iff h hd hdist hp hf hj).1 hjkey)
      ((on_tray_iff h hd hdist hp hf hk).1 hkkey)
  -- off the parent's tray, and off the parent's when it is not linked, nothing is removed
  have hnone : (∀ k < MAX_FILES_IN_DIR, (t.inodes d).entry k ≠ .inode f) → (t.tray d).remove p.key = t.tray d :=
    fun hno => Tray.remove_of_not_mem fun k hk hkey => hno k hk ((on_tray_iff h hd hdist hp hf hk).1 hkey)
  refine Tray.ext_get fun k hk => ?_
  rw [get_tray, hkeys]
  rcases h.inodes_removed_cases hlt hu with ⟨j, hj, hjf, hinodes⟩ | ⟨hno, hinodes⟩ <;> rw [hinodes]
  · by_cases hdp : d = t.parentOf f
    · rw [if_pos hdp, ← hdp, FileControlBlock.entry_dropEntry _ _ hj, Tray.remove_eq_drop honce hj
        ((on_tray_iff h hd hdist hp hf hj).2 (by rw [hdp]; exact hjf)), Tray.get_drop _ hj]
      split
      · rfl
      split <;> rw [get_tray]
    · rw [if_neg hdp, hnone fun m hm hentry => hdp (h.linked_spec hd ⟨m, hm, hentry⟩).2.2.2.symm, get_tray]
  · rw [hnone, get_tray]
    intro m hm hentry
    have hpar := (h.linked_spec hd ⟨m, hm, hentry⟩).2.2.2
    exact hno ⟨m, hm, by rw [hpar]; exact hentry⟩

end Table

/-! ## All directories -/

namespace Table

variable {t : Table} {p : AbsPath}

/-- The trays of all slots of `inodes[]`. -/
def trays (t : Table) (d : Nat) : Tray Key MAX_FILES_IN_DIR := if d < TABLE_SIZE then t.tray d else Tray.empty

theorem trays_created (h : t.Inv) {i parent : Nat} (hi : t.freeSlot = some i) (hparent : parent < TABLE_SIZE) (e : Env)
    (mode : BitVec 32) : (t.created e p mode i parent).trays =
      Function.update t.trays parent ((t.trays parent).put p.key) := by
  funext d
  rw [Function.update_apply, trays, trays, trays, if_pos hparent]
  by_cases hd : d < TABLE_SIZE
  · rw [if_pos hd, if_pos hd, tray_created h hd hi]
    split
    · rename_i hdp
      rw [hdp]
    · rfl
  · rw [if_neg hd, if_neg hd, if_neg fun hdp : d = parent => hd (hdp ▸ hparent)]

theorem trays_removed (h : t.Inv) (hdist : t.DistinctNames) (hp : p ≠ []) {f : Nat} (hf : t.lookup p = some f) :
    (t.removed f (t.parentOf f)).trays = fun d => (t.trays d).remove p.key := by
  funext d
  rw [trays, trays]
  by_cases hd : d < TABLE_SIZE
  · rw [if_pos hd, if_pos hd, tray_removed h hd hdist hp hf]
  · rw [if_neg hd, if_neg hd]
    refine (Tray.remove_of_not_mem fun k _ => ?_).symm
    rw [Tray.get_empty]
    simp

theorem Agrees.tray {t' : Table} (ha : t.Agrees t') (h : t.Inv) {d : Nat} (hd : d < TABLE_SIZE) :
    t.tray d = t'.tray d := by
  have hsize := h.le_size
  refine Tray.ext_get fun k hk => ?_
  rw [get_tray t' d, ← ha.inodes d hd]
  rcases h.get_tray_cases hd hk with ⟨hnull, hget⟩ | ⟨x, hlt, hx, _, _, hget⟩
  · rw [hget, hnull]
    rfl
  · rw [hget, hx, keyAt, ha.inodes x (by omega)]

/-- Processes with the same table list the same. -/
theorem Agrees.readdir {t' : Table} (ha : t.Agrees t') (h : t.Inv) (p : AbsPath) :
    sfsReaddir p.str t = sfsReaddir p.str t' := by
  have hlookup := ha.lookup h.le_size p
  cases hp : t.lookup p with
  | none => rw [readdir_eq_of_none hp, readdir_eq_of_none (hlookup.symm.trans hp)]
  | some d =>
    have hd : d < TABLE_SIZE := Nat.lt_of_lt_of_le (h.lookup_inumber hp).1 h.le_size
    rw [readdir_eq_listingOf h hp, readdir_eq_listingOf (ha.inv h) (hlookup.symm.trans hp), ha.tray h hd]

end Table

theorem Table.Formatted.tray {t : Table} (h : t.Formatted) {d : Nat} (hd : d < TABLE_SIZE) :
    t.tray d = Tray.empty := by
  refine Tray.ext_get fun k _ => ?_
  rw [Table.get_tray, Tray.get_empty]
  by_cases h0 : d = 0
  · rw [h0, h.rootEntry]
    rfl
  · rw [h.inodes d (by omega) hd, FileControlBlock.entry_zero]
    rfl

end Sfs
