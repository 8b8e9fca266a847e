import SimpelDateisystem.Format

/-!
# The slots of the table, and what a create and a remove do to them

The three places that record a file — its bit in `ibmap`, the two names stored in its slot, the
entry in its parent's `dirContents` — are written by one operation and read by different ones:

* `Table.lookup` reads the names (`Carries`), of allocated and freed slots alike;
* `Table.freeSlot` reads the bit;
* `Table.created`, `Table.removed` are the tables after a successful `create_inode` and
  `remove_inode`; `createInode_cases` says that a create does nothing else.
-/

namespace Sfs

open CString

namespace Table

/-- The slot a path resolves to. -/
def lookup (t : Table) (p : AbsPath) : Option Nat := findFileOrDir t p.str

/-- Slot `x` stores the last two names of `p`. -/
def Carries (t : Table) (x : Nat) (p : AbsPath) : Prop :=
  (t.inodes x).name = p.leaf ∧ (t.inodes x).dir = p.parentName

instance (t : Table) (x : Nat) (p : AbsPath) : Decidable (t.Carries x p) := by
  unfold Carries; infer_instance

/-- The parent's slot number, read as `getParentFcb` reads it; 0 for the root's `-1`. -/
def parentOf (t : Table) (x : Nat) : Nat := (t.inodes x).parentInumber.toInt.toNat

/-- The table after `create_inode` took slot `i` for `p`, with `parent` as parent. -/
def created (e : Env) (p : AbsPath) (mode : BitVec 32) (t : Table) (i parent : Nat) : Table :=
  (initInode e (addToDirentry t parent i).2 i parent p.leaf p.parentName mode).setIbit i 1

/-- The table after `remove_inode` freed slot `f`, with `parent` as parent. -/
def removed (t : Table) (f parent : Nat) : Table := (removeFromDirentry t parent f).2.setIbit f 0

variable {t : Table} {p : AbsPath}

/-! ## Lookup -/

@[simp] theorem lookup_nil : t.lookup [] = some 0 := by simp [lookup, findFileOrDir, findRootOrDieTrying]

/-- The root resolves. -/
theorem ne_nil_of_lookup_eq_none (h : t.lookup p = none) : p ≠ [] := by
  rintro rfl
  cases h

theorem matchesPath_iff {x : Nat} : matchesPath t p.str x = true ↔ t.Carries x p := by
  simp only [matchesPath, p.relativeName_str, p.getRelativeParentName_str, Bool.and_eq_true,
    decide_eq_true_eq, Carries]

/-- **`findFileOrDir`**: the first slot that carries the path's last two names. -/
theorem lookup_cases (hp : p ≠ []) :
    (∃ x < t.count, t.Carries x p ∧ (∀ y < x, ¬ t.Carries y p) ∧ t.lookup p = some x) ∨
    ((∀ x < t.count, ¬ t.Carries x p) ∧ t.lookup p = none) := by
  have hfind : t.lookup p = (List.range t.count).find? (matchesPath t p.str) :=
    if_neg (AbsPath.str_ne_root hp)
  rw [hfind]
  cases h : (List.range t.count).find? (matchesPath t p.str) with
  | some x =>
    obtain ⟨hx, hlt, hmin⟩ := List.find?_range_eq_some.1 h
    refine .inl ⟨x, List.mem_range.1 hlt, matchesPath_iff.1 hx, fun y hy hc => ?_, rfl⟩
    simpa [matchesPath_iff.2 hc] using hmin y hy
  | none =>
    refine .inr ⟨fun x hx hc => ?_, rfl⟩
    simpa [matchesPath_iff.2 hc] using List.find?_range_eq_none.1 h x hx

theorem lookup_eq_none_iff (hp : p ≠ []) : t.lookup p = none ↔ ∀ x < t.count, ¬ t.Carries x p := by
  rcases lookup_cases hp with ⟨x, hx, hc, _, h⟩ | ⟨hno, h⟩
  · rw [h]
    exact ⟨by simp, fun h => absurd hc (h x hx)⟩
  · rw [h]
    exact ⟨fun _ => hno, fun _ => rfl⟩

theorem carries_of_lookup (hp : p ≠ []) {x : Nat} (h : t.lookup p = some x) :
    x < t.count ∧ t.Carries x p := by
  rcases lookup_cases hp with ⟨y, hy, hc, _, h'⟩ | ⟨_, h'⟩
  · rw [h'] at h; cases h; exact ⟨hy, hc⟩
  · rw [h'] at h; cases h

theorem lookup_eq_some_iff (hp : p ≠ []) {x : Nat} :
    t.lookup p = some x ↔ x < t.count ∧ t.Carries x p ∧ ∀ y < x, ¬ t.Carries y p := by
  rcases lookup_cases hp with ⟨y, hy, hc, hmin, h⟩ | ⟨hno, h⟩
  · rw [h, Option.some_inj]
    refine ⟨by rintro rfl; exact ⟨hy, hc, hmin⟩, fun ⟨_, hcx, hminx⟩ => ?_⟩
    exact Nat.le_antisymm (Nat.not_lt.1 fun hlt => hmin x hlt hcx) (Nat.not_lt.1 fun hlt => hminx y hlt hc)
  · rw [h]
    exact ⟨by simp, fun ⟨hx, hcx, _⟩ => absurd hcx (hno x hx)⟩

/-- The search for the parent is the lookup of the parent path, the root included. -/
theorem parentSlot_str (t : Table) (p : AbsPath) : t.parentSlot p.str p.parentName = t.lookup p.parent := by
  by_cases hp : p.parent = []
  · rw [parentSlot, if_pos (AbsPath.parentName_eq_root_iff.2 hp), hp, lookup_nil]; rfl
  · rw [parentSlot, if_neg (mt AbsPath.parentName_eq_root_iff.1 hp), AbsPath.absolutePathToParent_str hp]
    rfl

/-- The scan for a free slot takes the lowest one. -/
theorem freeSlot_cases (t : Table) :
    (∃ i, 1 ≤ i ∧ i < t.count ∧ ¬ t.Alloc i ∧ (∀ j, 1 ≤ j → j < i → t.Alloc j) ∧ t.freeSlot = some i) ∨
    ((∀ i, 1 ≤ i → i < t.count → t.Alloc i) ∧ t.freeSlot = none) := by
  unfold freeSlot
  cases h : (List.range' 1 (t.count - 1)).find? fun i => t.sBlock.ibit i ≠ 1 with
  | some i =>
    obtain ⟨hi, hmem, hmin⟩ := List.find?_range'_eq_some.1 h
    rw [List.mem_range'_1] at hmem
    exact .inl ⟨i, hmem.1, by omega, by simpa [Alloc] using hi,
      fun j h1 h2 => by simpa [Alloc] using hmin j h1 h2, rfl⟩
  | none =>
    refine .inr ⟨fun i h1 h2 => ?_, rfl⟩
    have := List.find?_eq_none.1 h i (List.mem_range'_1.2 ⟨h1, by omega⟩)
    simpa [Alloc] using this

theorem freeSlot_eq_none_iff {t : Table} : t.freeSlot = none ↔ ∀ x, 1 ≤ x → x < t.count → t.Alloc x := by
  rcases t.freeSlot_cases with ⟨i, h1, hlt, hfree, _, hi⟩ | ⟨hall, hnone⟩
  · rw [hi]
    exact iff_of_false (by simp) fun hall => hfree (hall i h1 hlt)
  · exact iff_of_true hnone hall

/-! ## The table after a create -/

section created

variable (e : Env) (p : AbsPath) (mode : BitVec 32) (t : Table) (i parent : Nat)

/-- `add_to_direntry` changes nothing but a `dirContents`. -/
theorem inodes_addToDirentry (child x : Nat) : ∃ dc,
    (addToDirentry t parent child).2.inodes x = { t.inodes x with dirContents := dc } := by
  rcases addToDirentry_cases t parent child with ⟨k, _, _, _, h⟩ | ⟨_, h⟩
  · rw [h, inodes_setInode]
    by_cases hx : x = parent
    · rw [if_pos hx, hx]; exact ⟨_, rfl⟩
    · rw [if_neg hx]; exact ⟨_, rfl⟩
  · rw [h]; exact ⟨_, rfl⟩

@[simp] theorem sBlock_addToDirentry (child : Nat) : (addToDirentry t parent child).2.sBlock = t.sBlock := by
  rcases addToDirentry_cases t parent child with ⟨k, _, _, _, h⟩ | ⟨_, h⟩ <;> rw [h]
  rfl

@[simp] theorem sBlock_created : (created e p mode t i parent).sBlock = t.sBlock.setIbit i 1 := by
  simp only [created, setIbit, initInode, sBlock_setInode, sBlock_addToDirentry]

@[simp] theorem count_created : (created e p mode t i parent).count = t.count := by simp [count]

theorem ibit_created (hi : i < MAX_BLOCKS) (x : Nat) :
    (created e p mode t i parent).sBlock.ibit x = if x = i then 1 else t.sBlock.ibit x := by
  rw [sBlock_created, Superblock.ibit_setIbit _ _ _ hi]

/-- Slots other than the new one get at most a new entry. -/
theorem inodes_created_of_ne {x : Nat} (hx : x ≠ i) :
    (created e p mode t i parent).inodes x = (addToDirentry t parent i).2.inodes x := by
  simp only [created, setIbit, initInode, inodes_setInode, if_neg hx]

/-- Slots that are neither the new one nor its parent do not change. -/
theorem inodes_created_of_ne_of_ne {x : Nat} (hx : x ≠ i) (hparent : x ≠ parent) :
    (created e p mode t i parent).inodes x = t.inodes x := by
  rw [inodes_created_of_ne e p mode t i parent hx]
  rcases addToDirentry_cases t parent i with ⟨k, _, _, _, h⟩ | ⟨_, h⟩
  · rw [h, inodes_setInode, if_neg hparent]
  · rw [h]

/-- The new slot has its fields assigned; the others, and its own `dirContents`, get at most a new entry. -/
theorem inodes_created (x : Nat) : ∃ dc pn, (created e p mode t i parent).inodes x =
    if x = i then
      { t.inodes i with
        fileName := strcpyArray (t.inodes i).fileName p.leaf
        parentDir := strcpyArray (t.inodes i).parentDir p.parentName
        parentInumber := pn
        mode := mode.setWidth 16
        uid := e.uid.setWidth 16
        time := e.now
        inumber := BitVec.ofNat 16 i
        dirContents := dc }
    else { t.inodes x with dirContents := dc } := by
  obtain ⟨dc, h⟩ := inodes_addToDirentry t parent i x
  by_cases hx : x = i
  · subst hx
    simp only [created, setIbit, initInode, inodes_setInode, if_true, h]
    exact ⟨dc, _, rfl⟩
  · refine ⟨dc, 0, ?_⟩
    rw [if_neg hx, inodes_created_of_ne e p mode t i parent hx, h]

theorem name_created (x : Nat) : ((created e p mode t i parent).inodes x).name =
    if x = i then p.leaf else (t.inodes x).name := by
  obtain ⟨dc, pn, h⟩ := inodes_created e p mode t i parent x
  rw [h]
  split
  · exact cstr_strcpyArray _ p.leaf_noNul p.leaf_short
  · rfl

theorem dir_created (x : Nat) : ((created e p mode t i parent).inodes x).dir =
    if x = i then p.parentName else (t.inodes x).dir := by
  obtain ⟨dc, pn, h⟩ := inodes_created e p mode t i parent x
  rw [h]
  split
  · exact cstr_strcpyArray _ p.parentName_noNul p.parentName_short
  · rfl

variable {e p mode t i parent} in
/-- A create on a path that does not resolve gives the new slot names that no other slot has. -/
theorem sameNames_created (hnone : t.lookup p = none) {x y : Nat} (hx : x < t.count) (hy : y < t.count) (hxy : x ≠ y)
    (hname : ((created e p mode t i parent).inodes x).name = ((created e p mode t i parent).inodes y).name)
    (hdir : ((created e p mode t i parent).inodes x).dir = ((created e p mode t i parent).inodes y).dir) :
    x ≠ i ∧ y ≠ i ∧ (t.inodes x).name = (t.inodes y).name ∧ (t.inodes x).dir = (t.inodes y).dir := by
  have hno := (lookup_eq_none_iff (ne_nil_of_lookup_eq_none hnone)).1 hnone
  rw [name_created, name_created] at hname
  rw [dir_created, dir_created] at hdir
  by_cases hxi : x = i
  · have hyi : y ≠ i := fun hyi => hxy (hxi.trans hyi.symm)
    rw [if_pos hxi, if_neg hyi] at hname hdir
    exact absurd ⟨hname.symm, hdir.symm⟩ (hno y hy)
  · by_cases hyi : y = i
    · rw [if_neg hxi, if_pos hyi] at hname hdir
      exact absurd ⟨hname, hdir⟩ (hno x hx)
    · rw [if_neg hxi, if_neg hyi] at hname hdir
      exact ⟨hxi, hyi, hname, hdir⟩

/-- The new slot carries its path, and what other slots carry does not change. -/
theorem carries_created (x : Nat) (q : AbsPath) : (created e p mode t i parent).Carries x q ↔
    if x = i then p.leaf = q.leaf ∧ p.parentName = q.parentName else t.Carries x q := by
  unfold Carries
  rw [name_created, dir_created]
  by_cases hx : x = i
  · rw [if_pos hx, if_pos hx, if_pos hx]
  · rw [if_neg hx, if_neg hx, if_neg hx]

theorem inumber_created (x : Nat) : ((created e p mode t i parent).inodes x).inumber =
    if x = i then BitVec.ofNat 16 i else (t.inodes x).inumber := by
  obtain ⟨dc, pn, h⟩ := inodes_created e p mode t i parent x
  rw [h]
  split <;> rfl

theorem mode_created (x : Nat) : ((created e p mode t i parent).inodes x).mode =
    if x = i then mode.setWidth 16 else (t.inodes x).mode := by
  obtain ⟨dc, pn, h⟩ := inodes_created e p mode t i parent x
  rw [h]
  split <;> rfl

theorem uid_created (x : Nat) : ((created e p mode t i parent).inodes x).uid =
    if x = i then e.uid.setWidth 16 else (t.inodes x).uid := by
  obtain ⟨dc, pn, h⟩ := inodes_created e p mode t i parent x
  rw [h]
  split <;> rfl

/-- The parent number is read after the new slot got its own number: a slot reused as its own
parent gets its own number twice. -/
theorem parentInumber_created (hparent : (t.inodes parent).inumber = BitVec.ofNat 16 parent) (x : Nat) :
    ((created e p mode t i parent).inodes x).parentInumber =
      if x = i then BitVec.ofNat 16 parent else (t.inodes x).parentInumber := by
  obtain ⟨dc, h⟩ := inodes_addToDirentry t parent i x
  by_cases hx : x = i
  · rw [if_pos hx, hx]
    obtain ⟨dp, hp⟩ := inodes_addToDirentry t parent i parent
    simp only [created, setIbit, initInode, inodes_setInode, if_true]
    by_cases hpi : parent = i
    · simp [hpi]
    · simp [hpi, hp, hparent]
  · rw [if_neg hx, inodes_created_of_ne e p mode t i parent hx, h]

theorem entry_created (x k : Nat) : ((created e p mode t i parent).inodes x).entry k =
    ((addToDirentry t parent i).2.inodes x).entry k := by
  by_cases hx : x = i
  · rw [hx]
    simp only [created, setIbit, initInode, inodes_setInode, if_true]
    rfl
  · rw [inodes_created_of_ne e p mode t i parent hx]

/-- The new slot takes the parent's first free position. -/
theorem entry_created_cases :
    (∃ j < MAX_FILES_IN_DIR, ¬ (t.inodes parent).Occupied j ∧ (∀ k < j, (t.inodes parent).Occupied k) ∧
      ∀ x k, ((created e p mode t i parent).inodes x).entry k =
        if x = parent ∧ k = j then .inode i else (t.inodes x).entry k) ∨
    (¬ (t.inodes parent).HasRoom ∧
      ∀ x k, ((created e p mode t i parent).inodes x).entry k = (t.inodes x).entry k) := by
  rcases addToDirentry_cases t parent i with ⟨j, hj, hfree, hmin, h⟩ | ⟨hfull, h⟩
  · refine .inl ⟨j, hj, hfree, hmin, fun x k => ?_⟩
    rw [entry_created, h, inodes_setInode]
    by_cases hx : x = parent
    · simp only [hx, if_true, true_and, FileControlBlock.entry_setEntry _ _ k hj]
    · simp only [hx, if_false, false_and]
  · exact .inr ⟨hfull, fun x k => by rw [entry_created, h]⟩

end created

/-! ## The table after a remove -/

@[simp] theorem sBlock_removeFromDirentry (t : Table) (parent child : Nat) :
    (removeFromDirentry t parent child).2.sBlock = t.sBlock := by
  unfold removeFromDirentry indexedRemoveFromDirentry
  simp only
  split_ifs <;> rfl

@[simp] theorem sBlock_removed (t : Table) (f parent : Nat) :
    (removed t f parent).sBlock = t.sBlock.setIbit f 0 := by
  simp only [removed, setIbit, sBlock_removeFromDirentry]

@[simp] theorem count_removed (t : Table) (f parent : Nat) : (removed t f parent).count = t.count := by simp [count]

theorem ibit_removed {f : Nat} (hf : f < MAX_BLOCKS) (t : Table) (parent x : Nat) :
    (removed t f parent).sBlock.ibit x = if x = f then 0 else t.sBlock.ibit x := by
  rw [sBlock_removed, Superblock.ibit_setIbit _ _ _ hf]

section removed

variable {t : Table} {f parent : Nat} (h : (t.inodes parent).LastFilledLast)

include h

/-- The removed slot keeps its record; its parent may lose an entry. -/
theorem inodes_removed_cases :
    (∃ j < MAX_FILES_IN_DIR, t.inumberAt ((t.inodes parent).entry j) = some (t.inodes f).inumber ∧
      ∀ x, (removed t f parent).inodes x =
        if x = parent then (t.inodes parent).dropEntry j else t.inodes x) ∨
    ((∀ j < MAX_FILES_IN_DIR, t.inumberAt ((t.inodes parent).entry j) ≠ some (t.inodes f).inumber) ∧
      ∀ x, (removed t f parent).inodes x = t.inodes x) := by
  rcases removeFromDirentry_cases f h with ⟨j, hj, hin, heq⟩ | ⟨hno, heq⟩
  · exact .inl ⟨j, hj, hin, fun x => by simp only [removed, setIbit, heq, inodes_setInode]⟩
  · exact .inr ⟨hno, fun x => by simp only [removed, setIbit, heq]⟩

/-- A remove changes no record but for its `dirContents`. -/
theorem inodes_removed (x : Nat) : ∃ dc,
    (removed t f parent).inodes x = { t.inodes x with dirContents := dc } := by
  rcases inodes_removed_cases h (f := f) with ⟨j, _, _, hinodes⟩ | ⟨_, hinodes⟩
  · rw [hinodes]
    by_cases hx : x = parent
    · rw [if_pos hx, hx]
      unfold FileControlBlock.dropEntry
      split <;> exact ⟨_, rfl⟩
    · rw [if_neg hx]; exact ⟨_, rfl⟩
  · rw [hinodes]
    exact ⟨_, rfl⟩

theorem name_removed (x : Nat) : ((removed t f parent).inodes x).name = (t.inodes x).name := by
  obtain ⟨dc, hx⟩ := inodes_removed h (f := f) x
  rw [hx]; rfl

theorem dir_removed (x : Nat) : ((removed t f parent).inodes x).dir = (t.inodes x).dir := by
  obtain ⟨dc, hx⟩ := inodes_removed h (f := f) x
  rw [hx]; rfl

theorem inumber_removed (x : Nat) : ((removed t f parent).inodes x).inumber = (t.inodes x).inumber := by
  obtain ⟨dc, hx⟩ := inodes_removed h (f := f) x
  rw [hx]

theorem mode_removed (x : Nat) : ((removed t f parent).inodes x).mode = (t.inodes x).mode := by
  obtain ⟨dc, hx⟩ := inodes_removed h (f := f) x
  rw [hx]

theorem parentInumber_removed (x : Nat) :
    ((removed t f parent).inodes x).parentInumber = (t.inodes x).parentInumber := by
  obtain ⟨dc, hx⟩ := inodes_removed h (f := f) x
  rw [hx]

end removed

end Table

/-! ## `create_inode` -/

/-- **`create_inode`**: no slot is free, or the parent path does not resolve, and nothing happens;
else the lowest free slot is taken. -/
theorem createInode_cases (e : Env) (p : AbsPath) (mode : BitVec 32) (s : Process) :
    (∃ i parent, s.tbl.freeSlot = some i ∧ s.tbl.lookup p.parent = some parent ∧
      createInode e p.str mode s =
        (some i, (flushAllInodesTodisk false { s with tbl := s.tbl.created e p mode i parent }).2)) ∨
    ((s.tbl.freeSlot = none ∨ s.tbl.lookup p.parent = none) ∧ createInode e p.str mode s = (none, s)) := by
  cases hi : s.tbl.freeSlot with
  | none => exact .inr ⟨.inl rfl, by simp only [createInode, hi]⟩
  | some i =>
    have hparent := Table.parentSlot_str s.tbl p
    cases hp : s.tbl.lookup p.parent with
    | none => exact .inr ⟨.inr rfl, by simp only [createInode, hi, p.getRelativeParentName_str, hparent, hp]⟩
    | some parent =>
      refine .inl ⟨i, parent, rfl, rfl, ?_⟩
      have hadd := addToDirentry_fst s.tbl parent i
      simp only [createInode, hi, p.getRelativeParentName_str, p.relativeName_str, hparent, hp, hadd,
        if_true]
      rfl

end Sfs
