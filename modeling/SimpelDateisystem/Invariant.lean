import SimpelDateisystem.Slots

/-!
# The invariant of the inode table

`Table.Inv` holds after `formatDisk` and is kept by `create_inode` and `remove_inode` on any path
(`Inv.created`, `Inv.removed`). It is about all slots, allocated or freed:

* a slot is either untouched since formatting or carries its own number and a parent number inside
  the table (`Unused`, `Used`);
* an entry of `dirContents` is the address of an allocated slot whose parent is the directory, and
  no slot is entered twice;
* the last position of a `dirContents` is filled last, which keeps the scan of
  `indexed_remove_from_direntry` inside the array.
-/

namespace Sfs

open CString

namespace Table

/-- Untouched since formatting. -/
structure Unused (t : Table) (x : Nat) : Prop where
  record : t.inodes x = FileControlBlock.zero .null
  bit : t.sBlock.ibit x = 0

/-- The numbers of a slot that a create has taken, whether or not it was freed since. -/
structure Used (t : Table) (x : Nat) : Prop where
  lt : x < t.count
  inumber : (t.inodes x).inumber = BitVec.ofNat 16 x
  parent : ∃ d < t.count, (t.inodes x).parentInumber = BitVec.ofNat 16 d

/-- Slot `s` is in the `dirContents` of slot `d`. -/
def Linked (t : Table) (d s : Nat) : Prop := ∃ k < MAX_FILES_IN_DIR, (t.inodes d).entry k = .inode s

instance (t : Table) (d s : Nat) : Decidable (t.Linked d s) := by unfold Linked; infer_instance

/-- **The invariant** (see the module doc). -/
structure Inv (t : Table) : Prop where
  two_le : 2 ≤ t.count
  le_size : t.count ≤ TABLE_SIZE
  rootName : (t.inodes 0).name = [slash]
  rootDir : (t.inodes 0).dir = []
  rootInumber : (t.inodes 0).inumber = 0
  rootParent : (t.inodes 0).parentInumber = -1
  rootAlloc : t.Alloc 0
  bit : ∀ x, t.sBlock.ibit x = 0 ∨ t.sBlock.ibit x = 1
  slot : ∀ x, 1 ≤ x → x < TABLE_SIZE → t.Unused x ∨ t.Used x
  entry : ∀ d < TABLE_SIZE, ∀ k < MAX_FILES_IN_DIR, (t.inodes d).Occupied k →
    ∃ s, (t.inodes d).entry k = .inode s ∧ 1 ≤ s ∧ s < t.count ∧ t.Alloc s ∧ t.parentOf s = d
  inj : ∀ d < TABLE_SIZE, ∀ j < MAX_FILES_IN_DIR, ∀ k < MAX_FILES_IN_DIR, ∀ s,
    (t.inodes d).entry j = .inode s → (t.inodes d).entry k = .inode s → j = k
  lastFilledLast : ∀ d < TABLE_SIZE, (t.inodes d).LastFilledLast

/-! ## After `formatDisk` -/

theorem Formatted.inv {t : Table} (h : t.Formatted) (h2 : 2 ≤ t.count) (hsize : t.count ≤ TABLE_SIZE) :
    t.Inv := by
  have hentry : ∀ d < TABLE_SIZE, ∀ k, (t.inodes d).entry k = .null := by
    intro d hd k
    by_cases h0 : d = 0
    · rw [h0, h.rootEntry]
    · rw [h.inodes d (by omega) hd, FileControlBlock.entry_zero]
  refine ⟨h2, hsize, h.rootName, h.rootDir, h.rootInumber, h.rootParent, ?_, ?_, ?_, ?_, ?_, ?_⟩
  · simp [Alloc, h.ibit]
  · intro x
    rw [h.ibit]
    split
    · exact .inr rfl
    · exact .inl rfl
  · intro x h1 hx
    exact .inl ⟨h.inodes x h1 hx, by rw [h.ibit, if_neg (by omega)]⟩
  · intro d hd k _ hocc
    exact absurd (hentry d hd k) hocc
  · intro d hd j _ k _ s hj
    rw [hentry d hd j] at hj
    cases hj
  · intro d hd hocc
    exact absurd (hentry d hd _) hocc

/-! ## Reading the numbers -/

theorem toInt_ofNat {d : Nat} (hd : d < TABLE_SIZE) : (BitVec.ofNat 16 d).toInt = d := by
  have hsize : TABLE_SIZE = 100 := rfl
  rw [BitVec.toInt_ofNat', Int.bmod_eq_of_le (by omega) (by omega)]

theorem ofNat_inj {x y : Nat} (hx : x < TABLE_SIZE) (hy : y < TABLE_SIZE)
    (h : BitVec.ofNat 16 x = BitVec.ofNat 16 y) : x = y := by
  have := congrArg BitVec.toInt h
  rw [toInt_ofNat hx, toInt_ofNat hy] at this
  omega

variable {t : Table} {p : AbsPath} {x d : Nat}

theorem parentOf_eq (h : (t.inodes x).parentInumber = BitVec.ofNat 16 d) (hd : d < TABLE_SIZE) :
    t.parentOf x = d := by
  rw [parentOf, h, toInt_ofNat hd, Int.toNat_natCast]

theorem getParentFcb_eq (h : (t.inodes x).parentInumber = BitVec.ofNat 16 d) (hd : d < TABLE_SIZE) :
    getParentFcb t x = some d := by
  simp [getParentFcb, h, toInt_ofNat hd]

/-- The number in an untouched slot is 0. -/
theorem Unused.inumber_ne (h1 : 1 ≤ x) (hx : x < TABLE_SIZE) (h : t.Unused x) :
    (t.inodes x).inumber ≠ BitVec.ofNat 16 x := by
  intro hnum
  rw [h.record] at hnum
  have := ofNat_inj (x := 0) (by decide) hx hnum
  omega

theorem Unused.not_used (h1 : 1 ≤ x) (hx : x < TABLE_SIZE) (h : t.Unused x) : ¬ t.Used x :=
  fun hu => h.inumber_ne h1 hx hu.inumber

namespace Inv

variable (h : t.Inv)

include h

theorem parentOf_root : t.parentOf 0 = 0 := by
  rw [parentOf, h.rootParent]; rfl

theorem parentOf_used (hx : t.Used x) :
    t.parentOf x < t.count ∧ (t.inodes x).parentInumber = BitVec.ofNat 16 (t.parentOf x) := by
  obtain ⟨d, hd, heq⟩ := hx.parent
  rw [parentOf_eq heq (Nat.lt_of_lt_of_le hd h.le_size)]
  exact ⟨hd, heq⟩

theorem used_of_alloc (h1 : 1 ≤ x) (hx : x < t.count) (ha : t.Alloc x) : t.Used x := by
  rcases h.slot x h1 (Nat.lt_of_lt_of_le hx h.le_size) with hu | hu
  · rw [Alloc, hu.bit] at ha
    exact absurd ha (by decide)
  · exact hu

/-- A slot that carries the names of a path below the root was taken by a create. -/
theorem used_of_carries (hp : p ≠ []) (hx : x < t.count) (hc : t.Carries x p) : 1 ≤ x ∧ t.Used x := by
  have hne : x ≠ 0 := by
    rintro rfl
    exact AbsPath.leaf_ne_root p (hc.1.symm.trans h.rootName)
  refine ⟨Nat.one_le_iff_ne_zero.2 hne, ?_⟩
  rcases h.slot x (Nat.one_le_iff_ne_zero.2 hne) (Nat.lt_of_lt_of_le hx h.le_size) with hu | hu
  · refine absurd ?_ (AbsPath.leaf_ne_nil hp)
    rw [← hc.1, hu.record, FileControlBlock.name_zero]
  · exact hu

theorem lookup_used (hp : p ≠ []) (hx : t.lookup p = some x) : 1 ≤ x ∧ x < t.count ∧ t.Used x := by
  obtain ⟨hlt, hc⟩ := carries_of_lookup hp hx
  obtain ⟨h1, hu⟩ := h.used_of_carries hp hlt hc
  exact ⟨h1, hlt, hu⟩

/-- Whatever a path resolves to has its own number. -/
theorem lookup_inumber (hx : t.lookup p = some x) :
    x < t.count ∧ (t.inodes x).inumber = BitVec.ofNat 16 x := by
  by_cases hp : p = []
  · rw [hp, lookup_nil] at hx
    cases hx
    exact ⟨by have := h.two_le; omega, h.rootInumber⟩
  · obtain ⟨_, hlt, hu⟩ := h.lookup_used hp hx
    exact ⟨hlt, hu.inumber⟩

/-- Only allocated slots are entered, each under its own parent. -/
theorem linked_spec {d s : Nat} (hd : d < TABLE_SIZE) (hl : t.Linked d s) :
    1 ≤ s ∧ s < t.count ∧ t.Alloc s ∧ t.parentOf s = d := by
  obtain ⟨k, hk, hentry⟩ := hl
  obtain ⟨s', hs', hspec⟩ := h.entry d hd k hk (by rw [FileControlBlock.Occupied, hentry]; simp)
  rw [hentry] at hs'
  cases hs'
  exact hspec

end Inv

/-! ## `create_inode` keeps it -/

theorem freeSlot_spec {i : Nat} (hi : t.freeSlot = some i) : 1 ≤ i ∧ i < t.count ∧ ¬ t.Alloc i := by
  rcases t.freeSlot_cases with ⟨j, h1, h2, h3, _, hj⟩ | ⟨_, hno⟩
  · rw [hj] at hi
    cases hi
    exact ⟨h1, h2, h3⟩
  · rw [hno] at hi
    cases hi

/-- A create enters the new slot under its parent, if there is room, and nothing else. -/
theorem linked_created (e : Env) (p : AbsPath) (mode : BitVec 32) (t : Table) (i parent : Nat) {d s : Nat} :
    (t.created e p mode i parent).Linked d s ↔
      t.Linked d s ∨ (d = parent ∧ s = i ∧ (t.inodes parent).HasRoom) := by
  rcases entry_created_cases e p mode t i parent with ⟨j, hj, hfree, _, hentry⟩ | ⟨hfull, hentry⟩
  · simp only [Linked, hentry]
    constructor
    · rintro ⟨k, hk, hkentry⟩
      by_cases hpos : d = parent ∧ k = j
      · rw [if_pos hpos] at hkentry
        cases hkentry
        exact .inr ⟨hpos.1, rfl, j, hj, hfree⟩
      · rw [if_neg hpos] at hkentry
        exact .inl ⟨k, hk, hkentry⟩
    · rintro (⟨k, hk, hkentry⟩ | ⟨rfl, rfl, _⟩)
      · refine ⟨k, hk, ?_⟩
        rw [if_neg, hkentry]
        rintro ⟨rfl, rfl⟩
        exact hfree (by rw [FileControlBlock.Occupied, hkentry]; simp)
      · exact ⟨j, hj, if_pos ⟨rfl, rfl⟩⟩
  · simp only [Linked, hentry]
    exact ⟨.inl, fun hl => hl.resolve_right fun hr => hfull hr.2.2⟩

section created

variable {e : Env} {mode : BitVec 32} {i parent : Nat} (h : t.Inv)

include h

theorem Inv.lt_maxBlocks (hx : x < t.count) : x < MAX_BLOCKS := by
  have hsize : TABLE_SIZE ≤ MAX_BLOCKS := by decide
  have := h.le_size
  omega

theorem Inv.alloc_created (hi : i < t.count) (y : Nat) :
    (t.created e p mode i parent).Alloc y ↔ y = i ∨ t.Alloc y := by
  rw [Alloc, ibit_created e p mode t i parent (h.lt_maxBlocks hi)]
  by_cases hy : y = i <;> simp [hy, Alloc]

theorem Inv.lastFilledLast_created (hd : d < TABLE_SIZE) :
    ((t.created e p mode i parent).inodes d).LastFilledLast := by
  have hlast := h.lastFilledLast d hd
  rcases entry_created_cases e p mode t i parent with ⟨j, hj, hfree, hmin, hentry⟩ | ⟨_, hentry⟩
  · simp only [FileControlBlock.LastFilledLast, FileControlBlock.Occupied, hentry] at hlast ⊢
    by_cases hdp : d = parent
    · subst hdp
      simp only [true_and]
      intro hocc k hk
      by_cases hkj : k = j
      · simp [hkj]
      rw [if_neg hkj]
      by_cases hj29 : j = MAX_FILES_IN_DIR - 1
      · exact hmin k (by omega)
      · rw [if_neg (Ne.symm hj29)] at hocc
        exact absurd (hlast hocc j hj) hfree
    · simpa only [hdp, false_and, if_false] using hlast
  · simpa only [FileControlBlock.LastFilledLast, FileControlBlock.Occupied, hentry] using hlast

variable (hparent : t.lookup p.parent = some parent)

include hparent

theorem Inv.parentInumber_created (y : Nat) : ((t.created e p mode i parent).inodes y).parentInumber =
    if y = i then BitVec.ofNat 16 parent else (t.inodes y).parentInumber :=
  Table.parentInumber_created e p mode t i parent (h.lookup_inumber hparent).2 y

theorem Inv.parentOf_created (y : Nat) :
    (t.created e p mode i parent).parentOf y = if y = i then parent else t.parentOf y := by
  rw [parentOf, h.parentInumber_created hparent]
  by_cases hy : y = i
  · rw [if_pos hy, if_pos hy, toInt_ofNat (Nat.lt_of_lt_of_le (h.lookup_inumber hparent).1 h.le_size)]
    rfl
  · rw [if_neg hy, if_neg hy, parentOf]

variable (hi : t.freeSlot = some i)

include hi

/-- The new slot is used, and the used slots stay so. -/
theorem Inv.used_created {y : Nat} (hy : y = i ∨ t.Used y) : (t.created e p mode i parent).Used y := by
  by_cases hyi : y = i
  · refine ⟨?_, ?_, parent, ?_, ?_⟩
    · rw [count_created, hyi]; exact (freeSlot_spec hi).2.1
    · rw [inumber_created, if_pos hyi, hyi]
    · rw [count_created]; exact (h.lookup_inumber hparent).1
    · rw [h.parentInumber_created hparent, if_pos hyi]
  · obtain ⟨hlt, hnum, d, hd, heq⟩ := hy.resolve_left hyi
    refine ⟨?_, ?_, d, ?_, ?_⟩
    · rw [count_created]; exact hlt
    · rw [inumber_created, if_neg hyi, hnum]
    · rw [count_created]; exact hd
    · rw [h.parentInumber_created hparent, if_neg hyi, heq]

/-- An untouched slot that is not the new one stays untouched. -/
theorem Inv.unused_created {y : Nat} (h1 : 1 ≤ y) (hy : y < TABLE_SIZE) (hyi : y ≠ i) (hu : t.Unused y) :
    (t.created e p mode i parent).Unused y where
  record := by
    rw [inodes_created_of_ne_of_ne e p mode t i parent hyi, hu.record]
    -- the parent has its own number, an untouched slot has 0
    rintro rfl
    exact hu.inumber_ne h1 hy (h.lookup_inumber hparent).2
  bit := by
    rw [ibit_created e p mode t i parent (h.lt_maxBlocks (freeSlot_spec hi).2.1), if_neg hyi, hu.bit]

theorem Inv.slot_created {y : Nat} (h1 : 1 ≤ y) (hy : y < TABLE_SIZE) :
    (t.created e p mode i parent).Unused y ∨ (t.created e p mode i parent).Used y := by
  by_cases hyi : y = i
  · exact .inr (h.used_created hparent hi (.inl hyi))
  · exact (h.slot y h1 hy).imp (h.unused_created hparent hi h1 hy hyi)
      fun hu => h.used_created hparent hi (.inr hu)

theorem Inv.entry_created {d k : Nat} (hd : d < TABLE_SIZE) (hk : k < MAX_FILES_IN_DIR)
    (hocc : ((t.created e p mode i parent).inodes d).Occupied k) :
    ∃ s, ((t.created e p mode i parent).inodes d).entry k = .inode s ∧ 1 ≤ s ∧ s < t.count ∧
      (t.created e p mode i parent).Alloc s ∧ (t.created e p mode i parent).parentOf s = d := by
  obtain ⟨hi1, hlt, hfree⟩ := freeSlot_spec hi
  have hold : (t.inodes d).Occupied k → ∃ s, (t.inodes d).entry k = .inode s ∧ 1 ≤ s ∧ s < t.count ∧
      (t.created e p mode i parent).Alloc s ∧ (t.created e p mode i parent).parentOf s = d := by
    intro hocc'
    obtain ⟨s, hs, hs1, hslt, ha, hpar⟩ := h.entry d hd k hk hocc'
    refine ⟨s, hs, hs1, hslt, (h.alloc_created hlt s).2 (.inr ha), ?_⟩
    rw [h.parentOf_created hparent, if_neg, hpar]
    rintro rfl
    exact hfree ha
  rcases entry_created_cases e p mode t i parent with ⟨j, _, _, _, hentry⟩ | ⟨_, hentry⟩
  · simp only [FileControlBlock.Occupied, hentry] at hocc ⊢
    by_cases hpos : d = parent ∧ k = j
    · refine ⟨i, if_pos hpos, hi1, hlt, (h.alloc_created hlt i).2 (.inl rfl), ?_⟩
      rw [h.parentOf_created hparent, if_pos rfl, hpos.1]
    · rw [if_neg hpos] at hocc ⊢
      exact hold hocc
  · simp only [FileControlBlock.Occupied, hentry] at hocc ⊢
    exact hold hocc

omit hparent in
theorem Inv.inj_created {d j k s : Nat} (hd : d < TABLE_SIZE) (hj : j < MAX_FILES_IN_DIR)
    (hk : k < MAX_FILES_IN_DIR) (hjs : ((t.created e p mode i parent).inodes d).entry j = .inode s)
    (hks : ((t.created e p mode i parent).inodes d).entry k = .inode s) : j = k := by
  obtain ⟨_, _, hfree⟩ := freeSlot_spec hi
  have hnot : ∀ l < MAX_FILES_IN_DIR, (t.inodes d).entry l ≠ .inode i :=
    fun l hl heq => hfree (h.linked_spec hd ⟨l, hl, heq⟩).2.2.1
  rcases entry_created_cases e p mode t i parent with ⟨m, _, _, _, hentry⟩ | ⟨_, hentry⟩
  · rw [hentry] at hjs hks
    by_cases hpj : d = parent ∧ j = m
    · by_cases hpk : d = parent ∧ k = m
      · rw [hpj.2, hpk.2]
      · rw [if_pos hpj] at hjs
        cases hjs
        rw [if_neg hpk] at hks
        exact absurd hks (hnot k hk)
    · rw [if_neg hpj] at hjs
      by_cases hpk : d = parent ∧ k = m
      · rw [if_pos hpk] at hks
        cases hks
        exact absurd hjs (hnot j hj)
      · rw [if_neg hpk] at hks
        exact h.inj d hd j hj k hk s hjs hks
  · rw [hentry] at hjs hks
    exact h.inj d hd j hj k hk s hjs hks

/-- **`create_inode` keeps the invariant.** -/
theorem Inv.created : (t.created e p mode i parent).Inv := by
  obtain ⟨h1, hlt, _⟩ := freeSlot_spec hi
  constructor
  case two_le => rw [count_created]; exact h.two_le
  case le_size => rw [count_created]; exact h.le_size
  case rootName => rw [name_created, if_neg (by omega), h.rootName]
  case rootDir => rw [dir_created, if_neg (by omega), h.rootDir]
  case rootInumber => rw [inumber_created, if_neg (by omega), h.rootInumber]
  case rootParent => rw [h.parentInumber_created hparent, if_neg (by omega), h.rootParent]
  case rootAlloc => exact (h.alloc_created hlt 0).2 (.inr h.rootAlloc)
  case bit =>
    intro y
    rw [ibit_created e p mode t i parent (h.lt_maxBlocks hlt)]
    split
    · exact .inr rfl
    · exact h.bit y
  case slot => exact fun y => h.slot_created hparent hi
  case entry => rw [count_created]; exact fun d hd k hk => h.entry_created hparent hi hd hk
  case inj => exact fun d hd j hj k hk s => h.inj_created hi hd hj hk
  case lastFilledLast => exact fun d hd => h.lastFilledLast_created hd

end created

/-! ## `remove_inode` keeps it -/

section removed

variable {f : Nat} (h : t.Inv) (hf1 : 1 ≤ f) (hf : f < t.count) (hu : t.Used f)

include h hu

theorem Inv.parentOf_lt_size : t.parentOf f < TABLE_SIZE :=
  Nat.lt_of_lt_of_le (h.parentOf_used hu).1 h.le_size

theorem Inv.parentOf_removed (y : Nat) : (t.removed f (t.parentOf f)).parentOf y = t.parentOf y := by
  rw [parentOf, parentInumber_removed (h.lastFilledLast _ (h.parentOf_lt_size hu)), parentOf]

/-- A freed slot keeps its numbers. -/
theorem Inv.used_removed {y : Nat} (hy : t.Used y) : (t.removed f (t.parentOf f)).Used y := by
  have hlast := h.lastFilledLast _ (h.parentOf_lt_size hu)
  obtain ⟨d, hd, heq⟩ := hy.parent
  refine ⟨?_, ?_, d, ?_, ?_⟩
  · rw [count_removed]; exact hy.lt
  · rw [inumber_removed hlast, hy.inumber]
  · rw [count_removed]; exact hd
  · rw [parentInumber_removed hlast, heq]

include hf

/-- The scan compares inode numbers; it finds the slot's own entry. -/
theorem Inv.inumberAt_iff {d k : Nat} (hd : d < TABLE_SIZE) (hk : k < MAX_FILES_IN_DIR) :
    t.inumberAt ((t.inodes d).entry k) = some (t.inodes f).inumber ↔ (t.inodes d).entry k = .inode f := by
  constructor
  · intro heq
    have hocc : (t.inodes d).Occupied k := by
      intro hnull
      rw [hnull] at heq
      cases heq
    obtain ⟨s, hs, hs1, hslt, ha, _⟩ := h.entry d hd k hk hocc
    rw [hs, inumberAt, Option.some_inj, hu.inumber, (h.used_of_alloc hs1 hslt ha).inumber] at heq
    have hsize := h.le_size
    rw [hs, ofNat_inj (by omega) (by omega) heq]
  · intro heq
    rw [heq, inumberAt]

/-- The slot's entry is dropped from its parent's `dirContents`, if it is there. -/
theorem Inv.inodes_removed_cases :
    (∃ j < MAX_FILES_IN_DIR, (t.inodes (t.parentOf f)).entry j = .inode f ∧
      ∀ x, (t.removed f (t.parentOf f)).inodes x =
        if x = t.parentOf f then (t.inodes (t.parentOf f)).dropEntry j else t.inodes x) ∨
    (¬ t.Linked (t.parentOf f) f ∧ ∀ x, (t.removed f (t.parentOf f)).inodes x = t.inodes x) := by
  have hd := h.parentOf_lt_size hu
  rcases Table.inodes_removed_cases (f := f) (h.lastFilledLast _ hd) with ⟨j, hj, hin, hinodes⟩ | ⟨hno, hinodes⟩
  · exact .inl ⟨j, hj, (h.inumberAt_iff hf hu hd hj).1 hin, hinodes⟩
  · exact .inr ⟨fun ⟨k, hk, hl⟩ => hno k hk ((h.inumberAt_iff hf hu hd hk).2 hl), hinodes⟩

/-- A remove leaves untouched slots alone: they have no entries. -/
theorem Inv.unused_removed {y : Nat} (hy : t.Unused y) : (t.removed f (t.parentOf f)).Unused y where
  record := by
    rcases h.inodes_removed_cases hf hu with ⟨j, _, hjf, hinodes⟩ | ⟨_, hinodes⟩
    · rw [hinodes, if_neg, hy.record]
      rintro rfl
      rw [hy.record, FileControlBlock.entry_zero] at hjf
      cases hjf
    · rw [hinodes, hy.record]
  bit := by
    rw [ibit_removed (h.lt_maxBlocks hf), hy.bit, ite_self]

omit hu in
theorem Inv.alloc_removed (y : Nat) : (t.removed f (t.parentOf f)).Alloc y ↔ y ≠ f ∧ t.Alloc y := by
  rw [Alloc, ibit_removed (h.lt_maxBlocks hf)]
  by_cases hy : y = f <;> simp [hy, Alloc]

/-- A remove drops the slot's entry and no other one. -/
theorem Inv.linked_removed {d s : Nat} (hd : d < TABLE_SIZE) :
    (t.removed f (t.parentOf f)).Linked d s ↔ t.Linked d s ∧ s ≠ f := by
  have hlast : MAX_FILES_IN_DIR - 1 < MAX_FILES_IN_DIR := by decide
  have hparent : t.Linked d f → t.parentOf f = d := fun hl => (h.linked_spec hd hl).2.2.2
  rcases h.inodes_removed_cases hf hu with ⟨j, hj, hjf, hinodes⟩ | ⟨hno, hinodes⟩
  · by_cases hdp : d = t.parentOf f
    · subst hdp
      simp only [Linked, hinodes, if_true, FileControlBlock.entry_dropEntry _ _ hj]
      constructor
      · rintro ⟨k, hk, hks⟩
        by_cases hk29 : k = MAX_FILES_IN_DIR - 1
        · rw [if_pos hk29] at hks; cases hks
        rw [if_neg hk29] at hks
        by_cases hkj : k = j
        · rw [if_pos hkj] at hks
          refine ⟨⟨_, hlast, hks⟩, ?_⟩
          rintro rfl
          exact hk29 (hkj.trans (h.inj _ hd j hj _ hlast s hjf hks))
        · rw [if_neg hkj] at hks
          refine ⟨⟨k, hk, hks⟩, ?_⟩
          rintro rfl
          exact hkj (h.inj _ hd k hk j hj s hks hjf)
      · rintro ⟨⟨k, hk, hks⟩, hsf⟩
        have hkj : k ≠ j := by
          rintro rfl
          rw [hjf] at hks
          cases hks
          exact hsf rfl
        by_cases hk29 : k = MAX_FILES_IN_DIR - 1
        · refine ⟨j, hj, ?_⟩
          rw [if_neg (by omega), if_pos rfl, ← hk29, hks]
        · exact ⟨k, hk, by rw [if_neg hk29, if_neg hkj, hks]⟩
    · simp only [Linked, hinodes, if_neg hdp]
      refine ⟨fun hl => ⟨hl, ?_⟩, fun hl => hl.1⟩
      rintro rfl
      exact hdp (hparent hl).symm
  · simp only [Linked, hinodes]
    refine ⟨fun hl => ⟨hl, ?_⟩, fun hl => hl.1⟩
    rintro rfl
    exact hno ((hparent hl).symm ▸ hl)

/-- Every entry after a remove was one before it. -/
theorem Inv.entry_removed_eq {d k : Nat} (hk : k < MAX_FILES_IN_DIR)
    (hocc : ((t.removed f (t.parentOf f)).inodes d).Occupied k) :
    ∃ m < MAX_FILES_IN_DIR, ((t.removed f (t.parentOf f)).inodes d).entry k = (t.inodes d).entry m := by
  rcases h.inodes_removed_cases hf hu with ⟨j, hj, _, hinodes⟩ | ⟨_, hinodes⟩
  · by_cases hdp : d = t.parentOf f
    · subst hdp
      simp only [FileControlBlock.Occupied, hinodes, if_true,
        FileControlBlock.entry_dropEntry _ _ hj] at hocc ⊢
      by_cases hk29 : k = MAX_FILES_IN_DIR - 1
      · exact absurd (if_pos hk29) hocc
      rw [if_neg hk29]
      by_cases hkj : k = j
      · exact ⟨_, by decide, if_pos hkj⟩
      · exact ⟨k, hk, if_neg hkj⟩
    · exact ⟨k, hk, by rw [hinodes, if_neg hdp]⟩
  · exact ⟨k, hk, by rw [hinodes]⟩

theorem Inv.inj_removed {d j k s : Nat} (hd : d < TABLE_SIZE) (hj : j < MAX_FILES_IN_DIR)
    (hk : k < MAX_FILES_IN_DIR) (hjs : ((t.removed f (t.parentOf f)).inodes d).entry j = .inode s)
    (hks : ((t.removed f (t.parentOf f)).inodes d).entry k = .inode s) : j = k := by
  rcases h.inodes_removed_cases hf hu with ⟨m, hm, _, hinodes⟩ | ⟨_, hinodes⟩
  · by_cases hdp : d = t.parentOf f
    · subst hdp
      simp only [hinodes, if_true, FileControlBlock.entry_dropEntry _ _ hm] at hjs hks
      -- position `k` holds what was at 29 if `k` is the gap, else what it held before
      have hold : ∀ k < MAX_FILES_IN_DIR, (if k = MAX_FILES_IN_DIR - 1 then .null
          else if k = m then (t.inodes (t.parentOf f)).entry (MAX_FILES_IN_DIR - 1)
          else (t.inodes (t.parentOf f)).entry k) = Ptr.inode s → k ≠ MAX_FILES_IN_DIR - 1 ∧
          (t.inodes (t.parentOf f)).entry (if k = m then MAX_FILES_IN_DIR - 1 else k) = .inode s := by
        intro k _ hks
        by_cases hk29 : k = MAX_FILES_IN_DIR - 1
        · rw [if_pos hk29] at hks; cases hks
        · rw [if_neg hk29] at hks
          refine ⟨hk29, ?_⟩
          by_cases hkm : k = m
          · simpa only [hkm, if_true] using hks
          · simpa only [hkm, if_false] using hks
      obtain ⟨hj29, hj'⟩ := hold j hj hjs
      obtain ⟨hk29, hk'⟩ := hold k hk hks
      have := h.inj _ hd _ (by split <;> omega) _ (by split <;> omega) s hj' hk'
      split at this <;> split at this <;> omega
    · simp only [hinodes, if_neg hdp] at hjs hks
      exact h.inj d hd j hj k hk s hjs hks
  · rw [hinodes] at hjs hks
    exact h.inj d hd j hj k hk s hjs hks

theorem Inv.lastFilledLast_removed {d : Nat} (hd : d < TABLE_SIZE) :
    ((t.removed f (t.parentOf f)).inodes d).LastFilledLast := by
  have hlast := h.lastFilledLast d hd
  rcases h.inodes_removed_cases hf hu with ⟨j, hj, _, hinodes⟩ | ⟨_, hinodes⟩
  · by_cases hdp : d = t.parentOf f
    · intro hocc
      refine absurd ?_ hocc
      rw [hinodes, if_pos hdp, FileControlBlock.entry_dropEntry _ _ hj, if_pos rfl]
    · simpa only [FileControlBlock.LastFilledLast, FileControlBlock.Occupied, hinodes, if_neg hdp] using hlast
  · simpa only [FileControlBlock.LastFilledLast, FileControlBlock.Occupied, hinodes] using hlast

include hf1

/-- **`remove_inode` keeps the invariant.** -/
theorem Inv.removed : (t.removed f (t.parentOf f)).Inv := by
  have hlast := h.lastFilledLast _ (h.parentOf_lt_size hu)
  have hcount := count_removed t f (t.parentOf f)
  constructor
  case two_le => rw [hcount]; exact h.two_le
  case le_size => rw [hcount]; exact h.le_size
  case rootName => rw [name_removed hlast, h.rootName]
  case rootDir => rw [dir_removed hlast, h.rootDir]
  case rootInumber => rw [inumber_removed hlast, h.rootInumber]
  case rootParent => rw [parentInumber_removed hlast, h.rootParent]
  case rootAlloc => exact (h.alloc_removed hf 0).2 ⟨by omega, h.rootAlloc⟩
  case bit =>
    intro y
    rw [ibit_removed (h.lt_maxBlocks hf)]
    split
    · exact .inl rfl
    · exact h.bit y
  case slot =>
    intro y h1 hy
    exact (h.slot y h1 hy).imp (h.unused_removed hf hu) (h.used_removed hu)
  case entry =>
    intro d hd k hk hocc
    obtain ⟨m, hm, hkm⟩ := h.entry_removed_eq hf hu hk hocc
    obtain ⟨s, hs, _⟩ := h.entry d hd m hm (by rw [FileControlBlock.Occupied, ← hkm]; exact hocc)
    have hks := hkm.trans hs
    obtain ⟨hl, hsf⟩ := (h.linked_removed hf hu hd).1 ⟨k, hk, hks⟩
    obtain ⟨hs1, hslt, ha, hpar⟩ := h.linked_spec hd hl
    refine ⟨s, hks, hs1, by rw [hcount]; exact hslt, (h.alloc_removed hf s).2 ⟨hsf, ha⟩, ?_⟩
    rw [h.parentOf_removed hu, hpar]
  case inj => exact fun d hd j hj k hk s => h.inj_removed hf hu hd hj hk
  case lastFilledLast => exact fun d hd => h.lastFilledLast_removed hf hu hd

end removed

/-! ## Allocated parents -/

section parents

variable {e : Env} {mode : BitVec 32} {i parent f : Nat}

/-- The parent of every allocated inode is allocated. -/
def ParentsAlloc (t : Table) : Prop := ∀ x < t.count, t.Alloc x → t.Alloc (t.parentOf x)

theorem Formatted.parentsAlloc {t : Table} (h : t.Formatted) : ParentsAlloc t := by
  intro x _ ha
  have h0 : x = 0 := by
    by_contra hne
    rw [Alloc, h.ibit, if_neg hne] at ha
    exact absurd ha (by decide)
  rw [h0, Alloc, h.ibit, parentOf, h.rootParent]
  rfl

theorem parentsAlloc_created_iff (h : t.Inv) (hi : t.freeSlot = some i)
    (hparent : t.lookup p.parent = some parent) (hpa : ParentsAlloc t) :
    ParentsAlloc (t.created e p mode i parent) ↔ t.Alloc parent ∨ parent = i := by
  obtain ⟨_, hlt, hfree⟩ := freeSlot_spec hi
  have halloc : ∀ x, (t.created e p mode i parent).Alloc x ↔ x = i ∨ t.Alloc x := fun x => h.alloc_created hlt x
  constructor
  · intro hpa'
    have hpar := hpa' i (by rwa [count_created]) ((halloc i).2 (.inl rfl))
    rw [h.parentOf_created hparent, if_pos rfl, halloc] at hpar
    exact hpar.symm
  · intro hpar x hx ha
    rw [count_created] at hx
    rw [h.parentOf_created hparent, halloc]
    by_cases hxi : x = i
    · rw [if_pos hxi]; exact hpar.symm
    · rw [if_neg hxi]
      exact .inr (hpa x hx (((halloc x).1 ha).resolve_left hxi))

theorem parentsAlloc_removed_iff (h : t.Inv) (hf : f < t.count) (hu : t.Used f) (hpa : ParentsAlloc t) :
    ParentsAlloc (t.removed f (t.parentOf f)) ↔
      ∀ x < t.count, t.Alloc x → t.parentOf x = f → x = f := by
  simp only [ParentsAlloc, count_removed,
    h.alloc_removed hf, h.parentOf_removed hu]
  constructor
  · intro hpa' x hx ha hpar
    by_contra hxf
    exact (hpa' x hx ⟨hxf, ha⟩).1 hpar
  · intro hno x hx ⟨hxf, ha⟩
    exact ⟨fun hpar => hxf (hno x hx ha hpar), hpa x hx ha⟩

end parents

end Table

end Sfs
