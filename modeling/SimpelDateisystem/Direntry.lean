import SimpelDateisystem.Block

/-!
# Directory entries: `add_to_direntry`, `remove_from_direntry`

`dirContents` is an array of 30 pointers. An add takes the first `NULL` position. A remove means to
move the last entry into the gap, but the scan for the last entry (`DateiSteuerBlock.c:150-154`)
steps over two positions whenever it meets an entry, so that it always ends at the last *position*:
unless the array is full, the position moved is empty and the remove leaves a hole.

| here | there |
| --- | --- |
| `addToDirentry`             | `add_to_direntry` (`DateiSteuerBlock.c:115`) |
| `indexedRemoveFromDirentry` | `indexed_remove_from_direntry` (`:144`) |
| `removeFromDirentry`        | `remove_from_direntry` (`:174`) |

`LastFilledLast` is the property of an array that keeps the scan inside it: position 29 is occupied
only when all are. `lastEntryInDirentry_eq`: then the scan ends at 30, never at 31.
-/

namespace Sfs

namespace FileControlBlock

/-- Position `k` of `dirContents` holds an entry. -/
def Occupied (f : FileControlBlock Ptr) (k : Nat) : Prop := f.entry k ≠ .null

instance (f : FileControlBlock Ptr) (k : Nat) : Decidable (f.Occupied k) := by
  unfold Occupied; infer_instance

/-- Some position of `dirContents` is `NULL`. -/
def HasRoom (f : FileControlBlock Ptr) : Prop := ∃ k < MAX_FILES_IN_DIR, ¬ f.Occupied k

instance (f : FileControlBlock Ptr) : Decidable f.HasRoom := by
  unfold HasRoom; infer_instance

/-- The last position is occupied only when all are. -/
def LastFilledLast (f : FileControlBlock Ptr) : Prop :=
  f.Occupied (MAX_FILES_IN_DIR - 1) → ∀ k < MAX_FILES_IN_DIR, f.Occupied k

end FileControlBlock

/-- The index at which `for (i = 0; i < MAX_FILES_IN_DIR; i++) if (p i) break;` ends. -/
def exitIndex (p : Nat → Bool) : Nat := ((List.range MAX_FILES_IN_DIR).find? p).getD MAX_FILES_IN_DIR

/-- `add_to_direntry(&inodes[parent], &inodes[child])`. The array is never `NULL`. -/
def addToDirentry (t : Table) (parent child : Nat) : Bool × Table :=
  let f := t.inodes parent
  let i := exitIndex fun i => f.entry i = .null
  let t' := if i < MAX_FILES_IN_DIR then t.setInode parent (f.setEntry i (.inode child)) else t
  if MAX_FILES_IN_DIR < i then (false, t') else (true, t')

/-- The exit value of the loop at `:150-154`: one step on, and a second one past an entry. -/
def lastScan (f : FileControlBlock Ptr) : (rounds i : Nat) → Nat
  | 0, i => i
  | rounds + 1, i =>
    if i < MAX_FILES_IN_DIR then lastScan f rounds ((if f.Occupied i then i + 1 else i) + 1) else i

/-- `lastEntryInDirentry` (`:155`). -/
def lastEntryInDirentry (f : FileControlBlock Ptr) : Int := lastScan f MAX_FILES_IN_DIR 0 - 1

def indexedRemoveFromDirentry (t : Table) (parent dirContentIndex : Nat) : Bool × Table :=
  let f := t.inodes parent
  let last := lastEntryInDirentry f
  if last ≠ -1 then
    if last = dirContentIndex then (true, t.setInode parent (f.setEntry last.toNat .null))
    else
      (true, t.setInode parent ((f.setEntry dirContentIndex (f.entry last.toNat)).setEntry last.toNat .null))
  else (false, t)

/-- `p->inumber`; there is nothing to read behind any other address. -/
def Table.inumberAt (t : Table) : Ptr → Option (BitVec 16)
  | .inode s => some (t.inodes s).inumber
  | _ => none

/-- `remove_from_direntry(&inodes[parent], &inodes[child])`. -/
def removeFromDirentry (t : Table) (parent child : Nat) : Bool × Table :=
  let f := t.inodes parent
  let i := exitIndex fun i => t.inumberAt (f.entry i) = some (t.inodes child).inumber
  if i < MAX_FILES_IN_DIR then
    let r := indexedRemoveFromDirentry t parent i
    if r.1 then (true, r.2) else (false, r.2)
  else if MAX_FILES_IN_DIR < i then (false, t)
  else (true, t)

/-! ## Adding -/

theorem exitIndex_cases (p : Nat → Bool) :
    (∃ i < MAX_FILES_IN_DIR, exitIndex p = i ∧ p i = true ∧ ∀ j < i, p j = false) ∨
    (exitIndex p = MAX_FILES_IN_DIR ∧ ∀ j < MAX_FILES_IN_DIR, p j = false) := by
  unfold exitIndex
  cases h : (List.range MAX_FILES_IN_DIR).find? p with
  | some i =>
    obtain ⟨hp, hi, hmin⟩ := List.find?_range_eq_some.1 h
    exact .inl ⟨i, List.mem_range.1 hi, rfl, hp, fun j hj => by simpa using hmin j hj⟩
  | none =>
    exact .inr ⟨rfl, fun j hj => by simpa using List.find?_range_eq_none.1 h j hj⟩

/-- **`add_to_direntry`**: the child goes to the first free position; into a full array it goes
nowhere. Either way the answer is `TRUE`: the test `i > MAX_FILES_IN_DIR` never holds. -/
theorem addToDirentry_cases (t : Table) (parent child : Nat) :
    (∃ i < MAX_FILES_IN_DIR, ¬ (t.inodes parent).Occupied i ∧ (∀ j < i, (t.inodes parent).Occupied j) ∧
      addToDirentry t parent child =
        (true, t.setInode parent ((t.inodes parent).setEntry i (.inode child)))) ∨
    (¬ (t.inodes parent).HasRoom ∧ addToDirentry t parent child = (true, t)) := by
  rcases exitIndex_cases fun i => (t.inodes parent).entry i = .null with
    ⟨i, hi, he, hp, hmin⟩ | ⟨he, hmin⟩
  · refine .inl ⟨i, hi, by simpa [FileControlBlock.Occupied] using hp,
      fun j hj => by simpa [FileControlBlock.Occupied] using hmin j hj, ?_⟩
    simp only [addToDirentry, he, if_pos hi, if_neg (Nat.not_lt.2 (Nat.le_of_lt hi))]
  · refine .inr ⟨fun ⟨k, hk, hfree⟩ => hfree ?_, ?_⟩
    · simpa [FileControlBlock.Occupied] using hmin k hk
    · simp only [addToDirentry, he, lt_irrefl, if_false]

/-! ## The scan for the last entry -/

/-- Position 29 empty: the scan cannot jump over the end of the array. -/
theorem lastScan_of_last_free {f : FileControlBlock Ptr} (hlast : ¬ f.Occupied (MAX_FILES_IN_DIR - 1)) :
    ∀ (rounds i : Nat), i ≤ MAX_FILES_IN_DIR → MAX_FILES_IN_DIR ≤ i + rounds →
      lastScan f rounds i = MAX_FILES_IN_DIR
  | 0, i, h1, h2 => by simp only [lastScan]; omega
  | rounds + 1, i, h1, h2 => by
    simp only [lastScan]
    split
    · rename_i hi
      split
      · rename_i hocc
        have hne : i ≠ MAX_FILES_IN_DIR - 1 := fun h => hlast (h ▸ hocc)
        exact lastScan_of_last_free hlast rounds _ (by omega) (by omega)
      · exact lastScan_of_last_free hlast rounds _ (by omega) (by omega)
    · omega

/-- A full array: the scan visits the even positions and meets the end exactly. -/
theorem lastScan_of_full {f : FileControlBlock Ptr} (hfull : ∀ k < MAX_FILES_IN_DIR, f.Occupied k) :
    ∀ (rounds i : Nat), i ≤ MAX_FILES_IN_DIR → i % 2 = 0 → MAX_FILES_IN_DIR ≤ i + rounds →
      lastScan f rounds i = MAX_FILES_IN_DIR
  | 0, i, h1, _, h2 => by simp only [lastScan]; omega
  | rounds + 1, i, h1, heven, h2 => by
    simp only [lastScan]
    split
    · rename_i hi
      -- 30 is even, so the last even position before it is 28
      have hmax : MAX_FILES_IN_DIR = 30 := rfl
      rw [if_pos (hfull i hi)]
      exact lastScan_of_full hfull rounds _ (by omega) (by omega) (by omega)
    · omega

/-- **The scan stays inside the array**: the "last entry" is position 29. -/
theorem lastEntryInDirentry_eq {f : FileControlBlock Ptr} (h : f.LastFilledLast) :
    lastEntryInDirentry f = (MAX_FILES_IN_DIR - 1 : Nat) := by
  have hscan : lastScan f MAX_FILES_IN_DIR 0 = MAX_FILES_IN_DIR := by
    by_cases hlast : f.Occupied (MAX_FILES_IN_DIR - 1)
    · exact lastScan_of_full (h hlast) _ 0 (by omega) rfl (by omega)
    · exact lastScan_of_last_free hlast _ 0 (by omega) (by omega)
  simp only [lastEntryInDirentry, hscan]
  rfl

/-! ## Removing -/

/-- `dirContents` after entry `j` is dropped: position 29 moves to `j`. -/
def FileControlBlock.dropEntry (f : FileControlBlock Ptr) (j : Nat) : FileControlBlock Ptr :=
  if j = MAX_FILES_IN_DIR - 1 then f.setEntry j .null
  else (f.setEntry j (f.entry (MAX_FILES_IN_DIR - 1))).setEntry (MAX_FILES_IN_DIR - 1) .null

theorem FileControlBlock.entry_dropEntry (f : FileControlBlock Ptr) {j : Nat} (k : Nat) (hj : j < MAX_FILES_IN_DIR) :
    (f.dropEntry j).entry k = if k = MAX_FILES_IN_DIR - 1 then .null
      else if k = j then f.entry (MAX_FILES_IN_DIR - 1) else f.entry k := by
  unfold dropEntry
  by_cases hlast : j = MAX_FILES_IN_DIR - 1
  · rw [if_pos hlast, entry_setEntry f _ k hj, hlast]
    split <;> rfl
  · rw [if_neg hlast, entry_setEntry _ _ k (by omega), entry_setEntry f _ k hj]

theorem indexedRemoveFromDirentry_eq {t : Table} {parent : Nat} (j : Nat)
    (h : (t.inodes parent).LastFilledLast) :
    indexedRemoveFromDirentry t parent j = (true, t.setInode parent ((t.inodes parent).dropEntry j)) := by
  simp only [indexedRemoveFromDirentry, lastEntryInDirentry_eq h, FileControlBlock.dropEntry,
    Int.toNat_natCast, Int.natCast_inj]
  rw [if_pos (by omega)]
  by_cases hj : MAX_FILES_IN_DIR - 1 = j
  · rw [if_pos hj, if_pos hj.symm, hj]
  · rw [if_neg hj, if_neg (Ne.symm hj)]

/-- **`remove_from_direntry`**: the first entry with the child's inode number is dropped; without
one nothing changes. Either way the answer is `TRUE`. -/
theorem removeFromDirentry_cases {t : Table} {parent : Nat} (child : Nat)
    (h : (t.inodes parent).LastFilledLast) :
    (∃ j < MAX_FILES_IN_DIR,
      t.inumberAt ((t.inodes parent).entry j) = some (t.inodes child).inumber ∧
      removeFromDirentry t parent child =
        (true, t.setInode parent ((t.inodes parent).dropEntry j))) ∨
    ((∀ j < MAX_FILES_IN_DIR,
      t.inumberAt ((t.inodes parent).entry j) ≠ some (t.inodes child).inumber) ∧
      removeFromDirentry t parent child = (true, t)) := by
  rcases exitIndex_cases fun i =>
    t.inumberAt ((t.inodes parent).entry i) = some (t.inodes child).inumber with
    ⟨j, hj, he, hp, _⟩ | ⟨he, hmin⟩
  · refine .inl ⟨j, hj, by simpa using hp, ?_⟩
    simp only [removeFromDirentry, he, if_pos hj, indexedRemoveFromDirentry_eq j h, if_true]
  · refine .inr ⟨fun j hj => by simpa using hmin j hj, ?_⟩
    simp only [removeFromDirentry, he, lt_irrefl, if_false]

/-! ## What the two answer

`create_inode` and `remove_inode` write `ibmap` on the answer. Both loops end at 30 when they find
nothing, and both answers test `i > MAX_FILES_IN_DIR`.
-/

theorem addToDirentry_fst (t : Table) (parent child : Nat) : (addToDirentry t parent child).1 = true := by
  rcases addToDirentry_cases t parent child with ⟨_, _, _, _, h⟩ | ⟨_, h⟩ <;> rw [h]

theorem removeFromDirentry_fst {t : Table} {parent : Nat} (child : Nat) (h : (t.inodes parent).LastFilledLast) :
    (removeFromDirentry t parent child).1 = true := by
  rcases removeFromDirentry_cases child h with ⟨_, _, _, heq⟩ | ⟨_, heq⟩ <;> rw [heq]

/-- A faithful answer of `add_to_direntry`: `TRUE` and the child at the first `NULL`, or, without one,
`FALSE` and no change. -/
structure AddFaithful (t : Table) (parent child : Nat) : Prop where
  adds : ∀ i < MAX_FILES_IN_DIR, ¬ (t.inodes parent).Occupied i → (∀ j < i, (t.inodes parent).Occupied j) →
    addToDirentry t parent child = (true, t.setInode parent ((t.inodes parent).setEntry i (.inode child)))
  full : ¬ (t.inodes parent).HasRoom → addToDirentry t parent child = (false, t)

/-- A faithful answer of `remove_from_direntry` for a child that is not in the array. -/
structure RemoveFaithful (t : Table) (parent child : Nat) : Prop where
  ret : (removeFromDirentry t parent child).1 = false
  unchanged : ((removeFromDirentry t parent child).2.inodes parent).dirContents = (t.inodes parent).dirContents

theorem addFaithful_iff (t : Table) (parent child : Nat) :
    AddFaithful t parent child ↔ (t.inodes parent).HasRoom := by
  constructor
  · intro h
    by_contra hfull
    have hret := addToDirentry_fst t parent child
    rw [h.full hfull] at hret
    cases hret
  · intro hroom
    refine ⟨fun i hi hfree hmin => ?_, fun hfull => absurd hroom hfull⟩
    rcases addToDirentry_cases t parent child with ⟨m, hm, hmfree, hmmin, h⟩ | ⟨hfull, _⟩
    · have hmi : m = i := by
        apply Nat.le_antisymm
        · exact Nat.not_lt.1 fun hlt => hfree (hmmin i hlt)
        · exact Nat.not_lt.1 fun hlt => hmfree (hmin m hlt)
      rw [h, hmi]
    · exact absurd hroom hfull

/-- **When the answers are faithful**: `add_to_direntry`'s iff the array is not full,
`remove_from_direntry`'s never. A child whose number is not in the array leaves it unchanged. -/
theorem direntry_faithful {t : Table} {parent : Nat} (child : Nat) (hlast : (t.inodes parent).LastFilledLast) :
    (AddFaithful t parent child ↔ (t.inodes parent).HasRoom) ∧ ¬ RemoveFaithful t parent child ∧
    ((∀ j < MAX_FILES_IN_DIR,
      t.inumberAt ((t.inodes parent).entry j) ≠ some (t.inodes child).inumber) →
      removeFromDirentry t parent child = (true, t)) := by
  refine ⟨addFaithful_iff t parent child, fun h => ?_, fun hno => ?_⟩
  · have hret := h.ret
    rw [removeFromDirentry_fst child hlast] at hret
    cases hret
  · rcases removeFromDirentry_cases child hlast with ⟨j, hj, hin, _⟩ | ⟨_, heq⟩
    · exact absurd hin (hno j hj)
    · exact heq

/-- Inodes with their own numbers; `dirContents` of the first one holds inodes 1 to 30. -/
def fullDirectory : Table where
  sBlock := .zero
  inodes x := { FileControlBlock.zero Ptr.null with
    inumber := BitVec.ofNat 16 x
    dirContents := if x = 0 then Vector.ofFn fun k => .inode (k.val + 1) else Vector.replicate _ .null }

theorem fullDirectory_occupied :
    (∀ k < MAX_FILES_IN_DIR, (fullDirectory.inodes 0).Occupied k) ∧
    ∀ k < MAX_FILES_IN_DIR, (fullDirectory.inodes 0).entry k ≠ .inode 31 := by
  decide +kernel

theorem direntry_faithful_fullDirectory :
    (AddFaithful fullDirectory 0 31 ↔ (fullDirectory.inodes 0).HasRoom) ∧
    ¬ RemoveFaithful fullDirectory 0 31 ∧
    ((∀ j < MAX_FILES_IN_DIR, fullDirectory.inumberAt ((fullDirectory.inodes 0).entry j) ≠
      some (fullDirectory.inodes 31).inumber) → removeFromDirentry fullDirectory 0 31 = (true, fullDirectory)) :=
  direntry_faithful 31 fun _ => fullDirectory_occupied.1

/-- Inode 31 is neither added to the full array nor found in it, and both answers are `TRUE`. -/
theorem direntry_not_faithful : (fullDirectory.inodes 0).LastFilledLast ∧
    (∀ k < MAX_FILES_IN_DIR, (fullDirectory.inodes 0).entry k ≠ .inode 31) ∧
    ¬ AddFaithful fullDirectory 0 31 ∧ ¬ RemoveFaithful fullDirectory 0 31 := by
  obtain ⟨hall, hnot⟩ := fullDirectory_occupied
  refine ⟨fun _ => hall, hnot, fun hadd => ?_, fun hremove => ?_⟩
  · have hfull : ¬ (fullDirectory.inodes 0).HasRoom := fun ⟨k, hk, hfree⟩ => hfree (hall k hk)
    exact hfull ((addFaithful_iff _ _ _).1 hadd)
  · have hret := hremove.ret
    rw [removeFromDirentry_fst 31 fun _ => hall] at hret
    cases hret

end Sfs
