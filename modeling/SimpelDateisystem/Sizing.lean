import SimpelDateisystem.Format

/-!
# How many inodes `formatDisk` allocates

Each round of the loop at `DateiSteuerBlock.c:401-412` adds the running total to the running sum, so
after `k` rounds `spaceUsed` is `allocationUnit` times the `k`-th triangular number. The loop stops at
the first `k` at which the sum reaches the space or the next total does (`Stops`, `allocRounds`).

| theorem | says |
| --- | --- |
| `formatSBlock_counts` | `numInodes` and `numDataBlocks` after `formatDisk`, in closed form |
| `sizingInRange_iff`   | the counts stay inside the tables up to a disk of 310303944 bytes, and no further |
| `geometryExact_iff`   | the counts are what the disk has room for only where they are `TABLE_SIZE` |
-/

namespace Sfs

/-! ## The closed form -/

/-- `spaceUsed` after `k` rounds. -/
def spaceAfter (k : Nat) : Int := allocationUnit * (k * (k + 1) / 2 : Nat)

/-- The loop does not allocate in round `k`, counted from 0. -/
def Stops (remainingSpace : Int) (k : Nat) : Prop :=
  remainingSpace ≤ spaceAfter k ∨ remainingSpace ≤ allocationUnit * (k + 1)

instance (remainingSpace : Int) (k : Nat) : Decidable (Stops remainingSpace k) := by
  unfold Stops; infer_instance

theorem allocationUnit_eq : allocationUnit = 61444 := by decide

theorem spaceAfter_succ (k : Nat) : spaceAfter (k + 1) = spaceAfter k + allocationUnit * (k + 1) := by
  have htriangle : (k + 1) * (k + 1 + 1) / 2 = k * (k + 1) / 2 + (k + 1) := by
    rw [show (k + 1) * (k + 1 + 1) = k * (k + 1) + (k + 1) * 2 by ring, Nat.add_mul_div_right _ _ (by decide)]
  rw [spaceAfter, htriangle, spaceAfter]
  push_cast
  ring

theorem spaceAfter_mono {k m : Nat} (h : k ≤ m) : spaceAfter k ≤ spaceAfter m := by
  induction h with
  | refl => exact Int.le_refl _
  | step _ ih =>
    rw [spaceAfter_succ, allocationUnit_eq]
    omega

theorem Stops.succ {remainingSpace : Int} {k : Nat} (h : Stops remainingSpace k) : Stops remainingSpace (k + 1) := by
  have hsucc := spaceAfter_succ k
  rw [allocationUnit_eq] at hsucc
  rcases h with h | h
  · exact .inl (by omega)
  · rw [allocationUnit_eq] at h
    exact .inr (by rw [allocationUnit_eq]; push_cast; omega)

theorem Stops.mono {remainingSpace : Int} {k m : Nat} (h : Stops remainingSpace k) (hkm : k ≤ m) :
    Stops remainingSpace m := by
  induction hkm with
  | refl => exact h
  | step _ ih => exact ih.succ

theorem stops_toNat (remainingSpace : Int) : Stops remainingSpace remainingSpace.toNat :=
  .inr (by rw [allocationUnit_eq]; omega)

/-- The rounds in which the loop allocates. -/
def allocRounds (remainingSpace : Int) : Nat := Nat.find ⟨_, stops_toNat remainingSpace⟩

theorem allocRounds_le_iff {remainingSpace : Int} {n : Nat} :
    allocRounds remainingSpace ≤ n ↔ Stops remainingSpace n :=
  ⟨fun h => (Nat.find_spec ⟨_, stops_toNat remainingSpace⟩).mono h, fun h => Nat.find_min' _ h⟩

theorem lt_allocRounds_iff {remainingSpace : Int} {n : Nat} :
    n < allocRounds remainingSpace ↔ spaceAfter n < remainingSpace ∧ allocationUnit * (n + 1) < remainingSpace := by
  rw [← Nat.not_le, allocRounds_le_iff, Stops, not_or, Int.not_le, Int.not_le]

/-- **The loop** allocates one inode and 15 data blocks in each of its rounds. -/
theorem allocLoop_eq (remainingSpace : Int) : ∀ (rounds k : Nat) (sb : Superblock),
    k ≤ allocRounds remainingSpace → allocRounds remainingSpace ≤ k + rounds →
    allocLoop remainingSpace rounds (spaceAfter k) (allocationUnit * k) sb =
      { sb with
        numInodes := sb.numInodes + BitVec.ofNat 32 (allocRounds remainingSpace - k)
        numDataBlocks := sb.numDataBlocks + BitVec.ofNat 32 (15 * (allocRounds remainingSpace - k)) }
  | 0, k, sb, h1, h2 => by
    rw [allocLoop, show allocRounds remainingSpace - k = 0 by omega]
    simp
  | rounds + 1, k, sb, h1, h2 => by
    have htotal : allocationUnit * (k : Int) + allocationUnit = allocationUnit * ((k : Int) + 1) := by ring
    simp only [allocLoop, htotal]
    by_cases hk : k < allocRounds remainingSpace
    · obtain ⟨hspace, halloc⟩ := lt_allocRounds_iff.1 hk
      have ih := allocLoop_eq remainingSpace rounds (k + 1)
        { sb with numInodes := sb.numInodes + 1, numDataBlocks := sb.numDataBlocks + 15 } hk (by omega)
      rw [spaceAfter_succ, Nat.cast_add_one] at ih
      rw [if_pos hspace, if_pos halloc, ih]
      obtain ⟨m, hm⟩ := Nat.exists_eq_add_of_lt hk
      rw [hm, show k + m + 1 - (k + 1) = m by omega, show k + m + 1 - k = m + 1 by omega]
      have hinodes : sb.numInodes + 1 + BitVec.ofNat 32 m = sb.numInodes + BitVec.ofNat 32 (m + 1) := by
        rw [BitVec.add_assoc, Nat.add_comm m, BitVec.ofNat_add]
        rfl
      have hdata : sb.numDataBlocks + 15 + BitVec.ofNat 32 (15 * m) =
          sb.numDataBlocks + BitVec.ofNat 32 (15 * (m + 1)) := by
        rw [BitVec.add_assoc, Nat.mul_succ, Nat.add_comm (15 * m), BitVec.ofNat_add]
        rfl
      simp only [hinodes, hdata]
    · have hzero : allocRounds remainingSpace - k = 0 := by omega
      have hstop : Stops remainingSpace k := allocRounds_le_iff.1 (Nat.not_lt.1 hk)
      have hsame : sb = { sb with
          numInodes := sb.numInodes + BitVec.ofNat 32 0
          numDataBlocks := sb.numDataBlocks + BitVec.ofNat 32 (15 * 0) } := by
        simp
      rw [hzero, ← hsame]
      rcases hstop with h | h
      · rw [if_neg (Int.not_lt.2 h)]
      · rw [if_neg (Int.not_lt.2 h), ite_self]

/-- The rounds that the model allows are enough. -/
theorem allocRounds_le_toNat (remainingSpace : Int) : allocRounds remainingSpace ≤ remainingSpace.toNat :=
  allocRounds_le_iff.2 (stops_toNat remainingSpace)

/-- **The counts `formatDisk` sets.** -/
theorem formatSBlock_counts (diskSize : Int) :
    (formatSBlock diskSize Superblock.zero).numInodes = BitVec.ofNat 32 (allocRounds (diskSize - sizeofSuperblock)) ∧
    (formatSBlock diskSize Superblock.zero).numDataBlocks =
      BitVec.ofNat 32 (15 * allocRounds (diskSize - sizeofSuperblock)) := by
  have hloop := allocLoop_eq (diskSize - sizeofSuperblock) (diskSize - sizeofSuperblock).toNat 0
    { Superblock.zero with
      numInodesPerBlock := BitVec.ofNat 32 (BLOCK_SIZE / sizeofFcb)
      inodeStartIndex := BitVec.ofNat 32 (1 + sizeofSuperblock / BLOCK_SIZE) }
    (Nat.zero_le _) (by rw [Nat.zero_add]; exact allocRounds_le_toNat _)
  rw [show spaceAfter 0 = 0 from rfl, Int.natCast_zero, Int.mul_zero, Nat.sub_zero] at hloop
  simp only [formatSBlock, hloop]
  exact ⟨BitVec.zero_add _, BitVec.zero_add _⟩

/-! ## In the range of an `int` -/

def INT_MAX : Int := 2 ^ 31 - 1

theorem toInt_ofNat_int {n : Nat} (hn : n < 2 ^ 31) : (BitVec.ofNat 32 n).toInt = n := by
  rw [BitVec.toInt_ofNat', Int.bmod_eq_of_le (by omega) (by omega)]

/-- No `int` is a size for more than 264 rounds. -/
theorem allocRounds_le {diskSize : Int} (hd : diskSize ≤ INT_MAX) :
    allocRounds (diskSize - sizeofSuperblock) ≤ 264 := by
  have hspace : spaceAfter 264 = 2149311120 := by decide
  have hmax : INT_MAX = 2147483647 := by decide
  have hsb : (sizeofSuperblock : Int) = 11744 := rfl
  exact allocRounds_le_iff.2 (.inl (by omega))

theorem toInt_counts {diskSize : Int} (hd : diskSize ≤ INT_MAX) :
    (formatSBlock diskSize Superblock.zero).numInodes.toInt = allocRounds (diskSize - sizeofSuperblock) ∧
    (formatSBlock diskSize Superblock.zero).numDataBlocks.toInt = 15 * allocRounds (diskSize - sizeofSuperblock) := by
  have hle := allocRounds_le hd
  obtain ⟨hinodes, hdata⟩ := formatSBlock_counts diskSize
  rw [hinodes, hdata, toInt_ofNat_int (by omega), toInt_ofNat_int (by omega)]
  exact ⟨rfl, by push_cast; rfl⟩

/-- A value assigned to an `int`; `none` above `INT_MAX`. -/
def toInt32? (z : Int) : Option Int := if z ≤ INT_MAX then some z else none

theorem toInt32?_eq {z : Int} (hz : z ≤ INT_MAX) : toInt32? z = some z := if_pos hz

/-- The allocation loop with each assignment to an `int` checked, and the two counts it ends with;
`none` is an overflow, or that `rounds` rounds are not enough. -/
def allocLoop? (remainingSpace : Int) :
    (rounds : Nat) → (spaceUsed currAllocation numInodes numDataBlocks : Int) → Option (Int × Int)
  | 0, _, _, _, _ => none
  | rounds + 1, spaceUsed, currAllocation, numInodes, numDataBlocks =>
    if spaceUsed < remainingSpace then do
      let currAllocation ← toInt32? (currAllocation + allocationUnit)
      if currAllocation < remainingSpace then do
        let spaceUsed ← toInt32? (spaceUsed + currAllocation)
        let numInodes ← toInt32? (numInodes + 1)
        let numDataBlocks ← toInt32? (numDataBlocks + 15)
        allocLoop? remainingSpace rounds spaceUsed currAllocation numInodes numDataBlocks
      else some (numInodes, numDataBlocks)
    else some (numInodes, numDataBlocks)

/-- Nothing overflows as long as the last sum and the total behind it fit. -/
theorem allocLoop?_eq {remainingSpace : Int} (hspace : spaceAfter (allocRounds remainingSpace) ≤ INT_MAX)
    (htotal : allocationUnit * (allocRounds remainingSpace + 1) ≤ INT_MAX) : ∀ (rounds k : Nat),
    k ≤ allocRounds remainingSpace → allocRounds remainingSpace < k + rounds →
    allocLoop? remainingSpace rounds (spaceAfter k) (allocationUnit * k) k (15 * k) =
      some ((allocRounds remainingSpace : Int), 15 * (allocRounds remainingSpace : Int))
  | 0, k, h1, h2 => by omega
  | rounds + 1, k, h1, h2 => by
    have hnext : allocationUnit * (k : Int) + allocationUnit = allocationUnit * ((k : Int) + 1) := by ring
    rw [allocLoop?, hnext]
    by_cases hk : k < allocRounds remainingSpace
    · obtain ⟨hlt, halloc⟩ := lt_allocRounds_iff.1 hk
      have htotal' : allocationUnit * ((k : Int) + 1) ≤ INT_MAX := by
        rw [allocationUnit_eq] at htotal ⊢
        omega
      have hspace' : spaceAfter k + allocationUnit * ((k : Int) + 1) ≤ INT_MAX := by
        rw [← spaceAfter_succ]
        exact Int.le_trans (spaceAfter_mono hk) hspace
      have hcount : (k : Int) + 1 ≤ INT_MAX ∧ 15 * (k : Int) + 15 ≤ INT_MAX := by
        rw [allocationUnit_eq] at htotal'
        omega
      have ih := allocLoop?_eq hspace htotal rounds (k + 1) hk (by omega)
      rw [spaceAfter_succ, Nat.cast_add_one, show 15 * ((k : Int) + 1) = 15 * (k : Int) + 15 by ring] at ih
      simp only [hlt, halloc, if_true, toInt32?_eq htotal', toInt32?_eq hspace', toInt32?_eq hcount.1,
        toInt32?_eq hcount.2, Option.bind_eq_bind, Option.bind_some, ih]
    · have hkeq : k = allocRounds remainingSpace := by omega
      rcases allocRounds_le_iff.1 (Nat.not_lt.1 hk) with h | h
      · rw [if_neg (Int.not_lt.2 h), hkeq]
      · rw [← hkeq] at htotal
        rw [toInt32?_eq htotal, Option.bind_eq_bind, Option.bind_some, if_neg (Int.not_lt.2 h), ite_self, hkeq]

/-! ## Inside the tables -/

/-- The sizing is safe: the loop ends with no `int` in it above `INT_MAX`, and the two counts fit
`inodes[]` and the bitmaps. -/
structure SizingInRange (diskSize : Int) : Prop where
  terminates : ∃ rounds, allocLoop? (diskSize - sizeofSuperblock) rounds 0 0 0 0 =
    some ((formatSBlock diskSize Superblock.zero).numInodes.toInt,
      (formatSBlock diskSize Superblock.zero).numDataBlocks.toInt)
  numInodes : (formatSBlock diskSize Superblock.zero).numInodes.toInt ≤ TABLE_SIZE
  numDataBlocks : (formatSBlock diskSize Superblock.zero).numDataBlocks.toInt ≤ MAX_BLOCKS

/-- `inodes[]` is long enough up to this size. -/
theorem allocRounds_le_size_iff {diskSize : Int} :
    allocRounds (diskSize - sizeofSuperblock) ≤ TABLE_SIZE ↔ diskSize ≤ 310303944 := by
  have hspace : spaceAfter TABLE_SIZE = 310292200 := by decide
  have hsb : (sizeofSuperblock : Int) = 11744 := rfl
  have hsize : ((TABLE_SIZE : Nat) : Int) = 100 := rfl
  rw [allocRounds_le_iff, Stops, allocationUnit_eq]
  omega

/-- **The sizing is safe exactly up to 310303944 bytes.** -/
theorem sizingInRange_iff {diskSize : Int} (hd : diskSize < 2 ^ 31) :
    SizingInRange diskSize ↔ diskSize ≤ 310303944 := by
  obtain ⟨hinodes, hdata⟩ := toInt_counts (show diskSize ≤ INT_MAX by rw [INT_MAX]; omega)
  rw [← allocRounds_le_size_iff]
  constructor
  · intro h
    have hle := h.numInodes
    rw [hinodes] at hle
    exact Int.ofNat_le.1 hle
  · intro h
    change allocRounds (diskSize - sizeofSuperblock) ≤ 100 at h
    have hmax : INT_MAX = 2147483647 := by decide
    have hspace : spaceAfter (allocRounds (diskSize - sizeofSuperblock)) ≤ INT_MAX :=
      Int.le_trans (spaceAfter_mono h) (by decide)
    have htotal : allocationUnit * (allocRounds (diskSize - sizeofSuperblock) + 1) ≤ INT_MAX := by
      rw [allocationUnit_eq]
      omega
    refine ⟨⟨allocRounds (diskSize - sizeofSuperblock) + 1, ?_⟩, ?_, ?_⟩
    · rw [hinodes, hdata]
      exact allocLoop?_eq hspace htotal _ 0 (Nat.zero_le _) (by omega)
    · rw [hinodes]
      exact Int.ofNat_le.2 h
    · rw [hdata]
      change 15 * (allocRounds (diskSize - sizeofSuperblock) : Int) ≤ 5859
      omega

theorem sizingInRange_three : SizingInRange 200000 ↔ (200000 : Int) ≤ 310303944 :=
  sizingInRange_iff (by decide)

/-- One byte more, and there are 101 inodes. -/
theorem sizingInRange_fails : ¬ SizingInRange 310303945 := by
  intro h
  have hle := h.numInodes
  rw [(toInt_counts (by decide)).1] at hle
  have hround : 100 < allocRounds (310303945 - sizeofSuperblock) := lt_allocRounds_iff.2 (by decide)
  change (allocRounds (310303945 - sizeofSuperblock) : Int) ≤ 100 at hle
  omega

/-! ## What the disk has room for -/

/-- The blocks that the superblock area, the inodes and their data take with `n` inodes. -/
def blocksFor (sb : Superblock) (n : Int) : Int :=
  sb.inodeStartIndex.toInt + (n + sb.numInodesPerBlock.toInt - 1) / sb.numInodesPerBlock.toInt + 15 * n

/-- The counts fit the disk, and use it. -/
structure GeometryExact (diskSize : Int) : Prop where
  dataBlocks : (formatSBlock diskSize Superblock.zero).numDataBlocks.toInt =
    15 * (formatSBlock diskSize Superblock.zero).numInodes.toInt
  fits : blocksFor (formatSBlock diskSize Superblock.zero) (formatSBlock diskSize Superblock.zero).numInodes.toInt *
    BLOCK_SIZE ≤ diskSize
  uses : (formatSBlock diskSize Superblock.zero).numInodes.toInt = TABLE_SIZE ∨
    diskSize < blocksFor (formatSBlock diskSize Superblock.zero)
      ((formatSBlock diskSize Superblock.zero).numInodes.toInt + 1) * BLOCK_SIZE

theorem blocksFor_formatSBlock (diskSize n : Int) :
    blocksFor (formatSBlock diskSize Superblock.zero) n = 3 + (n + 3) / 4 + 15 * n := by
  obtain ⟨m, k, hsb⟩ := formatSBlock_eq diskSize Superblock.zero
  have hstart : (3 : BitVec 32).toInt = 3 := by decide
  have hper : (4 : BitVec 32).toInt = 4 := by decide
  rw [hsb, blocksFor]
  simp only [hstart, hper]
  omega

/-- Every allocation fits; from three inodes on there is room for another one. -/
theorem allocRounds_room {diskSize : Int} (hd : 262144 ≤ diskSize) {n : Nat}
    (hn : n = allocRounds (diskSize - sizeofSuperblock)) :
    (3 + ((n : Int) + 3) / 4 + 15 * n) * BLOCK_SIZE ≤ diskSize ∧
    (3 + ((n : Int) + 1 + 3) / 4 + 15 * (n + 1)) * BLOCK_SIZE ≤ diskSize := by
  have hsb : (sizeofSuperblock : Int) = 11744 := rfl
  have hthree : 2 < n := by
    rw [hn, lt_allocRounds_iff, allocationUnit_eq, show spaceAfter 2 = 184332 by decide]
    omega
  obtain ⟨m, rfl⟩ : ∃ m, n = m + 3 := ⟨n - 3, by omega⟩
  -- the loop has gone through the round before
  have hround : m + 2 < allocRounds (diskSize - sizeofSuperblock) := by omega
  have hspace := (lt_allocRounds_iff.1 hround).1
  rw [spaceAfter, allocationUnit_eq] at hspace
  change (3 + (((m + 3 : Nat) : Int) + 3) / 4 + 15 * ((m + 3 : Nat) : Int)) * 4096 ≤ diskSize ∧
    (3 + (((m + 3 : Nat) : Int) + 1 + 3) / 4 + 15 * (((m + 3 : Nat) : Int) + 1)) * 4096 ≤ diskSize
  by_cases hm : m = 0
  · subst hm
    constructor <;> (norm_num; omega)
  · have htriangle : 3 * (m + 3) ≤ 2 * ((m + 2) * (m + 2 + 1) / 2) + 1 := by
      have hsq : 3 * (m + 3) ≤ (m + 2) * (m + 2 + 1) := by nlinarith [Nat.one_le_iff_ne_zero.2 hm]
      omega
    generalize (m + 2) * (m + 2 + 1) / 2 = triangle at hspace htriangle
    omega

/-- **The counts are exact only where they fill `inodes[]`.** -/
theorem geometryExact_iff {diskSize : Int} (hd : 262144 ≤ diskSize) (hmax : diskSize ≤ 314572800) :
    GeometryExact diskSize ↔ 304159545 ≤ diskSize ∧ diskSize ≤ 310303944 := by
  obtain ⟨hinodes, hdata⟩ := toInt_counts (show diskSize ≤ INT_MAX by rw [INT_MAX]; omega)
  obtain ⟨hfits, hroom⟩ := allocRounds_room hd rfl
  have hcount : allocRounds (diskSize - sizeofSuperblock) = TABLE_SIZE ↔
      304159545 ≤ diskSize ∧ diskSize ≤ 310303944 := by
    have hlower : TABLE_SIZE - 1 < allocRounds (diskSize - sizeofSuperblock) ↔ 304159545 ≤ diskSize := by
      have hspace : spaceAfter (TABLE_SIZE - 1) = 304147800 := by decide
      have hsb : (sizeofSuperblock : Int) = 11744 := rfl
      have hsize : ((TABLE_SIZE - 1 : Nat) : Int) = 99 := rfl
      rw [lt_allocRounds_iff, allocationUnit_eq]
      omega
    rw [← hlower, ← allocRounds_le_size_iff]
    exact ⟨fun h => ⟨by rw [h]; decide, Nat.le_of_eq h⟩, fun h => Nat.le_antisymm h.2 h.1⟩
  rw [← hcount]
  constructor
  · intro h
    rcases h.uses with huses | huses
    · rw [hinodes] at huses
      exact Int.ofNat_inj.1 huses
    · rw [hinodes, blocksFor_formatSBlock] at huses
      exact absurd hroom (Int.not_le.2 huses)
  · intro h
    refine ⟨?_, ?_, .inl ?_⟩
    · rw [hinodes, hdata]
    · rw [hinodes, blocksFor_formatSBlock]
      exact hfits
    · rw [hinodes, h]

theorem geometryExact_quarterMiB :
    GeometryExact 262144 ↔ (304159545 : Int) ≤ 262144 ∧ (262144 : Int) ≤ 310303944 :=
  geometryExact_iff (by decide) (by decide)

/-- 256 KiB are exactly four inodes with their blocks; three are allocated. -/
theorem geometryExact_fails : ¬ GeometryExact 262144 := by
  intro h
  obtain ⟨hinodes, _⟩ := toInt_counts (show (262144 : Int) ≤ INT_MAX by decide)
  have hle : allocRounds (262144 - sizeofSuperblock) ≤ 3 := allocRounds_le_iff.2 (by decide)
  have hlt : 2 < allocRounds (262144 - sizeofSuperblock) := lt_allocRounds_iff.2 (by decide)
  have hthree : allocRounds (262144 - sizeofSuperblock) = 3 := by omega
  rw [hthree] at hinodes
  rcases h.uses with huses | huses
  · rw [hinodes] at huses
    exact absurd huses (by decide)
  · rw [hinodes, blocksFor_formatSBlock] at huses
    exact absurd huses (by decide)

end Sfs
