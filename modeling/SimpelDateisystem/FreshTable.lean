import SimpelDateisystem.Flush

/-!
# Does `formatDisk` write a fresh inode table?

The first-time flush fills in a free record in a local copy `curr` of each inode, and writes the
inode itself (`DateiSteuerBlock.c:458-470`); its loop ends one record early. On a fresh process the
records written are zero, so that each says it is inode 0, child of inode 0, and the place of the
last record keeps what was there.

`freshTable_iff`: what it leaves is a fresh table only for two inodes, on a file that already had
the one free record. The superblock and the root are always right: `formatted_root`.
-/

namespace Sfs

open ByteFile CString Cells

/-- Record `i` is in its place and holds an inode without entries, of this name. -/
structure EmptyRecord (bytes : List UInt8) (i : Nat) (name : CStr) : Prop where
  onDisk : inodePos i + sizeofFcb ≤ bytes.length
  fileName : (storedRecord bytes i).name = name
  parentDir : (storedRecord bytes i).dir = []
  fileSize : (storedRecord bytes i).fileSize = 0
  inumber : (storedRecord bytes i).inumber = BitVec.ofNat 16 i
  parentInumber : (storedRecord bytes i).parentInumber = -1
  dirContents : (storedRecord bytes i).dirContents = Vector.replicate MAX_FILES_IN_DIR 0

/-- The disk holds the root directory, and its bit. -/
structure HoldsRoot (count : Nat) (bytes : List UInt8) : Prop where
  root : EmptyRecord bytes 0 [slash]
  rootMode : (storedRecord bytes 0).mode = (S_IFDIR ||| 0o755#32).setWidth 16
  sBlock : sizeofSuperblock ≤ bytes.length
  ibmap : ∀ i < count, (Superblock.codec.dec (read bytes 0 sizeofSuperblock)).ibit i = if i = 0 then 1 else 0

/-- The disk image of a fresh table of `count` inodes. -/
structure FreshTable (count : Nat) (bytes : List UInt8) : Prop where
  holdsRoot : HoldsRoot count bytes
  free : ∀ i, 1 ≤ i → i < count → EmptyRecord bytes i []

/-! ## What `formatDisk` writes -/

/-- A record is determined by its bytes. -/
theorem emptyRecord_congr {bytes bytes' : List UInt8} {i : Nat} {name : CStr}
    (himage : image bytes (inodePos i) sizeofFcb = image bytes' (inodePos i) sizeofFcb)
    (hlen : inodePos i + sizeofFcb ≤ bytes.length → inodePos i + sizeofFcb ≤ bytes'.length)
    (h : EmptyRecord bytes i name) : EmptyRecord bytes' i name := by
  have hstored : storedRecord bytes i = storedRecord bytes' i := by rw [storedRecord, storedRecord, himage]
  obtain ⟨h1, h2, h3, h4, h5, h6, h7⟩ := h
  rw [hstored] at h2 h3 h4 h5 h6 h7
  exact ⟨hlen h1, h2, h3, h4, h5, h6, h7⟩

section format

variable (e : Env) {s : Process}

theorem holdsTable_formatDisk (hio : s.disk.outcomes = []) (h2 : 2 ≤ (formatDisk e s).tbl.count) :
    HoldsTable ((formatting e s).sBlockMemory sizeofSuperblock) (formatting e s).inodeMemory
      ((formatDisk e s).tbl.count - 1) s.disk.bytes (formatDisk e s).disk.bytes := by
  have hfits : ((formatting e s).sBlockMemory sizeofSuperblock).length ≤ inodeStart * BLOCK_SIZE := by
    rw [length_sBlockMemory]; decide
  have hmem := length_inodeMemory (formatting e s)
  rw [disk_formatDisk e h2, (bytes_writeTable hmem _ fun k _ => Disk.full_of_nil hio k _).1]
  exact holdsTable hfits hmem s.disk.bytes _

/-- The record written for a slot is the slot. -/
theorem HoldsTable.storedRecord {s : Process} {sb : List UInt8} {n : Nat} {bytes bytes' : List UInt8}
    (h : HoldsTable sb s.inodeMemory n bytes bytes') {i : Nat} (hi : i < n) :
    inodePos i + sizeofFcb ≤ bytes'.length ∧ storedRecord bytes' i = (s.tbl.inodes i).mapPtr s.base.encode := by
  have hread := h.record i hi
  have hlen := length_inodeMemory s i
  rw [← hlen] at hread
  obtain ⟨hreach, himage⟩ := (read_eq_iff (List.ne_nil_of_length_pos (by rw [hlen]; decide))).1 hread
  rw [hlen] at hreach himage
  exact ⟨hreach, by rw [Sfs.storedRecord, himage, Process.inodeMemory, Codec.dec_enc_self]⟩

variable (hs : s.Fresh)

include hs

theorem inodes_formatting {i : Nat} (hi : i < TABLE_SIZE) : (formatting e s).tbl.inodes i =
    if i = 0 then rootInode e (.zero .null) else .zero .null := by
  simp only [formatting, Table.inodes_setInode]
  by_cases h0 : i = 0
  · rw [if_pos h0, if_pos h0, hs.inodes 0 (by decide)]
  · rw [if_neg h0, if_neg h0, hs.inodes i hi]

theorem ibit_formatting (i : Nat) : (formatting e s).tbl.sBlock.ibit i = if i = 0 then 1 else 0 := by
  obtain ⟨n, m, hsb⟩ := formatSBlock_eq s.diskSize s.tbl.sBlock
  simp only [formatting, Table.sBlock_setInode, hsb]
  rw [Superblock.ibit, peek_poke (0 : Byte) _ i 1 (by decide), hs.sBlock]
  exact if_congr Iff.rfl rfl (peek_replicate _ _)

/-- **The root and its bit are always written.** -/
theorem formatted_root (hio : s.disk.outcomes = []) (h2 : 2 ≤ (formatDisk e s).tbl.count) :
    HoldsRoot (formatDisk e s).tbl.count (formatDisk e s).disk.bytes := by
  have h := holdsTable_formatDisk e hio h2
  have hslot : (formatting e s).tbl.inodes 0 = _ := inodes_formatting e hs (by decide)
  obtain ⟨hreach, hstored⟩ : inodePos 0 + sizeofFcb ≤ (formatDisk e s).disk.bytes.length ∧ _ :=
    h.storedRecord (by omega)
  have hlen := length_sBlockMemory (formatting e s) sizeofSuperblock
  rw [if_pos rfl] at hslot
  rw [hslot] at hstored
  constructor
  case root =>
    constructor
    case onDisk => exact hreach
    all_goals rw [hstored]
    case dirContents => exact Vector.map_replicate
    all_goals rfl
  case rootMode =>
    rw [hstored]
    rfl
  case sBlock =>
    have hne : (formatting e s).sBlockMemory sizeofSuperblock ≠ [] :=
      List.ne_nil_of_length_pos (by rw [hlen]; decide)
    have hreach := ((read_eq_iff hne).1 h.sBlock).1
    rwa [hlen, Nat.zero_add] at hreach
  case ibmap =>
    intro i _
    have hread := h.sBlock
    have hwhole := take_sBlockMemory (formatting e s) (Nat.le_refl sizeofSuperblock)
    rw [List.take_of_length_le (Nat.le_of_eq hlen)] at hwhole
    rw [hlen, hwhole] at hread
    rw [hread, Codec.dec_enc_self, ibit_formatting e hs]

/-- **No other record written is a free one**: its number is 0. -/
theorem not_emptyRecord_formatted (hio : s.disk.outcomes = []) (hsize : (formatDisk e s).tbl.count ≤ TABLE_SIZE)
    {i : Nat} (h1 : 1 ≤ i) (hi : i + 1 < (formatDisk e s).tbl.count) (name : CStr) :
    ¬ EmptyRecord (formatDisk e s).disk.bytes i name := by
  intro hempty
  have hnum := hempty.inumber
  rw [((holdsTable_formatDisk e hio (by omega)).storedRecord (by omega)).2, inodes_formatting e hs (by omega),
    if_neg (by omega)] at hnum
  have hzero := Table.ofNat_inj (x := 0) (by decide) (by omega) hnum
  omega

/-- **When `formatDisk` leaves a fresh table on disk.** -/
theorem freshTable_iff (hio : s.disk.outcomes = []) (h2 : 2 ≤ (formatDisk e s).tbl.count)
    (hsize : (formatDisk e s).tbl.count ≤ TABLE_SIZE) :
    FreshTable (formatDisk e s).tbl.count (formatDisk e s).disk.bytes ↔
      (formatDisk e s).tbl.count = 2 ∧ EmptyRecord s.disk.bytes 1 [] := by
  have hroot := formatted_root e hs hio h2
  have h := holdsTable_formatDisk e hio h2
  have hnot : 1 + 1 < (formatDisk e s).tbl.count → ¬ EmptyRecord (formatDisk e s).disk.bytes 1 [] :=
    fun hi => not_emptyRecord_formatted e hs hio hsize (Nat.le_refl 1) hi []
  generalize (formatDisk e s).tbl.count = count at *
  constructor
  · intro hfresh
    have hone := hfresh.free 1 (Nat.le_refl 1) (by omega)
    have hcount : count = 2 := by
      by_contra hne
      exact hnot (by omega) hone
    subst hcount
    have hlen : (formatDisk e s).disk.bytes.length ≤ max s.disk.bytes.length (inodePos 1) := h.length.2
    have hpos : inodePos 1 < inodePos 1 + sizeofFcb := Nat.lt_add_of_pos_right (by decide)
    refine ⟨rfl, emptyRecord_congr (h.rest 1 (Nat.le_refl 1)) (fun hreach => ?_) hone⟩
    exact (le_max_iff.1 (Nat.le_trans hreach hlen)).resolve_right (Nat.not_le.2 hpos)
  · rintro ⟨rfl, hone⟩
    refine ⟨hroot, fun i h1 hi => ?_⟩
    obtain rfl : i = 1 := by omega
    exact emptyRecord_congr (h.rest 1 (Nat.le_refl 1)).symm (fun hreach => Nat.le_trans hreach h.length.1) hone

end format

/-- An empty file, to be formatted for three inodes. -/
theorem freshTable_three :
    FreshTable (formatted 200000).tbl.count (formatted 200000).disk.bytes ↔
      (formatted 200000).tbl.count = 2 ∧ EmptyRecord [] 1 [] :=
  freshTable_iff ⟨1000, 1000, 0⟩ (Process.fresh_started 200000) rfl justFormatted_three.two_le
    justFormatted_three.le_size

/-- Record 1 says it is inode 0. -/
theorem freshTable_fails : ¬ FreshTable (formatted 200000).tbl.count (formatted 200000).disk.bytes := by
  have hcount : (formatted 200000).tbl.count = 3 := by rw [count_formatted, formatCount_three]
  intro h
  refine not_emptyRecord_formatted ⟨1000, 1000, 0⟩ (Process.fresh_started 200000) rfl
    justFormatted_three.le_size (Nat.le_refl 1) ?_ [] (h.free 1 (Nat.le_refl 1) ?_)
  · change 1 + 1 < (formatted 200000).tbl.count
    rw [hcount]
    decide
  · rw [hcount]
    decide

end Sfs
