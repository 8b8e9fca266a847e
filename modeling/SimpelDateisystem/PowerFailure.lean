import SimpelDateisystem.Interrupted
import SimpelDateisystem.Lifetime

/-!
# A power failure in the middle of a call

A call writes the superblock and then the records, each with two disk calls. When the power fails between
the two, the place holds neither what it did before nor what it was to hold. When it fails anywhere else, the
next process finds a table torn in two: the superblock and the records up to some slot are new, the rest
is old.

* `torn_mount` — which parts are new, by the number of disk calls that went through;
* `power_failure` — the bits of `ibmap` are then as before the call or as after it, and so is what every
  path resolves to: all paths the one or all the other.
-/

namespace Sfs

open Trace ByteFile CString

/-! ## The length of the file -/

/-- A write never shortens the file. -/
theorem le_length_pwrite (d : Disk) (kind : Kind) (object : Object) (buf : List UInt8) (offset : Int) :
    d.bytes.length ≤ (d.pwrite kind object buf offset).2.bytes.length := by
  unfold Disk.pwrite
  split
  · exact le_length_write _ _ _
  · exact Nat.le_refl _

theorem le_length_writePadded (d : Disk) (object : Object) (buf : List UInt8) (offset : Int) :
    d.bytes.length ≤ (d.writePadded object buf offset).2.bytes.length := by
  have hpad := le_length_pwrite d .pad object (List.replicate buf.length digitZero) offset
  unfold Disk.writePadded
  simp only
  split
  · exact Nat.le_trans hpad (le_length_pwrite _ _ _ _ _)
  · exact hpad

theorem le_length_flush (s : Process) :
    s.disk.bytes.length ≤ (flushAllInodesTodisk false s).2.disk.bytes.length := by
  let P (r : Process) : Prop := s.disk.bytes.length ≤ r.disk.bytes.length
  have hsb : P (s.writeSBlock (BLOCK_SIZE * s.tbl.sBlock.inodeStartIndex.toInt).toNat) :=
    le_length_writePadded s.disk .sBlock _ 0
  refine Cursor.loop_invariant (P := P) (fun i block fill r _ hr => ?_) _ _ hsb
  exact Nat.le_trans hr (le_length_writePadded r.disk (.inode i) (r.inodeMemory i) _)

/-! ## A torn table -/

/-- What `t'` has in the places the first `k` disk calls of a flush write, and what `t` has in the others. -/
def torn (t t' : Table) (k : Nat) : Table where
  sBlock := (if k = 0 then t else t').sBlock
  inodes x := (if k ≤ 2 + 2 * x then t else t').inodes x

/-- What holds of both tables holds of the superblock and of each record of the torn one. -/
theorem torn_cases {P : Table → Prop} {t t' : Table} (h : P t) (h' : P t') (c : Prop) [Decidable c] :
    P (if c then t else t') := by
  split
  · exact h
  · exact h'

theorem count_torn {t t' : Table} (h : t.count = t'.count) (k : Nat) : (torn t t' k).count = t.count := by
  change (if k = 0 then t else t').count = t.count
  split
  · rfl
  · exact h.symm

theorem dataless_torn {t t' : Table} (h : t.Dataless) (h' : t'.Dataless) (k : Nat) : (torn t t' k).Dataless where
  dbmap x hx := (torn_cases h h' (k = 0)).dbmap x hx
  fileSize x hx := (torn_cases h h' (k ≤ 2 + 2 * x)).fileSize x hx
  numBlocks x hx := (torn_cases h h' (k ≤ 2 + 2 * x)).numBlocks x hx

theorem agrees_torn {t t' u u' : Table} (h : t.Agrees u) (h' : t'.Agrees u') (k : Nat) :
    (torn t t' k).Agrees (torn u u' k) := by
  refine ⟨?_, fun x hx => ?_⟩
  · change (if k = 0 then t else t').sBlock = (if k = 0 then u else u').sBlock
    split
    · exact h.sBlock
    · exact h'.sBlock
  · change (if k ≤ 2 + 2 * x then t else t').inodes x = (if k ≤ 2 + 2 * x then u else u').inodes x
    split
    · exact h.inodes x hx
    · exact h'.inodes x hx

theorem torn_self (t : Table) (k : Nat) : torn t t k = t := by
  unfold torn
  simp only [ite_self]

/-- A cut between two places leaves each one whole. -/
theorem padded_of_even {m : Nat} (hm : m % 2 = 0) (old new : List UInt8) :
    padded m old new = if m = 0 then old else new := by
  rcases m with _ | _ | m
  · rfl
  · exact absurd hm (by decide)
  · rfl

/-- The process about to make its next call, of whose disk calls the first `k` go through. -/
def failing (s : Process) (k n : Nat) : Process := { s with disk := { s.disk with outcomes := cutAfter k n } }

theorem storedSBlock_eq_image {bytes : List UInt8} (h : sizeofSuperblock ≤ bytes.length) :
    storedSBlock bytes = Superblock.codec.dec (image bytes 0 sizeofSuperblock) := by
  have hread : read bytes 0 sizeofSuperblock = image bytes 0 sizeofSuperblock := read_eq_image_of_le (by omega)
  rw [← hread]
  rfl

section flush

variable {s : Process} {t : Table} {k n : Nat} (h : Durable s) (hinv : t.Inv) (hdata : t.Dataless)
  (htrust : t.sBlock.Trusted) (hcount : t.count = s.tbl.count) (hlast : t.Unused (s.tbl.count - 1))
  (hk : k % 2 = 0) (hn : s.tbl.count < n)

include h hinv htrust hcount hlast hk hn

/-- **A flush of `t` that is cut between two places leaves the torn table.** -/
theorem holds_torn :
    let file := (flushAllInodesTodisk false { failing s k n with tbl := t }).2.disk.bytes
    sizeofSuperblock ≤ file.length ∧ storedSBlock file = (torn s.tbl t k).sBlock ∧
      ∀ x < s.tbl.count, recordAt s.base file x = (torn s.tbl t k).inodes x := by
  intro file
  have hsize := h.inv.le_size
  have hgeo : Process.Geometry { failing s k n with tbl := t } := ⟨htrust.numInodesPerBlock, htrust.inodeStartIndex⟩
  have hcut : CutFlush { failing s k n with tbl := t } k file :=
    cutFlush_of_cut hgeo rfl (by rw [← hcount] at hn; exact hn)
  have hgrows : s.disk.bytes.length ≤ file.length := le_length_flush { failing s k n with tbl := t }
  have hlen := Nat.le_trans h.length hgrows
  refine ⟨hlen, ?_, fun x hx => ?_⟩
  · have himage : image file 0 sizeofSuperblock =
        padded k (image s.disk.bytes 0 sizeofSuperblock) (Superblock.codec.enc t.sBlock) := hcut.image_sBlock
    rw [storedSBlock_eq_image hlen, himage, padded_of_even hk]
    change _ = (if k = 0 then s.tbl else t).sBlock
    split
    · rw [← storedSBlock_eq_image h.length, h.sBlock]
    · rw [Codec.dec_enc_self]
  · change _ = (if k ≤ 2 + 2 * x then s.tbl else t).inodes x
    by_cases hxlast : x + 1 < s.tbl.count
    · have himage : image file (inodePos x) sizeofFcb = padded (k - (2 + 2 * x))
            (image s.disk.bytes (inodePos x) sizeofFcb)
            (FileControlBlock.codec.enc ((t.inodes x).mapPtr s.base.encode)) :=
        hcut.record x (by rw [← hcount] at hxlast; exact hxlast)
      rw [recordAt, storedRecord, himage, padded_of_even (by omega)]
      by_cases hcutx : k ≤ 2 + 2 * x
      · rw [if_pos hcutx, if_pos (by omega)]
        exact h.record x hx
      · rw [if_neg hcutx, if_neg (by omega), Codec.dec_enc_self, hinv.mapPtr_self s.base (by omega)]
    · have himage : image file (inodePos x) sizeofFcb = image s.disk.bytes (inodePos x) sizeofFcb :=
        hcut.last x (by change t.count ≤ x + 1; omega)
      have hold : recordAt s.base file x = s.tbl.inodes x := by
        rw [recordAt, storedRecord, himage]
        exact h.record x hx
      obtain rfl : x = s.tbl.count - 1 := by omega
      rw [hold]
      split
      · rfl
      · rw [h.last.record, hlast.record]

include hdata

/-- What the next process makes of it. -/
theorem mount_torn {z : Boot} (hbase : z.process.base = s.base) : (torn s.tbl t k).Agrees
    (z.mount (flushAllInodesTodisk false { failing s k n with tbl := t }).2.disk.bytes).tbl := by
  obtain ⟨hlen, hsb, hrecord⟩ := holds_torn h hinv htrust hcount hlast hk hn
  have htorn := count_torn hcount.symm k
  have hsize := h.inv.le_size
  refine agrees_mount (dataless_torn h.dataless hdata k) ?_ (by rw [htorn]; exact hsize) (fun x hx hlt => ?_) hlen hsb
    (by rw [htorn, hbase]; exact hrecord)
  · change (if k = 0 then s.tbl else t).sBlock.Trusted
    exact torn_cases (P := fun u => u.sBlock.Trusted) h.trusted htrust (k = 0)
  · rw [htorn] at hx
    exact torn_cases (P := fun u => u.inodes x = .zero .null) (h.inv.record_of_le hx hlt)
      (hinv.record_of_le (by rw [hcount]; exact hx) hlt) (k ≤ 2 + 2 * x)

end flush

/-! ## A request -/

theorem count_requestStep {s : Process} (h : Durable s) (r : Request) : (requestStep s r).tbl.count = s.tbl.count := by
  have hresident : Resident s s := ⟨h.inv, h.geometry, rfl, rfl⟩
  rw [tbl_requestStep]
  cases r.call with
  | none => rfl
  | some c => exact (hresident.fuseStep c).count

/-- **After a request that is cut between two places, the next process finds the torn table.** -/
theorem torn_mount {s : Process} (h : Durable s) {r : Request} (hlast : SparesLast s r) {k n : Nat} (hk : k % 2 = 0)
    (hn : s.tbl.count < n) {z : Boot} (hbase : z.process.base = s.base) :
    (torn s.tbl (requestStep s r).tbl k).Agrees (z.mount (requestStep (failing s k n) r).disk.bytes).tbl := by
  have hsize := h.inv.le_size
  have h2 := h.inv.two_le
  cases hcall : r.call with
  | none =>
    obtain ⟨errno, heq⟩ := exec_of_not_change (s := failing s k n) hcall
    obtain ⟨errno', heq'⟩ := exec_of_not_change (s := s) hcall
    rw [heq, heq', torn_self]
    exact (h.mount hbase).2.1
  | some c =>
    rw [requestStep_of_call hcall, requestStep_of_call hcall]
    have hnext : Durable (fuseStep s c) := h.fuseStep (hlast.not_takes hcall)
    have hcount := count_requestStep h r
    rw [requestStep_of_call hcall] at hcount
    -- the disk makes no difference to the table
    have hstart : s.tbl.Agrees (failing s k n).tbl := Table.Agrees.refl s.tbl
    have hsame := agrees_fuseStep hstart h.inv c
    refine (agrees_torn (Table.Agrees.refl s.tbl) hsame k).trans ?_
    obtain ⟨errno, heq | heq⟩ := fuseStep_flush (s := failing s k n) h.inv c
    · rw [heq]
      change (torn s.tbl s.tbl k).Agrees (z.mount s.disk.bytes).tbl
      rw [torn_self]
      exact (h.mount hbase).2.1
    · have htorn := mount_torn h (t := (fuseStep (failing s k n) c).tbl) (hsame.inv hnext.inv)
        (hsame.dataless hnext.dataless) (hsame.sBlock ▸ hnext.trusted) (hsame.count.symm.trans hcount)
        (hsame.unused (by omega) (by rw [← hcount]; exact hnext.last)) hk hn hbase
      have hbytes : (fuseStep (failing s k n) c).disk.bytes = (flushAllInodesTodisk false
          { failing s k n with tbl := (fuseStep (failing s k n) c).tbl }).2.disk.bytes :=
        congrArg (fun u => u.disk.bytes) heq
      rw [hbytes]
      exact htorn

/-- A request changes the names of one slot at most. -/
theorem names_requestStep {s : Process} (h : s.tbl.Inv) (r : Request) : ∃ i, ∀ x, x ≠ i →
    ((requestStep s r).tbl.inodes x).name = (s.tbl.inodes x).name ∧
    ((requestStep s r).tbl.inodes x).dir = (s.tbl.inodes x).dir := by
  rw [tbl_requestStep]
  cases hcall : r.call with
  | none => exact ⟨0, fun x _ => ⟨rfl, rfl⟩⟩
  | some c =>
    rw [Option.elim_some]
    by_cases hc : c.NonRoot
    · rcases fuseStep_cases h hc with ⟨p, mode, i, parent, _, htbl⟩ | ⟨p, f, hp, hf, htbl⟩ | ⟨_, _, htbl⟩ <;> rw [htbl]
      · refine ⟨i, fun x hx => ?_⟩
        rw [Table.name_created, Table.dir_created, if_neg hx, if_neg hx]
        exact ⟨rfl, rfl⟩
      · obtain ⟨_, _, hu⟩ := h.lookup_used hp hf.2
        have hlast := h.lastFilledLast _ (h.parentOf_lt_size hu)
        exact ⟨0, fun x _ => ⟨Table.name_removed hlast x, Table.dir_removed hlast x⟩⟩
      · exact ⟨0, fun x _ => ⟨rfl, rfl⟩⟩
    · rw [tbl_fuseStep_root h hc]
      exact ⟨0, fun x _ => ⟨rfl, rfl⟩⟩

/-- **Every path resolves as before the request, or every path resolves as after it.** -/
theorem lookup_torn {t t' : Table} (hcount : t.count = t'.count) {i : Nat} (hnames : ∀ x, x ≠ i →
      (t'.inodes x).name = (t.inodes x).name ∧ (t'.inodes x).dir = (t.inodes x).dir) (k : Nat) (p : AbsPath) :
    (torn t t' k).lookup p = (if k ≤ 2 + 2 * i then t else t').lookup p := by
  have htorn := count_torn hcount k
  refine Table.lookup_congr ?_ (fun x _ => ?_) p
  · split
    · exact htorn
    · exact htorn.trans hcount
  · change ((if k ≤ 2 + 2 * x then t else t').inodes x).name = _ ∧ ((if k ≤ 2 + 2 * x then t else t').inodes x).dir = _
    by_cases hx : x = i
    · rw [hx]
      exact ⟨rfl, rfl⟩
    · obtain ⟨hname, hdir⟩ := hnames x hx
      constructor <;> split <;> split <;> simp only [hname, hdir]

/-- **A power failure between two places**, in the last request of a volume's life: the next process finds
the superblock and each record as before the request or as after it; the bits are all the ones or all the
others, and so is what the paths resolve to. For 97 to 100 inodes it is assumed that none of the other globals
lies behind `inodes[99]` (`Table.store`). -/
theorem power_failure {s : Process} (hs : s.Pristine) {zs : List (Restart × List Request)}
    (hbase : ∀ z ∈ zs, z.1.boot.process.base = s.base)
    (hrun : EachStep requestStep SparesLast s (zs.flatMap Prod.snd)) {r : Request}
    (hlast : SparesLast (sessions restart requestStep s zs) r) {k n : Nat} (hk : k % 2 = 0)
    (hn : (sessions restart requestStep s zs).tbl.count < n) {z : Boot} (hz : z.process.base = s.base) :
    let u := sessions restart requestStep s zs
    let t := u.tbl
    let t' := (requestStep u r).tbl
    let v := (z.mount (requestStep (failing u k n) r).disk.bytes).tbl
    (torn t t' k).Agrees v ∧ (v.sBlock.ibmap = t.sBlock.ibmap ∨ v.sBlock.ibmap = t'.sBlock.ibmap) ∧
      ((∀ p, v.lookup p = t.lookup p) ∨ ∀ p, v.lookup p = t'.lookup p) := by
  intro u t t' v
  have h : SameVolume s.base u (exec requestStep s (zs.flatMap Prod.snd)) := sameVolume_sessions hs hbase hrun
  have hcount : t.count = t'.count := (count_requestStep h.durable r).symm
  have hagrees : (torn t t' k).Agrees v := torn_mount h.durable hlast hk hn (hz.trans h.base.symm)
  obtain ⟨i, hnames⟩ := names_requestStep h.durable.inv r
  have hsize : (torn t t' k).count ≤ TABLE_SIZE := by
    rw [count_torn hcount]
    exact h.durable.inv.le_size
  refine ⟨hagrees, ?_, ?_⟩
  · rw [← hagrees.sBlock]
    change (if k = 0 then t else t').sBlock.ibmap = _ ∨ (if k = 0 then t else t').sBlock.ibmap = _
    split
    · exact .inl rfl
    · exact .inr rfl
  · have hlookup : ∀ p, v.lookup p = (if k ≤ 2 + 2 * i then t else t').lookup p := fun p =>
      (hagrees.lookup hsize p).symm.trans (lookup_torn hcount hnames k p)
    by_cases hcut : k ≤ 2 + 2 * i
    · exact .inl fun p => by rw [hlookup, if_pos hcut]
    · exact .inr fun p => by rw [hlookup, if_neg hcut]

theorem power_failure_threeProcesses :
    let u := sessions restart requestStep (formatted 200000) threeProcesses
    let t := u.tbl
    let t' := (requestStep u lastRequest).tbl
    let v := ((bootAt (Process.started 200000).base).mount
      (requestStep (failing u 4 (u.tbl.count + 1)) lastRequest).disk.bytes).tbl
    (torn t t' 4).Agrees v ∧ (v.sBlock.ibmap = t.sBlock.ibmap ∨ v.sBlock.ibmap = t'.sBlock.ibmap) ∧
      ((∀ p, v.lookup p = t.lookup p) ∨ ∀ p, v.lookup p = t'.lookup p) :=
  power_failure (k := 4) pristine_three threeProcesses_base threeProcesses_run (lastRequest_sparesLast _) (by decide)
    (Nat.lt_add_one _) (z := bootAt (Process.started 200000).base) (base_formatted 200000).symm

end Sfs
