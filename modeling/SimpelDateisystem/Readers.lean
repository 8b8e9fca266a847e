import SimpelDateisystem.Lifetime

/-!
# Processes loaded elsewhere

The addresses in `dirContents` mean something only in a process loaded where they were written. A lookup
does not read them, and a flush writes back what the mount has read. So a process that neither creates,
removes nor lists may be loaded anywhere: it answers as the one that wrote the disk would, and leaves the disk
to the next writer. A listing follows the addresses, and goes astray.

* `Serves` — a process of a volume whose writers are loaded at `b`;
* `readers_lifetime` — writers at one address, and readers at any, one after the other.
-/

namespace Sfs

open Trace ByteFile CString

/-- `s` is a process of the volume, loaded anywhere; `t` is one that never ends, at the address of the writers. -/
structure Serves (b : LoadAddress) (s t : Process) : Prop where
  /-- The disk holds the table of `t`. -/
  durable : Durable { s with base := b, tbl := t.tbl }
  sBlock : s.tbl.sBlock = t.tbl.sBlock
  /-- The slots are the records, read at the address of `s`. -/
  record : ∀ x < t.tbl.count, s.tbl.inodes x = recordAt s.base s.disk.bytes x
  behind : ∀ x, t.tbl.count ≤ x → x < TABLE_SIZE → s.tbl.inodes x = .zero .null

theorem SameVolume.serves {b : LoadAddress} {s t : Process} (h : SameVolume b s t) : Serves b s t := by
  have hcount := h.agrees.count
  have hdurable : Durable { s with base := b, tbl := t.tbl } :=
    h.durable.congr h.agrees h.base.symm rfl h.durable.outcomes
  refine ⟨hdurable, h.agrees.sBlock, fun x hx => ?_, fun x hx hsize => ?_⟩
  · rw [h.durable.record x (by omega)]
  · exact h.durable.inv.record_of_le (by omega) hsize

namespace Serves

variable {b : LoadAddress} {s t : Process} (h : Serves b s t)

include h

theorem count : s.tbl.count = t.tbl.count := by
  rw [Table.count, h.sBlock, Table.count]

/-- At the address of the writers it is one of them. -/
theorem sameVolume (hbase : s.base = b) : SameVolume b s t := by
  have hagrees : t.tbl.Agrees s.tbl := by
    refine ⟨h.sBlock.symm, fun x hsize => ?_⟩
    by_cases hx : x < t.tbl.count
    · rw [h.record x hx, hbase]
      exact (h.durable.record x hx).symm
    · rw [h.behind x (by omega) hsize]
      exact h.durable.inv.record_of_le (by change t.tbl.count ≤ x; omega) hsize
  exact ⟨hbase, h.durable.congr hagrees hbase rfl h.durable.outcomes, hagrees.symm⟩

/-- What lookups and attributes are read from. -/
theorem sameFiles : s.tbl.SameFiles t.tbl := by
  refine ⟨h.count, fun x hx => ?_⟩
  rw [h.count] at hx
  have hrecord : recordAt b s.disk.bytes x = t.tbl.inodes x := h.durable.record x hx
  rw [h.record x hx, ← hrecord, recordAt, recordAt, sameRecord_mapPtr]
  exact ⟨rfl, rfl, rfl, rfl, rfl, rfl, rfl, rfl, rfl⟩

/-- Another process on a disk file with the same superblock and the same records. -/
theorem congr {s' : Process} (hlen : sizeofSuperblock ≤ s'.disk.bytes.length)
    (hsb : storedSBlock s'.disk.bytes = storedSBlock s.disk.bytes)
    (himage : ∀ x, image s'.disk.bytes (inodePos x) sizeofFcb = image s.disk.bytes (inodePos x) sizeofFcb)
    (hout : s'.disk.outcomes = []) (hsame : s'.tbl.sBlock = s.tbl.sBlock)
    (hrecord : ∀ x < t.tbl.count, s'.tbl.inodes x = recordAt s'.base s'.disk.bytes x)
    (hbehind : ∀ x, t.tbl.count ≤ x → x < TABLE_SIZE → s'.tbl.inodes x = .zero .null) : Serves b s' t := by
  obtain ⟨hinv, hdata, htrust, _, _, hstored, hheld, hlast⟩ := h.durable
  refine ⟨⟨hinv, hdata, htrust, hout, hlen, hsb.trans hstored, fun x hx => ?_, hlast⟩, hsame.trans h.sBlock, hrecord,
    hbehind⟩
  change recordAt b s'.disk.bytes x = t.tbl.inodes x
  rw [recordAt, storedRecord, himage]
  exact hheld x hx

theorem destroy : Serves b (sfsDestroy s) t := by
  have hgeo : s.Geometry := by
    constructor <;> rw [h.sBlock]
    · exact h.durable.trusted.numInodesPerBlock
    · exact h.durable.trusted.inodeStartIndex
  have hout : s.disk.outcomes = [] := h.durable.outcomes
  have hcount := h.count
  obtain ⟨hflush, hout'⟩ := flush_complete hgeo hout
  obtain ⟨hlen, hsb⟩ := hflush.storedSBlock
  have himage := image_flush hgeo hout fun i hi => h.record i (by omega)
  refine h.congr hlen ?_ himage hout' ?_ (fun x hx => ?_) fun x hx hsize => ?_
  · exact (hsb.trans h.sBlock).trans h.durable.sBlock.symm
  · rw [sfsDestroy, tbl_flush]
  · have hsame := h.record x hx
    rw [recordAt, storedRecord, ← himage] at hsame
    rw [sfsDestroy, tbl_flush, hsame, flushAllInodesTodisk_false]
    rfl
  · rw [sfsDestroy, tbl_flush]
    exact h.behind x hx hsize

theorem mount (z : Boot) : Serves b (z.mount s.disk.bytes) t ∧ (z.mount s.disk.bytes).base = z.process.base := by
  have hsb : storedSBlock s.disk.bytes = t.tbl.sBlock := h.durable.sBlock
  have hlen : sizeofSuperblock ≤ s.disk.bytes.length := h.durable.length
  have hmount : MountedFrom s.disk.bytes z.process.base (z.mount s.disk.bytes) :=
    z.mounted ⟨hlen, hsb.symm ▸ h.durable.trusted⟩
  have hcount : storedCount s.disk.bytes = t.tbl.count := by rw [storedCount, hsb, Table.count]
  have hmarked : marked s.disk.bytes = t.tbl.sBlock :=
    marked_of_dataless h.durable.dataless h.durable.inv.le_size hsb h.durable.record
  refine ⟨h.congr ?_ ?_ (fun x => ?_) hmount.outcomes ?_ (fun x hx => ?_) fun x hx => ?_, hmount.base⟩
  · rwa [hmount.bytes]
  · rw [hmount.bytes]
  · rw [hmount.bytes]
  · rw [hmount.sBlock, hmarked, h.sBlock]
  · rw [hmount.record x (by omega), hmount.bytes, hmount.base]
  · exact hmount.behind x (by omega)

theorem restart (r : Restart) : Serves b (restart s r) t ∧ (Sfs.restart s r).base = r.boot.process.base := by
  unfold Sfs.restart
  split
  · exact h.destroy.mount r.boot
  · exact h.mount r.boot

/-- A request that changes nothing. -/
theorem ask {r : Request} (hr : r.Asks) : Serves b (requestStep s r) (requestStep t r) := by
  obtain ⟨errno, heq⟩ := exec_of_not_change (s := s) hr.call
  obtain ⟨errno', heq'⟩ := exec_of_not_change (s := t) hr.call
  rw [heq, heq']
  exact ⟨h.durable.congr (Table.Agrees.refl t.tbl) rfl rfl h.durable.outcomes, h.sBlock, h.record, h.behind⟩

/-- **A session**, of a writer or of a reader. -/
theorem session {z : Restart × List Request} (hz : z.1.boot.process.base = b ∨ ∀ r ∈ z.2, r.Asks)
    (hr : EachStep requestStep SparesLast t z.2) :
    Serves b (exec requestStep (Sfs.restart s z.1) z.2) (exec requestStep t z.2) := by
  obtain ⟨hstart, hbase⟩ := h.restart z.1
  rcases hz with hwriter | hreader
  · have hany : EachStep requestStep (fun _ _ => True) (Sfs.restart s z.1) z.2 :=
      eachStep_of_forall_mem (G := fun _ => True) _ _ fun _ _ => trivial
    exact (exec_rel (fun _ _ _ h _ hr => h.requestStep hr) (hstart.sameVolume (hbase.trans hwriter)) hany hr).serves
  · have hasks : EachStep requestStep (fun _ r => r.Asks) (Sfs.restart s z.1) z.2 :=
      eachStep_of_forall_mem _ _ hreader
    exact exec_rel (fun _ _ _ h hr _ => h.ask hr) hstart hasks hr

end Serves

/-- **Writers at one address, readers anywhere**: each process of the volume answers what neither changes the
table nor follows its pointers as one process would that had served all requests. At the address of the writers
it has that one's table, and lists what that one would. -/
theorem readers_lifetime {s : Process} (hs : s.Pristine) {zs : List (Restart × List Request)}
    (hzs : ∀ z ∈ zs, z.1.boot.process.base = s.base ∨ ∀ r ∈ z.2, r.Asks)
    (hrun : EachStep requestStep SparesLast s (zs.flatMap Prod.snd)) :
    let u := sessions restart requestStep s zs
    let t := exec requestStep s (zs.flatMap Prod.snd)
    (∀ r : Request, r.Asks → (r.exec u).1 = (r.exec t).1) ∧ (u.base = s.base → u.tbl.Agrees t.tbl ∧
      ∀ p : AbsPath, sfsReaddir p.str u.tbl = sfsReaddir p.str t.tbl) := by
  intro u t
  have hstart : SameVolume s.base s s := ⟨rfl, hs.durable, Table.Agrees.refl s.tbl⟩
  have hend : Serves s.base u t := sessions_rel_of_session (R := Serves s.base) (fun _ _ _ h hz hr => h.session hz hr)
    hstart.serves hzs hrun
  have h2 : 2 ≤ t.tbl.count := hend.durable.inv.two_le
  have hcount := hend.count
  refine ⟨fun r hr => reply_sameFiles hend.sameFiles (by omega) hr, fun hbase => ?_⟩
  have hsame := hend.sameVolume hbase
  exact ⟨hsame.agrees, hsame.agrees.readdir hsame.durable.inv⟩

/-- A writer makes `/a`; a reader, loaded elsewhere, opens it and is unmounted; another writer removes it. -/
def readerBetween : List (Restart × List Request) :=
  [(⟨false, bootAt (Process.started 200000).base⟩, [⟨.change (.mkdir [.a] 493), ⟨1000, 1000, 0⟩⟩]),
    (⟨true, bootAt elsewhere⟩, [⟨.openDir [.a], ⟨1000, 1000, 0⟩⟩]),
    (⟨true, bootAt (Process.started 200000).base⟩, [⟨.change (.rmdir [.a]), ⟨1000, 1000, 0⟩⟩])]

theorem readerBetween_run :
    EachStep requestStep SparesLast (formatted 200000) (readerBetween.flatMap Prod.snd) := by
  decide +kernel

theorem readerBetween_base :
    ∀ z ∈ readerBetween, z.1.boot.process.base = (formatted 200000).base ∨ ∀ r ∈ z.2, r.Asks := by
  rw [base_formatted]
  simp [readerBetween, bootAt, Request.Asks]

theorem readers_lifetime_readerBetween :
    let u := sessions restart requestStep (formatted 200000) readerBetween
    let t := exec requestStep (formatted 200000) (readerBetween.flatMap Prod.snd)
    (∀ r : Request, r.Asks → (r.exec u).1 = (r.exec t).1) ∧
      (u.base = (formatted 200000).base → u.tbl.Agrees t.tbl ∧
        ∀ p : AbsPath, sfsReaddir p.str u.tbl = sfsReaddir p.str t.tbl) :=
  readers_lifetime pristine_three readerBetween_base readerBetween_run

end Sfs
