import SimpelDateisystem.Lifetime

/-!
# What a listing shows

* `listing_run` — in every run that creates on paths that do not resolve, the listing of a directory is read
  off the tray that its creates and removes make (`FuseCall.changes`), however many removes there were, and
  whatever its slot was before;
* `listing_lifetime` — the same where the requests are served by several processes, one after the other;
* `readdir_creation_order` — as long as nothing is removed, it is the names in the order of the creates.
-/

namespace Sfs

open Trace CString

/-- What a call does to the tray of the directory in slot `d`. A remove does not say whose tray the name is on. -/
def FuseCall.changes (d : Nat) (t : Table) (c : FuseCall) : List (Tray.Change Key) :=
  match c.inodeCall with
  | some ⟨.create p _, _⟩ => if t.freeSlot ≠ none ∧ t.lookup p.parent = some d then [.put p.key] else []
  | some ⟨.remove p, _⟩ => [.remove p.key]
  | none => []

def Request.changes (d : Nat) (s : Process) (r : Request) : List (Tray.Change Key) :=
  r.call.elim [] (FuseCall.changes d s.tbl)

section changes

variable {t : Table} {c : FuseCall} {p : AbsPath}

theorem FuseCall.Takes.changes {mode : BitVec 32} {i parent : Nat} (ht : c.Takes t p mode i parent) (d : Nat) :
    c.changes d t = if d = parent then [.put p.key] else [] := by
  obtain ⟨hcall, hi, hparent⟩ := ht
  rw [FuseCall.changes, hcall]
  simp only [hi, hparent, Option.some_inj, eq_comm (a := parent), ne_eq, reduceCtorEq, not_false_iff, true_and]

theorem FuseCall.Frees.changes {f : Nat} (hf : c.Frees t p f) (d : Nat) : c.changes d t = [.remove p.key] := by
  rw [FuseCall.changes, hf.1]

/-- Neither a create nor a remove: a remove of what does not resolve at most. -/
theorem FuseCall.changes_of_neither (htakes : ∀ p mode i parent, ¬ c.Takes t p mode i parent)
    (hfrees : ∀ p f, ¬ c.Frees t p f) (d : Nat) :
    c.changes d t = [] ∨ ∃ p : AbsPath, p ≠ [] ∧ t.lookup p = none ∧ c.changes d t = [.remove p.key] := by
  rw [FuseCall.changes]
  rcases c.inodeCall_cases with hcall | ⟨p, mode, hcall⟩ | ⟨p, hcall, _⟩ <;> rw [hcall]
  · exact .inl rfl
  · refine .inl (if_neg fun ⟨hfree, hparent⟩ => ?_)
    obtain ⟨i, hi⟩ := Option.ne_none_iff_exists'.1 hfree
    exact htakes p mode i d ⟨hcall, hi, hparent⟩
  · have hnone : t.lookup p = none := Option.eq_none_iff_forall_ne_some.2 fun f hf => hfrees p f ⟨hcall, hf⟩
    exact .inr ⟨p, Table.ne_nil_of_lookup_eq_none hnone, hnone, rfl⟩

end changes

/-! ## Runs -/

/-- **One request does to a tray what it says.** -/
theorem tray_requestStep {s : Process} {r : Request} (h : NamesKept s) (hr : NewPathAdmits s r) {d : Nat}
    (hd : d < TABLE_SIZE) : (requestStep s r).tbl.tray d = (s.tbl.tray d).after (r.changes d s) := by
  rw [tbl_requestStep, Request.changes]
  cases hcall : r.call with
  | none => rfl
  | some c =>
    have hnonroot := (hr.call hcall).1
    rw [Option.elim_some, Option.elim_some]
    rcases fuseStep_cases h.inv hnonroot with
      ⟨p, mode, i, parent, ht, htbl⟩ | ⟨p, f, hp, hf, htbl⟩ | ⟨hnt, hnf, htbl⟩ <;> rw [htbl]
    · rw [ht.changes, Table.tray_created h.inv hd ht.2.1]
      split <;> rfl
    · rw [hf.changes, Table.tray_removed h.inv hd h.distinct hp hf.2]
      rfl
    · rcases FuseCall.changes_of_neither hnt hnf d with hno | ⟨p, hp, hnone, hremove⟩
      · rw [hno]
        rfl
      · rw [hremove]
        exact (Tray.remove_of_not_mem fun _ => Table.not_on_tray_of_none h.inv hd hp hnone).symm

/-- The trays after a run. -/
theorem tray_run {s : Process} (hs : s.JustFormatted) {rs : List Request}
    (hrs : EachStep requestStep NewPathAdmits s rs) {d : Nat} (hd : d < TABLE_SIZE) :
    (exec requestStep s rs).tbl.tray d =
      Tray.empty.after (Trace.written requestStep (fun s r => r.changes d s) s rs) := by
  have hstep : ∀ s r l, NamesKept s ∧ s.tbl.tray d = Tray.empty.after l → NewPathAdmits s r →
      NamesKept (requestStep s r) ∧ (requestStep s r).tbl.tray d = Tray.empty.after (l ++ r.changes d s) := by
    intro s r l ⟨h, hl⟩ hr
    rw [tray_requestStep h hr hd, hl, Tray.after_append]
    exact ⟨namesKept_requestStep h hr, rfl⟩
  have hstart : NamesKept s ∧ s.tbl.tray d = Tray.empty.after [] := ⟨hs.namesKept, hs.tbl.tray hd⟩
  obtain ⟨_, htray⟩ := exec_written hstep hstart hrs
  rw [htray, List.nil_append]

/-- **What a directory lists after any run**: what is on its tray, from the front to the first gap. -/
theorem listing_run {s : Process} (hs : s.JustFormatted) {rs : List Request}
    (hrs : EachStep requestStep NewPathAdmits s rs) {p : AbsPath} {d : Nat}
    (hp : (exec requestStep s rs).tbl.lookup p = some d) :
    sfsReaddir p.str (exec requestStep s rs).tbl =
      listingOf (Tray.empty.after (Trace.written requestStep (fun s r => r.changes d s) s rs)) := by
  have hinv : (exec requestStep s rs).tbl.Inv := (namesKept_run hs hrs).inv
  have hd : d < TABLE_SIZE := Nat.lt_of_lt_of_le (hinv.lookup_inumber hp).1 hinv.le_size
  rw [readdir_eq_listingOf hinv hp, tray_run hs hrs hd]

/-- `/a` and `/b` are made, and `/a` is removed: `/b` is behind the gap. -/
def gapRun : List Request :=
  [⟨.change (.create [.a] 0o644), ⟨1000, 1000, 0⟩⟩, ⟨.change (.create [.b] 0o644), ⟨1000, 1000, 0⟩⟩,
    ⟨.change (.unlink [.a]), ⟨1000, 1000, 0⟩⟩]

theorem gapRun_run : EachStep requestStep NewPathAdmits (formatted 200000) gapRun := by decide +kernel

theorem listing_run_gapRun : sfsReaddir (AbsPath.str []) (exec requestStep (formatted 200000) gapRun).tbl =
    listingOf (Tray.empty.after (Trace.written requestStep (fun s r => r.changes 0 s) (formatted 200000) gapRun)) :=
  listing_run justFormatted_three gapRun_run Table.lookup_nil

example : listingOf (Tray.empty.after [.put ([97], [47]), .put ([98], [47]), .remove ([97], [47])]) =
    .done 0 dots := by
  decide

/-! ## Over the processes of a volume -/

/-- **Restarts do not show in a listing**: it is read off the tray that all requests of all processes make. -/
theorem listing_lifetime {s : Process} (hs : s.Pristine) {zs : List (Restart × List Request)}
    (hbase : ∀ z ∈ zs, z.1.boot.process.base = s.base)
    (hrun : EachStep requestStep (fun s r => SparesLast s r ∧ NewPathAdmits s r) s (zs.flatMap Prod.snd))
    {p : AbsPath} {d : Nat} (hp : (sessions restart requestStep s zs).tbl.lookup p = some d) :
    sfsReaddir p.str (sessions restart requestStep s zs).tbl = listingOf (Tray.empty.after
      (Trace.written requestStep (fun s r => r.changes d s) s (zs.flatMap Prod.snd))) := by
  have h := sameVolume_sessions hs hbase (hrun.mono fun _ _ hr => hr.1)
  have hinv := h.durable.inv
  have hd : d < TABLE_SIZE := Nat.lt_of_lt_of_le (hinv.lookup_inumber hp).1 hinv.le_size
  rw [readdir_eq_listingOf hinv hp, h.agrees.tray hinv hd,
    tray_run hs.justFormatted (hrun.mono fun _ _ hr => hr.2) hd]

theorem threeProcesses_newPaths : EachStep requestStep (fun s r => SparesLast s r ∧ NewPathAdmits s r)
    (formatted 200000) (threeProcesses.flatMap Prod.snd) := by
  decide +kernel

theorem listing_lifetime_threeProcesses :
    sfsReaddir (AbsPath.str []) (sessions restart requestStep (formatted 200000) threeProcesses).tbl =
      listingOf (Tray.empty.after (Trace.written requestStep (fun s r => r.changes 0 s) (formatted 200000)
        (threeProcesses.flatMap Prod.snd))) :=
  listing_lifetime pristine_three threeProcesses_base threeProcesses_newPaths Table.lookup_nil

/-! ## Without removes -/

/-- The name the call enters in the directory in slot `d`, if any. -/
def entersName (d : Nat) (s : Process) (c : FuseCall) : List CStr :=
  match c.inodeCall with
  | some ⟨.create p _, _⟩ => if s.tbl.freeSlot ≠ none ∧ s.tbl.lookup p.parent = some d then [p.leaf] else []
  | _ => []

/-- The call removes nothing. -/
def FreesNothing (s : Process) (c : FuseCall) : Prop := ∀ p f, ¬ c.Frees s.tbl p f

/-- Removing the root would be removing something. -/
theorem FreesNothing.nonRoot {s : Process} {c : FuseCall} (hc : FreesNothing s c) : c.NonRoot := by
  by_contra hroot
  exact hc [] 0 ⟨FuseCall.inodeCall_root hroot, Table.lookup_nil⟩

/-- The names a call enters are those it puts on the tray. -/
theorem tray_fuseStep {s : Process} {c : FuseCall} (h : s.tbl.Inv) (hc : FreesNothing s c) {d : Nat}
    (hd : d < TABLE_SIZE) : ∃ keys : List Key, keys.map Prod.fst = entersName d s c ∧
      (fuseStep s c).tbl.tray d = (s.tbl.tray d).after (keys.map .put) := by
  rcases fuseStep_cases h hc.nonRoot with ⟨p, mode, i, parent, ht, htbl⟩ | ⟨p, f, _, hf, _⟩ | ⟨hnt, _, htbl⟩
  · refine ⟨if d = parent then [p.key] else [], ?_, ?_⟩
    · rw [entersName, ht.1]
      simp only [ht.2.1, ht.2.2, Option.some_inj, eq_comm (a := parent), ne_eq, reduceCtorEq, not_false_iff, true_and]
      split <;> rfl
    · rw [htbl, Table.tray_created h hd ht.2.1]
      split <;> rfl
  · exact absurd hf (hc p f)
  · refine ⟨[], ?_, by rw [htbl]; rfl⟩
    rw [entersName]
    rcases c.inodeCall_cases with hcall | ⟨p, mode, hcall⟩ | ⟨p, hcall, _⟩ <;> rw [hcall]
    · rfl
    · refine (if_neg fun ⟨hfree, hparent⟩ => ?_).symm
      obtain ⟨i, hi⟩ := Option.ne_none_iff_exists'.1 hfree
      exact hnt p mode i d ⟨hcall, hi, hparent⟩
    · rfl

/-- **As long as nothing is removed, a directory that is not full is listed in the order of the creates in it.** -/
theorem readdir_creation_order {s : Process} (hs : s.JustFormatted) {cs : List FuseCall}
    (hcs : EachStep fuseStep FreesNothing s cs) {p : AbsPath} {d : Nat}
    (hp : (exec fuseStep s cs).tbl.lookup p = some d) (hroom : ((exec fuseStep s cs).tbl.inodes d).HasRoom) :
    sfsReaddir p.str (exec fuseStep s cs).tbl = .done 0 (dots ++ Trace.written fuseStep (entersName d) s cs) := by
  have hinv := exec_fuseStep_inv hs.inv (hcs.mono fun _ _ hc => hc.nonRoot)
  have hd : d < TABLE_SIZE := Nat.lt_of_lt_of_le (hinv.lookup_inumber hp).1 hinv.le_size
  have hstep : ∀ s c l, (s.tbl.Inv ∧ ∃ keys : List Key, keys.map Prod.fst = l ∧
        s.tbl.tray d = Tray.empty.after (keys.map .put)) → FreesNothing s c →
      (fuseStep s c).tbl.Inv ∧ ∃ keys : List Key, keys.map Prod.fst = l ++ entersName d s c ∧
        (fuseStep s c).tbl.tray d = Tray.empty.after (keys.map .put) := by
    rintro s c l ⟨h, keys, rfl, htray⟩ hc
    obtain ⟨new, hnames, hnew⟩ := tray_fuseStep h hc hd
    refine ⟨fuseStep_inv h hc.nonRoot, keys ++ new, by rw [List.map_append, hnames], ?_⟩
    rw [hnew, htray, List.map_append, Tray.after_append]
  obtain ⟨_, keys, hnames, htray⟩ := exec_written hstep ⟨hs.inv, [], rfl, hs.tbl.tray hd⟩ hcs
  have hfree : (Tray.empty.after (keys.map .put) : Tray Key MAX_FILES_IN_DIR).firstFree ≠ none := by
    obtain ⟨k, hk, hgap⟩ := hroom
    rw [← htray]
    exact fun hnone => (Tray.firstFree_eq_none_iff _).1 hnone k hk ((hinv.get_tray_eq_none_iff hd hk).2 hgap)
  rw [readdir_eq_listingOf hinv hp, htray, listingOf, if_neg hfree, Tray.row_after_puts hfree, hnames]
  rfl

/-- `/b` and `/a`, in this order. -/
def backwards : List FuseCall :=
  [⟨.create [.b] 0o644, ⟨1000, 1000, 0⟩⟩, ⟨.create [.a] 0o644, ⟨1000, 1000, 0⟩⟩]

theorem backwards_freesNothing : EachStep fuseStep FreesNothing (formatted 200000) backwards :=
  ⟨fun _ _ hf => (by cases hf.1), fun _ _ hf => (by cases hf.1), trivial⟩

theorem backwards_run : ((exec fuseStep (formatted 200000) backwards).tbl.inodes 0).HasRoom := by decide +kernel

theorem readdir_creation_order_backwards :
    sfsReaddir (AbsPath.str []) (exec fuseStep (formatted 200000) backwards).tbl =
      .done 0 (dots ++ Trace.written fuseStep (entersName 0) (formatted 200000) backwards) :=
  readdir_creation_order justFormatted_three backwards_freesNothing Table.lookup_nil backwards_run

end Sfs
