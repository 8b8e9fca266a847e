import SimpelDateisystem.CreateRemove
import SimpelDateisystem.Restore

/-!
# Type and owner: what `sfs_getattr` says of what was created

A slot keeps `mode` and `uid` in a `short` each. `sfs_getattr` sign-extends the `uid` and compares
the `mode` with 493, 16384 and -32348; of any other mode it says nothing and leaves `st_mode` to
whatever `*statbuf` held. The paths of `dummyPath` it answers without looking.

| theorem | says |
| --- | --- |
| `reports_iff`       | when `sfs_getattr` reports a given type and owner, whatever `*statbuf` held |
| `typeAndOwner_iff`  | when it reports what the creating call was given, and when it assigns `st_mode` at all |
-/

namespace Sfs

open Trace CString

/-! ## Narrowing -/

/-- Cutting a word to `w` bits and sign-extending it again gives it back iff it is in their signed range. -/
theorem signExtend_setWidth_eq_iff {w v : Nat} (hw : w ≤ v) (u : BitVec v) :
    (u.setWidth w).signExtend v = u ↔
      -((2 ^ w : Nat) / 2 : Int) ≤ u.toInt ∧ u.toInt < ((2 ^ w : Nat) + 1 : Int) / 2 := by
  have hcut : ((u.setWidth w).signExtend v).toInt = u.toInt.bmod (2 ^ w) := by
    rw [BitVec.toInt_signExtend_of_le hw, BitVec.toInt_setWidth, BitVec.toInt_eq_toNat_bmod,
      Int.bmod_bmod_of_dvd (Nat.pow_dvd_pow 2 hw)]
  rw [← BitVec.toInt_inj, hcut, Int.bmod_eq_iff (Nat.two_pow_pos w)]
  constructor
  · exact fun ⟨hle, hlt, _⟩ => ⟨hle, hlt⟩
  · exact fun ⟨hle, hlt⟩ => ⟨hle, hlt, by simp⟩

/-- The user ids a `short` can hold. -/
def FitsShort (u : BitVec 32) : Prop := -32768 ≤ u.toInt ∧ u.toInt < 32768

instance : DecidablePred FitsShort := fun u => by unfold FitsShort; infer_instance

theorem fitsShort_iff {u : BitVec 32} : (u.setWidth 16).signExtend 32 = u ↔ FitsShort u :=
  signExtend_setWidth_eq_iff (by decide) u

/-! ## `sfs_getattr` -/

/-- `S_IFMT`. -/
def S_IFMT : BitVec 32 := 0xF000#32

/-- `sfs_getattr` succeeds on `p` and says `type` and `uid`, whoever asks and whatever `*statbuf` held. -/
def Reports (s : Process) (p : AbsPath) (type uid : BitVec 32) : Prop :=
  ∀ e st, (sfsGetattr e p.str (some st) s).1 = 0 ∧ ∃ st', (sfsGetattr e p.str (some st) s).2.1 = some st' ∧
    st'.stMode &&& S_IFMT = type ∧ st'.stUid = uid

/-- When `sfs_getattr` succeeds, `st_mode` does not depend on what `*statbuf` held: it is assigned. -/
def AssignsMode (s : Process) (path : CStr) : Prop :=
  ∀ e st st', (sfsGetattr e path (some st) s).1 = 0 →
    (sfsGetattr e path (some st) s).2.1.map Stat.stMode = (sfsGetattr e path (some st') s).2.1.map Stat.stMode

/-- The modes `sfs_getattr` knows. -/
def KnownMode (mode : BitVec 16) : Prop :=
  mode.toInt = 493 ∨ mode.toInt = 16384 ∨ mode.toInt = -32348

instance : DecidablePred KnownMode := fun mode => by unfold KnownMode; infer_instance

/-- The type it says for a mode. -/
def typeOf (mode : BitVec 16) : Option (BitVec 32) :=
  if mode.toInt = 493 ∨ mode.toInt = 16384 then some S_IFDIR
  else if mode.toInt = -32348 then some S_IFREG else none

theorem isSome_typeOf (mode : BitVec 16) : (typeOf mode).isSome ↔ KnownMode mode := by
  unfold typeOf KnownMode
  split_ifs with hdir hreg
  · exact iff_of_true rfl (hdir.imp_right .inl)
  · exact iff_of_true rfl (.inr (.inr hreg))
  · refine iff_of_false Bool.noConfusion ?_
    rintro (h | h | h)
    · exact hdir (.inl h)
    · exact hdir (.inr h)
    · exact hreg h

theorem stMode_inodeStat (e : Env) (f : FileControlBlock Ptr) (st : Stat) :
    (inodeStat e f st).stMode = (typeOf f.mode).getD st.stMode := by
  simp only [inodeStat, typeOf]
  split_ifs <;> rfl

/-- The dummy answer: its mode does not depend on `*statbuf`, nor on the table. -/
def dummyType (path : CStr) : BitVec 32 := if path = [slash] then S_IFDIR else S_IFREG

theorem stMode_dummyStat (e : Env) (path : CStr) (t : Table) (st : Stat) :
    (dummyStat e path t st).stMode &&& S_IFMT = dummyType path := by
  simp only [dummyStat, dummyType]
  split_ifs <;> decide

theorem typeOf_and_mask {mode : BitVec 16} {type : BitVec 32} (h : typeOf mode = some type) :
    type &&& S_IFMT = type := by
  unfold typeOf at h
  split_ifs at h <;> cases h <;> decide

/-- No type is the type of every mode. -/
theorem exists_type_ne (type : BitVec 32) : ∃ mode : BitVec 32, mode &&& S_IFMT ≠ type := by
  by_cases h : type = 0
  · exact ⟨S_IFMT, by rw [h]; decide⟩
  · exact ⟨0, fun h0 => h (by rw [← h0]; decide)⟩

section getattr

variable {s : Process} {path : CStr} (e : Env) (st : Stat)

theorem sfsGetattr_of_lt (hlen : PATH_MAX < path.length) :
    sfsGetattr e path (some st) s = (-1, some st, { s with errno := ENAMETOOLONG }) := if_pos hlen

variable (hlen : path.length ≤ PATH_MAX)

include hlen

theorem sfsGetattr_of_dummy (hdummy : dummyPath path = true) :
    sfsGetattr e path (some st) s = (0, some (dummyStat e path s.tbl st), s) := by
  simp only [sfsGetattr, if_neg (Nat.not_lt.2 hlen), if_pos hdummy]

theorem sfsGetattr_of_none (hdummy : dummyPath path = false) (hno : findFileOrDir s.tbl path = none) :
    sfsGetattr e path (some st) s = (-ENOENT, some st, s) := by
  simp only [sfsGetattr, if_neg (Nat.not_lt.2 hlen), hdummy, Bool.false_eq_true, if_false, hno]

theorem sfsGetattr_of_some (hdummy : dummyPath path = false) {x : Nat} (hx : findFileOrDir s.tbl path = some x) :
    sfsGetattr e path (some st) s = (0, some (inodeStat e (s.tbl.inodes x) st), s) := by
  simp only [sfsGetattr, if_neg (Nat.not_lt.2 hlen), hdummy, Bool.false_eq_true, if_false, hx]

end getattr

/-- An empty `*statbuf`. -/
def Stat.zero : Stat := ⟨0, 0, 0, 0, 0, 0, 0, 0, 0, 0, 0, 0, 0⟩

section reports

variable {s : Process} {p : AbsPath} {type uid : BitVec 32}

theorem reports_dummy_iff (hlen : p.str.length ≤ PATH_MAX) (hdummy : dummyPath p.str = true) :
    Reports s p type uid ↔ dummyType p.str = type ∧ (s.tbl.inodes 0).uid.signExtend 32 = uid := by
  constructor
  · intro h
    obtain ⟨_, st', hst, htype, huid⟩ := h ⟨0, 0, 0⟩ Stat.zero
    rw [sfsGetattr_of_dummy _ _ hlen hdummy] at hst
    cases hst
    exact ⟨by rw [← htype, stMode_dummyStat], huid⟩
  · rintro ⟨htype, huid⟩ e st
    rw [sfsGetattr_of_dummy e st hlen hdummy]
    exact ⟨rfl, _, rfl, by rw [stMode_dummyStat, htype], huid⟩

theorem reports_found_iff (hlen : p.str.length ≤ PATH_MAX) (hdummy : dummyPath p.str = false) {x : Nat}
    (hx : s.tbl.lookup p = some x) :
    Reports s p type uid ↔ typeOf (s.tbl.inodes x).mode = some type ∧ (s.tbl.inodes x).uid.signExtend 32 = uid := by
  constructor
  · intro h
    have hout : ∀ st : Stat, ((typeOf (s.tbl.inodes x).mode).getD st.stMode) &&& S_IFMT = type ∧
        (s.tbl.inodes x).uid.signExtend 32 = uid := by
      intro st
      obtain ⟨_, st', hst, htype, huid⟩ := h ⟨0, 0, 0⟩ st
      rw [sfsGetattr_of_some _ _ hlen hdummy hx] at hst
      cases hst
      exact ⟨by rw [← htype, stMode_inodeStat], huid⟩
    refine ⟨?_, (hout Stat.zero).2⟩
    cases hmode : typeOf (s.tbl.inodes x).mode with
    | none =>
      -- the caller's own bits come back, and they may be anything
      obtain ⟨mode, hne⟩ := exists_type_ne type
      have hback := (hout { Stat.zero with stMode := mode }).1
      rw [hmode] at hback
      exact absurd hback hne
    | some t =>
      have ht := (hout Stat.zero).1
      rw [hmode, Option.getD_some, typeOf_and_mask hmode] at ht
      rw [ht]
  · rintro ⟨hmode, huid⟩ e st
    rw [sfsGetattr_of_some e st hlen hdummy hx]
    refine ⟨rfl, _, rfl, ?_, huid⟩
    rw [stMode_inodeStat, hmode, Option.getD_some, typeOf_and_mask hmode]

/-- **What `sfs_getattr` reports**: of a dummy path the root's owner, of another path the stored
owner, and the type if it knows the stored mode. -/
theorem reports_iff : Reports s p type uid ↔ p.str.length ≤ PATH_MAX ∧
    if dummyPath p.str then dummyType p.str = type ∧ (s.tbl.inodes 0).uid.signExtend 32 = uid
    else ∃ x, s.tbl.lookup p = some x ∧ typeOf (s.tbl.inodes x).mode = some type ∧
      (s.tbl.inodes x).uid.signExtend 32 = uid := by
  by_cases hlen : PATH_MAX < p.str.length
  · refine iff_of_false (fun h => ?_) fun h => absurd h.1 (Nat.not_le.2 hlen)
    have hret := (h ⟨0, 0, 0⟩ Stat.zero).1
    rw [sfsGetattr_of_lt _ _ hlen] at hret
    exact absurd hret (show (-1 : Int) ≠ 0 by decide)
  rw [and_iff_right (Nat.not_lt.1 hlen)]
  cases hdummy : dummyPath p.str with
  | true => exact reports_dummy_iff (Nat.not_lt.1 hlen) hdummy
  | false =>
    simp only [Bool.false_eq_true, if_false]
    cases hx : s.tbl.lookup p with
    | none =>
      refine iff_of_false (fun h => ?_) (by simp)
      have hret := (h ⟨0, 0, 0⟩ Stat.zero).1
      rw [sfsGetattr_of_none _ _ (Nat.not_lt.1 hlen) hdummy hx] at hret
      exact absurd hret (show -ENOENT ≠ 0 by decide)
    | some x =>
      rw [reports_found_iff (Nat.not_lt.1 hlen) hdummy hx]
      simp

end reports

/-- **`st_mode` is left alone** exactly when a slot is found whose mode is not known. -/
theorem assignsMode_iff {s : Process} {path : CStr} : AssignsMode s path ↔
    (path.length ≤ PATH_MAX → dummyPath path = false → ∀ x, findFileOrDir s.tbl path = some x →
      KnownMode (s.tbl.inodes x).mode) := by
  constructor
  · intro h hlen hdummy x hx
    have hout : ∀ st, (sfsGetattr ⟨0, 0, 0⟩ path (some st) s).1 = 0 ∧
        (sfsGetattr ⟨0, 0, 0⟩ path (some st) s).2.1.map Stat.stMode =
          some ((typeOf (s.tbl.inodes x).mode).getD st.stMode) := by
      intro st
      rw [sfsGetattr_of_some _ _ hlen hdummy hx]
      exact ⟨rfl, congrArg some (stMode_inodeStat _ _ _)⟩
    have heq := h ⟨0, 0, 0⟩ Stat.zero { Stat.zero with stMode := 1 } (hout _).1
    rw [(hout _).2, (hout _).2] at heq
    rw [← isSome_typeOf]
    cases hmode : typeOf (s.tbl.inodes x).mode with
    | none =>
      rw [hmode] at heq
      exact absurd (Option.some_inj.1 heq) (by decide)
    | some type => rfl
  · intro h e st st' hret
    by_cases hlen : PATH_MAX < path.length
    · rw [sfsGetattr_of_lt _ _ hlen] at hret
      exact absurd hret (show (-1 : Int) ≠ 0 by decide)
    have hle := Nat.not_lt.1 hlen
    cases hdummy : dummyPath path with
    | true =>
      rw [sfsGetattr_of_dummy _ _ hle hdummy, sfsGetattr_of_dummy _ _ hle hdummy]
      rfl
    | false =>
      cases hx : findFileOrDir s.tbl path with
      | none =>
        rw [sfsGetattr_of_none _ _ hle hdummy hx] at hret
        exact absurd hret (show -ENOENT ≠ 0 by decide)
      | some x =>
        obtain ⟨type, hmode⟩ := Option.isSome_iff_exists.1 ((isSome_typeOf _).2 (h hle hdummy x hx))
        rw [sfsGetattr_of_some _ _ hle hdummy hx, sfsGetattr_of_some _ _ hle hdummy hx]
        simp only [Option.map_some, stMode_inodeStat, hmode, Option.getD_some]

/-! ## After a create -/

theorem dummyType_of_ne_nil {p : AbsPath} (hp : p ≠ []) : dummyType p.str = S_IFREG :=
  if_neg (AbsPath.str_ne_root hp)

/-- What `sfs_getattr` reports of a path that a call has just taken a slot for. -/
theorem FuseCall.Takes.reports_iff {s : Process} {c : FuseCall} {p : AbsPath} {mode : BitVec 32} {i parent : Nat}
    (ht : c.Takes s.tbl p mode i parent) (hnone : s.tbl.lookup p = none) {type uid : BitVec 32} :
    Reports (fuseStep s c) p type uid ↔ p.str.length ≤ PATH_MAX ∧
      if dummyPath p.str then S_IFREG = type ∧ (s.tbl.inodes 0).uid.signExtend 32 = uid
      else typeOf (mode.setWidth 16) = some type ∧ (c.env.uid.setWidth 16).signExtend 32 = uid := by
  have hp := Table.ne_nil_of_lookup_eq_none hnone
  obtain ⟨h1, _, _⟩ := Table.freeSlot_spec ht.2.1
  have hroot : ((fuseStep s c).tbl.inodes 0).uid = (s.tbl.inodes 0).uid := by
    rw [ht.tbl, Table.uid_created, if_neg (by omega)]
  have hmode : ((fuseStep s c).tbl.inodes i).mode = mode.setWidth 16 := by
    rw [ht.tbl, Table.mode_created, if_pos rfl]
  have huid : ((fuseStep s c).tbl.inodes i).uid = c.env.uid.setWidth 16 := by
    rw [ht.tbl, Table.uid_created, if_pos rfl]
  rw [Sfs.reports_iff, ht.lookup_self hnone, dummyType_of_ne_nil hp, hroot]
  simp only [Option.some_inj, exists_eq_left', hmode, huid]

/-- What `sfs_create(p, mode)` for a regular file is to make `sfs_getattr` say. -/
def CreateReports (e : Env) (p : AbsPath) (mode : BitVec 32) (s : Process) : Prop :=
  mode &&& S_IFMT = S_IFREG → Reports (sfsCreate e p.str mode s).2 p S_IFREG e.uid

/-- What an `sfs_mkdir(p, mode)` that has created something is to make it say. -/
def MkdirReports (e : Env) (p : AbsPath) (mode : BitVec 32) (s : Process) : Prop :=
  (sfsMkdir e p.str mode s).2.tbl.lookup p ≠ none → Reports (sfsMkdir e p.str mode s).2 p S_IFDIR e.uid

theorem typeOf_eq_reg_iff (mode : BitVec 16) : typeOf mode = some S_IFREG ↔ mode = 0o100644#16 := by
  have hreg : mode.toInt = -32348 ↔ mode = 0o100644#16 := by
    rw [← BitVec.toInt_inj]
    rfl
  unfold typeOf
  split_ifs with hdir hmode
  · refine iff_of_false (by decide) fun h => ?_
    rw [← hreg] at h
    omega
  · exact iff_of_true rfl (hreg.1 hmode)
  · exact iff_of_false (by simp) fun h => hmode (hreg.2 h)

section created

variable {s : Process} {p : AbsPath} (hfree : ∃ x, 1 ≤ x ∧ x < s.tbl.count ∧ ¬ s.tbl.Alloc x)
  (hparent : s.tbl.lookup p.parent ≠ none) (hnone : s.tbl.lookup p = none)

include hfree hparent hnone

theorem createReports_iff (e : Env) (mode : BitVec 32) : CreateReports e p mode s ↔
    (mode &&& S_IFMT = S_IFREG → p.str.length ≤ PATH_MAX ∧
      if dummyPath p.str then (s.tbl.inodes 0).uid.signExtend 32 = e.uid
      else mode.setWidth 16 = 0o100644#16 ∧ FitsShort e.uid) := by
  obtain ⟨i, parent, ht⟩ := exists_takes hfree hparent (c := ⟨.create p mode, e⟩) rfl
  have hreports : Reports (sfsCreate e p.str mode s).2 p S_IFREG e.uid ↔ _ := ht.reports_iff hnone
  rw [typeOf_eq_reg_iff, fitsShort_iff, and_iff_right rfl] at hreports
  exact imp_congr_right fun _ => hreports

theorem mkdirReports_iff (e : Env) (mode : BitVec 32) : MkdirReports e p mode s ↔
    mode ≠ BitVec.ofInt 32 (-32348) ∧
      (mode = 493 → p.str.length ≤ PATH_MAX ∧ dummyPath p.str = false ∧ FitsShort e.uid) := by
  have hcreated : ∀ m, FuseCall.inodeCall ⟨.mkdir p mode, e⟩ = some ⟨.create p m, e⟩ →
      (MkdirReports e p mode s ↔ p.str.length ≤ PATH_MAX ∧ dummyPath p.str = false ∧
        typeOf (m.setWidth 16) = some S_IFDIR ∧ FitsShort e.uid) := by
    intro m hm
    obtain ⟨i, parent, ht⟩ := exists_takes hfree hparent (c := ⟨.mkdir p mode, e⟩) hm
    have hself : (sfsMkdir e p.str mode s).2.tbl.lookup p = some i := ht.lookup_self hnone
    have hreports : Reports (sfsMkdir e p.str mode s).2 p S_IFDIR e.uid ↔ _ := ht.reports_iff hnone
    rw [MkdirReports, hself, imp_iff_right (by simp), hreports, fitsShort_iff]
    refine and_congr_right fun _ => ?_
    cases dummyPath p.str
    · simp
    · simp [show S_IFREG ≠ S_IFDIR by decide]
  by_cases h493 : mode = 493
  · have htype : typeOf (S_IFDIR.setWidth 16) = some S_IFDIR := by decide
    rw [hcreated S_IFDIR (by rw [h493]; rfl), htype, h493]
    simp
  by_cases hneg : mode = BitVec.ofInt 32 (-32348)
  · have htype : typeOf (S_IFREG.setWidth 16) = none := by decide
    rw [hcreated S_IFREG (by rw [hneg]; rfl), htype]
    simp [hneg]
  · -- nothing is created
    refine iff_of_true (fun hsome => ?_) ⟨hneg, fun h => absurd h h493⟩
    rw [sfsMkdir, if_neg h493, if_neg hneg] at hsome
    exact absurd hnone hsome

end created

/-! ## Over whole runs -/

/-- Every mode a call stores is one `sfs_getattr` knows. -/
def StoresKnownMode (s : Process) (c : FuseCall) : Prop :=
  ∀ p mode i parent, c.Takes s.tbl p mode i parent → KnownMode (mode.setWidth 16)

/-- The slots that have a name have a known mode. -/
def Table.KnownModes (t : Table) : Prop :=
  ∀ x, 1 ≤ x → x < TABLE_SIZE → (t.inodes x).name ≠ [] → KnownMode (t.inodes x).mode

theorem KnownModes.fuseStep {s : Process} {c : FuseCall} (h : s.tbl.Inv) (hk : s.tbl.KnownModes)
    (hc : StoresKnownMode s c) : (fuseStep s c).tbl.KnownModes := by
  by_cases hroot : c.NonRoot
  · rcases fuseStep_cases h hroot with ⟨p, mode, i, parent, ht, htbl⟩ | ⟨p, f, hp, hf, htbl⟩ | ⟨_, _, htbl⟩
    · intro x h1 hx hname
      rw [htbl, Table.name_created] at hname
      rw [htbl, Table.mode_created]
      by_cases hxi : x = i
      · rw [if_pos hxi]
        exact hc p mode i parent ht
      · rw [if_neg hxi] at hname ⊢
        exact hk x h1 hx hname
    · have hlast := h.lastFilledLast _ (h.parentOf_lt_size (h.lookup_used hp hf.2).2.2)
      intro x h1 hx hname
      rw [htbl, Table.name_removed hlast] at hname
      rw [htbl, Table.mode_removed hlast]
      exact hk x h1 hx hname
    · rwa [htbl]
  · rwa [tbl_fuseStep_root h hroot]

theorem knownModes_exec {s₀ : Process} (hs : s₀.JustFormatted) {cs : List FuseCall}
    (hcs : EachStep fuseStep StoresKnownMode s₀ cs) : (exec fuseStep s₀ cs).tbl.KnownModes := by
  have hstep : ∀ s c, Resident s₀ s ∧ s.tbl.KnownModes → StoresKnownMode s c →
      Resident s₀ (fuseStep s c) ∧ (fuseStep s c).tbl.KnownModes :=
    fun _ c h hc => ⟨h.1.fuseStep c, KnownModes.fuseStep h.1.inv h.2 hc⟩
  have hstart : s₀.tbl.KnownModes := by
    intro x h1 hx hname
    rw [hs.tbl.inodes x h1 hx] at hname
    exact absurd rfl hname
  exact (EachStep.invariant hstep ⟨hs.resident, hstart⟩ hcs).2

/-- **Type and owner** after a create or `sfs_mkdir` in a reachable state, and when `sfs_getattr`
assigns `st_mode`: on a path, and on all paths in all states of a run. -/
theorem typeAndOwner_iff {s₀ : Process} (hs : s₀.JustFormatted) (cs : List FuseCall) :
    let s := exec fuseStep s₀ cs
    (∀ p : AbsPath, (∃ x, 1 ≤ x ∧ x < s.tbl.count ∧ ¬ s.tbl.Alloc x) → s.tbl.lookup p.parent ≠ none →
      s.tbl.lookup p = none → ∀ (e : Env) (mode : BitVec 32),
        (CreateReports e p mode s ↔ (mode &&& S_IFMT = S_IFREG → p.str.length ≤ PATH_MAX ∧
          if dummyPath p.str then (s.tbl.inodes 0).uid.signExtend 32 = e.uid
          else mode.setWidth 16 = 0o100644#16 ∧ FitsShort e.uid)) ∧
        (MkdirReports e p mode s ↔ mode ≠ BitVec.ofInt 32 (-32348) ∧
          (mode = 493 → p.str.length ≤ PATH_MAX ∧ dummyPath p.str = false ∧ FitsShort e.uid))) ∧
    (∀ path, AssignsMode s path ↔ (path.length ≤ PATH_MAX → dummyPath path = false →
      ∀ x, findFileOrDir s.tbl path = some x → KnownMode (s.tbl.inodes x).mode)) ∧
    (EachStep fuseStep StoresKnownMode s₀ cs → ∀ p : AbsPath, AssignsMode s p.str) := by
  intro s
  have h : s.tbl.Inv := (resident_exec_fuseStep hs cs).inv
  refine ⟨fun p hfree hparent hnone e mode => ?_, fun path => assignsMode_iff, fun hcs p => ?_⟩
  · exact ⟨createReports_iff hfree hparent hnone e mode, mkdirReports_iff hfree hparent hnone e mode⟩
  · refine assignsMode_iff.2 fun _ hdummy x hx => ?_
    have hp : p ≠ [] := by
      rintro rfl
      cases hdummy
    obtain ⟨h1, hlt, _⟩ := h.lookup_used hp hx
    refine knownModes_exec hs hcs x h1 (Nat.lt_of_lt_of_le hlt h.le_size) ?_
    rw [(Table.carries_of_lookup hp hx).2.1]
    exact AbsPath.leaf_ne_nil hp

/-- `/a` is created with a mode that `sfs_getattr` knows. -/
def oneRegular : List FuseCall := [⟨.create [.a] 0o100644, ⟨1000, 1000, 0⟩⟩]

theorem oneRegular_run :
    (2 < (exec fuseStep (formatted 200000) oneRegular).tbl.count ∧
      ¬ (exec fuseStep (formatted 200000) oneRegular).tbl.Alloc 2) ∧
    (exec fuseStep (formatted 200000) oneRegular).tbl.lookup (AbsPath.parent [.b]) ≠ none ∧
    (exec fuseStep (formatted 200000) oneRegular).tbl.lookup [.b] = none := by
  decide +kernel

theorem oneRegular_stores : EachStep fuseStep StoresKnownMode (formatted 200000) oneRegular := by
  refine ⟨fun p mode i parent ht => ?_, trivial⟩
  cases ht.1
  decide

theorem typeAndOwner_oneRegular :
    let s := exec fuseStep (formatted 200000) oneRegular
    CreateReports ⟨1000, 1000, 0⟩ [.b] 0o100644 s ∧ MkdirReports ⟨1000, 1000, 0⟩ [.b] 0o755 s ∧
      ∀ p : AbsPath, AssignsMode s p.str := by
  obtain ⟨⟨hlt, hfree⟩, hparent, hnone⟩ := oneRegular_run
  obtain ⟨hcalls, _, hassigns⟩ := typeAndOwner_iff justFormatted_three oneRegular
  have hb := hcalls [.b] ⟨2, by decide, hlt, hfree⟩ hparent hnone ⟨1000, 1000, 0⟩
  exact ⟨(hb _).1.2 fun _ => by decide, (hb _).2.2 (by decide), hassigns oneRegular_stores⟩

/-- A file that only its owner may read, an owner beyond the range of a `short`, a directory of that
owner; and of the first the type is left open. -/
theorem typeAndOwner_fails :
    let s := exec fuseStep (formatted 200000) oneRegular
    ¬ CreateReports ⟨1000, 1000, 0⟩ [.b] 0o100600 s ∧ ¬ CreateReports ⟨40000, 1000, 0⟩ [.b] 0o100644 s ∧
      ¬ MkdirReports ⟨40000, 1000, 0⟩ [.b] 0o755 s ∧
      ¬ AssignsMode (sfsCreate ⟨1000, 1000, 0⟩ (AbsPath.str [.b]) 0o100600 s).2 (AbsPath.str [.b]) := by
  obtain ⟨⟨hlt, hfree⟩, hparent, hnone⟩ := oneRegular_run
  intro s
  have hslot : ∃ x, 1 ≤ x ∧ x < s.tbl.count ∧ ¬ s.tbl.Alloc x := ⟨2, by decide, hlt, hfree⟩
  rw [createReports_iff hslot hparent hnone, createReports_iff hslot hparent hnone,
    mkdirReports_iff hslot hparent hnone]
  refine ⟨by decide, by decide, by decide, fun h => ?_⟩
  obtain ⟨i, parent, ht⟩ := exists_takes hslot hparent (c := ⟨.create [.b] 0o100600, ⟨1000, 1000, 0⟩⟩) rfl
  have hknown := assignsMode_iff.1 h (by decide) (by decide) i (ht.lookup_self hnone)
  have hmode : ((sfsCreate ⟨1000, 1000, 0⟩ (AbsPath.str [.b]) 0o100600 s).2.tbl.inodes i).mode =
      (0o100600 : BitVec 32).setWidth 16 := by
    change ((fuseStep s ⟨.create [.b] 0o100600, ⟨1000, 1000, 0⟩⟩).tbl.inodes i).mode = _
    rw [ht.tbl, Table.mode_created, if_pos rfl]
  rw [hmode] at hknown
  exact absurd hknown (by decide)

end Sfs
