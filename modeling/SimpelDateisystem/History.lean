import SimpelDateisystem.Namespace

/-!
# What a path and a slot owe to the requests before

A create binds a path to a slot, and only the next create on that slot unbinds it; a remove frees the slot
and binds nothing. So both what a path resolves to and what is allocated can be read off the requests:

* `lookup_iff_since` — a path resolves to the slot the last create of its two names took, unless that slot
  was taken again;
* `alloc_iff_since` — a slot is allocated if it was taken and not freed since;
* `createInode_eq_none_iff` — a create below a parent that resolves fails when as many slots are taken as
  there are, removes of freed slots not counted;
* `getFreeInodeNum_run` — `getFreeInodeNum`, which nothing calls, would have found the same slots.
-/

namespace Sfs

open Trace CString

namespace Request

/-- The path and the slot of a create that succeeds. -/
def takes (s : Process) (r : Request) : Option (AbsPath × Nat) :=
  match r.call.bind FuseCall.inodeCall with
  | some ⟨.create p _, _⟩ => if s.tbl.lookup p.parent = none then none else s.tbl.freeSlot.map fun i => (p, i)
  | _ => none

/-- The slot of a remove that succeeds, freed already or not. -/
def frees (s : Process) (r : Request) : Option Nat :=
  match r.call.bind FuseCall.inodeCall with
  | some ⟨.remove p, _⟩ => s.tbl.lookup p
  | _ => none

/-- It was allocated. -/
def freesAllocated (s : Process) (r : Request) : Prop := ∃ f, r.frees s = some f ∧ s.tbl.Alloc f

instance (s : Process) (r : Request) : Decidable (r.freesAllocated s) :=
  decidable_of_iff ((r.frees s).any fun f => decide (s.tbl.Alloc f)) <| by
    rw [freesAllocated, Option.any_eq_true]
    simp only [decide_eq_true_eq]

theorem takes_of_call {s : Process} {r : Request} {c : FuseCall} {p : AbsPath} {mode : BitVec 32} {i parent : Nat}
    (hc : r.call = some c) (ht : c.Takes s.tbl p mode i parent) : r.takes s = some (p, i) ∧ r.frees s = none := by
  obtain ⟨hcall, hi, hparent⟩ := ht
  have hbind : r.call.bind FuseCall.inodeCall = some ⟨.create p mode, c.env⟩ := by rw [hc, Option.bind_some, hcall]
  rw [takes, frees, hbind]
  simp [hi, hparent]

theorem frees_of_call {s : Process} {r : Request} {c : FuseCall} {p : AbsPath} {f : Nat} (hc : r.call = some c)
    (hf : c.Frees s.tbl p f) : r.takes s = none ∧ r.frees s = some f := by
  obtain ⟨hcall, hlookup⟩ := hf
  have hbind : r.call.bind FuseCall.inodeCall = some ⟨.remove p, c.env⟩ := by rw [hc, Option.bind_some, hcall]
  rw [takes, frees, hbind]
  exact ⟨rfl, hlookup⟩

theorem of_call {s : Process} {r : Request} {c : FuseCall} (hc : r.call = some c)
    (htakes : ∀ p mode i parent, ¬ c.Takes s.tbl p mode i parent) (hfrees : ∀ p f, ¬ c.Frees s.tbl p f) :
    r.takes s = none ∧ r.frees s = none := by
  rw [takes, frees, hc, Option.bind_some]
  rcases c.inodeCall_cases with hno | ⟨p, mode, hcall⟩ | ⟨p, hcall, _⟩
  · rw [hno]
    exact ⟨rfl, rfl⟩
  · rw [hcall]
    refine ⟨?_, rfl⟩
    by_cases hparent : s.tbl.lookup p.parent = none
    · exact if_pos hparent
    obtain ⟨parent, hparent'⟩ := Option.ne_none_iff_exists'.1 hparent
    cases hi : s.tbl.freeSlot with
    | none => simp
    | some i => exact absurd ⟨hcall, hi, hparent'⟩ (htakes p mode i parent)
  · rw [hcall]
    refine ⟨rfl, ?_⟩
    change s.tbl.lookup p = none
    cases hf : s.tbl.lookup p with
    | none => rfl
    | some f => exact absurd ⟨hcall, hf⟩ (hfrees p f)

end Request

/-- **Everything an admitted request does to the names.** -/
theorem names_requestStep_cases {s : Process} {r : Request} (h : NamesKept s) (hr : NewPathAdmits s r) :
    (∃ p e mode i, ∃ hi : i < s.tbl.names.capacity, s.tbl.lookup p = none ∧ s.tbl.names.live i = false ∧ 1 ≤ i ∧
      r.takes s = some (p, i) ∧ r.frees s = none ∧
      (requestStep s r).tbl.names = s.tbl.names.take p.key (Attr.created e mode) i hi) ∨
    (∃ f, 1 ≤ f ∧ f < s.tbl.names.capacity ∧ r.takes s = none ∧ r.frees s = some f ∧
      (requestStep s r).tbl.names = s.tbl.names.release f) ∨
    (r.takes s = none ∧ r.frees s = none ∧ (requestStep s r).tbl.names = s.tbl.names) := by
  rw [tbl_requestStep]
  cases hcall : r.call with
  | none => exact .inr (.inr ⟨by rw [Request.takes, hcall]; rfl, by rw [Request.frees, hcall]; rfl, rfl⟩)
  | some c =>
    obtain ⟨hnonroot, hnew⟩ := hr.call hcall
    rw [Option.elim_some]
    rcases fuseStep_cases h.inv hnonroot with
      ⟨p, mode, i, parent, ht, htbl⟩ | ⟨p, f, hp, hf, htbl⟩ | ⟨htakes, hfrees, htbl⟩ <;> rw [htbl]
    · obtain ⟨h1, hlt, hfree⟩ := Table.freeSlot_spec ht.2.1
      have hnone := hnew p mode i parent ht
      refine .inl ⟨p, c.env, mode, i, hlt, hnone, decide_eq_false hfree, h1, ?_⟩
      exact ⟨(Request.takes_of_call hcall ht).1, (Request.takes_of_call hcall ht).2,
        Table.names_created h.inv h.distinct hnone hlt⟩
    · obtain ⟨h1, hlt, hu⟩ := h.inv.lookup_used hp hf.2
      exact .inr (.inl ⟨f, h1, hlt, (Request.frees_of_call hcall hf).1, (Request.frees_of_call hcall hf).2,
        Table.names_removed h.inv hlt hu⟩)
    · exact .inr (.inr ⟨(Request.of_call hcall htakes hfrees).1, (Request.of_call hcall htakes hfrees).2, rfl⟩)

/-! ## What a path resolves to -/

/-- The request takes slot `x`. -/
def TakesSlot (x : Nat) (s : Process) (r : Request) : Prop := ∃ q, r.takes s = some (q, x)

/-- The request takes slot `x` for the two names of `p`. -/
def TakesFor (p : AbsPath) (x : Nat) (s : Process) (r : Request) : Prop := ∃ q, r.takes s = some (q, x) ∧ q.key = p.key

/-- One request: what it binds, and what it leaves bound. -/
theorem lookup_requestStep {s : Process} {r : Request} {p : AbsPath} {x : Nat} (h : NamesKept s)
    (hr : NewPathAdmits s r) (hp : p ≠ []) : (requestStep s r).tbl.lookup p = some x ↔
      TakesFor p x s r ∨ (s.tbl.lookup p = some x ∧ ¬ TakesSlot x s r) := by
  have hfind : ∀ s : Process, s.tbl.lookup p = s.tbl.names.find p.key := fun s => (Table.findKey_key hp).symm
  rcases names_requestStep_cases h hr with
    ⟨q, e, mode, i, hi, hnone, _, _, htakes, _, hnames⟩ | ⟨f, _, _, htakes, _, hnames⟩ | ⟨htakes, _, hnames⟩ <;>
    rw [hfind, hfind, hnames]
  · -- the path taken was bound to nothing before
    have hnone' : s.tbl.names.find q.key = none :=
      (Table.findKey_key (Table.ne_nil_of_lookup_eq_none hnone)).trans hnone
    rw [SlotMap.find_take_iff]
    simp only [TakesFor, TakesSlot, htakes, Option.some_inj, Prod.mk.injEq]
    constructor
    · rintro (⟨hkey, rfl⟩ | ⟨hold, _, hx⟩)
      · exact .inl ⟨q, ⟨rfl, rfl⟩, hkey.symm⟩
      · exact .inr ⟨hold, fun ⟨_, _, hix⟩ => hx hix.symm⟩
    · rintro (⟨_, ⟨rfl, rfl⟩, hkey⟩ | ⟨hold, hnot⟩)
      · exact .inl ⟨hkey.symm, rfl⟩
      · refine .inr ⟨hold, ?_, fun hx => hnot ⟨q, rfl, hx.symm⟩⟩
        intro hkey
        rw [hkey, hnone'] at hold
        cases hold
  · simp [TakesFor, TakesSlot, htakes, SlotMap.release]
  · simp [TakesFor, TakesSlot, htakes]

/-- **A path resolves to the slot the last create of its two names took, unless that slot was taken
again**: removes neither bind nor unbind. -/
theorem lookup_iff_since {s : Process} (hs : s.JustFormatted) {rs : List Request}
    (hrs : EachStep requestStep NewPathAdmits s rs) {p : AbsPath} (hp : p ≠ []) {x : Nat} :
    (exec requestStep s rs).tbl.lookup p = some x ↔ Since requestStep (TakesFor p x) (TakesSlot x) s rs := by
  have hinv : ∀ s r, NamesKept s → NewPathAdmits s r → NamesKept (requestStep s r) :=
    fun _ _ h hr => namesKept_requestStep h hr
  have hstep : ∀ s r, NamesKept s → NewPathAdmits s r → ((requestStep s r).tbl.lookup p = some x ↔
      TakesFor p x s r ∨ (s.tbl.lookup p = some x ∧ ¬ TakesSlot x s r)) :=
    fun _ _ h hr => lookup_requestStep h hr hp
  have hstart : s.tbl.lookup p ≠ some x := by
    intro hx
    obtain ⟨h1, hlt, hu⟩ := hs.inv.lookup_used hp hx
    have hsize := hs.inv.le_size
    have hunused : s.tbl.Unused x := ⟨hs.tbl.inodes x h1 (by omega), by rw [hs.tbl.ibit, if_neg (by omega)]⟩
    exact hunused.not_used h1 (by omega) hu
  rw [exec_iff_since (P := fun s => s.tbl.lookup p = some x) hinv hstep hs.namesKept hrs]
  exact or_iff_left fun h => hstart h.1

theorem lookup_iff_since_reopenedPath :
    (exec requestStep (formatted 200000) reopenedPath).tbl.lookup [.a] = some 1 ↔
      Since requestStep (TakesFor [.a] 1) (TakesSlot 1) (formatted 200000) reopenedPath :=
  lookup_iff_since justFormatted_three reopenedPath_run (by decide)

/-! ## What is allocated -/

theorem alloc_requestStep {s : Process} {r : Request} {x : Nat} (h : NamesKept s) (hr : NewPathAdmits s r) :
    (requestStep s r).tbl.Alloc x ↔ TakesSlot x s r ∨ (s.tbl.Alloc x ∧ ¬ r.frees s = some x) := by
  have hlive : ∀ s : Process, s.tbl.Alloc x ↔ s.tbl.names.live x = true := fun s => decide_eq_true_iff.symm
  rw [hlive, hlive]
  rcases names_requestStep_cases h hr with
    ⟨q, e, mode, i, hi, _, _, _, htakes, hfrees, hnames⟩ | ⟨f, _, _, htakes, hfrees, hnames⟩ |
      ⟨htakes, hfrees, hnames⟩ <;>
    rw [hnames, TakesSlot, htakes, hfrees]
  · change Function.update s.tbl.names.live i true x = true ↔ _
    rw [Function.update_apply]
    by_cases hx : x = i
    · simp [hx]
    · simp [hx, Ne.symm hx]
  · change Function.update s.tbl.names.live f false x = true ↔ _
    rw [Function.update_apply]
    by_cases hx : x = f
    · simp [hx]
    · simp [hx, Ne.symm hx]
  · simp

/-- **A slot is allocated iff a create took it and no remove freed it since.** -/
theorem alloc_iff_since {s : Process} (hs : s.JustFormatted) {rs : List Request}
    (hrs : EachStep requestStep NewPathAdmits s rs) {x : Nat} (hx : x ≠ 0) :
    (exec requestStep s rs).tbl.Alloc x ↔ Since requestStep (TakesSlot x) (fun s r => r.frees s = some x) s rs := by
  have hinv : ∀ s r, NamesKept s → NewPathAdmits s r → NamesKept (requestStep s r) :=
    fun _ _ h hr => namesKept_requestStep h hr
  have hstep : ∀ s r, NamesKept s → NewPathAdmits s r → ((requestStep s r).tbl.Alloc x ↔
      TakesSlot x s r ∨ (s.tbl.Alloc x ∧ ¬ r.frees s = some x)) :=
    fun _ _ h hr => alloc_requestStep h hr
  have hstart : ¬ s.tbl.Alloc x := by
    rw [Table.Alloc, hs.tbl.ibit, if_neg hx]
    decide
  rw [exec_iff_since (P := fun s => s.tbl.Alloc x) hinv hstep hs.namesKept hrs]
  exact or_iff_left fun h => hstart h.1

theorem alloc_iff_since_reopenedPath : (exec requestStep (formatted 200000) reopenedPath).tbl.Alloc 1 ↔
    Since requestStep (TakesSlot 1) (fun s r => r.frees s = some 1) (formatted 200000) reopenedPath :=
  alloc_iff_since justFormatted_three reopenedPath_run (by decide)

/-! ## When a create fails -/

theorem capacity_names_run {s : Process} (hs : NamesKept s) {rs : List Request}
    (hrs : EachStep requestStep NewPathAdmits s rs) : (exec requestStep s rs).tbl.count = s.tbl.count := by
  have hstep : ∀ s' r, (NamesKept s' ∧ s'.tbl.count = s.tbl.count) → NewPathAdmits s' r →
      NamesKept (requestStep s' r) ∧ (requestStep s' r).tbl.count = s.tbl.count := by
    intro s' r h hr
    refine ⟨namesKept_requestStep h.1 hr, ?_⟩
    rw [← h.2]
    change (requestStep s' r).tbl.names.capacity = s'.tbl.names.capacity
    rcases names_requestStep_cases h.1 hr with
      ⟨_, _, _, _, _, _, _, _, _, _, hnames⟩ | ⟨_, _, _, _, _, hnames⟩ | ⟨_, _, hnames⟩ <;> rw [hnames] <;> rfl
  exact (EachStep.invariant hstep ⟨hs, rfl⟩ hrs).2

/-- **Slots in use, slots taken, slots freed.** -/
theorem used_add_tally {s : Process} (hs : NamesKept s) {rs : List Request}
    (hrs : EachStep requestStep NewPathAdmits s rs) :
    (exec requestStep s rs).tbl.names.used + tally requestStep (fun s r => r.freesAllocated s) s rs =
      s.tbl.names.used + tally requestStep (fun s r => (r.takes s).isSome) s rs := by
  have hinv : ∀ s r, NamesKept s → NewPathAdmits s r → NamesKept (requestStep s r) :=
    fun _ _ h hr => namesKept_requestStep h hr
  refine exec_add_tally (f := fun s => s.tbl.names.used) (A := fun s r => (r.takes s).isSome)
    (B := fun s r => r.freesAllocated s) hinv (fun s r h hr => ?_) hs hrs
  rcases names_requestStep_cases h hr with
    ⟨q, e, mode, i, hi, _, hfree, _, htakes, hfrees, hnames⟩ | ⟨f, _, hf, htakes, hfrees, hnames⟩ |
      ⟨htakes, hfrees, hnames⟩
  · rw [hnames, SlotMap.used_take hfree]
    simp [Request.freesAllocated, htakes, hfrees]
  · have hrelease := SlotMap.used_release (m := s.tbl.names) hf
    have hlive : s.tbl.names.live f = true ↔ s.tbl.Alloc f := decide_eq_true_iff
    simp only [hlive] at hrelease
    rw [hnames]
    simp only [Request.freesAllocated, htakes, hfrees, Option.some_inj, exists_eq_left', Option.isSome_none,
      Bool.false_eq_true, if_false, Nat.add_zero]
    exact hrelease
  · rw [hnames]
    simp [Request.freesAllocated, htakes, hfrees]

/-- **A create below a parent that resolves fails iff as many slots are taken and not freed as there are**,
the root's not counted. A remove of a slot already freed does not count. -/
theorem createInode_eq_none_iff {s : Process} (hs : s.JustFormatted) {rs : List Request}
    (hrs : EachStep requestStep NewPathAdmits s rs) {p : AbsPath}
    (hparent : (exec requestStep s rs).tbl.lookup p.parent ≠ none) (e : Env) (mode : BitVec 32) :
    (createInode e p.str mode (exec requestStep s rs)).1 = none ↔
      tally requestStep (fun s r => (r.takes s).isSome) s rs =
        tally requestStep (fun s r => r.freesAllocated s) s rs + (s.tbl.count - 1) := by
  have hend := namesKept_run hs hrs
  have hbalance := used_add_tally hs.namesKept hrs
  have hcount := capacity_names_run hs.namesKept hrs
  have h2 := hs.two_le
  have hstart : s.tbl.names.used = 1 := by
    have hset : {x ∈ Finset.range s.tbl.names.capacity | s.tbl.names.live x = true} = {0} := by
      ext x
      change x ∈ Finset.filter (fun x => decide (s.tbl.Alloc x) = true) (Finset.range s.tbl.count) ↔ _
      rw [Finset.mem_filter, Finset.mem_range, Finset.mem_singleton, decide_eq_true_eq, Table.Alloc, hs.tbl.ibit]
      by_cases hx : x = 0
      · simp only [hx, if_true, and_true, iff_true]
        omega
      · simp [hx]
    rw [SlotMap.used, hset, Finset.card_singleton]
  have hfull : (createInode e p.str mode (exec requestStep s rs)).1 = none ↔
      (exec requestStep s rs).tbl.freeSlot = none := by
    rcases createInode_cases e p mode (exec requestStep s rs) with ⟨i, parent, hi, _, heq⟩ | ⟨hno, heq⟩ <;> rw [heq]
    · rw [hi]
    · exact iff_of_true rfl (hno.resolve_right hparent)
  have hroot : (exec requestStep s rs).tbl.names.live 0 = true := decide_eq_true hend.inv.rootAlloc
  rw [hfull, ← Table.free_names, SlotMap.free_eq_none_iff_used hroot]
  change (exec requestStep s rs).tbl.names.used = (exec requestStep s rs).tbl.count ↔ _
  omega

theorem createInode_eq_none_iff_reopenedPath :
    (createInode ⟨1000, 1000, 0⟩ (AbsPath.str [.c]) 0o644
        (exec requestStep (formatted 200000) reopenedPath)).1 = none ↔
      tally requestStep (fun s r => (r.takes s).isSome) (formatted 200000) reopenedPath =
        tally requestStep (fun s r => r.freesAllocated s) (formatted 200000) reopenedPath +
          ((formatted 200000).tbl.count - 1) :=
  createInode_eq_none_iff justFormatted_three reopenedPath_run (by simp [AbsPath.parent]) _ _

/-! ## The scan nothing calls -/

/-- `getFreeInodeNum` starts at the root and asks for 0, `create_inode` at slot 1 and asks for anything but 1. -/
theorem getFreeInodeNum_eq {t : Table} (h : t.Inv) :
    getFreeInodeNum t.sBlock = t.freeSlot.elim (-1) fun i => (i : Int) := by
  have hscan : (List.range t.count).find? (fun i => decide (t.sBlock.ibit i = 0)) = t.freeSlot := by
    have hrange : List.range t.count = 0 :: List.range' 1 (t.count - 1) := by
      have h2 := h.two_le
      rw [List.range_eq_range', show t.count = t.count - 1 + 1 by omega, List.range'_succ]
      rfl
    have hroot : ¬ t.sBlock.ibit 0 = 0 := by
      rw [h.rootAlloc]
      decide
    rw [hrange, List.find?_cons_of_neg (by simpa using hroot), Table.freeSlot]
    refine congrArg (List.find? · _) (funext fun i => decide_eq_decide.2 ?_)
    rcases h.bit i with hbit | hbit <;> simp [hbit]
  rw [getFreeInodeNum, show t.sBlock.numInodes.toInt.toNat = t.count from rfl, hscan]
  cases t.freeSlot <;> rfl

/-- **It finds the slot `create_inode` takes**, in every state the inode calls can reach. -/
theorem getFreeInodeNum_run {s : Process} (hs : s.JustFormatted) {cs : List InodeCall} (hcs : ∀ c ∈ cs, c.NonRoot)
    {p : AbsPath} (hparent : (exec inodeStep s cs).tbl.lookup p.parent ≠ none) (e : Env) (mode : BitVec 32) :
    getFreeInodeNum (exec inodeStep s cs).tbl.sBlock =
      (createInode e p.str mode (exec inodeStep s cs)).1.elim (-1) fun i => (i : Int) := by
  rw [getFreeInodeNum_eq (exec_inodeStep_inv hs.inv hcs), createInode_fst, if_neg hparent]

theorem getFreeInodeNum_run_freedSlot : getFreeInodeNum (exec inodeStep (formatted 200000) freedSlot).tbl.sBlock =
    (createInode ⟨1000, 1000, 0⟩ (AbsPath.str [.c]) 0o644 (exec inodeStep (formatted 200000) freedSlot)).1.elim (-1)
      fun i => (i : Int) :=
  getFreeInodeNum_run justFormatted_three freedSlot_run.1 (by simp [AbsPath.parent]) _ _

end Sfs
