import SimpelDateisystem.Runs
import Mathlib.Data.List.Induction

/-!
# Does the lookup respect the whole path?

A slot stores its own name and its parent's, and the lookup compares the last two components of the
path with these. `Spells` reads a path off the parent links instead. Without removes the stored
pairs are distinct and true (`Table.Grown`), so that the lookup of `p` errs only where another
inode's path ends in the same two names: `lookupExact_iff` settles it for one path, and for all
paths at once — the lookup is right for all of them iff nothing is created below the top level.
-/

namespace Sfs

open Trace

/-- The names along the parent links from `x` up to slot 0 are those of the list. -/
def SpellsUp (t : Table) : List Component → Nat → Prop
  | [], x => x = 0
  | c :: cs, x => x ≠ 0 ∧ (t.inodes x).name = c.bytes ∧ SpellsUp t cs (t.parentOf x)

/-- The parent links of `x` spell `p`. -/
def Spells (t : Table) (x : Nat) (p : AbsPath) : Prop := SpellsUp t p.reverse x

instance SpellsUp.decidable (t : Table) : ∀ (cs : List Component) (x : Nat), Decidable (SpellsUp t cs x)
  | [], x => inferInstanceAs (Decidable (x = 0))
  | _ :: cs, x => @instDecidableAnd _ _ _ (@instDecidableAnd _ _ _ (SpellsUp.decidable t cs (t.parentOf x)))

instance (t : Table) (x : Nat) (p : AbsPath) : Decidable (Spells t x p) := SpellsUp.decidable t _ x

/-- The lookup of `p` finds the allocated inode at `p`, and nothing else. -/
def LookupExact (t : Table) (p : AbsPath) : Prop :=
  ∀ x, t.lookup p = some x ↔ x < t.count ∧ t.Alloc x ∧ Spells t x p

/-- If the call takes a slot, it is for a path directly below the root. -/
def AtTopLevel (s : Process) (c : FuseCall) : Prop :=
  ∀ p mode i parent, c.Takes s.tbl p mode i parent → p.parent = []

@[simp] theorem spells_nil {t : Table} {x : Nat} : Spells t x [] ↔ x = 0 := Iff.rfl

theorem spells_concat {t : Table} {x : Nat} {q : AbsPath} {c : Component} :
    Spells t x (q ++ [c]) ↔ x ≠ 0 ∧ (t.inodes x).name = c.bytes ∧ Spells t (t.parentOf x) q := by
  simp [Spells, SpellsUp]

/-- The links from one slot spell one path. -/
theorem Spells.unique {t : Table} {x : Nat} {p q : AbsPath} (hp : Spells t x p) (hq : Spells t x q) : p = q := by
  induction p using List.reverseRecOn generalizing x q with
  | nil =>
    obtain rfl | ⟨q', c, rfl⟩ := q.eq_nil_or_concat
    · rfl
    · rw [List.concat_eq_append, spells_concat] at hq
      exact absurd (spells_nil.1 hp) hq.1
  | append_singleton p c ih =>
    rw [spells_concat] at hp
    obtain rfl | ⟨q', d, rfl⟩ := q.eq_nil_or_concat
    · exact absurd (spells_nil.1 hq) hp.1
    · rw [List.concat_eq_append, spells_concat] at hq
      have hcd : c = d := by
        obtain ⟨cb, _, _, _, _⟩ := c
        obtain ⟨db, _, _, _, _⟩ := d
        obtain rfl : cb = db := hp.2.1.symm.trans hq.2.1
        rfl
      rw [ih hp.2.2 hq.2.2, hcd, List.concat_eq_append]

namespace Table

/-- What creates without removes make of a table: free slots are nameless, the pairs of names are
distinct, and the second name of a slot is the first of its parent. -/
structure Grown (t : Table) : Prop where
  freeNameless : ∀ x, 1 ≤ x → x < t.count → ¬ t.Alloc x → (t.inodes x).name = []
  named : ∀ x, 1 ≤ x → x < t.count → t.Alloc x → ∃ c : Component, (t.inodes x).name = c.bytes
  distinct : ∀ x y, 1 ≤ x → x < t.count → t.Alloc x → 1 ≤ y → y < t.count → t.Alloc y →
    (t.inodes x).name = (t.inodes y).name → (t.inodes x).dir = (t.inodes y).dir → x = y
  dir : ∀ x, 1 ≤ x → x < t.count → t.Alloc x →
    (t.inodes x).dir = if t.parentOf x = 0 then [slash] else (t.inodes (t.parentOf x)).name
  parents : t.ParentsAlloc

theorem Formatted.grown {t : Table} (h : t.Formatted) (hsize : t.count ≤ TABLE_SIZE) : t.Grown := by
  have hfree : ∀ x, 1 ≤ x → ¬ t.Alloc x := by
    intro x hx
    rw [Alloc, h.ibit, if_neg (by omega)]
    decide
  refine ⟨?_, ?_, ?_, ?_, h.parentsAlloc⟩
  · intro x h1 hx _
    rw [h.inodes x h1 (Nat.lt_of_lt_of_le hx hsize), FileControlBlock.name_zero]
  · exact fun x h1 _ ha => absurd ha (hfree x h1)
  · exact fun x y h1 _ ha => absurd ha (hfree x h1)
  · exact fun x h1 _ ha => absurd ha (hfree x h1)

variable {t : Table} {p : AbsPath} {x : Nat}

/-- Below the root a slot that carries names is allocated. -/
theorem Grown.alloc_of_carries (hg : t.Grown) (h : t.Inv) (hp : p ≠ []) (hx : x < t.count)
    (hc : t.Carries x p) : t.Alloc x := by
  by_contra hfree
  refine AbsPath.leaf_ne_nil hp ?_
  rw [← hc.1, hg.freeNameless x (h.used_of_carries hp hx hc).1 hx hfree]

/-- **The lookup finds the one slot that carries the last two names.** -/
theorem Grown.lookup_iff (hg : t.Grown) (h : t.Inv) (hp : p ≠ []) :
    t.lookup p = some x ↔ x < t.count ∧ t.Carries x p := by
  refine ⟨carries_of_lookup hp, fun ⟨hx, hc⟩ => ?_⟩
  rcases lookup_cases hp with ⟨y, hy, hcy, _, hl⟩ | ⟨hno, _⟩
  · rw [hl, hg.distinct y x (h.used_of_carries hp hy hcy).1 hy (hg.alloc_of_carries h hp hy hcy)
      (h.used_of_carries hp hx hc).1 hx (hg.alloc_of_carries h hp hx hc)
      (hcy.1.trans hc.1.symm) (hcy.2.trans hc.2.symm)]
  · exact absurd hc (hno x hx)

/-- An inode carries the last two names of its own path. -/
theorem Grown.carries_of_spells (hg : t.Grown) (hp : p ≠ []) (hx : x < t.count) (ha : t.Alloc x)
    (hs : Spells t x p) : t.Carries x p := by
  obtain rfl | ⟨q, c, rfl⟩ := p.eq_nil_or_concat
  · exact absurd rfl hp
  rw [List.concat_eq_append, spells_concat] at hs
  obtain ⟨h0, hname, hq⟩ := hs
  refine ⟨by rw [List.concat_eq_append, AbsPath.leaf_concat, hname], ?_⟩
  rw [hg.dir x (by omega) hx ha, List.concat_eq_append]
  obtain rfl | ⟨q, d, rfl⟩ := q.eq_nil_or_concat
  · rw [if_pos (spells_nil.1 hq)]
    exact (AbsPath.parentName_top c).symm
  · rw [List.concat_eq_append, spells_concat] at hq
    rw [if_neg hq.1, List.concat_eq_append, AbsPath.parentName_concat, hq.2.1]

/-- **One path.** -/
theorem Grown.lookupExact_iff_spells (hg : t.Grown) (h : t.Inv) :
    LookupExact t p ↔ ∀ x < t.count, t.Alloc x → t.Carries x p → Spells t x p := by
  by_cases hp : p = []
  · subst hp
    constructor
    · intro _ x hx ha hc
      by_contra h0
      obtain ⟨c, hname⟩ := hg.named x (Nat.one_le_iff_ne_zero.2 h0) hx ha
      exact c.nonempty (hname.symm.trans hc.1)
    · intro _ x
      rw [lookup_nil, spells_nil, Option.some_inj]
      refine ⟨?_, fun hx => hx.2.2.symm⟩
      rintro rfl
      exact ⟨Nat.lt_of_lt_of_le Nat.zero_lt_two h.two_le, h.rootAlloc, rfl⟩
  · constructor
    · intro hexact x hx _ hc
      exact ((hexact x).1 ((hg.lookup_iff h hp).2 ⟨hx, hc⟩)).2.2
    · intro hspell x
      rw [hg.lookup_iff h hp]
      constructor
      · intro ⟨hx, hc⟩
        have ha := hg.alloc_of_carries h hp hx hc
        exact ⟨hx, ha, hspell x hx ha hc⟩
      · intro ⟨hx, ha, hs⟩
        exact ⟨hx, hg.carries_of_spells hp hx ha hs⟩

/-- Everything allocated is directly below the root. -/
def Flat (t : Table) : Prop := ∀ x < t.count, t.Alloc x → t.parentOf x = 0

/-- **All paths.** An inode below another directory also answers to a path it is not at. -/
theorem Grown.lookupExact_all_iff (hg : t.Grown) (h : t.Inv) : (∀ p, LookupExact t p) ↔ t.Flat := by
  constructor
  · intro hexact x hx ha
    by_contra hpar
    have h0 : x ≠ 0 := by
      rintro rfl
      exact hpar h.parentOf_root
    have hparlt := (h.parentOf_used (h.used_of_alloc (by omega) hx ha)).1
    obtain ⟨c, hc⟩ := hg.named x (by omega) hx ha
    obtain ⟨d, hd⟩ := hg.named (t.parentOf x) (by omega) hparlt (hg.parents x hx ha)
    have hdir : (t.inodes x).dir = d.bytes := by rw [hg.dir x (by omega) hx ha, if_neg hpar, hd]
    -- the same two names end the paths `d/c` and `d/d/c`
    have hspell : ∀ q : AbsPath, Spells t x (q ++ [d] ++ [c]) := by
      intro q
      refine (hg.lookupExact_iff_spells h).1 (hexact _) x hx ha ⟨?_, ?_⟩
      · rw [hc, AbsPath.leaf_concat]
      · rw [hdir, AbsPath.parentName_concat]
    have heq := (hspell []).unique (hspell [d])
    simp at heq
  · intro hflat p
    refine (hg.lookupExact_iff_spells h).2 fun x hx ha hc => ?_
    by_cases h0 : x = 0
    · rw [h0] at hc
      exact absurd (hc.1.symm.trans h.rootName) (AbsPath.leaf_ne_root p)
    have hp : p ≠ [] := by
      rintro rfl
      obtain ⟨c, hname⟩ := hg.named x (by omega) hx ha
      exact c.nonempty (hname.symm.trans hc.1)
    have hdir := hg.dir x (by omega) hx ha
    rw [if_pos (hflat x hx ha), hc.2, AbsPath.parentName_eq_root_iff] at hdir
    obtain rfl | ⟨q, c, rfl⟩ := p.eq_nil_or_concat
    · exact absurd rfl hp
    rw [List.concat_eq_append] at hc hdir ⊢
    rw [AbsPath.parent_concat] at hdir
    rw [spells_concat, hdir, spells_nil]
    exact ⟨h0, hc.1.trans (AbsPath.leaf_concat q c), hflat x hx ha⟩

/-! ## Creates -/

section created

variable {e : Env} {mode : BitVec 32} {i parent : Nat}

/-- Among allocated slots only, a parent found by the lookup is allocated. -/
theorem Grown.alloc_of_lookup (hg : t.Grown) (h : t.Inv) (hx : t.lookup p = some x) : t.Alloc x := by
  by_cases hp : p = []
  · rw [hp, lookup_nil] at hx
    cases hx
    exact h.rootAlloc
  · obtain ⟨hlt, hc⟩ := carries_of_lookup hp hx
    exact hg.alloc_of_carries h hp hlt hc

theorem Grown.created (hg : t.Grown) (h : t.Inv) (hi : t.freeSlot = some i)
    (hparent : t.lookup p.parent = some parent) (hnone : t.lookup p = none) :
    (t.created e p mode i parent).Grown := by
  obtain ⟨hi1, hlt, hfree⟩ := freeSlot_spec hi
  have hp := Table.ne_nil_of_lookup_eq_none hnone
  have halloc : ∀ y, (t.created e p mode i parent).Alloc y ↔ y = i ∨ t.Alloc y := h.alloc_created hlt
  have hpa := hg.alloc_of_lookup h hparent
  constructor
  case freeNameless =>
    intro y h1 hy hfree'
    rw [count_created] at hy
    rw [halloc, not_or] at hfree'
    rw [name_created, if_neg hfree'.1, hg.freeNameless y h1 hy hfree'.2]
  case named =>
    intro y h1 hy ha
    rw [count_created] at hy
    rw [name_created]
    by_cases hyi : y = i
    · obtain rfl | ⟨q, c, rfl⟩ := p.eq_nil_or_concat
      · exact absurd rfl hp
      · exact ⟨c, by rw [if_pos hyi, List.concat_eq_append, AbsPath.leaf_concat]⟩
    · rw [if_neg hyi]
      exact hg.named y h1 hy (((halloc y).1 ha).resolve_left hyi)
  case distinct =>
    intro y z hy1 hy hya hz1 hz hza hname hdir
    rw [count_created] at hy hz
    by_contra hyz
    obtain ⟨hyi, hzi, hname', hdir'⟩ := sameNames_created hnone hy hz hyz hname hdir
    exact hyz (hg.distinct y z hy1 hy (((halloc y).1 hya).resolve_left hyi) hz1 hz
      (((halloc z).1 hza).resolve_left hzi) hname' hdir')
  case dir =>
    intro y h1 hy ha
    rw [count_created] at hy
    rw [dir_created, h.parentOf_created hparent]
    by_cases hyi : y = i
    · have hne : parent ≠ i := fun heq => hfree (heq ▸ hpa)
      rw [if_pos hyi, if_pos hyi, name_created, if_neg hne]
      rcases p.parentName_cases with ⟨htop, hname⟩ | ⟨htop, hname⟩
      · rw [htop, lookup_nil] at hparent
        cases hparent
        rw [if_pos rfl, hname]
      · obtain ⟨h1, _, _⟩ := h.lookup_used htop hparent
        rw [if_neg (by omega), hname, (carries_of_lookup htop hparent).2.1]
    · have ha' := ((halloc y).1 ha).resolve_left hyi
      -- the parent of an allocated slot is allocated, so it is not the slot just taken
      have hne : t.parentOf y ≠ i := fun heq => hfree (heq ▸ hg.parents y hy ha')
      rw [if_neg hyi, if_neg hyi, name_created, if_neg hne, hg.dir y h1 hy ha']
  case parents => exact (parentsAlloc_created_iff h hi hparent hg.parents).2 (.inl hpa)

theorem flat_created (h : t.Inv) (hi : t.freeSlot = some i) (hparent : t.lookup p.parent = some parent)
    (hflat : t.Flat) : (t.created e p mode i parent).Flat ↔ p.parent = [] := by
  obtain ⟨_, hlt, _⟩ := freeSlot_spec hi
  have halloc : ∀ y, (t.created e p mode i parent).Alloc y ↔ y = i ∨ t.Alloc y := h.alloc_created hlt
  constructor
  · intro hflat'
    have h0 := hflat' i (by rwa [count_created]) ((halloc i).2 (.inl rfl))
    rw [h.parentOf_created hparent, if_pos rfl] at h0
    by_contra htop
    have := (h.lookup_used htop hparent).1
    omega
  · intro htop y hy ha
    rw [count_created] at hy
    rw [htop, lookup_nil] at hparent
    cases hparent
    rw [h.parentOf_created (by rw [htop, lookup_nil])]
    by_cases hyi : y = i
    · rw [if_pos hyi]
    · rw [if_neg hyi]
      exact hflat y hy (((halloc y).1 ha).resolve_left hyi)

end created

theorem Formatted.flat {t : Table} (h : t.Formatted) : t.Flat := by
  intro x _ ha
  have h0 : x = 0 := by
    by_contra hne
    rw [Alloc, h.ibit, if_neg hne] at ha
    exact absurd ha (by decide)
  rw [h0, parentOf, h.rootParent]
  rfl

end Table

/-! ## Runs -/

theorem grown_fuseStep {s : Process} {c : FuseCall} (h : s.tbl.Inv) (hg : s.tbl.Grown)
    (hc : CreateAdmits s c) : (fuseStep s c).tbl.Grown := by
  rcases fuseStep_cases h hc.nonRoot with ⟨p, mode, i, parent, ht, htbl⟩ | ⟨p, f, _, hf, _⟩ | ⟨_, _, htbl⟩
  · rw [htbl]
    exact hg.created h ht.2.1 ht.2.2 (hc.lookup_of_takes ht)
  · exact absurd hf hc.not_frees
  · rwa [htbl]

theorem flat_fuseStep_iff {s : Process} {c : FuseCall} (h : s.tbl.Inv) (hflat : s.tbl.Flat)
    (hc : CreateAdmits s c) : (fuseStep s c).tbl.Flat ↔ AtTopLevel s c := by
  rcases fuseStep_cases h hc.nonRoot with ⟨p, mode, i, parent, ht, htbl⟩ | ⟨p, f, _, hf, _⟩ | ⟨hnt, _, htbl⟩
  · rw [htbl, Table.flat_created h ht.2.1 ht.2.2 hflat]
    refine ⟨fun htop q m i' parent' ht' => ?_, fun htop => htop p mode i parent ht⟩
    obtain ⟨rfl, _⟩ := ht.inj ht'
    exact htop
  · exact absurd hf hc.not_frees
  · rw [htbl]
    exact ⟨fun _ p mode i parent ht => absurd ht (hnt p mode i parent), fun _ => hflat⟩

/-- **When the lookup respects the whole path.** For all paths at once: all along a run iff every
create that takes a slot is directly below the root. For one path, in any state reached: iff no
allocated inode elsewhere in the tree carries the path's last two names. -/
theorem lookupExact_iff {s : Process} (hs : s.JustFormatted) {cs : List FuseCall}
    (hcs : EachStep fuseStep CreateAdmits s cs) :
    (Always fuseStep (fun s => ∀ p, LookupExact s.tbl p) s cs ↔ EachStep fuseStep AtTopLevel s cs) ∧
    ∀ p, LookupExact (exec fuseStep s cs).tbl p ↔
      ∀ x < (exec fuseStep s cs).tbl.count, (exec fuseStep s cs).tbl.Alloc x →
        (exec fuseStep s cs).tbl.Carries x p → Spells (exec fuseStep s cs).tbl x p := by
  have hstep : ∀ s c, s.tbl.Inv ∧ s.tbl.Grown → CreateAdmits s c →
      (fuseStep s c).tbl.Inv ∧ (fuseStep s c).tbl.Grown :=
    fun s c h hc => ⟨fuseStep_inv h.1 hc.nonRoot, grown_fuseStep h.1 h.2 hc⟩
  have hstart : s.tbl.Inv ∧ s.tbl.Grown := ⟨hs.inv, hs.tbl.grown hs.le_size⟩
  constructor
  · have good : ∀ s c, (s.tbl.Inv ∧ s.tbl.Grown) ∧ s.tbl.Flat → CreateAdmits s c → AtTopLevel s c →
        ((fuseStep s c).tbl.Inv ∧ (fuseStep s c).tbl.Grown) ∧ (fuseStep s c).tbl.Flat :=
      fun s c h hc htop => ⟨hstep s c h.1 hc, (flat_fuseStep_iff h.1.1 h.2 hc).2 htop⟩
    have bad : ∀ s c, (s.tbl.Inv ∧ s.tbl.Grown) ∧ s.tbl.Flat → CreateAdmits s c → ¬ AtTopLevel s c →
        ¬ ∀ p, LookupExact (fuseStep s c).tbl p := by
      intro s c h hc htop hexact
      obtain ⟨hinv, hg⟩ := hstep s c h.1 hc
      exact htop ((flat_fuseStep_iff h.1.1 h.2 hc).1 ((hg.lookupExact_all_iff hinv).1 hexact))
    exact always_iff (fun s h => (h.1.2.lookupExact_all_iff h.1.1).2 h.2) good bad
      ⟨hstart, hs.tbl.flat⟩ hcs
  · obtain ⟨hinv, hg⟩ := EachStep.invariant hstep hstart hcs
    exact fun p => hg.lookupExact_iff_spells hinv

/-- A directory `/a` with a file `/a/b` in it. -/
def fileInDirectory : List FuseCall :=
  [⟨.mkdir [.a] 493, ⟨1000, 1000, 0⟩⟩,
   ⟨.create [.a, .b] 0o644, ⟨1000, 1000, 0⟩⟩]

/-- `/c/a/b` -/
def pathCAB : AbsPath := [.c, .a, .b]

theorem fileInDirectory_run : EachStep fuseStep CreateAdmits (formatted 200000) fileInDirectory ∧
    (exec fuseStep (formatted 200000) fileInDirectory).tbl.lookup pathCAB = some 2 ∧
    ¬ Spells (exec fuseStep (formatted 200000) fileInDirectory).tbl 2 pathCAB := by
  decide +kernel

theorem lookupExact_iff_fileInDirectory :
    (Always fuseStep (fun s => ∀ p, LookupExact s.tbl p) (formatted 200000) fileInDirectory ↔
      EachStep fuseStep AtTopLevel (formatted 200000) fileInDirectory) ∧
    ∀ p, LookupExact (exec fuseStep (formatted 200000) fileInDirectory).tbl p ↔
      ∀ x < (exec fuseStep (formatted 200000) fileInDirectory).tbl.count,
        (exec fuseStep (formatted 200000) fileInDirectory).tbl.Alloc x →
        (exec fuseStep (formatted 200000) fileInDirectory).tbl.Carries x p →
        Spells (exec fuseStep (formatted 200000) fileInDirectory).tbl x p :=
  lookupExact_iff justFormatted_three fileInDirectory_run.1

/-- `/c/a/b` resolves to the file `/a/b`, though there is no `/c`. -/
theorem lookupExact_fails : EachStep fuseStep CreateAdmits (formatted 200000) fileInDirectory ∧
    ¬ LookupExact (exec fuseStep (formatted 200000) fileInDirectory).tbl pathCAB := by
  obtain ⟨hadmits, hlookup, hspells⟩ := fileInDirectory_run
  exact ⟨hadmits, fun hexact => hspells ((hexact 2).1 hlookup).2.2⟩

end Sfs
