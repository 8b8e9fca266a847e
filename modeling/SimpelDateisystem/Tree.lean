import SimpelDateisystem.Runs
import SimpelDateisystem.Lib.ParentChain

/-!
# Are the parent links a tree?

The links are the numbers `parent_inumber`. A remove leaves them alone; a create re-parents one
slot (`parentOf_created_eq_update`). The slot is the lowest free one, the new parent is what the
lookup says, and the lookup finds freed slots too: nothing keeps the slot off the chain of its new
parent. `parentTree_iff`: the links are a tree all along a run iff every create of it does.
-/

namespace Sfs

open Trace ParentChain

/-- The links lead from every allocated inode to the root within `numInodes` steps, and never back. -/
structure ParentTree (t : Table) : Prop where
  reaches : ∀ x < t.count, t.Alloc x → ∃ k ≤ t.count, t.parentOf^[k] x = 0
  acyclic : ∀ x < t.count, t.Alloc x → x ≠ 0 → ∀ k, t.parentOf^[k + 1] x ≠ x

/-- If the call takes a slot, the slot is neither its new parent nor one of the parent's ancestors. -/
def SlotOffChain (s : Process) (c : FuseCall) : Prop :=
  ∀ p mode i parent, c.Takes s.tbl p mode i parent → ¬ OnChain s.tbl.parentOf i parent

namespace Table

variable {t : Table} {p : AbsPath} {e : Env} {mode : BitVec 32} {i parent f : Nat}

theorem parentOf_created_eq_update (h : t.Inv) (hparent : t.lookup p.parent = some parent) :
    (t.created e p mode i parent).parentOf = Function.update t.parentOf i parent := by
  funext y
  rw [h.parentOf_created hparent, Function.update_apply]

/-- Untouched slots have parent 0, the others a parent inside the table. -/
theorem Inv.parentOf_lt (h : t.Inv) {x : Nat} (hx : x < t.count) : t.parentOf x < t.count := by
  have h2 := h.two_le
  by_cases h0 : x = 0
  · rw [h0, h.parentOf_root]; omega
  rcases h.slot x (by omega) (Nat.lt_of_lt_of_le hx h.le_size) with hu | hu
  · rw [parentOf, hu.record]
    exact Nat.lt_of_lt_of_le Nat.zero_lt_two h2
  · exact (h.parentOf_used hu).1

/-- All slots, freed ones included, are led to the root. -/
def AllReach (t : Table) : Prop := ∀ x < t.count, Reaches t.parentOf 0 x

theorem AllReach.parentTree (hr : AllReach t) (h : t.Inv) : ParentTree t where
  reaches x hx _ := by
    obtain ⟨k, hk, hroot⟩ := (hr x hx).exists_lt (fun y => h.parentOf_lt) hx
    exact ⟨k, Nat.le_of_lt hk, hroot⟩
  acyclic x hx _ h0 := (hr x hx).no_cycle h.parentOf_root h0

theorem Formatted.allReach {t : Table} (h : t.Formatted) (hsize : t.count ≤ TABLE_SIZE) : AllReach t := by
  intro x hx
  by_cases h0 : x = 0
  · exact ⟨0, h0⟩
  · refine ⟨1, ?_⟩
    rw [Function.iterate_one, parentOf, h.inodes x (by omega) (by omega)]
    rfl

theorem allReach_created (h : t.Inv) (hparent : t.lookup p.parent = some parent)
    (hoff : ¬ OnChain t.parentOf i parent) (hr : AllReach t) : AllReach (t.created e p mode i parent) := by
  intro x hx
  rw [count_created] at hx
  rw [parentOf_created_eq_update h hparent]
  exact reaches_update (hr parent (h.lookup_inumber hparent).1) hoff (hr x hx)

/-- A slot taken below itself is cut off from the root. -/
theorem not_parentTree_created (h : t.Inv) (hi : t.freeSlot = some i)
    (hparent : t.lookup p.parent = some parent) (hon : OnChain t.parentOf i parent) :
    ¬ ParentTree (t.created e p mode i parent) := by
  intro htree
  obtain ⟨h1, hlt, _⟩ := freeSlot_spec hi
  obtain ⟨k, _, hk⟩ := htree.reaches i (by rwa [count_created]) ((h.alloc_created hlt i).2 (.inl rfl))
  rw [parentOf_created_eq_update h hparent] at hk
  exact not_reaches_update h.parentOf_root (by omega) hon ⟨k, hk⟩

theorem allReach_removed (h : t.Inv) (hu : t.Used f) (hr : AllReach t) :
    AllReach (t.removed f (t.parentOf f)) := by
  intro x hx
  rw [count_removed] at hx
  have heq : (t.removed f (t.parentOf f)).parentOf = t.parentOf := funext (h.parentOf_removed hu)
  rw [heq]
  exact hr x hx

end Table

/-- One call whose slot is off the chain keeps every slot connected to the root. -/
theorem allReach_fuseStep {s : Process} {c : FuseCall} (h : s.tbl.Inv) (hc : c.NonRoot)
    (hoff : SlotOffChain s c) (hr : s.tbl.AllReach) : (fuseStep s c).tbl.AllReach := by
  rcases fuseStep_cases h hc with ⟨p, mode, i, parent, ht, htbl⟩ | ⟨p, f, hp, hf, htbl⟩ | ⟨_, _, htbl⟩
  · rw [htbl]
    exact Table.allReach_created h ht.2.2 (hoff p mode i parent ht) hr
  · rw [htbl]
    exact Table.allReach_removed h (h.lookup_used hp hf.2).2.2 hr
  · rwa [htbl]

/-- **The links are a tree all along a run iff no create takes a slot its parent descends from.** -/
theorem parentTree_iff {s : Process} (hs : s.JustFormatted) {cs : List FuseCall}
    (hcs : EachStep fuseStep ParentAdmits s cs) :
    Always fuseStep (fun s => ParentTree s.tbl) s cs ↔ EachStep fuseStep SlotOffChain s cs := by
  have good : ∀ s c, s.tbl.Inv ∧ s.tbl.AllReach → ParentAdmits s c → SlotOffChain s c →
      (fuseStep s c).tbl.Inv ∧ (fuseStep s c).tbl.AllReach :=
    fun s c h hc hoff => ⟨fuseStep_inv h.1 hc.nonRoot, allReach_fuseStep h.1 hc.nonRoot hoff h.2⟩
  have bad : ∀ s c, s.tbl.Inv ∧ s.tbl.AllReach → ParentAdmits s c → ¬ SlotOffChain s c →
      ¬ ParentTree (fuseStep s c).tbl := by
    intro s c h _ hon
    simp only [SlotOffChain, not_forall, not_not] at hon
    obtain ⟨p, mode, i, parent, ht, hon⟩ := hon
    rw [ht.tbl]
    exact Table.not_parentTree_created h.1 ht.2.1 ht.2.2 hon
  exact always_iff (fun _ h => h.2.parentTree h.1) good bad ⟨hs.inv, hs.tbl.allReach hs.le_size⟩ hcs

/-- A directory `/a` is made and removed; then a file `/a/b` is created. -/
def reuseBelowItself : List FuseCall :=
  [⟨.mkdir [.a] 493, ⟨1000, 1000, 0⟩⟩,
   ⟨.rmdir [.a], ⟨1000, 1000, 0⟩⟩,
   ⟨.create [.a, .b] 0o644, ⟨1000, 1000, 0⟩⟩]

theorem reuseBelowItself_run : EachStep fuseStep ParentAdmits (formatted 200000) reuseBelowItself ∧
    1 < (exec fuseStep (formatted 200000) reuseBelowItself).tbl.count ∧
    (exec fuseStep (formatted 200000) reuseBelowItself).tbl.Alloc 1 ∧
    (exec fuseStep (formatted 200000) reuseBelowItself).tbl.parentOf 1 = 1 := by
  decide +kernel

theorem parentTree_iff_reuseBelowItself :
    Always fuseStep (fun s => ParentTree s.tbl) (formatted 200000) reuseBelowItself ↔
      EachStep fuseStep SlotOffChain (formatted 200000) reuseBelowItself :=
  parentTree_iff justFormatted_three reuseBelowItself_run.1

/-- `/a/b` gets the slot `/a` had, and is its own parent. -/
theorem parentTree_fails : EachStep fuseStep ParentAdmits (formatted 200000) reuseBelowItself ∧
    ¬ ParentTree (exec fuseStep (formatted 200000) reuseBelowItself).tbl := by
  obtain ⟨hadmits, hlt, halloc, hself⟩ := reuseBelowItself_run
  refine ⟨hadmits, fun htree => htree.acyclic 1 hlt halloc (by decide) 0 ?_⟩
  rw [Nat.zero_add, Function.iterate_one, hself]

end Sfs
