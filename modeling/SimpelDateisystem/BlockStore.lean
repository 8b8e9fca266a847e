import SimpelDateisystem.Block
import SimpelDateisystem.Lib.Trace
import Mathlib.Logic.Function.Basic

/-!
# The disk as an array of blocks

`block_read` and `block_write` are there for a caller that wants blocks; the file system itself does
without them. `Blocks` is what such a caller may think of: an array of blocks, zero where nothing was
written. `blocks_refine`: calls that complete or fail answer as the array does.

The comment of `block_read` promises 0 for a block that has never been touched. So it is behind the last
block ever written; before it, such a block is read like any other, as zeros.
-/

namespace Sfs

open Trace ByteFile

/-- An array of blocks, with what the kernel makes of the calls to come. -/
structure Blocks where
  block : Nat → List UInt8
  /-- All blocks ever written are before this one. -/
  bound : Nat
  outcomes : List Outcome

inductive BlockCall where
  | read (n : Nat) (buf : List UInt8)
  | write (n : Nat) (buf : List UInt8)

/-- What block `n` is read as: the return value and the buffer. -/
def Blocks.get (b : Blocks) (n : Nat) : Int × List UInt8 :=
  match b.outcomes.headD .complete with
  | .fail => (-1, List.replicate BLOCK_SIZE 0)
  | _ => if n < b.bound then (BLOCK_SIZE, b.block n) else (0, List.replicate BLOCK_SIZE 0)

/-- The return value of a write, and the array afterwards. -/
def Blocks.put (b : Blocks) (n : Nat) (buf : List UInt8) : Int × Blocks :=
  match b.outcomes.headD .complete with
  | .fail => (-1, b)
  | _ => (BLOCK_SIZE, { b with block := Function.update b.block n buf, bound := max b.bound (n + 1) })

/-- The return value and the buffer after a call, and the array. -/
def Blocks.exec (b : Blocks) (c : BlockCall) : (Int × List UInt8) × Blocks :=
  match c with
  | .read n _ => (b.get n, { b with outcomes := b.outcomes.tail })
  | .write n buf => (((b.put n buf).1, buf), { (b.put n buf).2 with outcomes := b.outcomes.tail })

/-- The call `block.c` makes, on behalf of object `o`. -/
def blockStep (o : Object) (d : Disk) (c : BlockCall) : (Int × List UInt8) × Disk :=
  match c with
  | .read n buf =>
    let r := blockRead o n buf d
    ((r.1, r.2.1), r.2.2)
  | .write n buf =>
    let r := blockWrite o n buf d
    ((r.1, buf), r.2)

/-- The call completes or fails, the buffer is a block, and `block_num*BLOCK_SIZE` is an `int`. -/
def WholeBlock (d : Disk) (c : BlockCall) : Prop :=
  (d.outcomes.headD .complete = .complete ∨ d.outcomes.headD .complete = .fail) ∧
  match c with
  | .read n buf => buf.length = BLOCK_SIZE ∧ n * BLOCK_SIZE < 2 ^ 31
  | .write n buf => buf.length = BLOCK_SIZE ∧ n * BLOCK_SIZE < 2 ^ 31

/-- The blocks of the disk file. -/
def Disk.blocks (d : Disk) : Blocks where
  block n := image d.bytes (n * BLOCK_SIZE) BLOCK_SIZE
  bound := d.bytes.length / BLOCK_SIZE
  outcomes := d.outcomes

/-- The file ends with a block. -/
def Disk.Whole (d : Disk) : Prop := BLOCK_SIZE ∣ d.bytes.length

/-! ## One call -/

section call

variable {d : Disk} {n : Nat} {buf : List UInt8}

theorem block_blocks (m : Nat) : d.blocks.block m = image d.bytes (m * BLOCK_SIZE) BLOCK_SIZE := by
  simp only [Disk.blocks]

theorem blocks_eq {d' : Disk} {b : Blocks} (hblock : ∀ m, image d'.bytes (m * BLOCK_SIZE) BLOCK_SIZE = b.block m)
    (hbound : d'.bytes.length / BLOCK_SIZE = b.bound) (hout : d'.outcomes = b.outcomes) : d'.blocks = b := by
  obtain ⟨block, bound, outcomes⟩ := b
  rw [Disk.blocks, hbound, hout]
  exact congrArg (Blocks.mk · bound outcomes) (funext hblock)

/-- A read leaves the file as it is. -/
theorem blockRead_disk (o : Object)
    (hout : d.outcomes.headD .complete = .complete ∨ d.outcomes.headD .complete = .fail) :
    (blockRead o n buf d).2.2.bytes = d.bytes ∧ (blockRead o n buf d).2.2.outcomes = d.outcomes.tail := by
  have hdisk : (blockRead o n buf d).2.2 = (d.pread o BLOCK_SIZE (n * BLOCK_SIZE : Nat)).2.2 := by
    simp only [blockRead, Nat.cast_mul]
    split <;> rfl
  rw [hdisk]
  rcases hout with hout | hout
  · exact (Disk.pread_of_complete hout o BLOCK_SIZE (n * BLOCK_SIZE)).2.2
  · exact (Disk.pread_of_fail hout o BLOCK_SIZE (n * BLOCK_SIZE)).2

theorem blockRead_of_complete (o : Object) (hd : d.Whole) (hbuf : buf.length = BLOCK_SIZE)
    (hout : d.outcomes.headD .complete = .complete) :
    ((blockRead o n buf d).1, (blockRead o n buf d).2.1) = if n < d.blocks.bound then
      ((BLOCK_SIZE : Int), d.blocks.block n) else ((0 : Int), List.replicate BLOCK_SIZE 0) := by
  obtain ⟨hret, hgot, _⟩ := Disk.pread_of_complete hout o BLOCK_SIZE (n * BLOCK_SIZE)
  rw [read_block hd (show 0 < BLOCK_SIZE by decide), Nat.cast_mul] at hret hgot
  simp only [blockRead, hret, hgot]
  by_cases hn : n < d.bytes.length / BLOCK_SIZE
  · have hbound : n < d.blocks.bound := hn
    have hpos : ¬ ((BLOCK_SIZE : Nat) : Int) ≤ 0 := by decide
    have hdrop : buf.drop BLOCK_SIZE = [] := List.drop_eq_nil_of_le (Nat.le_of_eq hbuf)
    simp only [if_pos hn, if_pos hbound, length_image, if_neg hpos, hdrop, List.append_nil, block_blocks]
  · have hbound : ¬ n < d.blocks.bound := hn
    simp only [if_neg hn, if_neg hbound, List.length_nil, Nat.cast_zero, Int.le_refl, if_true]

theorem blockRead_of_fail (o : Object) (hout : d.outcomes.headD .complete = .fail) :
    ((blockRead o n buf d).1, (blockRead o n buf d).2.1) = ((-1 : Int), List.replicate BLOCK_SIZE 0) := by
  obtain ⟨hret, _⟩ := Disk.pread_of_fail hout o BLOCK_SIZE (n * BLOCK_SIZE)
  rw [Nat.cast_mul] at hret
  simp only [blockRead, hret, if_pos (show (-1 : Int) ≤ 0 by decide)]

theorem blockStep_read (o : Object) (hd : d.Whole) (hc : WholeBlock d (.read n buf)) :
    (blockStep o d (.read n buf)).2.Whole ∧ (blockStep o d (.read n buf)).1 = (d.blocks.exec (.read n buf)).1 ∧
      (blockStep o d (.read n buf)).2.blocks = (d.blocks.exec (.read n buf)).2 := by
  obtain ⟨hout, hbuf, _⟩ := hc
  have hoc : d.blocks.outcomes.headD .complete = d.outcomes.headD .complete := rfl
  obtain ⟨hbytes, htail⟩ : (blockRead o n buf d).2.2.bytes = d.bytes ∧ _ := blockRead_disk o hout
  refine ⟨?_, ?_, blocks_eq (fun m => ?_) ?_ htail⟩
  · change BLOCK_SIZE ∣ (blockRead o n buf d).2.2.bytes.length
    rw [hbytes]
    exact hd
  · change ((blockRead o n buf d).1, (blockRead o n buf d).2.1) = d.blocks.get n
    rcases hout with hout | hout
    · rw [blockRead_of_complete o hd hbuf hout]
      simp only [Blocks.get, hoc, hout]
    · rw [blockRead_of_fail o hout]
      simp only [Blocks.get, hoc, hout]
  · simp only [blockStep, Blocks.exec, hbytes, block_blocks]
  · simp only [blockStep, Blocks.exec, hbytes, Disk.blocks]

theorem blockStep_write (o : Object) (hd : d.Whole) (hc : WholeBlock d (.write n buf)) :
    (blockStep o d (.write n buf)).2.Whole ∧ (blockStep o d (.write n buf)).1 = (d.blocks.exec (.write n buf)).1 ∧
      (blockStep o d (.write n buf)).2.blocks = (d.blocks.exec (.write n buf)).2 := by
  obtain ⟨hout, hbuf, _⟩ := hc
  have hoc : d.blocks.outcomes.headD .complete = d.outcomes.headD .complete := rfl
  have hstep : blockWrite o n buf d = d.pwrite .write o buf (n * BLOCK_SIZE : Nat) := by
    simp only [blockWrite, Nat.cast_mul]
  simp only [blockStep, Blocks.exec, Blocks.put, hoc, hstep]
  rcases hout with hout | hout
  · obtain ⟨hret, hbytes, htail⟩ := Disk.pwrite_of_complete hout .write o buf (n * BLOCK_SIZE)
    have hlen := length_write_block (n := n) hd hbuf (by decide)
    simp only [hout]
    refine ⟨?_, by rw [hret, hbuf], blocks_eq (fun m => ?_) ?_ htail⟩
    · rw [Disk.Whole, hbytes, hlen]
      exact Nat.dvd_mul_left _ _
    · rw [hbytes, image_write_block hbuf, ← block_blocks, ← Function.update_apply d.blocks.block]
    · rw [hbytes, hlen, Nat.mul_div_cancel _ (by decide)]
      rfl
  · obtain ⟨hret, hbytes, htail⟩ := Disk.pwrite_of_fail hout .write o buf (n * BLOCK_SIZE)
    simp only [hout]
    refine ⟨?_, by rw [hret], blocks_eq (fun m => ?_) ?_ htail⟩
    · rw [Disk.Whole, hbytes]
      exact hd
    · simp only [hbytes, block_blocks]
    · simp only [hbytes, Disk.blocks]

end call

/-- **Calls that complete or fail answer as an array of blocks does**, and leave what it holds. -/
theorem blocks_refine (o : Object) {d : Disk} (hd : d.Whole) {cs : List BlockCall}
    (hcs : EachStep (fun d c => (blockStep o d c).2) WholeBlock d cs) :
    answers (blockStep o) d cs = answers Blocks.exec d.blocks cs ∧
      (exec (fun d c => (blockStep o d c).2) d cs).blocks = exec (fun b c => (b.exec c).2) d.blocks cs := by
  have hstep : ∀ d c, d.Whole → WholeBlock d c → (blockStep o d c).2.Whole ∧
      (blockStep o d c).1 = (d.blocks.exec c).1 ∧ (blockStep o d c).2.blocks = (d.blocks.exec c).2 := by
    intro d c hd hc
    cases c with
    | read n buf => exact blockStep_read o hd hc
    | write n buf => exact blockStep_write o hd hc
  exact answers_eq hstep hd hcs

/-- The third block is written into an empty file, and the first one read. -/
def hole : List BlockCall :=
  [.write 2 (List.replicate BLOCK_SIZE digitZero), .read 0 (List.replicate BLOCK_SIZE digitZero)]

theorem blocks_refine_hole :
    answers (blockStep .sBlock) ⟨[], [], []⟩ hole = answers Blocks.exec (Disk.blocks ⟨[], [], []⟩) hole ∧
      (exec (fun d c => (blockStep .sBlock d c).2) ⟨[], [], []⟩ hole).blocks =
        exec (fun b c => (b.exec c).2) (Disk.blocks ⟨[], [], []⟩) hole := by
  have hwhole : Disk.Whole ⟨[], [], []⟩ := Nat.dvd_zero _
  have hout : (blockStep .sBlock ⟨[], [], []⟩ (.write 2 (List.replicate BLOCK_SIZE digitZero))).2.outcomes = [] :=
    Disk.outcomes_pwrite _ _ _ _
  refine blocks_refine .sBlock hwhole ⟨⟨.inl rfl, List.length_replicate, by decide⟩,
    ⟨.inl ?_, List.length_replicate, by decide⟩, trivial⟩
  rw [hout]
  rfl

end Sfs
