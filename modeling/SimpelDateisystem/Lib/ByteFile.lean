import Mathlib.Data.List.Basic
import Mathlib.Data.List.Induction

/-!
# Files of bytes

The contents of a regular file and what a positioned read or write does to them. A write past the
end of the file fills the gap with zeros, so everything is stated about the zero-extended contents:
`byteAt` is total, and `image f off n` is the `n` bytes at `off` as they will read once the file is
long enough. `read_eq_image` cuts the image down to what a read really returns.

`writeAll` is a sequence of writes. `stored_writeAll_iff` says which bytes can be read back after it.
-/

namespace ByteFile

/-- The byte at position `k`, zero past the end of the file. -/
def byteAt (f : List UInt8) (k : Nat) : UInt8 := f[k]?.getD 0

/-- The `n` bytes at `off`, zero past the end of the file. -/
def image (f : List UInt8) (off n : Nat) : List UInt8 := (List.range n).map fun k => byteAt f (off + k)

/-- What a read of `n` bytes at `off` returns: less than `n` bytes at the end of the file. -/
def read (f : List UInt8) (off n : Nat) : List UInt8 := (f.drop off).take n

/-- The contents after `bs` is written at `off`. -/
def write (f : List UInt8) (off : Nat) (bs : List UInt8) : List UInt8 :=
  if bs = [] then f
  else f.take off ++ List.replicate (off - f.length) 0 ++ bs ++ f.drop (off + bs.length)

@[simp] theorem length_image (f : List UInt8) (off n : Nat) : (image f off n).length = n := by
  simp [image]

theorem length_read (f : List UInt8) (off n : Nat) : (read f off n).length = min n (f.length - off) := by
  simp [read]

theorem length_write {f : List UInt8} {off : Nat} {bs : List UInt8} (hbs : bs ≠ []) :
    (write f off bs).length = max f.length (off + bs.length) := by
  simp only [write, if_neg hbs, List.length_append, List.length_take, List.length_replicate,
    List.length_drop]
  omega

theorem le_length_write (f : List UInt8) (off : Nat) (bs : List UInt8) :
    f.length ≤ (write f off bs).length := by
  by_cases hbs : bs = []
  · simp [write, hbs]
  · rw [length_write hbs]; omega

/-- **A write changes its own bytes and no others.** -/
theorem byteAt_write (f : List UInt8) (off : Nat) (bs : List UInt8) (k : Nat) :
    byteAt (write f off bs) k =
      if off ≤ k ∧ k < off + bs.length then byteAt bs (k - off) else byteAt f k := by
  unfold byteAt write
  by_cases hbs : bs = []
  · rw [if_pos hbs, if_neg (by rw [hbs, List.length_nil]; omega)]
  have hpre : (f.take off ++ List.replicate (off - f.length) 0).length = off := by simp; omega
  rw [if_neg hbs]
  by_cases h1 : k < off
  · rw [if_neg (by omega), List.append_assoc, List.append_assoc, ← List.append_assoc,
      List.getElem?_append_left (by omega)]
    by_cases h2 : k < f.length
    · rw [List.getElem?_append_left (by simp; omega), List.getElem?_take, if_pos h1]
    · rw [List.getElem?_append_right (by simp; omega), List.getElem?_replicate,
        List.getElem?_eq_none (by omega)]
      split <;> rfl
  · by_cases h2 : k < off + bs.length
    · rw [if_pos ⟨by omega, h2⟩, List.getElem?_append_left (by rw [List.length_append, hpre]; omega),
        List.getElem?_append_right (by omega), hpre]
    · rw [if_neg (by omega), List.getElem?_append_right (by rw [List.length_append, hpre]; omega),
        List.length_append, hpre, List.getElem?_drop]
      congr 2; omega

theorem image_write_of_disjoint (f : List UInt8) {off off' n : Nat} {bs : List UInt8}
    (h : off' + n ≤ off ∨ off + bs.length ≤ off') : image (write f off bs) off' n = image f off' n := by
  refine List.map_congr_left fun k hk => ?_
  rw [List.mem_range] at hk
  rw [byteAt_write, if_neg (by omega)]

theorem image_self (f : List UInt8) : image f 0 f.length = f := by
  refine List.ext_getElem (by simp) fun k h1 h2 => ?_
  simp [image, byteAt, h2]

theorem image_write_self (f : List UInt8) (off : Nat) (bs : List UInt8) :
    image (write f off bs) off bs.length = bs := by
  refine Eq.trans (List.map_congr_left fun k hk => ?_) (image_self bs)
  rw [List.mem_range] at hk
  rw [byteAt_write, if_pos ⟨by omega, by omega⟩, Nat.add_sub_cancel_left, Nat.zero_add]

/-- A file is its length and its bytes. -/
theorem ext_byteAt {f g : List UInt8} (hlen : f.length = g.length) (h : ∀ k, byteAt f k = byteAt g k) : f = g := by
  refine List.ext_getElem hlen fun k h1 h2 => ?_
  have hk := h k
  rwa [byteAt, byteAt, List.getElem?_eq_getElem h1, List.getElem?_eq_getElem h2] at hk

/-- Of two writes at the same place the second one counts. -/
theorem write_write (f : List UInt8) (off : Nat) {as bs : List UInt8} (h : as.length = bs.length) :
    write (write f off as) off bs = write f off bs := by
  by_cases hbs : bs = []
  · have has : as = [] := List.length_eq_zero_iff.1 (by rw [h, hbs, List.length_nil])
    rw [has, hbs, write, if_pos rfl]
  have has : as ≠ [] := List.ne_nil_of_length_pos (by rw [h]; exact List.length_pos_iff.2 hbs)
  refine ext_byteAt ?_ fun k => ?_
  · rw [length_write hbs, length_write has, length_write hbs]
    omega
  · simp only [byteAt_write, h]
    split <;> rfl

theorem image_take (f : List UInt8) (off : Nat) {m n : Nat} (h : m ≤ n) :
    (image f off n).take m = image f off m := by
  rw [image, image, ← List.map_take, List.take_range, Nat.min_eq_left h]

theorem byteAt_take (f : List UInt8) (m k : Nat) : byteAt (f.take m) k = if k < m then byteAt f k else 0 := by
  rw [byteAt, List.getElem?_take]
  split <;> rfl

/-- Writes of one length to files of one length. -/
theorem length_write_congr {f g : List UInt8} {as bs : List UInt8} (off : Nat) (hlen : f.length = g.length)
    (h : as.length = bs.length) : (write f off as).length = (write g off bs).length := by
  by_cases has : as = []
  · have hbs : bs = [] := List.length_eq_zero_iff.1 (by rw [← h, has, List.length_nil])
    rw [has, hbs, write, write, if_pos rfl, if_pos rfl, hlen]
  · have hbs : bs ≠ [] := List.ne_nil_of_length_pos (by rw [← h]; exact List.length_pos_iff.2 has)
    rw [length_write has, length_write hbs, hlen, h]

/-- What was written can be told from the file. -/
theorem write_left_inj (f : List UInt8) (off : Nat) {as bs : List UInt8} (h : as.length = bs.length) :
    write f off as = write f off bs ↔ as = bs := by
  constructor
  · intro heq
    have himage := image_write_self f off as
    rwa [heq, h, image_write_self, eq_comm] at himage
  · rintro rfl
    rfl

/-- Nothing is stored past the end of the file. -/
theorem image_of_length_le {f : List UInt8} {off : Nat} (n : Nat) (h : f.length ≤ off) :
    image f off n = List.replicate n 0 := by
  refine List.eq_replicate_iff.2 ⟨by simp, fun b hb => ?_⟩
  obtain ⟨k, _, rfl⟩ := List.mem_map.1 hb
  simp [byteAt, List.getElem?_eq_none (show f.length ≤ off + k by omega)]

/-- A read returns the image, cut off at the end of the file. -/
theorem read_eq_image (f : List UInt8) (off n : Nat) :
    read f off n = (image f off n).take (f.length - off) := by
  refine List.ext_getElem (by simp [length_read]; omega) fun k h1 h2 => ?_
  rw [length_read] at h1
  simp only [read, image, byteAt, List.getElem_take, List.getElem_drop, List.getElem_map,
    List.getElem_range]
  rw [List.getElem?_eq_getElem (by omega), Option.getD_some]

theorem read_eq_image_of_le {f : List UInt8} {off n : Nat} (h : off + n ≤ f.length) :
    read f off n = image f off n := by
  rw [read_eq_image, List.take_of_length_le (by simp; omega)]

/-- A read that returns all bytes asked for. -/
theorem read_eq_iff {f : List UInt8} {off : Nat} {bs : List UInt8} (hne : bs ≠ []) :
    read f off bs.length = bs ↔ off + bs.length ≤ f.length ∧ image f off bs.length = bs := by
  constructor
  · intro h
    have hle : off + bs.length ≤ f.length := by
      have hlen := congrArg List.length h
      have hpos := List.length_pos_iff.2 hne
      rw [length_read] at hlen
      omega
    exact ⟨hle, by rw [← read_eq_image_of_le hle, h]⟩
  · rintro ⟨hle, h⟩
    rw [read_eq_image_of_le hle, h]

/-- The part of an image past the end of the file is zero. -/
theorem drop_image (f : List UInt8) (off n : Nat) :
    (image f off n).drop (f.length - off) = List.replicate (n - (f.length - off)) 0 := by
  refine List.eq_replicate_iff.2 ⟨by simp, fun b hb => ?_⟩
  obtain ⟨k, hk, rfl⟩ := List.getElem_of_mem hb
  simp only [image, List.getElem_drop, List.getElem_map, List.getElem_range, byteAt]
  rw [List.getElem?_eq_none (by omega), Option.getD_none]

/-! ## A file of blocks -/

section blocks

variable {B n m : Nat} {f bs : List UInt8}

/-- A block that is written changes, the others stay. -/
theorem image_write_block (hbs : bs.length = B) :
    image (write f (n * B) bs) (m * B) B = if m = n then bs else image f (m * B) B := by
  split
  · rename_i h
    rw [h, ← hbs]
    exact image_write_self _ _ _
  · rename_i h
    refine image_write_of_disjoint _ ?_
    rw [hbs, ← Nat.succ_mul, ← Nat.succ_mul]
    rcases Nat.lt_or_gt_of_ne h with hlt | hgt
    · exact .inl (Nat.mul_le_mul_right B hlt)
    · exact .inr (Nat.mul_le_mul_right B hgt)

/-- A block before the end of the file is read whole, one behind it not at all. -/
theorem read_block (hf : B ∣ f.length) (hB : 0 < B) :
    read f (n * B) B = if n < f.length / B then image f (n * B) B else [] := by
  obtain ⟨m, hm⟩ := hf
  rw [hm, Nat.mul_div_cancel_left m hB]
  split
  · rename_i h
    refine read_eq_image_of_le ?_
    rw [hm, ← Nat.succ_mul, Nat.mul_comm B]
    exact Nat.mul_le_mul_right B h
  · rename_i h
    refine List.eq_nil_of_length_eq_zero ?_
    have hle := Nat.mul_le_mul_right B (Nat.not_lt.1 h)
    rw [length_read, hm, Nat.mul_comm B, Nat.sub_eq_zero_of_le hle, Nat.min_zero]

/-- The file goes on to end with a block. -/
theorem length_write_block (hf : B ∣ f.length) (hbs : bs.length = B) (hB : 0 < B) :
    (write f (n * B) bs).length = max (f.length / B) (n + 1) * B := by
  have hne : bs ≠ [] := List.ne_nil_of_length_pos (by omega)
  obtain ⟨m, hm⟩ := hf
  rw [length_write hne, hm, hbs, Nat.mul_div_cancel_left m hB, ← Nat.succ_mul, Nat.mul_comm B, Nat.mul_max_mul_right]

end blocks

/-! ## Several writes -/

/-- Bytes and their place in a file. -/
structure Patch where
  pos : Nat
  bytes : List UInt8

namespace Patch

def Covers (w : Patch) (k : Nat) : Prop := w.pos ≤ k ∧ k < w.pos + w.bytes.length

instance (w : Patch) (k : Nat) : Decidable (w.Covers k) := by unfold Covers; infer_instance

/-- Its byte for position `k` of the file. -/
def byte (w : Patch) (k : Nat) : UInt8 := byteAt w.bytes (k - w.pos)

/-- The file has these bytes at this place. -/
def Stored (w : Patch) (f : List UInt8) : Prop := read f w.pos w.bytes.length = w.bytes

theorem stored_iff (w : Patch) (f : List UInt8) :
    w.Stored f ↔ ∀ k, w.Covers k → k < f.length ∧ byteAt f k = w.byte k := by
  have hbyte : ∀ j, byteAt (read f w.pos w.bytes.length) j =
      if j < w.bytes.length then byteAt f (w.pos + j) else 0 := by
    intro j
    rw [read, byteAt_take, byteAt, List.getElem?_drop, byteAt]
  have hlen := length_read f w.pos w.bytes.length
  constructor
  · rintro h k ⟨hlow, hhigh⟩
    have hk := hbyte (k - w.pos)
    rw [h, if_pos (by omega), Nat.add_sub_cancel' hlow] at hk
    rw [h] at hlen
    exact ⟨by omega, hk.symm⟩
  · intro h
    refine ext_byteAt ?_ fun j => ?_
    · by_cases hempty : w.bytes.length = 0
      · omega
      · obtain ⟨hreach, _⟩ := h (w.pos + (w.bytes.length - 1)) ⟨by omega, by omega⟩
        omega
    · rw [hbyte]
      by_cases hj : j < w.bytes.length
      · obtain ⟨_, hk⟩ := h (w.pos + j) ⟨by omega, by omega⟩
        rw [if_pos hj, hk, byte, Nat.add_sub_cancel_left]
      · rw [if_neg hj, byteAt, List.getElem?_eq_none (Nat.not_lt.1 hj), Option.getD_none]

end Patch

/-- The contents after the writes `ws`, one after another. -/
def writeAll (f : List UInt8) (ws : List Patch) : List UInt8 := ws.foldl (fun f w => write f w.pos w.bytes) f

section writeAll

variable {f : List UInt8} {ws : List Patch} {k : Nat}

theorem writeAll_concat (f : List UInt8) (ws : List Patch) (w : Patch) :
    writeAll f (ws ++ [w]) = write (writeAll f ws) w.pos w.bytes := by
  rw [writeAll, List.foldl_append]
  rfl

theorem byteAt_writeAll_concat (f : List UInt8) (ws : List Patch) (w : Patch) (k : Nat) :
    byteAt (writeAll f (ws ++ [w])) k = if w.Covers k then w.byte k else byteAt (writeAll f ws) k := by
  rw [writeAll_concat, byteAt_write]
  rfl

/-- Where nothing is written nothing changes. -/
theorem byteAt_writeAll_of_not_covers (h : ∀ w ∈ ws, ¬ w.Covers k) : byteAt (writeAll f ws) k = byteAt f k := by
  induction ws using List.reverseRecOn with
  | nil => rfl
  | append_singleton ws w ih =>
    have hw : ¬ w.Covers k := h w (List.mem_append_right _ (List.mem_singleton_self w))
    rw [byteAt_writeAll_concat, if_neg hw]
    exact ih fun v hv => h v (List.mem_append_left _ hv)

/-- Where all that is written is `b`, it is `b` at the end. -/
theorem byteAt_writeAll_of_covers {b : UInt8} (h : ∀ w ∈ ws, w.Covers k → w.byte k = b) (hex : ∃ w ∈ ws, w.Covers k) :
    byteAt (writeAll f ws) k = b := by
  induction ws using List.reverseRecOn with
  | nil =>
    obtain ⟨w, hw, _⟩ := hex
    cases hw
  | append_singleton ws w ih =>
    rw [byteAt_writeAll_concat]
    by_cases hw : w.Covers k
    · rw [if_pos hw]
      exact h w (List.mem_append_right _ (List.mem_singleton_self w)) hw
    · rw [if_neg hw]
      refine ih (fun v hv => h v (List.mem_append_left _ hv)) ?_
      obtain ⟨v, hv, hvk⟩ := hex
      rcases List.mem_append.1 hv with hv | hv
      · exact ⟨v, hv, hvk⟩
      · rw [List.mem_singleton.1 hv] at hvk
        exact absurd hvk hw

/-- A file ends where it ended before, or with one of the writes. -/
theorem lt_length_writeAll_iff :
    k < (writeAll f ws).length ↔ k < f.length ∨ ∃ w ∈ ws, ∃ j, k ≤ j ∧ w.Covers j := by
  induction ws using List.reverseRecOn with
  | nil =>
    refine (or_iff_left ?_).symm
    rintro ⟨w, hw, _⟩
    cases hw
  | append_singleton ws w ih =>
    have hone : (∃ j, k ≤ j ∧ w.Covers j) ↔ w.bytes ≠ [] ∧ k < w.pos + w.bytes.length := by
      constructor
      · rintro ⟨j, hkj, hlow, hhigh⟩
        exact ⟨List.ne_nil_of_length_pos (by omega), by omega⟩
      · rintro ⟨hne, hk⟩
        have hpos := List.length_pos_iff.2 hne
        exact ⟨w.pos + (w.bytes.length - 1), by omega, by omega, by omega⟩
    simp only [List.mem_append, List.mem_singleton, or_and_right, exists_or, exists_eq_left, ← or_assoc, ← ih, hone]
    rw [writeAll_concat]
    by_cases hne : w.bytes = []
    · rw [hne, write, if_pos rfl]
      exact (or_iff_left fun h => h.1 rfl).symm
    · rw [length_write hne, and_iff_right hne]
      omega

/-- The writes `ws` leave the bytes `os` in a file that holds `f`. -/
structure Fits (f : List UInt8) (ws os : List Patch) : Prop where
  /-- A write over a part of one of them has the same bytes there. -/
  agree : ∀ o ∈ os, ∀ w ∈ ws, ∀ k, o.Covers k → w.Covers k → o.byte k = w.byte k
  /-- What no write covers is in the file already. -/
  kept : ∀ o ∈ os, ∀ k, o.Covers k → (∀ w ∈ ws, ¬ w.Covers k) →
    (k < f.length ∨ ∃ w ∈ ws, ∃ j, k ≤ j ∧ w.Covers j) ∧ byteAt f k = o.byte k

/-- **Which bytes can be read back after the writes**, if what is written over one of `os` belongs to
one of them. -/
theorem stored_writeAll_iff {os : List Patch}
    (hown : ∀ w ∈ ws, ∀ k, w.Covers k → ∀ o ∈ os, o.Covers k → ∃ v ∈ os, v.Covers k ∧ v.byte k = w.byte k) :
    (∀ o ∈ os, o.Stored (writeAll f ws)) ↔ Fits f ws os := by
  simp only [Patch.stored_iff]
  constructor
  · refine fun h => ⟨fun o ho w hw k hok hwk => ?_, fun o ho k hok hno => ?_⟩
    · obtain ⟨v, hv, hvk, heq⟩ := hown w hw k hwk o ho hok
      rw [← (h o ho k hok).2, (h v hv k hvk).2, heq]
    · obtain ⟨hreach, hbyte⟩ := h o ho k hok
      rw [byteAt_writeAll_of_not_covers hno] at hbyte
      exact ⟨lt_length_writeAll_iff.1 hreach, hbyte⟩
  · intro h o ho k hok
    by_cases hcov : ∃ w ∈ ws, w.Covers k
    · refine ⟨lt_length_writeAll_iff.2 (.inr ?_),
        byteAt_writeAll_of_covers (fun w hw hwk => (h.agree o ho w hw k hok hwk).symm) hcov⟩
      obtain ⟨w, hw, hwk⟩ := hcov
      exact ⟨w, hw, k, Nat.le_refl k, hwk⟩
    · have hno : ∀ w ∈ ws, ¬ w.Covers k := fun w hw hwk => hcov ⟨w, hw, hwk⟩
      obtain ⟨hreach, hbyte⟩ := h.kept o ho k hok hno
      exact ⟨lt_length_writeAll_iff.2 hreach, (byteAt_writeAll_of_not_covers hno).trans hbyte⟩

end writeAll

end ByteFile
