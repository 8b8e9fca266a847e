import Mathlib.Data.List.Basic
import Mathlib.Data.List.TakeWhile

/-!
# C strings and the buffers that hold them

A C string is the list of its bytes up to, and without, the terminating NUL; a buffer is the
list of all its bytes. `cstr` reads the string a buffer holds.

| here | `string.h` / `stdlib.h` |
| --- | --- |
| `strrchr`  | `strrchr`: the suffix from the last occurrence of a byte, or `NULL` |
| `calloc`   | `calloc`: a zeroed buffer |
| `strncpy`  | `strncpy`: `n` bytes of the source, zero-padded; no NUL is added when the source is longer |
| `strcpy`   | `strcpy`: the source and its NUL |

A copy past the end of its buffer is undefined in C; here the bytes that do not fit are dropped,
and the side conditions of the lemmas say when none are. `strncpy?`, `strcpy?` and `cstr?` are the
checked versions: `none` when a copy leaves the buffer, or when the buffer holds no NUL.
-/

namespace CString

abbrev Byte := UInt8

/-- The bytes of a C string before its NUL. -/
abbrev CStr := List Byte

/-- The string a buffer holds: everything before the first NUL. -/
def cstr (buf : List Byte) : CStr := buf.takeWhile (· ≠ 0)

/-- The suffix starting at the last occurrence of `c`. -/
def strrchr : CStr → Byte → Option CStr
  | [], _ => none
  | b :: s, c =>
    match strrchr s c with
    | some t => some t
    | none => if b = c then some (b :: s) else none

def calloc (n : Nat) : List Byte := List.replicate n 0

def strncpy (dst : List Byte) (src : CStr) (n : Nat) : List Byte :=
  ((src.take n ++ List.replicate (n - src.length) 0) ++ dst.drop n).take dst.length

def strcpy (dst : List Byte) (src : CStr) : List Byte :=
  (src ++ 0 :: dst.drop (src.length + 1)).take dst.length

/-- `strcpy` into a `char` array of fixed size. -/
def strcpyArray {n : Nat} (dst : Vector Byte n) (src : CStr) : Vector Byte n :=
  ⟨⟨strcpy dst.toList src⟩, by simp [strcpy]; omega⟩

/-! ## `strrchr` -/

theorem strrchr_eq_none {s : CStr} {c : Byte} : strrchr s c = none ↔ c ∉ s := by
  induction s with
  | nil => simp [strrchr]
  | cons b s ih =>
    simp only [strrchr]
    split
    · rename_i t ht
      have hmem : c ∈ s := by
        by_contra hc
        rw [ih.2 hc] at ht
        cases ht
      simp [hmem]
    · rename_i hnone
      have hmem := ih.1 hnone
      by_cases hb : b = c
      · simp [hb]
      · simp [hb, Ne.symm hb, hmem]

/-- The last occurrence splits the string: nothing after it holds the byte again. -/
theorem strrchr_append (u v : CStr) {c : Byte} (hv : c ∉ v) :
    strrchr (u ++ c :: v) c = some (c :: v) := by
  induction u with
  | nil => simp [strrchr, strrchr_eq_none.2 hv]
  | cons b u ih => simp [strrchr, ih]

/-! ## Reading a buffer back -/

theorem cstr_append_zero {s : CStr} (hs : 0 ∉ s) (rest : List Byte) : cstr (s ++ 0 :: rest) = s := by
  have hall : ∀ b ∈ s, decide (b ≠ 0) = true := by
    intro b hb
    simpa using fun h : b = 0 => hs (h ▸ hb)
  rw [cstr, List.takeWhile_append_of_pos hall]
  simp

@[simp] theorem length_calloc (n : Nat) : (calloc n).length = n := List.length_replicate

/-- `strcpy` into a buffer with room for the NUL. -/
theorem cstr_strcpy {dst : List Byte} {src : CStr} (hsrc : 0 ∉ src) (hfits : src.length < dst.length) :
    cstr (strcpy dst src) = src := by
  obtain ⟨m, hm⟩ := Nat.exists_eq_add_of_lt hfits
  rw [strcpy, List.take_append, List.take_of_length_le (by omega),
    show dst.length - src.length = m + 1 by omega, List.take_succ_cons]
  exact cstr_append_zero hsrc _

theorem cstr_strcpyArray {n : Nat} (dst : Vector Byte n) {src : CStr} (hsrc : 0 ∉ src)
    (hfits : src.length < n) : cstr (strcpyArray dst src).toList = src :=
  cstr_strcpy hsrc (by simpa using hfits)

/-- Copying a proper prefix into a zeroed buffer of the whole string's length leaves some of the
buffer's zeros behind it. -/
theorem strncpy_calloc (u v : CStr) :
    strncpy (calloc (u ++ v).length) (u ++ v) u.length = u ++ List.replicate v.length 0 := by
  simp only [strncpy, calloc, List.length_replicate, List.length_append, List.drop_replicate]
  rw [List.take_left' rfl, Nat.sub_eq_zero_of_le (by omega), Nat.add_sub_cancel_left,
    List.replicate_zero, List.append_nil, List.take_of_length_le (by simp)]

theorem cstr_strncpy_calloc {u v : CStr} (hu : 0 ∉ u) (hv : v ≠ []) :
    cstr (strncpy (calloc (u ++ v).length) (u ++ v) u.length) = u := by
  obtain ⟨m, hm⟩ : ∃ m, v.length = m + 1 :=
    Nat.exists_eq_succ_of_ne_zero (Nat.ne_of_gt (List.length_pos_iff.2 hv))
  rw [strncpy_calloc, hm, List.replicate_succ]
  exact cstr_append_zero hu _

/-! ## Checked copies -/

/-- `strncpy` with a count that is converted to `size_t`: a negative one exceeds every buffer. -/
def strncpy? (dst : List Byte) (src : CStr) (n : Int) : Option (List Byte) :=
  if 0 ≤ n ∧ n ≤ dst.length then some (strncpy dst src n.toNat) else none

def strcpy? (dst : List Byte) (src : CStr) : Option (List Byte) :=
  if src.length < dst.length then some (strcpy dst src) else none

/-- The string a buffer holds, if it is terminated inside the buffer. -/
def cstr? (buf : List Byte) : Option CStr := if 0 ∈ buf then some (cstr buf) else none

theorem strncpy?_natCast {dst : List Byte} {n : Nat} (src : CStr) (hn : n ≤ dst.length) :
    strncpy? dst src n = some (strncpy dst src n) := by
  rw [strncpy?, if_pos ⟨by omega, by omega⟩, Int.toNat_natCast]

theorem cstr?_append_zero {s : CStr} (hs : 0 ∉ s) (rest : List Byte) : cstr? (s ++ 0 :: rest) = some s := by
  rw [cstr?, if_pos (by simp), cstr_append_zero hs]

/-- The checked copy of a proper prefix, and reading it back. -/
theorem cstr?_strncpy_calloc {u v : CStr} (hu : 0 ∉ u) (hv : v ≠ []) :
    (strncpy? (calloc (u ++ v).length) (u ++ v) u.length).bind cstr? = some u := by
  obtain ⟨m, hm⟩ : ∃ m, v.length = m + 1 :=
    Nat.exists_eq_succ_of_ne_zero (Nat.ne_of_gt (List.length_pos_iff.2 hv))
  rw [strncpy?_natCast _ (by rw [length_calloc, List.length_append]; omega), Option.bind_some, strncpy_calloc,
    hm, List.replicate_succ]
  exact cstr?_append_zero hu _

/-- The checked copy of a whole string. -/
theorem cstr?_strcpy {dst : List Byte} {src : CStr} (hsrc : 0 ∉ src) (hfits : src.length < dst.length) :
    (strcpy? dst src).bind cstr? = some src := by
  obtain ⟨m, hm⟩ := Nat.exists_eq_add_of_lt hfits
  rw [strcpy?, if_pos hfits, Option.bind_some, strcpy, List.take_append, List.take_of_length_le (by omega),
    show dst.length - src.length = m + 1 by omega, List.take_succ_cons]
  exact cstr?_append_zero hsrc _

end CString
