import Mathlib.Data.Nat.Digits.Defs

/-!
# Fixed-width images of values

`Codec α` fixes how a value of `α` lies in memory: a byte image of `width` bytes for each value,
and a value for each image, mutually inverse. Structures are built field by field with `prod` and
renamed with `iso`, so that a record's round trip needs no proof of its own.

* `le` — machine words, least significant byte first;
* `array` — `n` cells one after another;
* `prod` — one field after another;
* `overwrite` — what a value becomes when a prefix of its image is overwritten.
-/

structure Codec (α : Type*) where
  width : Nat
  enc : α → List UInt8
  dec : List UInt8 → α
  length_enc : ∀ a, (enc a).length = width
  /-- Reading back looks at the value's own bytes only. -/
  dec_enc : ∀ a rest, dec (enc a ++ rest) = a
  /-- Every byte of the image is part of the value. -/
  enc_dec : ∀ l, width ≤ l.length → enc (dec l) = l.take width

namespace Codec

variable {α β : Type*}

attribute [simp] Codec.length_enc

theorem dec_enc_self (c : Codec α) (a : α) : c.dec (c.enc a) = a := by
  simpa using c.dec_enc a []

/-! ## Little-endian words -/

/-- The `w` low bytes of `n`, least significant first. -/
def leBytes (w n : Nat) : List UInt8 := (List.range w).map fun k => UInt8.ofNat (n / 256 ^ k)

/-- The number whose little-endian bytes are `l`. -/
def ofLeBytes (l : List UInt8) : Nat := Nat.ofDigits 256 (l.map UInt8.toNat)

@[simp] theorem length_leBytes (w n : Nat) : (leBytes w n).length = w := by simp [leBytes]

theorem leBytes_succ (w n : Nat) : leBytes (w + 1) n = UInt8.ofNat n :: leBytes w (n / 256) := by
  simp only [leBytes, List.range_succ_eq_map, List.map_cons, List.map_map, pow_zero, Nat.div_one]
  congr 1
  refine List.map_congr_left fun k _ => ?_
  simp only [Function.comp_apply, Nat.succ_eq_add_one]
  rw [Nat.pow_succ', Nat.div_div_eq_div_mul]

theorem ofLeBytes_cons (b : UInt8) (l : List UInt8) :
    ofLeBytes (b :: l) = b.toNat + 256 * ofLeBytes l := by
  simp [ofLeBytes, Nat.ofDigits_cons]

theorem ofLeBytes_leBytes (w n : Nat) : ofLeBytes (leBytes w n) = n % 256 ^ w := by
  induction w generalizing n with
  | zero => simp [leBytes, ofLeBytes, Nat.mod_one]
  | succ w ih =>
    rw [leBytes_succ, ofLeBytes_cons, ih, Nat.pow_succ', Nat.mod_mul]
    simp

theorem ofLeBytes_lt (l : List UInt8) : ofLeBytes l < 256 ^ l.length := by
  have h := Nat.ofDigits_lt_base_pow_length (b := 256) (l := l.map UInt8.toNat) (by decide)
    (by simp only [List.mem_map]; rintro _ ⟨b, _, rfl⟩; exact b.toNat_lt)
  simpa [ofLeBytes] using h

theorem leBytes_ofLeBytes (l : List UInt8) : leBytes l.length (ofLeBytes l) = l := by
  induction l with
  | nil => rfl
  | cons b l ih =>
    have hb : b.toNat < 256 := b.toNat_lt
    rw [List.length_cons, leBytes_succ, ofLeBytes_cons]
    have hdiv : (b.toNat + 256 * ofLeBytes l) / 256 = ofLeBytes l := by omega
    have hmod : UInt8.ofNat (b.toNat + 256 * ofLeBytes l) = b := by
      rw [← UInt8.toNat_inj, UInt8.toNat_ofNat']
      omega
    rw [hdiv, hmod, ih]

/-- A machine word of `8 * w` bits. -/
def le (bits w : Nat) (h : bits = 8 * w) : Codec (BitVec bits) where
  width := w
  enc b := leBytes w b.toNat
  dec l := BitVec.ofNat bits (ofLeBytes (l.take w))
  length_enc b := length_leBytes w b.toNat
  dec_enc b rest := by
    have hpow : 256 ^ w = 2 ^ bits := by rw [h, Nat.pow_mul]
    rw [List.take_left' (length_leBytes w b.toNat), ofLeBytes_leBytes, hpow,
      Nat.mod_eq_of_lt b.isLt, BitVec.ofNat_toNat, BitVec.setWidth_eq]
  enc_dec l hl := by
    have hpow : 256 ^ w = 2 ^ bits := by rw [h, Nat.pow_mul]
    have hlen : (l.take w).length = w := by rw [List.length_take]; omega
    have hlt := ofLeBytes_lt (l.take w)
    rw [hlen, hpow] at hlt
    rw [BitVec.toNat_ofNat, Nat.mod_eq_of_lt hlt]
    have hround := leBytes_ofLeBytes (l.take w)
    rwa [hlen] at hround

/-- A single byte. -/
def byte : Codec UInt8 where
  width := 1
  enc b := [b]
  dec l := l.headD 0
  length_enc _ := rfl
  dec_enc _ _ := rfl
  enc_dec l hl := by
    cases l with
    | nil => simp at hl
    | cons b l => simp

/-! ## Records and arrays -/

/-- `a` followed by `b`. -/
def prod (c : Codec α) (d : Codec β) : Codec (α × β) where
  width := c.width + d.width
  enc p := c.enc p.1 ++ d.enc p.2
  dec l := (c.dec l, d.dec (l.drop c.width))
  length_enc p := by simp
  dec_enc p rest := by
    rw [List.append_assoc, c.dec_enc, List.drop_left' (c.length_enc _), d.dec_enc]
  enc_dec l hl := by
    rw [c.enc_dec l (by omega), d.enc_dec (l.drop c.width) (by simp; omega), List.take_add]

/-- The same image for an equivalent type. -/
def iso (c : Codec α) (f : β → α) (g : α → β) (hgf : ∀ b, g (f b) = b) (hfg : ∀ a, f (g a) = a) :
    Codec β where
  width := c.width
  enc b := c.enc (f b)
  dec l := g (c.dec l)
  length_enc b := c.length_enc (f b)
  dec_enc b rest := by rw [c.dec_enc, hgf]
  enc_dec l hl := by rw [hfg, c.enc_dec l hl]

/-- `n` consecutive cells. -/
def decList (c : Codec α) : Nat → List UInt8 → List α
  | 0, _ => []
  | n + 1, l => c.dec l :: decList c n (l.drop c.width)

@[simp] theorem length_decList (c : Codec α) (n : Nat) (l : List UInt8) :
    (decList c n l).length = n := by
  induction n generalizing l with
  | zero => rfl
  | succ n ih => simp [decList, ih]

theorem length_flatMap_enc (c : Codec α) (as : List α) :
    (as.flatMap c.enc).length = as.length * c.width := by
  induction as with
  | nil => simp
  | cons a as ih =>
    rw [List.flatMap_cons, List.length_append, ih, c.length_enc, List.length_cons, Nat.succ_mul,
      Nat.add_comm]

theorem decList_flatMap_enc (c : Codec α) (as : List α) (rest : List UInt8) :
    decList c as.length (as.flatMap c.enc ++ rest) = as := by
  induction as with
  | nil => rfl
  | cons a as ih =>
    rw [List.length_cons, decList, List.flatMap_cons, List.append_assoc, c.dec_enc,
      List.drop_left' (c.length_enc a), ih]

theorem flatMap_enc_decList (c : Codec α) (n : Nat) (l : List UInt8) (hl : n * c.width ≤ l.length) :
    (decList c n l).flatMap c.enc = l.take (n * c.width) := by
  induction n generalizing l with
  | zero => simp [decList]
  | succ n ih =>
    rw [Nat.succ_mul] at hl ⊢
    rw [decList, List.flatMap_cons, c.enc_dec l (by omega), ih (l.drop c.width) (by simp; omega),
      Nat.add_comm (n * c.width), List.take_add]

/-- An array of `n` cells. -/
def array (c : Codec α) (n : Nat) : Codec (Vector α n) where
  width := n * c.width
  enc v := v.toList.flatMap c.enc
  dec l := ⟨⟨decList c n l⟩, length_decList c n l⟩
  length_enc v := by rw [length_flatMap_enc, Vector.length_toList]
  dec_enc v rest := by
    rw [← Vector.toList_inj]
    have h := decList_flatMap_enc c v.toList rest
    rwa [Vector.length_toList] at h
  enc_dec l hl := flatMap_enc_decList c n l hl

/-! ## Overwriting part of an image -/

/-- The value after the first bytes of its image are overwritten by `bs`. -/
def overwrite (c : Codec α) (a : α) (bs : List UInt8) : α := c.dec (bs ++ (c.enc a).drop bs.length)

end Codec
