import Mathlib.Logic.Basic

/-!
# Walking a table of records packed into blocks

The loop shape of code that walks records `i, i + 1, …` while keeping, next to the index, a block
number and the number of records already passed in that block:

    body; fill++; if (fill >= per) { fill = 0; block++; }

`loop` is that loop, the body also deciding whether the counters move on. `loop_moves` is its rule:
after `m` rounds that moved on, the next one is at block `first + m / per`, place `m % per`. If all
of them move on, that is record `m`'s own place: `loop_spec`.
-/

namespace Cursor

variable {σ : Type*}

/-- `count` rounds from record `i` on. The body returns whether the counters advance. -/
def loop (per : σ → Int) (body : Nat → Int → Int → σ → Bool × σ) :
    (count i : Nat) → (block fill : Int) → σ → σ
  | 0, _, _, _, s => s
  | count + 1, i, block, fill, s =>
    let r := body i block fill s
    if r.1 then
      if per r.2 ≤ fill + 1 then loop per body count (i + 1) (block + 1) 0 r.2
      else loop per body count (i + 1) block (fill + 1) r.2
    else loop per body count (i + 1) block fill r.2

/-- A block holds at least one record. -/
theorem loop_max {per : σ → Int} {body : Nat → Int → Int → σ → Bool × σ} (count : Nat) :
    ∀ (i : Nat) (block fill : Int) (s : σ), 0 ≤ fill →
      loop per body count i block fill s = loop (fun s => max 1 (per s)) body count i block fill s := by
  induction count with
  | zero => intro _ _ _ _ _; rfl
  | succ count ih =>
    intro i block fill s hfill
    have hwrap : max 1 (per (body i block fill s).2) ≤ fill + 1 ↔ per (body i block fill s).2 ≤ fill + 1 := by omega
    simp only [loop, hwrap]
    rw [ih _ (block + 1) 0 _ (Int.le_refl 0), ih _ block (fill + 1) _ (by omega), ih _ block fill _ hfill]

/-- A property of the record and the state that every round hands on to the next record, whatever its
counters, holds at the end of the loop. -/
theorem loop_indexed {per : σ → Int} {body : Nat → Int → Int → σ → Bool × σ} {P : Nat → σ → Prop} {count i : Nat}
    (hbody : ∀ j block fill s, i ≤ j → j < i + count → P j s → P (j + 1) (body j block fill s).2)
    (block fill : Int) {s : σ} (hs : P i s) : P (i + count) (loop per body count i block fill s) := by
  induction count generalizing i block fill s with
  | zero => exact hs
  | succ count ih =>
    have hs' := hbody i block fill s (Nat.le_refl i) (by omega) hs
    have hnext : ∀ j block fill s, i + 1 ≤ j → j < i + 1 + count → P j s → P (j + 1) (body j block fill s).2 :=
      fun j block fill s h1 h2 => hbody j block fill s (by omega) (by omega)
    rw [show i + (count + 1) = i + 1 + count by omega]
    simp only [loop]
    split
    · split
      · exact ih hnext _ _ hs'
      · exact ih hnext _ _ hs'
    · exact ih hnext _ _ hs'

/-- A property every round keeps, whatever its counters, is kept by the loop. -/
theorem loop_invariant {per : σ → Int} {body : Nat → Int → Int → σ → Bool × σ} {P : σ → Prop}
    {count i : Nat} (hbody : ∀ j block fill s, i ≤ j → P s → P (body j block fill s).2)
    (block fill : Int) {s : σ} (hs : P s) : P (loop per body count i block fill s) :=
  loop_indexed (P := fun _ s => P s) (fun j block fill s hj _ => hbody j block fill s hj) block fill hs

/-- One advance of the counters is one step of `/` and `%`. -/
theorem advance {b : Nat} (hb : 0 < b) (i : Nat) :
    (b ≤ i % b + 1 → (i + 1) / b = i / b + 1 ∧ (i + 1) % b = 0) ∧
    (¬ b ≤ i % b + 1 → (i + 1) / b = i / b ∧ (i + 1) % b = i % b + 1) := by
  have hlt := Nat.mod_lt i hb
  have hsplit := Nat.div_add_mod i b
  refine ⟨fun h => ?_, fun h => ?_⟩
  · have hi : i + 1 = b * (i / b + 1) := by rw [Nat.mul_add]; omega
    rw [hi]
    exact ⟨Nat.mul_div_cancel_left _ hb, Nat.mul_mod_right _ _⟩
  · have hi : i + 1 = (i % b + 1) + b * (i / b) := by omega
    rw [hi, Nat.add_mul_div_left _ _ hb, Nat.add_mul_mod_self_left,
      Nat.div_eq_of_lt (by omega), Nat.mod_eq_of_lt (by omega), Nat.zero_add]
    exact ⟨rfl, rfl⟩

/-- **The counters are a division with remainder** of the number `m` of rounds that moved on. -/
theorem loop_moves {per : σ → Int} {body : Nat → Int → Int → σ → Bool × σ} {b : Nat} {P : Nat → Nat → σ → Prop}
    (hb : 0 < b) (first : Int) (hper : ∀ j m s, P j m s → per s = b) {count i : Nat}
    (hstep : ∀ j m s, i ≤ j → j < i + count → P j m s →
      P (j + 1) (if (body j (first + (m / b : Nat)) (m % b : Nat) s).1 then m + 1 else m)
        (body j (first + (m / b : Nat)) (m % b : Nat) s).2)
    {m : Nat} {s : σ} (hs : P i m s) :
    ∃ m', P (i + count) m' (loop per body count i (first + (m / b : Nat)) (m % b : Nat) s) := by
  induction count generalizing i m s with
  | zero => exact ⟨m, hs⟩
  | succ count ih =>
    have hs' := hstep i m s (Nat.le_refl i) (by omega) hs
    have hper' := hper _ _ _ hs'
    have hnext : ∀ j m s, i + 1 ≤ j → j < i + 1 + count → P j m s → _ :=
      fun j m s h1 h2 => hstep j m s (by omega) (by omega)
    rw [show i + (count + 1) = i + 1 + count by omega]
    obtain ⟨hwrap, hstay⟩ := advance hb m
    simp only [loop, hper']
    by_cases hadv : (body i (first + (m / b : Nat)) (m % b : Nat) s).1 = true
    · rw [if_pos hadv] at hs' ⊢
      obtain ⟨m', hend⟩ := ih hnext hs'
      refine ⟨m', ?_⟩
      by_cases hfull : b ≤ m % b + 1
      · obtain ⟨hdiv, hmod⟩ := hwrap hfull
        rw [if_pos (by omega)]
        rw [hdiv, hmod] at hend
        simpa [Int.add_assoc] using hend
      · obtain ⟨hdiv, hmod⟩ := hstay hfull
        rw [if_neg (by omega)]
        rw [hdiv, hmod] at hend
        simpa using hend
    · rw [if_neg hadv] at hs' ⊢
      exact ih hnext hs'

/-- Started at record `i`'s own place, every round is given its record's place, as long as the rounds
before it moved on; the last one need not. -/
theorem loop_spec {per : σ → Int} {body : Nat → Int → Int → σ → Bool × σ} {b : Nat} {P : Nat → σ → Prop}
    (hb : 0 < b) (first : Int) (hper : ∀ j s, P j s → per s = b) {count i : Nat}
    (hstep : ∀ j s, i ≤ j → j < i + count → P j s →
      P (j + 1) (body j (first + (j / b : Nat)) (j % b : Nat) s).2)
    (hadv : ∀ j s, i ≤ j → j + 1 < i + count → P j s →
      (body j (first + (j / b : Nat)) (j % b : Nat) s).1 = true)
    {s : σ} (hs : P i s) : P (i + count) (loop per body count i (first + (i / b : Nat)) (i % b : Nat) s) := by
  -- before the end, record `j` comes after `j` moves
  let Q (j m : Nat) (s : σ) : Prop := P j s ∧ (j < i + count → m = j)
  have hround : ∀ j m s, i ≤ j → j < i + count → Q j m s →
      Q (j + 1) (if (body j (first + (m / b : Nat)) (m % b : Nat) s).1 then m + 1 else m)
        (body j (first + (m / b : Nat)) (m % b : Nat) s).2 := by
    rintro j m s hj hlt ⟨hP, hm⟩
    obtain rfl := hm hlt
    exact ⟨hstep m s hj hlt hP, fun hlt' => if_pos (hadv m s hj hlt' hP)⟩
  obtain ⟨m, hend, _⟩ := loop_moves (P := Q) hb first (fun j m s h => hper j s h.1) hround ⟨hs, fun _ => rfl⟩
  exact hend

end Cursor
