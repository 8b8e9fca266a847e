import Mathlib.Logic.Basic

/-!
# Runs of a deterministic system under a guarded environment

A system is a function `step : σ → α → σ`; a run is the list of calls its environment makes.

* `exec` — the state a run ends in;
* `EachStep C` — every call of the run satisfies `C` in the state it is made in. With the
  environment's own guard for `C` this says that the run is one the environment may make;
* `Always P` — `P` holds in the start state and after every call of the run.

`EachStep.invariant` is the induction rule for safety. `always_iff_eachStep` and `always_iff` are the
exactness rule: when `C` keeps a strong enough invariant and breaking `C` breaks the property in the very
next state, the property holds all along a run *iff* every call of the run satisfies `C`.

Four more things can be said of a run: what it did last (`Since`, `exec_iff_since`), how often it did
something (`tally`, `exec_add_tally`), what it wrote (`written`, `exec_written`), and what it answered
(`answers`, `answers_eq`: a system whose calls answer as those of a smaller one do answers so all along).

A run may be cut into `sessions`, with a restart before each. `sessions_rel`: if no restart can be told
from no restart, the sessions do what one run of all their calls does.
-/

namespace Trace

variable {σ τ α β ρ : Type*} {step : σ → α → σ} {ok C Q : σ → α → Prop} {P Inv : σ → Prop}

/-- The state after a run. -/
def exec (step : σ → α → σ) : σ → List α → σ
  | s, [] => s
  | s, a :: as => exec step (step s a) as

/-- Every call of the run satisfies `C` in the state it is made in. -/
def EachStep (step : σ → α → σ) (C : σ → α → Prop) : σ → List α → Prop
  | _, [] => True
  | s, a :: as => C s a ∧ EachStep step C (step s a) as

/-- `P` holds in the start state and after every call of the run. -/
def Always (step : σ → α → σ) (P : σ → Prop) : σ → List α → Prop
  | s, [] => P s
  | s, a :: as => P s ∧ Always step P (step s a) as

@[simp] theorem exec_nil (s : σ) : exec step s [] = s := rfl

@[simp] theorem exec_cons (s : σ) (a : α) (as : List α) :
    exec step s (a :: as) = exec step (step s a) as := rfl

@[simp] theorem eachStep_nil (s : σ) : EachStep step C s [] := trivial

@[simp] theorem eachStep_cons (s : σ) (a : α) (as : List α) :
    EachStep step C s (a :: as) ↔ C s a ∧ EachStep step C (step s a) as := Iff.rfl

theorem exec_append (s : σ) (as bs : List α) :
    exec step s (as ++ bs) = exec step (exec step s as) bs := by
  induction as generalizing s with
  | nil => rfl
  | cons a as ih => exact ih (step s a)

/-- A guard that is weaker in every state admits every run the stronger one admits. -/
theorem EachStep.mono (h : ∀ s a, ok s a → C s a) :
    ∀ {s : σ} {as : List α}, EachStep step ok s as → EachStep step C s as
  | _, [], _ => trivial
  | s, a :: _, hr => ⟨h s a hr.1, EachStep.mono h hr.2⟩

theorem EachStep.and : ∀ {s : σ} {as : List α}, EachStep step ok s as → EachStep step C s as →
    EachStep step (fun s a => ok s a ∧ C s a) s as
  | _, [], _, _ => trivial
  | _, _ :: _, h1, h2 => ⟨⟨h1.1, h2.1⟩, EachStep.and h1.2 h2.2⟩

/-- A guard that looks at the call only. -/
theorem eachStep_of_forall_mem {G : α → Prop} :
    ∀ (s : σ) (as : List α), (∀ a ∈ as, G a) → EachStep step (fun _ a => G a) s as
  | _, [], _ => trivial
  | s, a :: as, h =>
    ⟨h a List.mem_cons_self, eachStep_of_forall_mem (step s a) as fun b hb => h b (List.mem_cons_of_mem a hb)⟩

/-- **Safety.** What one admitted call preserves, an admitted run preserves. -/
theorem EachStep.invariant (hstep : ∀ s a, Inv s → ok s a → Inv (step s a)) {s : σ} {as : List α}
    (hs : Inv s) (hr : EachStep step ok s as) : Inv (exec step s as) := by
  induction as generalizing s with
  | nil => exact hs
  | cons a as ih => exact ih (hstep s a hs hr.1) hr.2

/-- What follows from the invariant holds all along an admitted run. -/
theorem EachStep.always (hP : ∀ s, Inv s → P s) (hstep : ∀ s a, Inv s → ok s a → Inv (step s a)) {s : σ}
    {as : List α} (hs : Inv s) (hr : EachStep step ok s as) : Always step P s as := by
  induction as generalizing s with
  | nil => exact hP s hs
  | cons a as ih => exact ⟨hP s hs, ih (hstep s a hs hr.1) hr.2⟩

/-- What one call keeps only if it satisfies `C`, and never restores, survives a run iff every call does. -/
theorem exec_iff_eachStep (hinv : ∀ s a, Inv s → Inv (step s a))
    (hstep : ∀ s a, Inv s → (P (step s a) ↔ P s ∧ C s a)) {s : σ} {as : List α} (hs : Inv s) :
    P (exec step s as) ↔ P s ∧ EachStep step C s as := by
  induction as generalizing s with
  | nil => exact (and_iff_left trivial).symm
  | cons a as ih => rw [exec_cons, ih (hinv s a hs), hstep s a hs, eachStep_cons, and_assoc]

/-- **Exactness.** `Inv` is what makes both `P` and the next step's behaviour predictable: as
long as calls satisfy `C` it is kept, and a call that breaks `C` breaks `P` or `Q` at once. -/
theorem always_iff_eachStep (hP : ∀ s, Inv s → P s)
    (good : ∀ s a, Inv s → ok s a → C s a → Inv (step s a) ∧ Q s a)
    (bad : ∀ s a, Inv s → ok s a → ¬ C s a → ¬ (P (step s a) ∧ Q s a)) :
    ∀ {s : σ} {as : List α}, Inv s → EachStep step ok s as →
      (Always step P s as ∧ EachStep step Q s as ↔ EachStep step C s as)
  | s, [], hs, _ => by simp [Always, hP s hs]
  | s, a :: as, hs, hr => by
    by_cases hC : C s a
    · obtain ⟨hs', hQ⟩ := good s a hs hr.1 hC
      have ih := always_iff_eachStep hP good bad hs' hr.2
      simp only [Always, EachStep, hP s hs, hC, hQ, true_and]
      exact ih
    · refine ⟨fun ⟨hA, hQ⟩ => ?_, fun h => absurd h.1 hC⟩
      refine absurd ⟨?_, hQ.1⟩ (bad s a hs hr.1 hC)
      cases as with
      | nil => exact hA.2
      | cons b bs => exact hA.2.1

/-- The same without a property of the single call. -/
theorem always_iff (hP : ∀ s, Inv s → P s) (good : ∀ s a, Inv s → ok s a → C s a → Inv (step s a))
    (bad : ∀ s a, Inv s → ok s a → ¬ C s a → ¬ P (step s a)) {s : σ} {as : List α} (hs : Inv s)
    (hr : EachStep step ok s as) : Always step P s as ↔ EachStep step C s as := by
  have hiff := always_iff_eachStep (Q := fun _ _ => True) hP (fun s a h1 h2 h3 => ⟨good s a h1 h2 h3, trivial⟩)
    (fun s a h1 h2 h3 h4 => bad s a h1 h2 h3 h4.1) hs hr
  rw [← hiff, and_iff_left (hr.mono fun _ _ _ => trivial)]

instance EachStep.decidable [∀ s a, Decidable (C s a)] : ∀ (s : σ) (as : List α), Decidable (EachStep step C s as)
  | _, [] => .isTrue trivial
  | s, a :: as => @instDecidableAnd _ _ _ (EachStep.decidable (step s a) as)

theorem eachStep_append (s : σ) (as bs : List α) :
    EachStep step C s (as ++ bs) ↔ EachStep step C s as ∧ EachStep step C (exec step s as) bs := by
  induction as generalizing s with
  | nil => exact (and_iff_right trivial).symm
  | cons a as ih => rw [List.cons_append, eachStep_cons, eachStep_cons, ih, exec_cons, and_assoc]

/-! ## What a run did last -/

/-- Some call of the run did `A`, and none behind it `B`. -/
def Since (step : σ → α → σ) (A B : σ → α → Prop) (s : σ) (as : List α) : Prop :=
  ∃ pre a post, as = pre ++ a :: post ∧ A (exec step s pre) a ∧
    EachStep step (fun s a => ¬ B s a) (step (exec step s pre) a) post

theorem since_cons {A B : σ → α → Prop} {s : σ} {a : α} {as : List α} : Since step A B s (a :: as) ↔
    (A s a ∧ EachStep step (fun s a => ¬ B s a) (step s a) as) ∨ Since step A B (step s a) as := by
  constructor
  · rintro ⟨_ | ⟨b, pre⟩, c, post, heq, hA, hpost⟩
    · cases heq
      exact .inl ⟨hA, hpost⟩
    · cases heq
      exact .inr ⟨pre, c, post, rfl, hA, hpost⟩
  · rintro (⟨hA, hpost⟩ | ⟨pre, c, post, rfl, hA, hpost⟩)
    · exact ⟨[], a, as, rfl, hA, hpost⟩
    · exact ⟨a :: pre, c, post, rfl, hA, hpost⟩

/-- **What a call sets, and else keeps unless it clears it**, holds after a run iff the run set it and has
not cleared it since, or it held before the run and the run has not cleared it. -/
theorem exec_iff_since {A B : σ → α → Prop} (hinv : ∀ s a, Inv s → ok s a → Inv (step s a))
    (hstep : ∀ s a, Inv s → ok s a → (P (step s a) ↔ A s a ∨ (P s ∧ ¬ B s a))) {s : σ} {as : List α}
    (hs : Inv s) (hr : EachStep step ok s as) :
    P (exec step s as) ↔ Since step A B s as ∨ (P s ∧ EachStep step (fun s a => ¬ B s a) s as) := by
  induction as generalizing s with
  | nil =>
    refine ⟨fun h => .inr ⟨h, trivial⟩, fun h => (h.resolve_left ?_).1⟩
    rintro ⟨pre, a, post, heq, _⟩
    cases pre <;> cases heq
  | cons a as ih =>
    rw [exec_cons, ih (hinv s a hs hr.1) hr.2, hstep s a hs hr.1, since_cons, eachStep_cons]
    rw [or_and_right, and_assoc, or_left_comm, or_assoc]

/-! ## How often a run did something -/

/-- The number of calls of the run that satisfy `C` in the state they are made in. -/
def tally (step : σ → α → σ) (C : σ → α → Prop) [∀ s a, Decidable (C s a)] : σ → List α → Nat
  | _, [] => 0
  | s, a :: as => (if C s a then 1 else 0) + tally step C (step s a) as

/-- **Accounting.** What every `A` adds one to and every `B` takes one from. -/
theorem exec_add_tally {f : σ → Nat} {A B : σ → α → Prop} [∀ s a, Decidable (A s a)]
    [∀ s a, Decidable (B s a)] (hinv : ∀ s a, Inv s → ok s a → Inv (step s a))
    (hstep : ∀ s a, Inv s → ok s a →
      f (step s a) + (if B s a then 1 else 0) = f s + (if A s a then 1 else 0)) {s : σ} {as : List α}
    (hs : Inv s) (hr : EachStep step ok s as) :
    f (exec step s as) + tally step B s as = f s + tally step A s as := by
  induction as generalizing s with
  | nil => rfl
  | cons a as ih =>
    have hone := hstep s a hs hr.1
    have hrest := ih (hinv s a hs hr.1) hr.2
    simp only [exec_cons, tally]
    omega

/-! ## What a run wrote -/

/-- What the calls of a run write, one behind the other. -/
def written (step : σ → α → σ) (w : σ → α → List β) : σ → List α → List β
  | _, [] => []
  | s, a :: as => w s a ++ written step w (step s a) as

/-- **A log**: related to the state by `R`, and extended by each call. -/
theorem exec_written {R : σ → List β → Prop} {w : σ → α → List β}
    (hstep : ∀ s a l, R s l → ok s a → R (step s a) (l ++ w s a)) {s : σ} {l : List β} {as : List α} (h : R s l)
    (hr : EachStep step ok s as) : R (exec step s as) (l ++ written step w s as) := by
  induction as generalizing s l with
  | nil =>
    rw [written, List.append_nil]
    exact h
  | cons a as ih =>
    rw [written, ← List.append_assoc]
    exact ih (hstep s a l h hr.1) hr.2

/-! ## What a run answered -/

/-- The answers to the calls of a run. -/
def answers (step : σ → α → β × σ) : σ → List α → List β
  | _, [] => []
  | s, a :: as => (step s a).1 :: answers step (step s a).2 as

/-- **A system that answers call by call as a smaller one does**, `abs` being what the smaller one knows
of its state, answers as that one does in every run, and ends in the same state. -/
theorem answers_eq {step : σ → α → β × σ} {spec : τ → α → β × τ} {abs : σ → τ}
    (hstep : ∀ s a, Inv s → ok s a → Inv (step s a).2 ∧ (step s a).1 = (spec (abs s) a).1 ∧
      abs (step s a).2 = (spec (abs s) a).2) {s : σ} {as : List α} (hs : Inv s)
    (hr : EachStep (fun s a => (step s a).2) ok s as) : answers step s as = answers spec (abs s) as ∧
      abs (exec (fun s a => (step s a).2) s as) = exec (fun t a => (spec t a).2) (abs s) as := by
  induction as generalizing s with
  | nil => exact ⟨rfl, rfl⟩
  | cons a as ih =>
    obtain ⟨hinv, hanswer, habs⟩ := hstep s a hs hr.1
    obtain ⟨hrest, hend⟩ := ih hinv hr.2
    simp only [answers, exec_cons]
    rw [hanswer, hrest, hend, habs]
    exact ⟨rfl, rfl⟩

/-! ## Sessions -/

/-- Sessions one after the other, each a restart and a run. -/
def sessions (restart : σ → ρ → σ) (step : σ → α → σ) : σ → List (ρ × List α) → σ
  | s, [] => s
  | s, z :: zs => sessions restart step (exec step (restart s z.1) z.2) zs

/-- Related systems stay related over a run that both guard. -/
theorem exec_rel {R : σ → τ → Prop} {step' : τ → α → τ} {ok' : τ → α → Prop}
    (hstep : ∀ s t a, R s t → ok s a → ok' t a → R (step s a) (step' t a)) {s : σ} {t : τ} {as : List α} (h : R s t)
    (hr : EachStep step ok s as) (hr' : EachStep step' ok' t as) : R (exec step s as) (exec step' t as) := by
  induction as generalizing s t with
  | nil => exact h
  | cons a as ih => exact ih (hstep s t a h hr.1 hr'.1) hr.2 hr'.2

/-- What both guards together say of a call of the one system. -/
theorem EachStep.of_rel {R : σ → τ → Prop} {step' : τ → α → τ} {ok' : τ → α → Prop}
    (hstep : ∀ s t a, R s t → ok s a → ok' t a → R (step s a) (step' t a))
    (hC : ∀ s t a, R s t → ok s a → ok' t a → C s a) {s : σ} {t : τ} {as : List α} (h : R s t)
    (hr : EachStep step ok s as) (hr' : EachStep step' ok' t as) : EachStep step C s as := by
  induction as generalizing s t with
  | nil => trivial
  | cons a as ih => exact ⟨hC s t a h hr.1 hr'.1, ih (hstep s t a h hr.1 hr'.1) hr.2 hr'.2⟩

/-- **Restarts that cannot be told from none**: `R` relates the system that restarts to one that does not. -/
theorem sessions_rel_of_session {R : σ → τ → Prop} {restart : σ → ρ → σ} {step' : τ → α → τ} {ok' : τ → α → Prop}
    {G : ρ × List α → Prop}
    (hsession : ∀ s t z, R s t → G z → EachStep step' ok' t z.2 → R (exec step (restart s z.1) z.2) (exec step' t z.2))
    {s : σ} {t : τ} {zs : List (ρ × List α)} (h : R s t) (hG : ∀ z ∈ zs, G z)
    (hr : EachStep step' ok' t (zs.flatMap Prod.snd)) :
    R (sessions restart step s zs) (exec step' t (zs.flatMap Prod.snd)) := by
  induction zs generalizing s t with
  | nil => exact h
  | cons z zs ih =>
    rw [List.flatMap_cons, eachStep_append] at hr
    rw [List.flatMap_cons, exec_append]
    exact ih (hsession s t z h (hG z List.mem_cons_self) hr.1) (fun y hy => hG y (List.mem_cons_of_mem z hy)) hr.2

/-- The same where the calls of a session do not depend on how it was started. -/
theorem sessions_rel {R : σ → τ → Prop} {restart : σ → ρ → σ} {step' : τ → α → τ} {ok' : τ → α → Prop}
    {G : ρ → Prop} (hstep : ∀ s t a, R s t → ok' t a → R (step s a) (step' t a))
    (hrestart : ∀ s t r, R s t → G r → R (restart s r) t) {s : σ} {t : τ} {zs : List (ρ × List α)} (h : R s t)
    (hG : ∀ z ∈ zs, G z.1) (hr : EachStep step' ok' t (zs.flatMap Prod.snd)) :
    R (sessions restart step s zs) (exec step' t (zs.flatMap Prod.snd)) := by
  refine sessions_rel_of_session (G := fun z => G z.1) (fun s t z h hz hr => ?_) h hG hr
  have hany : EachStep step (fun _ _ => True) (restart s z.1) z.2 :=
    eachStep_of_forall_mem (G := fun _ => True) _ _ fun _ _ => trivial
  exact exec_rel (fun s t a h _ ha => hstep s t a h ha) (hrestart s t z.1 h hz) hany hr

end Trace
