import Mathlib.Logic.Function.Basic
import SP2022.Reduction

/-!
# Programs that make calls

A program returns, or makes a call and goes on with the answer. Its calls are what other
programs can come between.

`wp` is the weakest precondition of a program for any answers to its calls, where `Effects`
says what a call asks for and what it leaves. `exec` runs a program with no other in
between. A program that commits once, with one of the calls `commits`, has a `Phase` : it is
`after` its commit if no call that commits is left in it (`Quiet`).
-/

namespace SP2022

/-- Programs with calls `C`, whose answers are in `A`. -/
inductive Program (C : Type) (A : C → Type) (α : Type)
  | ret (a : α)
  | call (c : C) (k : A c → Program C A α)

/-- What a call asks of the state, and the state that it leaves with an answer. -/
structure Effects (C : Type) (A : C → Type) (τ : Type*) where
  Pre : C → τ → Prop
  next : (c : C) → A c → τ → τ

namespace Program

variable {C : Type} {A : C → Type} {α β : Type} {τ : Type*}

/-- One program after the other. -/
def bind : Program C A α → (α → Program C A β) → Program C A β
  | ret a, f => f a
  | call c k, f => call c fun a => bind (k a) f

instance : Monad (Program C A) where
  pure := ret
  bind := bind

@[simp] theorem pure_eq (a : α) : (pure a : Program C A α) = ret a :=
  rfl

@[simp] theorem ret_bind (a : α) (f : α → Program C A β) : (ret a >>= f) = f a :=
  rfl

@[simp] theorem call_bind (c : C) (k : A c → Program C A α) (f : α → Program C A β) :
    (call c k >>= f) = call c fun a => k a >>= f :=
  rfl

/-! ## Weakest preconditions -/

/-- From the state `x`, whatever the calls answer, the program asks for nothing that it may
not, and returns with `Q`. -/
def wp (E : Effects C A τ) : Program C A α → (α → τ → Prop) → τ → Prop
  | ret a, Q, x => Q a x
  | call c k, Q, x => E.Pre c x ∧ ∀ a, wp E (k a) Q (E.next c a x)

section Wp

variable {E : Effects C A τ} {Q R : α → τ → Prop} {x : τ}

@[simp] theorem wp_call (c : C) (k : A c → Program C A α) :
    (call c k).wp E Q x ↔ E.Pre c x ∧ ∀ a, (k a).wp E Q (E.next c a x) :=
  Iff.rfl

@[simp] theorem wp_bind (P : Program C A α) (f : α → Program C A β) (Q : β → τ → Prop) (x : τ) :
    (P >>= f).wp E Q x ↔ P.wp E (fun a y => (f a).wp E Q y) x := by
  induction P generalizing x with
  | ret a => rfl
  | call c k ih =>
    rw [call_bind, wp_call, wp_call]
    exact and_congr_right fun _ => forall_congr' fun a => ih a _

theorem wp_mono {P : Program C A α} (hQ : ∀ a y, Q a y → R a y) : P.wp E Q x → P.wp E R x := by
  induction P generalizing x with
  | ret a => exact hQ a x
  | call c k ih => exact fun h => ⟨h.1, fun a => ih a (h.2 a)⟩

end Wp

/-! ## Runs without interruption -/

/-- The program with `answer c y` as the answer to the call `c` in the state `y`. -/
def exec (answer : (c : C) → τ → A c) (next : (c : C) → A c → τ → τ) :
    Program C A α → τ → α × τ
  | ret a, x => (a, x)
  | call c k, x => exec answer next (k (answer c x)) (next c (answer c x) x)

section Exec

variable {answer : (c : C) → τ → A c} {next : (c : C) → A c → τ → τ}

@[simp] theorem exec_bind (P : Program C A α) (f : α → Program C A β) (x : τ) :
    (P >>= f).exec answer next x =
      (f (P.exec answer next x).1).exec answer next (P.exec answer next x).2 := by
  induction P generalizing x with
  | ret a => rfl
  | call c k ih => exact ih _ _

end Exec

/-! ## One commit -/

/-- No call of the program commits. -/
def Quiet (commits : C → Bool) : Program C A α → Prop
  | ret _ => True
  | call c k => commits c = false ∧ ∀ a, Quiet commits (k a)

open Classical in
/-- The phase of a transaction that has this program left. -/
noncomputable def phase (commits : C → Bool) (P : Program C A α) : Phase :=
  if P.Quiet commits then .after else .before

end Program

/-- A call that commits must be the first to do so. -/
def Effects.once {C : Type} {A : C → Type} {τ : Type*} (E : Effects C A τ) (commits : C → Bool) :
    Effects C A (τ × Bool) where
  Pre c x := E.Pre c x.1 ∧ (commits c → x.2 = false)
  next c a x := (E.next c a x.1, x.2 || commits c)

namespace Program

section Once

variable {C : Type} {A : C → Type} {α : Type} {τ : Type*} {commits : C → Bool}
  {E : Effects C A τ} {Q : α → τ × Bool → Prop} {x : τ} {b : Bool} {c : C}
  {k : A c → Program C A α} {P : Program C A α}

theorem phase_ne_idle : P.phase commits ≠ .idle := by
  unfold phase
  split_ifs <;> exact nofun

theorem phase_eq_after : P.phase commits = .after ↔ P.Quiet commits := by
  unfold phase
  split_ifs with h <;> simp [h]

theorem phase_eq_before : P.phase commits = .before ↔ ¬P.Quiet commits := by
  unfold phase
  split_ifs with h <;> simp [h]

/-- What has committed is quiet. -/
theorem quiet_of_wp (h : P.wp (E.once commits) Q (x, true)) : P.Quiet commits := by
  induction P generalizing x with
  | ret a => trivial
  | call c k ih =>
    refine ⟨?_, fun a => ih a (h.2 a)⟩
    have hnot := h.1.2
    simpa using hnot

/-- A call after which the program is not quiet does not commit. -/
theorem commits_of_before (h : (call c k).wp (E.once commits) Q (x, b)) {a : A c}
    (hphase : (k a).phase commits = .before) : commits c = false := by
  cases hc : commits c with
  | false => rfl
  | true =>
    have hk := h.2 a
    simp only [Effects.once, hc, Bool.or_true] at hk
    exact absurd (quiet_of_wp hk) (phase_eq_before.1 hphase)

/-- A quiet program stays quiet. -/
theorem phase_call (hphase : (call c k).phase commits = .after) (a : A c) :
    commits c = false ∧ (k a).phase commits = .after := by
  obtain ⟨hc, hk⟩ := phase_eq_after.1 hphase
  exact ⟨hc, phase_eq_after.2 (hk a)⟩

end Once

end Program

end SP2022
