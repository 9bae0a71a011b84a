import Mathlib.Data.List.Infix
import Mathlib.Data.Option.Basic

/-!
# Runs of a guarded transition system

A system is a predicate on initial states and a guarded step function :
`step e s` is the state after the event `e`, or `none` if `s` does not allow it.
`run` replays a list of events. A property that holds initially and is kept by
every step holds of every reachable state (`Reachable.invariant`), and a property that a
step keeps exactly when it meets a condition holds all along a run exactly when all its
steps meet it (`throughout_iff_eachStep`).
-/

namespace SP2022

/-- States `σ`, events `ε`, and a step function that refuses disabled events. -/
structure System (σ ε : Type*) where
  init : σ → Prop
  step : ε → σ → Option σ

namespace System

variable {σ ε τ : Type*} (S : System σ ε)

/-- Replay a list of events, first event first. -/
def run : List ε → σ → Option σ
  | [], s => some s
  | e :: es, s => (S.step e s).bind (run es)

/-- States at the end of a run from an initial state. -/
def Reachable (t : σ) : Prop :=
  ∃ s es, S.init s ∧ S.run es s = some t

@[simp] theorem run_nil (s : σ) : S.run [] s = some s :=
  rfl

theorem run_cons {e : ε} {es : List ε} {s t : σ} :
    S.run (e :: es) s = some t ↔ ∃ u, S.step e s = some u ∧ S.run es u = some t := by
  simp [run, Option.bind_eq_some_iff]

theorem run_append (es es' : List ε) (s : σ) :
    S.run (es ++ es') s = (S.run es s).bind (S.run es') := by
  induction es generalizing s with
  | nil => rfl
  | cons e es ih =>
    simp only [List.cons_append, run, Option.bind_assoc]
    congr 1
    funext u
    exact ih u

theorem run_append_eq_some {es es' : List ε} {s t : σ} :
    S.run (es ++ es') s = some t ↔ ∃ u, S.run es s = some u ∧ S.run es' u = some t := by
  rw [run_append, Option.bind_eq_some_iff]

theorem run_snoc {es : List ε} {e : ε} {s t : σ} :
    S.run (es ++ [e]) s = some t ↔ ∃ u, S.run es s = some u ∧ S.step e u = some t := by
  rw [run_append_eq_some]
  simp [run]

/-- Every state that the run visits satisfies `P`. -/
def Throughout (P : σ → Prop) (es : List ε) (s : σ) : Prop :=
  ∀ es₁ es₂ t, es = es₁ ++ es₂ → S.run es₁ s = some t → P t

/-- Every event of the run satisfies `C` in the state it is taken in. -/
def EachStep (C : ε → σ → Prop) (es : List ε) (s : σ) : Prop :=
  ∀ es₁ e es₂ t, es = es₁ ++ e :: es₂ → S.run es₁ s = some t → C e t

/-- Some event of the run satisfies `C` in the state it is taken in. -/
def SomeStep (C : ε → σ → Prop) (es : List ε) (s : σ) : Prop :=
  ∃ es₁ e es₂ t, es = es₁ ++ e :: es₂ ∧ S.run es₁ s = some t ∧ C e t

/-- The states that a run visits, the first one included. -/
def states : List ε → σ → List σ
  | [], s => [s]
  | e :: es, s => s :: ((S.step e s).map (states es)).getD []

variable {S}

theorem states_cons {e : ε} {es : List ε} {s u : σ} (hstep : S.step e s = some u) :
    S.states (e :: es) s = s :: S.states es u := by
  simp [states, hstep]

/-- A state that a run visits splits the run. -/
theorem exists_split_of_states :
    ∀ {es : List ε} {s t u : σ} {pre post : List σ}, S.run es s = some t →
      S.states es s = pre ++ u :: post →
      ∃ es₁ es₂, es = es₁ ++ es₂ ∧ S.run es₁ s = some u ∧ S.run es₂ u = some t ∧
        S.states es₂ u = u :: post
  | [], s, t, u, pre, post, hrun, hstates => by
    obtain ⟨rfl, h⟩ | ⟨_, h⟩ := List.append_eq_cons_iff.1 hstates.symm
    · obtain ⟨rfl, rfl⟩ := List.cons.inj h
      exact ⟨[], [], rfl, rfl, hrun, rfl⟩
    · simp at h
  | e :: es, s, t, u, pre, post, hrun, hstates => by
    obtain ⟨v, hstep, hrest⟩ := S.run_cons.1 hrun
    rw [states_cons hstep] at hstates
    obtain ⟨rfl, h⟩ | ⟨pre, rfl, h⟩ := List.append_eq_cons_iff.1 hstates.symm
    · obtain ⟨rfl, rfl⟩ := List.cons.inj h
      exact ⟨[], e :: es, rfl, rfl, hrun, states_cons hstep⟩
    · obtain ⟨es₁, es₂, rfl, hfirst, hlast, hsplit⟩ := exists_split_of_states hrest h
      exact ⟨e :: es₁, es₂, rfl, S.run_cons.2 ⟨v, hstep, hfirst⟩, hlast, hsplit⟩

/-- A run that leads to `P` from a state without it has a step that does. -/
theorem exists_first_step {P : σ → Prop} : ∀ {es : List ε} {s t : σ}, S.run es s = some t → ¬P s →
    P t → ∃ es₁ e es₂ u v, es = es₁ ++ e :: es₂ ∧ S.run es₁ s = some u ∧ ¬P u ∧
      S.step e u = some v ∧ P v ∧ S.run es₂ v = some t
  | [], s, t, hrun, hs, ht => by
    obtain rfl : s = t := by simpa using hrun
    exact absurd ht hs
  | e :: es, s, t, hrun, hs, ht => by
    obtain ⟨u, hstep, hrest⟩ := S.run_cons.1 hrun
    by_cases hu : P u
    · exact ⟨[], e, es, s, u, rfl, rfl, hs, hstep, hu, hrest⟩
    · obtain ⟨es₁, e', es₂, v, v', rfl, hrun₁, hv, hstep', hv', hrun₂⟩ :=
        exists_first_step hrest hu ht
      exact ⟨e :: es₁, e', es₂, v, v', rfl, S.run_cons.2 ⟨u, hstep, hrun₁⟩, hv, hstep', hv', hrun₂⟩

theorem throughout_nil {P : σ → Prop} {s : σ} : S.Throughout P [] s ↔ P s := by
  constructor
  · exact fun h => h [] [] s rfl rfl
  · rintro hs es₁ es₂ t heq hrun
    obtain ⟨rfl, -⟩ := List.append_eq_nil_iff.1 heq.symm
    obtain rfl : s = t := by simpa using hrun
    exact hs

theorem throughout_cons {P : σ → Prop} {e : ε} {es : List ε} {s u : σ}
    (hstep : S.step e s = some u) :
    S.Throughout P (e :: es) s ↔ P s ∧ S.Throughout P es u := by
  constructor
  · refine fun h => ⟨h [] _ s rfl rfl, fun es₁ es₂ t heq hrun => ?_⟩
    exact h (e :: es₁) es₂ t (by rw [heq]; rfl) (S.run_cons.2 ⟨u, hstep, hrun⟩)
  · rintro ⟨hs, h⟩ (_ | ⟨e', es₁⟩) es₂ t heq hrun
    · obtain rfl : s = t := by simpa using hrun
      exact hs
    · obtain ⟨rfl, htail⟩ := List.cons.inj heq
      obtain ⟨u', hu, hrest⟩ := S.run_cons.1 hrun
      obtain rfl : u = u' := Option.some.inj (hstep.symm.trans hu)
      exact h es₁ es₂ t htail hrest

theorem eachStep_nil {C : ε → σ → Prop} {s : σ} : S.EachStep C [] s := by
  intro es₁ e es₂ t heq
  simp at heq

theorem eachStep_cons {C : ε → σ → Prop} {e : ε} {es : List ε} {s u : σ}
    (hstep : S.step e s = some u) :
    S.EachStep C (e :: es) s ↔ C e s ∧ S.EachStep C es u := by
  constructor
  · refine fun h => ⟨h [] e es s rfl rfl, fun es₁ e' es₂ t heq hrun => ?_⟩
    exact h (e :: es₁) e' es₂ t (by rw [heq]; rfl) (S.run_cons.2 ⟨u, hstep, hrun⟩)
  · rintro ⟨hs, h⟩ (_ | ⟨e', es₁⟩) e'' es₂ t heq hrun
    · obtain ⟨rfl, -⟩ := List.cons.inj heq
      obtain rfl : s = t := by simpa using hrun
      exact hs
    · obtain ⟨rfl, htail⟩ := List.cons.inj heq
      obtain ⟨u', hu, hrest⟩ := S.run_cons.1 hrun
      obtain rfl : u = u' := Option.some.inj (hstep.symm.trans hu)
      exact h es₁ e'' es₂ t htail hrest

theorem not_someStep_nil {C : ε → σ → Prop} {s : σ} : ¬S.SomeStep C [] s := by
  rintro ⟨es₁, e, es₂, t, heq, -⟩
  simp at heq

theorem someStep_cons {C : ε → σ → Prop} {e : ε} {es : List ε} {s u : σ}
    (hstep : S.step e s = some u) :
    S.SomeStep C (e :: es) s ↔ C e s ∨ S.SomeStep C es u := by
  constructor
  · rintro ⟨_ | ⟨e', es₁⟩, e'', es₂, t, heq, hrun, hc⟩
    · obtain ⟨rfl, -⟩ := List.cons.inj heq
      obtain rfl : s = t := by simpa using hrun
      exact Or.inl hc
    · obtain ⟨rfl, htail⟩ := List.cons.inj heq
      obtain ⟨u', hu, hrest⟩ := S.run_cons.1 hrun
      obtain rfl : u = u' := Option.some.inj (hstep.symm.trans hu)
      exact Or.inr ⟨es₁, e'', es₂, t, htail, hrest, hc⟩
  · rintro (hc | ⟨es₁, e', es₂, t, rfl, hrun, hc⟩)
    · exact ⟨[], e, es, s, rfl, rfl, hc⟩
    · exact ⟨e :: es₁, e', es₂, t, rfl, S.run_cons.2 ⟨u, hstep, hrun⟩, hc⟩

/-- What a step makes true exactly when it meets `C`, and no step makes false, holds after
a run exactly if it held before or some step met `C`. -/
theorem iff_someStep {G F : σ → Prop} {C : ε → σ → Prop}
    (hkeep : ∀ e s t, G s → S.step e s = some t → G t)
    (hiff : ∀ e s t, G s → S.step e s = some t → (F t ↔ F s ∨ C e s)) :
    ∀ (es : List ε) {s t : σ}, G s → S.run es s = some t → (F t ↔ F s ∨ S.SomeStep C es s)
  | [], s, t, _, hrun => by
    obtain rfl : s = t := by simpa using hrun
    exact (or_iff_left not_someStep_nil).symm
  | e :: es, s, t, hs, hrun => by
    obtain ⟨u, hstep, hrest⟩ := S.run_cons.1 hrun
    rw [someStep_cons hstep, ← or_assoc, ← hiff e s u hs hstep]
    exact iff_someStep hkeep hiff es (hkeep e s u hs hstep) hrest

/-- If, from a good state, a step leads to `P` exactly when it meets `C`, and then to a
good state again, a run stays in `P` exactly when each of its steps meets `C`. -/
theorem throughout_iff_eachStep {G P : σ → Prop} {C : ε → σ → Prop} (hgood : ∀ s, G s → P s)
    (hiff : ∀ e s t, G s → S.step e s = some t → (P t ↔ C e s))
    (hkeep : ∀ e s t, G s → S.step e s = some t → C e s → G t) :
    ∀ (es : List ε) {s t : σ}, G s → S.run es s = some t →
      (S.Throughout P es s ↔ S.EachStep C es s)
  | [], s, t, hs, _ => iff_of_true (throughout_nil.2 (hgood s hs)) eachStep_nil
  | e :: es, s, t, hs, hrun => by
    obtain ⟨u, hstep, hrest⟩ := S.run_cons.1 hrun
    rw [throughout_cons hstep, eachStep_cons hstep, and_iff_right (hgood s hs)]
    by_cases hc : C e s
    · rw [and_iff_right hc]
      exact throughout_iff_eachStep hgood hiff hkeep es (hkeep e s u hs hstep hc) hrest
    · refine iff_of_false (fun h => ?_) fun h => hc h.1
      exact hc ((hiff e s u hs hstep).1 (h [] es u rfl rfl))

theorem Reachable.of_init {s : σ} (h : S.init s) : S.Reachable s :=
  ⟨s, [], h, rfl⟩

theorem Reachable.run {s t : σ} {es : List ε} (h : S.Reachable s) (hrun : S.run es s = some t) :
    S.Reachable t := by
  obtain ⟨s₀, es₀, hinit, h₀⟩ := h
  exact ⟨s₀, es₀ ++ es, hinit, S.run_append_eq_some.2 ⟨s, h₀, hrun⟩⟩

theorem Reachable.step {s t : σ} {e : ε} (h : S.Reachable s) (hstep : S.step e s = some t) :
    S.Reachable t :=
  h.run (S.run_cons.2 ⟨t, hstep, S.run_nil t⟩)

/-- What every step that meets `C` keeps, a run of such steps keeps. -/
theorem eachStep_invariant {I : σ → Prop} {C : ε → σ → Prop}
    (hkeep : ∀ e s t, I s → S.step e s = some t → C e s → I t) :
    ∀ (es : List ε) {s t : σ}, I s → S.run es s = some t → S.EachStep C es s → I t
  | [], s, t, hs, hrun, _ => by
    obtain rfl : s = t := by simpa using hrun
    exact hs
  | e :: es, s, t, hs, hrun, hC => by
    obtain ⟨u, hstep, hrest⟩ := S.run_cons.1 hrun
    obtain ⟨hc, hC⟩ := (eachStep_cons hstep).1 hC
    exact eachStep_invariant hkeep es (hkeep e s u hs hstep hc) hrest hC

/-- What every step keeps, every run keeps. -/
theorem run_invariant {I : σ → Prop} (hkeep : ∀ e s t, I s → S.step e s = some t → I t)
    (es : List ε) {s t : σ} (hs : I s) (hrun : S.run es s = some t) : I t :=
  eachStep_invariant (C := fun _ _ => True) (fun e s t hs hstep _ => hkeep e s t hs hstep) es hs
    hrun fun _ _ _ _ _ _ => trivial

/-- An invariant holds of every reachable state. -/
theorem Reachable.invariant {I : σ → Prop} (hinit : ∀ s, S.init s → I s)
    (hkeep : ∀ e s t, I s → S.step e s = some t → I t) {t : σ} (h : S.Reachable t) : I t := by
  obtain ⟨s, es, hs, hrun⟩ := h
  exact run_invariant hkeep es (hinit s hs) hrun

end System

end SP2022
