import Mathlib.Algebra.Order.BigOperators.Group.List
import Mathlib.Tactic
import SP2022.Runs

/-!
# Systems that come to an end

A measure on the states bounds the runs of a system if every step lowers it by at least what
the event costs (`cost_le_of_measure`). Events that cost nothing, as those of the environment,
do not count. If moreover a state that is not done always has an event that costs something,
every run can be extended by such events to one that ends in a done state
(`exists_run_done`).
-/

namespace SP2022.System

variable {σ ε : Type*} {S : System σ ε} {I done : σ → Prop} {cost : ε → ℕ} {μ : σ → ℕ}

/-- Every step from a state with `I` leads to one, and the measure pays for its event. -/
def Pays (S : System σ ε) (I : σ → Prop) (cost : ε → ℕ) (μ : σ → ℕ) : Prop :=
  ∀ e s t, I s → S.step e s = some t → I t ∧ cost e + μ t ≤ μ s

/-- What a run costs is paid by the measure. -/
theorem cost_le_of_measure (hpays : S.Pays I cost μ) :
    ∀ (es : List ε) {s t : σ}, I s → S.run es s = some t → (es.map cost).sum + μ t ≤ μ s
  | [], s, t, _, hrun => by
    obtain rfl : s = t := by simpa using hrun
    simp
  | e :: es, s, t, hs, hrun => by
    obtain ⟨u, hstep, hrest⟩ := S.run_cons.1 hrun
    obtain ⟨hu, hle⟩ := hpays e s u hs hstep
    have hrest' := cost_le_of_measure hpays es hu hrest
    rw [List.map_cons, List.sum_cons]
    omega

/-- If every event costs something, a run is no longer than the measure. -/
theorem length_le_of_measure (hpays : S.Pays I (fun _ => 1) μ) (es : List ε) {s t : σ} (hs : I s)
    (hrun : S.run es s = some t) : es.length + μ t ≤ μ s := by
  simpa using cost_le_of_measure hpays es hs hrun

/-- What a state satisfies at the start of a run, all states of the run satisfy. -/
theorem Pays.run (hpays : S.Pays I cost μ) (es : List ε) {s t : σ} (hs : I s)
    (hrun : S.run es s = some t) : I t :=
  run_invariant (fun e s t hs hstep => (hpays e s t hs hstep).1) es hs hrun

/-- If a state that is not done always has an event that costs something, such events lead
from every state to a done one. -/
theorem exists_run_done (hpays : S.Pays I cost μ)
    (hlive : ∀ s, I s → ¬done s → ∃ e t, S.step e s = some t ∧ 0 < cost e) :
    ∀ (n : ℕ) {s : σ}, I s → μ s ≤ n →
      ∃ es t, S.run es s = some t ∧ done t ∧ ∀ e ∈ es, 0 < cost e := by
  intro n
  induction n with
  | zero =>
    intro s hs hn
    by_cases hdone : done s
    · exact ⟨[], s, rfl, hdone, by simp⟩
    · obtain ⟨e, t, hstep, hcost⟩ := hlive s hs hdone
      have := (hpays e s t hs hstep).2
      omega
  | succ n ih =>
    intro s hs hn
    by_cases hdone : done s
    · exact ⟨[], s, rfl, hdone, by simp⟩
    · obtain ⟨e, t, hstep, hcost⟩ := hlive s hs hdone
      obtain ⟨ht, hle⟩ := hpays e s t hs hstep
      obtain ⟨es, u, hrun, hu, hall⟩ := ih ht (by omega)
      refine ⟨e :: es, u, S.run_cons.2 ⟨t, hstep, hrun⟩, hu, ?_⟩
      exact List.forall_mem_cons.2 ⟨hcost, hall⟩

end SP2022.System
