import Mathlib.Data.Set.Insert
import SP2022.Network

/-!
# Runs of a part of a network

`Runs A X s t` says that processes of `A` can lead from `s` to `t`, and that of the channels
without a fixed reader or writer they use only those in `X`. What belongs to other processes
is then as before : their states, what they wrote and how far they read. So a run of one
part can be followed by a run of another part, and what is known of each part stays known.
-/

namespace SP2022

namespace Network

variable {P C F L : Type} {V : C → Type} [DecidableEq P] [DecidableEq C] [DecidableEq F]

/-- Steps of processes of `A` lead from `s` to `t`. -/
structure Runs (N : Network P C F V L) (A : Set P) (X : Set C) (s t : Config P C F V L) :
    Prop where
  exists_run : ∃ w : List P, (∀ p ∈ w, p ∈ A) ∧ N.system.run w s = some t
  shared_sent : ∀ c ∉ X, N.writer c = none → t.sent c = s.sent c
  shared_got : ∀ c ∉ X, N.reader c = none → t.got c = s.got c

variable {N : Network P C F V L} {A B : Set P} {X Y : Set C} {s t u : Config P C F V L}

namespace Runs

theorem refl (s : Config P C F V L) : N.Runs A X s s :=
  ⟨⟨[], by simp, rfl⟩, fun _ _ _ => rfl, fun _ _ _ => rfl⟩

theorem mono (h : N.Runs A X s t) (hA : A ⊆ B) (hX : X ⊆ Y) : N.Runs B Y s t := by
  obtain ⟨w, hw, hrun⟩ := h.exists_run
  exact ⟨⟨w, fun p hp => hA (hw p hp), hrun⟩, fun c hc => h.shared_sent c fun hc' => hc (hX hc'),
    fun c hc => h.shared_got c fun hc' => hc (hX hc')⟩

theorem trans (h : N.Runs A X s t) (h' : N.Runs A X t u) : N.Runs A X s u := by
  obtain ⟨w, hw, hrun⟩ := h.exists_run
  obtain ⟨w', hw', hrun'⟩ := h'.exists_run
  refine ⟨⟨w ++ w', fun p hp => ?_, N.system.run_append_eq_some.2 ⟨t, hrun, hrun'⟩⟩,
    fun c hc hc' => (h'.shared_sent c hc hc').trans (h.shared_sent c hc hc'),
    fun c hc hc' => (h'.shared_got c hc hc').trans (h.shared_got c hc hc')⟩
  rcases List.mem_append.1 hp with hp | hp
  · exact hw p hp
  · exact hw' p hp

theorem proc (h : N.Runs A X s t) {p : P} (hp : p ∉ A) : t.proc p = s.proc p := by
  obtain ⟨w, hw, hrun⟩ := h.exists_run
  exact run_proc hrun fun hp' => hp (hw p hp')

theorem sent (h : N.Runs A X s t) {c : C} {p : P} (hc : N.writer c = some p) (hp : p ∉ A) :
    t.sent c = s.sent c := by
  obtain ⟨w, hw, hrun⟩ := h.exists_run
  exact run_sent hc hrun fun hp' => hp (hw p hp')

theorem got (h : N.Runs A X s t) {c : C} {p : P} (hc : N.reader c = some p) (hp : p ∉ A) :
    t.got c = s.got c := by
  obtain ⟨w, hw, hrun⟩ := h.exists_run
  exact run_got hc hrun fun hp' => hp (hw p hp')

theorem flag (h : N.Runs A X s t) {f : F} (hf : s.flag f = true) : t.flag f = true := by
  obtain ⟨w, -, hrun⟩ := h.exists_run
  exact (run_grows hrun).flag f hf

/-- Channels that did not change need not be allowed. -/
theorem shrink (h : N.Runs A X s t) (hsent : ∀ c ∈ X, c ∉ Y → N.writer c = none →
    t.sent c = s.sent c) (hgot : ∀ c ∈ X, c ∉ Y → N.reader c = none → t.got c = s.got c) :
    N.Runs A Y s t := by
  refine ⟨h.exists_run, fun c hc hw => ?_, fun c hc hr => ?_⟩
  · by_cases hX : c ∈ X
    · exact hsent c hX hc hw
    · exact h.shared_sent c hX hw
  · by_cases hX : c ∈ X
    · exact hgot c hX hc hr
    · exact h.shared_got c hX hr

end Runs

/-! ## Single steps -/

theorem runs_of_step {p : P} (hstep : N.step p s = some t)
    (hsent : ∀ c ∉ X, N.writer c = none → t.sent c = s.sent c)
    (hgot : ∀ c ∉ X, N.reader c = none → t.got c = s.got c) : N.Runs {p} X s t :=
  ⟨⟨[p], fun _ hq => List.mem_singleton.1 hq, N.system.run_cons.2 ⟨t, hstep, rfl⟩⟩, hsent, hgot⟩

/-- A process reads the value that it is next to read. -/
theorem runs_read {p : P} {c : C} {k : V c → L} (hop : N.op p (s.proc p) = .read c k)
    {l : List (V c)} {v : V c} (hsent : s.sent c = l ++ [v]) (hgot : s.got c = l.length)
    (hX : N.reader c = none → c ∈ X) :
    ∃ t, N.Runs {p} X s t ∧ t.proc p = k v ∧ t.sent = s.sent ∧
      t.got = Function.update s.got c (s.got c + 1) ∧ t.flag = s.flag := by
  have hv : (s.sent c)[s.got c]? = some v := by
    rw [hsent, hgot]
    exact List.getElem?_concat_length
  refine ⟨{ s with
    proc := Function.update s.proc p (k v)
    got := Function.update s.got c (s.got c + 1) }, ?_, by simp, rfl, rfl, rfl⟩
  refine runs_of_step ?_ (fun _ _ _ => rfl) fun d hd hr => ?_
  · rw [step, hop]
    exact Option.map_eq_some_iff.2 ⟨v, hv, rfl⟩
  · have hne : d ≠ c := by
      rintro rfl
      exact hd (hX hr)
    exact Function.update_of_ne hne _ _

/-- A process writes. -/
theorem runs_write {p : P} {c : C} {v : V c} {l : L} (hop : N.op p (s.proc p) = .write c v l)
    (hX : N.writer c = none → c ∈ X) :
    ∃ t, N.Runs {p} X s t ∧ t.proc p = l ∧
      t.sent = Function.update s.sent c (s.sent c ++ [v]) ∧ t.got = s.got ∧ t.flag = s.flag := by
  refine ⟨{ s with
    proc := Function.update s.proc p l
    sent := Function.update s.sent c (s.sent c ++ [v]) }, ?_, by simp, rfl, rfl, rfl⟩
  refine runs_of_step ?_ (fun d hd hr => ?_) fun _ _ _ => rfl
  · rw [step, hop]
    rfl
  · have hne : d ≠ c := by
      rintro rfl
      exact hd (hX hr)
    exact Function.update_of_ne hne _ _

/-- A process raises a flag. -/
theorem runs_raise {p : P} {f : F} {l : L} (hop : N.op p (s.proc p) = .raise f l) :
    ∃ t, N.Runs {p} X s t ∧ t.proc p = l ∧ t.sent = s.sent ∧ t.got = s.got ∧
      t.flag f = true := by
  refine ⟨{ s with
    proc := Function.update s.proc p l
    flag := Function.update s.flag f true }, ?_, by simp, rfl, rfl, by simp⟩
  refine runs_of_step ?_ (fun _ _ _ => rfl) fun _ _ _ => rfl
  rw [step, hop]
  rfl

/-- A process goes on when the flags it waits for are up. -/
theorem runs_await {p : P} {ready : (F → Bool) → Bool} {l : L}
    (hop : N.op p (s.proc p) = .await ready l) (hready : ready s.flag = true) :
    ∃ t, N.Runs {p} X s t ∧ t.proc p = l ∧ t.sent = s.sent ∧ t.got = s.got ∧
      t.flag = s.flag := by
  refine ⟨{ s with proc := Function.update s.proc p l }, ?_, by simp, rfl, rfl, rfl⟩
  refine runs_of_step ?_ (fun _ _ _ => rfl) fun _ _ _ => rfl
  rw [step, hop]
  exact if_pos hready

end Network

end SP2022
