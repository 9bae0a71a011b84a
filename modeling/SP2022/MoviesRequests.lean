import Mathlib.Algebra.BigOperators.Fin
import Mathlib.Tactic.Abel
import SP2022.Runs

/-!
# Sharing the requests

The threads that run `Group` in the THREAD build take the requests from a shared counter.
A step of a worker is its critical section (`pop`, and `front` read into `cur`), the test of
its loop, which calls `Recommend` or leaves the loop, or the return of that call, and any
worker takes the next step. `calls` lists the calls of `Recommend`, each with its worker.
`cur` is never negative, so its conversion to `unsigned int` in the test is left out, and
there are at most `MAX_REQ` requests, so no number overflows.

Every index up to `front` has been taken once : it was passed to `Recommend`, or is the
`cur` of one worker that has not tested it yet or has left its loop with it
(`Shares.taken`). `requests_served_once` counts these indices.
-/

namespace SP2022.Recommendation

/-- A thread that runs `Group`, with its `cur`. -/
inductive Worker
  /-- Before the critical section. -/
  | locking
  /-- Before the test of the loop. -/
  | testing (cur : ℤ)
  /-- In `Recommend`. -/
  | recommending (cur : ℤ)
  /-- After the loop. -/
  | exited (cur : ℤ)
  deriving DecidableEq, Repr

/-- `front`, the workers, and the calls of `Recommend` so far. -/
structure Requests (w : ℕ) where
  front : ℤ
  worker : Fin w → Worker
  calls : List (Fin w × ℤ)

/-- `pop`. -/
def pop (front : ℤ) : ℤ :=
  front + 1

section Group

variable {w : ℕ}

/-- The worker `t` goes to the next place of `Group`. -/
def Requests.goto (s : Requests w) (t : Fin w) (x : Worker) : Requests w :=
  { s with worker := Function.update s.worker t x }

/-- `Group`, one step of the worker `t`. -/
def Group (num_of_reqs : ℕ) (t : Fin w) (s : Requests w) : Option (Requests w) :=
  match s.worker t with
  | .locking =>
    let s := { s with front := pop s.front }
    some (s.goto t (.testing s.front))
  | .testing cur =>
    if cur < num_of_reqs then
      some ({ s with calls := s.calls ++ [(t, cur)] }.goto t (.recommending cur))
    else some (s.goto t (.exited cur))
  | .recommending _ => some (s.goto t .locking)
  | .exited _ => none

/-- `w` workers, for `num_of_reqs` requests. -/
def workers (num_of_reqs w : ℕ) : System (Requests w) (Fin w) where
  init s := s = ⟨-1, fun _ => .locking, []⟩
  step := Group num_of_reqs

/-! ## The invariant -/

/-- The index that a worker has taken and not passed to `Recommend`. -/
def Worker.holds : Worker → Multiset ℤ
  | .locking => 0
  | .testing cur => {cur}
  | .recommending _ => 0
  | .exited cur => {cur}

@[simp] theorem holds_locking : Worker.locking.holds = 0 :=
  rfl

@[simp] theorem holds_testing (cur : ℤ) : (Worker.testing cur).holds = {cur} :=
  rfl

@[simp] theorem holds_recommending (cur : ℤ) : (Worker.recommending cur).holds = 0 :=
  rfl

@[simp] theorem holds_exited (cur : ℤ) : (Worker.exited cur).holds = {cur} :=
  rfl

/-- The indices that were passed to `Recommend`. -/
def Requests.served (s : Requests w) : List ℤ :=
  s.calls.map Prod.snd

/-- The indices up to `front`. -/
def upTo (front : ℤ) : Multiset ℤ :=
  (Multiset.range (front + 1).toNat).map Nat.cast

/-- Every index up to `front` was taken once. -/
structure Shares (num_of_reqs : ℕ) (s : Requests w) : Prop where
  front : -1 ≤ s.front
  taken : (s.served : Multiset ℤ) + ∑ t, (s.worker t).holds = upTo s.front
  served : ∀ i ∈ s.served, i < num_of_reqs
  exited : ∀ t cur, s.worker t = .exited cur → (num_of_reqs : ℤ) ≤ cur

theorem mem_upTo {front i : ℤ} : i ∈ upTo front ↔ 0 ≤ i ∧ i ≤ front := by
  unfold upTo
  rw [Multiset.mem_map]
  constructor
  · rintro ⟨m, hm, rfl⟩
    have := Multiset.mem_range.1 hm
    omega
  · rintro ⟨h0, hi⟩
    exact ⟨i.toNat, Multiset.mem_range.2 (by omega), Int.toNat_of_nonneg h0⟩

theorem nodup_upTo (front : ℤ) : (upTo front).Nodup :=
  (Multiset.nodup_range _).map Nat.cast_injective

theorem card_upTo (front : ℤ) : (upTo front).card = (front + 1).toNat := by
  rw [upTo, Multiset.card_map, Multiset.card_range]

theorem upTo_pop {front : ℤ} (h : -1 ≤ front) : upTo (pop front) = pop front ::ₘ upTo front := by
  have hsucc : (pop front + 1).toNat = (front + 1).toNat + 1 := by
    unfold pop
    omega
  have hlast : (((front + 1).toNat : ℕ) : ℤ) = pop front := Int.toNat_of_nonneg (by omega)
  rw [upTo, hsucc, Multiset.range_succ, Multiset.map_cons, hlast, upTo]

/-- What the workers hold after one of them has moved. -/
theorem sum_holds_goto (s : Requests w) (t : Fin w) (x : Worker) :
    ∑ u, ((s.goto t x).worker u).holds + (s.worker t).holds =
      ∑ u, (s.worker u).holds + x.holds := by
  have hold := Finset.add_sum_erase Finset.univ (fun u => (s.worker u).holds) (Finset.mem_univ t)
  have hnew := Finset.add_sum_erase Finset.univ (fun u => ((s.goto t x).worker u).holds)
    (Finset.mem_univ t)
  have hself : (s.goto t x).worker t = x := Function.update_self _ _ _
  have hothers : ∑ u ∈ Finset.univ.erase t, ((s.goto t x).worker u).holds =
      ∑ u ∈ Finset.univ.erase t, (s.worker u).holds :=
    Finset.sum_congr rfl fun u hu => by
      exact congrArg Worker.holds (Function.update_of_ne (Finset.ne_of_mem_erase hu) _ _)
  rw [← hold, ← hnew, hself, hothers]
  abel

theorem exited_goto {s : Requests w} {t u : Fin w} {x : Worker} {cur : ℤ}
    (h : (s.goto t x).worker u = .exited cur) : x = .exited cur ∨ s.worker u = .exited cur := by
  by_cases hu : u = t
  · subst hu
    exact Or.inl ((Function.update_self _ _ _).symm.trans h)
  · exact Or.inr ((Function.update_of_ne hu _ _).symm.trans h)

variable {n : ℕ} {s s' : Requests w}

/-- A step keeps the invariant. -/
theorem Shares.step (h : Shares n s) {t : Fin w} (hstep : Group n t s = some s') :
    Shares n s' := by
  have htaken := h.taken
  unfold Group at hstep
  cases hw : s.worker t with
  | locking =>
    rw [hw] at hstep
    obtain rfl := Option.some.inj hstep
    have hsum := sum_holds_goto s t (.testing (pop s.front))
    rw [hw, holds_locking, holds_testing, add_zero] at hsum
    have hfront := h.front
    refine ⟨?_, ?_, h.served, fun u cur hu => (exited_goto hu).elim nofun (h.exited u cur)⟩
    · simp only [Requests.goto, pop]
      omega
    · show (s.served : Multiset ℤ) +
        ∑ u, ((s.goto t (.testing (pop s.front))).worker u).holds = upTo (pop s.front)
      rw [hsum, upTo_pop h.front, ← htaken, ← add_assoc, add_comm, Multiset.singleton_add]
  | testing cur =>
    rw [hw] at hstep
    simp only at hstep
    split_ifs at hstep with hcur
    · obtain rfl := Option.some.inj hstep
      have hsum := sum_holds_goto s t (.recommending cur)
      rw [hw, holds_recommending, holds_testing, add_zero] at hsum
      refine ⟨h.front, ?_, fun i hi => ?_,
        fun u cur hu => (exited_goto hu).elim nofun (h.exited u cur)⟩
      · show (((s.calls ++ [(t, cur)]).map Prod.snd : List ℤ) : Multiset ℤ) +
          ∑ u, ((s.goto t (.recommending cur)).worker u).holds = upTo s.front
        rw [← htaken, ← hsum, List.map_append, ← Multiset.coe_add, add_assoc,
          add_comm (∑ u, _)]
        rfl
      · have hi' : i ∈ (s.calls ++ [(t, cur)]).map Prod.snd := hi
        rw [List.map_append, List.mem_append] at hi'
        rcases hi' with hi' | hi'
        · exact h.served i hi'
        · obtain rfl := List.mem_singleton.1 hi'
          exact hcur
    · obtain rfl := Option.some.inj hstep
      have hsum := sum_holds_goto s t (.exited cur)
      rw [hw, holds_exited, holds_testing] at hsum
      refine ⟨h.front, (congrArg _ (add_right_cancel hsum)).trans htaken, h.served,
        fun u cur' hu => ?_⟩
      rcases exited_goto hu with heq | hu
      · cases heq
        exact not_lt.1 hcur
      · exact h.exited u cur' hu
  | recommending cur =>
    rw [hw] at hstep
    obtain rfl := Option.some.inj hstep
    have hsum := sum_holds_goto s t .locking
    rw [hw, holds_locking, holds_recommending] at hsum
    exact ⟨h.front, (congrArg _ (add_right_cancel hsum)).trans htaken, h.served,
      fun u cur hu => (exited_goto hu).elim nofun (h.exited u cur)⟩
  | exited cur =>
    rw [hw] at hstep
    cases hstep

theorem shares_of_reachable (h : (workers n w).Reachable s) : Shares n s := by
  refine h.invariant (fun s hs => ?_) fun t s s' hs hstep => hs.step hstep
  subst hs
  refine ⟨le_rfl, ?_, by simp [Requests.served], by simp⟩
  simp [Requests.served, Worker.holds, upTo]

/-- What was passed to `Recommend` are different requests. -/
theorem Shares.served_once (h : Shares n s) :
    s.served.Nodup ∧ ∀ i ∈ s.served, 0 ≤ i ∧ i < n := by
  have hle : (s.served : Multiset ℤ) ≤ upTo s.front := h.taken ▸ Multiset.le_add_right _ _
  refine ⟨Multiset.coe_nodup.1 (Multiset.nodup_of_le hle (nodup_upTo _)), fun i hi => ?_⟩
  exact ⟨(mem_upTo.1 (Multiset.mem_of_le hle (Multiset.mem_coe.2 hi))).1, h.served i hi⟩

/-- When no worker is left, what they hold are indices from `num_of_reqs` on, so all others
up to `front` were passed to `Recommend`. -/
theorem Shares.all_served (h : Shares n s) (hw : 0 < w)
    (hall : ∀ t, ∃ cur, s.worker t = .exited cur) :
    (s.served : Multiset ℤ) = upTo (n - 1) := by
  obtain ⟨hnodup, hrange⟩ := h.served_once
  refine (Multiset.Nodup.ext (Multiset.coe_nodup.2 hnodup) (nodup_upTo _)).2 fun i => ?_
  rw [Multiset.mem_coe, mem_upTo]
  refine ⟨fun hi => ⟨(hrange i hi).1, by have := (hrange i hi).2; omega⟩, fun hi => ?_⟩
  obtain ⟨last, hlast⟩ := hall ⟨0, hw⟩
  have hmem : ∀ t cur, s.worker t = .exited cur → cur ∈ upTo s.front := by
    intro t cur ht
    rw [← h.taken, Multiset.mem_add]
    refine Or.inr (Multiset.mem_sum.2 ⟨t, Finset.mem_univ t, ?_⟩)
    rw [ht, holds_exited, Multiset.mem_singleton]
  have hfront : (n : ℤ) ≤ s.front :=
    (h.exited _ last hlast).trans (mem_upTo.1 (hmem _ last hlast)).2
  have hup : i ∈ upTo s.front := mem_upTo.2 ⟨hi.1, by omega⟩
  rw [← h.taken, Multiset.mem_add] at hup
  refine hup.resolve_right fun hheld => ?_
  obtain ⟨t, -, ht⟩ := Multiset.mem_sum.1 hheld
  obtain ⟨cur, hcur⟩ := hall t
  rw [hcur, holds_exited, Multiset.mem_singleton] at ht
  have := h.exited t cur hcur
  omega

/-- Every request is served once. No index is passed to `Recommend` twice, only indices of
requests are, and when all workers have finished each of them was passed once and `front`
is `n + w - 1`. -/
theorem requests_served_once (hw : 0 < w) (h : (workers n w).Reachable s) :
    s.served.Nodup ∧ (∀ i ∈ s.served, 0 ≤ i ∧ i < n) ∧
      ((∀ t, ∃ cur, s.worker t = .exited cur) →
        (∀ i : ℤ, 0 ≤ i → i < n → s.served.count i = 1) ∧ s.front = n + w - 1) := by
  have hs := shares_of_reachable h
  obtain ⟨hnodup, hrange⟩ := hs.served_once
  refine ⟨hnodup, hrange, fun hall => ?_⟩
  have hserved := hs.all_served hw hall
  refine ⟨fun i h0 hi => List.count_eq_one_of_mem hnodup ?_, ?_⟩
  · rw [← Multiset.mem_coe, hserved, mem_upTo]
    exact ⟨h0, by omega⟩
  · have hheld : ∀ t, ((s.worker t).holds).card = 1 := fun t => by
      obtain ⟨cur, hcur⟩ := hall t
      rw [hcur, holds_exited, Multiset.card_singleton]
    have hcard := congrArg Multiset.card hs.taken
    rw [hserved, Multiset.card_add, Multiset.card_sum, Finset.sum_congr rfl fun t _ => hheld t,
      Finset.sum_const, Finset.card_univ, Fintype.card_fin, smul_eq_mul, mul_one,
      card_upTo, card_upTo] at hcard
    have hfront := hs.front
    omega

end Group

/-- Two workers share three requests. -/
def threeRequests : List (Fin 2) :=
  [0, 1, 1, 0, 0, 1, 0, 1, 0, 0, 0, 0, 1]

/-- The second worker has the request `1`, the first one the others. -/
theorem requests_served_once_three : ∃ s,
    (workers 3 2).run threeRequests ⟨-1, fun _ => .locking, []⟩ = some s ∧
      s.calls = [(1, 1), (0, 0), (0, 2)] ∧ s.served.count 2 = 1 ∧ s.front = 4 := by
  have hserved := @requests_served_once 2 3 _ (by decide)
    ⟨_, threeRequests, rfl, (Option.some_get (by decide +kernel)).symm⟩
  have hdone := hserved.2.2
    (Fin.forall_fin_two.2 ⟨⟨4, by decide +kernel⟩, ⟨3, by decide +kernel⟩⟩)
  exact ⟨_, (Option.some_get (by decide +kernel)).symm, by decide +kernel,
    hdone.1 2 (by decide) (by decide), hdone.2⟩

end SP2022.Recommendation
