import Mathlib.Data.Nat.Fib.Basic
import SP2022.ThreadCounts

/-!
# The numbers that `fibonacci` and `collatz` print

Both compute in `int` fields without a guard. A thread is `Exact` if no result of its arithmetic
leaves the range and its lines are those of the exact sequence. `fibonacci` is up to the 46th
number (`fibonacci_exact_iff`). For `collatz` the odd numbers of the trajectory decide, since
only they are multiplied by 3 (`OddsFit`, `collatz_exact_iff`).
-/

namespace SP2022.ThreadLib

/-! ## What is computed exactly -/

/-- The results of the additions in a turn of `fibonacci`, before they are stored. -/
def fibonacciResults (v : Vars) : List ℤ :=
  let i := match v.environment.point with
    | .setup => 1
    | _ => v.i + 1
  if i ≤ 2 then [i] else [i, v.x + v.y]

/-- The results of the arithmetic in a turn of `collatz`, before they are stored. -/
def collatzResults (v : Vars) : List ℤ :=
  let i := match v.environment.point with
    | .setup => v.arg
    | _ => v.i
  if i.tmod 2 = 0 then [i.tdiv 2] else [i * 3, i * 3 + 1]

/-- The thread `t` computes without overflow in every turn, and the lines it prints are the
first ones of a sequence of positive numbers. -/
structure Exact (S : System Machine Event) (t : Ptr) (id : ℤ) (results : Vars → List ℤ)
    (line : ℕ → ℤ) : Prop where
  results : ∀ M, S.Reachable M → M.sched.freed t = false →
    ∀ x ∈ results (M.sched.tcb t).toVars, IsInt x
  lines : ∀ M, S.Reachable M → ∀ (j : ℕ) (hj : j < (M.lines id).length),
    (M.lines id)[j] = line (j + 1) ∧ 0 < (M.lines id)[j]

section Program

variable {mem : Ptr → Tcb} {ps : List Spec} {R : Ptr → ℕ → Record} {k : ℕ} {p : Spec}
  {results : Vars → List ℤ} {line : ℕ → ℤ}

/-- In the program a thread computes exactly if it does on its own. -/
theorem Exact.of_solo (hid : (ps.map Spec.id).Nodup) (hk : ps[k]? = some p)
    (hresults : ∀ m, (∀ j ≤ m, (solo int32 (R (k + 1)) p j).exited = false) →
      ∀ x ∈ results (solo int32 (R (k + 1)) p m).vars, IsInt x)
    (hlines : ∀ m, (∀ j < m, (solo int32 (R (k + 1)) p j).exited = false) →
      ∃ l, (solo int32 (R (k + 1)) p m).lines = (List.range l).map fun j => line (j + 1))
    (hpos : ∀ j, 0 < line (j + 1)) :
    Exact (program int32 mem ps R) (k + 1) p.id results line := by
  refine ⟨fun M hM hfreed => ?_, fun M hM j hj => ?_⟩
  · have ht := tracked_of_resumptions hid hk hM rfl
    rw [ht.core.vars]
    refine hresults _ fun j hj => ?_
    rcases lt_or_eq_of_le hj with hlt | rfl
    · exact (ht.feasible j hlt).1
    · exact ht.status.freed.symm.trans hfreed
  · have ht := tracked_of_resumptions hid hk hM rfl
    obtain ⟨l, hl⟩ := hlines _ fun j hj => (ht.feasible j hj).1
    have heq : (M.lines p.id)[j] = line (j + 1) := by
      simp only [ht.core.lines, hl, List.getElem_map, List.getElem_range]
    exact ⟨heq, heq ▸ hpos j⟩

/-- If it does not after some number of turns, which need no record, neither does it in the
program. -/
theorem not_exact_of_solo (hid : (ps.map Spec.id).Nodup) (hk : ps[k]? = some p) {m : ℕ}
    (hturns : ∀ j ≤ m, (solo int32 (R (k + 1)) p j).exited = false ∧
      (solo int32 (R (k + 1)) p j).vars.environment.point ≠ .read) {x : ℤ}
    (hx : x ∈ results (solo int32 (R (k + 1)) p m).vars) (hlarge : ¬IsInt x) :
    ¬Exact (program int32 mem ps R) (k + 1) p.id results line := by
  intro h
  have hstart : (program int32 mem ps R).Reachable (Machine.start mem ps) := .of_init rfl
  obtain ⟨es, M, hrun, ht, -⟩ := exists_turns hid hk hstart
    (tracked_of_resumptions hid hk hstart rfl) (le_refl _) m (Nat.zero_le m)
    fun j hj => ⟨(hturns j hj.le).1, fun hpoint => absurd hpoint (hturns j hj.le).2⟩
  have hresults := h.results M (hstart.run hrun) (ht.status.freed.trans (hturns m le_rfl).1)
  rw [ht.core.vars] at hresults
  exact hlarge (hresults x hx)

end Program

/-! ## `fibonacci` -/

section Fibonacci

variable {R : ℕ → Record} {p : Spec}

theorem fib_isInt {k : ℕ} (hk : k ≤ 46) : IsInt (Nat.fib k : ℤ) := by
  have hle : Nat.fib k ≤ Nat.fib 46 := Nat.fib_mono hk
  have h46 : Nat.fib 46 = 1836311903 := by rfl
  unfold IsInt
  omega

/-- The variables and the lines of `fibonacci` after `k + 1` turns. -/
theorem solo_fibonacci_values (hint : ∀ x, 0 ≤ x → x ≤ p.arg → int32 x = x)
    (hfunc : p.func = .fibonacci) :
    ∀ k : ℕ, k + 1 ≤ 46 → (k + 1 : ℤ) ≤ p.arg →
      (solo int32 R p (k + 1)).vars.y = Nat.fib (k + 1) ∧
      (1 ≤ k → (solo int32 R p (k + 1)).vars.x = Nat.fib k) ∧
      (solo int32 R p (k + 1)).lines = (List.range (k + 1)).map fun j => (Nat.fib (j + 1) : ℤ)
  | 0, _, hn => by
    obtain ⟨-, hlines, hsmall, -⟩ :=
      (solo_fibonacci hint hfunc 0 (by push_cast; omega)).fibonacci_turn hfunc (R := R)
    obtain ⟨hx, hy⟩ := hsmall (by decide)
    refine ⟨hy, fun h => absurd h (by decide), ?_⟩
    refine hlines.trans ?_
    rw [hy]
    rfl
  | k + 1, hk, hn => by
    obtain ⟨hy, hx, hlines⟩ := solo_fibonacci_values hint hfunc k (by omega)
      (by push_cast at hn; omega)
    obtain ⟨-, hlines', hsmall, hlarge⟩ :=
      (solo_fibonacci (R := R) hint hfunc (k + 1) (by push_cast at hn ⊢; omega)).fibonacci_turn
        hfunc (R := R)
    have hvalues : (solo int32 R p (k + 2)).vars.y = Nat.fib (k + 2) ∧
        (solo int32 R p (k + 2)).vars.x = Nat.fib (k + 1) := by
      rcases Nat.eq_zero_or_pos k with rfl | hpos
      · exact (hsmall le_rfl).symm
      · obtain ⟨hx', hy'⟩ := hlarge (by omega)
        refine ⟨hy'.trans ?_, hx'.trans hy⟩
        rw [hx hpos, hy, ← Nat.cast_add, ← Nat.fib_add_two]
        exact int32_eq (fib_isInt hk)
    refine ⟨hvalues.1, fun _ => hvalues.2, hlines'.trans ?_⟩
    rw [hlines, List.range_succ (n := k + 1), List.map_append]
    exact congrArg (_ ++ [·]) hvalues.1

/-- The additions of the turn after `k` lines. -/
theorem fibonacciResults_eq (hint : ∀ x, 0 ≤ x → x ≤ p.arg → int32 x = x)
    (hfunc : p.func = .fibonacci) {k : ℕ} (hk : k ≤ 46) (hn : (k : ℤ) < p.arg) :
    fibonacciResults (solo int32 R p k).vars =
      if k + 1 ≤ 2 then [(k + 1 : ℤ)] else [(k + 1 : ℤ), Nat.fib (k + 1)] := by
  cases k with
  | zero => rfl
  | succ k =>
    obtain ⟨hy, hx, -⟩ := solo_fibonacci_values (R := R) hint hfunc k (by omega)
      (by push_cast at hn; omega)
    have hcounted := @solo_fibonacci_counted int32 R p k hint hfunc (by push_cast at hn; omega)
    unfold fibonacciResults
    rw [hcounted.point hn.ne]
    simp only [hcounted.i]
    by_cases hsmall : k + 1 + 1 ≤ 2
    · rw [if_pos (by omega), if_pos hsmall]
    · rw [if_neg (by omega), if_neg hsmall, hx (by omega), hy, ← Nat.cast_add, ← Nat.fib_add_two]

/-- `fibonacci` computes exactly up to its 46th line. -/
theorem fibonacci_exact_iff {mem : Ptr → Tcb} {ps : List Spec} {R : Ptr → ℕ → Record} {k : ℕ}
    (hid : (ps.map Spec.id).Nodup) (hk : ps[k]? = some p) (hfunc : p.func = .fibonacci)
    (hn : 1 ≤ p.arg) (harg : IsInt p.arg) :
    Exact (program int32 mem ps R) (k + 1) p.id fibonacciResults (fun j => Nat.fib j) ↔
      p.arg ≤ 46 := by
  have hint : ∀ x, 0 ≤ x → x ≤ p.arg → int32 x = x := fun x h0 hx =>
    int32_eq ⟨by unfold IsInt at harg; omega, hx.trans_lt harg.2⟩
  have hbefore := @solo_fibonacci int32 (R (k + 1)) p hint hfunc
  constructor
  · intro h
    by_contra hlarge
    refine not_exact_of_solo (R := R) (m := 46) (x := (Nat.fib 47 : ℤ)) hid hk (fun j hj => ?_)
      ?_ (by decide) h
    · have hb := hbefore j (by omega)
      exact ⟨hb.exited, hb.point⟩
    · rw [fibonacciResults_eq hint hfunc le_rfl (by omega)]
      simp
  · intro hsmall
    obtain ⟨n, hpn⟩ : ∃ n : ℕ, p.arg = (n + 1 : ℕ) := ⟨(p.arg - 1).toNat, by omega⟩
    -- it exits after as many lines as its argument says
    have hlast := (@solo_fibonacci_counted int32 (R (k + 1)) p n hint hfunc (by omega)).exits hpn
    have hle : ∀ {m}, (∀ j < m, (solo int32 (R (k + 1)) p j).exited = false) → m ≤ n + 1 := by
      intro m hm
      by_contra hlt
      exact absurd (hlast.symm.trans (hm (n + 1) (by omega))) (by decide)
    refine Exact.of_solo hid hk (fun m hm x hx => ?_) (fun m hm => ⟨m, ?_⟩) fun j => ?_
    · have hmn : m ≤ n + 1 := hle fun j hj => hm j hj.le
      have hne : m ≠ n + 1 := by
        rintro rfl
        exact absurd (hlast.symm.trans (hm (n + 1) le_rfl)) (by decide)
      rw [fibonacciResults_eq hint hfunc (by omega) (by omega)] at hx
      have hsmall' : IsInt (m + 1 : ℤ) := ⟨by omega, by omega⟩
      have hfib : IsInt (Nat.fib (m + 1) : ℤ) := fib_isInt (by omega)
      split_ifs at hx
      · rwa [List.mem_singleton.1 hx]
      · simp only [List.mem_cons, List.not_mem_nil, or_false] at hx
        rcases hx with rfl | rfl
        · exact hsmall'
        · exact hfib
    · have hmn := hle hm
      cases m with
      | zero => rfl
      | succ m => exact (solo_fibonacci_values hint hfunc m (by omega) (by omega)).2.2
    · exact Int.natCast_pos.2 (Nat.fib_pos.2 (Nat.succ_pos j))

end Fibonacci

/-! ## `collatz` -/

/-- The Collatz map. -/
def collatzMap (n : ℕ) : ℕ :=
  if n % 2 = 0 then n / 2 else 3 * n + 1

/-- The trajectory of `n` from its `l`-th to its `j`-th number does not come to 1. -/
def Unfinished (n j : ℕ) : Prop :=
  ∀ l, 1 ≤ l → l ≤ j → collatzMap^[l] n ≠ 1

/-- Up to its first 1, the trajectory of `n` has no odd number above `(2 ^ 31 - 2) / 3`. -/
def OddsFit (n : ℕ) : Prop :=
  ∀ j, Unfinished n j → collatzMap^[j] n % 2 = 1 → collatzMap^[j] n ≤ 715827882

section Collatz

variable {R : ℕ → Record} {p : Spec} {v : View} {n k : ℕ}

theorem collatzMap_pos {c : ℕ} (hc : 0 < c) : 0 < collatzMap c := by
  unfold collatzMap
  split_ifs <;> omega

theorem iterate_pos (hn : 0 < n) (k : ℕ) : 0 < collatzMap^[k] n := by
  induction k with
  | zero => exact hn
  | succ k ih =>
    rw [Function.iterate_succ_apply']
    exact collatzMap_pos ih

theorem Unfinished.mono {j j' : ℕ} (h : Unfinished n j) (hle : j' ≤ j) : Unfinished n j' :=
  fun l hl hl' => h l hl (hl'.trans hle)

theorem unfinished_succ {j : ℕ} :
    Unfinished n (j + 1) ↔ Unfinished n j ∧ collatzMap^[j + 1] n ≠ 1 := by
  constructor
  · exact fun h => ⟨h.mono (Nat.le_succ j), h (j + 1) (by omega) le_rfl⟩
  · rintro ⟨h, hne⟩ l hl hle
    rcases Nat.lt_or_ge j l with hlt | hge
    · obtain rfl : l = j + 1 := by omega
      exact hne
    · exact h l hl hge

/-- What the loop body of `collatz` does before its end. -/
theorem collatz_finish (int : ℤ → ℤ) (v : Vars) : ∃ w : Vars,
    collatz int v = .finish w w.i (w.i = 1) ∧ w.environment = v.environment ∧ w.arg = v.arg ∧
      ∀ i, i = (if v.environment.point = .setup then v.arg else v.i) →
        w.i = if i.tmod 2 = 0 then i.tdiv 2 else int (int (i * 3) + 1) := by
  refine ⟨_, rfl, ?_⟩
  cases hpoint : v.environment.point with
  | setup | yield | read =>
    simp only [reduceCtorEq, if_true, if_false]
    split_ifs with hi
    · refine ⟨rfl, rfl, ?_⟩
      rintro i rfl
      rw [if_pos hi]
    · refine ⟨rfl, rfl, ?_⟩
      rintro i rfl
      rw [if_neg hi]

/-- `collatz` has printed the trajectory of its argument up to its `k`-th number and goes on
from there. -/
structure CollatzAt (p : Spec) (n k : ℕ) (v : View) : Prop where
  func : v.vars.environment.func = .collatz
  arg : v.vars.arg = p.arg
  i : (if v.vars.environment.point = .setup then v.vars.arg else v.vars.i) = (collatzMap^[k] n : ℕ)
  small : IsInt (collatzMap^[k] n : ℕ)
  lines : v.lines = (List.range k).map fun j => ((collatzMap^[j + 1] n : ℕ) : ℤ)
  exited : v.exited = false
  point : v.vars.environment.point ≠ .read

theorem natCast_tmod_two (c : ℕ) : (c : ℤ).tmod 2 = (c % 2 : ℕ) := rfl

theorem natCast_tdiv_two (c : ℕ) : (c : ℤ).tdiv 2 = (c / 2 : ℕ) := rfl

theorem CollatzAt.results (h : CollatzAt p n k v) : collatzResults v.vars =
    if collatzMap^[k] n % 2 = 0 then [((collatzMap^[k] n / 2 : ℕ) : ℤ)]
    else [(collatzMap^[k] n : ℤ) * 3, (collatzMap^[k] n : ℤ) * 3 + 1] := by
  have hi : (match v.vars.environment.point with
      | .setup => v.vars.arg
      | _ => v.vars.i : ℤ) = (collatzMap^[k] n : ℕ) := by
    rw [← h.i]
    cases v.vars.environment.point <;> rfl
  simp only [collatzResults, hi, natCast_tmod_two, natCast_tdiv_two, Nat.cast_eq_zero]

/-- A turn without overflow. -/
theorem CollatzAt.turn (h : CollatzAt p n k v)
    (hfit : collatzMap^[k] n % 2 = 1 → collatzMap^[k] n ≤ 715827882) :
    (v.turn int32 R).lines = (List.range (k + 1)).map
        (fun j => ((collatzMap^[j + 1] n : ℕ) : ℤ)) ∧
      (collatzMap^[k + 1] n = 1 → (v.turn int32 R).exited = true) ∧
      (collatzMap^[k + 1] n ≠ 1 → CollatzAt p n (k + 1) (v.turn int32 R)) := by
  obtain ⟨w, hw, henv, hwarg, hi⟩ := collatz_finish int32 v.vars
  have hsmall := h.small
  have hnext : w.i = (collatzMap^[k + 1] n : ℕ) ∧ IsInt (collatzMap^[k + 1] n : ℕ) := by
    rw [hi _ h.i.symm, Function.iterate_succ_apply']
    generalize collatzMap^[k] n = c at hfit hsmall
    simp only [natCast_tmod_two, natCast_tdiv_two, Nat.cast_eq_zero]
    unfold collatzMap IsInt at *
    by_cases heven : c % 2 = 0
    · rw [if_pos heven, if_pos heven]
      omega
    · rw [if_neg heven, if_neg heven, @int32_eq ((c : ℤ) * 3) ⟨by omega, by omega⟩,
        int32_eq ⟨by omega, by omega⟩]
      omega
  obtain ⟨hi', hsmall'⟩ := hnext
  have hturn : (resume int32 (R v.reads).toList v.vars).1 = .finish w w.i (w.i = 1) := by
    unfold resume
    rw [if_neg h.point]
    simp only [body, h.func]
    exact hw
  have hlines : (v.turn int32 R).lines = (List.range (k + 1)).map
      fun j => ((collatzMap^[j + 1] n : ℕ) : ℤ) := by
    simp [View.turn, hturn, h.lines, hi', List.range_succ]
  have hexited : (v.turn int32 R).exited = decide (w.i = 1) := by
    simp only [View.turn, hturn, Turn.finish_exit]
  refine ⟨hlines, fun hone => ?_, fun hne => ?_⟩
  · rw [hexited, hi', hone]
    rfl
  have hstop : decide (w.i = 1) = false := decide_eq_false (by rw [hi']; omega)
  have hyield : (v.turn int32 R).vars.environment.point = .yield := by
    simp only [View.turn, hturn]
    exact Turn.finish_yield _ _ _ hstop
  refine ⟨?_, ?_, ?_, hsmall', hlines, hexited.trans hstop, by rw [hyield]; decide⟩
  · simp only [View.turn, hturn, Turn.finish_func, henv, h.func]
  · simp only [View.turn, hturn, Turn.finish_arg, hwarg, h.arg]
  · rw [hyield, if_neg (by decide)]
    simp only [View.turn, hturn, Turn.finish_i, hi']

/-- `collatz` follows the trajectory of its argument as long as the arithmetic fits. -/
theorem solo_collatz (hfunc : p.func = .collatz) (hn : p.arg = n) (harg : IsInt p.arg) :
    ∀ k, Unfinished n k → (∀ j < k, collatzMap^[j] n % 2 = 1 → collatzMap^[j] n ≤ 715827882) →
      CollatzAt p n k (solo int32 R p k)
  | 0, _, _ => ⟨hfunc, rfl, hn, hn ▸ harg, rfl, rfl, by simp [solo, View.start]⟩
  | k + 1, hunfinished, hfit => by
    obtain ⟨hprev, hne⟩ := unfinished_succ.1 hunfinished
    have ih := solo_collatz hfunc hn harg k hprev fun j hj => hfit j (by omega)
    exact (ih.turn (hfit k (by omega))).2.2 hne

/-- The first odd number that is too large. -/
theorem exists_first_large (h : ¬OddsFit n) : ∃ m, Unfinished n m ∧ collatzMap^[m] n % 2 = 1 ∧
    715827882 < collatzMap^[m] n ∧
      ∀ j < m, collatzMap^[j] n % 2 = 1 → collatzMap^[j] n ≤ 715827882 := by
  have hex : ∃ j, Unfinished n j ∧ collatzMap^[j] n % 2 = 1 ∧ 715827882 < collatzMap^[j] n := by
    simpa only [OddsFit, not_forall, not_le, exists_prop] using h
  classical
  obtain ⟨hunfinished, hodd, hlarge⟩ := Nat.find_spec hex
  refine ⟨Nat.find hex, hunfinished, hodd, hlarge, fun j hj hodd' => ?_⟩
  by_contra hlarge'
  exact Nat.find_min hex hj ⟨hunfinished.mono hj.le, hodd', not_le.1 hlarge'⟩

theorem OddsFit.collatzAt (hfit : OddsFit n) (hfunc : p.func = .collatz) (hn : p.arg = n)
    (harg : IsInt p.arg) (hk : Unfinished n k) : CollatzAt p n k (solo int32 R p k) :=
  solo_collatz hfunc hn harg k hk fun j hj => hfit j (hk.mono hj.le)

/-- A thread that has not exited has not come to 1. -/
theorem OddsFit.unfinished (hfit : OddsFit n) (hfunc : p.func = .collatz) (hn : p.arg = n)
    (harg : IsInt p.arg) {m : ℕ} (hm : ∀ j ≤ m, (solo int32 R p j).exited = false) :
    Unfinished n m := by
  induction m with
  | zero => exact fun l hl hl' => by omega
  | succ m ih =>
    have hprev := ih fun j hj => hm j (by omega)
    refine unfinished_succ.2 ⟨hprev, fun hone => ?_⟩
    have hat := hfit.collatzAt (R := R) hfunc hn harg hprev
    have hexit := (hat.turn (R := R) (hfit m hprev)).2.1 hone
    exact absurd (hexit.symm.trans (hm (m + 1) le_rfl)) (by decide)

/-- In a trajectory whose odd numbers are small nothing overflows. -/
theorem OddsFit.results (hfit : OddsFit n) (hfunc : p.func = .collatz) (hn : p.arg = n)
    (harg : IsInt p.arg) (hk : Unfinished n k) :
    ∀ x ∈ collatzResults (solo int32 R p k).vars, IsInt x := by
  have hat := hfit.collatzAt (R := R) hfunc hn harg hk
  have hsmall := hat.small
  have hodd := hfit k hk
  rw [hat.results]
  unfold IsInt at *
  intro x hx
  split_ifs at hx
  · rw [List.mem_singleton.1 hx]
    omega
  · simp only [List.mem_cons, List.not_mem_nil, or_false] at hx
    rcases hx with rfl | rfl <;> omega

/-- `collatz` computes exactly if and only if the odd numbers on the way to 1 are small. -/
theorem collatz_exact_iff {mem : Ptr → Tcb} {ps : List Spec} {R : Ptr → ℕ → Record}
    (hid : (ps.map Spec.id).Nodup) (hk : ps[k]? = some p) (hfunc : p.func = .collatz)
    (hpos : 1 ≤ n) (hn : p.arg = n) (harg : IsInt p.arg) :
    Exact (program int32 mem ps R) (k + 1) p.id collatzResults
      (fun j => (collatzMap^[j] n : ℕ)) ↔ OddsFit n := by
  constructor
  · intro h
    by_contra hlarge
    obtain ⟨m, hunfinished, hodd, hbig, hbefore⟩ := exists_first_large hlarge
    have hat : ∀ j ≤ m, CollatzAt p n j (solo int32 (R (k + 1)) p j) := fun j hj =>
      solo_collatz hfunc hn harg j (hunfinished.mono hj) fun l hl => hbefore l (hl.trans_le hj)
    refine not_exact_of_solo (R := R) (m := m) (x := (collatzMap^[m] n : ℤ) * 3 + 1) hid hk
      (fun j hj => ⟨(hat j hj).exited, (hat j hj).point⟩) ?_ ?_ h
    · rw [(hat m le_rfl).results, if_neg (by omega)]
      simp
    · unfold IsInt
      omega
  · intro hfit
    refine Exact.of_solo hid hk (fun m hm => ?_) (fun m hm => ⟨m, ?_⟩) fun j => ?_
    · exact hfit.results hfunc hn harg (hfit.unfinished hfunc hn harg hm)
    · cases m with
      | zero => rfl
      | succ m =>
        have hfin : Unfinished n m :=
          hfit.unfinished (R := R (k + 1)) hfunc hn harg fun j hj => hm j (by omega)
        have hat := hfit.collatzAt (R := R (k + 1)) hfunc hn harg hfin
        exact (hat.turn (R := R (k + 1)) (hfit m hfin)).1
    · exact Int.natCast_pos.2 (iterate_pos hpos (j + 1))

end Collatz

/-! ## The program -/

/-- When the printed sequences are exact. `fibonacci` computes without overflow and prints the
Fibonacci numbers if and only if its argument is at most 46, and `collatz` does so with the
trajectory of its argument if and only if the odd numbers there, up to the first 1, are at most
`(2 ^ 31 - 2) / 3`. -/
theorem printed_exact_iff {mem : Ptr → Tcb} {tcbs : Func → Tcb} {fd : Func → ℤ}
    {fib_arg col_arg sub_arg : ℤ} {R : Ptr → ℕ → Record} {k : ℕ} {p : Spec}
    (hk : (init_threads tcbs fd fib_arg col_arg sub_arg)[k]? = some p) (hn : 1 ≤ p.arg)
    (harg : IsInt p.arg) :
    (p.func = .fibonacci →
      (Exact (program int32 mem (init_threads tcbs fd fib_arg col_arg sub_arg) R) (k + 1) p.id
        fibonacciResults (fun j => Nat.fib j) ↔ p.arg ≤ 46)) ∧
    (p.func = .collatz →
      (Exact (program int32 mem (init_threads tcbs fd fib_arg col_arg sub_arg) R) (k + 1) p.id
        collatzResults (fun j => (collatzMap^[j] p.arg.toNat : ℕ)) ↔ OddsFit p.arg.toNat)) := by
  have hid := init_threads_nodup tcbs fd fib_arg col_arg sub_arg
  exact ⟨fun hfunc => fibonacci_exact_iff hid hk hfunc hn harg,
    fun hfunc => collatz_exact_iff hid hk hfunc (by omega) (by omega) harg⟩

/-- `./main 3 6 -1 -1`. -/
theorem printed_exact_six :
    Exact (program int32 (fun _ => blank) (init_threads (fun _ => blank) (fun _ => 5) 6 (-1) (-1))
      fun _ _ => #v[32, 32, 45, 49, 10]) 1 0 fibonacciResults (fun j => Nat.fib j) :=
  ((@printed_exact_iff _ _ _ _ _ _ _ 0 ⟨.fibonacci, 0, 6, blank, 5⟩ rfl (by decide)
    (by decide)).1 rfl).2 (by decide)

/-- The sum for the 47th line of `./main 3 47 -1 -1` is 2971215073. -/
theorem fibonacci_overflows :
    ¬Exact (program int32 (fun _ => blank) (init_threads (fun _ => blank) (fun _ => 5) 47 (-1) (-1))
      fun _ _ => #v[32, 32, 45, 49, 10]) 1 0 fibonacciResults (fun j => Nat.fib j) := by
  intro h
  have hle := (@fibonacci_exact_iff ⟨.fibonacci, 0, 47, blank, 5⟩ _ _ _ 0 (by decide) rfl rfl
    (by decide) (by decide)).1 h
  exact absurd hle (by decide)

end SP2022.ThreadLib
