import SP2022.ThreadProgress

/-!
# Threads that count their lines

`fibonacci` and `max_subarray` count in `i` from 1 on and exit if `i == arg` at the end of the
loop body. `Before` is a thread at the start of that body and `Counted` one at its end; each
function has one lemma for the way from the first to the second (`Before.fibonacci_turn`,
`Before.max_subarray_turns`). For an argument from 1 on the thread exits after as many lines
as it says (`Stops`). `init_threads` accepts 0 too, which the counter has passed before it is
first tested (`counted_stop_iff`).
-/

namespace SP2022.ThreadLib

/-- The thread `t` gets a bounded number of turns, exits in the last one with `n` lines
printed, and can always go on to it with at most `n` records sent. -/
structure Stops (S : System Machine Event) (t : Ptr) (id : ℤ) (n : ℕ) : Prop where
  bounded : ∃ T, ∀ M, S.Reachable M → (M.resumptions t).length ≤ T ∧
    (M.sched.freed t = true ↔ (M.resumptions t).length = T)
  lines : ∀ M, S.Reachable M → M.sched.freed t = true → (M.lines id).length = n
  reaches : ∀ M, S.Reachable M → ∃ es M', S.run es M = some M' ∧ M'.sched.freed t = true ∧
    M'.delivered t ≤ max (M.delivered t) n

section Program

variable {int : ℤ → ℤ} {mem : Ptr → Tcb} {ps : List Spec} {R : Ptr → ℕ → Record}

theorem Feasible.mono {R : ℕ → Record} {p : Spec} {D D' m : ℕ} (h : Feasible int R p D m)
    (hD : D ≤ D') : Feasible int R p D' m := fun j hj => by
  obtain ⟨hexit, hread⟩ := h j hj
  refine ⟨hexit, fun hpoint => ?_⟩
  obtain ⟨hlt, hfd⟩ := hread hpoint
  exact ⟨hlt.trans_le hD, hfd⟩

/-- A thread gets no turn after it has exited. -/
theorem Tracked.le_of_exited {R : ℕ → Record} {p : Spec} {t : Ptr} {m T : ℕ} {M : Machine}
    (h : Tracked int R p t m M) (hexit : (solo int R p T).exited = true) : m ≤ T := by
  by_contra hlt
  rw [(h.feasible T (by omega)).1] at hexit
  exact Bool.false_ne_true hexit

/-- In the program a thread stops where it stops on its own. -/
theorem Stops.of_solo (hid : (ps.map Spec.id).Nodup) {k : ℕ} {p : Spec} (hk : ps[k]? = some p)
    {T n : ℕ} (hfeasible : Feasible int (R (k + 1)) p n T)
    (hexit : (solo int (R (k + 1)) p T).exited = true)
    (hlines : (solo int (R (k + 1)) p T).lines.length = n) :
    Stops (program int mem ps R) (k + 1) p.id n := by
  have hturns : ∀ {M}, (program int mem ps R).Reachable M → ∀ {m},
      Tracked int (R (k + 1)) p (k + 1) m M →
      m ≤ T ∧ (M.sched.freed (k + 1) = true ↔ m = T) := by
    intro M _ m ht
    have hle := ht.le_of_exited hexit
    refine ⟨hle, ?_⟩
    rw [ht.status.freed]
    constructor
    · intro hm
      by_contra hne
      rw [(hfeasible m (by omega)).1] at hm
      exact Bool.false_ne_true hm
    · rintro rfl
      exact hexit
  refine ⟨⟨T, fun M hM => hturns hM (tracked_of_resumptions hid hk hM rfl)⟩, fun M hM hfreed => ?_,
    fun M hM => ?_⟩
  · have ht := tracked_of_resumptions hid hk hM rfl
    rw [((hturns hM ht).2.1 hfreed)] at ht
    rw [ht.core.lines, hlines]
  · have ht := tracked_of_resumptions hid hk hM rfl
    obtain ⟨es, M', hrun, ht', hdel⟩ := exists_turns hid hk hM ht (le_max_left _ n) T
      (hturns hM ht).1 (hfeasible.mono (le_max_right _ n))
    exact ⟨es, M', hrun, (hturns (hM.run hrun) ht').2.2 rfl, hdel⟩

end Program

/-! ## The end of the loop body -/

section Finish

variable (w : Vars) (x : ℤ) (stop : Bool)

@[simp] theorem Turn.finish_i : (Turn.finish w x stop).vars.i = w.i := by cases stop <;> rfl

@[simp] theorem Turn.finish_x : (Turn.finish w x stop).vars.x = w.x := by cases stop <;> rfl

@[simp] theorem Turn.finish_y : (Turn.finish w x stop).vars.y = w.y := by cases stop <;> rfl

@[simp] theorem Turn.finish_arg : (Turn.finish w x stop).vars.arg = w.arg := by cases stop <;> rfl

@[simp] theorem Turn.finish_func :
    (Turn.finish w x stop).vars.environment.func = w.environment.func := by cases stop <;> rfl

@[simp] theorem Turn.finish_printed : (Turn.finish w x stop).printed = some x := by
  cases stop <;> rfl

theorem Turn.finish_exit : decide ((Turn.finish w x stop).jump = .exit) = stop := by
  cases stop <;> rfl

theorem Turn.finish_yield (h : stop = false) :
    (Turn.finish w x stop).vars.environment.point = .yield := by rw [h]; rfl

end Finish

section Solo

variable {int : ℤ → ℤ} {R : ℕ → Record} {p : Spec} {v : View} {k : ℕ}

/-- A thread that counts in `i` is at the end of its loop body for the `k`-th time. -/
structure Counted (p : Spec) (k : ℕ) (v : View) : Prop where
  func : v.vars.environment.func = p.func
  arg : v.vars.arg = p.arg
  i : v.vars.i = k
  lines : v.lines.length = k
  exited : v.exited = decide ((k : ℤ) = p.arg)
  point : (k : ℤ) ≠ p.arg → v.vars.environment.point = .yield

theorem Counted.exits (h : Counted p k v) (harg : p.arg = k) : v.exited = true :=
  h.exited.trans (decide_eq_true harg.symm)

theorem Counted.of_finish {w : Vars} {x : ℤ}
    (hturn : (resume int (R v.reads).toList v.vars).1 = .finish w x (w.i = w.arg))
    (hfunc : w.environment.func = p.func) (harg : w.arg = p.arg) (hi : w.i = (k + 1 : ℕ))
    (hlines : v.lines.length = k) : Counted p (k + 1) (v.turn int R) := by
  refine ⟨?_, ?_, ?_, ?_, ?_, fun hne => ?_⟩
  · simp only [View.turn, hturn, Turn.finish_func, hfunc]
  · simp only [View.turn, hturn, Turn.finish_arg, harg]
  · simp only [View.turn, hturn, Turn.finish_i, hi]
  · simp [View.turn, hturn, hlines]
  · simp only [View.turn, hturn, Turn.finish_exit, hi, harg]
  · simp only [View.turn, hturn]
    refine Turn.finish_yield _ _ _ (decide_eq_false ?_)
    rwa [hi, harg]

/-- A thread that counts in `i` comes to the start of its loop body after `k` lines. -/
structure Before (int : ℤ → ℤ) (p : Spec) (k : ℕ) (v : View) : Prop where
  func : v.vars.environment.func = p.func
  arg : v.vars.arg = p.arg
  i : (if v.vars.environment.point = .setup then 1 else int (v.vars.i + 1)) = (k + 1 : ℕ)
  lines : v.lines.length = k
  exited : v.exited = false
  point : v.vars.environment.point ≠ .read

theorem before_start (int : ℤ → ℤ) (p : Spec) : Before int p 0 (View.start p) :=
  ⟨rfl, rfl, rfl, rfl, rfl, by simp [View.start]⟩

theorem Counted.before (hint : ∀ x, 0 ≤ x → x ≤ p.arg → int x = x) (h : Counted p k v)
    (hk : (k : ℤ) < p.arg) : Before int p k v := by
  have hpoint := h.point hk.ne
  refine ⟨h.func, h.arg, ?_, h.lines, ?_, by rw [hpoint]; decide⟩
  · rw [hpoint, if_neg (by decide), h.i, hint _ (by omega) (by omega)]
    rfl
  · rw [h.exited]
    exact decide_eq_false hk.ne

/-- Away from `async_read` a turn is one of the thread function on its variables. -/
theorem Before.resume_eq (h : Before int p k v) (fifo : List UInt8) :
    (resume int fifo v.vars).1 = body int v.vars := by
  unfold ThreadLib.resume
  rw [if_neg h.point]

/-! ## `fibonacci` -/

/-- What the loop body of `fibonacci` does before its end. -/
theorem fibonacci_finish (int : ℤ → ℤ) (v : Vars) : ∃ w : Vars,
    fibonacci int v = .finish w w.y (w.i = w.arg) ∧ w.environment = v.environment ∧
      w.arg = v.arg ∧ w.i = (if v.environment.point = .setup then 1 else int (v.i + 1)) ∧
      (w.i ≤ 2 → w.x = 1 ∧ w.y = 1) ∧ (2 < w.i → w.x = v.y ∧ w.y = int (v.x + v.y)) := by
  refine ⟨_, rfl, ?_⟩
  cases hpoint : v.environment.point with
  | setup =>
    refine ⟨rfl, rfl, rfl, fun _ => ⟨rfl, rfl⟩, fun h => ?_⟩
    exact absurd (show (2 : ℤ) < 1 from h) (by decide)
  | yield | read =>
    simp only [reduceCtorEq, if_false]
    split_ifs with hi
    · exact ⟨rfl, rfl, rfl, fun _ => ⟨rfl, rfl⟩, fun h => absurd hi (not_le.2 h)⟩
    · exact ⟨rfl, rfl, rfl, fun h => absurd h hi, fun _ => ⟨rfl, rfl⟩⟩

/-- A turn of `fibonacci`. -/
theorem Before.fibonacci_turn (h : Before int p k v) (hfunc : p.func = .fibonacci) :
    Counted p (k + 1) (v.turn int R) ∧
      (v.turn int R).lines = v.lines ++ [(v.turn int R).vars.y] ∧
      (k + 1 ≤ 2 → (v.turn int R).vars.x = 1 ∧ (v.turn int R).vars.y = 1) ∧
      (2 < k + 1 → (v.turn int R).vars.x = v.vars.y ∧
        (v.turn int R).vars.y = int (v.vars.x + v.vars.y)) := by
  obtain ⟨w, hw, henv, hwarg, hi, hsmall, hlarge⟩ := fibonacci_finish int v.vars
  have hturn : (resume int (R v.reads).toList v.vars).1 = .finish w w.y (w.i = w.arg) := by
    rw [h.resume_eq, body, h.func, hfunc]
    exact hw
  rw [h.i] at hi
  refine ⟨Counted.of_finish hturn ((congrArg Environment.func henv).trans h.func)
    (hwarg.trans h.arg) hi h.lines, ?_, fun hk => ?_, fun hk => ?_⟩
  · simp [View.turn, hturn]
  · simpa [View.turn, hturn] using hsmall (by omega)
  · simpa [View.turn, hturn] using hlarge (by omega)

/-- `fibonacci` prints a line in each turn. -/
theorem solo_fibonacci (hint : ∀ x, 0 ≤ x → x ≤ p.arg → int x = x)
    (hfunc : p.func = .fibonacci) :
    ∀ k : ℕ, (k : ℤ) < p.arg → Before int p k (solo int R p k)
  | 0, _ => before_start int p
  | k + 1, hk => by
    have ih := solo_fibonacci hint hfunc k (by push_cast at hk; omega)
    exact (ih.fibonacci_turn hfunc).1.before hint hk

theorem solo_fibonacci_counted (hint : ∀ x, 0 ≤ x → x ≤ p.arg → int x = x)
    (hfunc : p.func = .fibonacci) (hk : (k : ℤ) < p.arg) :
    Counted p (k + 1) (solo int R p (k + 1)) :=
  ((solo_fibonacci hint hfunc k hk).fibonacci_turn hfunc).1

/-! ## `max_subarray` -/

/-- The first turn of the loop body of `max_subarray` goes to `async_read`. -/
theorem Before.max_subarray_turn (h : Before int p k v) (hfunc : p.func = .max_subarray) :
    let u := v.turn int R
    u.vars = { v.vars with i := (k + 1 : ℕ), environment := ⟨.max_subarray, .read⟩ } ∧
      u.reads = v.reads ∧ u.lines = v.lines ∧ u.exited = false := by
  have hi := h.i
  have hturn : (resume int (R v.reads).toList v.vars).1 =
      ⟨{ v.vars with i := (k + 1 : ℕ), environment := ⟨.max_subarray, .read⟩ }, none,
        .asyncRead⟩ := by
    rw [h.resume_eq, body, h.func, hfunc]
    unfold ThreadLib.max_subarray
    cases hpoint : v.vars.environment.point with
    | setup =>
      rw [hpoint, if_pos rfl] at hi
      rw [← hi]
    | yield =>
      rw [hpoint, if_neg (by decide)] at hi
      rw [← hi]
    | read => exact absurd hpoint h.point
  simp [View.turn, hturn, h.point]

/-- What the loop body of `max_subarray` does with the bytes it has read, before its end. -/
theorem max_subarray_finish (int : ℤ → ℤ) {v : Vars} (hpoint : v.environment.point = .read) :
    ∃ w : Vars, max_subarray int v = .finish w w.x (w.i = w.arg) ∧
      w.environment = v.environment ∧ w.arg = v.arg ∧ w.i = v.i ∧
      w.y = (if int (v.y + int (atoi v.buf)) < int (atoi v.buf) then int (atoi v.buf)
        else int (v.y + int (atoi v.buf))) ∧
      w.x = if w.y < v.x then v.x else w.y := by
  unfold max_subarray
  rw [hpoint]
  exact ⟨_, rfl, rfl, rfl, rfl, rfl, rfl⟩

/-- The two turns of the loop body of `max_subarray`, with `num` the number read. -/
theorem Before.max_subarray_turns (h : Before int p k v) (hfunc : p.func = .max_subarray)
    {u : View} (hu : u = (v.turn int R).turn int R) {num : ℤ}
    (hnum : num = int (atoi ((R v.reads).toList ++ v.vars.buf.drop 5))) :
    Counted p (k + 1) u ∧ u.reads = v.reads + 1 ∧ u.lines = v.lines ++ [u.vars.x] ∧
      u.vars.y = (if int (v.vars.y + num) < num then num else int (v.vars.y + num)) ∧
      u.vars.x = if u.vars.y < v.vars.x then v.vars.x else u.vars.y := by
  obtain ⟨hvars, hreads, hlines, -⟩ := h.max_subarray_turn hfunc (R := R)
  set t := v.turn int R
  have hpoint : t.vars.environment.point = .read := by rw [hvars]
  have hbuf : (readFifo 5 (R t.reads).toList t.vars.buf).2 =
      (R v.reads).toList ++ v.vars.buf.drop 5 := by
    have hlen : (R v.reads).toList.length = 5 := (R v.reads).length_toList
    rw [hreads, hvars, readFifo, List.take_of_length_le hlen.le, hlen]
  obtain ⟨w, hw, henv, hwarg, hwi, hy, hx⟩ := @max_subarray_finish int
    { t.vars with buf := (R v.reads).toList ++ v.vars.buf.drop 5 } hpoint
  have hturn : (resume int (R t.reads).toList t.vars).1 = .finish w w.x (w.i = w.arg) := by
    have hfunc' : t.vars.environment.func = .max_subarray := by rw [hvars]
    unfold resume
    rw [if_pos hpoint]
    simp only [body, hbuf, hfunc']
    exact hw
  simp only [← hnum, hvars] at hy hx
  subst hu
  refine ⟨Counted.of_finish hturn ?_ ?_ ?_ (hlines ▸ h.lines), ?_, ?_, ?_, ?_⟩
  · rw [henv, hvars, hfunc]
  · rw [hwarg, hvars, h.arg]
  · rw [hwi, hvars]
  · simp [View.turn, hpoint, hreads]
  · simp [View.turn, hturn, hlines]
  · simpa [View.turn, hturn] using hy
  · simpa [View.turn, hturn] using hx

/-- `max_subarray` prints a line in every second turn. -/
theorem solo_max_subarray (hint : ∀ x, 0 ≤ x → x ≤ p.arg → int x = x)
    (hfunc : p.func = .max_subarray) :
    ∀ k : ℕ, (k : ℤ) < p.arg →
      Before int p k (solo int R p (2 * k)) ∧ (solo int R p (2 * k)).reads = k
  | 0, _ => ⟨before_start int p, rfl⟩
  | k + 1, hk => by
    obtain ⟨ih, hreads⟩ := solo_max_subarray hint hfunc k (by push_cast at hk; omega)
    obtain ⟨hcounted, hreads', -⟩ :=
      @Before.max_subarray_turns _ R _ _ _ ih hfunc (solo int R p (2 * (k + 1))) rfl _ rfl
    exact ⟨hcounted.before hint hk, by rw [hreads', hreads]⟩

theorem solo_max_subarray_counted (hint : ∀ x, 0 ≤ x → x ≤ p.arg → int x = x)
    (hfunc : p.func = .max_subarray) (hk : (k : ℤ) < p.arg) :
    Counted p (k + 1) (solo int R p (2 * (k + 1))) :=
  (@Before.max_subarray_turns _ R _ _ _ (solo_max_subarray hint hfunc k hk).1 hfunc
    (solo int R p (2 * (k + 1))) rfl _ rfl).1

/-! ## When they stop -/

/-- A thread prints a line in the turn it exits in. -/
theorem body_printed (int : ℤ → ℤ) {v : Vars} (h : (body int v).jump = .exit) :
    (body int v).printed ≠ none := by
  unfold body at *
  cases hfunc : v.environment.func with
  | fibonacci => simp [fibonacci]
  | collatz => simp [collatz]
  | max_subarray =>
    simp only [hfunc] at h
    cases hpoint : v.environment.point with
    | setup => simp [max_subarray, hpoint] at h
    | yield => simp [max_subarray, hpoint] at h
    | read =>
      obtain ⟨w, hw, -⟩ := max_subarray_finish int hpoint
      simp [hw]

theorem lines_ne_nil (int : ℤ → ℤ) (R : ℕ → Record) (p : Spec) {m : ℕ}
    (h : (solo int R p m).exited = true) : (solo int R p m).lines ≠ [] := by
  cases m with
  | zero => cases h
  | succ m =>
    have hjump : (resume int (R (solo int R p m).reads).toList (solo int R p m).vars).1.jump =
        .exit := of_decide_eq_true h
    obtain ⟨x, hx⟩ := Option.ne_none_iff_exists'.1 (body_printed int hjump)
    have hprinted : (resume int (R (solo int R p m).reads).toList
        (solo int R p m).vars).1.printed = some x := hx
    simp [solo, View.turn, hprinted]

theorem stops_of_counted (hint : ∀ x, 0 ≤ x → x ≤ p.arg → int x = x) {mem : Ptr → Tcb}
    {ps : List Spec} {R : Ptr → ℕ → Record} (hid : (ps.map Spec.id).Nodup) (hk : ps[k]? = some p)
    (hfunc : p.func ≠ .collatz) (hn : 1 ≤ p.arg) (hfd : p.func = .max_subarray → p.fd ≠ -1) :
    Stops (program int mem ps R) (k + 1) p.id p.arg.toNat := by
  obtain ⟨n, hpn⟩ : ∃ n : ℕ, p.arg = (n + 1 : ℕ) := ⟨(p.arg - 1).toNat, by omega⟩
  rw [hpn, Int.toNat_natCast]
  cases hcase : p.func with
  | collatz => exact absurd hcase hfunc
  | fibonacci =>
    have hbefore := @solo_fibonacci int (R (k + 1)) p hint hcase
    have hcounted := @solo_fibonacci_counted int (R (k + 1)) p n hint hcase (by omega)
    refine Stops.of_solo (T := n + 1) hid hk (fun j hj => ?_) (hcounted.exits hpn) hcounted.lines
    have hb := hbefore j (by omega)
    exact ⟨hb.exited, fun hpoint => absurd hpoint hb.point⟩
  | max_subarray =>
    have hbefore := @solo_max_subarray int (R (k + 1)) p hint hcase
    have hcounted := @solo_max_subarray_counted int (R (k + 1)) p n hint hcase (by omega)
    refine Stops.of_solo (T := 2 * (n + 1)) hid hk (fun j hj => ?_) (hcounted.exits hpn)
      hcounted.lines
    obtain ⟨l, rfl | rfl⟩ := Nat.even_or_odd' j
    · have hb := (hbefore l (by omega)).1
      exact ⟨hb.exited, fun hpoint => absurd hpoint hb.point⟩
    · obtain ⟨hb, hreads⟩ := hbefore l (by omega)
      obtain ⟨-, hreads', -, hexited⟩ := hb.max_subarray_turn hcase (R := R (k + 1))
      refine ⟨hexited, fun _ => ⟨?_, hfd hcase⟩⟩
      exact (hreads'.trans hreads).trans_lt (by omega)

theorem not_stops_zero {mem : Ptr → Tcb} {ps : List Spec} {R : Ptr → ℕ → Record}
    (hid : (ps.map Spec.id).Nodup) (hk : ps[k]? = some p) :
    ¬Stops (program int mem ps R) (k + 1) p.id 0 := by
  intro h
  obtain ⟨es, M, hrun, hfreed, -⟩ := h.reaches _ (.of_init rfl)
  have hM := System.Reachable.run (.of_init rfl) hrun
  have ht := tracked_of_resumptions hid hk hM rfl
  refine lines_ne_nil int (R (k + 1)) p (ht.status.freed.symm.trans hfreed) ?_
  rw [← ht.core.lines]
  exact List.length_eq_zero_iff.1 (h.lines M hM hfreed)

end Solo

section InitThreads

variable {mem : Ptr → Tcb} {tcbs : Func → Tcb} {fd : Func → ℤ} {fib_arg col_arg sub_arg : ℤ}
  {R : Ptr → ℕ → Record} {k : ℕ} {p : Spec}

/-- `init_threads` accepts an argument from 0 on. -/
theorem arg_nonneg (hk : (init_threads tcbs fd fib_arg col_arg sub_arg)[k]? = some p) :
    0 ≤ p.arg := by
  have hmem := List.mem_of_getElem? hk
  simp only [init_threads, List.mem_append, List.mem_ite_nil_right, List.mem_singleton] at hmem
  rcases hmem with (⟨h, rfl⟩ | ⟨h, rfl⟩) | ⟨h, rfl⟩ <;> exact h

/-- A thread that counts its lines stops after as many lines as its argument says if and only
if the argument is not 0, which `init_threads` accepts too. -/
theorem counted_stop_iff (hk : (init_threads tcbs fd fib_arg col_arg sub_arg)[k]? = some p)
    (hfunc : p.func ≠ .collatz) (harg : IsInt p.arg)
    (hfd : p.func = .max_subarray → p.fd ≠ -1) :
    Stops (program int32 mem (init_threads tcbs fd fib_arg col_arg sub_arg) R) (k + 1) p.id
      p.arg.toNat ↔ p.arg ≠ 0 := by
  have hid := init_threads_nodup tcbs fd fib_arg col_arg sub_arg
  have hnonneg := arg_nonneg hk
  constructor
  · intro h hzero
    rw [hzero] at h
    exact not_stops_zero hid hk h
  · intro hne
    refine stops_of_counted (fun x h0 hx => int32_eq ?_) hid hk hfunc (by omega) hfd
    unfold IsInt at *
    omega

/-- `./main 3 4 -1 2`. -/
theorem counted_stop_four :
    Stops (program int32 (fun _ => blank) (init_threads (fun _ => blank) (fun _ => 5) 4 (-1) 2)
      fun _ _ => #v[32, 32, 45, 49, 10]) 1 0 4 :=
  (@counted_stop_iff _ _ _ _ _ _ _ 0 ⟨.fibonacci, 0, 4, blank, 5⟩ rfl (by decide) (by decide)
    (by decide)).2 (by decide)

/-- `./main 3 0 -1 -1` prints a line in its first turn, and does not exit after none. -/
theorem zero_not_stopped :
    ¬Stops (program int32 (fun _ => blank) (init_threads (fun _ => blank) (fun _ => 5) 0 (-1) (-1))
      fun _ _ => #v[32, 32, 45, 49, 10]) 1 0 0 :=
  @not_stops_zero _ ⟨.fibonacci, 0, 0, blank, 5⟩ 0 _ _ _ (by decide) rfl

end InitThreads

end SP2022.ThreadLib
