import Mathlib.Algebra.BigOperators.Group.Finset.Piecewise
import SP2022.Termination
import SP2022.ThreadCounts

/-!
# The program comes to an end

If every thread exits when it runs on its own, `scheduler` returns. A turn of a thread and a
blocking poll that returns each lower the measure `2 * (turns left) + (threads waiting)`, so no
run has more than twice as many of them as the threads have turns (`program_pays`). The
program is stuck only in its blocking poll, with no record for any waiting thread
(`exists_event`), and when `scheduler` has returned all threads have printed what they print
alone (`threads_complete`).
-/

namespace SP2022.ThreadLib

open Sched

/-- An event of the program itself costs one, a record that is written to a FIFO nothing. -/
def Event.cost : Event → ℕ
  | .deliver _ => 0
  | .turn _ _ => 1
  | .wake _ => 1

/-- On its own and with `D k` records, the thread created as number `k` exits in its turn
`T k`. -/
structure Ends (int : ℤ → ℤ) (ps : List Spec) (R : Ptr → ℕ → Record) (D T : ℕ → ℕ) : Prop where
  feasible : ∀ k p, ps[k]? = some p → Feasible int (R (k + 1)) p (D k) (T k)
  exited : ∀ k p, ps[k]? = some p → (solo int (R (k + 1)) p (T k)).exited = true

section Waiting

variable {n : ℕ} {s : Sched}

/-- A poll wakes threads and puts none to wait. -/
theorem length_waiting_poll (h : Queues n s) (rev : ℕ → ℕ) :
    (move_queue (poll rev s)).waiting.length ≤ s.waiting.length := by
  rw [(h.moved rev).waiting]
  exact List.length_filter_le _ _

/-- A jump to `sched_buf` puts at most one thread to wait. -/
theorem length_waiting_switch (h : Dispatchable n s) (src : Src) (rev : ℕ → ℕ) :
    (schedulerSwitch src rev s).waiting.length ≤ s.waiting.length + 1 := by
  have hle := length_waiting_poll h.toQueues rev
  have hd := (pollReady_current h rev).1
  rw [← pollReady_eq] at hle
  cases src with
  | signal => exact hle.trans (Nat.le_succ _)
  | exit => exact hle.trans (Nat.le_succ _)
  | asyncRead =>
    have hwait : (schedulerSwitch .asyncRead rev s).waiting =
        (pollReady rev s).waiting ++ [(pollReady rev s).RUNNING] := waiting_park hd.wq_nonneg
    rw [hwait, List.length_append, List.length_singleton]
    exact Nat.succ_le_succ hle

/-- The blocking poll wakes a thread. -/
theorem length_waiting_wake (h : Queues n s) {rev : ℕ → ℕ}
    (hpoll : BlockingResult [0, POLLIN] rev s) :
    (pollBlocking rev s).waiting.length < s.waiting.length := by
  obtain ⟨hpoll, i, hi, hev⟩ := hpoll
  have hin : rev i = POLLIN := by
    have hmem := (hpoll i hi).1
    simp only [List.mem_cons, List.not_mem_nil, or_false] at hmem
    exact hmem.resolve_left hev
  have hlen := (h.moved rev).perm.length_eq
  have hlt := move_queue_wakes h hpoll ⟨i, h.nfds ▸ hi, hin⟩
  have hnonneg := h.rq_nonneg
  have hr : (poll rev s).rq_size = s.rq_size := rfl
  have hw : (poll rev s).wq_size = s.wq_size := rfl
  simp only [List.length_append, Sched.ready, Sched.waiting, length_queue, hr, hw] at hlen
  simp only [Sched.waiting, length_queue, pollBlocking]
  omega

end Waiting

section Program

variable {int : ℤ → ℤ} {mem : Ptr → Tcb} {ps : List Spec} {R : Ptr → ℕ → Record}
  {D T : ℕ → ℕ} {M M' : Machine}

/-- What a turn does : the thread's statements, and then a jump to `sched_buf` or nothing. -/
theorem turn_cases {signo : Option Signal} {rev : ℕ → ℕ} (h : M.turn int signo rev = some M') :
    M.mode = .running ∧ M'.resumed = (M.afterTurn int).resumed ∧ M'.delivered = M.delivered ∧
      ((M'.mode = .running ∧ M'.sched = (M.afterTurn int).sched) ∨
        ∃ src, M'.mode = Machine.modeOf M'.sched ∧
          M'.sched = schedulerSwitch src rev (M.afterTurn int).sched) := by
  have henter : ∀ (N : Machine) (src : Src), N.sched = (M.afterTurn int).sched →
      N.resumed = (M.afterTurn int).resumed → N.delivered = M.delivered →
      N.enter src rev = some M' → M'.resumed = (M.afterTurn int).resumed ∧
        M'.delivered = M.delivered ∧ M'.mode = Machine.modeOf M'.sched ∧
        M'.sched = schedulerSwitch src rev (M.afterTurn int).sched := by
    intro N src hsched hres hdel hN
    unfold Machine.enter at hN
    split_ifs at hN
    obtain rfl := Option.some.inj hN
    exact ⟨hres, hdel, rfl, by rw [← hsched]⟩
  unfold Machine.turn at h
  split_ifs at h with hm
  refine ⟨hm, ?_⟩
  cases hj : (M.running int).1.jump with
  | yield =>
    cases signo with
    | none =>
      simp only [hj] at h
      obtain rfl := Option.some.inj h
      exact ⟨rfl, rfl, Or.inl ⟨hm, rfl⟩⟩
    | some signo =>
      simp only [hj] at h
      obtain ⟨hres, hdel, hmode, hsched⟩ :=
        henter { M.afterTurn int with out := (M.afterTurn int).out ++ [.caught signo] } .signal rfl
          rfl rfl h
      exact ⟨hres, hdel, Or.inr ⟨_, hmode, hsched⟩⟩
  | asyncRead =>
    simp only [hj] at h
    obtain ⟨hres, hdel, hmode, hsched⟩ := henter _ .asyncRead rfl rfl rfl h
    exact ⟨hres, hdel, Or.inr ⟨_, hmode, hsched⟩⟩
  | exit =>
    simp only [hj] at h
    obtain ⟨hres, hdel, hmode, hsched⟩ := henter _ .exit rfl rfl rfl h
    exact ⟨hres, hdel, Or.inr ⟨_, hmode, hsched⟩⟩

/-- What the return of the blocking poll does. -/
theorem wake_cases {rev : ℕ → ℕ} (h : M.wake rev = some M') :
    M.mode = .blocked ∧ BlockingResult [0, POLLIN] rev M.sched ∧ M'.mode = .running ∧
      M'.resumed = M.resumed ∧ M'.delivered = M.delivered ∧
      M'.sched = pollBlocking rev M.sched := by
  unfold Machine.wake at h
  split_ifs at h with hm
  obtain rfl := Option.some.inj h
  exact ⟨hm.1, hm.2.1, rfl, rfl, rfl, rfl⟩

/-- The blocking poll is reached with threads waiting. -/
theorem waiting_of_blocked (hM : (program int mem ps R).Reachable M) (hm : M.mode = .blocked) :
    M.sched.wq_size ≠ 0 := by
  refine hM.invariant (I := fun M => M.mode = .blocked → M.sched.wq_size ≠ 0) (fun M hM => ?_)
    (fun e M M' hM hstep => ?_) hm
  · subst hM
    exact fun hb => Mode.noConfusion hb
  · cases e with
    | deliver t =>
      obtain rfl := Option.some.inj hstep
      exact hM
    | turn signo rev =>
      obtain ⟨-, -, -, ⟨hrun, -⟩ | ⟨src, hmode, -⟩⟩ := turn_cases hstep
      · exact fun hb => Mode.noConfusion (hrun.symm.trans hb)
      · exact fun hb => (modeOf_blocked.1 (hmode.symm.trans hb)).2
    | wake rev =>
      obtain ⟨-, -, hrun, -⟩ := wake_cases hstep
      exact fun hb => Mode.noConfusion (hrun.symm.trans hb)

/-- Every turn is a turn of one of the threads. -/
theorem length_resumed (hid : (ps.map Spec.id).Nodup) (hps : 1 ≤ ps.length)
    (hM : (program int mem ps R).Reachable M) :
    M.resumed.length = ∑ k ∈ Finset.range ps.length, (M.resumptions (k + 1)).length := by
  refine (hM.invariant (I := fun M => Isolated int ps R M ∧
    M.resumed.length = ∑ k ∈ Finset.range ps.length, (M.resumptions (k + 1)).length)
    (fun M hM => ?_) fun e M M' hM hstep => ?_).2
  · subst hM
    exact ⟨isolated_start mem hps, by simp [Machine.start, Machine.resumptions]⟩
  · obtain ⟨hi, hlen⟩ := hM
    cases e with
    | deliver t =>
      obtain rfl := Option.some.inj hstep
      exact ⟨hi.deliver t, hlen⟩
    | wake rev =>
      refine ⟨hi.wake hstep, ?_⟩
      obtain ⟨-, -, -, hres, -⟩ := wake_cases hstep
      simpa only [Machine.resumptions, hres] using hlen
    | turn signo rev =>
      refine ⟨hi.turn hid hstep, ?_⟩
      obtain ⟨hm, hres, -⟩ := turn_cases hstep
      obtain ⟨k, p, hk, hrun⟩ := exists_spec rfl (hi.dispatchable hm).running_created.1
      have hone : ∀ l, (M'.resumptions (l + 1)).length =
          (M.resumptions (l + 1)).length + if l = k then 1 else 0 := by
        intro l
        simp only [Machine.resumptions, hres, Machine.afterTurn, List.filterMap_append,
          List.length_append, hrun]
        by_cases hlk : l = k
        · simp [hlk]
        · simp [hlk, Ne.symm hlk]
      have hmem : k ∈ Finset.range ps.length :=
        Finset.mem_range.2 (List.getElem?_eq_some_iff.1 hk).1
      simp only [hone, Finset.sum_add_distrib, Finset.sum_ite_eq', if_pos hmem, ← hlen, hres]
      simp [Machine.afterTurn]

/-- Where a thread is, and that it is not past its last turn. -/
theorem Ends.tracked (hends : Ends int ps R D T) (hid : (ps.map Spec.id).Nodup)
    (hM : (program int mem ps R).Reachable M) {k : ℕ} {p : Spec} (hk : ps[k]? = some p) :
    Tracked int (R (k + 1)) p (k + 1) (M.resumptions (k + 1)).length M ∧
      (M.resumptions (k + 1)).length ≤ T k := by
  have ht := tracked_of_resumptions hid hk hM rfl
  exact ⟨ht, ht.le_of_exited (hends.exited k p hk)⟩

theorem Ends.length_resumed_le (hends : Ends int ps R D T) (hid : (ps.map Spec.id).Nodup)
    (hps : 1 ≤ ps.length) (hM : (program int mem ps R).Reachable M) :
    M.resumed.length ≤ ∑ k ∈ Finset.range ps.length, T k := by
  rw [length_resumed hid hps hM]
  refine Finset.sum_le_sum fun k hk => ?_
  exact (hends.tracked hid hM (List.getElem?_eq_getElem (Finset.mem_range.1 hk))).2

/-- A thread that waits has not exited, and waits for one of its records. -/
theorem Ends.of_waiting (hends : Ends int ps R D T) (hid : (ps.map Spec.id).Nodup)
    (hps : 1 ≤ ps.length) (hM : (program int mem ps R).Reachable M) {k : ℕ} {p : Spec}
    (hk : ps[k]? = some p) (hw : k + 1 ∈ M.sched.waiting) :
    (M.resumptions (k + 1)).length < T k ∧
      (solo int (R (k + 1)) p (M.resumptions (k + 1)).length).reads < D k ∧ p.fd ≠ -1 := by
  obtain ⟨ht, hle⟩ := hends.tracked hid hM hk
  have hfreed := ((isolated_of_reachable hid hps hM).queues.mem_alive
    (List.mem_append_right _ hw)).2
  have hlt : (M.resumptions (k + 1)).length < T k := by
    refine lt_of_le_of_ne hle fun heq => ?_
    rw [ht.status.freed, heq, hends.exited k p hk] at hfreed
    exact Bool.false_ne_true hfreed.symm
  exact ⟨hlt, (hends.feasible k p hk _ hlt).2 (ht.status.waiting hw)⟩

/-- Twice the turns that are left, and the threads that wait. -/
def Machine.left (ps : List Spec) (T : ℕ → ℕ) (M : Machine) : ℕ :=
  2 * (∑ k ∈ Finset.range ps.length, T k - M.resumed.length) + M.sched.waiting.length

/-- A turn and the return of the blocking poll each lower the measure. -/
theorem program_pays (hid : (ps.map Spec.id).Nodup) (hps : 1 ≤ ps.length)
    (hends : Ends int ps R D T) :
    (program int mem ps R).Pays (program int mem ps R).Reachable Event.cost
      (Machine.left ps T) := by
  intro e M M' hM hstep
  have hM' := hM.step hstep
  refine ⟨hM', ?_⟩
  have hi := isolated_of_reachable hid hps hM
  cases e with
  | deliver t =>
    obtain rfl := Option.some.inj hstep
    exact (Nat.zero_add _).le
  | turn signo rev =>
    obtain ⟨hm, hres, -, hcase⟩ := turn_cases hstep
    have hd : Dispatchable ps.length (M.afterTurn int).sched :=
      dispatchable_afterTurn (hi.dispatchable hm)
    have hlen : M'.resumed.length = M.resumed.length + 1 := by
      rw [hres]
      simp [Machine.afterTurn]
    have hle := hends.length_resumed_le hid hps hM'
    have hwait : M'.sched.waiting.length ≤ M.sched.waiting.length + 1 := by
      obtain ⟨-, hsched⟩ | ⟨src, -, hsched⟩ := hcase
      · rw [hsched]
        exact Nat.le_succ _
      · rw [hsched]
        exact length_waiting_switch hd src rev
    simp only [Event.cost, Machine.left]
    omega
  | wake rev =>
    obtain ⟨-, hpoll, -, hres, -, hsched⟩ := wake_cases hstep
    have hlt := length_waiting_wake hi.queues hpoll
    simp only [Event.cost, Machine.left, hres, hsched]
    omega

/-- The program stops only when `scheduler` has returned, or in the blocking poll with no
byte in the FIFO of a waiting thread. -/
theorem exists_event (hid : (ps.map Spec.id).Nodup) (hps : 1 ≤ ps.length)
    (hends : Ends int ps R D T) (hM : (program int mem ps R).Reachable M)
    (hm : M.mode ≠ .returned) :
    (∃ e M', (program int mem ps R).step e M = some M' ∧ 0 < e.cost) ∨
      (M.mode = .blocked ∧ ∀ t ∈ M.sched.waiting, M.fifo t = []) := by
  have hi := isolated_of_reachable hid hps hM
  cases hmode : M.mode with
  | returned => exact absurd hmode hm
  | running =>
    obtain ⟨src, M', hstep, -⟩ := exists_entry int hmode
      (fun _ _ => ⟨List.mem_cons_self, fun hne => absurd rfl hne⟩) fun _ _ hne => absurd rfl hne
    exact Or.inl ⟨.turn (some .SIGTSTP) fun _ => 0, M', hstep, Nat.one_pos⟩
  | blocked =>
    by_cases hnone : ∀ t ∈ M.sched.waiting, M.fifo t = []
    · exact Or.inr ⟨rfl, hnone⟩
    push Not at hnone
    obtain ⟨t, hw, hne⟩ := hnone
    obtain ⟨k, p, hk, rfl⟩ :=
      exists_spec rfl (hi.queues.mem_alive (List.mem_append_right _ hw)).1
    obtain ⟨-, -, hfd⟩ := hends.of_waiting hid hps hM hk hw
    have ht := (hends.tracked hid hM hk).1
    have hlt : (solo int (R (k + 1)) p (M.resumptions (k + 1)).length).reads <
        M.delivered (k + 1) := lt_of_pending_ne_nil (ht.core.fifo ▸ hne)
    obtain ⟨e, M', hstep, hready, -⟩ := exists_wakeup hid hk hM ht hw hlt hfd
    refine Or.inl ⟨e, M', hstep, ?_⟩
    cases e with
    | deliver t =>
      obtain rfl := Option.some.inj hstep
      have hnil : M.sched.ready = [] := by rw [Sched.ready, hi.blocked hmode, queue_zero]
      exact absurd (hnil ▸ hready : k + 1 ∈ []) List.not_mem_nil
    | turn signo rev => exact Nat.one_pos
    | wake rev => exact Nat.one_pos

/-- Once `scheduler` has returned, every thread has exited in its last turn. -/
theorem Ends.of_returned (hends : Ends int ps R D T) (hid : (ps.map Spec.id).Nodup)
    (hps : 1 ≤ ps.length) (hM : (program int mem ps R).Reachable M) (hm : M.mode = .returned)
    {k : ℕ} {p : Spec} (hk : ps[k]? = some p) :
    M.sched.freed (k + 1) = true ∧ (M.resumptions (k + 1)).length = T k := by
  have hi := isolated_of_reachable hid hps hM
  obtain ⟨hr, hw⟩ := hi.returned hm
  obtain ⟨ht, hle⟩ := hends.tracked hid hM hk
  have hlen := (List.getElem?_eq_some_iff.1 hk).1
  have hfreed : M.sched.freed (k + 1) = true := by
    by_contra hfreed
    have halive : k + 1 ∈ M.sched.alive ps.length := by
      refine List.mem_filter.2 ⟨?_, by simpa using hfreed⟩
      rw [List.mem_range'_1]
      omega
    have hmem := hi.queues.live.mem_iff.2 halive
    rw [Sched.ready, Sched.waiting, hr, hw, queue_zero, queue_zero] at hmem
    cases hmem
  refine ⟨hfreed, ?_⟩
  by_contra hne
  have hexit := (hends.feasible k p hk (M.resumptions (k + 1)).length (by omega)).1
  exact Bool.false_ne_true (hexit.symm.trans (ht.status.freed.symm.trans hfreed))

/-! ## Records -/

/-- The events of the program send no record. -/
theorem delivered_of_cost {e : Event} (hstep : (program int mem ps R).step e M = some M')
    (he : 0 < e.cost) : M'.delivered = M.delivered := by
  cases e with
  | deliver t => exact absurd he (Nat.lt_irrefl 0)
  | turn signo rev => exact (turn_cases hstep).2.2.1
  | wake rev => exact (wake_cases hstep).2.2.2.2.1

theorem delivered_of_run {es : List Event} (hes : ∀ e ∈ es, 0 < e.cost)
    (hrun : (program int mem ps R).run es M = some M') : M'.delivered = M.delivered := by
  refine System.eachStep_invariant (I := fun N => N.delivered = M.delivered)
    (C := fun e _ => 0 < e.cost) (fun e N N' hN hstep he => ?_) es rfl hrun ?_
  · exact (delivered_of_cost hstep he).trans hN
  · rintro es₁ e es₂ N rfl -
    exact hes e (by simp)

theorem exists_delivery (int : ℤ → ℤ) (mem : Ptr → Tcb) (ps : List Spec) (R : Ptr → ℕ → Record)
    (t : Ptr) : ∀ (c : ℕ) (M : Machine), ∃ es M', (program int mem ps R).run es M = some M' ∧
      M'.delivered = Function.update M.delivered t (M.delivered t + c)
  | 0, M => ⟨[], M, rfl, by simp⟩
  | c + 1, M => by
    obtain ⟨es, M', hrun, hdel⟩ := exists_delivery int mem ps R t c (M.deliver R t)
    refine ⟨.deliver t :: es, M', (System.run_cons _).2 ⟨_, rfl, hrun⟩, hdel.trans ?_⟩
    simp only [Machine.deliver, Function.update_self, Function.update_idem]
    congr 1
    omega

/-- The records that the first `n` threads still need can be sent. -/
theorem exists_deliveries (int : ℤ → ℤ) (mem : Ptr → Tcb) (ps : List Spec)
    (R : Ptr → ℕ → Record) (D : ℕ → ℕ) (M : Machine) (n : ℕ) :
    ∃ es M', (program int mem ps R).run es M = some M' ∧ ∀ k,
      M'.delivered (k + 1) =
        if k < n then max (M.delivered (k + 1)) (D k) else M.delivered (k + 1) := by
  induction n with
  | zero => exact ⟨[], M, rfl, fun k => rfl⟩
  | succ n ih =>
    obtain ⟨es, M₁, hrun, hdel⟩ := ih
    obtain ⟨es', M', hrun', hdel'⟩ := exists_delivery int mem ps R (n + 1)
      (D n - M₁.delivered (n + 1)) M₁
    refine ⟨es ++ es', M', (System.run_append_eq_some _).2 ⟨M₁, hrun, hrun'⟩, fun k => ?_⟩
    rw [hdel', Function.update_apply, hdel n, hdel k]
    split_ifs <;> grind

/-- With the records sent that the threads need, the program comes to its end. -/
theorem exists_returned (hid : (ps.map Spec.id).Nodup) (hps : 1 ≤ ps.length)
    (hends : Ends int ps R D T) (hM : (program int mem ps R).Reachable M)
    (hD : ∀ k < ps.length, D k ≤ M.delivered (k + 1)) :
    ∃ es M', (program int mem ps R).run es M = some M' ∧ M'.mode = .returned ∧
      ∀ e ∈ es, 0 < e.cost := by
  have hpays : (program int mem ps R).Pays (program int mem ps R).Reachable Event.cost
    (Machine.left ps T) := program_pays hid hps hends
  refine @System.exists_run_done _ _ (program int mem ps R)
    (fun N => (program int mem ps R).Reachable N ∧ ∀ k < ps.length, D k ≤ N.delivered (k + 1))
    (fun N => N.mode = .returned) Event.cost (Machine.left ps T) (fun e N N' hN hstep => ?_)
    (fun N hN hmode => ?_) (M.left ps T) M ⟨hM, hD⟩ le_rfl
  · obtain ⟨hN', hle⟩ := hpays e N N' hN.1 hstep
    refine ⟨⟨hN', fun k hk => (hN.2 k hk).trans ?_⟩, hle⟩
    cases e with
    | deliver t =>
      obtain rfl := Option.some.inj hstep
      exact delivered_deliver R t N _
    | turn signo rev => rw [delivered_of_cost hstep Nat.one_pos]
    | wake rev => rw [delivered_of_cost hstep Nat.one_pos]
  · rcases exists_event hid hps hends hN.1 hmode with hevent | ⟨hblocked, hnone⟩
    · exact hevent
    -- the first thread that waits has a record in its FIFO
    exfalso
    have hi := isolated_of_reachable hid hps hN.1
    have hpos : 0 < N.sched.waiting.length := by
      have := waiting_of_blocked hN.1 hblocked
      have := hi.queues.wq_nonneg
      rw [Sched.waiting, length_queue]
      omega
    obtain ⟨t, hw⟩ := List.exists_mem_of_length_pos hpos
    obtain ⟨k, p, hk, rfl⟩ :=
      exists_spec rfl (hi.queues.mem_alive (List.mem_append_right _ hw)).1
    obtain ⟨-, hlt, -⟩ := hends.of_waiting hid hps hN.1 hk hw
    have hfifo := (hends.tracked hid hN.1 hk).1.core.fifo
    rw [hnone _ hw, pending_eq_cons _
      (hlt.trans_le (hN.2 k (List.getElem?_eq_some_iff.1 hk).1))] at hfifo
    have hlength := congrArg List.length hfifo
    simp at hlength
    omega

/-- The program comes to an end if its threads do. No run has more turns and returns of the
blocking poll than twice the turns that the threads have alone, whatever signals are caught.
While `scheduler` has not returned the program goes on, unless it blocks in `poll` and no
waiting thread has a byte in its FIFO. When `scheduler` has returned, every thread has exited
after its last turn and has printed what it prints alone. From every state it has reached the
program comes to that point, with no record beyond the ones that the threads read. -/
theorem threads_complete (hid : (ps.map Spec.id).Nodup) (hps : 1 ≤ ps.length)
    (hends : Ends int ps R D T) :
    (∀ es M, (program int mem ps R).run es (Machine.start mem ps) = some M →
      (es.map Event.cost).sum ≤ 2 * ∑ k ∈ Finset.range ps.length, T k) ∧
    ∀ M, (program int mem ps R).Reachable M →
      (M.mode ≠ .returned → (∃ e M', (program int mem ps R).step e M = some M' ∧ 0 < e.cost) ∨
        (M.mode = .blocked ∧ ∀ t ∈ M.sched.waiting, M.fifo t = [])) ∧
      (M.mode = .returned → M.resumed.length = ∑ k ∈ Finset.range ps.length, T k ∧
        ∀ k p, ps[k]? = some p → M.sched.freed (k + 1) = true ∧
          M.lines p.id = (solo int (R (k + 1)) p (T k)).lines) ∧
      ∃ es M', (program int mem ps R).run es M = some M' ∧ M'.mode = .returned ∧
        ∀ k < ps.length, M'.delivered (k + 1) = max (M.delivered (k + 1)) (D k) := by
  constructor
  · intro es M hrun
    have hpays : (program int mem ps R).Pays (program int mem ps R).Reachable Event.cost
      (Machine.left ps T) := program_pays hid hps hends
    have hle := System.cost_le_of_measure hpays es (.of_init rfl) hrun
    have hstart : (Machine.start mem ps).left ps T = 2 * ∑ k ∈ Finset.range ps.length, T k := by
      have hwait : (Machine.start mem ps).sched.waiting = [] := by
        rw [Sched.waiting, show (Machine.start mem ps).sched.wq_size = 0 from
          wq_size_createAll mem ps, queue_zero]
      rw [Machine.left, hwait]
      rfl
    omega
  · intro M hM
    refine ⟨exists_event hid hps hends hM, fun hm => ⟨?_, fun k p hk => ?_⟩, ?_⟩
    · rw [length_resumed hid hps hM]
      refine Finset.sum_congr rfl fun k hk => ?_
      exact (hends.of_returned hid hps hM hm
        (List.getElem?_eq_getElem (Finset.mem_range.1 hk))).2
    · obtain ⟨hfreed, hturns⟩ := hends.of_returned hid hps hM hm hk
      have ht := (hends.tracked hid hM hk).1
      rw [hturns] at ht
      exact ⟨hfreed, ht.core.lines⟩
    · obtain ⟨es, M₁, hrun, hdel⟩ := exists_deliveries int mem ps R D M ps.length
      obtain ⟨es', M', hrun', hmode, hes⟩ := exists_returned hid hps hends (hM.run hrun)
        fun k hk => by
          rw [hdel, if_pos hk]
          exact le_max_right _ _
      refine ⟨es ++ es', M', (System.run_append_eq_some _).2 ⟨M₁, hrun, hrun'⟩, hmode,
        fun k hk => ?_⟩
      rw [delivered_of_run hes hrun', hdel, if_pos hk]

end Program

/-- `./main 3 4 -1 2`, with the turns that its two threads have alone. -/
theorem samplePair_ends :
    Ends int32 samplePair (fun _ _ => #v[32, 32, 32, 32, 51]) (fun k => 2 * k) fun _ => 4 := by
  refine ⟨fun k p hk j hj => ?_, fun k p hk => ?_⟩
  · rcases k with _ | _ | k
    · obtain rfl := Option.some.inj hk
      interval_cases j <;> decide
    · obtain rfl := Option.some.inj hk
      interval_cases j <;> decide
    · cases hk
  · rcases k with _ | _ | k
    · obtain rfl := Option.some.inj hk
      decide
    · obtain rfl := Option.some.inj hk
      decide
    · cases hk

/-- The program comes to its end with the two records that the second thread reads. -/
theorem threads_complete_pair : ∃ M,
    (program int32 (fun _ => blank) samplePair fun _ _ => #v[32, 32, 32, 32, 51]).Reachable M ∧
      M.mode = .returned ∧ M.delivered 2 = 2 ∧ M.resumed.length = 8 := by
  have hall := (@threads_complete int32 (fun _ => blank) samplePair
    (fun _ _ => #v[32, 32, 32, 32, 51]) (fun k => 2 * k) (fun _ => 4) (by decide) (by decide)
    samplePair_ends).2
  obtain ⟨es, M, hrun, hmode, hdel⟩ := (hall _ (.of_init rfl)).2.2
  have hM := System.Reachable.run (.of_init rfl) hrun
  exact ⟨M, hM, hmode, hdel 1 (by decide), ((hall M hM).2.1 hmode).1⟩

end SP2022.ThreadLib
