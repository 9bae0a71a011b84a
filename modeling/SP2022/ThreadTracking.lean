import SP2022.Threads

/-!
# Where a thread is

`solo` runs a thread function on its own variables, its own records and its own lines,
with no scheduler at all. In every state of the program the part that belongs to a thread
is the state of `solo` after as many turns as the thread had (`Tracked`) : a turn happens
only at the thread's own control block (`Turned`), and a thread that waits in `async_read`
runs again only when its FIFO holds a record. The number of turns can be read off the
resumptions (`tracked_of_resumptions`).
-/

namespace SP2022.ThreadLib

open Sched

/-! ## A thread on its own -/

/-- The state of one thread : its variables, the number of records it has read, what it
has printed, `i`, `x` and `y` at its resumptions, and whether it has exited. -/
structure View where
  vars : Vars
  reads : ℕ
  lines : List ℤ
  resumptions : List (ℤ × ℤ × ℤ)
  exited : Bool

/-- A thread after `thread_setup`. -/
def View.start (p : Spec) : View where
  vars := { p.mem.toVars with
    id := p.id, environment := ⟨p.func, .setup⟩, arg := p.arg, x := 0, y := 0 }
  reads := 0
  lines := []
  resumptions := []
  exited := false

section Solo

variable (int : ℤ → ℤ) (R : ℕ → Record)

/-- One turn, with the next record in the FIFO. -/
def View.turn (v : View) : View :=
  let turn := (resume int (R v.reads).toList v.vars).1
  { vars := turn.vars
    reads := if v.vars.environment.point = .read then v.reads + 1 else v.reads
    lines := v.lines ++ turn.printed.toList
    resumptions := v.resumptions ++ [(v.vars.i, v.vars.x, v.vars.y)]
    exited := turn.jump = .exit }

/-- A thread after `k` turns. -/
def solo (p : Spec) : ℕ → View
  | 0 => .start p
  | k + 1 => (solo p k).turn int R

end Solo

/-! ## What a turn keeps -/

/-- The id never changes, and a turn that does not exit saves the environment of the
macro that ends it. -/
structure TurnSpec (v : Vars) (turn : Turn) : Prop where
  id : turn.vars.id = v.id
  yield : turn.jump = .yield → turn.vars.environment.point = .yield
  asyncRead : turn.jump = .asyncRead → turn.vars.environment.point = .read

theorem Turn.finish_spec {v w : Vars} (hid : w.id = v.id) (x : ℤ) (stop : Bool) :
    TurnSpec v (Turn.finish w x stop) := by
  cases stop
  · exact ⟨hid, fun _ => rfl, fun h => by simp [Turn.finish] at h⟩
  · exact ⟨hid, fun h => by simp [Turn.finish] at h, fun h => by simp [Turn.finish] at h⟩

theorem fibonacci_spec (int : ℤ → ℤ) (v : Vars) : TurnSpec v (fibonacci int v) := by
  refine Turn.finish_spec ?_ _ _
  split_ifs <;> cases v.environment.point <;> rfl

theorem collatz_spec (int : ℤ → ℤ) (v : Vars) : TurnSpec v (collatz int v) := by
  refine Turn.finish_spec ?_ _ _
  split_ifs <;> cases v.environment.point <;> rfl

theorem max_subarray_spec (int : ℤ → ℤ) (v : Vars) : TurnSpec v (max_subarray int v) := by
  unfold max_subarray
  cases v.environment.point with
  | setup => exact ⟨rfl, fun h => by simp at h, fun _ => rfl⟩
  | yield => exact ⟨rfl, fun h => by simp at h, fun _ => rfl⟩
  | read =>
    refine Turn.finish_spec ?_ _ _
    rfl

theorem body_spec (int : ℤ → ℤ) (v : Vars) : TurnSpec v (body int v) := by
  unfold body
  cases v.environment.func
  · exact fibonacci_spec int v
  · exact collatz_spec int v
  · exact max_subarray_spec int v

theorem resume_spec (int : ℤ → ℤ) (fifo : List UInt8) (v : Vars) :
    TurnSpec v (resume int fifo v).1 := by
  have h := body_spec int { v with
    buf := (if v.environment.point = .read then readFifo 5 fifo v.buf else (fifo, v.buf)).2 }
  exact ⟨h.id, h.yield, h.asyncRead⟩

/-- Away from `async_read` the FIFO does not matter and stays as it is. -/
theorem resume_of_ne_read (int : ℤ → ℤ) (fifo fifo' : List UInt8) {v : Vars}
    (h : v.environment.point ≠ .read) :
    resume int fifo v = ((resume int fifo' v).1, fifo) := by
  unfold resume
  rw [if_neg h, if_neg h]

/-- In `async_read` the first record in the FIFO is read, and nothing else matters. -/
theorem resume_of_read (int : ℤ → ℤ) (r : Record) (rest : List UInt8) {v : Vars}
    (h : v.environment.point = .read) :
    resume int (r.toList ++ rest) v = ((resume int r.toList v).1, rest) := by
  have hlen : r.toList.length = 5 := r.length_toList
  have hread : readFifo 5 (r.toList ++ rest) v.buf = (rest, (readFifo 5 r.toList v.buf).2) := by
    simp [readFifo, hlen]
  unfold resume
  rw [if_pos h, if_pos h, hread]

theorem solo_id (int : ℤ → ℤ) (R : ℕ → Record) (p : Spec) (k : ℕ) :
    (solo int R p k).vars.id = p.id := by
  induction k with
  | zero => rfl
  | succ k ih => exact (resume_spec int _ _).id.trans ih

theorem solo_lines_mono (int : ℤ → ℤ) (R : ℕ → Record) (p : Spec) {k m : ℕ} (h : k ≤ m) :
    (solo int R p k).lines <+: (solo int R p m).lines := by
  induction m, h using Nat.le_induction with
  | base => exact List.prefix_refl _
  | succ m _ ih => exact ih.trans (List.prefix_append _ _)

theorem solo_resumptions_mono (int : ℤ → ℤ) (R : ℕ → Record) (p : Spec) {k m : ℕ}
    (h : k ≤ m) : (solo int R p k).resumptions <+: (solo int R p m).resumptions := by
  induction m, h using Nat.le_induction with
  | base => exact List.prefix_refl _
  | succ m _ ih => exact ih.trans (List.prefix_append _ _)

/-! ## What the scheduler does to other threads -/

section Membership

variable {n : ℕ} {s : Sched} {rev : ℕ → ℕ} {u : Ptr}

/-- A thread is ready after a poll if it was, or if it waited and its entry reported. -/
theorem mem_ready_poll (h : Queues n s) (hu : u ∈ (move_queue (poll rev s)).ready) :
    u ∈ s.ready ∨ ∃ i < n, u = i + 1 ∧ rev i ≠ 0 ∧ u ∈ s.waiting := by
  rw [(h.moved rev).ready, List.mem_append] at hu
  refine hu.imp_right fun hw => ?_
  obtain ⟨i, hi, hmem⟩ := List.mem_flatMap.1 hw
  have hi' := List.mem_range.1 hi
  split_ifs at hmem with hev
  · obtain ⟨hmem, hidx⟩ := List.mem_filter.1 hmem
    have hidx' : s.index u = i := of_decide_eq_true hidx
    have hmem' : u ∈ s.waiting := hmem
    refine ⟨i, hi', ?_, ?_, hmem'⟩
    · rw [← hidx', h.index u (h.mem_alive (List.mem_append_right _ hmem')).1]
    · have hrev : ((poll rev s).fdarray i).revents = rev i := by simp [poll, h.nfds, hi']
      rw [← hrev, hev]
      decide
  · simp at hmem

theorem mem_waiting_poll (h : Queues n s) (hu : u ∈ (move_queue (poll rev s)).waiting) :
    u ∈ s.waiting := by
  rw [(h.moved rev).waiting] at hu
  exact (List.mem_filter.1 hu).1

theorem mem_ready_switch (h : Dispatchable n s) {src : Src}
    (hu : u ∈ (schedulerSwitch src rev s).ready) :
    (u ∈ s.ready ∧ (src ≠ .signal → u ≠ s.RUNNING)) ∨
      ∃ i < n, u = i + 1 ∧ rev i ≠ 0 ∧ u ∈ s.waiting := by
  obtain ⟨hd, hrun⟩ := pollReady_current h rev
  have hcase : u ∈ (pollReady rev s).ready ∧ (src ≠ .signal → u ≠ s.RUNNING) := by
    have hfill : ∀ s' : Sched, s'.ready = (pollReady rev s).ready →
        s'.RUNNING = (pollReady rev s).RUNNING → Current s' → u ∈ (fill s').ready →
        u ∈ (pollReady rev s).ready ∧ u ≠ s.RUNNING := by
      intro s' hready hrun' hcur hmem
      have hperm := ready_fill_perm hcur.1 hcur.2
      rw [hready, hrun', hrun] at hperm
      have hnd := hperm.nodup_iff.2 (List.nodup_append.1 hd.nodup).1
      exact ⟨hperm.mem_iff.1 (List.mem_cons_of_mem _ hmem),
        fun heq => (List.nodup_cons.1 hnd).1 (heq ▸ hmem)⟩
    cases src with
    | signal => exact ⟨hu, fun hne => absurd rfl hne⟩
    | asyncRead =>
      obtain ⟨hmem, hne⟩ := hfill (park (pollReady rev s)) rfl rfl hd.current hu
      exact ⟨hmem, fun _ => hne⟩
    | exit =>
      obtain ⟨hmem, hne⟩ := hfill (release (pollReady rev s)) rfl rfl hd.current hu
      exact ⟨hmem, fun _ => hne⟩
  rw [pollReady_eq] at hcase
  rcases mem_ready_poll h.toQueues hcase.1 with hold | hnew
  · exact Or.inl ⟨hold, hcase.2⟩
  · exact Or.inr hnew

theorem mem_waiting_polled (h : Dispatchable n s) {src : Src}
    (hu : u ∈ (schedulerSwitch src rev s).waiting) :
    u ∈ (move_queue (poll rev s)).waiting ∨ (src = .asyncRead ∧ u = s.RUNNING) := by
  obtain ⟨hd, hrun⟩ := pollReady_current h rev
  rw [← pollReady_eq]
  cases src with
  | signal => exact Or.inl hu
  | exit => exact Or.inl hu
  | asyncRead =>
    have hwait : (schedulerSwitch .asyncRead rev s).waiting =
        (pollReady rev s).waiting ++ [(pollReady rev s).RUNNING] := waiting_park hd.wq_nonneg
    rw [hwait, List.mem_append, List.mem_singleton, hrun] at hu
    exact hu.imp_right fun heq => ⟨rfl, heq⟩

theorem mem_waiting_switch (h : Dispatchable n s) {src : Src}
    (hu : u ∈ (schedulerSwitch src rev s).waiting) :
    u ∈ s.waiting ∨ (src = .asyncRead ∧ u = s.RUNNING) :=
  (mem_waiting_polled h hu).imp_left (mem_waiting_poll h.toQueues)

theorem tcb_switch (h : Queues n s) (src : Src) : (schedulerSwitch src rev s).tcb = s.tcb := by
  have htcb : (pollReady rev s).tcb = s.tcb := by
    rw [pollReady_eq]
    exact (h.moved rev).tcb
  cases src <;> exact htcb

end Membership

/-! ## The program tracks every thread -/

/-- The records of a FIFO from number `r` up to number `d`. -/
def pending (R : ℕ → Record) (r d : ℕ) : List UInt8 :=
  (List.range' r (d - r)).flatMap fun k => (R k).toList

theorem pending_succ (R : ℕ → Record) {r d : ℕ} (h : r ≤ d) :
    pending R r (d + 1) = pending R r d ++ (R d).toList := by
  rw [pending, Nat.succ_sub h, List.range'_1_concat, List.flatMap_append]
  simp [pending, Nat.add_sub_cancel' h]

theorem pending_eq_cons (R : ℕ → Record) {r d : ℕ} (h : r < d) :
    pending R r d = (R r).toList ++ pending R (r + 1) d := by
  obtain ⟨m, rfl⟩ : ∃ m, d = r + 1 + m := ⟨d - (r + 1), by omega⟩
  have h1 : r + 1 + m - r = m + 1 := by omega
  have h2 : r + 1 + m - (r + 1) = m := by omega
  rw [pending, pending, h1, h2, List.range'_succ, List.flatMap_cons]

theorem lt_of_pending_ne_nil {R : ℕ → Record} {r d : ℕ} (h : pending R r d ≠ []) : r < d := by
  by_contra hle
  rw [pending, Nat.sub_eq_zero_of_le (by omega)] at h
  exact h rfl

/-- What the memory, the FIFO and the output hold of the thread `t`, created for `p`, is
what `v` says. -/
structure Core (R : ℕ → Record) (p : Spec) (t : Ptr) (v : View) (M : Machine) : Prop where
  vars : (M.sched.tcb t).toVars = v.vars
  fd : (M.sched.tcb t).fd = p.fd
  reads : v.reads ≤ M.delivered t
  fifo : M.fifo t = pending R v.reads (M.delivered t)
  lines : M.lines p.id = v.lines
  resumptions : M.resumptions t = v.resumptions

/-- Whether a thread has exited, and what it means for it to wait or be ready : a ready
thread in `async_read` finds a record. -/
structure Status (p : Spec) (t : Ptr) (v : View) (M : Machine) : Prop where
  freed : M.sched.freed t = v.exited
  waiting : t ∈ M.sched.waiting → v.vars.environment.point = .read
  ready : t ∈ M.sched.ready → v.vars.environment.point = .read →
    v.reads < M.delivered t ∧ p.fd ≠ -1

/-- The first `m` turns of a thread can happen once `D` records were sent to it : it has
not exited before them, and each read finds one of these records. -/
def Feasible (int : ℤ → ℤ) (R : ℕ → Record) (p : Spec) (D m : ℕ) : Prop :=
  ∀ j < m, (solo int R p j).exited = false ∧
    ((solo int R p j).vars.environment.point = .read →
      (solo int R p j).reads < D ∧ p.fd ≠ -1)

/-- The thread `t`, created for `p`, is where `solo` is after `m` turns. -/
structure Tracked (int : ℤ → ℤ) (R : ℕ → Record) (p : Spec) (t : Ptr) (m : ℕ) (M : Machine) :
    Prop where
  feasible : Feasible int R p (M.delivered t) m
  core : Core R p t (solo int R p m) M
  status : Status p t (solo int R p m) M

/-- Every created thread is where `solo` is after some number of turns, and the queues fit
the mode. -/
structure Isolated (int : ℤ → ℤ) (ps : List Spec) (R : Ptr → ℕ → Record) (M : Machine) :
    Prop where
  queues : Queues ps.length M.sched
  running : M.mode = .running → Current M.sched
  blocked : M.mode = .blocked → M.sched.rq_size = 0
  returned : M.mode = .returned → M.sched.rq_size = 0 ∧ M.sched.wq_size = 0
  tracked : ∀ k p, ps[k]? = some p → ∃ m, Tracked int (R (k + 1)) p (k + 1) m M

section Steps

variable {int : ℤ → ℤ} {R : ℕ → Record} {p : Spec} {t : Ptr} {v : View} {M : Machine}

theorem Core.deliver {R' : Ptr → ℕ → Record} (h : Core (R' t) p t v M) (u : Ptr) :
    Core (R' t) p t v (M.deliver R' u) := by
  refine ⟨h.vars, h.fd, ?_, ?_, h.lines, h.resumptions⟩
  · have hreads := h.reads
    simp only [Machine.deliver, Function.update_apply]
    split_ifs with hu
    · subst hu
      omega
    · exact hreads
  · simp only [Machine.deliver, Function.update_apply]
    split_ifs with hu
    · subst hu
      rw [h.fifo, pending_succ _ h.reads]
    · exact h.fifo

theorem Status.deliver (h : Status p t v M) (R' : Ptr → ℕ → Record) (u : Ptr) :
    Status p t v (M.deliver R' u) := by
  refine ⟨h.freed, h.waiting, fun hr hpoint => ?_⟩
  obtain ⟨hlt, hfd⟩ := h.ready hr hpoint
  refine ⟨?_, hfd⟩
  simp only [Machine.deliver, Function.update_apply]
  split_ifs with hu
  · subst hu
    omega
  · exact hlt

/-- A turn of another thread with another id. -/
theorem Core.afterTurn_other (h : Core R p t v M) (ht : M.sched.RUNNING ≠ t)
    (hid : (M.sched.tcb M.sched.RUNNING).id ≠ p.id) : Core R p t v (M.afterTurn int) := by
  have htcb : (M.afterTurn int).sched.tcb t = M.sched.tcb t :=
    Function.update_of_ne (Ne.symm ht) _ _
  have hfifo : (M.afterTurn int).fifo t = M.fifo t := Function.update_of_ne (Ne.symm ht) _ _
  have hprint : (M.running int).1.vars.id ≠ p.id := by
    rw [show (M.running int).1.vars.id = (M.sched.tcb M.sched.RUNNING).id from
      (resume_spec int _ _).id]
    exact hid
  have hlines : (M.afterTurn int).lines p.id = M.lines p.id := by
    simp only [Machine.lines, Machine.afterTurn, List.filterMap_append]
    cases (M.running int).1.printed <;> simp [hprint]
  have hres : (M.afterTurn int).resumptions t = M.resumptions t := by
    simp [Machine.resumptions, Machine.afterTurn, List.filterMap_append, ht]
  exact ⟨htcb ▸ h.vars, htcb ▸ h.fd, h.reads, hfifo.trans h.fifo, hlines.trans h.lines,
    hres.trans h.resumptions⟩

/-- The running thread's turn is its turn in `solo`. -/
theorem Core.running (int : ℤ → ℤ) (h : Core R p t v M) (ht : M.sched.RUNNING = t)
    (hread : v.vars.environment.point = .read → v.reads < M.delivered t) :
    M.running int = ((resume int (R v.reads).toList v.vars).1,
      pending R (v.turn int R).reads (M.delivered t)) := by
  rw [Machine.running, ht, h.vars, h.fifo]
  by_cases hpoint : v.vars.environment.point = .read
  · rw [pending_eq_cons R (hread hpoint), resume_of_read int _ _ hpoint]
    simp [View.turn, hpoint]
  · rw [resume_of_ne_read int _ (R v.reads).toList hpoint]
    simp [View.turn, hpoint]

theorem Core.afterTurn_self (int : ℤ → ℤ) (h : Core R p t v M) (ht : M.sched.RUNNING = t)
    (hid : v.vars.id = p.id)
    (hread : v.vars.environment.point = .read → v.reads < M.delivered t) :
    Core R p t (v.turn int R) (M.afterTurn int) := by
  have hrun := h.running int ht hread
  have hid' : (resume int (R v.reads).toList v.vars).1.vars.id = p.id :=
    (resume_spec int _ _).id.trans hid
  refine ⟨?_, ?_, ?_, ?_, ?_, ?_⟩
  · simp [Machine.afterTurn, ht, hrun, View.turn]
  · simpa [Machine.afterTurn, ht] using h.fd
  · have hreads := h.reads
    show (v.turn int R).reads ≤ M.delivered t
    simp only [View.turn]
    split_ifs with hpoint
    · exact hread hpoint
    · exact hreads
  · simp [Machine.afterTurn, ht, hrun]
  · have hlines := h.lines
    simp only [Machine.lines, Machine.afterTurn, List.filterMap_append, hrun, View.turn] at hlines ⊢
    rw [hlines]
    cases (resume int (R v.reads).toList v.vars).1.printed <;> simp [hid']
  · have hres := h.resumptions
    simp only [Machine.resumptions, Machine.afterTurn, List.filterMap_append, View.turn] at hres ⊢
    rw [hres, ← h.vars]
    simp [ht]

/-- What the scheduler does not touch. -/
theorem Core.congr (h : Core R p t v M) {M' : Machine} (htcb : M'.sched.tcb t = M.sched.tcb t)
    (hfifo : M'.fifo = M.fifo) (hdel : M'.delivered = M.delivered)
    (hlines : M'.lines p.id = M.lines p.id) (hres : M'.resumed = M.resumed) :
    Core R p t v M' := by
  refine ⟨htcb ▸ h.vars, htcb ▸ h.fd, hdel ▸ h.reads, ?_, hlines.trans h.lines, ?_⟩
  · rw [hfifo, hdel]
    exact h.fifo
  · simp only [Machine.resumptions, hres]
    exact h.resumptions

/-- A reported entry of a waiting thread comes with a record in its FIFO. -/
theorem Core.readable (h : Core R p t v M) {n : ℕ} (hq : Queues n M.sched) {rev : ℕ → ℕ}
    (hpoll : PollResult [0, POLLIN] rev M.sched) (hread : M.Readable rev) {i : ℕ} (hi : i < n)
    (ht : t = i + 1) (hev : rev i ≠ 0) : v.reads < M.delivered t ∧ p.fd ≠ -1 := by
  have hi' : i < M.sched.nfds := hq.nfds.symm ▸ hi
  obtain ⟨hwait, hidx⟩ := hq.waiting_of_event hpoll hi hev
  constructor
  · have hne := hread i hi' hev
    rw [← ht, h.fifo] at hne
    exact lt_of_pending_ne_nil hne
  · have hfd := (hpoll i hi').2 hev
    have hfds := hq.fds (i + 1) (hq.mem_alive (List.mem_append_right _ hwait)).1
    rw [hidx, if_pos hwait, ← ht, h.fd] at hfds
    rwa [hfds] at hfd

/-- Other threads across a jump to `sched_buf`. -/
theorem Status.enter_other (h : Status p t v M) (hc : Core R p t v M) {n : ℕ}
    (hd : Dispatchable n M.sched) {src : Src} {rev : ℕ → ℕ} {M' : Machine}
    (henter : M.enter src rev = some M') (ht : M.sched.RUNNING ≠ t) : Status p t v M' := by
  unfold Machine.enter at henter
  split_ifs at henter with hp
  obtain ⟨hpoll, hread⟩ := hp
  obtain rfl := Option.some.inj henter
  refine ⟨?_, fun hw => ?_, fun hr hpoint => ?_⟩
  · rw [freed_switch hd _ _, if_neg fun hx => ht hx.2.symm]
    exact h.freed
  · rcases mem_waiting_switch hd hw with hw | ⟨-, heq⟩
    · exact h.waiting hw
    · exact absurd heq.symm ht
  · rcases mem_ready_switch hd hr with ⟨hr, -⟩ | ⟨i, hi, heq, hev, -⟩
    · exact h.ready hr hpoint
    · exact hc.readable hd.toQueues hpoll hread hi heq hev

/-- The running thread across the jump to `sched_buf` that its turn ends in. -/
theorem Status.enter_self {n : ℕ} (hd : Dispatchable n M.sched) {src : Src} {rev : ℕ → ℕ}
    {M' : Machine} (henter : M.enter src rev = some M') (ht : M.sched.RUNNING = t)
    (hexit : v.exited = decide (src = .exit))
    (hread : src = .asyncRead → v.vars.environment.point = .read)
    (hyield : src = .signal → v.vars.environment.point = .yield) : Status p t v M' := by
  unfold Machine.enter at henter
  split_ifs at henter with hp
  obtain rfl := Option.some.inj henter
  subst ht
  refine ⟨?_, fun hw => ?_, fun hr hpoint => ?_⟩
  · rw [freed_switch hd _ _, hexit]
    by_cases hsrc : src = .exit <;> simp [hsrc, hd.running_created.2]
  · rcases mem_waiting_switch hd hw with hw | ⟨hsrc, -⟩
    · exact absurd hw hd.running_not_waiting
    · exact hread hsrc
  · rcases mem_ready_switch hd hr with ⟨-, hne⟩ | ⟨i, -, -, -, hw⟩
    · have hsrc : src = .signal := by
        by_contra hsrc
        exact hne hsrc rfl
      rw [hyield hsrc] at hpoint
      exact absurd hpoint (by decide)
    · exact absurd hw hd.running_not_waiting

end Steps

section Program

variable {int : ℤ → ℤ} {ps : List Spec} {R : Ptr → ℕ → Record} {M : Machine}

theorem dispatchable_afterTurn {n : ℕ} (h : Dispatchable n M.sched) :
    Dispatchable n (M.afterTurn int).sched := by
  have hfd : ∀ t, ((M.afterTurn int).sched.tcb t).fd = (M.sched.tcb t).fd ∧
      (M.afterTurn int).sched.index t = M.sched.index t := by
    intro t
    simp only [Machine.afterTurn, Sched.index, Function.update_apply]
    split_ifs with ht <;> simp [ht]
  refine ⟨⟨h.nfds, h.rq_nonneg, h.wq_nonneg, fun t ht => ?_, h.live, fun t ht => ?_⟩, h.current⟩
  · rw [(hfd t).2]
    exact h.index t ht
  · rw [(hfd t).1, (hfd t).2]
    exact h.fds t ht

theorem Isolated.dispatchable (h : Isolated int ps R M) (hm : M.mode = .running) :
    Dispatchable ps.length M.sched :=
  ⟨h.queues, h.running hm⟩

/-- The specification a created thread was created for. -/
theorem exists_spec {n : ℕ} (hn : ps.length = n) {t : ℕ} (ht : t ∈ List.range' 1 n) :
    ∃ k p, ps[k]? = some p ∧ t = k + 1 := by
  rw [List.mem_range'_1] at ht
  have hlt : t - 1 < ps.length := by omega
  exact ⟨t - 1, ps[t - 1], List.getElem?_eq_getElem hlt, by omega⟩

theorem modeOf_running {s : Sched} : Machine.modeOf s = .running ↔ s.rq_size ≠ 0 := by
  by_cases hr : s.rq_size = 0 <;> by_cases hw : s.wq_size = 0 <;> simp [Machine.modeOf, hr, hw]

theorem modeOf_blocked {s : Sched} :
    Machine.modeOf s = .blocked ↔ s.rq_size = 0 ∧ s.wq_size ≠ 0 := by
  by_cases hr : s.rq_size = 0 <;> by_cases hw : s.wq_size = 0 <;> simp [Machine.modeOf, hr, hw]

theorem modeOf_returned {s : Sched} :
    Machine.modeOf s = .returned ↔ s.rq_size = 0 ∧ s.wq_size = 0 := by
  by_cases hr : s.rq_size = 0 <;> by_cases hw : s.wq_size = 0 <;> simp [Machine.modeOf, hr, hw]

/-- The mode after a jump to `sched_buf` fits the queues. -/
theorem mode_enter {n : ℕ} (hd : Dispatchable n M.sched) {src : Src} {rev : ℕ → ℕ}
    {M' : Machine} (henter : M.enter src rev = some M') :
    Queues n M'.sched ∧ (M'.mode = .running → Current M'.sched) ∧
      (M'.mode = .blocked → M'.sched.rq_size = 0) ∧
      (M'.mode = .returned → M'.sched.rq_size = 0 ∧ M'.sched.wq_size = 0) := by
  unfold Machine.enter at henter
  split_ifs at henter with hp
  obtain rfl := Option.some.inj henter
  obtain ⟨hq, hcur⟩ := switch_spec (pollReady_current hd rev).1 src
  exact ⟨hq, fun hm => hcur (modeOf_running.1 hm), fun hm => (modeOf_blocked.1 hm).1,
    fun hm => modeOf_returned.1 hm⟩

theorem delivered_enter {src : Src} {rev : ℕ → ℕ} {M' : Machine}
    (henter : M.enter src rev = some M') : M'.delivered = M.delivered := by
  unfold Machine.enter at henter
  split_ifs at henter
  obtain rfl := Option.some.inj henter
  rfl

theorem delivered_deliver (R : Ptr → ℕ → Record) (t : Ptr) (M : Machine) (u : Ptr) :
    M.delivered u ≤ (M.deliver R t).delivered u := by
  simp only [Machine.deliver, Function.update_apply]
  split_ifs with hu
  · subst hu
    omega
  · exact le_rfl

theorem core_enter {n : ℕ} (hd : Dispatchable n M.sched) {src : Src} {rev : ℕ → ℕ}
    {M' : Machine} (henter : M.enter src rev = some M') {R : ℕ → Record} {p : Spec} {t : Ptr}
    {v : View} (h : Core R p t v M) : Core R p t v M' := by
  unfold Machine.enter at henter
  split_ifs at henter with hp
  obtain rfl := Option.some.inj henter
  exact h.congr (congrFun (tcb_switch hd.toQueues src) t) rfl rfl rfl rfl

/-- Distinct threads have distinct ids. -/
theorem id_ne {k m : ℕ} {p q : Spec} (hid : (ps.map Spec.id).Nodup) (hp : ps[k]? = some p)
    (hq : ps[m]? = some q) (hne : k ≠ m) : p.id ≠ q.id := by
  obtain ⟨hk, rfl⟩ := List.getElem?_eq_some_iff.1 hp
  obtain ⟨hm, rfl⟩ := List.getElem?_eq_some_iff.1 hq
  intro heq
  refine hne ((List.nodup_iff_injective_get.1 hid).eq_iff (a := ⟨k, by simpa using hk⟩)
    (b := ⟨m, by simpa using hm⟩) |>.1 (by simpa using heq) |> congrArg Fin.val)

theorem turn_exited (int : ℤ → ℤ) (R : ℕ → Record) (v : View) :
    (v.turn int R).exited = decide ((resume int (R v.reads).toList v.vars).1.jump = .exit) :=
  rfl

/-- A turn of the thread `k + 1` leaves the other threads where they are. -/
theorem core_afterTurn (hid : (ps.map Spec.id).Nodup) {k : ℕ} {p : Spec} (hk : ps[k]? = some p)
    (hrun : M.sched.RUNNING = k + 1) {v : View} (hcore : Core (R (k + 1)) p (k + 1) v M)
    (hid' : v.vars.id = p.id) {l : ℕ} {q : Spec} (hl : ps[l]? = some q) (hne : l ≠ k) {w : View}
    (hother : Core (R (l + 1)) q (l + 1) w M) : Core (R (l + 1)) q (l + 1) w (M.afterTurn int) := by
  refine hother.afterTurn_other (fun heq => hne (Nat.succ.inj (heq.symm.trans hrun))) ?_
  rw [hrun, show (M.sched.tcb (k + 1)).id = v.vars.id from congrArg Vars.id hcore.vars, hid']
  exact id_ne hid hk hl hne.symm

/-- One more turn of a thread that is ready. -/
theorem Tracked.feasible_succ {R : ℕ → Record} {p : Spec} {t : Ptr} {m : ℕ}
    (h : Tracked int R p t m M) (hfreed : M.sched.freed t = false) (ht : t ∈ M.sched.ready) :
    Feasible int R p (M.delivered t) (m + 1) := by
  intro j hj
  rcases Nat.lt_succ_iff_lt_or_eq.1 hj with hj | rfl
  · exact h.feasible j hj
  · exact ⟨h.status.freed.symm.trans hfreed, h.status.ready ht⟩

theorem Tracked.congr {R : ℕ → Record} {p : Spec} {t : Ptr} {m : ℕ} {N : Machine}
    (h : Tracked int R p t m M) (hsched : N.sched = M.sched) (hfifo : N.fifo = M.fifo)
    (hdel : N.delivered = M.delivered) (hlines : ∀ q, N.lines q = M.lines q)
    (hres : N.resumed = M.resumed) : Tracked int R p t m N := by
  refine ⟨hdel ▸ h.feasible, h.core.congr (by rw [hsched]) hfifo hdel (hlines _) hres, ?_, ?_, ?_⟩
  · rw [hsched]
    exact h.status.freed
  · rw [hsched]
    exact h.status.waiting
  · rw [hsched, hdel]
    exact h.status.ready

/-- The program after a turn of the thread `k + 1`, before the jump that ends the turn : this
thread has come one turn further in its solo run, and the others are where they were. -/
structure Turned (int : ℤ → ℤ) (ps : List Spec) (R : Ptr → ℕ → Record) (k m : ℕ) (p : Spec)
    (N : Machine) : Prop where
  dispatchable : Dispatchable ps.length N.sched
  running : N.sched.RUNNING = k + 1
  spec : ps[k]? = some p
  feasible : Feasible int (R (k + 1)) p (N.delivered (k + 1)) m
  core : Core (R (k + 1)) p (k + 1) (solo int (R (k + 1)) p m) N
  others : ∀ l q, ps[l]? = some q → l ≠ k → ∃ m', Tracked int (R (l + 1)) q (l + 1) m' N

namespace Turned

variable {N N' M' : Machine} {k m : ℕ} {p : Spec}

theorem congr (h : Turned int ps R k m p N) (hsched : N'.sched = N.sched)
    (hfifo : N'.fifo = N.fifo) (hdel : N'.delivered = N.delivered)
    (hlines : ∀ q, N'.lines q = N.lines q) (hres : N'.resumed = N.resumed) :
    Turned int ps R k m p N' := by
  refine ⟨hsched ▸ h.dispatchable, by rw [hsched]; exact h.running, h.spec, hdel ▸ h.feasible,
    h.core.congr (by rw [hsched]) hfifo hdel (hlines _) hres, fun l q hl hne => ?_⟩
  obtain ⟨m', ht⟩ := h.others l q hl hne
  exact ⟨m', ht.congr hsched hfifo hdel hlines hres⟩

/-- What holds of the thread that ran and of the ones that are tracked holds of each thread. -/
theorem forall_threads (h : Turned int ps R k m p N) {P : ℕ → Spec → Prop} (hself : P k p)
    (hothers : ∀ l q m', l ≠ k → Tracked int (R (l + 1)) q (l + 1) m' N → P l q) (l : ℕ)
    (q : Spec) (hl : ps[l]? = some q) : P l q := by
  by_cases hne : l = k
  · subst hne
    obtain rfl : p = q := Option.some.inj (h.spec.symm.trans hl)
    exact hself
  · obtain ⟨m', ht⟩ := h.others l q hl hne
    exact hothers l q m' hne ht

/-- The turn ends without a signal, and the thread goes on. -/
theorem stay (h : Turned int ps R k m p N) (hmode : N.mode = .running)
    (hfreed : N.sched.freed (k + 1) = false)
    (hexit : (solo int (R (k + 1)) p m).exited = false)
    (hyield : (solo int (R (k + 1)) p m).vars.environment.point = .yield) :
    Isolated int ps R N := by
  have hd := h.dispatchable
  refine ⟨hd.toQueues, fun _ => hd.current, fun hb => ?_, fun hb => ?_,
    h.forall_threads ⟨m, h.feasible, h.core, ?_⟩ fun l q m' _ ht => ⟨m', ht⟩⟩
  · cases hmode.symm.trans hb
  · cases hmode.symm.trans hb
  · refine ⟨hfreed.trans hexit.symm, fun hw => ?_, fun _ hpoint => ?_⟩
    · exact absurd (h.running ▸ hw) hd.running_not_waiting
    · cases hyield.symm.trans hpoint

/-- The turn ends with a jump to the scheduler. -/
theorem enter (h : Turned int ps R k m p N) {src : Src} {rev : ℕ → ℕ}
    (henter : N.enter src rev = some M')
    (hexit : (solo int (R (k + 1)) p m).exited = decide (src = .exit))
    (hread : src = .asyncRead → (solo int (R (k + 1)) p m).vars.environment.point = .read)
    (hyield : src = .signal → (solo int (R (k + 1)) p m).vars.environment.point = .yield) :
    Isolated int ps R M' := by
  have hd := h.dispatchable
  have hdel := delivered_enter henter
  obtain ⟨hq, hr, hb, hret⟩ := mode_enter hd henter
  refine ⟨hq, hr, hb, hret, h.forall_threads ?_ fun l q m' hne ht => ?_⟩
  · exact ⟨m, hdel ▸ h.feasible, core_enter hd henter h.core,
      Status.enter_self hd henter h.running hexit hread hyield⟩
  · exact ⟨m', hdel ▸ ht.feasible, core_enter hd henter ht.core, ht.status.enter_other ht.core hd
      henter fun heq => hne (Nat.succ.inj (heq.symm.trans h.running))⟩

end Turned

/-- A turn of the running thread, up to the jump that ends it. -/
theorem Isolated.afterTurn (hid : (ps.map Spec.id).Nodup) (h : Isolated int ps R M)
    (hm : M.mode = .running) : ∃ k m p, Turned int ps R k (m + 1) p (M.afterTurn int) ∧
      (M.afterTurn int).sched.freed (k + 1) = false ∧
      (M.running int).1 = (resume int (R (k + 1) (solo int (R (k + 1)) p m).reads).toList
        (solo int (R (k + 1)) p m).vars).1 := by
  have hd := h.dispatchable hm
  -- the running thread, its specification and its view
  obtain ⟨k, p, hk, hrun⟩ := exists_spec rfl hd.running_created.1
  obtain ⟨m, htrack⟩ := h.tracked k p hk
  have hready : k + 1 ∈ M.sched.ready := hrun ▸ hd.running_mem
  have hfreed : M.sched.freed (k + 1) = false := hrun ▸ hd.running_created.2
  have hreads : (solo int (R (k + 1)) p m).vars.environment.point = .read →
      (solo int (R (k + 1)) p m).reads < M.delivered (k + 1) :=
    fun hpoint => (htrack.status.ready hready hpoint).1
  refine ⟨k, m, p, ⟨dispatchable_afterTurn hd, hrun, hk, htrack.feasible_succ hfreed hready,
    htrack.core.afterTurn_self int hrun (solo_id int _ p m) hreads, fun l q hl hne => ?_⟩,
    hfreed, by rw [htrack.core.running int hrun hreads]⟩
  obtain ⟨m', ht⟩ := h.tracked l q hl
  exact ⟨m', ht.feasible,
    core_afterTurn hid hk hrun htrack.core (solo_id int _ p m) hl hne ht.core,
    ht.status.freed, ht.status.waiting, ht.status.ready⟩

/-- A turn of the running thread, with the jump that ends it. -/
theorem Isolated.turn (hid : (ps.map Spec.id).Nodup) (h : Isolated int ps R M)
    {signo : Option Signal} {rev : ℕ → ℕ} {M' : Machine}
    (hstep : M.turn int signo rev = some M') : Isolated int ps R M' := by
  unfold Machine.turn at hstep
  split_ifs at hstep with hm
  obtain ⟨k, m, p, hturned, hfreed, hjump⟩ := h.afterTurn hid hm
  set v := solo int (R (k + 1)) p m with hv
  have hspec := resume_spec int (R (k + 1) v.reads).toList v.vars
  have hexit : (solo int (R (k + 1)) p (m + 1)).exited =
      decide ((resume int (R (k + 1) v.reads).toList v.vars).1.jump = .exit) := turn_exited int _ v
  rw [hjump] at hstep
  cases hj : (resume int (R (k + 1) v.reads).toList v.vars).1.jump with
  | yield =>
    rw [hj] at hstep hexit
    have hyield : (solo int (R (k + 1)) p (m + 1)).vars.environment.point = .yield :=
      hspec.yield hj
    cases signo with
    | none =>
      obtain rfl := Option.some.inj hstep
      exact hturned.stay hm hfreed hexit hyield
    | some signo =>
      have hcaught : Turned int ps R k (m + 1) p { M.afterTurn int with
          out := (M.afterTurn int).out ++ [.caught signo] } :=
        hturned.congr rfl rfl rfl (fun q => by simp [Machine.lines, List.filterMap_append]) rfl
      exact hcaught.enter hstep hexit (fun hc => nomatch hc) fun _ => hyield
  | asyncRead =>
    rw [hj] at hstep hexit
    exact hturned.enter hstep hexit (fun _ => hspec.asyncRead hj) fun hc => nomatch hc
  | exit =>
    rw [hj] at hstep hexit
    exact hturned.enter hstep hexit (fun hc => nomatch hc) fun hc => nomatch hc

/-- A record is sent. -/
theorem Isolated.deliver (h : Isolated int ps R M) (t : Ptr) :
    Isolated int ps R (M.deliver R t) := by
  refine ⟨h.queues, h.running, h.blocked, h.returned, fun k p hk => ?_⟩
  obtain ⟨m, ht⟩ := h.tracked k p hk
  refine ⟨m, fun j hj => ⟨(ht.feasible j hj).1, fun hpoint => ?_⟩, ht.core.deliver t,
    ht.status.deliver R t⟩
  obtain ⟨hlt, hfd⟩ := (ht.feasible j hj).2 hpoint
  exact ⟨hlt.trans_le (delivered_deliver R t M _), hfd⟩

/-- The blocking poll returns. -/
theorem Isolated.wake (h : Isolated int ps R M) {rev : ℕ → ℕ} {M' : Machine}
    (hstep : M.wake rev = some M') : Isolated int ps R M' := by
  unfold Machine.wake at hstep
  split_ifs at hstep with hm
  obtain ⟨-, ⟨hpoll, i, hi, hev⟩, hread⟩ := hm
  obtain rfl := Option.some.inj hstep
  have hin : rev i = POLLIN := by
    have hmem := (hpoll i hi).1
    simp only [List.mem_cons, List.not_mem_nil, or_false] at hmem
    exact hmem.resolve_left hev
  have hd := pollBlocking_dispatchable h.queues hpoll ⟨i, h.queues.nfds ▸ hi, hin⟩
  have hmoved := h.queues.moved rev
  refine ⟨hd.toQueues, fun _ => hd.current, fun hb => Mode.noConfusion hb,
    fun hb => Mode.noConfusion hb, fun k p hk => ?_⟩
  obtain ⟨m, ht⟩ := h.tracked k p hk
  refine ⟨m, ht.feasible, ht.core.congr (congrFun hmoved.tcb _) rfl rfl rfl rfl, ?_,
    fun hw => ht.status.waiting (mem_waiting_poll h.queues hw), fun hr hpoint => ?_⟩
  · exact (congrFun hmoved.freed _).trans ht.status.freed
  · rcases mem_ready_poll h.queues hr with hr | ⟨i, hi, heq, hev, -⟩
    · exact ht.status.ready hr hpoint
    · exact ht.core.readable h.queues hpoll hread hi heq hev

/-- The memory of a created thread. -/
theorem createAll_tcb (mem : Ptr → Tcb) (ps : List Spec) {k : ℕ} {p : Spec}
    (hk : ps[k]? = some p) :
    ((createAll mem ps).tcb (k + 1)).toVars = (View.start p).vars ∧
      ((createAll mem ps).tcb (k + 1)).fd = p.fd := by
  induction ps using List.reverseRecOn with
  | nil => simp at hk
  | append_singleton ps q ih =>
    have hnfds := (queues_createAll mem ps).nfds
    rw [createAll_snoc]
    by_cases hlt : k < ps.length
    · rw [List.getElem?_append_left hlt] at hk
      have hne : k + 1 ≠ (createAll mem ps).nfds + 1 := by omega
      simpa [thread_setup, Function.update_of_ne hne] using ih hk
    · have hk' : k = ps.length := by
        have := (List.getElem?_eq_some_iff.1 hk).1
        simp only [List.length_append, List.length_singleton] at this
        omega
      obtain rfl : q = p := by simpa [hk'] using hk
      simp [thread_setup, hk', hnfds, View.start]

theorem isolated_start (mem : Ptr → Tcb) (hps : 1 ≤ ps.length) :
    Isolated int ps R (Machine.start mem ps) := by
  have hd := dispatchable_start mem hps
  have hwait : (schedulerStart (createAll mem ps)).waiting = [] := by
    rw [Sched.waiting, show (schedulerStart (createAll mem ps)).wq_size = 0 from
      wq_size_createAll mem ps, queue_zero]
  refine ⟨hd.toQueues, fun _ => hd.current, fun hb => Mode.noConfusion hb,
    fun hb => Mode.noConfusion hb, fun k p hk => ?_⟩
  obtain ⟨hvars, hfd⟩ := createAll_tcb mem ps hk
  refine ⟨0, fun j hj => absurd hj (Nat.not_lt_zero j), ⟨hvars, hfd, le_rfl, ?_, rfl, rfl⟩,
    ?_, fun hw => ?_, fun _ hpoint => ?_⟩
  · rfl
  · exact freed_createAll mem ps (k + 1)
  · exact absurd (hwait ▸ hw) List.not_mem_nil
  · exact Point.noConfusion hpoint

/-- Every state of the program is isolated. -/
theorem isolated_of_reachable {mem : Ptr → Tcb} (hid : (ps.map Spec.id).Nodup)
    (hps : 1 ≤ ps.length) (h : (program int mem ps R).Reachable M) : Isolated int ps R M := by
  refine h.invariant (fun s hs => ?_) fun e s s' hs hstep => ?_
  · subst hs
    exact isolated_start mem hps
  · cases e with
    | deliver t =>
      obtain rfl := Option.some.inj hstep
      exact hs.deliver t
    | turn signo rev => exact hs.turn hid hstep
    | wake rev => exact hs.wake hstep

theorem solo_resumptions_length (int : ℤ → ℤ) (R : ℕ → Record) (p : Spec) (m : ℕ) :
    (solo int R p m).resumptions.length = m := by
  induction m with
  | zero => rfl
  | succ m ih => simp [solo, View.turn, ih]

/-- The number of turns can be read off the program. -/
theorem Tracked.turns {R : ℕ → Record} {p : Spec} {t : Ptr} {m : ℕ}
    (h : Tracked int R p t m M) : (M.resumptions t).length = m := by
  rw [h.core.resumptions, solo_resumptions_length]

/-- In a reachable state the resumptions say where a thread is. -/
theorem tracked_of_resumptions {mem : Ptr → Tcb} (hid : (ps.map Spec.id).Nodup) {k m : ℕ}
    {p : Spec} (hk : ps[k]? = some p) (h : (program int mem ps R).Reachable M)
    (hm : (M.resumptions (k + 1)).length = m) : Tracked int (R (k + 1)) p (k + 1) m M := by
  have hps : 1 ≤ ps.length := (Nat.zero_le k).trans_lt (List.getElem?_eq_some_iff.1 hk).1
  obtain ⟨m', ht⟩ := (isolated_of_reachable hid hps h).tracked k p hk
  obtain rfl : m = m' := hm.symm.trans ht.turns
  exact ht

end Program

end SP2022.ThreadLib
