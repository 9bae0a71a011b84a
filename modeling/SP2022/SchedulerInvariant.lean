import SP2022.Runs
import SP2022.SchedulerQueues

/-!
# No thread is lost or queued twice

`Queues` says what the two queues and the poll table hold between the steps of
`scheduler` : together the queues are a permutation of the threads that have not
exited, and an entry of the poll table carries the thread's descriptor exactly while
the thread waits. `Dispatchable` adds that `rq_current` is a slot of the ready queue.
Creation, `move_queue` and the three switches each keep `Queues`, and every dispatch
reached with polls that report `0` or `POLLIN` is `Dispatchable`
(`dispatchable_of_reachable`).
-/

namespace SP2022.ThreadLib

open Sched

/-! ## Entries and runs -/

/-- A result of `poll` : every `revents` is one of `ok`, and an entry with an event has
a descriptor other than `-1`. -/
def PollResult (ok : List ℕ) (rev : ℕ → ℕ) (s : Sched) : Prop :=
  ∀ i < s.nfds, rev i ∈ ok ∧ (rev i ≠ 0 → (s.fdarray i).fd ≠ -1)

/-- A result of the blocking `poll` : at least one entry has an event. -/
def BlockingResult (ok : List ℕ) (rev : ℕ → ℕ) (s : Sched) : Prop :=
  PollResult ok rev s ∧ ∃ i < s.nfds, rev i ≠ 0

instance (ok : List ℕ) (rev : ℕ → ℕ) (s : Sched) : Decidable (PollResult ok rev s) :=
  inferInstanceAs (Decidable (∀ i < s.nfds, _))

instance (ok : List ℕ) (rev : ℕ → ℕ) (s : Sched) : Decidable (BlockingResult ok rev s) :=
  inferInstanceAs (Decidable (_ ∧ ∃ i < s.nfds, _))

/-- One entry of `scheduler` : why it was entered, and what its polls report. -/
structure Entry where
  src : Src
  rev : ℕ → ℕ
  rev' : ℕ → ℕ

/-- The state at the test `rq_size == 0`. -/
def Entry.switched (e : Entry) (s : Sched) : Sched :=
  schedulerSwitch e.src e.rev s

/-- The polls of an entry report what `poll` may report; the blocking one only counts
if it is reached. -/
def Entry.Possible (ok : List ℕ) (e : Entry) (s : Sched) : Prop :=
  PollResult ok e.rev s ∧
    ((e.switched s).rq_size = 0 → (e.switched s).wq_size ≠ 0 →
      BlockingResult ok e.rev' (e.switched s))

instance (ok : List ℕ) (e : Entry) (s : Sched) : Decidable (e.Possible ok s) :=
  inferInstanceAs (Decidable (_ ∧ (_ → _ → _)))

/-- From one dispatch to the next. -/
def Entry.next (ok : List ℕ) (e : Entry) (s : Sched) : Option Sched :=
  if e.Possible ok s then
    match scheduler e.src e.rev e.rev' s with
    | .dispatch s' => some s'
    | .returned _ => none
  else none

/-- The dispatches of the threads `ps`, with `revents` among `ok`. -/
def dispatches (ok : List ℕ) (mem : Ptr → Tcb) (ps : List Spec) : System Sched Entry where
  init s := s = schedulerStart (createAll mem ps)
  step := Entry.next ok

/-! ## The invariant -/

/-- The threads not yet freed, among the first `n`. -/
def Sched.alive (s : Sched) (n : ℕ) : List Ptr :=
  (List.range' 1 n).filter fun t => !s.freed t

/-- What the queues and the poll table hold of `n` created threads. -/
structure Queues (n : ℕ) (s : Sched) : Prop where
  nfds : s.nfds = n
  rq_nonneg : 0 ≤ s.rq_size
  wq_nonneg : 0 ≤ s.wq_size
  index : ∀ t ∈ List.range' 1 n, s.index t + 1 = t
  live : (s.ready ++ s.waiting).Perm (s.alive n)
  fds : ∀ t ∈ List.range' 1 n,
    (s.fdarray (s.index t)).fd = if t ∈ s.waiting then (s.tcb t).fd else -1

/-- `rq_current` is a slot of the ready queue. -/
def Current (s : Sched) : Prop :=
  0 ≤ s.rq_current ∧ s.rq_current < s.rq_size

/-- The state at a jump to `RUNNING -> environment`. -/
structure Dispatchable (n : ℕ) (s : Sched) : Prop extends Queues n s where
  current : Current s

namespace Queues

variable {n : ℕ} {s : Sched}

theorem mem_alive (h : Queues n s) {t : Ptr} (ht : t ∈ s.ready ++ s.waiting) :
    t ∈ List.range' 1 n ∧ s.freed t = false := by
  have := (h.live.mem_iff).1 ht
  simpa [Sched.alive, List.mem_filter] using this

theorem nodup (h : Queues n s) : (s.ready ++ s.waiting).Nodup :=
  h.live.nodup_iff.2 ((List.nodup_range' 1).filter _)

theorem index_lt (h : Queues n s) {t : Ptr} (ht : t ∈ List.range' 1 n) : s.index t < n := by
  have := h.index t ht
  rw [List.mem_range'_1] at ht
  omega

theorem index_inj (h : Queues n s) {t u : Ptr} (ht : t ∈ List.range' 1 n)
    (hu : u ∈ List.range' 1 n) (heq : s.index t = s.index u) : t = u := by
  rw [← h.index t ht, ← h.index u hu, heq]

theorem waiting_nodup (h : Queues n s) : (s.waiting.map s.index).Nodup := by
  refine List.Nodup.map_on (fun t ht u hu heq => ?_) (List.nodup_append.1 h.nodup).2.1
  exact h.index_inj (h.mem_alive (List.mem_append_right _ ht)).1
    (h.mem_alive (List.mem_append_right _ hu)).1 heq

/-- The sizes add up to the number of threads that have not exited. -/
theorem size_le (h : Queues n s) : s.rq_size + s.wq_size ≤ n := by
  have hlen := h.live.length_eq
  have hle : (s.alive n).length ≤ n := by
    refine (List.length_filter_le _ _).trans ?_
    rw [List.length_range']
  simp only [List.length_append, Sched.ready, Sched.waiting, length_queue] at hlen
  have := h.rq_nonneg
  have := h.wq_nonneg
  omega

/-! ## `poll` and `move_queue` -/

theorem poll_fd (rev : ℕ → ℕ) (s : Sched) (i : ℕ) :
    ((ThreadLib.poll rev s).fdarray i).fd = (s.fdarray i).fd := by
  simp only [ThreadLib.poll]
  split_ifs <;> rfl

theorem poll (h : Queues n s) (rev : ℕ → ℕ) : Queues n (poll rev s) := by
  refine ⟨h.nfds, h.rq_nonneg, h.wq_nonneg, h.index, h.live, fun t ht => ?_⟩
  rw [poll_fd]
  exact h.fds t ht

theorem of_moved (h : Queues n s) {s' : Sched} (hm : Moved s n s') : Queues n s' := by
  have hindex := hm.index
  refine ⟨hm.nfds.trans h.nfds, h.rq_nonneg.trans hm.rq_size, hm.wq_size, ?_, ?_, ?_⟩
  · rw [hindex]
    exact h.index
  · have halive : s'.alive n = s.alive n := by simp only [Sched.alive, hm.freed]
    rw [halive]
    exact hm.perm.trans h.live
  · intro t ht
    rw [hindex, hm.fdarray, hm.waiting, hm.tcb]
    have hlt := h.index_lt ht
    by_cases hev : (s.fdarray (s.index t)).revents = POLLIN
    · simp [hlt, hev]
    · have hfd := h.fds t ht
      simp only [hev, and_false, if_false, List.mem_filter, not_false_eq_true, decide_true,
        and_true]
      exact hfd

theorem moved (h : Queues n s) (rev : ℕ → ℕ) :
    Moved (ThreadLib.poll rev s) n (move_queue (ThreadLib.poll rev s)) := by
  have hp := h.poll rev
  have := move_queue_spec hp.rq_nonneg hp.wq_nonneg hp.waiting_nodup
  rwa [hp.nfds] at this

/-- A waiter whose descriptor reports an event, and what the event names, agree. -/
theorem waiting_of_event (h : Queues n s) {ok : List ℕ} {rev : ℕ → ℕ}
    (hpoll : PollResult ok rev s) {i : ℕ} (hi : i < n) (hev : rev i ≠ 0) :
    i + 1 ∈ s.waiting ∧ s.index (i + 1) = i := by
  have hmem : i + 1 ∈ List.range' 1 n := by
    rw [List.mem_range'_1]
    omega
  have hidx : s.index (i + 1) = i := by
    have := h.index _ hmem
    omega
  refine ⟨?_, hidx⟩
  have hfd := h.fds _ hmem
  rw [hidx] at hfd
  by_contra hnot
  rw [if_neg hnot] at hfd
  exact (hpoll i (h.nfds ▸ hi)).2 hev hfd

end Queues

/-- Without an entry that is exactly `POLLIN`, `move_queue` does nothing. -/
theorem move_queue_quiet {rev : ℕ → ℕ} {s : Sched} (h : ∀ i < s.nfds, rev i ≠ POLLIN) :
    move_queue (poll rev s) = poll rev s := by
  have hstay : ∀ m ≤ s.nfds,
      (List.range m).foldl (fun s i => moveEntry i s) (poll rev s) = poll rev s := by
    intro m hm
    induction m with
    | zero => rfl
    | succ m ih =>
      rw [List.range_succ, List.foldl_append, ih (by omega)]
      have hm' : m < s.nfds := by omega
      simp [moveEntry, poll, hm', h m hm']
  exact hstay s.nfds le_rfl

/-- Without events `move_queue` does nothing, so its guard does not matter. -/
theorem pollReady_eq (rev : ℕ → ℕ) (s : Sched) :
    pollReady rev s = move_queue (poll rev s) := by
  unfold pollReady
  split_ifs with h
  · rfl
  have hzero : ∀ i < s.nfds, rev i = 0 := by
    simpa [pollCount, List.countP_eq_zero] using h
  exact (move_queue_quiet fun i hi => by simp [hzero i hi, POLLIN]).symm

theorem Queues.pollReady {n : ℕ} {s : Sched} (h : Queues n s) (rev : ℕ → ℕ) :
    Queues n (pollReady rev s) := by
  rw [pollReady_eq]
  exact (h.poll rev).of_moved (h.moved rev)

/-- The first poll does not touch the running thread. -/
theorem pollReady_current {n : ℕ} {s : Sched} (h : Dispatchable n s) (rev : ℕ → ℕ) :
    Dispatchable n (pollReady rev s) ∧ (pollReady rev s).RUNNING = s.RUNNING := by
  have hm := h.moved rev
  have hq := h.toQueues.pollReady rev
  rw [pollReady_eq] at hq ⊢
  have hcur : (move_queue (poll rev s)).rq_current = s.rq_current := hm.rq_current
  have hle : s.rq_size ≤ (move_queue (poll rev s)).rq_size := hm.rq_size
  refine ⟨⟨hq, ?_, ?_⟩, ?_⟩
  · rw [hcur]
    exact h.current.1
  · rw [hcur]
    exact h.current.2.trans_le hle
  · rw [RUNNING, hcur]
    exact hm.slots _ h.current.2

/-! ## The switches -/

section Switch

variable {n : ℕ} {s : Sched}

theorem Dispatchable.running_mem (h : Dispatchable n s) : s.RUNNING ∈ s.ready :=
  mem_queue.2 ⟨s.rq_current, h.current.1, h.current.2, rfl⟩

theorem Dispatchable.running_created (h : Dispatchable n s) :
    s.RUNNING ∈ List.range' 1 n ∧ s.freed s.RUNNING = false :=
  h.mem_alive (List.mem_append_left _ h.running_mem)

theorem Dispatchable.running_not_waiting (h : Dispatchable n s) : s.RUNNING ∉ s.waiting :=
  fun hw => (List.nodup_append.1 h.nodup).2.2 _ h.running_mem _ hw rfl

/-- `fill` wraps `rq_current` unless the ready queue is empty. -/
theorem fill_current (h : Current s) (hne : (fill s).rq_size ≠ 0) : Current (fill s) := by
  obtain ⟨h0, hlt⟩ := h
  simp only [fill, Current] at hne ⊢
  split_ifs <;> omega

theorem waiting_park (hw : 0 ≤ s.wq_size) : (park s).waiting = s.waiting ++ [s.RUNNING] :=
  queue_push _ hw _

theorem queues_fill_park (h : Dispatchable n s) : Queues n (fill (park s)) := by
  have hperm : (s.RUNNING :: (fill (park s)).ready).Perm s.ready :=
    ready_fill_perm h.current.1 h.current.2
  have hwait : (fill (park s)).waiting = s.waiting ++ [s.RUNNING] := waiting_park h.wq_nonneg
  obtain ⟨hrun, -⟩ := h.running_created
  refine ⟨h.nfds, ?_, ?_, h.index, ?_, fun t ht => ?_⟩
  · have := h.current
    simp only [fill, park, Current] at this ⊢
    omega
  · have := h.wq_nonneg
    simp only [fill, park]
    omega
  · rw [hwait]
    refine List.Perm.trans ?_ h.live
    calc ((fill (park s)).ready ++ (s.waiting ++ [s.RUNNING])).Perm
          ((fill (park s)).ready ++ (s.RUNNING :: s.waiting)) :=
          (List.perm_append_singleton _ _).append_left _
      _ |>.Perm (s.RUNNING :: ((fill (park s)).ready ++ s.waiting)) := List.perm_middle
      _ |>.Perm (s.ready ++ s.waiting) := hperm.append_right _
  · rw [hwait]
    show ((park s).fdarray (s.index t)).fd = if _ then (s.tcb t).fd else -1
    by_cases heq : t = s.RUNNING
    · subst heq
      simp [park, Sched.index]
    · have hne : s.index t ≠ s.index s.RUNNING := fun hi => heq (h.index_inj ht hrun hi)
      have hfd : (park s).fdarray (s.index t) = s.fdarray (s.index t) :=
        Function.update_of_ne hne _ _
      rw [hfd, h.fds t ht]
      simp [heq]

/-- Freeing a thread takes it out of the threads not yet freed. -/
theorem alive_release (h : Dispatchable n s) :
    (s.alive n).Perm (s.RUNNING :: (release s).alive n) := by
  have hnd : (s.alive n).Nodup := (List.nodup_range' 1).filter _
  have hmem : s.RUNNING ∈ s.alive n :=
    h.live.mem_iff.1 (List.mem_append_left _ h.running_mem)
  have hrest : (release s).alive n = (s.alive n).erase s.RUNNING := by
    rw [hnd.erase_eq_filter, Sched.alive, Sched.alive, List.filter_filter]
    refine List.filter_congr fun t _ => ?_
    by_cases heq : t = s.RUNNING <;> simp [release, heq]
  rw [hrest]
  exact List.perm_cons_erase hmem

theorem queues_fill_release (h : Dispatchable n s) : Queues n (fill (release s)) := by
  have hperm : (s.RUNNING :: (fill (release s)).ready).Perm s.ready :=
    ready_fill_perm h.current.1 h.current.2
  refine ⟨h.nfds, ?_, h.wq_nonneg, h.index, ?_, h.fds⟩
  · have := h.current
    simp only [fill, release, Current] at this ⊢
    omega
  · have hcons : (s.RUNNING :: ((fill (release s)).ready ++ s.waiting)).Perm
        (s.RUNNING :: (release s).alive n) :=
      (hperm.append_right s.waiting).trans (h.live.trans (alive_release h))
    exact hcons.cons_inv

/-- Every switch keeps the queues, and `rq_current` is a slot unless no thread is ready. -/
theorem switch_spec (h : Dispatchable n s) (src : Src) :
    Queues n (switch src s) ∧ ((switch src s).rq_size ≠ 0 → Current (switch src s)) := by
  cases src with
  | signal =>
    refine ⟨⟨h.nfds, h.rq_nonneg, h.wq_nonneg, h.index, h.live, h.fds⟩, fun _ => ?_⟩
    have := h.current
    simp only [switch, Current] at this ⊢
    split_ifs <;> omega
  | asyncRead => exact ⟨queues_fill_park h, fill_current (s := park s) h.current⟩
  | exit => exact ⟨queues_fill_release h, fill_current (s := release s) h.current⟩

end Switch

/-! ## One entry -/

section Entry

variable {n : ℕ} {s : Sched}

theorem Entry.switched_spec (h : Dispatchable n s) (e : Entry) :
    Queues n (e.switched s) ∧ ((e.switched s).rq_size ≠ 0 → Current (e.switched s)) :=
  switch_spec (pollReady_current h e.rev).1 e.src

theorem freed_switch (h : Dispatchable n s) (src : Src) (rev : ℕ → ℕ) (u : Ptr) :
    (schedulerSwitch src rev s).freed u =
      if src = .exit ∧ u = s.RUNNING then true else s.freed u := by
  obtain ⟨-, hrun⟩ := pollReady_current h rev
  have hfreed : (pollReady rev s).freed = s.freed := by
    rw [pollReady_eq]
    exact (h.moved rev).freed
  cases src with
  | signal => simp [schedulerSwitch, switch, hfreed]
  | asyncRead => simp [schedulerSwitch, switch, fill, park, hfreed]
  | exit => simp [schedulerSwitch, switch, fill, release, hfreed, hrun, Function.update_apply]

/-- An entry that is exactly `POLLIN` makes the ready queue longer. -/
theorem move_queue_wakes (h : Queues n s) {ok : List ℕ} {rev : ℕ → ℕ}
    (hpoll : PollResult ok rev s) (hev : ∃ i < n, rev i = POLLIN) :
    s.rq_size < (move_queue (poll rev s)).rq_size := by
  have hm := h.moved rev
  obtain ⟨i, hi, hin⟩ := hev
  obtain ⟨hwait, hidx⟩ := h.waiting_of_event hpoll hi (by simp [hin, POLLIN])
  have hwoken : i + 1 ∈ woken (poll rev s) n := by
    refine List.mem_flatMap.2 ⟨i, List.mem_range.2 hi, ?_⟩
    have hrev : ((poll rev s).fdarray i).revents = POLLIN := by
      simp [poll, h.nfds, hi, hin]
    rw [if_pos hrev]
    exact List.mem_filter.2 ⟨hwait, decide_eq_true hidx⟩
  have hlen := congrArg List.length hm.ready
  have hpos := List.length_pos_of_mem hwoken
  have hr : (poll rev s).rq_size = s.rq_size := rfl
  simp only [Sched.ready, List.length_append, length_queue, hr] at hlen
  have := h.rq_nonneg
  omega

/-- The blocking poll wakes a thread as soon as one entry is exactly `POLLIN`. -/
theorem pollBlocking_dispatchable (h : Queues n s) {ok : List ℕ} {rev : ℕ → ℕ}
    (hpoll : PollResult ok rev s) (hev : ∃ i < n, rev i = POLLIN) :
    Dispatchable n (pollBlocking rev s) := by
  have hq := (h.poll rev).of_moved (h.moved rev)
  exact ⟨⟨hq.nfds, hq.rq_nonneg, hq.wq_nonneg, hq.index, hq.live, hq.fds⟩, le_rfl,
    h.rq_nonneg.trans_lt (move_queue_wakes h hpoll hev)⟩

/-- `scheduler` in the terms of `switched`. -/
theorem scheduler_eq (e : Entry) (s : Sched) :
    scheduler e.src e.rev e.rev' s =
      if (e.switched s).rq_size = 0 then
        if (e.switched s).wq_size = 0 then .returned (e.switched s)
        else .dispatch (pollBlocking e.rev' (e.switched s))
      else .dispatch (e.switched s) :=
  rfl

/-- A dispatch comes with a possible entry, after the switch or after the blocking poll. -/
theorem Entry.next_cases {ok : List ℕ} {e : Entry} {s' : Sched} (h : e.next ok s = some s') :
    e.Possible ok s ∧
      (((e.switched s).rq_size ≠ 0 ∧ s' = e.switched s) ∨
        ((e.switched s).rq_size = 0 ∧ (e.switched s).wq_size ≠ 0 ∧
          s' = pollBlocking e.rev' (e.switched s))) := by
  unfold Entry.next at h
  rw [scheduler_eq] at h
  split_ifs at h with hp hr hw
  · exact ⟨hp, Or.inr ⟨hr, hw, (Option.some.inj h).symm⟩⟩
  · exact ⟨hp, Or.inl ⟨hr, (Option.some.inj h).symm⟩⟩

/-- An entry whose polls report `0` or `POLLIN` ends in a dispatchable state. -/
theorem Dispatchable.next (h : Dispatchable n s) {e : Entry} {s' : Sched}
    (hnext : e.next [0, POLLIN] s = some s') : Dispatchable n s' := by
  obtain ⟨hq, hcur⟩ := e.switched_spec h
  obtain ⟨⟨-, hblock⟩, ⟨hr, rfl⟩ | ⟨hr, hw, rfl⟩⟩ := e.next_cases hnext
  · exact ⟨hq, hcur hr⟩
  · obtain ⟨hpoll, i, hi, hev⟩ := hblock hr hw
    refine pollBlocking_dispatchable hq hpoll ⟨i, hq.nfds ▸ hi, ?_⟩
    have hmem := (hpoll i hi).1
    simp only [List.mem_cons, List.not_mem_nil, or_false] at hmem
    exact hmem.resolve_left hev

end Entry

/-! ## Creation -/

theorem Queues.thread_setup {n : ℕ} {s : Sched} (h : Queues n s) (p : Spec) :
    Queues (n + 1) (thread_setup p s) := by
  have hrange : List.range' 1 (n + 1) = List.range' 1 n ++ [n + 1] := by
    rw [List.range'_1_concat, Nat.add_comm]
  have hready : (ThreadLib.thread_setup p s).ready = s.ready ++ [n + 1] := by
    rw [← h.nfds]
    exact queue_push _ h.rq_nonneg _
  have hnew : ∀ t ∈ List.range' 1 n, t ≠ s.nfds + 1 := by
    intro t ht
    rw [List.mem_range'_1] at ht
    have := h.nfds
    omega
  have hnot : n + 1 ∉ s.waiting := fun hw =>
    hnew _ (h.mem_alive (List.mem_append_right _ hw)).1 (by rw [h.nfds])
  refine ⟨by simp [ThreadLib.thread_setup, h.nfds], ?_, h.wq_nonneg, ?_, ?_, ?_⟩
  · have := h.rq_nonneg
    simp only [ThreadLib.thread_setup]
    omega
  · intro t ht
    rw [hrange, List.mem_append, List.mem_singleton] at ht
    rcases ht with ht | rfl
    · simpa [Sched.index, ThreadLib.thread_setup, Function.update_of_ne (hnew t ht)]
        using h.index t ht
    · simp [Sched.index, ThreadLib.thread_setup, h.nfds]
  · have halive : (ThreadLib.thread_setup p s).alive (n + 1) = s.alive n ++ [n + 1] := by
      rw [Sched.alive, hrange, List.filter_append]
      congr 1
      · refine List.filter_congr fun t ht => ?_
        simp [ThreadLib.thread_setup, Function.update_of_ne (hnew t ht)]
      · simp [ThreadLib.thread_setup, h.nfds]
    rw [halive, hready]
    show ((s.ready ++ [n + 1]) ++ s.waiting).Perm _
    calc ((s.ready ++ [n + 1]) ++ s.waiting).Perm ((s.ready ++ s.waiting) ++ [n + 1]) := by
          rw [List.append_assoc, List.append_assoc]
          exact List.perm_append_comm.append_left _
      _ |>.Perm (s.alive n ++ [n + 1]) := h.live.append_right _
  · intro t ht
    rw [hrange, List.mem_append, List.mem_singleton] at ht
    show ((ThreadLib.thread_setup p s).fdarray _).fd = if t ∈ s.waiting then _ else -1
    rcases ht with ht | rfl
    · have hidx := h.index_lt ht
      have hlt : s.index t ≠ s.nfds := by
        rw [h.nfds]
        omega
      have hfd := h.fds t ht
      simpa [Sched.index, ThreadLib.thread_setup, Function.update_of_ne (hnew t ht),
        Function.update_of_ne hlt] using hfd
    · rw [if_neg hnot]
      simp [Sched.index, ThreadLib.thread_setup, h.nfds]

theorem queues_globals (mem : Ptr → Tcb) : Queues 0 (globals mem) :=
  ⟨rfl, le_rfl, le_rfl, by simp, by simp [Sched.ready, Sched.waiting, Sched.alive, globals],
    by simp⟩

theorem createAll_snoc (mem : Ptr → Tcb) (ps : List Spec) (p : Spec) :
    createAll mem (ps ++ [p]) = thread_setup p (createAll mem ps) := by
  simp [createAll]

theorem queues_createAll (mem : Ptr → Tcb) (ps : List Spec) :
    Queues ps.length (createAll mem ps) := by
  induction ps using List.reverseRecOn with
  | nil => exact queues_globals mem
  | append_singleton ps p ih =>
    rw [createAll_snoc, List.length_append]
    exact ih.thread_setup p

theorem rq_size_createAll (mem : Ptr → Tcb) (ps : List Spec) :
    (createAll mem ps).rq_size = ps.length := by
  induction ps using List.reverseRecOn with
  | nil => rfl
  | append_singleton ps p ih =>
    rw [createAll_snoc]
    simp [thread_setup, ih]

theorem wq_size_createAll (mem : Ptr → Tcb) (ps : List Spec) :
    (createAll mem ps).wq_size = 0 := by
  induction ps using List.reverseRecOn with
  | nil => rfl
  | append_singleton ps p ih =>
    rw [createAll_snoc]
    simp [thread_setup, ih]

theorem freed_createAll (mem : Ptr → Tcb) (ps : List Spec) (t : Ptr) :
    (createAll mem ps).freed t = false := by
  induction ps using List.reverseRecOn with
  | nil => rfl
  | append_singleton ps p ih =>
    rw [createAll_snoc]
    simp [thread_setup, Function.update_apply, ih]

/-- The first dispatch. -/
theorem dispatchable_start (mem : Ptr → Tcb) {ps : List Spec} (hps : 1 ≤ ps.length) :
    Dispatchable ps.length (schedulerStart (createAll mem ps)) := by
  have h := queues_createAll mem ps
  refine ⟨⟨h.nfds, h.rq_nonneg, h.wq_nonneg, h.index, h.live, h.fds⟩, le_rfl, ?_⟩
  show (0 : ℤ) < (createAll mem ps).rq_size
  rw [rq_size_createAll]
  omega

/-- Every dispatch with polls that report `0` or `POLLIN` is dispatchable. -/
theorem dispatchable_of_reachable {mem : Ptr → Tcb} {ps : List Spec} (hps : 1 ≤ ps.length)
    {s : Sched} (h : (dispatches [0, POLLIN] mem ps).Reachable s) : Dispatchable ps.length s := by
  refine h.invariant (fun s hs => ?_) fun e s s' hs hstep => hs.next hstep
  subst hs
  exact dispatchable_start mem hps

/-- The entry is the `thread_exit` of the thread `t`. -/
def Entry.Exits (t : Ptr) (e : Entry) (s : Sched) : Prop :=
  e.src = .exit ∧ s.RUNNING = t

/-- The thread `t` has called `thread_exit` in the run `es`. -/
def Exited (mem : Ptr → Tcb) (ps : List Spec) (es : List Entry) (t : Ptr) : Prop :=
  (dispatches [0, POLLIN] mem ps).SomeStep (Entry.Exits t) es (schedulerStart (createAll mem ps))

/-- The block of a thread is given back exactly by its `thread_exit`. -/
theorem freed_switched {n : ℕ} {s : Sched} (h : Dispatchable n s) (e : Entry) (t : Ptr) :
    (e.switched s).freed t = true ↔ s.freed t = true ∨ e.Exits t s := by
  rw [show (e.switched s).freed t = _ from freed_switch h e.src e.rev t, Entry.Exits]
  split_ifs with hexit
  · simp [hexit.1, hexit.2]
  · refine (or_iff_left fun hc => hexit ⟨hc.1, hc.2.symm⟩).symm

theorem freed_next {n : ℕ} {s s' : Sched} (h : Dispatchable n s) {e : Entry}
    (hnext : e.next [0, POLLIN] s = some s') (t : Ptr) :
    s'.freed t = true ↔ s.freed t = true ∨ e.Exits t s := by
  rw [← freed_switched h e t]
  obtain ⟨-, ⟨-, rfl⟩ | ⟨-, -, rfl⟩⟩ := e.next_cases hnext
  · rfl
  · obtain ⟨hq, -⟩ := e.switched_spec h
    show (move_queue (poll e.rev' (e.switched s))).freed t = true ↔ _
    rw [(hq.moved e.rev').freed]
    rfl

/-- The blocks given back are those of the threads that have called `thread_exit`. -/
theorem freed_iff_exited {mem : Ptr → Tcb} {ps : List Spec} (hps : 1 ≤ ps.length)
    {es : List Entry} {s : Sched}
    (hrun : (dispatches [0, POLLIN] mem ps).run es (schedulerStart (createAll mem ps)) = some s)
    (t : Ptr) : s.freed t = true ↔ Exited mem ps es t := by
  have hstart : (schedulerStart (createAll mem ps)).freed t = false := freed_createAll mem ps t
  have hiff := System.iff_someStep (S := dispatches [0, POLLIN] mem ps)
    (F := fun s => s.freed t = true) (fun e s s' hs hstep => Dispatchable.next hs hstep)
    (fun e s s' hs hstep => freed_next hs hstep t) es (dispatchable_start mem hps) hrun
  rw [hiff, hstart]
  exact or_iff_right Bool.false_ne_true

/-- No thread is lost or duplicated. At every jump to `RUNNING -> environment`, a created
thread that has not called `thread_exit` is in exactly one slot of the two queues and no
other thread is, `rq_current` is a slot of the ready queue, the sizes add up to at most the
number of threads, and the poll table carries the descriptors of the waiting threads and no
other. `scheduler` returns only when every created thread has called `thread_exit`, the last
one to enter it. -/
theorem scheduler_no_loss {mem : Ptr → Tcb} {ps : List Spec} (hps : 1 ≤ ps.length)
    {es : List Entry} {s : Sched}
    (hrun : (dispatches [0, POLLIN] mem ps).run es (schedulerStart (createAll mem ps)) = some s) :
    (∀ t ∈ List.range' 1 ps.length, ¬Exited mem ps es t → (s.ready ++ s.waiting).count t = 1) ∧
      (∀ t ∈ s.ready ++ s.waiting, t ∈ List.range' 1 ps.length ∧ ¬Exited mem ps es t) ∧
      (∀ t, s.freed t = true ↔ Exited mem ps es t) ∧
      (0 ≤ s.rq_current ∧ s.rq_current < s.rq_size ∧ s.rq_size + s.wq_size ≤ ps.length) ∧
      (∀ t ∈ List.range' 1 ps.length, (s.fdarray (s.tcb t).fd_index).fd =
        if t ∈ s.waiting then (s.tcb t).fd else -1) ∧
      ∀ (e : Entry) (s' : Sched), e.Possible [0, POLLIN] s →
        scheduler e.src e.rev e.rev' s = .returned s' →
          ∀ t ∈ List.range' 1 ps.length,
            s'.freed t = true ∧ (Exited mem ps es t ∨ e.src = .exit ∧ s.RUNNING = t) := by
  have hd : Dispatchable ps.length s := dispatchable_of_reachable hps ⟨_, es, rfl, hrun⟩
  have hfreed := freed_iff_exited hps hrun
  have halive : ∀ t, s.freed t = false ↔ ¬Exited mem ps es t := fun t => by
    rw [← hfreed t, Bool.not_eq_true]
  refine ⟨fun t ht hf => ?_, fun t ht => ?_, hfreed, ⟨hd.current.1, hd.current.2, hd.size_le⟩,
    hd.fds, fun e s' _ hret t ht => ?_⟩
  · refine List.count_eq_one_of_mem hd.nodup (hd.live.mem_iff.2 ?_)
    simpa [Sched.alive, ht] using (halive t).2 hf
  · obtain ⟨hmem, hf⟩ := hd.mem_alive ht
    exact ⟨hmem, (halive t).1 hf⟩
  · obtain ⟨hq, -⟩ := e.switched_spec hd
    rw [scheduler_eq] at hret
    split_ifs at hret with hr hw
    obtain rfl := Outcome.returned.inj hret
    have hnone : (e.switched s).alive ps.length = [] := by
      have hempty : (e.switched s).ready ++ (e.switched s).waiting = [] := by
        simp [Sched.ready, Sched.waiting, hr, hw]
      exact List.perm_nil.1 (hempty ▸ hq.live.symm)
    have hgone : (e.switched s).freed t = true := by
      simpa using List.filter_eq_nil_iff.1 hnone t ht
    exact ⟨hgone, ((freed_switched hd e t).1 hgone).imp_left (hfreed t).1⟩

/-- Memory as `malloc` may hand it out. -/
def blank : Tcb :=
  ⟨⟨0, ⟨.fibonacci, .setup⟩, 0, [], 0, 0, 0⟩, 0, 0⟩

/-- The threads of `./main 3 4 -1 2`. -/
def samplePair : List Spec :=
  [⟨.fibonacci, 0, 4, blank, 5⟩, ⟨.max_subarray, 2, 2, blank, 6⟩]

/-- The first thread waits, the second exits, the blocking poll wakes the first. -/
def wakeup : List Entry :=
  [⟨.asyncRead, fun _ => 0, fun _ => 0⟩,
    ⟨.exit, fun _ => 0, fun i => if i = 0 then POLLIN else 0⟩]

/-- The thread that waited has not exited and is ready, the other one has exited. -/
theorem scheduler_no_loss_wakeup : ∃ s,
    (dispatches [0, POLLIN] (fun _ => blank) samplePair).run wakeup
      (schedulerStart (createAll (fun _ => blank) samplePair)) = some s ∧
      s.ready = [1] ∧ Exited (fun _ => blank) samplePair wakeup 2 ∧
      ¬Exited (fun _ => blank) samplePair wakeup 1 ∧ (s.ready ++ s.waiting).count 1 = 1 := by
  have hno := @scheduler_no_loss (fun _ => blank) samplePair (by decide) wakeup _
    (Option.some_get (by decide)).symm
  have hone : ¬Exited (fun _ => blank) samplePair wakeup 1 := by
    rw [← hno.2.2.1 1]
    decide
  exact ⟨_, (Option.some_get (by decide)).symm, by decide, (hno.2.2.1 2).1 (by decide), hone,
    hno.1 1 (by decide) hone⟩

end SP2022.ThreadLib
