import SP2022.SchedulerInvariant

/-!
# Dispatches when a writer hangs up

`move_queue` tests `revents == POLLIN`. A FIFO whose writer has written and closed it
reports `POLLIN | POLLHUP`, and one whose writer has only closed it `POLLHUP`; the
test fails on both, the waiting thread stays where it is, and after a blocking poll the
jump to `RUNNING -> environment` goes through a stale slot of an empty ready queue
(`dispatch_unsafe_hangup`). `dispatch_safe_iff` says when a run is safe : at every entry
the poll before the jump reports no `POLLIN | POLLHUP`, and a blocking poll reports
`POLLIN` alone for some entry (`Entry.Tame`).
-/

namespace SP2022.ThreadLib

open Sched

/-- What `poll` may report of a FIFO that was written, closed, or both. -/
def hangups : List ℕ :=
  [0, POLLIN, POLLHUP, POLLIN ||| POLLHUP]

/-- The running thread is in the ready queue and waits nowhere, no thread is queued
twice, and no thread waits whose `revents` contains `POLLIN`. -/
structure DispatchSafe (s : Sched) : Prop where
  rq_size : 0 ≤ s.rq_size
  running : s.RUNNING ∈ s.ready
  not_waiting : s.RUNNING ∉ s.waiting
  nodup : (s.ready ++ s.waiting).Nodup
  moved : ∀ t ∈ s.waiting, (s.fdarray (s.index t)).revents &&& POLLIN = 0

/-- The entry takes the last ready thread off, its first poll wakes none, and a thread
waits : `scheduler` blocks. -/
def Entry.Blocks (e : Entry) (s : Sched) : Prop :=
  e.src ≠ .signal ∧ s.rq_size = 1 ∧ (∀ i < s.nfds, e.rev i ≠ POLLIN) ∧
    (e.src = .asyncRead ∨ s.wq_size ≠ 0)

/-- The polls of the entry avoid what `move_queue` does not recognise. -/
def Entry.Tame (e : Entry) (s : Sched) : Prop :=
  (¬e.Blocks s → ∀ i < s.nfds, e.rev i ≠ POLLIN ||| POLLHUP) ∧
    (e.Blocks s →
      (∀ i < s.nfds, e.rev' i ≠ POLLIN ||| POLLHUP) ∧ ∃ i < s.nfds, e.rev' i = POLLIN)

instance (e : Entry) (s : Sched) : Decidable (e.Blocks s) :=
  inferInstanceAs (Decidable (_ ∧ _ ∧ _ ∧ _))

instance (e : Entry) (s : Sched) : Decidable (e.Tame s) :=
  inferInstanceAs (Decidable ((_ → _) ∧ (_ → _)))

section Step

variable {n : ℕ} {s : Sched}

/-- A poll leaves no waiter with `POLLIN` unless it reported `POLLIN | POLLHUP`. -/
theorem moved_iff (h : Queues n s) {rev : ℕ → ℕ} (hpoll : PollResult hangups rev s) :
    (∀ t ∈ (move_queue (poll rev s)).waiting,
      ((move_queue (poll rev s)).fdarray (s.index t)).revents &&& POLLIN = 0) ↔
        ∀ i < n, rev i ≠ POLLIN ||| POLLHUP := by
  have hm := h.moved rev
  have hrev : ∀ i < n, ((poll rev s).fdarray i).revents = rev i := fun i hi => by
    simp [poll, h.nfds, hi]
  have hwait : ∀ t, t ∈ (move_queue (poll rev s)).waiting ↔
      t ∈ s.waiting ∧ rev (s.index t) ≠ POLLIN := by
    intro t
    rw [hm.waiting, List.mem_filter]
    refine and_congr_right fun ht => ?_
    have hlt : s.index t < n := h.index_lt (h.mem_alive (List.mem_append_right _ ht)).1
    have hlt' : (poll rev s).index t < n := hlt
    have hev : ((poll rev s).fdarray ((poll rev s).index t)).revents = rev (s.index t) :=
      hrev _ hlt
    simp [hlt', hev]
  have hout : ∀ t ∈ s.waiting, rev (s.index t) ≠ POLLIN →
      ((move_queue (poll rev s)).fdarray (s.index t)).revents = rev (s.index t) := by
    intro t ht hne
    have hlt : s.index t < n := h.index_lt (h.mem_alive (List.mem_append_right _ ht)).1
    rw [hm.fdarray, hrev _ hlt, if_neg fun hc => hne hc.2, hrev _ hlt]
  constructor
  · intro hall i hi hboth
    obtain ⟨ht, hidx⟩ := h.waiting_of_event hpoll hi (by simp [hboth, POLLIN, POLLHUP])
    have hne : rev (s.index (i + 1)) ≠ POLLIN := by
      rw [hidx, hboth]
      decide
    have := hall (i + 1) ((hwait _).2 ⟨ht, hne⟩)
    rw [hout _ ht hne, hidx, hboth] at this
    exact absurd this (by decide)
  · intro hnone t ht
    obtain ⟨hw, hne⟩ := (hwait t).1 ht
    have hlt : s.index t < n := h.index_lt (h.mem_alive (List.mem_append_right _ hw)).1
    rw [hout t hw hne]
    have hmem := (hpoll _ (h.nfds.symm ▸ hlt)).1
    have hboth := hnone _ hlt
    simp only [hangups, List.mem_cons, List.not_mem_nil, or_false] at hmem
    rcases hmem with h0 | h0 | h0 | h0
    · rw [h0]
      decide
    · exact absurd h0 hne
    · rw [h0]
      decide
    · exact absurd h0 hboth

/-- The running thread has no event. -/
theorem revents_running (h : Dispatchable n s) {e : Entry} (hpoll : PollResult hangups e.rev s) :
    ((move_queue (poll e.rev s)).fdarray (s.index s.RUNNING)).revents = 0 := by
  obtain ⟨hmem, -⟩ := h.running_created
  have hlt := h.index_lt hmem
  have hfd := h.fds _ hmem
  rw [if_neg h.running_not_waiting] at hfd
  have hzero : e.rev (s.index s.RUNNING) = 0 := by
    by_contra hne
    exact (hpoll _ (h.nfds.symm ▸ hlt)).2 hne hfd
  have hr : ((poll e.rev s).fdarray (s.index s.RUNNING)).revents = 0 := by
    simp [poll, h.nfds, hlt, hzero]
  rw [(h.moved e.rev).fdarray]
  split_ifs
  · rfl
  · exact hr

/-- The switch leaves the waiters of the poll and their `revents`, and parks at most a
thread without events. -/
theorem switched_moved_iff (h : Dispatchable n s) {e : Entry}
    (hpoll : PollResult hangups e.rev s) :
    (∀ t ∈ (e.switched s).waiting,
      ((e.switched s).fdarray ((e.switched s).index t)).revents &&& POLLIN = 0) ↔
        ∀ i < n, e.rev i ≠ POLLIN ||| POLLHUP := by
  rw [← moved_iff h.toQueues hpoll]
  obtain ⟨hcur, hrun⟩ := pollReady_current h e.rev
  have hm := h.moved e.rev
  rw [pollReady_eq] at hcur hrun
  have hindex : (move_queue (poll e.rev s)).index = s.index := hm.index
  unfold Entry.switched schedulerSwitch
  rw [pollReady_eq]
  set m := move_queue (poll e.rev s) with hmdef
  cases hsrc : e.src with
  | signal =>
    show (∀ t ∈ m.waiting, (m.fdarray (m.index t)).revents &&& POLLIN = 0) ↔ _
    rw [hindex]
  | exit =>
    show (∀ t ∈ m.waiting, (m.fdarray (m.index t)).revents &&& POLLIN = 0) ↔ _
    rw [hindex]
  | asyncRead =>
    have hwait : (fill (park m)).waiting = m.waiting ++ [m.RUNNING] := waiting_park hcur.wq_nonneg
    have hrevents : ∀ i, ((fill (park m)).fdarray i).revents = (m.fdarray i).revents := by
      intro i
      simp only [fill, park, Function.update_apply]
      split_ifs with hi
      · rw [hi]
      · rfl
    have hidx : (fill (park m)).index = s.index := hindex
    have hparked' : (m.fdarray (s.index m.RUNNING)).revents &&& POLLIN = 0 := by
      rw [hrun, hmdef, revents_running h hpoll]
      decide
    show (∀ t ∈ (fill (park m)).waiting, ((fill (park m)).fdarray
      ((fill (park m)).index t)).revents &&& POLLIN = 0) ↔ _
    rw [hidx]
    simp only [hwait, hrevents, List.mem_append, List.mem_singleton]
    constructor
    · exact fun hall t ht => hall t (Or.inl ht)
    · rintro hall t (ht | rfl)
      · exact hall t ht
      · exact hparked'

/-- `Blocks` reads the state before the entry; it is the test the code makes after the
switch. -/
theorem blocks_iff (h : Dispatchable n s) {ok : List ℕ} {e : Entry}
    (hpoll : PollResult ok e.rev s) :
    e.Blocks s ↔ (e.switched s).rq_size = 0 ∧ (e.switched s).wq_size ≠ 0 := by
  have hm := h.moved e.rev
  have hge : s.rq_size ≤ (move_queue (poll e.rev s)).rq_size := hm.rq_size
  have hw := hm.wq_size
  have hcur := h.current
  unfold Current at hcur
  unfold Entry.Blocks Entry.switched schedulerSwitch
  rw [pollReady_eq]
  by_cases hquiet : ∀ i < s.nfds, e.rev i ≠ POLLIN
  · have hw' := h.wq_nonneg
    rw [move_queue_quiet hquiet]
    simp only [iff_true_intro hquiet, true_and]
    cases e.src <;> simp [switch, fill, park, release, poll] <;> omega
  · have hwake : s.rq_size < (move_queue (poll e.rev s)).rq_size := by
      push Not at hquiet
      obtain ⟨i, hi, hin⟩ := hquiet
      exact move_queue_wakes h.toQueues hpoll ⟨i, h.nfds ▸ hi, hin⟩
    simp only [iff_false_intro hquiet, false_and, and_false, false_iff, not_and]
    cases e.src <;> simp [switch, fill, park, release] <;> omega

theorem Dispatchable.safe (h : Dispatchable n s)
    (hmoved : ∀ t ∈ s.waiting, (s.fdarray (s.index t)).revents &&& POLLIN = 0) :
    DispatchSafe s :=
  ⟨h.rq_nonneg, h.running_mem, h.running_not_waiting, h.nodup, hmoved⟩

/-- One entry from a dispatchable state : the next dispatch is safe exactly if the entry
is tame, and then it is dispatchable. -/
theorem next_safe_iff (h : Dispatchable n s) {e : Entry} {s' : Sched}
    (hnext : e.next hangups s = some s') :
    (DispatchSafe s' ↔ e.Tame s) ∧ (e.Tame s → Dispatchable n s') := by
  obtain ⟨hq, hcur⟩ := e.switched_spec h
  obtain ⟨⟨hpoll, hblock⟩, ⟨hr, rfl⟩ | ⟨hr, hw, rfl⟩⟩ := e.next_cases hnext
  · have hnb : ¬e.Blocks s := fun hb => hr ((blocks_iff h hpoll).1 hb).1
    have hd : Dispatchable n (e.switched s) := ⟨hq, hcur hr⟩
    refine ⟨?_, fun _ => hd⟩
    have hmoved := switched_moved_iff h hpoll
    rw [← h.nfds] at hmoved
    constructor
    · exact fun hs => ⟨fun _ => hmoved.1 hs.moved, fun hb => absurd hb hnb⟩
    · exact fun ht => hd.safe (hmoved.2 (ht.1 hnb))
  · have hb : e.Blocks s := (blocks_iff h hpoll).2 ⟨hr, hw⟩
    obtain ⟨hpoll', -⟩ := hblock hr hw
    have hm := hq.moved e.rev'
    have hindex : (pollBlocking e.rev' (e.switched s)).index = (e.switched s).index := by
      funext t
      show ((move_queue (poll e.rev' (e.switched s))).tcb t).fd_index = _
      rw [hm.tcb]
      rfl
    have hmoved := moved_iff hq hpoll'
    have hexact : (∃ i < n, e.rev' i = POLLIN) →
        Dispatchable n (pollBlocking e.rev' (e.switched s)) :=
      pollBlocking_dispatchable hq hpoll'
    have hiff : DispatchSafe (pollBlocking e.rev' (e.switched s)) ↔ e.Tame s := by
      constructor
      · intro hs
        refine ⟨fun hnb => absurd hb hnb, fun _ => ?_⟩
        rw [h.nfds]
        refine ⟨hmoved.1 (hindex ▸ hs.moved), ?_⟩
        by_contra hnone
        push Not at hnone
        have hquiet := @move_queue_quiet e.rev' (e.switched s)
          fun i hi => hnone i (hq.nfds ▸ hi)
        have hsize : (pollBlocking e.rev' (e.switched s)).rq_size = 0 := by
          rw [pollBlocking, hquiet]
          exact hr
        have := hs.running
        simp [Sched.ready, hsize] at this
      · intro ht
        obtain ⟨hnone, hex⟩ := ht.2 hb
        rw [h.nfds] at hnone hex
        refine (hexact hex).safe ?_
        rw [hindex]
        exact hmoved.2 hnone
    refine ⟨hiff, fun ht => hexact ?_⟩
    have := (ht.2 hb).2
    rwa [h.nfds] at this

end Step

/-- Every dispatch of a run is safe if and only if every entry of it is tame. -/
theorem dispatch_safe_iff {mem : Ptr → Tcb} {ps : List Spec} (hps : 1 ≤ ps.length)
    {es : List Entry} {t : Sched}
    (hrun : (dispatches hangups mem ps).run es (schedulerStart (createAll mem ps)) = some t) :
    (dispatches hangups mem ps).Throughout DispatchSafe es (schedulerStart (createAll mem ps)) ↔
      (dispatches hangups mem ps).EachStep Entry.Tame es
        (schedulerStart (createAll mem ps)) := by
  have hstart := dispatchable_start mem hps
  have hnone : (schedulerStart (createAll mem ps)).waiting = [] := by
    have hw : (createAll mem ps).wq_size = 0 := wq_size_createAll mem ps
    simp [Sched.waiting, schedulerStart, hw]
  refine System.throughout_iff_eachStep
    (G := fun s => Dispatchable ps.length s ∧ DispatchSafe s) (fun s hs => hs.2)
    (fun e s t hs hstep => (next_safe_iff hs.1 hstep).1)
    (fun e s t hs hstep hc => ?_) es ⟨hstart, hstart.safe (by simp [hnone])⟩ hrun
  obtain ⟨hiff, hkeep⟩ := next_safe_iff hs.1 hstep
  exact ⟨hkeep hc, hiff.2 hc⟩

/-- The threads of `./main 3 -1 -1 2`. -/
def sampleReader : List Spec :=
  [⟨.max_subarray, 2, 2, blank, 5⟩]

/-- The record arrives while the writer keeps the FIFO open. -/
theorem dispatch_safe_record :
    (dispatches hangups (fun _ => blank) sampleReader).Throughout DispatchSafe
      [⟨.asyncRead, fun _ => 0, fun _ => POLLIN⟩]
      (schedulerStart (createAll (fun _ => blank) sampleReader)) := by
  obtain ⟨s, hstep⟩ : ∃ s, (dispatches hangups (fun _ => blank) sampleReader).step
      ⟨.asyncRead, fun _ => 0, fun _ => POLLIN⟩
      (schedulerStart (createAll (fun _ => blank) sampleReader)) = some s :=
    Option.isSome_iff_exists.1 (by decide)
  refine (dispatch_safe_iff (by decide) ((System.run_cons _).2 ⟨s, hstep, rfl⟩)).2 ?_
  exact (System.eachStep_cons hstep).2 ⟨by decide, System.eachStep_nil⟩

/-- One waiting thread whose writer wrote a record and closed the FIFO. The blocking poll
reports `POLLIN | POLLHUP`, nothing is moved, and the jump goes through a stale slot of
an empty ready queue. The next `async_read` makes `rq_size` negative and queues the
thread a second time. -/
theorem dispatch_unsafe_hangup : ∃ s s',
    (dispatches hangups (fun _ => blank) sampleReader).run
      [⟨.asyncRead, fun _ => 0, fun _ => POLLIN ||| POLLHUP⟩]
      (schedulerStart (createAll (fun _ => blank) sampleReader)) = some s ∧
      s.ready = [] ∧ s.RUNNING = 1 ∧ s.waiting = [1] ∧ ¬DispatchSafe s ∧
      (dispatches hangups (fun _ => blank) sampleReader).run
        [⟨.asyncRead, fun _ => POLLIN ||| POLLHUP, fun _ => 0⟩] s = some s' ∧
      s'.rq_size = -1 ∧ s'.waiting = [1, 1] := by
  refine ⟨_, _, (Option.some_get (by decide)).symm, by decide, by decide, by decide, ?_,
    (Option.some_get (by decide)).symm, by decide, by decide⟩
  intro h
  exact absurd h.running (by decide)

end SP2022.ThreadLib
