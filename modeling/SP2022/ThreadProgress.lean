import SP2022.ThreadTracking

/-!
# Every thread can go on

From every state it has reached, the program can go on to the next turn of any thread that has
not exited, with no record more than the thread needs (`exists_turns`). With a signal pending
at every `thread_yield` each turn ends in `scheduler`, which comes closer to a ready thread or
loses a thread before it (`exists_slot_switch`); a thread that waits is woken by a poll that
reports its record (`exists_wakeup`).
-/

namespace SP2022.ThreadLib
open Sched

/-! ## The scheduler comes to every ready thread -/

section Slots

variable {n : ℕ} {s : Sched}

/-- The slots that the scheduler goes through from the running thread to the slot `k`. -/
def Sched.distance (s : Sched) (k : ℤ) : ℤ :=
  if s.rq_current ≤ k then k - s.rq_current else k - s.rq_current + s.rq_size

/-- A switch without wake-ups brings every ready thread closer, or shortens the queue before
it. -/
theorem exists_slot_switch (h : Dispatchable n s) (src : Src) {k : ℤ} (h0 : 0 ≤ k)
    (hk : k < s.rq_size) (hne : k ≠ s.rq_current) :
    ∃ k', 0 ≤ k' ∧ k' < (schedulerSwitch src (fun _ => 0) s).rq_size ∧
      (schedulerSwitch src (fun _ => 0) s).ready_queue k' = s.ready_queue k ∧
      (schedulerSwitch src (fun _ => 0) s).rq_size +
          (schedulerSwitch src (fun _ => 0) s).distance k' <
        s.rq_size + s.distance k := by
  have hquiet : pollReady (fun _ => 0) s = poll (fun _ => 0) s := by
    rw [pollReady_eq, move_queue_quiet fun _ _ => by decide]
  obtain ⟨hc0, hc⟩ := h.current
  have hfill : ∀ s' : Sched, s'.ready_queue = s.ready_queue → s'.rq_size = s.rq_size →
      s'.rq_current = s.rq_current → ∃ k', 0 ≤ k' ∧ k' < (fill s').rq_size ∧
        (fill s').ready_queue k' = s.ready_queue k ∧
        (fill s').rq_size + (fill s').distance k' < s.rq_size + s.distance k := by
    intro s' hqueue hsize hcur
    have hlast : s.ready_queue (s.rq_size - 1) =
        (fill s').ready_queue s.rq_current := by
      simp only [fill, hqueue, hsize, hcur, Function.update_self]
    by_cases hend : k = s.rq_size - 1
    · -- the last thread takes the slot of the running one
      refine ⟨s.rq_current, hc0, ?_, ?_, ?_⟩
      · simp only [fill, hsize]
        omega
      · rw [← hlast, hend]
      · simp only [fill, hsize, hcur, Sched.distance]
        split_ifs <;> omega
    · refine ⟨k, h0, ?_, ?_, ?_⟩
      · simp only [fill, hsize]
        omega
      · simp only [fill, hqueue, hsize, hcur]
        exact Function.update_of_ne hne _ _
      · simp only [fill, hsize, hcur, Sched.distance]
        split_ifs <;> omega
  unfold schedulerSwitch
  rw [hquiet]
  cases src with
  | signal =>
    refine ⟨k, h0, hk, rfl, ?_⟩
    simp only [switch, poll, Sched.distance]
    split_ifs <;> omega
  | asyncRead => exact hfill (park (poll (fun _ => 0) s)) rfl rfl rfl
  | exit => exact hfill (release (poll (fun _ => 0) s)) rfl rfl rfl

theorem Dispatchable.distance_pos (h : Dispatchable n s) {k : ℤ} (h0 : 0 ≤ k) :
    0 < s.rq_size + s.distance k := by
  obtain ⟨hc0, hc⟩ := h.current
  unfold Sched.distance
  split_ifs <;> omega

/-- A waiter whose entry has `POLLIN` does not go on waiting. -/
theorem not_waiting_poll (h : Queues n s) {rev : ℕ → ℕ} {i : ℕ} (hi : i < n)
    (hrev : rev i = POLLIN) : i + 1 ∉ (move_queue (poll rev s)).waiting := by
  intro hw
  have hidx : s.index (i + 1) = i := Nat.succ.inj (h.index (i + 1) (by
    rw [List.mem_range'_1]
    omega))
  rw [(h.moved rev).waiting, List.mem_filter, decide_eq_true_eq] at hw
  refine hw.2 ⟨?_, ?_⟩
  · exact hidx.trans_lt hi
  · show ((poll rev s).fdarray (s.index (i + 1))).revents = POLLIN
    rw [hidx]
    simp [poll, h.nfds, hi, hrev]

/-- A thread that lives and does not wait is ready. -/
theorem ready_of_not_waiting (h : Queues n s) {t : Ptr} (ht : t ∈ List.range' 1 n)
    (hfreed : s.freed t = false) (hnot : t ∉ s.waiting) : t ∈ s.ready := by
  have halive : t ∈ s.alive n := List.mem_filter.2 ⟨ht, by simp [hfreed]⟩
  exact (List.mem_append.1 (h.live.mem_iff.2 halive)).resolve_right hnot

/-- The `poll` that reports the entry `k` and no other. -/
def onlyEntry (k i : ℕ) : ℕ :=
  if i = k then POLLIN else 0

theorem onlyEntry_self (k : ℕ) : onlyEntry k k = POLLIN := if_pos rfl

theorem eq_of_onlyEntry {k i : ℕ} (h : onlyEntry k i ≠ 0) : i = k := by
  by_contra hik
  exact h (if_neg hik)

theorem pollResult_onlyEntry {k : ℕ} (hfd : (s.fdarray k).fd ≠ -1) :
    PollResult [0, POLLIN] (onlyEntry k) s := by
  refine fun i _ => ⟨?_, fun hne => ?_⟩
  · by_cases hik : i = k <;> simp [onlyEntry, hik]
  · rwa [eq_of_onlyEntry hne]

end Slots

/-! ## Every thread can take its next turn -/

section Progress

variable {int : ℤ → ℤ} {mem : Ptr → Tcb} {ps : List Spec} {R : Ptr → ℕ → Record} {M : Machine}
  {k m : ℕ} {p : Spec}

/-- A turn with a signal pending ends in the scheduler, whatever macro ends it. -/
theorem exists_entry (int : ℤ → ℤ) (hm : M.mode = .running) {rev : ℕ → ℕ}
    (hpoll : PollResult [0, POLLIN] rev (M.afterTurn int).sched)
    (hread : (M.afterTurn int).Readable rev) :
    ∃ src M', M.turn int (some .SIGTSTP) rev = some M' ∧
      M'.sched = schedulerSwitch src rev (M.afterTurn int).sched ∧
      M'.delivered = M.delivered ∧ M'.resumed = (M.afterTurn int).resumed := by
  have henter : ∀ (N : Machine) (src : Src), N.sched = (M.afterTurn int).sched →
      N.fifo = (M.afterTurn int).fifo → N.delivered = M.delivered →
      N.resumed = (M.afterTurn int).resumed →
      ∃ src' M', N.enter src rev = some M' ∧
        M'.sched = schedulerSwitch src' rev (M.afterTurn int).sched ∧
        M'.delivered = M.delivered ∧ M'.resumed = (M.afterTurn int).resumed := by
    intro N src hsched hfifo hdel hres
    have hready : N.Readable rev := by
      unfold Machine.Readable
      rw [hsched, hfifo]
      exact hread
    exact ⟨src, _, if_pos ⟨hsched ▸ hpoll, hready⟩, hsched ▸ rfl, hdel, hres⟩
  unfold Machine.turn
  rw [if_pos hm]
  cases (M.running int).1.jump with
  | yield => exact henter { M.afterTurn int with
      out := (M.afterTurn int).out ++ [.caught .SIGTSTP] } .signal rfl rfl rfl rfl
  | asyncRead => exact henter _ .asyncRead rfl rfl rfl rfl
  | exit => exact henter _ .exit rfl rfl rfl rfl

/-- A turn gives the running thread one turn and leaves the others where they are. -/
theorem Tracked.after (hid : (ps.map Spec.id).Nodup) (hk : ps[k]? = some p)
    (h : Tracked int (R (k + 1)) p (k + 1) m M) {M' : Machine}
    (hM' : (program int mem ps R).Reachable M') (hres : M'.resumed = (M.afterTurn int).resumed) :
    Tracked int (R (k + 1)) p (k + 1) (if M.sched.RUNNING = k + 1 then m + 1 else m) M' := by
  have hlen := h.turns
  rw [Machine.resumptions] at hlen
  refine tracked_of_resumptions hid hk hM' ?_
  rw [Machine.resumptions, hres]
  by_cases hrun : M.sched.RUNNING = k + 1
  · simp [Machine.afterTurn, List.filterMap_append, hrun, hlen]
  · simp [Machine.afterTurn, List.filterMap_append, hrun, hlen]

theorem Isolated.running_of_slot (h : Isolated int ps R M) {j : ℤ} (h0 : 0 ≤ j)
    (hj : j < M.sched.rq_size) : M.mode = .running := by
  cases hmode : M.mode with
  | running => rfl
  | blocked => exact absurd (h.blocked hmode) (by omega)
  | returned => exact absurd (h.returned hmode).1 (by omega)

/-- A ready thread gets its next turn. -/
theorem exists_ready_turn (hid : (ps.map Spec.id).Nodup) (hk : ps[k]? = some p) :
    ∀ (d : ℕ) {M : Machine} {j : ℤ}, (program int mem ps R).Reachable M →
      Tracked int (R (k + 1)) p (k + 1) m M → 0 ≤ j → j < M.sched.rq_size →
      M.sched.ready_queue j = k + 1 → M.sched.rq_size + M.sched.distance j ≤ d →
      ∃ es M', (program int mem ps R).run es M = some M' ∧
        Tracked int (R (k + 1)) p (k + 1) (m + 1) M' ∧ M'.delivered = M.delivered := by
  intro d
  have hps : 1 ≤ ps.length := (Nat.zero_le k).trans_lt (List.getElem?_eq_some_iff.1 hk).1
  have hdisp : ∀ {M : Machine} {j : ℤ}, (program int mem ps R).Reachable M → 0 ≤ j →
      j < M.sched.rq_size → M.mode = .running ∧ Dispatchable ps.length M.sched := fun hM h0 hj =>
    have hi := isolated_of_reachable hid hps hM
    ⟨hi.running_of_slot h0 hj, hi.dispatchable (hi.running_of_slot h0 hj)⟩
  induction d with
  | zero =>
    intro M j hM ht h0 hj hslot hd
    have hpos := (hdisp hM h0 hj).2.distance_pos h0
    omega
  | succ d ih =>
    intro M j hM ht h0 hj hslot hd
    obtain ⟨hmode, hdisp⟩ := hdisp hM h0 hj
    obtain ⟨src, M', hstep, hsched, hdel, hres⟩ := exists_entry int hmode
      (fun _ _ => ⟨List.mem_cons_self, fun hne => absurd rfl hne⟩) fun _ _ hne => absurd rfl hne
    have hM' : (program int mem ps R).Reachable M' :=
      System.Reachable.step (e := Event.turn (some .SIGTSTP) fun _ => 0) hM hstep
    have ht' := ht.after hid hk hM' hres
    by_cases hrun : M.sched.RUNNING = k + 1
    · rw [if_pos hrun] at ht'
      exact ⟨[.turn (some .SIGTSTP) fun _ => 0], M',
        (System.run_cons _).2 ⟨M', hstep, rfl⟩, ht', hdel⟩
    · rw [if_neg hrun] at ht'
      have hne : j ≠ M.sched.rq_current := fun heq => hrun (by rw [RUNNING, ← heq, hslot])
      obtain ⟨j', h0', hj', hslot', hlt⟩ :=
        exists_slot_switch (dispatchable_afterTurn hdisp) src h0 hj hne
      rw [← hsched] at hj' hslot' hlt
      have hlt' : M'.sched.rq_size + M'.sched.distance j' <
        M.sched.rq_size + M.sched.distance j := hlt
      obtain ⟨es, M'', hrun', ht'', hdel'⟩ := ih hM' ht' h0' hj' (hslot'.trans hslot) (by omega)
      exact ⟨.turn (some .SIGTSTP) (fun _ => 0) :: es, M'',
        (System.run_cons _).2 ⟨M', hstep, hrun'⟩, ht'', hdel'.trans hdel⟩

/-- A waiting thread becomes ready once its FIFO holds a record. -/
theorem exists_wakeup (hid : (ps.map Spec.id).Nodup) (hk : ps[k]? = some p)
    (hM : (program int mem ps R).Reachable M) (ht : Tracked int (R (k + 1)) p (k + 1) m M)
    (hw : k + 1 ∈ M.sched.waiting)
    (hread : (solo int (R (k + 1)) p m).reads < M.delivered (k + 1)) (hfd : p.fd ≠ -1) :
    ∃ e M', (program int mem ps R).step e M = some M' ∧ k + 1 ∈ M'.sched.ready ∧
      Tracked int (R (k + 1)) p (k + 1) m M' ∧ M'.delivered = M.delivered := by
  have hlen : k < ps.length := (List.getElem?_eq_some_iff.1 hk).1
  have hps : 1 ≤ ps.length := (Nat.zero_le k).trans_lt hlen
  have hi := isolated_of_reachable hid hps hM
  obtain ⟨hmem, hfreed⟩ := hi.queues.mem_alive (List.mem_append_right _ hw)
  have hfds := hi.queues.fds _ hmem
  rw [if_pos hw, Nat.succ.inj (hi.queues.index _ hmem), ht.core.fd] at hfds
  have hfifo : M.fifo (k + 1) ≠ [] := by
    rw [ht.core.fifo, pending_eq_cons _ hread]
    intro hnil
    have hlength := congrArg List.length (List.append_eq_nil_iff.1 hnil).1
    simp at hlength
  have hpoll : PollResult [0, POLLIN] (onlyEntry k) M.sched :=
    pollResult_onlyEntry (by rwa [hfds])
  have hready : ∀ {M' : Machine}, (program int mem ps R).Reachable M' →
      Tracked int (R (k + 1)) p (k + 1) m M' → k + 1 ∉ M'.sched.waiting →
      k + 1 ∈ M'.sched.ready := fun hM' ht' =>
    ready_of_not_waiting (isolated_of_reachable hid hps hM').queues hmem
      (ht'.status.freed.trans (ht.status.freed.symm.trans hfreed))
  cases hmode : M.mode with
  | running =>
    have hdisp := hi.dispatchable hmode
    have hrun : M.sched.RUNNING ≠ k + 1 := fun heq => hdisp.running_not_waiting (heq ▸ hw)
    have hreadable : (M.afterTurn int).Readable (onlyEntry k) := by
      intro i _ hne
      rw [eq_of_onlyEntry hne]
      show Function.update M.fifo M.sched.RUNNING _ (k + 1) ≠ []
      rwa [Function.update_of_ne (Ne.symm hrun)]
    obtain ⟨src, M', hstep, hsched, hdel, hres⟩ := exists_entry int hmode hpoll hreadable
    have hM' := System.Reachable.step (e := Event.turn (some .SIGTSTP) (onlyEntry k)) hM hstep
    have ht' := ht.after hid hk hM' hres
    rw [if_neg hrun] at ht'
    have hafter : Dispatchable ps.length (M.afterTurn int).sched := dispatchable_afterTurn hdisp
    refine ⟨.turn (some .SIGTSTP) (onlyEntry k), M', hstep, hready hM' ht' fun hwait => ?_, ht',
      hdel⟩
    rw [hsched] at hwait
    rcases mem_waiting_polled hafter hwait with hwait | ⟨-, heq⟩
    · exact not_waiting_poll hafter.toQueues hlen (onlyEntry_self k) hwait
    · exact hrun heq.symm
  | blocked =>
    have hstep : M.wake (onlyEntry k) =
        some { M with mode := .running, sched := pollBlocking (onlyEntry k) M.sched } := by
      refine if_pos ⟨hmode, ⟨hpoll, k, hi.queues.nfds.symm ▸ hlen, ?_⟩, fun i _ hne => ?_⟩
      · rw [onlyEntry_self]
        decide
      · rwa [eq_of_onlyEntry hne]
    have hM' := System.Reachable.step (e := Event.wake (onlyEntry k)) hM hstep
    have ht' := tracked_of_resumptions hid hk hM' ht.turns
    exact ⟨.wake (onlyEntry k), _, hstep,
      hready hM' ht' (not_waiting_poll hi.queues hlen (onlyEntry_self k)), ht', rfl⟩
  | returned =>
    rw [Sched.waiting, (hi.returned hmode).2, queue_zero] at hw
    cases hw

/-- If the next turn of a thread can happen with `D` records, the program comes to it with at
most as many. -/
theorem exists_next_turn (hid : (ps.map Spec.id).Nodup) (hk : ps[k]? = some p) {D : ℕ}
    (hM : (program int mem ps R).Reachable M) (ht : Tracked int (R (k + 1)) p (k + 1) m M)
    (hD : M.delivered (k + 1) ≤ D) (hnext : Feasible int (R (k + 1)) p D (m + 1)) :
    ∃ es M', (program int mem ps R).run es M = some M' ∧
      Tracked int (R (k + 1)) p (k + 1) (m + 1) M' ∧ M'.delivered (k + 1) ≤ D := by
  have hlen : k < ps.length := (List.getElem?_eq_some_iff.1 hk).1
  have hi := isolated_of_reachable hid ((Nat.zero_le k).trans_lt hlen) hM
  obtain ⟨hexit, hread⟩ := hnext m (Nat.lt_succ_self m)
  -- from a state in which the thread is ready
  have hturn : ∀ (es₁ : List Event) {M₁ : Machine}, (program int mem ps R).run es₁ M = some M₁ →
      k + 1 ∈ M₁.sched.ready → Tracked int (R (k + 1)) p (k + 1) m M₁ →
      M₁.delivered (k + 1) ≤ D → ∃ es M', (program int mem ps R).run es M = some M' ∧
        Tracked int (R (k + 1)) p (k + 1) (m + 1) M' ∧ M'.delivered (k + 1) ≤ D := by
    intro es₁ M₁ hrun₁ hready₁ ht₁ hD₁
    obtain ⟨j, h0, hj, hslot⟩ := mem_queue.1 hready₁
    obtain ⟨es₂, M', hrun₂, ht', hdel⟩ := exists_ready_turn hid hk
      (M₁.sched.rq_size + M₁.sched.distance j).toNat (hM.run hrun₁) ht₁ h0 hj hslot
      (Int.self_le_toNat _)
    exact ⟨es₁ ++ es₂, M', (System.run_append_eq_some _).2 ⟨M₁, hrun₁, hrun₂⟩, ht', hdel ▸ hD₁⟩
  have halive : k + 1 ∈ M.sched.alive ps.length := by
    refine List.mem_filter.2 ⟨?_, ?_⟩
    · rw [List.mem_range'_1]
      omega
    · simp [ht.status.freed, hexit]
  rcases List.mem_append.1 (hi.queues.live.mem_iff.2 halive) with hready | hwait
  · exact hturn [] rfl hready ht hD
  obtain ⟨hlt, hfd⟩ := hread (ht.status.waiting hwait)
  rcases lt_or_eq_of_le ht.core.reads with hlt' | heq
  · obtain ⟨e, M₁, hstep, hready, ht₁, hdel⟩ := exists_wakeup hid hk hM ht hwait hlt' hfd
    exact hturn [e] ((System.run_cons _).2 ⟨M₁, hstep, rfl⟩) hready ht₁ (hdel ▸ hD)
  · -- the record it waits for has not been sent yet
    have hdel : (M.deliver R (k + 1)).delivered (k + 1) = M.delivered (k + 1) + 1 := by
      simp [Machine.deliver]
    have hN : (program int mem ps R).Reachable (M.deliver R (k + 1)) :=
      System.Reachable.step (e := Event.deliver (k + 1)) hM rfl
    obtain ⟨e, M₁, hstep, hready, ht₁, hdel₁⟩ := exists_wakeup hid hk hN
      (tracked_of_resumptions hid hk hN ht.turns) hwait (by omega) hfd
    exact hturn [.deliver (k + 1), e]
      ((System.run_cons _).2 ⟨_, rfl, (System.run_cons _).2 ⟨M₁, hstep, rfl⟩⟩) hready ht₁
      (by rw [hdel₁, hdel]; omega)

/-- From every state it has reached, the program goes on to as many turns of a thread as can
happen with `D` records. -/
theorem exists_turns (hid : (ps.map Spec.id).Nodup) (hk : ps[k]? = some p) {D : ℕ}
    (hM : (program int mem ps R).Reachable M) (ht : Tracked int (R (k + 1)) p (k + 1) m M)
    (hD : M.delivered (k + 1) ≤ D) :
    ∀ l, m ≤ l → Feasible int (R (k + 1)) p D l → ∃ es M',
      (program int mem ps R).run es M = some M' ∧ Tracked int (R (k + 1)) p (k + 1) l M' ∧
        M'.delivered (k + 1) ≤ D := by
  intro l hl
  induction l, hl using Nat.le_induction with
  | base => exact fun _ => ⟨[], M, rfl, ht, hD⟩
  | succ l hl ih =>
    intro hfeasible
    obtain ⟨es, M₁, hrun, ht₁, hD₁⟩ := ih fun j hj => hfeasible j (hj.trans (Nat.lt_succ_self l))
    obtain ⟨es', M', hrun', ht', hD'⟩ :=
      exists_next_turn hid hk (hM.run hrun) ht₁ hD₁ hfeasible
    exact ⟨es ++ es', M', (System.run_append_eq_some _).2 ⟨M₁, hrun, hrun'⟩, ht', hD'⟩

end Progress

end SP2022.ThreadLib
