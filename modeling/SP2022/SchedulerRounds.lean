import SP2022.SchedulerInvariant

/-!
# Round robin

A signal sends `scheduler` to the next slot of the ready queue (`Advanced`). It polls first, so
the queue may be longer than it was when the thread in the last slot was dispatched, and
`rq_current` goes back to 0 only from the last slot that there is now. The threads that were
ready keep their slots, so between two dispatches of one slot every other slot that was in use
at the first one is dispatched once (`count_until`, `round_robin`).
-/

namespace SP2022.ThreadLib

open Sched

section Signals

variable {n : ℕ} {s s' : Sched}

/-- The slot of a ready thread is the slot of no other. -/
theorem Dispatchable.running_eq_iff (h : Dispatchable n s) {k : ℤ} (h0 : 0 ≤ k)
    (hk : k < s.rq_size) : s.RUNNING = s.ready_queue k ↔ s.rq_current = k := by
  have hnd : s.ready.Nodup := (List.nodup_append.1 h.nodup).1
  obtain ⟨hc0, hc⟩ := h.current
  constructor
  · intro heq
    have hlen : s.ready.length = s.rq_size.toNat := length_queue _ _
    have hget : ∀ {j : ℤ} (_ : 0 ≤ j) (hj : j.toNat < s.ready.length),
        s.ready[j.toNat] = s.ready_queue j := by
      intro j hj0 hj
      simp only [Sched.ready, getElem_queue, Int.toNat_of_nonneg hj0]
    have hcur : s.rq_current.toNat < s.ready.length := by omega
    have hslot : k.toNat < s.ready.length := by omega
    have hidx := hnd.getElem_inj_iff.1 ((hget hc0 hcur).trans (heq.trans (hget h0 hslot).symm))
    omega
  · rintro rfl
    rfl

/-- An entry from the signal handler goes to the next slot of the ready queue that it finds
after its poll, and the threads that were ready keep their slots. -/
structure Advanced (s s' : Sched) : Prop where
  rq_current : s'.rq_current = if s.rq_current = s'.rq_size - 1 then 0 else s.rq_current + 1
  rq_size : s.rq_size ≤ s'.rq_size
  slots : ∀ k < s.rq_size, s'.ready_queue k = s.ready_queue k

theorem Dispatchable.advanced (h : Dispatchable n s) {e : Entry} (hsrc : e.src = .signal)
    (hnext : e.next [0, POLLIN] s = some s') : Advanced s s' := by
  have hm := h.moved e.rev
  have hswitched : e.switched s = switch .signal (move_queue (poll e.rev s)) := by
    rw [Entry.switched, schedulerSwitch, hsrc, pollReady_eq]
  have hsize : s.rq_size ≤ (e.switched s).rq_size := by
    rw [hswitched]
    exact hm.rq_size
  have hpos : 0 < s.rq_size := h.current.1.trans_lt h.current.2
  obtain ⟨-, ⟨-, rfl⟩ | ⟨hzero, -⟩⟩ := e.next_cases hnext
  · refine ⟨?_, hsize, fun k hk => ?_⟩
    · have hcur : (move_queue (poll e.rev s)).rq_current = s.rq_current := hm.rq_current
      rw [hswitched]
      simp only [switch, hcur]
    · rw [hswitched]
      exact hm.slots k hk
  · omega

/-- Going round from the slot `p`, the slot `k` comes before the slot `c`. -/
def Ahead (p k c : ℤ) : Prop :=
  (p < k ∧ k < c) ∨ (c ≤ p ∧ (p < k ∨ k < c))

instance (p k c : ℤ) : Decidable (Ahead p k c) :=
  inferInstanceAs (Decidable (_ ∨ _))

/-- The next slot is `c` only if no other slot comes before. -/
theorem Advanced.not_ahead (h : Advanced s s') (hd : Dispatchable n s) {k : ℤ} (hk0 : 0 ≤ k)
    (hk : k < s.rq_size) : ¬Ahead s.rq_current k s'.rq_current := by
  have hsize := h.rq_size
  have hcurrent := h.rq_current
  obtain ⟨hlo, hhi⟩ := hd.current
  unfold Ahead
  split_ifs at hcurrent <;> omega

/-- The slots before `c` are the next one, if it is not `c`, and the ones that come then. -/
theorem Advanced.ahead (h : Advanced s s') (hd : Dispatchable n s) {k c : ℤ} (hk0 : 0 ≤ k)
    (hk : k < s.rq_size) (hc0 : 0 ≤ c) (hc : c < s.rq_size)
    (hnext : s'.rq_current ≠ c) : (if Ahead s.rq_current k c then 1 else 0) =
      (if Ahead s'.rq_current k c then 1 else 0) + if s'.rq_current = k then 1 else 0 := by
  have hsize := h.rq_size
  have hcurrent := h.rq_current
  obtain ⟨hlo, hhi⟩ := hd.current
  have hahead : Ahead s.rq_current k c ↔ Ahead s'.rq_current k c ∨ s'.rq_current = k := by
    unfold Ahead
    split_ifs at hcurrent <;> omega
  have hone : ¬(Ahead s'.rq_current k c ∧ s'.rq_current = k) := by
    unfold Ahead
    omega
  by_cases ha : Ahead s'.rq_current k c
  · rw [if_pos (hahead.2 (Or.inl ha)), if_pos ha, if_neg fun hk => hone ⟨ha, hk⟩]
  · simp only [hahead, ha, false_or, if_false, zero_add]

/-- Until the thread in the slot `c` runs again, the one in the slot `k` runs once or not at
all. -/
theorem count_until {mem : Ptr → Tcb} {ps : List Spec} {c k : ℤ} (hc0 : 0 ≤ c) (hk0 : 0 ≤ k) :
    ∀ {es : List Entry} {s t s₂ : Sched} {mid post : List Sched}, Dispatchable n s →
      c < s.rq_size → k < s.rq_size → (∀ e ∈ es, e.src = .signal) →
      (dispatches [0, POLLIN] mem ps).run es s = some t →
      (dispatches [0, POLLIN] mem ps).states es s = s :: (mid ++ s₂ :: post) →
      s₂.RUNNING = s.ready_queue c → (∀ m ∈ mid, m.RUNNING ≠ s.ready_queue c) →
      (mid.map Sched.RUNNING).count (s.ready_queue k) = if Ahead s.rq_current k c then 1 else 0
  | [], s, t, s₂, mid, post, _, _, _, _, _, hstates, _, _ => by
    simp [System.states] at hstates
  | e :: es, s, t, s₂, mid, post, h, hc, hk, hsrc, hrun, hstates, hlast, hmid => by
    obtain ⟨s', hstep, hrest⟩ := (dispatches [0, POLLIN] mem ps).run_cons.1 hrun
    have h' : Dispatchable n s' := h.next hstep
    have hadv := h.advanced (hsrc e List.mem_cons_self) hstep
    have hsize := hadv.rq_size
    have hslotc := hadv.slots c hc
    have hslotk := hadv.slots k hk
    have hrunc := h'.running_eq_iff hc0 (hc.trans_le hsize)
    have hrunk := h'.running_eq_iff hk0 (hk.trans_le hsize)
    rw [System.states_cons hstep] at hstates
    have htail := (List.cons.inj hstates).2
    obtain ⟨tail, hhead⟩ : ∃ tail,
        (dispatches [0, POLLIN] mem ps).states es s' = s' :: tail := by
      cases es <;> exact ⟨_, rfl⟩
    rw [hhead] at htail
    rcases mid with _ | ⟨m, mid⟩
    · -- the next slot is `c`
      obtain ⟨rfl, -⟩ := List.cons.inj htail
      obtain rfl := hrunc.1 (hlast.trans hslotc.symm)
      rw [if_neg (hadv.not_ahead h hk0 hk)]
      rfl
    · obtain ⟨rfl, rfl⟩ := List.cons.inj htail
      have hnext : s'.rq_current ≠ c := fun heq =>
        hmid s' List.mem_cons_self ((hrunc.2 heq).trans hslotc)
      have ih := count_until hc0 hk0 h' (hc.trans_le hsize) (hk.trans_le hsize)
        (fun e he => hsrc e (List.mem_cons_of_mem _ he)) hrest hhead (hlast.trans hslotc.symm)
        fun m hm => hslotc ▸ hmid m (List.mem_cons_of_mem _ hm)
      rw [hslotk] at ih hrunk
      rw [List.map_cons, List.count_cons, ih, hadv.ahead h hk0 hk hc0 hc hnext]
      simp only [beq_iff_eq, hrunk]

end Signals

/-- Without threads no thread is ever ready. -/
theorem ready_eq_nil {ok : List ℕ} {mem : Ptr → Tcb} {s : Sched}
    (h : (dispatches ok mem []).Reachable s) : s.ready = [] := by
  have hinv : s.nfds = 0 ∧ s.rq_size ≤ 0 := by
    refine h.invariant (I := fun s => s.nfds = 0 ∧ s.rq_size ≤ 0) (fun s hs => ?_)
      fun e s s' hs hstep => ?_
    · subst hs
      exact ⟨rfl, le_rfl⟩
    · obtain ⟨hzero, hsize⟩ := hs
      have hswitched : (e.switched s).nfds = 0 ∧ (e.switched s).rq_size ≤ 0 := by
        unfold Entry.switched schedulerSwitch
        rw [pollReady_eq, move_queue_quiet fun i hi => absurd hi (by omega)]
        cases e.src
        · exact ⟨hzero, hsize⟩
        · exact ⟨hzero, (Int.sub_le_self _ zero_le_one).trans hsize⟩
        · exact ⟨hzero, (Int.sub_le_self _ zero_le_one).trans hsize⟩
      obtain ⟨⟨-, hblock⟩, ⟨-, rfl⟩ | ⟨hr, hw, -⟩⟩ := e.next_cases hstep
      · exact hswitched
      · obtain ⟨-, i, hi, -⟩ := hblock hr hw
        omega
  rw [Sched.ready, queue, Int.toNat_of_nonpos hinv.2]
  rfl

/-- Round robin. While the scheduler is entered from the signal handler only, between two
dispatches of a thread every other thread that was ready at the first one is dispatched once,
whatever threads become ready in between. -/
theorem round_robin {mem : Ptr → Tcb} {ps : List Spec} {s t s₁ s₂ : Sched}
    (h : (dispatches [0, POLLIN] mem ps).Reachable s) {es : List Entry}
    (hsignal : ∀ e ∈ es, e.src = .signal)
    (hrun : (dispatches [0, POLLIN] mem ps).run es s = some t) {pre mid post : List Sched}
    (hstates : (dispatches [0, POLLIN] mem ps).states es s = pre ++ s₁ :: (mid ++ s₂ :: post))
    (hsame : s₂.RUNNING = s₁.RUNNING) (hbetween : ∀ m ∈ mid, m.RUNNING ≠ s₁.RUNNING) {u : Ptr}
    (hu : u ∈ s₁.ready) (hne : u ≠ s₁.RUNNING) : (mid.map Sched.RUNNING).count u = 1 := by
  obtain ⟨es₁, es₂, rfl, hfirst, hlast, hsplit⟩ := System.exists_split_of_states hrun hstates
  have h₁ := h.run hfirst
  rcases Nat.eq_zero_or_pos ps.length with hps | hps
  · obtain rfl := List.length_eq_zero_iff.1 hps
    rw [ready_eq_nil h₁] at hu
    cases hu
  have hd := dispatchable_of_reachable hps h₁
  obtain ⟨k, hk0, hk, rfl⟩ := mem_queue.1 hu
  have hck : k ≠ s₁.rq_current := fun heq => hne (by rw [heq]; rfl)
  have hcount := count_until hd.current.1 hk0 hd hd.current.2 hk
    (fun e he => hsignal e (List.mem_append_right _ he)) hlast hsplit hsame hbetween
  have hahead : Ahead s₁.rq_current k s₁.rq_current :=
    Or.inr ⟨le_rfl, lt_or_gt_of_ne (Ne.symm hck)⟩
  rwa [if_pos hahead] at hcount

/-- The threads of `./main 3 4 6 2`. -/
def sampleTrio : List Spec :=
  [⟨.fibonacci, 0, 4, blank, 5⟩, ⟨.collatz, 1, 6, blank, 6⟩, ⟨.max_subarray, 2, 2, blank, 7⟩]

/-- The third thread waits. -/
def sampleParked : List Entry :=
  [⟨.signal, fun _ => 0, fun _ => 0⟩, ⟨.signal, fun _ => 0, fun _ => 0⟩,
    ⟨.asyncRead, fun _ => 0, fun _ => 0⟩]

/-- It becomes ready again at the first of three signals. -/
def sampleSignals : List Entry :=
  [⟨.signal, fun i => if i = 2 then POLLIN else 0, fun _ => 0⟩,
    ⟨.signal, fun _ => 0, fun _ => 0⟩, ⟨.signal, fun _ => 0, fun _ => 0⟩]

theorem round_robin_arrival : ∃ s s₁ s₂ s₃,
    (dispatches [0, POLLIN] (fun _ => blank) sampleTrio).run sampleParked
      (schedulerStart (createAll (fun _ => blank) sampleTrio)) = some s ∧
    (dispatches [0, POLLIN] (fun _ => blank) sampleTrio).states sampleSignals s =
      [s, s₁, s₂, s₃] ∧ s.waiting = [3] ∧ [s, s₁, s₂, s₃].map Sched.RUNNING = [1, 2, 3, 1] ∧
    ([s₁, s₂].map Sched.RUNNING).count 2 = 1 := by
  refine ⟨_, _, _, _, (Option.some_get (by decide)).symm, rfl, by decide, by decide, ?_⟩
  refine @round_robin (fun _ => blank) sampleTrio _ _ _ _
    ⟨_, sampleParked, rfl, (Option.some_get (by decide)).symm⟩ sampleSignals ?_
    (Option.some_get ?_).symm [] [_, _] [] rfl ?_ ?_ 2 ?_ ?_
  all_goals decide

end SP2022.ThreadLib
