import SP2022.SchedulerRounds
import SP2022.ThreadProgress

/-!
# Bounded waiting

`fill` puts the last ready thread into the slot of a thread that waits or exits, before the
threads that are next in the round. If only one thread ever calls `async_read`, as of the
three that `init_threads` creates, this thread jumps the queue at most twice before the round
comes to a given slot, and every ready thread is dispatched within four times as many entries
of `scheduler` as there are threads (`bounded_waiting`). Two threads that read in turn starve
all others (`readers_starve`).
-/

namespace SP2022.ThreadLib

open Sched

/-- The entry is none from `async_read`, unless of the thread `c`. -/
def OnlyReader (c : Ptr) (e : Entry) (s : Sched) : Prop :=
  e.src = .asyncRead → s.RUNNING = c

section Steps

variable {n : ℕ} {s s' : Sched} {c : Ptr}

/-- The first poll with `c` the only thread that may wait : it wakes nobody, or it puts `c`
at the end of the ready queue. -/
structure Polled (c : Ptr) (s s' : Sched) : Prop where
  rq_current : s'.rq_current = s.rq_current
  slots : ∀ i < s.rq_size, s'.ready_queue i = s.ready_queue i
  total : s'.rq_size + s'.wq_size = s.rq_size + s.wq_size
  wakes : (s'.rq_size = s.rq_size ∧ s'.waiting = s.waiting) ∨
    (s'.rq_size = s.rq_size + 1 ∧ s'.ready_queue s.rq_size = c ∧ c ∈ s.waiting ∧ s'.waiting = [])

theorem polled (h : Dispatchable n s) (hw : ∀ w ∈ s.waiting, w = c) (rev : ℕ → ℕ) :
    Polled c s (pollReady rev s) := by
  have hm := h.moved rev
  have hd := (pollReady_current h rev).1
  rw [← pollReady_eq] at hm
  have hperm : ((pollReady rev s).ready ++ (pollReady rev s).waiting).Perm
      (s.ready ++ s.waiting) := hm.perm
  have hlen := hperm.length_eq
  have hr := h.rq_nonneg
  have hr' := hd.rq_nonneg
  have hwq := h.wq_nonneg
  have hwq' := hd.wq_nonneg
  have htotal : (pollReady rev s).rq_size + (pollReady rev s).wq_size =
      s.rq_size + s.wq_size := by
    simp only [List.length_append, Sched.ready, Sched.waiting, length_queue] at hlen
    omega
  simp only [List.length_append, Sched.ready, length_queue] at hlen
  have hsub : (pollReady rev s).waiting.Sublist s.waiting := by
    rw [hm.waiting]
    exact List.filter_sublist
  -- at most `c` waits
  have hle : s.waiting.length ≤ 1 := by
    by_contra hlt
    have hnd := (List.nodup_append.1 h.nodup).2.1
    have hall := List.eq_replicate_of_mem hw
    rw [hall, List.nodup_replicate] at hnd
    exact hlt hnd
  refine ⟨hm.rq_current, hm.slots, htotal, ?_⟩
  rcases eq_or_lt_of_le hsub.length_le with heq | hlt
  · exact Or.inl ⟨by omega, hsub.eq_of_length heq⟩
  have hnil : (pollReady rev s).waiting = [] := List.length_eq_zero_iff.1 (by omega)
  have hpos : 0 < s.waiting.length := by omega
  obtain ⟨w, hmem⟩ := List.exists_mem_of_length_pos hpos
  obtain rfl := hw w hmem
  have hsize : (pollReady rev s).rq_size = s.rq_size + 1 := by
    rw [hnil, List.length_nil] at hlen
    omega
  refine Or.inr ⟨hsize, ?_, hmem, hnil⟩
  have hready : w ∈ (pollReady rev s).ready := by
    have := hperm.mem_iff.2 (List.mem_append_right _ hmem)
    rwa [hnil, List.append_nil] at this
  obtain ⟨k, h0, hk, hslot⟩ := mem_queue.1 hready
  rcases lt_or_eq_of_le (show k ≤ s.rq_size by omega) with hlt' | rfl
  · have hold : s.ready_queue k = w := (hm.slots k hlt').symm.trans hslot
    exact absurd rfl ((List.nodup_append.1 h.nodup).2.2 w (mem_queue.2 ⟨k, h0, hlt', hold⟩) w hmem)
  · exact hslot

/-- The thread `c` can come to run at most `j` more times between threads that are ready before
the round comes to the slot `k`. While the round is past the slot `k`, it may do so before the
end of the queue and once more as the last in it. -/
structure Jumps (c : Ptr) (k j : ℤ) (s : Sched) : Prop where
  nonneg : 0 ≤ j
  before : s.rq_current < k → ∀ i, s.rq_current ≤ i → i < k → s.ready_queue i = c → 1 ≤ j
  waits : k < s.rq_current → c ∈ s.waiting → 2 ≤ j
  ahead : k < s.rq_current → ∀ i, s.rq_current ≤ i → i < s.rq_size - 1 →
    s.ready_queue i = c → 2 ≤ j
  ready : k < s.rq_current → ∀ i, 0 ≤ i → i < s.rq_size → s.ready_queue i = c → 1 ≤ j

theorem Jumps.two (c : Ptr) (k : ℤ) (s : Sched) : Jumps c k 2 s :=
  ⟨by omega, fun _ _ _ _ _ => by omega, fun _ _ => by omega, fun _ _ _ _ _ => by omega,
    fun _ _ _ _ _ => by omega⟩

/-- What has to pass before the thread in the slot `k` is dispatched : exits, slots, and jumps
of `c`. -/
def Sched.ahead (k j : ℤ) (s : Sched) : ℤ :=
  3 * (s.rq_size + s.wq_size) + s.distance k + j

/-- The thread in the slot `k` is dispatched, or comes closer. -/
def Closer (c : Ptr) (k j : ℤ) (s s' : Sched) : Prop :=
  ∃ k', 0 ≤ k' ∧ k' < s'.rq_size ∧ s'.ready_queue k' = s.ready_queue k ∧
    (k' = s'.rq_current ∨ ∃ j', Jumps c k' j' s' ∧ s'.ahead k' j' < s.ahead k j)

variable {k j : ℤ}

/-- The round goes on by a slot. -/
theorem Jumps.next (hj : Jumps c k j s) (hcur : s'.rq_current = s.rq_current + 1)
    (hne : k ≠ s.rq_current) (hnext : k ≠ s'.rq_current) (hk : k < s.rq_size)
    (hslots : ∀ i < s.rq_size, s'.ready_queue i = s.ready_queue i)
    (hpast : k < s.rq_current → s'.rq_size = s.rq_size ∧ s'.waiting = s.waiting) :
    Jumps c k j s' where
  nonneg := hj.nonneg
  before hlt i h1 h2 heq :=
    hj.before (by omega) i (by omega) h2 ((hslots i (by omega)).symm.trans heq)
  waits hlt hw := hj.waits (by omega) ((hpast (by omega)).2 ▸ hw)
  ahead hlt i h1 h2 heq := by
    have hsize := (hpast (by omega)).1
    exact hj.ahead (by omega) i (by omega) (by omega) ((hslots i (by omega)).symm.trans heq)
  ready hlt i h1 h2 heq := by
    have hsize := (hpast (by omega)).1
    exact hj.ready (by omega) i h1 (by omega) ((hslots i (by omega)).symm.trans heq)

/-- The round starts again. -/
theorem Jumps.wrap (hj : Jumps c k j s) (hcur : s'.rq_current = 0) (h0 : 0 ≤ k)
    (hpast : k < s.rq_current) (hk : k < s.rq_size)
    (hslots : ∀ i < k, s'.ready_queue i = s.ready_queue i) : Jumps c k j s' where
  nonneg := hj.nonneg
  before _ i h1 h2 heq :=
    hj.ready hpast i (hcur ▸ h1) (h2.trans hk) ((hslots i h2).symm.trans heq)
  waits hlt := by omega
  ahead hlt := by omega
  ready hlt := by omega

theorem Polled.size_le (hp : Polled c s s') : s.rq_size ≤ s'.rq_size := by
  obtain ⟨hsize, -⟩ | ⟨hsize, -⟩ := hp.wakes <;> omega

/-- A thread that waits is in no slot of the ready queue. -/
theorem Dispatchable.slot_ne (h : Dispatchable n s) (hw : c ∈ s.waiting) {i : ℤ} (h0 : 0 ≤ i)
    (hi : i < s.rq_size) : s.ready_queue i ≠ c := fun heq =>
  (List.nodup_append.1 h.nodup).2.2 _ (mem_queue.2 ⟨i, h0, hi, heq⟩) _ hw rfl

/-- A signal. If `c` was woken while the round is past the slot `k`, it is now the last. -/
theorem Polled.signal (hp : Polled c s s') (h : Dispatchable n s) (hj : Jumps c k j s)
    (h0 : 0 ≤ k) (hk : k < s.rq_size) (hne : k ≠ s.rq_current) :
    Closer c k j s (switch .signal s') := by
  obtain ⟨hc0, hc⟩ := h.current
  have htotal := hp.total
  refine ⟨k, h0, hk.trans_le hp.size_le, hp.slots k hk, ?_⟩
  by_cases hnext : k = (switch .signal s').rq_current
  · exact Or.inl hnext
  right
  have hstep : (switch .signal s').rq_current =
      if s.rq_current = s'.rq_size - 1 then 0 else s.rq_current + 1 := by
    simp only [switch, hp.rq_current]
  have hahead : ∀ j, (switch .signal s').ahead k j = 3 * (s'.rq_size + s'.wq_size) +
      (if (switch .signal s').rq_current ≤ k then k - (switch .signal s').rq_current
        else k - (switch .signal s').rq_current + s'.rq_size) + j := fun j => rfl
  obtain ⟨hsize, hwait⟩ | ⟨hsize, hslot, hw, hwait⟩ := hp.wakes
  · -- nobody is woken
    refine ⟨j, ?_, ?_⟩
    · by_cases hlast : s.rq_current = s'.rq_size - 1
      · rw [if_pos hlast] at hstep
        exact hj.wrap hstep h0 (by omega) hk fun i hi => hp.slots i (hi.trans hk)
      · rw [if_neg hlast] at hstep
        exact hj.next hstep hne hnext hk hp.slots fun _ => ⟨hsize, hwait⟩
    · rw [hahead, Sched.ahead, Sched.distance]
      split_ifs at hstep ⊢ <;> omega
  · rw [if_neg (by omega)] at hstep
    rcases lt_or_gt_of_ne hne with hpast | hbefore
    · have htwo := hj.waits hpast hw
      refine ⟨1, ⟨zero_le_one, fun hlt => by omega, fun _ hw' => ?_, fun _ i h1 h2 heq => ?_,
        fun _ _ _ _ _ => le_rfl⟩, ?_⟩
      · exact absurd (hwait ▸ hw' : c ∈ []) List.not_mem_nil
      · have hi : i < s'.rq_size - 1 := h2
        exact absurd ((hp.slots i (by omega)).symm.trans heq)
          (h.slot_ne hw (by omega) (by omega))
      · rw [hahead, Sched.ahead, Sched.distance]
        split_ifs <;> omega
    · refine ⟨j, hj.next hstep hne hnext hk hp.slots fun hlt => by omega, ?_⟩
      rw [hahead, Sched.ahead, Sched.distance]
      split_ifs <;> omega

/-- The ready queue after the running thread has left it. -/
structure Filled (s s' t : Sched) : Prop where
  rq_size : t.rq_size = s'.rq_size - 1
  rq_current : t.rq_current = if s.rq_current = s'.rq_size - 1 then 0 else s.rq_current
  hole : t.ready_queue s.rq_current = s'.ready_queue (s'.rq_size - 1)
  slots : ∀ i, i ≠ s.rq_current → t.ready_queue i = s'.ready_queue i

theorem Polled.filled (hp : Polled c s s') {t : Sched} (hqueue : t.ready_queue = s'.ready_queue)
    (hcur : t.rq_current = s'.rq_current) (hsize : t.rq_size = s'.rq_size) :
    Filled s s' (fill t) where
  rq_size := by simp only [fill, hsize]
  rq_current := by simp only [fill, hsize, hcur, hp.rq_current]
  hole := by simp only [fill, hsize, hcur, hqueue, hp.rq_current, Function.update_self]
  slots i hi := by simp only [fill, hcur, hqueue, hp.rq_current, Function.update_of_ne hi]

/-- The last ready thread is dispatched at once. -/
theorem Filled.last {t : Sched} (hf : Filled s s' t) (h : Dispatchable n s)
    (hsize : s'.rq_size = s.rq_size) (hslots : ∀ i < s.rq_size, s'.ready_queue i = s.ready_queue i)
    (hne : k ≠ s.rq_current) (hlast : k = s.rq_size - 1) : Closer c k j s t := by
  obtain ⟨hc0, hc⟩ := h.current
  have hcur := hf.rq_current
  rw [if_neg (by omega)] at hcur
  refine ⟨s.rq_current, hc0, ?_, ?_, Or.inl hcur.symm⟩
  · rw [hf.rq_size, hsize]
    omega
  · rw [hf.hole, hsize, hlast]
    exact hslots _ (by omega)

/-- An exit makes up for whatever `c` can do. -/
theorem Polled.exit (hp : Polled c s s') (h : Dispatchable n s) (hj : Jumps c k j s)
    (h0 : 0 ≤ k) (hk : k < s.rq_size) (hne : k ≠ s.rq_current) :
    Closer c k j s (switch .exit s') := by
  have hf : Filled s s' (switch .exit s') := hp.filled rfl rfl rfl
  have hwq : (switch .exit s').wq_size = s'.wq_size := rfl
  obtain ⟨hc0, hc⟩ := h.current
  have htotal := hp.total
  have hle := hp.size_le
  have hcur := hf.rq_current
  have hrq := hf.rq_size
  by_cases hlast : k = s'.rq_size - 1
  · have hsize : s'.rq_size = s.rq_size := by omega
    exact hf.last h hsize hp.slots hne (by omega)
  refine ⟨k, h0, by omega, (hf.slots k hne).trans (hp.slots k hk), Or.inr ⟨2, Jumps.two c k _, ?_⟩⟩
  have hnonneg := hj.nonneg
  have hsize : s'.rq_size ≤ s.rq_size + 1 := by
    obtain ⟨hsize, -⟩ | ⟨hsize, -⟩ := hp.wakes <;> omega
  rw [Sched.ahead, Sched.ahead, Sched.distance, Sched.distance]
  split_ifs at hcur ⊢ <;> omega

/-- When `c` reads, it uses up a jump, or comes behind the thread in the slot `k`. -/
theorem Polled.asyncRead (hp : Polled c s s') (h : Dispatchable n s) (hj : Jumps c k j s)
    (h0 : 0 ≤ k) (hk : k < s.rq_size) (hne : k ≠ s.rq_current) (hrun : s.RUNNING = c) :
    Closer c k j s (switch .asyncRead s') := by
  have hf : Filled s s' (switch .asyncRead s') := hp.filled rfl rfl rfl
  have hwq : (switch .asyncRead s').wq_size = s'.wq_size + 1 := rfl
  obtain ⟨hc0, hc⟩ := h.current
  have hcur := hf.rq_current
  have hrq := hf.rq_size
  have htotal := hp.total
  obtain ⟨hsize, -⟩ | ⟨-, -, hw, -⟩ := hp.wakes
  · by_cases hlast : k = s.rq_size - 1
    · exact hf.last h hsize hp.slots hne hlast
    refine ⟨k, h0, by omega, (hf.slots k hne).trans (hp.slots k hk), ?_⟩
    by_cases hnext : k = (switch .asyncRead s').rq_current
    · exact Or.inl hnext
    right
    -- `c` is in no slot of the ready queue
    have hslot : ∀ i, 0 ≤ i → i < k → (switch .asyncRead s').ready_queue i ≠ c := by
      intro i hi0 hi heq
      by_cases hic : i = s.rq_current
      · rw [hic, hf.hole, hp.slots _ (by omega), ← hrun] at heq
        have := (h.running_eq_iff (by omega) (by omega)).1 heq.symm
        omega
      · rw [hf.slots i hic, hp.slots i (by omega), ← hrun] at heq
        exact hic ((h.running_eq_iff hi0 (by omega)).1 heq.symm).symm
    rcases lt_or_gt_of_ne hne with hpast | hbefore
    · by_cases hend : s.rq_current = s'.rq_size - 1
      · rw [if_pos hend] at hcur
        have hone := hj.ready hpast s.rq_current hc0 hc hrun
        refine ⟨0, ⟨le_rfl, fun _ i h1 h2 heq => ?_, by omega, by omega, by omega⟩, ?_⟩
        · exact absurd heq (hslot i (by omega) h2)
        · rw [Sched.ahead, Sched.ahead, Sched.distance, Sched.distance]
          split_ifs <;> omega
      · rw [if_neg hend] at hcur
        have htwo := hj.ahead hpast s.rq_current le_rfl (by omega) hrun
        refine ⟨2, Jumps.two c k _, ?_⟩
        rw [Sched.ahead, Sched.ahead, Sched.distance, Sched.distance]
        split_ifs <;> omega
    · rw [if_neg (by omega)] at hcur
      have hone := hj.before hbefore s.rq_current le_rfl hbefore hrun
      refine ⟨0, ⟨le_rfl, fun _ i h1 h2 heq => ?_, by omega, by omega, by omega⟩, ?_⟩
      · exact absurd heq (hslot i (by omega) h2)
      · rw [Sched.ahead, Sched.ahead, Sched.distance, Sched.distance]
        split_ifs <;> omega
  · exact absurd (hrun ▸ hw) h.running_not_waiting

/-- One entry of `scheduler`. -/
theorem closer_step (h : Dispatchable n s) (hw : ∀ w ∈ s.waiting, w = c) {e : Entry}
    (honly : OnlyReader c e s) (hnext : e.next [0, POLLIN] s = some s') (hj : Jumps c k j s)
    (h0 : 0 ≤ k) (hk : k < s.rq_size) (hne : k ≠ s.rq_current) : Closer c k j s s' := by
  have hp := polled h hw e.rev
  have hclose : Closer c k j s (e.switched s) := by
    unfold Entry.switched schedulerSwitch
    cases hsrc : e.src with
    | signal => exact hp.signal h hj h0 hk hne
    | asyncRead => exact hp.asyncRead h hj h0 hk hne (honly hsrc)
    | exit => exact hp.exit h hj h0 hk hne
  obtain ⟨-, ⟨-, rfl⟩ | ⟨hzero, -⟩⟩ := e.next_cases hnext
  · exact hclose
  · -- the ready queue is not empty
    obtain ⟨k', h0', hk', -⟩ := hclose
    omega

/-- Nobody but `c` comes to wait. -/
theorem waiting_step (h : Dispatchable n s) (hw : ∀ w ∈ s.waiting, w = c) {e : Entry}
    (honly : OnlyReader c e s) (hnext : e.next [0, POLLIN] s = some s') :
    ∀ w ∈ s'.waiting, w = c := by
  have hswitched : ∀ w ∈ (e.switched s).waiting, w = c := by
    intro w hmem
    rcases mem_waiting_switch h hmem with hold | ⟨hsrc, rfl⟩
    · exact hw w hold
    · exact honly hsrc
  obtain ⟨-, ⟨-, rfl⟩ | ⟨-, -, rfl⟩⟩ := e.next_cases hnext
  · exact hswitched
  · exact fun w hmem => hswitched w (mem_waiting_poll (e.switched_spec h).1 hmem)

/-- A thread that is ready runs before there have been as many entries as are ahead of it. -/
theorem exists_dispatch {mem : Ptr → Tcb} {ps : List Spec} :
    ∀ {es : List Entry} {s t : Sched} {k j : ℤ}, Dispatchable n s → (∀ w ∈ s.waiting, w = c) →
      (dispatches [0, POLLIN] mem ps).EachStep (OnlyReader c) es s →
      (dispatches [0, POLLIN] mem ps).run es s = some t → 0 ≤ k → k < s.rq_size →
      (k = s.rq_current ∨ (Jumps c k j s ∧ s.ahead k j ≤ es.length + 1)) →
      ∃ m ∈ (dispatches [0, POLLIN] mem ps).states es s, m.RUNNING = s.ready_queue k := by
  intro es
  induction es with
  | nil =>
    intro s t k j h hw _ _ h0 hk hgoal
    refine ⟨s, by simp [System.states], ?_⟩
    rcases hgoal with rfl | ⟨hj, hle⟩
    · rfl
    · have hpos := h.distance_pos h0
      have hnonneg := hj.nonneg
      have hwq := h.wq_nonneg
      have hrq := h.rq_nonneg
      simp only [Sched.ahead, List.length_nil, Nat.cast_zero] at hle
      omega
  | cons e es ih =>
    intro s t k j h hw honly hrun h0 hk hgoal
    by_cases heq : k = s.rq_current
    · exact ⟨s, by simp [System.states], by rw [heq, RUNNING]⟩
    obtain ⟨hj, hle⟩ := hgoal.resolve_left heq
    obtain ⟨u, hstep, hrest⟩ := (System.run_cons _).1 hrun
    obtain ⟨hc, honly'⟩ := (System.eachStep_cons hstep).1 honly
    obtain ⟨k', h0', hk', hslot, hcase⟩ := closer_step h hw hc hstep hj h0 hk heq
    have hex : ∃ j' : ℤ, k' = u.rq_current ∨ (Jumps c k' j' u ∧ u.ahead k' j' ≤ es.length + 1) := by
      rcases hcase with hnow | ⟨j', hj', hlt⟩
      · exact ⟨0, Or.inl hnow⟩
      · refine ⟨j', Or.inr ⟨hj', ?_⟩⟩
        simp only [List.length_cons] at hle
        push_cast at hle
        omega
    obtain ⟨j', hgoal'⟩ := hex
    obtain ⟨m, hm, hrunm⟩ := ih (h.next hstep) (waiting_step h hw hc hstep) honly' hrest h0' hk'
      hgoal'
    refine ⟨m, ?_, hrunm.trans hslot⟩
    rw [System.states_cons hstep]
    exact List.mem_cons_of_mem _ hm

end Steps

/-- The state after a run, and what is left of the run, if only `c` reads. -/
theorem onlyReader_split {mem : Ptr → Tcb} {ps : List Spec} (hps : 1 ≤ ps.length) {c : Ptr}
    {es₀ es : List Entry} {s : Sched}
    (hrun : (dispatches [0, POLLIN] mem ps).run es₀ (schedulerStart (createAll mem ps)) = some s)
    (honly : (dispatches [0, POLLIN] mem ps).EachStep (OnlyReader c) (es₀ ++ es)
      (schedulerStart (createAll mem ps))) :
    (Dispatchable ps.length s ∧ ∀ w ∈ s.waiting, w = c) ∧
      (dispatches [0, POLLIN] mem ps).EachStep (OnlyReader c) es s := by
  constructor
  · refine System.eachStep_invariant (S := dispatches [0, POLLIN] mem ps) (C := OnlyReader c)
      (I := fun s => Dispatchable ps.length s ∧ ∀ w ∈ s.waiting, w = c)
      (fun e s t hs hstep hc => ⟨hs.1.next hstep, waiting_step hs.1 hs.2 hc hstep⟩) es₀ ?_ hrun
      fun es₁ e es₂ t heq => honly es₁ e (es₂ ++ es) t (by simp [heq])
    refine ⟨dispatchable_start mem hps, fun w hw => ?_⟩
    rw [Sched.waiting, show (schedulerStart (createAll mem ps)).wq_size = 0 from
      wq_size_createAll mem ps, queue_zero] at hw
    cases hw
  · intro es₁ e es₂ t heq hrun'
    exact honly (es₀ ++ es₁) e es₂ t (by simp [heq])
      ((System.run_append_eq_some _).2 ⟨s, hrun, hrun'⟩)

/-- Bounded waiting. If no thread but `c` calls `async_read`, a thread that is ready is
dispatched within four times as many entries of `scheduler` as there are threads, whatever
threads exit and whenever `c` waits and is woken. -/
theorem bounded_waiting {mem : Ptr → Tcb} {ps : List Spec} {c : Ptr} {es₀ es : List Entry}
    {s t : Sched}
    (hrun₀ : (dispatches [0, POLLIN] mem ps).run es₀ (schedulerStart (createAll mem ps)) = some s)
    (hrun : (dispatches [0, POLLIN] mem ps).run es s = some t)
    (honly : (dispatches [0, POLLIN] mem ps).EachStep (OnlyReader c) (es₀ ++ es)
      (schedulerStart (createAll mem ps)))
    (hlen : 4 * ps.length ≤ es.length) {u : Ptr} (hu : u ∈ s.ready) :
    ∃ m ∈ (dispatches [0, POLLIN] mem ps).states es s, m.RUNNING = u := by
  rcases Nat.eq_zero_or_pos ps.length with hps | hps
  · obtain rfl := List.length_eq_zero_iff.1 hps
    rw [ready_eq_nil ⟨_, es₀, rfl, hrun₀⟩] at hu
    cases hu
  obtain ⟨⟨h, hw⟩, honly'⟩ := onlyReader_split hps hrun₀ honly
  obtain ⟨k, h0, hk, rfl⟩ := mem_queue.1 hu
  refine exists_dispatch h hw honly' hrun h0 hk (j := 2) ?_
  by_cases heq : k = s.rq_current
  · exact Or.inl heq
  refine Or.inr ⟨Jumps.two c k s, ?_⟩
  have hsize := h.size_le
  have hwq := h.wq_nonneg
  obtain ⟨hc0, hc⟩ := h.current
  rw [Sched.ahead, Sched.distance]
  split_ifs <;> omega

/-- Entries from the signal handler are fine. -/
theorem eachStep_onlyReader {mem : Ptr → Tcb} {ps : List Spec} {c : Ptr} {es : List Entry}
    {s : Sched} (hes : ∀ e ∈ es, e.src ≠ .asyncRead) :
    (dispatches [0, POLLIN] mem ps).EachStep (OnlyReader c) es s := by
  rintro es₁ e es₂ t rfl - hsrc
  exact absurd hsrc (hes e (by simp))

/-- After `max_subarray` has waited it is woken, and both threads go on. -/
def sampleWoken : List Entry :=
  ⟨.signal, fun i => if i = 1 then POLLIN else 0, fun _ => 0⟩ ::
    List.replicate 7 ⟨.signal, fun _ => 0, fun _ => 0⟩

theorem bounded_waiting_pair : ∃ s,
    (dispatches [0, POLLIN] (fun _ => blank) samplePair).run
      [⟨.signal, fun _ => 0, fun _ => 0⟩, ⟨.asyncRead, fun _ => 0, fun _ => 0⟩]
      (schedulerStart (createAll (fun _ => blank) samplePair)) = some s ∧ s.ready = [1] ∧
    ∃ m ∈ (dispatches [0, POLLIN] (fun _ => blank) samplePair).states sampleWoken s,
      m.RUNNING = 1 := by
  refine ⟨_, (Option.some_get (by decide)).symm, by decide, ?_⟩
  refine @bounded_waiting (fun _ => blank) samplePair 2
    [⟨.signal, fun _ => 0, fun _ => 0⟩, ⟨.asyncRead, fun _ => 0, fun _ => 0⟩] sampleWoken _ _
    (Option.some_get (by decide)).symm (Option.some_get (by decide)).symm ?_ (by decide) 1
    (by decide)
  refine (System.eachStep_cons (Option.some_get (by decide)).symm).2
    ⟨fun hsrc => Src.noConfusion hsrc, ?_⟩
  exact (System.eachStep_cons (Option.some_get (by decide)).symm).2 ⟨fun _ => by decide,
    eachStep_onlyReader (by decide)⟩

/-! ## Two readers -/

/-- An entry that leaves a thread ready ends in a dispatch. -/
theorem Entry.next_of_switched {ok : List ℕ} {e : Entry} {s : Sched} (hp : PollResult ok e.rev s)
    (hpos : (e.switched s).rq_size ≠ 0) : e.next ok s = some (e.switched s) := by
  unfold Entry.next
  rw [if_pos ⟨hp, fun hzero => absurd hzero hpos⟩, scheduler_eq, if_neg hpos]

/-- The one of two threads that runs after `k` entries, if it was `a`. -/
def turn (a b : Ptr) (k : ℕ) : Ptr :=
  if k % 2 = 0 then a else b

theorem turn_succ (a b : Ptr) (k : ℕ) : turn a b (k + 1) = turn b a k := by
  unfold turn
  split_ifs <;> first | rfl | omega

/-- The thread `a` runs in the first slot, `b` waits, and all others are ready. -/
structure Alternates (n : ℕ) (a b : Ptr) (s : Sched) : Prop extends Dispatchable n s where
  freed : ∀ t ∈ List.range' 1 n, s.freed t = false
  first : s.rq_current = 0
  running : s.RUNNING = a
  waiting : s.waiting = [b]
  readable : (s.tcb a).fd ≠ -1 ∧ (s.tcb b).fd ≠ -1

namespace Alternates

variable {n : ℕ} {a b : Ptr} {s : Sched}

theorem mem_ready (h : Alternates n a b s) {u : Ptr} (hu : u ∈ List.range' 1 n) (hne : u ≠ b) :
    u ∈ s.ready := by
  refine ready_of_not_waiting h.toQueues hu (h.freed u hu) ?_
  rw [h.waiting, List.mem_singleton]
  exact hne

/-- A poll can report the record of the thread that waits, which is then the last that is
ready. -/
theorem exists_poll (h : Alternates n a b s) : ∃ rev, PollResult [0, POLLIN] rev s ∧
    Polled b s (pollReady rev s) ∧ (pollReady rev s).rq_size = s.rq_size + 1 ∧
    (pollReady rev s).ready_queue s.rq_size = b ∧ (pollReady rev s).waiting = [] := by
  have hd := h.toDispatchable
  have hb : b ∈ s.waiting := by
    rw [h.waiting]
    exact List.mem_singleton_self b
  have hb' := (hd.mem_alive (List.mem_append_right _ hb)).1
  obtain ⟨i, hi, rfl⟩ : ∃ i : ℕ, i < n ∧ i + 1 = b := by
    rw [List.mem_range'_1] at hb'
    exact ⟨b - 1, by omega, Nat.sub_add_cancel hb'.1⟩
  have hfd := hd.fds _ hb'
  rw [Nat.succ.inj (hd.index _ hb'), if_pos hb] at hfd
  have hp := polled hd (fun w hw => by rwa [h.waiting, List.mem_singleton] at hw) (onlyEntry i)
  have hnot := not_waiting_poll hd.toQueues hi (onlyEntry_self i)
  rw [← pollReady_eq] at hnot
  obtain ⟨-, hwait⟩ | ⟨hsize, hslot, -, hwait⟩ := hp.wakes
  · exact absurd (hwait ▸ hb) hnot
  · exact ⟨onlyEntry i, pollResult_onlyEntry (hfd ▸ h.readable.2), hp, hsize, hslot, hwait⟩

/-- All threads but one are ready. -/
theorem rq_size (h : Alternates n a b s) : s.rq_size + 1 = n := by
  have hlen := h.live.length_eq
  have hall : s.alive n = List.range' 1 n :=
    List.filter_eq_self.2 fun t ht => by simp [h.freed t ht]
  rw [List.length_append, h.waiting, hall, List.length_range', Sched.ready, length_queue,
    List.length_singleton] at hlen
  have := h.rq_nonneg
  omega

/-- The running thread reads when a record has come for the one that waits. -/
theorem step (h : Alternates n a b s) (hn : 3 ≤ n) :
    ∃ (e : Entry) (s' : Sched), e.src = .asyncRead ∧ e.next [0, POLLIN] s = some s' ∧
      Alternates n b a s' := by
  obtain ⟨rev, hpoll, hp, hsize, hslot, hwait⟩ := h.exists_poll
  obtain ⟨hq, hrun⟩ := pollReady_current h.toDispatchable rev
  have hf : Filled s (pollReady rev s) (schedulerSwitch .asyncRead rev s) :=
    hp.filled rfl rfl rfl
  have hrq := hf.rq_size
  have hready := h.rq_size
  have hcur : (schedulerSwitch .asyncRead rev s).rq_current = 0 := by
    rw [hf.rq_current, h.first, ite_self]
  have hpos : (schedulerSwitch .asyncRead rev s).rq_size ≠ 0 := by omega
  refine ⟨⟨.asyncRead, rev, fun _ => 0⟩, _, rfl, Entry.next_of_switched hpoll hpos,
    ⟨⟨(switch_spec hq .asyncRead).1, (switch_spec hq .asyncRead).2 hpos⟩, fun t ht => ?_, hcur,
      ?_, ?_, ?_⟩⟩
  · have hfreed : (schedulerSwitch .asyncRead rev s).freed t = _ :=
      freed_switch h.toDispatchable .asyncRead rev t
    rw [if_neg fun hc => Src.noConfusion hc.1] at hfreed
    exact hfreed.trans (h.freed t ht)
  · have hhole := hf.hole
    rw [h.first, hsize, Int.add_sub_cancel, hslot] at hhole
    exact (congrArg (schedulerSwitch .asyncRead rev s).ready_queue hcur).trans hhole
  · have hnew : (schedulerSwitch .asyncRead rev s).waiting =
        (pollReady rev s).waiting ++ [(pollReady rev s).RUNNING] := waiting_park hq.wq_nonneg
    rw [hwait, hrun, h.running] at hnew
    exact hnew
  · have htcb : (schedulerSwitch .asyncRead rev s).tcb = s.tcb := tcb_switch h.toQueues .asyncRead
    show ((schedulerSwitch .asyncRead rev s).tcb b).fd ≠ -1 ∧
      ((schedulerSwitch .asyncRead rev s).tcb a).fd ≠ -1
    rw [htcb]
    exact h.readable.symm

/-- They go on like this. -/
theorem run {mem : Ptr → Tcb} {ps : List Spec} (hn : 3 ≤ n) :
    ∀ (N : ℕ) {a b : Ptr} {s : Sched}, Alternates n a b s → ∃ es t, es.length = N ∧
      (dispatches [0, POLLIN] mem ps).run es s = some t ∧ (∀ e ∈ es, e.src = .asyncRead) ∧
      ∀ k m, ((dispatches [0, POLLIN] mem ps).states es s)[k]? = some m →
        m.RUNNING = turn a b k ∧ m.waiting = [turn b a k] ∧
          ∀ u ∈ List.range' 1 n, u ≠ a → u ≠ b → u ∈ m.ready
  | 0, a, b, s, h => by
    refine ⟨[], s, rfl, rfl, by simp, fun k m hm => ?_⟩
    obtain ⟨rfl, rfl⟩ : k = 0 ∧ m = s := by
      cases k <;> simp_all [System.states]
    exact ⟨h.running, h.waiting, fun u hu _ hne => h.mem_ready hu hne⟩
  | N + 1, a, b, s, h => by
    obtain ⟨e, s', hsrc, hstep, h'⟩ := h.step hn
    obtain ⟨es, t, hlen, hrun, hsrcs, hall⟩ := run hn N h'
    refine ⟨e :: es, t, by simp [hlen], (System.run_cons _).2 ⟨s', hstep, hrun⟩,
      List.forall_mem_cons.2 ⟨hsrc, hsrcs⟩, fun k m hm => ?_⟩
    rw [System.states_cons hstep] at hm
    cases k with
    | zero =>
      obtain rfl : s = m := by simpa using hm
      exact ⟨h.running, h.waiting, fun u hu _ hne => h.mem_ready hu hne⟩
    | succ k =>
      obtain ⟨hrun', hwait, hready⟩ := hall k m (by simpa using hm)
      rw [turn_succ, turn_succ]
      exact ⟨hrun', hwait, fun u hu hne hne' => hready u hu hne' hne⟩

end Alternates

end SP2022.ThreadLib
