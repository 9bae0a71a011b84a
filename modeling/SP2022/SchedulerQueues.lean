import SP2022.Scheduler

/-!
# What `move_queue` and `fill` do to the queues

The three nested loops of `move_queue` on the two arrays come down to lists. If the
waiting threads have distinct `fd_index`, a turn of the outer loop moves the waiter
of its entry to the end of the ready queue and leaves the others in order
(`moveWaiter_spec`), and the whole loop moves the waiters whose entry has `POLLIN`
exactly, in the order of their entries (`move_queue_spec`, `move_queue_exact`). `fill`
takes the running thread out of the ready queue (`ready_fill_perm`).
-/

namespace SP2022

/-- Deleting the only entry with a given key is filtering on the key. -/
theorem eraseIdx_eq_filter {α β : Type*} [DecidableEq β] (f : α → β) {l : List α}
    (hnd : (l.map f).Nodup) {k : ℕ} (hk : k < l.length) :
    l.eraseIdx k = l.filter fun a => f a ≠ f l[k] := by
  obtain ⟨u, x, v, rfl, rfl⟩ : ∃ u x v, l = u ++ x :: v ∧ k = u.length :=
    ⟨l.take k, l[k], l.drop (k + 1), by simp, by simp; omega⟩
  simp only [List.map_append, List.map_cons, List.nodup_append, List.nodup_cons] at hnd
  obtain ⟨-, ⟨hx, -⟩, hdisj⟩ := hnd
  have hu : u.filter (fun a => f a ≠ f x) = u := by
    refine List.filter_eq_self.2 fun a ha => ?_
    simpa using hdisj _ (List.mem_map_of_mem ha) _ List.mem_cons_self
  have hv : v.filter (fun a => f a ≠ f x) = v := by
    refine List.filter_eq_self.2 fun a ha => ?_
    have hne : f a ≠ f x := fun h => hx (h ▸ List.mem_map_of_mem ha)
    simpa using hne
  simp only [List.getElem_append_right le_rfl, Nat.sub_self, List.getElem_cons_zero,
    List.filter_append, hu, List.eraseIdx_append_of_length_le le_rfl, List.eraseIdx_cons_zero]
  rw [List.filter_cons_of_neg (by simp), hv]

/-- The only entry with a given key is all that the key's filter keeps. -/
theorem singleton_eq_filter {α β : Type*} [DecidableEq β] (f : α → β) {l : List α}
    (hnd : (l.map f).Nodup) {k : ℕ} (hk : k < l.length) :
    [l[k]] = l.filter fun a => f a = f l[k] := by
  have hcount : (l.filter fun a => f a = f l[k]).length = 1 := by
    rw [← List.countP_eq_length_filter]
    have h := List.count_eq_one_of_mem hnd (List.mem_map_of_mem (List.getElem_mem hk))
    rw [List.count, List.countP_map] at h
    simpa [Function.comp_def, beq_eq_decide] using h
  obtain ⟨a, ha⟩ := List.length_eq_one_iff.1 hcount
  have hmem : l[k] ∈ l.filter fun a => f a = f l[k] := by simp
  rw [ha, List.mem_singleton] at hmem
  rw [ha, hmem]

/-- Writing the last entry over entry `c` and dropping the end takes entry `c` out. -/
theorem cons_set_dropLast_perm {α : Type*} {l : List α} {c : ℕ} (hc : c < l.length) :
    (l[c] :: (l.set c (l.getLast (List.ne_nil_of_length_pos (by omega)))).dropLast).Perm l := by
  obtain ⟨u, z, rfl⟩ : ∃ u z, l = u ++ [z] := by
    rcases List.eq_nil_or_concat l with rfl | ⟨u, z, h⟩
    · simp at hc
    · exact ⟨u, z, by simpa using h⟩
  simp only [List.length_append, List.length_singleton] at hc
  rcases Nat.lt_or_ge c u.length with h | h
  · simp only [List.getLast_append_singleton, List.set_append_left _ _ h, List.dropLast_concat,
      List.getElem_append_left h]
    calc (u[c] :: u.set c z).Perm (u[c] :: z :: u.eraseIdx c) :=
          (List.set_perm_cons_eraseIdx h z).cons _
      _ |>.Perm (z :: u[c] :: u.eraseIdx c) := .swap _ _ _
      _ |>.Perm (z :: u) := (List.getElem_cons_eraseIdx_perm h).cons _
      _ |>.Perm (u ++ [z]) := (List.perm_append_singleton _ _).symm
  · obtain rfl : c = u.length := by omega
    simp [(List.perm_append_singleton _ _).symm]

namespace ThreadLib

open Sched

/-- The key the poll table knows a thread by. -/
abbrev Sched.index (s : Sched) (t : Ptr) : ℕ :=
  (s.tcb t).fd_index

/-- What a stretch of `move_queue` leaves alone. -/
structure Kept (s s' : Sched) : Prop where
  tcb : s'.tcb = s.tcb
  freed : s'.freed = s.freed
  nfds : s'.nfds = s.nfds
  rq_current : s'.rq_current = s.rq_current
  rq_size : s.rq_size ≤ s'.rq_size
  wq_size : 0 ≤ s'.wq_size
  slots : ∀ k < s.rq_size, s'.ready_queue k = s.ready_queue k

theorem Kept.refl {s : Sched} (h : 0 ≤ s.wq_size) : Kept s s :=
  ⟨rfl, rfl, rfl, rfl, le_rfl, h, fun _ _ => rfl⟩

theorem Kept.trans {s s' s'' : Sched} (h : Kept s s') (h' : Kept s' s'') : Kept s s'' where
  tcb := h'.tcb.trans h.tcb
  freed := h'.freed.trans h.freed
  nfds := h'.nfds.trans h.nfds
  rq_current := h'.rq_current.trans h.rq_current
  rq_size := h.rq_size.trans h'.rq_size
  wq_size := h'.wq_size
  slots k hk := (h'.slots k (hk.trans_le h.rq_size)).trans (h.slots k hk)

/-- The state after the search has moved the waiter in slot `k`. -/
def moveSlot (k : ℤ) (s : Sched) : Sched :=
  { s with
    ready_queue := Function.update s.ready_queue s.rq_size (s.waiting_queue k)
    rq_size := s.rq_size + 1
    waiting_queue := shiftDown s.waiting_queue k s.wq_size
    wq_size := s.wq_size - 1 }

/-- The search moves the first slot with the entry's index, or nothing. -/
theorem moveWaiter_cases (i : ℕ) (s : Sched) :
    ∀ (n : ℕ) (j : ℤ),
      (moveWaiter i n j s = s ∧ ∀ k, j ≤ k → k < j + n → s.index (s.waiting_queue k) ≠ i) ∨
        ∃ k, j ≤ k ∧ k < j + n ∧ s.index (s.waiting_queue k) = i ∧
          moveWaiter i n j s = moveSlot k s
  | 0, j => Or.inl ⟨rfl, fun k h1 h2 => by omega⟩
  | n + 1, j => by
    by_cases hj : s.index (s.waiting_queue j) = i
    · exact Or.inr ⟨j, le_rfl, by omega, hj, by rw [moveWaiter, if_pos hj, moveSlot]⟩
    have hstep : moveWaiter i (n + 1) j s = moveWaiter i n (j + 1) s := by
      rw [moveWaiter, if_neg hj]
    rcases moveWaiter_cases i s n (j + 1) with ⟨heq, hnone⟩ | ⟨k, h1, h2, hk, heq⟩
    · refine Or.inl ⟨hstep.trans heq, fun k h1 h2 => ?_⟩
      rcases eq_or_lt_of_le h1 with rfl | hlt
      · exact hj
      · exact hnone k (by omega) (by push_cast at h2; omega)
    · exact Or.inr ⟨k, by omega, by push_cast; omega, hk, hstep.trans heq⟩

/-- The search for entry `i`, with distinct indices among the waiters. -/
theorem moveWaiter_spec (i : ℕ) {s : Sched} (hr : 0 ≤ s.rq_size) (hw : 0 ≤ s.wq_size)
    (hnd : (s.waiting.map s.index).Nodup) :
    Kept s (moveWaiter i s.wq_size.toNat 0 s) ∧
      (moveWaiter i s.wq_size.toNat 0 s).fdarray = s.fdarray ∧
      (moveWaiter i s.wq_size.toNat 0 s).ready =
        s.ready ++ s.waiting.filter (fun t => s.index t = i) ∧
      (moveWaiter i s.wq_size.toNat 0 s).waiting = s.waiting.filter fun t => s.index t ≠ i := by
  rcases moveWaiter_cases i s s.wq_size.toNat 0 with ⟨heq, hnone⟩ | ⟨k, h0, hk, hi, heq⟩
  · rw [heq]
    have hne : ∀ t ∈ s.waiting, s.index t ≠ i := by
      intro t ht
      obtain ⟨k, h0, hk, rfl⟩ := mem_queue.1 ht
      exact hnone k h0 (by omega)
    refine ⟨Kept.refl hw, rfl, ?_, ?_⟩
    · rw [List.filter_eq_nil_iff.2 fun t ht => by simpa using hne t ht, List.append_nil]
    · rw [List.filter_eq_self.2 fun t ht => by simpa using hne t ht]
  · rw [heq]
    lift k to ℕ using h0
    have hlen : k < s.waiting.length := by
      simp only [Sched.waiting, length_queue]
      omega
    have hget : s.waiting[k] = s.waiting_queue k := getElem_queue _ _ _ _
    refine ⟨⟨rfl, rfl, rfl, rfl, ?_, ?_, fun m hm => ?_⟩, rfl, ?_, ?_⟩
    · simp [moveSlot]
    · simp only [moveSlot]
      omega
    · simp only [moveSlot]
      exact Function.update_of_ne hm.ne _ _
    · have hpush : (moveSlot k s).ready = s.ready ++ [s.waiting_queue k] := queue_push _ hr _
      rw [hpush, ← hget, singleton_eq_filter s.index hnd hlen, hget, hi]
    · have herase : (moveSlot k s).waiting = s.waiting.eraseIdx k :=
        queue_shiftDown _ (by simp only [Sched.waiting, length_queue] at hlen; omega)
      rw [herase, eraseIdx_eq_filter s.index hnd hlen, hget, hi]

/-- The waiters that the first `m` entries wake, in the order of the entries. -/
def woken (s : Sched) (m : ℕ) : List Ptr :=
  (List.range m).flatMap fun i =>
    if (s.fdarray i).revents = POLLIN then s.waiting.filter fun t => s.index t = i else []

theorem woken_succ (s : Sched) (m : ℕ) :
    woken s (m + 1) = woken s m ++
      if (s.fdarray m).revents = POLLIN then s.waiting.filter fun t => s.index t = m else [] := by
  simp [woken, List.range_succ]

/-- The outer loop of `move_queue` after `m` entries. -/
structure Moved (s : Sched) (m : ℕ) (s' : Sched) : Prop extends Kept s s' where
  ready : s'.ready = s.ready ++ woken s m
  waiting : s'.waiting = s.waiting.filter fun t =>
    ¬(s.index t < m ∧ (s.fdarray (s.index t)).revents = POLLIN)
  fdarray : ∀ i, s'.fdarray i =
    if i < m ∧ (s.fdarray i).revents = POLLIN then { s.fdarray i with fd := -1, revents := 0 }
    else s.fdarray i
  perm : (s'.ready ++ s'.waiting).Perm (s.ready ++ s.waiting)

theorem Moved.index {s s' : Sched} {m : ℕ} (h : Moved s m s') : s'.index = s.index := by
  funext t
  simp only [Sched.index, h.tcb]

theorem Moved.entry {s s' : Sched} {m : ℕ} (h : Moved s m s') : s'.fdarray m = s.fdarray m := by
  rw [h.fdarray, if_neg (by omega)]

/-- An entry without the event changes nothing. -/
theorem Moved.skip {s s' : Sched} {m : ℕ} (h : Moved s m s')
    (hev : (s.fdarray m).revents ≠ POLLIN) : Moved s (m + 1) (moveEntry m s') := by
  have hentry : moveEntry m s' = s' := by
    rw [moveEntry, h.entry, if_neg hev]
  rw [hentry]
  refine ⟨h.toKept, ?_, ?_, fun i => ?_, h.perm⟩
  · rw [h.ready, woken_succ, if_neg hev, List.append_nil]
  · rw [h.waiting]
    refine List.filter_congr fun t _ => ?_
    by_cases ht : s.index t = m
    · simp [ht, hev]
    · have hlt : s.index t < m + 1 ↔ s.index t < m := by omega
      simp [hlt]
  · rw [h.fdarray]
    by_cases him : i = m
    · rw [him, if_neg (by omega), if_neg fun hc => hev hc.2]
    · have hlt : i < m + 1 ↔ i < m := by omega
      simp only [hlt]

/-- The waiter of an entry with the event is still waiting, since the turns before moved
smaller indices only. -/
theorem Moved.waiter {s s' : Sched} {m : ℕ} (h : Moved s m s') :
    s'.waiting.filter (fun t => s'.index t = m) = s.waiting.filter fun t => s.index t = m := by
  rw [h.waiting, List.filter_filter, h.index]
  refine List.filter_congr fun t _ => ?_
  by_cases ht : s.index t = m <;> simp [ht]

/-- An entry with the event moves its waiter. -/
theorem Moved.take {s s' : Sched} {m : ℕ} (hr : 0 ≤ s.rq_size)
    (hnd : (s.waiting.map s.index).Nodup) (h : Moved s m s')
    (hev : (s.fdarray m).revents = POLLIN) : Moved s (m + 1) (moveEntry m s') := by
  have hnd' : (s'.waiting.map s'.index).Nodup := by
    rw [h.waiting, h.index]
    exact hnd.sublist (List.filter_sublist.map _)
  obtain ⟨hkept, hfd, hready, hwaiting⟩ :=
    moveWaiter_spec m (hr.trans h.rq_size) h.wq_size hnd'
  have hentry : moveEntry m s' =
      { moveWaiter m s'.wq_size.toNat 0 s' with
        fdarray :=
          Function.update s'.fdarray m { s.fdarray m with fd := -1, revents := 0 } } := by
    rw [moveEntry, h.entry, if_pos hev]
    simp only [hfd, h.entry]
  rw [hentry]
  have hkept' := h.toKept.trans hkept
  refine ⟨⟨hkept'.tcb, hkept'.freed, hkept'.nfds, hkept'.rq_current, hkept'.rq_size,
    hkept'.wq_size, hkept'.slots⟩, ?_, ?_, fun i => ?_, ?_⟩
  · refine hready.trans ?_
    rw [h.waiter, h.ready, woken_succ, if_pos hev, List.append_assoc]
  · refine hwaiting.trans ?_
    rw [h.waiting, List.filter_filter, h.index]
    refine List.filter_congr fun t _ => ?_
    by_cases ht : s.index t = m
    · simp [ht, hev]
    · have hlt : s.index t < m + 1 ↔ s.index t < m := by omega
      simp [ht, hlt]
  · simp only [Function.update_apply]
    split_ifs with him hc hc
    · rw [him]
    · exact absurd ⟨by omega, him ▸ hev⟩ hc
    · rw [h.fdarray, if_pos ⟨by omega, hc.2⟩]
    · rw [h.fdarray, if_neg fun hc' => hc ⟨by omega, hc'.2⟩]
  · refine List.Perm.trans ?_ h.perm
    show ((moveWaiter m s'.wq_size.toNat 0 s').ready ++
      (moveWaiter m s'.wq_size.toNat 0 s').waiting).Perm _
    rw [hready, hwaiting, List.append_assoc]
    refine List.Perm.append_left _ ?_
    simpa using List.filter_append_perm (fun t => decide (s'.index t = m)) s'.waiting

theorem moved_step {s s' : Sched} {m : ℕ} (hr : 0 ≤ s.rq_size)
    (hnd : (s.waiting.map s.index).Nodup) (h : Moved s m s') :
    Moved s (m + 1) (moveEntry m s') := by
  by_cases hev : (s.fdarray m).revents = POLLIN
  · exact h.take hr hnd hev
  · exact h.skip hev

/-- `move_queue` moves exactly the waiters whose entry has `revents == POLLIN`, in the
order of their entries. -/
theorem move_queue_spec {s : Sched} (hr : 0 ≤ s.rq_size) (hw : 0 ≤ s.wq_size)
    (hnd : (s.waiting.map s.index).Nodup) : Moved s s.nfds (move_queue s) := by
  have main : ∀ m, Moved s m ((List.range m).foldl (fun s i => moveEntry i s) s) := by
    intro m
    induction m with
    | zero =>
      refine ⟨Kept.refl hw, by simp [woken], ?_, fun i => by simp, .refl _⟩
      exact (List.filter_eq_self.2 fun t _ => by simp).symm
    | succ m ih =>
      rw [List.range_succ, List.foldl_append]
      exact moved_step hr hnd ih
  exact main s.nfds

/-- The thread's entry of the poll table has `POLLIN`. -/
def Sched.Reported (s : Sched) (t : Ptr) : Prop :=
  (s.fdarray (s.index t)).revents = POLLIN

instance (s : Sched) (t : Ptr) : Decidable (s.Reported t) :=
  inferInstanceAs (Decidable (_ = _))

theorem mem_woken {s : Sched} {m : ℕ} {t : Ptr} :
    t ∈ woken s m ↔ t ∈ s.waiting ∧ s.index t < m ∧ s.Reported t := by
  simp only [woken, List.mem_flatMap, List.mem_range, List.mem_ite_nil_right, List.mem_filter,
    decide_eq_true_eq, Sched.Reported]
  constructor
  · rintro ⟨i, hi, hrev, ht, rfl⟩
    exact ⟨ht, hi, hrev⟩
  · rintro ⟨ht, hi, hrev⟩
    exact ⟨_, hi, hrev, ht, rfl⟩

/-- The waiters are woken in the order of their entries. -/
theorem woken_pairwise {s : Sched} (hnd : (s.waiting.map s.index).Nodup) (m : ℕ) :
    (woken s m).Pairwise fun t u => s.index t < s.index u := by
  induction m with
  | zero => simp [woken]
  | succ m ih =>
    rw [woken_succ]
    refine List.pairwise_append.2 ⟨ih, ?_, fun t ht u hu => ?_⟩
    · split_ifs
      · -- at most one waiter has the index `m`
        have hne : (s.waiting.filter fun t => s.index t = m).Pairwise
            fun t u => s.index t ≠ s.index u :=
          (List.pairwise_map.1 hnd).sublist List.filter_sublist
        refine hne.imp_of_mem fun {t u} ht hu htu => absurd ?_ htu
        have ht' := (List.mem_filter.1 ht).2
        have hu' := (List.mem_filter.1 hu).2
        simp only [decide_eq_true_eq] at ht' hu'
        rw [ht', hu']
      · exact List.Pairwise.nil
    · have ht' := (mem_woken.1 ht).2.1
      split_ifs at hu
      · have hu' := (List.mem_filter.1 hu).2
        simp only [decide_eq_true_eq] at hu'
        omega
      · simp at hu

/-- `move_queue` moves exactly the waiters whose entry of the poll table has `POLLIN`, in
increasing order of their entries, and resets these entries. -/
theorem move_queue_exact {s : Sched} (hr : 0 ≤ s.rq_size) (hw : 0 ≤ s.wq_size)
    (hnd : (s.waiting.map s.index).Nodup) (hidx : ∀ t ∈ s.waiting, s.index t < s.nfds) :
    (∃ moved : List Ptr, moved.Perm (s.waiting.filter fun t => s.Reported t) ∧
      moved.Pairwise (fun t u => s.index t < s.index u) ∧
      (move_queue s).ready = s.ready ++ moved) ∧
    (move_queue s).waiting = s.waiting.filter (fun t => ¬s.Reported t) ∧
    (move_queue s).rq_size + (move_queue s).wq_size = s.rq_size + s.wq_size ∧
    ∀ i, (move_queue s).fdarray i =
      if i < s.nfds ∧ (s.fdarray i).revents = POLLIN then
        { s.fdarray i with fd := -1, revents := 0 }
      else s.fdarray i := by
  have hm := move_queue_spec hr hw hnd
  have hsorted := woken_pairwise hnd s.nfds
  refine ⟨⟨woken s s.nfds, ?_, hsorted, hm.ready⟩, ?_, ?_, hm.fdarray⟩
  · have hnodup : (woken s s.nfds).Nodup := hsorted.imp fun h heq => by
      rw [heq] at h
      exact lt_irrefl _ h
    refine (List.perm_ext_iff_of_nodup hnodup ((List.Nodup.of_map _ hnd).filter _)).2 fun t => ?_
    rw [mem_woken, List.mem_filter, decide_eq_true_eq]
    exact ⟨fun h => ⟨h.1, h.2.2⟩, fun h => ⟨h.1, hidx t h.1, h.2⟩⟩
  · rw [hm.waiting]
    refine List.filter_congr fun t ht => ?_
    rw [decide_eq_decide, Sched.Reported, and_iff_right (hidx t ht)]
  · have hlen := hm.perm.length_eq
    simp only [List.length_append, Sched.ready, Sched.waiting, length_queue] at hlen
    have hr' := hr.trans hm.rq_size
    have hw' := hm.wq_size
    omega

/-- Three waiters, queued out of the order of their entries, and one ready thread. The
entries 0 and 2 have `POLLIN`. -/
def sampleWaiters : Sched where
  tcb t := ⟨⟨0, ⟨.max_subarray, .read⟩, 0, [], 0, 0, 0⟩, 5, t - 1⟩
  freed _ := false
  ready_queue _ := 4
  rq_size := 1
  rq_current := 0
  waiting_queue k := if k = 0 then 3 else if k = 1 then 2 else 1
  wq_size := 3
  fdarray i := ⟨5, POLLIN, if i = 1 then 0 else POLLIN⟩
  nfds := 4

theorem move_queue_exact_two :
    sampleWaiters.waiting = [3, 2, 1] ∧ (move_queue sampleWaiters).ready = [4, 1, 3] ∧
      (move_queue sampleWaiters).waiting = sampleWaiters.waiting.filter fun t =>
        ¬sampleWaiters.Reported t :=
  ⟨by decide, by decide, (@move_queue_exact sampleWaiters (by decide) (by decide) (by decide)
    (by decide)).2.1⟩

/-! ## `fill` -/

/-- `fill` leaves the ready queue without the running thread. -/
theorem ready_fill_perm {s : Sched} (h0 : 0 ≤ s.rq_current) (hc : s.rq_current < s.rq_size) :
    (s.RUNNING :: (fill s).ready).Perm s.ready := by
  obtain ⟨c, hcur⟩ := Int.eq_ofNat_of_zero_le h0
  have hlen : c < s.ready.length := by
    simp only [Sched.ready, length_queue]
    omega
  have hfill : (fill s).ready = (s.ready.set c (s.ready_queue (s.rq_size - 1))).dropLast := by
    simp only [fill, Sched.ready]
    rw [hcur]
    exact queue_fill _ _ _
  have hrun : s.RUNNING = s.ready[c] := by
    simp [Sched.RUNNING, Sched.ready, hcur]
  have hlast : s.ready_queue (s.rq_size - 1) =
      s.ready.getLast (List.ne_nil_of_length_pos (by omega)) := by
    rw [List.getLast_eq_getElem]
    simp only [Sched.ready, getElem_queue, length_queue]
    congr 1
    omega
  rw [hfill, hrun, hlast]
  exact cons_set_dropLast_perm hlen

end ThreadLib

end SP2022
