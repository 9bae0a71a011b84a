import SP2022.ThreadProgress

/-!
# Threads do not disturb each other

In every state of the program a thread is where `solo` is after as many turns as it had. The
program with this thread alone follows the same `solo`, and reaches every number of turns that
the thread reaches beside others (`threads_isolated`).
-/

namespace SP2022.ThreadLib

open Sched

/-- Threads do not disturb each other. The program with the one thread `p` and the same
records reaches, with no more records sent, the lines that `p` has printed beside the other
threads and the values of `i`, `x` and `y` that it was resumed with; and in every state that
it reaches, one of the two sequences of lines continues the other, and likewise the
resumptions. -/
theorem threads_isolated {int : ℤ → ℤ} {mem : Ptr → Tcb} {ps : List Spec} {R : Ptr → ℕ → Record}
    (hid : (ps.map Spec.id).Nodup) {M : Machine} (hM : (program int mem ps R).Reachable M) {k : ℕ}
    {p : Spec} (hk : ps[k]? = some p) (mem' : Ptr → Tcb) :
    (∃ M', (program int mem' [p] fun _ => R (k + 1)).Reachable M' ∧
      M'.delivered 1 ≤ M.delivered (k + 1) ∧ M'.lines p.id = M.lines p.id ∧
      M'.resumptions 1 = M.resumptions (k + 1)) ∧
    ∀ M', (program int mem' [p] fun _ => R (k + 1)).Reachable M' →
      (M.lines p.id <+: M'.lines p.id ∧ M.resumptions (k + 1) <+: M'.resumptions 1) ∨
        (M'.lines p.id <+: M.lines p.id ∧ M'.resumptions 1 <+: M.resumptions (k + 1)) := by
  have hps : 1 ≤ ps.length := (Nat.zero_le k).trans_lt (List.getElem?_eq_some_iff.1 hk).1
  obtain ⟨m, ht⟩ := (isolated_of_reachable hid hps hM).tracked k p hk
  -- where the thread alone is
  have halone : ∀ {M' : Machine}, (program int mem' [p] fun _ => R (k + 1)).Reachable M' →
      Tracked int (R (k + 1)) p 1 (M'.resumptions 1).length M' := fun {M'} hM' =>
    @tracked_of_resumptions _ [p] (fun _ => R (k + 1)) _ _ (List.nodup_singleton _) 0 _ _ rfl
      hM' rfl
  constructor
  · have hstart : (program int mem' [p] fun _ => R (k + 1)).Reachable (Machine.start mem' [p]) :=
      .of_init rfl
    obtain ⟨es, M', hrun, ht', hdel⟩ := @exists_turns _ _ [p] (fun _ => R (k + 1)) _ 0 _ _
      (List.nodup_singleton _) rfl _ hstart (halone hstart) (Nat.zero_le _) m (Nat.zero_le m)
      ht.feasible
    exact ⟨M', hstart.run hrun, hdel, ht'.core.lines.trans ht.core.lines.symm,
      ht'.core.resumptions.trans ht.core.resumptions.symm⟩
  · intro M' hM'
    have ht' := halone hM'
    set m' := (M'.resumptions 1).length
    rw [ht.core.lines, ht.core.resumptions, ht'.core.lines, ht'.core.resumptions]
    rcases le_total m m' with hle | hle
    · exact Or.inl ⟨solo_lines_mono int _ p hle, solo_resumptions_mono int _ p hle⟩
    · exact Or.inr ⟨solo_lines_mono int _ p hle, solo_resumptions_mono int _ p hle⟩

/-- Both threads take a turn, the second waits for its record, is woken and prints. -/
def sampleEvents : List Event :=
  [.turn (some .SIGTSTP) fun _ => 0, .turn none fun _ => 0, .deliver 2,
    .turn (some .SIGALRM) fun i => if i = 1 then POLLIN else 0, .turn none fun _ => 0]

/-- The second thread's line is the one it prints alone. -/
theorem threads_isolated_record : ∃ M,
    (program id (fun _ => blank) samplePair fun _ _ => #v[32, 32, 32, 32, 51]).run sampleEvents
      (Machine.start (fun _ => blank) samplePair) = some M ∧
      M.lines 2 = [3] ∧
      ∃ M', (program id (fun _ => blank) [⟨.max_subarray, 2, 2, blank, 6⟩]
        fun _ _ => #v[32, 32, 32, 32, 51]).Reachable M' ∧ M'.lines 2 = [3] := by
  refine ⟨_, (Option.some_get (by decide)).symm, by decide, ?_⟩
  have halone := (@threads_isolated id (fun _ => blank) samplePair
    (fun _ _ => #v[32, 32, 32, 32, 51]) (by decide) _
    ⟨_, sampleEvents, rfl, (Option.some_get (by decide)).symm⟩ 1 _ rfl fun _ => blank).1
  obtain ⟨M', hM', -, hlines, -⟩ := halone
  exact ⟨M', hM', hlines.trans (by decide)⟩

end SP2022.ThreadLib
