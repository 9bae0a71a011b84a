import SP2022.ChampionshipVariables

/-!
# The other ends of the pipes

When all processes that could write to a pipe have exited, `read` returns 0, and the status is
the one from before. When all that could read from it have exited, a write to it fails. The
reads of the network wait instead, and its writes do not fail. If the players come with hit
points and attack, it makes no difference : a read that is made after the writer has exited
finds a status, and no reader exits before the last write (`connected`). Each championship
whose battles all fight can be brought to an end, where all has been read, and one with a
battle that is held takes the same steps.

So every line of `readLog` is about a status that was read, and no log ever shows a status as
received that no log shows as sent (`logs_causal`).
-/

namespace SP2022.Championship

open Network

/-- The pipes between a process and its parent. -/
def Chan.Pipe : Chan → Prop
  | .stdin p => p ≠ []
  | .stdout p => p ≠ []
  | _ => False

/-- No read of the process `p` returns 0, and no write of it fails. -/
structure Connected (S : Setup) (s : State) (p : Pid) : Prop where
  read : ∀ (c : Chan) (k : c.Value → Local) (q : Pid), c.Pipe → op S p (s.proc p) = .read c k →
    writer c = some q → s.proc q = .exited → s.got c < (s.sent c).length
  write : ∀ (c : Chan) (v : c.Value) (l : Local) (q : Pid), c.Pipe →
    op S p (s.proc p) = .write c v l → reader c = some q → s.proc q ≠ .exited

section Ends

variable {S : Setup} {s t : State} {p : Pid}

theorem Finished.all_read (h : Finished s) (hs : (network S).system.Reachable s) {c : Chan}
    (hc : c.Pipe) : s.got c = (s.sent c).length := by
  cases c with
  | stdin q =>
    obtain ⟨x, r, rfl⟩ := List.exists_cons_of_ne_nil hc
    exact (h.read hs r x).1
  | stdout q =>
    obtain ⟨x, r, rfl⟩ := List.exists_cons_of_ne_nil hc
    exact (h.read hs r x).2
  | _ => exact hc.elim

/-- At the end, no process is about to read from a pipe or to write to one. -/
theorem Finished.op_eq (h : Finished t) (p : Pid) :
    op S p (t.proc p) = .halt ∨ ∃ k, op S p (t.proc p) = .read (.fork p) k := by
  rcases h p with hproc | ⟨hproc, -⟩ <;> rw [hproc]
  · exact Or.inl rfl
  · exact Or.inr ⟨_, rfl⟩

theorem connected_valid (hS : S.Valid) {w : List Pid}
    (hrun : (network S).system.run w (start S) = some s) (p : Pid) : Connected S s p := by
  obtain ⟨w₀, t, o, hrun₀, hfair, hfinal⟩ := exists_outcome hS
  have ht : Finished t := hfinal.finished hfair hrun₀
  obtain ⟨v, hv, -⟩ := run_completes (hfinal.settled hfair hrun₀) (fun _ => Nat.zero_le _)
    hrun₀ hrun
  have hhalt : ∀ {q}, s.proc q = .exited → (network S).op q (s.proc q) = .halt := fun hq => by
    rw [hq]
    rfl
  constructor
  · intro c k q hc hop hwriter hq
    have hp : p ∈ v := by
      by_contra hp
      have hend := ht.op_eq (S := S) p
      rw [run_proc hv hp, hop] at hend
      rcases hend with hend | ⟨k', hend⟩
      · cases hend
      · cases hend
        exact hc
    exact unread_of_halt (N := network S) hv hp hop hwriter (hhalt hq)
  · intro c x l q hc hop hreader hq
    have hp : p ∈ v := by
      by_contra hp
      have hend := ht.op_eq (S := S) p
      rw [run_proc hv hp, hop] at hend
      rcases hend with hend | ⟨k', hend⟩ <;> cases hend
    -- what is written now is never read
    have hlt := unread_of_write (N := network S) (Sane.run (fun _ => Nat.zero_le _) hrun) hv hp
      hop hreader (hhalt hq)
    rw [ht.all_read ⟨_, w₀, rfl, hrun₀⟩ hc] at hlt
    exact lt_irrefl _ hlt

/-- Processes that are not held are where they are in the other championship. -/
theorem Lags.op_eq {s' : State} (h : Lags s s') {c : Chan} (hc : c.Pipe)
    (hop : (∃ k, op S p (s.proc p) = .read c k) ∨ ∃ v l, op S p (s.proc p) = .write c v l) :
    op S.cleared p (s'.proc p) = op S p (s.proc p) := by
  have hproc : s'.proc p = s.proc p := by
    refine (h.proc p).resolve_right fun hheld => ?_
    obtain ⟨⟨battle_ID, stat1, stat2, hproc⟩, -⟩ := hheld
    rw [hproc] at hop
    rcases hop with ⟨k, hop⟩ | ⟨v, l, hop⟩ <;> cases hop
  rw [hproc]
  refine op_cleared S p _ fun battle_ID hl => ?_
  rw [hl] at hop
  rcases hop with ⟨k, hop⟩ | ⟨v, l, hop⟩
  · cases hop
  · cases hop
    exact hc.elim

theorem Lags.exited {s' : State} (h : Lags s s') (hp : s.proc p = .exited) :
    s'.proc p = .exited := by
  refine ((h.proc p).resolve_right fun hheld => ?_).trans hp
  obtain ⟨⟨battle_ID, stat1, stat2, hproc⟩, -⟩ := hheld
  cases hp.symm.trans hproc

/-- No process meets the end of a pipe. -/
theorem connected (hS : S.Able) (h : (network S).system.Reachable s) (p : Pid) :
    Connected S s p := by
  obtain ⟨_, w, rfl, hrun⟩ := h
  obtain ⟨s', hrun', hlags⟩ := exists_lags hS hrun
  obtain ⟨hread, hwrite⟩ := connected_valid hS.cleared hrun' p
  constructor
  · intro c k q hc hop hwriter hq
    have hop' := (hlags.op_eq hc (.inl ⟨k, hop⟩)).trans hop
    have hlt := hread c k q hc hop' hwriter (hlags.exited hq)
    rwa [hlags.got, hlags.sent] at hlt
  · intro c v l q hc hop hreader hq
    have hop' := (hlags.op_eq hc (.inr ⟨v, l, hop⟩)).trans hop
    exact hwrite c v l q hc hop' hreader (hlags.exited hq)

end Ends

/-! ## What the logs show -/

/-- The logs are never ahead of each other the wrong way. In every state, the statuses that the
log of a battle shows as received from a child are a beginning of what was written to the
pipe, and this of what the log of the child shows as sent, and the same holds of the answers.
None of the reads returns 0. -/
theorem logs_causal {S : Setup} (hS : S.Able) {pid : Pid → ℕ} {s : LogState}
    (h : (logNetwork S pid).system.Reachable s) (p : Pid) (x : Side) :
    ((s.sent (.log p)).filterMap (Line.received (.stdout (x :: p))) <+:
        s.sent (.chan (.stdout (x :: p))) ∧
      s.sent (.chan (.stdout (x :: p))) <+:
        (s.sent (.log (x :: p))).filterMap (Line.sent (.stdout (x :: p)))) ∧
    ((s.sent (.log (x :: p))).filterMap (Line.received (.stdin (x :: p))) <+:
        s.sent (.chan (.stdin (x :: p))) ∧
      s.sent (.chan (.stdin (x :: p))) <+:
        (s.sent (.log p)).filterMap (Line.sent (.stdin (x :: p)))) ∧
    Connected S (erase s) p ∧ Connected S (erase s) (x :: p) :=
  ⟨causal (fresh S) (notesReads_stdout S pid _) (notesWrites_stdout S pid _) rfl rfl h,
    causal (fresh S) (notesReads_stdin S pid _) (notesWrites_stdin S pid _) rfl rfl h,
    connected hS (erase_reachable h) p, connected hS (erase_reachable h) (x :: p)⟩

/-- The logs of battle `A` and its left child at the end of the championship of
`player_status.txt`. -/
theorem logs_causal_final : ∃ s : LogState, LogFinished s ∧
    ((s.sent (.log [])).filterMap (Line.received (.stdout [.left])) <+:
        s.sent (.chan (.stdout [.left])) ∧
      s.sent (.chan (.stdout [.left])) <+:
        (s.sent (.log [.left])).filterMap (Line.sent (.stdout [.left]))) ∧
    ((s.sent (.log [.left])).filterMap (Line.received (.stdin [.left])) <+:
        s.sent (.chan (.stdin [.left])) ∧
      s.sent (.chan (.stdin [.left])) <+:
        (s.sent (.log [])).filterMap (Line.sent (.stdin [.left]))) ∧
    Connected zeroed (erase s) [] ∧ Connected zeroed (erase s) [.left] := by
  obtain ⟨w, s, -, hrun, hfinished, -⟩ := exists_log_outcome zeroed_valid fun _ => 1
  exact ⟨s, hfinished, logs_causal zeroed_valid.toAble ⟨_, w, rfl, hrun⟩ [] .left⟩

end SP2022.Championship
