import SP2022.ChampionshipPipes
import SP2022.ChampionshipSchedule
import SP2022.NetworkLogs

/-!
# The log files

`readLog` and `writeLog` : a process writes a line to its log file after each status that it
reads from a pipe and before each one that it writes, and players write one when a status goes
through a FIFO. `getpid` of the process `p` is `pid p`. With the lines the championship is
a network again (`logNetwork`), so the results on logs apply to it.

Each process writes the same lines, whatever the order of steps, and at the end they list all
that went through the pipes (`logs_schedule_independent`).
-/

namespace SP2022.Championship

open Network

/-! ## The lines -/

/-- `log_battle%c.txt` and `log_player%d.txt`. -/
inductive LogFile
  | battle (battle_ID : Char)
  | player (player_ID : ℤ)
  deriving DecidableEq

/-- What a process keeps to write its lines : its first argument, `target` of a player, and the
log file that is open, with or without `O_APPEND`. -/
structure Vars where
  argv1 : List Char
  target : List Char
  file : LogFile
  O_APPEND : Bool

/-- A line, with what is printed and the pipe that it is about. -/
inductive Line
  | writeLog (c : Chan) (ID : List Char) (pid : ℕ) (target : List Char) (target_pid : ℕ)
    (status : Status)
  | readLog (c : Chan) (ID : List Char) (pid : ℕ) (target : List Char) (target_pid : ℕ)
    (status : Status)
  | fifoTo (player_ID : ℤ) (pid : ℕ) (loser : ℤ) (status : Status)
  | fifoFrom (player_ID : ℤ) (pid : ℕ) (status : Status)

/-- `%d`. -/
def percentD (n : ℤ) : List Char :=
  if n < 0 then '-' :: Nat.toDigits 10 n.natAbs else Nat.toDigits 10 n.natAbs

/-- The two lines of `log.c`. -/
def pipeText (verb : String) (ID : List Char) (pid : ℕ) (target : List Char) (target_pid : ℕ)
    (status : Status) : List Char :=
  ID ++ [','] ++ percentD pid ++ verb.toList ++ target ++ [','] ++ percentD target_pid ++ [' '] ++
    percentD status.real_player_id ++ [','] ++ percentD status.HP ++ [','] ++
    [status.current_battle_id] ++ [','] ++ percentD status.battle_ended_flag ++ ['\n']

/-- The two lines of `player.c`. -/
def fifoText (verb : String) (player_ID : ℤ) (pid : ℕ) (other : ℤ) (status : Status) :
    List Char :=
  percentD player_ID ++ [','] ++ percentD pid ++ verb.toList ++ percentD other ++ [' '] ++
    percentD status.real_player_id ++ [','] ++ percentD status.HP ++ ['\n']

/-- What `sprintf` puts into `buf`. -/
def Line.text : Line → List Char
  | .writeLog _ ID pid target target_pid status =>
    pipeText " pipe to " ID pid target target_pid status
  | .readLog _ ID pid target target_pid status =>
    pipeText " pipe from " ID pid target target_pid status
  | .fifoTo player_ID pid loser status => fifoText " fifo to " player_ID pid loser status
  | .fifoFrom player_ID pid status =>
    fifoText " fifo from " player_ID pid status.real_player_id status

/-- What is written to the file, `strlen(buf)` characters. -/
def Line.written (a : Line) : List Char :=
  a.text.takeWhile (· ≠ '\x00')

/-! ## Who writes which lines -/

/-- The name that a battle has for the child of a side. -/
def Node.name (n : Node) : Side → List Char
  | .left => n.left
  | .right => n.right

/-- The battle that a process runs. -/
def Local.battle_ID : Local → Char
  | .playRead battle_ID _ _ _ | .playWrite battle_ID _ _ _ | .passRead battle_ID _ _
  | .passUp battle_ID _ _ | .passBack battle_ID _ _ | .passDown battle_ID _ _ => battle_ID
  | _ => '\x00'

/-- The name of the parent in the lines of a process. -/
def parentName (m : Vars) : Local → List Char
  | .passUp battle_ID _ _ | .passBack battle_ID _ _ => (graph battle_ID).parent
  | _ => m.target

/-- The file that a program opens for its log. An agent opens another one later. -/
def Command.file : Command → LogFile
  | .battle argv1 => .battle (argv1.headD '\x00')
  | .player argv1 => .player (atoi argv1)

/-- The `target` of a real player is set from its line in `player_status.txt`. -/
def execVars (S : Setup) : Command → Vars
  | .battle argv1 => ⟨argv1, [], (Command.battle argv1).file, false⟩
  | .player argv1 =>
    ⟨argv1, [(S.file (atoi argv1)).current_battle_id], (Command.player argv1).file, false⟩

/-- The lines of the championship. -/
def notes (S : Setup) (pid : Pid → ℕ) : Notes Pid Chan Chan.Value Local Vars Line where
  vars _ := execVars S (.battle ['A'])
  before p m
    | .playWrite battle_ID x stat1 stat2 =>
      [.writeLog (.stdin (x :: p)) m.argv1 (pid p) ((graph battle_ID).name x) (pid (x :: p))
        (both (stat1, stat2) x)]
    | .passUp battle_ID _ stat =>
      [.writeLog (.stdout p) m.argv1 (pid p) (graph battle_ID).parent (pid p.tail) stat]
    | .passDown battle_ID won stat =>
      [.writeLog (.stdin (won :: p)) m.argv1 (pid p) ((graph battle_ID).name won)
        (pid (won :: p)) stat]
    | .playerWrite _ _ status =>
      [.writeLog (.stdout p) m.argv1 (pid p) m.target (pid p.tail) status]
    | _ => []
  heard p m l
    | .fork _, argv => (execVars S argv, [])
    | .stdin q, status =>
      (m, [.readLog (.stdin q) m.argv1 (pid p) (parentName m l) (pid p.tail) status])
    | .stdout q, status =>
      (m, [.readLog (.stdout q) m.argv1 (pid p) ((graph l.battle_ID).name (q.headD .left)) (pid q)
        status])
    | .fifo _, status =>
      (⟨m.argv1, [(graph status.current_battle_id).loser_parent], .player status.real_player_id,
          true⟩,
        [.fifoFrom (atoi m.argv1) (pid p) status])
    | .terminal, _ => (m, [])
  after p m
    | .writeFIFO n status => [.fifoTo (atoi m.argv1) (pid p) n status]
    | _ => []

/-- The championship with its log files. -/
def logNetwork (S : Setup) (pid : Pid → ℕ) :
    Network Pid (Logged Pid Chan) Flag (Logged.Value Chan.Value Line) (Writing Local Vars Line) :=
  (network S).logging (notes S pid)

/-- A state of the championship with its log files. -/
abbrev LogState :=
  Config Pid (Logged Pid Chan) Flag (Logged.Value Chan.Value Line) (Writing Local Vars Line)

/-- The status of a line `pipe from` on the channel `c`. -/
def Line.received (c : Chan) : Line → Option Status
  | .readLog d _ _ _ _ status => if d = c then some status else none
  | _ => none

/-- The status of a line `pipe to` on the channel `c`. -/
def Line.sent (c : Chan) : Line → Option Status
  | .writeLog d _ _ _ _ status => if d = c then some status else none
  | _ => none

theorem fresh (S : Setup) : (network S).Fresh :=
  fun _ => ⟨rfl, rfl⟩

section Notes

variable (S : Setup) (pid : Pid → ℕ) (q : Pid)

theorem notes_before_received (c : Chan) (p : Pid) (m : Vars) (l : Local) :
    ((notes S pid).before p m l).filterMap (Line.received c) = [] := by
  cases l <;> rfl

theorem notes_after_received (c : Chan) (p : Pid) (m : Vars) (l : Local) :
    ((notes S pid).after p m l).filterMap (Line.received c) = [] := by
  cases l <;> rfl

theorem notesReads_stdin :
    NotesReads (notes S pid) (.stdin q) (Line.received (.stdin q)) where
  before := notes_before_received S pid _
  heard p m l v := by simp [notes, Line.received]
  heard_of_ne p m l d v hd := by cases d <;> simp_all [notes, Line.received]
  after := notes_after_received S pid _

theorem notesReads_stdout :
    NotesReads (notes S pid) (.stdout q) (Line.received (.stdout q)) where
  before := notes_before_received S pid _
  heard p m l v := by simp [notes, Line.received]
  heard_of_ne p m l d v hd := by cases d <;> simp_all [notes, Line.received]
  after := notes_after_received S pid _

/-- A line is about the pipe that it is written for. -/
theorem sent_stdin (r : Pid) (ID target : List Char) (n n' : ℕ) (status : Status) (l : Local) :
    ([Line.writeLog (.stdin r) ID n target n' status].filterMap (Line.sent (.stdin q)) =
      offers (.stdin q) (Op.write (V := Chan.Value) (F := Flag) (.stdin r) status l)) := by
  by_cases hr : r = q
  · subst hr
    simp [Line.sent]
  · rw [offers_of_ne (by simpa using hr)]
    simp [Line.sent, hr]

theorem sent_stdout (r : Pid) (ID target : List Char) (n n' : ℕ) (status : Status) (l : Local) :
    ([Line.writeLog (.stdout r) ID n target n' status].filterMap (Line.sent (.stdout q)) =
      offers (.stdout q) (Op.write (V := Chan.Value) (F := Flag) (.stdout r) status l)) := by
  by_cases hr : r = q
  · subst hr
    simp [Line.sent]
  · rw [offers_of_ne (by simpa using hr)]
    simp [Line.sent, hr]

theorem notesWrites_stdin :
    NotesWrites (network S) (notes S pid) (.stdin q) (Line.sent (.stdin q)) where
  before p m l := by
    cases l with
    | forking battle_ID x => cases x <;> rfl
    | playRead battle_ID x stat1 stat2 => cases x <;> rfl
    | playWrite battle_ID x stat1 stat2 => cases x <;> exact sent_stdin q _ _ _ _ _ _ _
    | passDown battle_ID won stat => exact sent_stdin q _ _ _ _ _ _ _
    | _ => rfl
  heard p m l d v := by cases d <;> rfl
  after p m l := by cases l <;> rfl

theorem notesWrites_stdout :
    NotesWrites (network S) (notes S pid) (.stdout q) (Line.sent (.stdout q)) where
  before p m l := by
    cases l with
    | forking battle_ID x => cases x <;> rfl
    | playRead battle_ID x stat1 stat2 => cases x <;> rfl
    | playWrite battle_ID x stat1 stat2 => cases x <;> rfl
    | passUp battle_ID won stat => exact sent_stdout q _ _ _ _ _ _ _
    | playerWrite player_ID originHP status => exact sent_stdout q _ _ _ _ _ _ _
    | _ => rfl
  heard p m l d v := by cases d <;> rfl
  after p m l := by cases l <;> rfl

end Notes

/-! ## At the end -/

/-- Every process that was forked has exited, and has written its lines. -/
def LogFinished (s : LogState) : Prop :=
  Quiet s ∧ Finished (erase s)

theorem LogFinished.no_step {S : Setup} {pid : Pid → ℕ} {s : LogState} (h : LogFinished s)
    (p : Pid) : (logNetwork S pid).step p s = none := by
  cases hstep : (logNetwork S pid).step p s with
  | none => rfl
  | some t =>
    rcases erase_step hstep with ⟨hne, -⟩ | ⟨-, hstep'⟩
    · exact absurd (h.1 p) hne
    · cases (h.2.no_step p).symm.trans hstep'

theorem quiet_start (S : Setup) (pid : Pid → ℕ) : Quiet (logNetwork S pid).start := by
  intro p
  show (notes S pid).before p _ ((start S).proc p) = []
  by_cases hp : p = []
  · subst hp
    rfl
  · rw [show (start S).proc p = .unforked from if_neg hp]
    rfl

/-- At the end, all that was written to a pipe has been read. -/
theorem Finished.read {S : Setup} {s : State} (h : Finished s)
    (hs : (network S).system.Reachable s) (p : Pid) (x : Side) :
    s.got (.stdin (x :: p)) = (s.sent (.stdin (x :: p))).length ∧
      s.got (.stdout (x :: p)) = (s.sent (.stdout (x :: p))).length := by
  have hpiped := piped_of_reachable hs
  have hlinked := hpiped.linked p x
  have hin := hpiped.sane (.stdin (x :: p))
  have hout := hpiped.sane (.stdout (x :: p))
  have howed : (s.proc p).owed x = [] := by
    rcases h p with hproc | ⟨hproc, -⟩ <;> rw [hproc] <;> rfl
  have hasked : (s.proc (x :: p)).asked = [] := by
    rcases h (x :: p) with hproc | ⟨hproc, -⟩ <;> rw [hproc] <;> rfl
  have htold := congrArg List.length hlinked.told
  have hheard := congrArg List.length hlinked.heard
  rw [howed, List.append_nil, List.length_map, List.length_map, List.length_take,
    min_eq_left hout] at htold
  rw [hasked, List.append_nil, List.length_map, List.length_map, List.length_take,
    min_eq_left hin] at hheard
  omega

/-- What the log of a process that has halted says. -/
theorem LogFinished.pipes {S : Setup} {pid : Pid → ℕ} {s : LogState} (h : LogFinished s)
    (hs : (logNetwork S pid).system.Reachable s) (p : Pid) (x : Side) :
    ((s.sent (.log p)).filterMap (Line.received (.stdout (x :: p))) =
        s.sent (.chan (.stdout (x :: p))) ∧
      (s.sent (.log (x :: p))).filterMap (Line.sent (.stdout (x :: p))) =
        s.sent (.chan (.stdout (x :: p)))) ∧
    ((s.sent (.log (x :: p))).filterMap (Line.received (.stdin (x :: p))) =
        s.sent (.chan (.stdin (x :: p))) ∧
      (s.sent (.log p)).filterMap (Line.sent (.stdin (x :: p))) =
        s.sent (.chan (.stdin (x :: p)))) := by
  obtain ⟨hquiet, hfinished⟩ := h
  obtain ⟨hin, hout⟩ := hfinished.read (erase_reachable hs) p x
  have hreads : ∀ {c : Chan} {f : Line → Option c.Value} {q : Pid}, LogsReads c f q s →
      s.got (.chan c) = (s.sent (.chan c)).length →
      (s.sent (.log q)).filterMap f = s.sent (.chan c) := by
    intro c f q h hgot
    unfold LogsReads at h
    rwa [hquiet q, List.filterMap_nil, List.append_nil, hgot, List.take_length] at h
  have hwrites : ∀ {c : Chan} {g : Line → Option c.Value} {q : Pid},
      LogsWrites (network S) c g q s → (s.sent (.log q)).filterMap g = s.sent (.chan c) := by
    intro c g q h
    have hoffers : offers c ((network S).op q (s.proc q).state) = [] := by
      rcases hfinished q with hproc | ⟨hproc, -⟩ <;>
        rw [show (s.proc q).state = _ from hproc] <;> rfl
    have hlogged := h.logged
    rwa [hquiet q, List.filterMap_nil, List.append_nil, hoffers, List.append_nil] at hlogged
  have hfresh := fresh S
  exact ⟨⟨hreads (logsReads_of_reachable hfresh (notesReads_stdout S pid _) rfl hs) hout,
      hwrites (logsWrites_of_reachable hfresh (notesWrites_stdout S pid _) rfl hs)⟩,
    hreads (logsReads_of_reachable hfresh (notesReads_stdin S pid _) rfl hs) hin,
    hwrites (logsWrites_of_reachable hfresh (notesWrites_stdin S pid _) rfl hs)⟩

/-- There is a run to the end with the log files, and it is the end of every run. -/
theorem exists_log_outcome {S : Setup} (hS : S.Valid) (pid : Pid → ℕ) :
    ∃ (w : List Pid) (t : LogState) (o : Outcome),
      (logNetwork S pid).system.run w (logNetwork S pid).start = some t ∧ LogFinished t ∧
      (logNetwork S pid).Settled t ∧ o.Fair S ∧ o.Final S (erase t) := by
  obtain ⟨w₀, t₀, o, hrun₀, hfair, hfinal⟩ := exists_outcome hS
  obtain ⟨w, t, hrun, herase, hquiet⟩ :=
    exists_logging_run (notes S pid) (quiet_start S pid) hrun₀
  subst herase
  exact ⟨w, t, o, hrun, ⟨hquiet, hfinal.finished hfair hrun₀⟩,
    settled_of_erase hquiet (hfinal.settled hfair hrun₀), hfair, hfinal⟩

/-- The logs do not depend on the order of steps. The championship with its log files comes to
an end, and then each process has written the same lines, and all that the log of a process
shows as sent to its parent or to a child, the log of the other shows as received, in order. -/
theorem logs_schedule_independent {S : Setup} (hS : S.Valid) (pid : Pid → ℕ) :
    ∃ (logs : Pid → List Line) (n : ℕ),
      (∀ p x, (logs p).filterMap (Line.received (.stdout (x :: p))) =
          (logs (x :: p)).filterMap (Line.sent (.stdout (x :: p))) ∧
        (logs (x :: p)).filterMap (Line.received (.stdin (x :: p))) =
          (logs p).filterMap (Line.sent (.stdin (x :: p)))) ∧
      ∀ (w : List Pid) (s : LogState),
        (logNetwork S pid).system.run w (logNetwork S pid).start = some s →
        w.length ≤ n ∧ (LogFinished s ∨ ∃ p u, (logNetwork S pid).step p s = some u) ∧
        (LogFinished s → ∀ p, s.sent (.log p) = logs p) := by
  obtain ⟨w₁, t, -, hrun, hfinished, hsettled, -, -⟩ := exists_log_outcome hS pid
  refine ⟨fun p => t.sent (.log p), w₁.length, fun p x => ?_, fun w s hw => ?_⟩
  · obtain ⟨⟨hup, hup'⟩, hdown, hdown'⟩ := hfinished.pipes ⟨_, w₁, rfl, hrun⟩ p x
    exact ⟨hup.trans hup'.symm, hdown.trans hdown'.symm⟩
  · obtain ⟨v, hv, hperm⟩ := run_completes hsettled
      (fun c => ((fresh S).logging c).2 ▸ Nat.zero_le _) hrun hw
    have hlen : w.length ≤ w₁.length := by
      rw [← hperm.length_eq, List.length_append]
      exact Nat.le_add_right _ _
    cases v with
    | nil =>
      obtain rfl : s = t := by simpa using hv
      exact ⟨hlen, Or.inl hfinished, fun _ _ => rfl⟩
    | cons p v =>
      obtain ⟨u, hstep, -⟩ := (logNetwork S pid).system.run_cons.1 hv
      exact ⟨hlen, Or.inr ⟨p, u, hstep⟩, fun hs => by cases (hs.no_step p).symm.trans hstep⟩

/-- The logs of the championship of `player_status.txt`. -/
theorem logs_schedule_independent_zeroed : ∃ (logs : Pid → List Line) (n : ℕ),
    (∀ p x, (logs p).filterMap (Line.received (.stdout (x :: p))) =
        (logs (x :: p)).filterMap (Line.sent (.stdout (x :: p))) ∧
      (logs (x :: p)).filterMap (Line.received (.stdin (x :: p))) =
        (logs p).filterMap (Line.sent (.stdin (x :: p)))) ∧
    ∀ (w : List Pid) (s : LogState),
      (logNetwork zeroed fun _ => 1).system.run w (logNetwork zeroed fun _ => 1).start = some s →
      w.length ≤ n ∧
        (LogFinished s ∨ ∃ p u, (logNetwork zeroed fun _ => 1).step p s = some u) ∧
        (LogFinished s → ∀ p, s.sent (.log p) = logs p) :=
  logs_schedule_independent zeroed_valid _

end SP2022.Championship
