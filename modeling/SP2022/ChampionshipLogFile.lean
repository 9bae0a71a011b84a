import SP2022.ChampionshipFiling

/-!
# What is in the log files

The log files are opened without `O_TRUNC`. A battle or a real player writes at its own offset,
an agent appends to the file of the player that it takes over. A step of the championship with
its files (`logFiles`) that writes a line changes the file.

The log of a battle is the text of its lines over what was in the file before
(`battle_log`). A player that is handed over writes its last line after its status went into the
FIFO, when the agent may already write. The log of the player stays intact, its own lines and
then those of the agent, while the agent does not write before the last line of the player
(`intact_of_throughout`), and is damaged at the end once it did (`Overtaken.finally`).
-/

namespace SP2022.Championship

open Network

/-- The log files, and the offsets of the processes in theirs. -/
structure Disk where
  content : LogFile → List Char
  offset : Pid → ℕ

/-- What `write` leaves. -/
def overwrite (content : List Char) (offset : ℕ) (text : List Char) : List Char :=
  content.takeD offset '\x00' ++ text ++ content.drop (offset + text.length)

/-- `write` to the log of a process, with `O_APPEND` at the end of the file. -/
def Disk.write (d : Disk) (p : Pid) (m : Vars) (text : List Char) : Disk :=
  let offset := if m.O_APPEND then (d.content m.file).length else d.offset p
  { content := Function.update d.content m.file (overwrite (d.content m.file) offset text)
    offset := Function.update d.offset p (offset + text.length) }

/-- The files after a step of the process `p` : it wrote the first of its lines, if it has any. -/
def Disk.step (d : Disk) (p : Pid) (l : Writing Local Vars Line) : Disk :=
  match l.todo with
  | a :: _ => d.write p l.vars a.written
  | [] => d

/-- The first state. -/
def logFilesStart (S : Setup) (pid : Pid → ℕ) (old : LogFile → List Char) : LogState × Disk :=
  ((logNetwork S pid).start, ⟨old, fun _ => 0⟩)

/-- The championship with its files, which hold `old` before. -/
def logFiles (S : Setup) (pid : Pid → ℕ) (old : LogFile → List Char) :
    System (LogState × Disk) Pid where
  init s := s = logFilesStart S pid old
  step p s := ((logNetwork S pid).step p s.1).map fun t => (t, s.2.step p (s.1.proc p))

/-- The text that a process has written. -/
def logText (s : LogState) (p : Pid) : List Char :=
  (s.sent (.log p)).flatMap Line.written

section Overwrite

variable {content old text a b : List Char}

theorem overwrite_end (content text : List Char) :
    overwrite content content.length text = content ++ text := by
  rw [overwrite, List.takeD_eq_take _ le_rfl, List.take_length, List.drop_eq_nil_of_le,
    List.append_nil]
  exact Nat.le_add_right _ _

/-- Writing behind what was written before. -/
theorem overwrite_append (a b text : List Char) :
    overwrite (a ++ b) a.length text = a ++ text ++ b.drop text.length := by
  rw [overwrite, List.takeD_eq_take _ (by simp), List.take_left, List.drop_append]
  simp

end Overwrite

/-- The process appends to the file. -/
structure Appends (s : LogState) (a : Pid) (f : LogFile) : Prop where
  O_APPEND : (s.proc a).vars.O_APPEND = true
  file : (s.proc a).vars.file = f

section Files

variable {S : Setup} {pid : Pid → ℕ} {old : LogFile → List Char} {s t : LogState} {d e : Disk}
  {p q a : Pid} {cmd : Command} {f : LogFile}

theorem logFiles_step (h : (logFiles S pid old).step q (s, d) = some (t, e)) :
    (logNetwork S pid).step q s = some t ∧ e = d.step q (s.proc q) := by
  obtain ⟨u, hu, heq⟩ := Option.map_eq_some_iff.1 h
  obtain ⟨rfl, rfl⟩ := Prod.mk.inj heq
  exact ⟨hu, rfl⟩

variable (old) in
/-- A run of the championship with its logs is one of the files. -/
theorem exists_files_run : ∀ {w : List Pid} {s t : LogState} (d : Disk),
    (logNetwork S pid).system.run w s = some t →
    ∃ e, (logFiles S pid old).run w (s, d) = some (t, e)
  | [], s, t, d, hrun => by
    obtain rfl : s = t := by simpa using hrun
    exact ⟨d, rfl⟩
  | p :: w, s, t, d, hrun => by
    obtain ⟨u, hstep, hrest⟩ := (System.run_cons _).1 hrun
    obtain ⟨e, he⟩ := exists_files_run (d.step p (s.proc p)) hrest
    exact ⟨e, (System.run_cons _).2 ⟨_, Option.map_eq_some_iff.2 ⟨u, hstep, rfl⟩, he⟩⟩

/-- A run with the files is one of the logs. -/
theorem run_of_files {w : List Pid} {x y : LogState × Disk}
    (hrun : (logFiles S pid old).run w x = some y) :
    (logNetwork S pid).system.run w x.1 = some y.1 := by
  induction w generalizing x with
  | nil =>
    obtain rfl : x = y := by simpa using hrun
    rfl
  | cons q w ih =>
    obtain ⟨⟨t, e⟩, hstep, hrest⟩ := (System.run_cons _).1 hrun
    exact (System.run_cons _).2 ⟨t, (logFiles_step hstep).1, ih hrest⟩

/-- Every run with the files goes on to the end. -/
theorem exists_files_end (hS : S.Valid) {x : LogState × Disk}
    (h : (logFiles S pid old).Reachable x) :
    ∃ w y, (logFiles S pid old).run w x = some y ∧ LogFinished y.1 := by
  obtain ⟨w₁, t, -, hrun₁, hfinished, hsettled, -⟩ := exists_log_outcome hS pid
  obtain ⟨_, w₂, rfl, hfiles⟩ := h
  obtain ⟨w, hrun, -⟩ := run_completes hsettled
    (fun c => ((fresh S).logging c).2 ▸ Nat.zero_le _) hrun₁ (run_of_files hfiles)
  obtain ⟨e, he⟩ := exists_files_run old x.2 hrun
  exact ⟨w, (t, e), he, hfinished⟩

/-- There is a run to the end with the files. -/
theorem exists_files_finished (hS : S.Valid) (pid : Pid → ℕ) (old : LogFile → List Char) :
    ∃ w x, (logFiles S pid old).run w (logFilesStart S pid old) = some x ∧ LogFinished x.1 :=
  exists_files_end hS (.of_init rfl)

/-! ## Who writes to which file -/

theorem Appends.agent (h : Appends s a f) (hk : Kept s) : ∃ argv1 st,
    commandAt a = some (.player argv1) ∧ ¬Real (atoi argv1) ∧ f = .player st.real_player_id ∧
      st ∈ s.sent (.chan (.fifo (atoi argv1))) ∧ (s.proc a).state.Runs (.player argv1) ∧
      ¬(s.proc a).state.Waits := by
  obtain ⟨happend, hfile⟩ := h
  cases hk.filing a with
  | unforked hstate htodo hempty hown => simp [hown] at happend
  | own cmd hcmd hargv1 hfile hown => simp [hown] at happend
  | agent argv1 st hcmd hreal hargv1 hfile' happend hst hruns hwaits =>
    exact ⟨argv1, st, hcmd, hreal, hfile.symm.trans hfile', hst, hruns, hwaits⟩

theorem Appends.ne (h : Appends s a f) (hk : Kept s) (hp : commandAt p = some cmd)
    (hcmd : ¬cmd.Agent) : a ≠ p := by
  rintro rfl
  obtain ⟨argv1, _, hcmd', hreal, -⟩ := h.agent hk
  exact hcmd ⟨argv1, Option.some.inj (hp.symm.trans hcmd'), hreal⟩

/-- One process at most appends to a file. -/
theorem appends_unique (hk : Kept s) {a' : Pid} (h : Appends s a f) (h' : Appends s a' f) :
    a = a' := by
  obtain ⟨argv1, st, hcmd, -, rfl, hst, -⟩ := h.agent hk
  obtain ⟨argv1', st', hcmd', -, hid, hst', -⟩ := h'.agent hk
  have hn := hk.handed.once _ _ st hst st' hst' (LogFile.player.inj hid)
  exact commandAt_inj hcmd hcmd' (congrArg LogFile.player hn)

/-- Nobody appends to the file of a battle, or of a player that is still there. -/
theorem Appends.over (h : Appends s a cmd.file) (hk : Kept s) (hp : commandAt p = some cmd) :
    (s.proc p).state = .exiting ∨ (s.proc p).state = .exited := by
  obtain ⟨argv1, st, -, -, hfile, hst, -⟩ := h.agent hk
  obtain ⟨p', argv1', hp', -, hid, hover⟩ := hk.handed.sender _ st hst
  obtain rfl : p = p' := commandAt_inj hp hp' (hfile.trans (congrArg LogFile.player hid))
  exact hover

/-- An agent keeps the file that it has. -/
theorem Appends.step (h : Appends s a f) (hk : Kept s)
    (hstep : (logNetwork S pid).step q s = some t) : Appends t a f := by
  suffices hvars : (t.proc a).vars = (s.proc a).vars from
    ⟨hvars ▸ h.O_APPEND, hvars ▸ h.file⟩
  obtain ⟨argv1, st, -, -, -, -, hruns, hwaits⟩ := h.agent hk
  by_cases ha : a = q
  · subst ha
    cases logging_cases hstep with
    | line x todo htodo ht => simp [ht]
    | read c k v htodo hop hv ht =>
      refine hear_vars (S := S) (c := c) (v := v) (l := k v) (by simp [ht]; rfl)
        (fun r hc => hruns.ne_unforked (read_fork hop hc)) fun n hc => ?_
      rw [read_fifo hop hc] at hwaits
      exact hwaits trivial
    | write c v l htodo hop ht => simp [ht, Notes.next]
    | raise g l htodo hop ht => simp [ht, Notes.next]
    | await ready l htodo hop hready ht => simp [ht, Notes.next]
  · have hexec : exec q ((logNetwork S pid).op q (s.proc q)) s = some t := hstep
    rw [exec_proc hexec ha]

/-- An agent opens the file before its first line. -/
theorem Appends.of_step (h : Appends t a f) (hk : Kept s) (hkt : Kept t)
    (hstep : (logNetwork S pid).step q s = some t) : Appends s a f ∨ t.sent (.log a) = [] := by
  have hexec : exec q ((logNetwork S pid).op q (s.proc q)) s = some t := hstep
  by_cases ha : a = q
  · subst ha
    obtain ⟨argv1, st, hcmd, hreal, -⟩ := h.agent hkt
    cases hk.filing a with
    | unforked hstate htodo hempty =>
      rcases todo_step hstep with ⟨x, hx, -⟩ | ⟨-, hlog, -⟩
      · simp [htodo] at hx
      · exact .inr (hlog.trans hempty)
    | own cmd hcmd' hargv1 hfile hown hruns hagent =>
      obtain rfl : cmd = .player argv1 := Option.some.inj (hcmd'.symm.trans hcmd)
      obtain ⟨-, htodo, hempty⟩ := hagent ⟨argv1, rfl, hreal⟩
      rcases todo_step hstep with ⟨x, hx, -⟩ | ⟨-, hlog, -⟩
      · simp [htodo] at hx
      · exact .inr (hlog.trans hempty)
    | agent argv1' st' hcmd' hreal' hargv1' hfile' happend' hst' hruns' hwaits' =>
      have hs : Appends s a (s.proc a).vars.file := ⟨happend', rfl⟩
      have ht := hs.step hk hstep
      rw [ht.file.symm.trans h.file] at hs
      exact .inl hs
  · have hproc : t.proc a = s.proc a := exec_proc hexec ha
    exact .inl ⟨hproc ▸ h.O_APPEND, hproc ▸ h.file⟩

/-! ## What a step does to a file -/

/-- What a step does to the file of the process `p`, which is no agent. -/
inductive Effect (s t : LogState) (d e : Disk) (p : Pid) (f : LogFile) : Prop
  /-- The process writes. -/
  | own (text : List Char) (htext : text ≠ [])
      (htodo : (s.proc p).todo.length = (t.proc p).todo.length + 1)
      (hlog : logText t p = logText s p ++ text) (hoffset : e.offset p = d.offset p + text.length)
      (hcontent : e.content f = overwrite (d.content f) (d.offset p) text)
      (hother : ∀ a, a ≠ p → logText t a = logText s a)
  /-- An agent appends. -/
  | agent (a : Pid) (happends : Appends s a f) (text : List Char)
      (htodo : (s.proc p).todo ≠ [] → (t.proc p).todo ≠ [])
      (hlog : logText t p = logText s p) (hoffset : e.offset p = d.offset p)
      (hcontent : e.content f = d.content f ++ text) (hagent : logText t a = logText s a ++ text)
  /-- The file is not written. -/
  | silent (htodo : (s.proc p).todo ≠ [] → (t.proc p).todo ≠ [])
      (hlog : logText t p = logText s p) (hoffset : e.offset p = d.offset p)
      (hcontent : e.content f = d.content f)
      (hother : ∀ a, Appends s a f → logText t a = logText s a)

theorem effect (hk : Kept s) (hp : commandAt p = some cmd) (hcmd : ¬cmd.Agent)
    (hstep : (logFiles S pid old).step q (s, d) = some (t, e)) : Effect s t d e p cmd.file := by
  obtain ⟨hlogged, rfl⟩ := logFiles_step hstep
  have hexec : exec q ((logNetwork S pid).op q (s.proc q)) s = some t := hlogged
  have hother : ∀ a, a ≠ q → logText t a = logText s a := fun a ha => by
    unfold logText
    rw [exec_sent hexec fun v l hop => ha ((logNetwork S pid).writes hop rfl)]
  rcases todo_step hlogged with ⟨x, htodo, -, -, hlog⟩ | ⟨htodo, hlog, -⟩
  · have hdisk : d.step q (s.proc q) = d.write q (s.proc q).vars x.written := by
      unfold Disk.step
      rw [htodo]
    have htext : logText t q = logText s q ++ x.written := by
      unfold logText
      rw [hlog, List.flatMap_append]
      simp
    have hx : x.written ≠ [] := hk.printed q x (List.mem_append_right _ (by simp [htodo]))
    rw [hdisk]
    by_cases hq : q = p
    · subst hq
      obtain ⟨hfile, hown⟩ : (s.proc q).vars.file = cmd.file ∧
          (s.proc q).vars.O_APPEND = false := by
        cases hk.filing q with
        | unforked hstate hnil => simp [hnil] at htodo
        | own cmd' hcmd' hargv1 hfile hown =>
          exact ⟨Option.some.inj (hcmd'.symm.trans hp) ▸ hfile, hown⟩
        | agent argv1 st hcmd' hreal =>
          exact absurd ⟨argv1, Option.some.inj (hp.symm.trans hcmd'), hreal⟩ hcmd
      refine .own x.written hx (by rw [htodo]; rfl) htext ?_ ?_ hother
      · simp [Disk.write, hown]
      · simp [Disk.write, hown, hfile]
    · have hlogp := hother p (Ne.symm hq)
      have hproc : (s.proc p).todo ≠ [] → (t.proc p).todo ≠ [] := by
        rw [exec_proc hexec (Ne.symm hq)]
        exact id
      have hoffset : (d.write q (s.proc q).vars x.written).offset p = d.offset p :=
        Function.update_of_ne (Ne.symm hq) _ _
      by_cases hfile : (s.proc q).vars.file = cmd.file
      · have happend : (s.proc q).vars.O_APPEND = true := by
          cases hk.filing q with
          | unforked hstate hnil => simp [hnil] at htodo
          | own cmd' hcmd' hargv1 hfile' =>
            exact absurd (commandAt_inj hcmd' hp (hfile'.symm.trans hfile)) hq
          | agent argv1 st hcmd' hreal hargv1 hfile' happend => exact happend
        refine .agent q ⟨happend, hfile⟩ x.written hproc hlogp hoffset ?_ htext
        simp [Disk.write, happend, hfile, overwrite_end]
      · refine .silent hproc hlogp hoffset (Function.update_of_ne (Ne.symm hfile) _ _)
          fun a ha => hother a ?_
        rintro rfl
        exact hfile ha.file
  · have hdisk : d.step q (s.proc q) = d := by
      unfold Disk.step
      rw [htodo]
    have hsame : ∀ a, logText t a = logText s a := fun a => by
      by_cases ha : a = q
      · subst ha
        unfold logText
        rw [hlog]
      · exact hother a ha
    rw [hdisk]
    refine .silent (fun hne => ?_) (hsame p) rfl rfl fun a _ => hsame a
    by_cases hq : p = q
    · exact absurd htodo (hq ▸ hne)
    · rwa [exec_proc hexec hq]

/-- The log of a battle. -/
structure BattleLog (s : LogState) (d : Disk) (p : Pid) (f : LogFile) (old : List Char) :
    Prop where
  offset : d.offset p = (logText s p).length
  content : d.content f = logText s p ++ old.drop (logText s p).length

theorem BattleLog.step {f : LogFile} {old : List Char} (h : BattleLog s d p f old)
    (heffect : Effect s t d e p f) (hagent : ∀ a, ¬Appends s a f) : BattleLog t e p f old := by
  obtain ⟨hoffset, hcontent⟩ := h
  cases heffect with
  | own text htext htodo hlog hoffset' hcontent' hother =>
    refine ⟨by rw [hoffset', hoffset, hlog, List.length_append], ?_⟩
    rw [hcontent', hcontent, hoffset, overwrite_append, hlog, List.drop_drop, List.length_append]
  | agent a happends => exact absurd happends (hagent a)
  | silent htodo hlog hoffset' hcontent' hother =>
    exact ⟨by rw [hoffset', hoffset, hlog], by rw [hcontent', hcontent, hlog]⟩

/-- The log of a battle is the text of its lines, over what was in the file before. -/
theorem battle_log {argv1 : List Char} {x : LogState × Disk}
    (h : (logFiles S pid old).Reachable x) (hp : commandAt p = some (.battle argv1)) :
    x.2.content (.battle (argv1.headD '\x00')) = logText x.1 p ++
      (old (.battle (argv1.headD '\x00'))).drop (logText x.1 p).length := by
  have hcmd : ¬(Command.battle argv1).Agent := by
    rintro ⟨argv1', heq, -⟩
    cases heq
  have hx : Kept x.1 ∧ BattleLog x.1 x.2 p (.battle (argv1.headD '\x00'))
      (old (.battle (argv1.headD '\x00'))) := by
    refine h.invariant (I := fun x => Kept x.1 ∧ BattleLog x.1 x.2 p
      (.battle (argv1.headD '\x00')) (old (.battle (argv1.headD '\x00')))) (fun x hx => ?_) ?_
    · obtain rfl : x = _ := hx
      exact ⟨kept_of_reachable (.of_init rfl), rfl, rfl⟩
    · rintro q ⟨s, d⟩ ⟨t, e⟩ ⟨hk, hlog⟩ hstep
      refine ⟨hk.step (logFiles_step hstep).1, hlog.step (effect hk hp hcmd hstep) fun a ha => ?_⟩
      obtain ⟨_, _, -, -, hfile, -⟩ := ha.agent hk
      cases hfile
  exact hx.2.content

/-- The log of the final at the end of the championship of `player_status.txt`. -/
theorem battle_log_final : ∃ x : LogState × Disk, LogFinished x.1 ∧
    x.2.content (.battle 'A') = logText x.1 [] ++ ['?'].drop (logText x.1 []).length := by
  obtain ⟨w, x, hrun, hfinished⟩ := exists_files_finished zeroed_valid (fun _ => 1) fun _ => ['?']
  have hplace : commandAt [] = some (.battle ['A']) := rfl
  exact ⟨x, hfinished, battle_log ⟨_, w, rfl, hrun⟩ hplace⟩

/-! ## The log of a player -/

/-- The log of a player is intact : its own lines, and then those of the agent that has taken
over. -/
structure Intact (s : LogState) (d : Disk) (p : Pid) (f : LogFile) : Prop where
  alone : (∀ a, ¬Appends s a f) → d.content f = logText s p
  handed : ∀ a, Appends s a f → d.content f = logText s p ++ logText s a

/-- The player wrote over lines of the agent. -/
def Damaged (s : LogState) (d : Disk) (p : Pid) (f : LogFile) : Prop :=
  (s.proc p).todo = [] ∧ ∃ a, Appends s a f ∧
    (d.content f).length < (logText s p).length + (logText s a).length

/-- The agent has written, and the player has not written its last line. -/
def Overtaken (s : LogState) (p : Pid) (f : LogFile) : Prop :=
  (s.proc p).todo ≠ [] ∧ ∃ a, Appends s a f ∧ s.sent (.log a) ≠ []

/-- A damaged log is not intact. -/
theorem Damaged.not_intact (h : Damaged s d p f) : ¬Intact s d p f := by
  obtain ⟨-, a, happends, hlt⟩ := h
  intro hintact
  rw [hintact.handed a happends, List.length_append] at hlt
  omega

theorem logText_eq_nil (hk : Kept s) (h : logText s a = []) : s.sent (.log a) = [] := by
  cases hlog : s.sent (.log a) with
  | nil => rfl
  | cons x l =>
    refine absurd (List.flatMap_eq_nil_iff.1 h x (by simp [hlog])) ?_
    exact hk.printed a x (List.mem_append_left _ (by simp [hlog]))

theorem logText_of_nil (h : s.sent (.log a) = []) : logText s a = [] := by
  rw [logText, h]
  rfl

/-- The player writes its last line over what the agent has written. -/
theorem Overtaken.damaged (h : Overtaken s p cmd.file) (hintact : Intact s d p cmd.file)
    (hk : Kept s) (hp : commandAt p = some cmd) (hcmd : ¬cmd.Agent)
    (hoffset : d.offset p = (logText s p).length) {text : List Char} (htext : text ≠ [])
    (htodo : (s.proc p).todo.length = (t.proc p).todo.length + 1)
    (hlog : logText t p = logText s p ++ text)
    (hcontent : e.content cmd.file = overwrite (d.content cmd.file) (d.offset p) text)
    (hother : ∀ a, a ≠ p → logText t a = logText s a)
    (hstep : (logNetwork S pid).step q s = some t) : Damaged t e p cmd.file := by
  obtain ⟨-, a, happends, hsent⟩ := h
  have hne : a ≠ p := happends.ne hk hp hcmd
  have hlast := hk.last p (happends.over hk hp)
  refine ⟨List.length_eq_zero_iff.1 (by omega), a, happends.step hk hstep, ?_⟩
  have hpos : 0 < (logText s a).length :=
    List.length_pos_iff.2 fun h => hsent (logText_eq_nil hk h)
  have hpos' := List.length_pos_iff.2 htext
  rw [hcontent, hintact.handed a happends, hoffset, overwrite_append, hlog, hother a hne]
  simp only [List.length_append, List.length_drop]
  omega

/-- An intact log stays intact, unless the player is overtaken and writes. -/
theorem Intact.step (h : Intact s d p cmd.file) (hk : Kept s) (hkt : Kept t)
    (hp : commandAt p = some cmd) (hcmd : ¬cmd.Agent)
    (hoffset : d.offset p = (logText s p).length)
    (hstep : (logFiles S pid old).step q (s, d) = some (t, e)) :
    Intact t e p cmd.file ∨ Overtaken s p cmd.file ∧ Damaged t e p cmd.file := by
  have hlogged := (logFiles_step hstep).1
  -- a new agent has written nothing
  have hnew : ∀ a, Appends t a cmd.file → ¬Appends s a cmd.file →
      d.content cmd.file = logText s p ∧ logText t a = [] := by
    intro a ha hnot
    refine ⟨h.alone fun a' ha' => hnot ?_, logText_of_nil ?_⟩
    · rwa [appends_unique hkt ha (ha'.step hk hlogged)]
    · exact (ha.of_step hk hkt hlogged).resolve_left hnot
  have halone : (∀ a, ¬Appends t a cmd.file) → d.content cmd.file = logText s p := fun hno =>
    h.alone fun a ha => hno a (ha.step hk hlogged)
  cases effect hk hp hcmd hstep with
  | own text htext htodo hlog hoffset' hcontent hother =>
    by_cases hover : Overtaken s p cmd.file
    · exact .inr ⟨hover, hover.damaged h hk hp hcmd hoffset htext htodo hlog hcontent hother
        hlogged⟩
    · have htodo' : (s.proc p).todo ≠ [] := by
        rw [← List.length_pos_iff]
        omega
      have hempty : ∀ a, Appends s a cmd.file → logText s a = [] := fun a ha =>
        logText_of_nil (by_contra fun hne => hover ⟨htodo', a, ha, hne⟩)
      have hold : d.content cmd.file = logText s p := by
        by_cases hs : ∃ a, Appends s a cmd.file
        · obtain ⟨a, ha⟩ := hs
          rw [h.handed a ha, hempty a ha, List.append_nil]
        · exact h.alone fun a ha => hs ⟨a, ha⟩
      rw [hold, hoffset, overwrite_end, ← hlog] at hcontent
      refine .inl ⟨fun _ => hcontent, fun a ha => ?_⟩
      suffices hnil : logText t a = [] by rw [hcontent, hnil, List.append_nil]
      by_cases hs : Appends s a cmd.file
      · rw [hother a (hs.ne hk hp hcmd), hempty a hs]
      · exact (hnew a ha hs).2
  | agent a happends text htodo hlog hoffset' hcontent hagent =>
    have ha := happends.step hk hlogged
    refine .inl ⟨fun hno => absurd ha (hno a), fun a' ha' => ?_⟩
    rw [appends_unique hkt ha' ha, hcontent, h.handed a happends, hlog, hagent,
      List.append_assoc]
  | silent htodo hlog hoffset' hcontent hother =>
    refine .inl ⟨fun hno => ?_, fun a ha => ?_⟩
    · rw [hcontent, hlog, halone hno]
    · by_cases hs : Appends s a cmd.file
      · rw [hcontent, hlog, hother a hs, h.handed a hs]
      · obtain ⟨hold, hnil⟩ := hnew a ha hs
        rw [hcontent, hlog, hnil, List.append_nil, hold]

/-- A process that is about to exit writes no more. -/
theorem todo_nil_step (hover : (s.proc p).state = .exiting ∨ (s.proc p).state = .exited)
    (htodo : (s.proc p).todo = []) (hstep : (logNetwork S pid).step q s = some t) :
    ((t.proc p).state = .exiting ∨ (t.proc p).state = .exited) ∧ (t.proc p).todo = [] := by
  have hexec : exec q ((logNetwork S pid).op q (s.proc q)) s = some t := hstep
  by_cases hq : p = q
  · subst hq
    have hop : op S p (s.proc p).state = .raise (.exited p) .exited ∨
        op S p (s.proc p).state = .halt := by
      rcases hover with hl | hl <;> rw [hl]
      · exact .inl rfl
      · exact .inr rfl
    have hhead : (logNetwork S pid).op p (s.proc p) =
        (notes S pid).annotate p (s.proc p) (op S p (s.proc p).state) := logging_op_of_nil htodo
    rw [hhead] at hexec
    rcases hop with hop | hop
    · rw [hop] at hexec
      obtain rfl := Option.some.inj hexec
      simp only [Function.update_self]
      refine ⟨.inr rfl, ?_⟩
      rcases hover with hl | hl <;> simp [Notes.next, notes, hl]
    · rw [hop] at hexec
      cases hexec
  · rw [exec_proc hexec hq]
    exact ⟨hover, htodo⟩

/-- What was written over stays lost. -/
theorem Damaged.step (h : Damaged s d p cmd.file) (hk : Kept s) (hp : commandAt p = some cmd)
    (hcmd : ¬cmd.Agent) (hstep : (logFiles S pid old).step q (s, d) = some (t, e)) :
    Damaged t e p cmd.file := by
  obtain ⟨htodo, a, happends, hlt⟩ := h
  have hlogged := (logFiles_step hstep).1
  refine ⟨(todo_nil_step (happends.over hk hp) htodo hlogged).2, a, happends.step hk hlogged, ?_⟩
  cases effect hk hp hcmd hstep with
  | own text htext htodo' => simp [htodo] at htodo'
  | agent a' happends' text htodo' hlog hoffset hcontent hagent =>
    obtain rfl := appends_unique hk happends happends'
    rw [hcontent, hlog, hagent, List.length_append, List.length_append]
    omega
  | silent htodo' hlog hoffset hcontent hother =>
    rwa [hcontent, hlog, hother a happends]

/-- A player that is overtaken will write over the lines of the agent. -/
theorem Overtaken.step (h : Overtaken s p cmd.file) (hintact : Intact s d p cmd.file)
    (hk : Kept s) (hp : commandAt p = some cmd) (hcmd : ¬cmd.Agent)
    (hoffset : d.offset p = (logText s p).length)
    (hstep : (logFiles S pid old).step q (s, d) = some (t, e)) :
    Overtaken t p cmd.file ∨ Damaged t e p cmd.file := by
  have hlogged := (logFiles_step hstep).1
  have hkeep : ((s.proc p).todo ≠ [] → (t.proc p).todo ≠ []) → Overtaken t p cmd.file := by
    intro htodo
    obtain ⟨hne, a, happends, hsent⟩ := h
    have hexec : exec q ((logNetwork S pid).op q (s.proc q)) s = some t := hlogged
    refine ⟨htodo hne, a, happends.step hk hlogged, fun hnil => hsent ?_⟩
    exact List.prefix_nil.1 (hnil ▸ (exec_grows hexec).sent (.log a))
  cases effect hk hp hcmd hstep with
  | own text htext htodo hlog hoffset' hcontent hother =>
    exact .inr (h.damaged hintact hk hp hcmd hoffset htext htodo hlog hcontent hother hlogged)
  | agent a happends text htodo => exact .inl (hkeep htodo)
  | silent htodo => exact .inl (hkeep htodo)

theorem offset_step (h : d.offset p = (logText s p).length) (hk : Kept s)
    (hp : commandAt p = some cmd) (hcmd : ¬cmd.Agent)
    (hstep : (logFiles S pid old).step q (s, d) = some (t, e)) :
    e.offset p = (logText t p).length := by
  cases effect hk hp hcmd hstep with
  | own text htext htodo hlog hoffset => rw [hoffset, hlog, h, List.length_append]
  | agent a happends text htodo hlog hoffset => rw [hoffset, hlog, h]
  | silent htodo hlog hoffset => rw [hoffset, hlog, h]

/-- A run keeps the log of a player intact or damages it, and a player that is overtaken in a
log that is intact will damage it. -/
theorem Kept.log_step (hk : Kept s) (hp : commandAt p = some cmd) (hcmd : ¬cmd.Agent)
    (hoffset : d.offset p = (logText s p).length)
    (hstep : (logFiles S pid old).step q (s, d) = some (t, e)) :
    (Damaged s d p cmd.file → Damaged t e p cmd.file) ∧
      (Intact s d p cmd.file → Intact t e p cmd.file ∨
        Overtaken s p cmd.file ∧ Damaged t e p cmd.file) ∧
      (Intact s d p cmd.file ∧ Overtaken s p cmd.file →
        Damaged t e p cmd.file ∨ Intact t e p cmd.file ∧ Overtaken t p cmd.file) := by
  have hkt := hk.step (logFiles_step hstep).1
  refine ⟨fun h => h.step hk hp hcmd hstep, fun h => h.step hk hkt hp hcmd hoffset hstep, ?_⟩
  rintro ⟨hintact, hover⟩
  rcases hintact.step hk hkt hp hcmd hoffset hstep with hintact' | ⟨-, hdamaged⟩
  · rcases hover.step hintact hk hp hcmd hoffset hstep with hover' | hdamaged
    · exact .inr ⟨hintact', hover'⟩
    · exact .inl hdamaged
  · exact .inl hdamaged

/-- What holds of every state, beside the log of the player. -/
structure Placed (y : LogState × Disk) (p : Pid) : Prop where
  kept : Kept y.1
  offset : y.2.offset p = (logText y.1 p).length

theorem Placed.step {y z : LogState × Disk} (h : Placed y p) (hp : commandAt p = some cmd)
    (hcmd : ¬cmd.Agent) (hstep : (logFiles S pid old).step q y = some z) : Placed z p :=
  ⟨h.kept.step (logFiles_step hstep).1, offset_step h.offset h.kept hp hcmd hstep⟩

theorem placed_start (S : Setup) (pid : Pid → ℕ) (old : LogFile → List Char) (p : Pid) :
    Placed (logFilesStart S pid old) p :=
  ⟨kept_of_reachable (.of_init rfl), rfl⟩

theorem intact_start (hold : old f = []) :
    Intact (logFilesStart S pid old).1 (logFilesStart S pid old).2 p f :=
  ⟨fun _ => hold, fun _ _ => hold⟩

/-- A log is intact or damaged. -/
theorem intact_or_damaged {w : List Pid} {y : LogState × Disk}
    (hrun : (logFiles S pid old).run w (logFilesStart S pid old) = some y)
    (hp : commandAt p = some cmd) (hcmd : ¬cmd.Agent) (hold : old cmd.file = []) :
    Placed y p ∧ (Intact y.1 y.2 p cmd.file ∨ Damaged y.1 y.2 p cmd.file) := by
  refine System.run_invariant (I := fun y => Placed y p ∧
    (Intact y.1 y.2 p cmd.file ∨ Damaged y.1 y.2 p cmd.file)) ?_ w
    ⟨placed_start S pid old p, .inl (intact_start hold)⟩ hrun
  rintro q y z ⟨hy, hlog⟩ hstep
  obtain ⟨hdamaged, hkeep, -⟩ := hy.kept.log_step hp hcmd hy.offset hstep
  exact ⟨hy.step hp hcmd hstep, hlog.elim (fun h => (hkeep h).imp_right And.right)
    fun h => .inr (hdamaged h)⟩

/-- Once the player is overtaken, its log is damaged at the end. -/
theorem Overtaken.finally {w₁ w₂ : List Pid} {x y : LogState × Disk}
    (h : Overtaken y.1 p cmd.file)
    (hrun₁ : (logFiles S pid old).run w₁ (logFilesStart S pid old) = some y)
    (hrun₂ : (logFiles S pid old).run w₂ y = some x) (hfinished : LogFinished x.1)
    (hp : commandAt p = some cmd) (hcmd : ¬cmd.Agent) (hold : old cmd.file = []) :
    Damaged x.1 x.2 p cmd.file := by
  obtain ⟨hy, hlog⟩ := intact_or_damaged hrun₁ hp hcmd hold
  have hintact : Intact y.1 y.2 p cmd.file := hlog.resolve_right fun hdamaged => h.1 hdamaged.1
  have hx : Placed x p ∧ (Damaged x.1 x.2 p cmd.file ∨
      Intact x.1 x.2 p cmd.file ∧ Overtaken x.1 p cmd.file) := by
    refine System.run_invariant (I := fun x => Placed x p ∧ (Damaged x.1 x.2 p cmd.file ∨
      Intact x.1 x.2 p cmd.file ∧ Overtaken x.1 p cmd.file)) ?_ w₂
      ⟨hy, .inr ⟨hintact, h⟩⟩ hrun₂
    rintro q y z ⟨hy, hlog⟩ hstep
    obtain ⟨hdamaged, -, hdoomed⟩ := hy.kept.log_step hp hcmd hy.offset hstep
    exact ⟨hy.step hp hcmd hstep, hlog.elim (fun h => .inl (hdamaged h)) hdoomed⟩
  -- at the end there is nothing to write
  exact hx.2.resolve_right fun hover => hover.2.1 (hfinished.1 p)

/-- While the player is not overtaken, its log stays intact. -/
theorem intact_of_throughout {w : List Pid} {x : LogState × Disk}
    (hrun : (logFiles S pid old).run w (logFilesStart S pid old) = some x)
    (hp : commandAt p = some cmd) (hcmd : ¬cmd.Agent) (hold : old cmd.file = [])
    (hnever : (logFiles S pid old).Throughout (fun y => ¬Overtaken y.1 p cmd.file) w
      (logFilesStart S pid old)) : Intact x.1 x.2 p cmd.file := by
  have hx : Placed x p ∧ Intact x.1 x.2 p cmd.file := by
    refine System.eachStep_invariant (I := fun x => Placed x p ∧ Intact x.1 x.2 p cmd.file)
      (C := fun _ y => ¬Overtaken y.1 p cmd.file) ?_ w
      ⟨placed_start S pid old p, intact_start hold⟩ hrun
      fun w₁ q w₂ y heq hrun₁ => hnever w₁ (q :: w₂) y heq hrun₁
    rintro q y z ⟨hy, hlog⟩ hstep hnot
    obtain ⟨-, hkeep, -⟩ := hy.kept.log_step hp hcmd hy.offset hstep
    exact ⟨hy.step hp hcmd hstep, (hkeep hlog).resolve_right fun h => hnot h.1⟩
  exact hx.2

/-- Once the player has written its last line, its log stays intact. -/
theorem Intact.run {w : List Pid} {y x : LogState × Disk} (h : Intact y.1 y.2 p cmd.file)
    (hy : Placed y p) (hover : (y.1.proc p).state = .exiting ∨ (y.1.proc p).state = .exited)
    (htodo : (y.1.proc p).todo = []) (hp : commandAt p = some cmd) (hcmd : ¬cmd.Agent)
    (hrun : (logFiles S pid old).run w y = some x) : Intact x.1 x.2 p cmd.file := by
  have hx : Placed x p ∧ (((x.1.proc p).state = .exiting ∨ (x.1.proc p).state = .exited) ∧
      (x.1.proc p).todo = []) ∧ Intact x.1 x.2 p cmd.file := by
    refine System.run_invariant (I := fun x => Placed x p ∧
      (((x.1.proc p).state = .exiting ∨ (x.1.proc p).state = .exited) ∧
        (x.1.proc p).todo = []) ∧ Intact x.1 x.2 p cmd.file) ?_ w ⟨hy, ⟨hover, htodo⟩, h⟩ hrun
    rintro q y z ⟨hy, ⟨hover, htodo⟩, hintact⟩ hstep
    obtain ⟨-, hkeep, -⟩ := hy.kept.log_step hp hcmd hy.offset hstep
    exact ⟨hy.step hp hcmd hstep, todo_nil_step hover htodo (logFiles_step hstep).1,
      (hkeep hintact).resolve_right fun hovertaken => hovertaken.1.1 htodo⟩
  exact hx.2.2

theorem Real.not_agent {argv1 : List Char} (hreal : Real (atoi argv1)) :
    ¬(Command.player argv1).Agent := by
  rintro ⟨argv1', heq, hnot⟩
  exact hnot (Command.player.inj heq ▸ hreal)

end Files

end SP2022.Championship
