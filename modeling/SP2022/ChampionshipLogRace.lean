import SP2022.ChampionshipLogFile

/-!
# The race for the log of a player

A player that loses in the winners' bracket writes its status to the FIFO before its last line,
so its agent can write first. The log of the player is intact at the end exactly if its agent
did not write first, and is damaged otherwise (`player_log_intact_iff`). In every championship,
and for every agent, there is an order of steps in which the player writes first
(`exists_unraced`), and one in which the agent does (`log_race`).
-/

namespace SP2022.Championship

open Network

/-- What holds of the two ends of the FIFOs. -/
structure Doors (s : State) : Prop where
  blocked : ∀ p n status, s.proc p = .blockedFIFO n status → s.flag (.openWrite n) = true
  writing : ∀ p n status, s.proc p = .writeFIFO n status →
    s.flag (.openWrite n) = true ∧ s.flag (.openRead n) = true
  reading : ∀ n, s.flag (.openRead n) = true →
    (∃ a, s.proc a = .blockedAgent n ∨ s.proc a = .readFIFO n) ∨ 0 < s.got (.fifo n)

section Race

variable {S : Setup} {pid : Pid → ℕ} {old : LogFile → List Char} {s t : LogState} {p q a : Pid}
  {f : LogFile}

/-- A process that writes to a FIFO, or has opened it. -/
def Local.AtDoor : Local → Prop
  | .blockedFIFO _ _ | .writeFIFO _ _ => True
  | _ => False

theorem playing_not_door (n originHP : ℤ) (status : Status) :
    ¬(playing n originHP status).AtDoor := by
  unfold playing
  split_ifs <;> exact id

theorem execl_not_door (c : Command) : ¬(execl S c).AtDoor := by
  cases c with
  | battle argv1 => exact id
  | player argv1 =>
    simp only [execl, playerMain]
    split_ifs
    · exact playing_not_door _ _ _
    · exact id

theorem battle_not_door {l : Local} {argv1 : List Char} (h : l.Runs (.battle argv1)) :
    ¬l.AtDoor := by
  cases l with
  | blockedFIFO n status | writeFIFO n status => exact h.elim
  | _ => exact id

/-- A process comes to a FIFO step by step. -/
theorem door_leads {l l' : Local} (hleads : (op S p l).Leads l') (hdoor : l'.AtDoor) :
    (∃ n status, l = .openFIFO n status ∧ l' = .blockedFIFO n status) ∨
      ∃ n status, l = .blockedFIFO n status ∧ l' = .writeFIFO n status := by
  have hbattle : ∀ {argv1 : List Char}, ¬l.Runs (.battle argv1) := fun h =>
    battle_not_door (battle_leads h hleads) hdoor
  cases l with
  | openFIFO n status => exact .inl ⟨n, status, rfl, hleads⟩
  | blockedFIFO n status => exact .inr ⟨n, status, rfl, hleads⟩
  | unforked =>
    obtain ⟨c, rfl⟩ := hleads
    exact absurd hdoor (execl_not_door c)
  | forking b x | playRead b x stat1 stat2 | playWrite b x stat1 stat2 | waitLoser b stat1 stat2
  | passRead b won stat | passUp b won stat | passBack b won stat | passDown b won stat =>
    exact absurd (show b = [b].headD '\x00' from rfl) hbattle
  | playerRead n originHP status =>
    obtain ⟨v, rfl⟩ := hleads
    exact absurd hdoor (playing_not_door _ _ _)
  | readFIFO n =>
    obtain ⟨v, rfl⟩ := hleads
    exact absurd hdoor (playing_not_door _ _ _)
  | exited => exact hleads.elim
  | _ =>
    obtain rfl := show l' = _ from hleads
    exact hdoor.elim

theorem Doors.step {s t : State} (h : Doors s) (hstep : (network S).step p s = some t) :
    Doors t := by
  have hexec : exec p (op S p (s.proc p)) s = some t := hstep
  have hgrow := exec_grows hexec
  have hleads := exec_leads hexec
  refine ⟨fun q n status hq => ?_, fun q n status hq => ?_, fun n hn => ?_⟩
  · by_cases hqp : q = p
    · subst hqp
      rcases door_leads hleads (by rw [hq]; trivial) with ⟨m, st, hl, hl'⟩ | ⟨m, st, -, hl'⟩
      · obtain ⟨rfl, rfl⟩ := Local.blockedFIFO.inj (hl'.symm.trans hq)
        rw [hl] at hexec
        obtain rfl := Option.some.inj hexec
        exact Function.update_self _ _ _
      · rw [hl'] at hq
        cases hq
    · rw [exec_proc hexec hqp] at hq
      exact hgrow.flag _ (h.blocked q n status hq)
  · by_cases hqp : q = p
    · subst hqp
      rcases door_leads hleads (by rw [hq]; trivial) with ⟨m, st, -, hl'⟩ | ⟨m, st, hl, hl'⟩
      · rw [hl'] at hq
        cases hq
      · obtain ⟨rfl, rfl⟩ := Local.writeFIFO.inj (hl'.symm.trans hq)
        have hwrite := h.blocked q _ _ hl
        rw [hl] at hexec
        obtain ⟨hready, -⟩ := Option.ite_none_right_eq_some.1 hexec
        exact ⟨hgrow.flag _ hwrite, hgrow.flag _ hready⟩
    · rw [exec_proc hexec hqp] at hq
      obtain ⟨hwrite, hread⟩ := h.writing q n status hq
      exact ⟨hgrow.flag _ hwrite, hgrow.flag _ hread⟩
  · have hold : s.flag (.openRead n) = true → (∃ a, t.proc a = .blockedAgent n ∨
        t.proc a = .readFIFO n) ∨ 0 < t.got (.fifo n) := by
      intro hflag
      rcases h.reading n hflag with ⟨a, ha⟩ | hgot
      · by_cases hap : a = p
        · subst hap
          rcases ha with ha | ha
          · rw [ha] at hleads
            exact .inl ⟨a, .inr hleads⟩
          · rw [ha] at hexec
            obtain ⟨v, -, rfl⟩ := Option.map_eq_some_iff.1 hexec
            exact .inr (by simp)
        · exact .inl ⟨a, by rwa [exec_proc hexec hap]⟩
      · exact .inr (hgot.trans_le (hgrow.got _))
    rcases exec_flag hexec hn with hflag | ⟨l, hop, hl⟩
    · exact hold hflag
    · refine .inl ⟨p, .inl ?_⟩
      cases hproc : s.proc p with
      | createFIFO m =>
        rw [hproc] at hop
        obtain ⟨hm, rfl⟩ := Op.raise.inj hop
        rw [hl, Flag.openRead.inj hm]
      | forking b x => cases x <;> simp [hproc, op] at hop
      | playRead b x stat1 stat2 => cases x <;> simp [hproc, op] at hop
      | playWrite b x stat1 stat2 => cases x <;> simp [hproc, op] at hop
      | _ => simp [hproc, op] at hop

theorem doors_of_reachable {s : State} (h : (network S).system.Reachable s) : Doors s := by
  refine h.invariant (I := Doors) (fun s hs => ?_) fun p s t hs hstep => hs.step hstep
  obtain rfl : s = start S := hs
  have hproc : ∀ q, ¬((start S).proc q).AtDoor := fun q => by
    by_cases hq : q = []
    · subst hq
      exact execl_not_door (S := S) (.battle ['A'])
    · rw [show (start S).proc q = .unforked from if_neg hq]
      exact id
  refine ⟨fun q n status hq => ?_, fun q n status hq => ?_, nofun⟩
  · exact absurd (by rw [hq]; trivial) (hproc q)
  · exact absurd (by rw [hq]; trivial) (hproc q)

/-- The step of a process that writes to a FIFO. -/
theorem fifo_write {u v : LogState} {n : ℤ} (hempty : u.sent (.chan (.fifo n)) = [])
    (hstep : (logNetwork S pid).step p u = some v) (hsent : v.sent (.chan (.fifo n)) ≠ []) :
    ∃ status, (u.proc p).state = .writeFIFO n status ∧ (v.proc p).state = .exiting ∧
      (v.proc p).todo ≠ [] ∧ v.sent (.chan (.fifo n)) = [status] ∧ v.got = u.got ∧
      v.flag = u.flag := by
  rcases erase_step hstep with ⟨-, heq⟩ | ⟨htodo, hstep'⟩
  · exact absurd ((congrFun (congrArg Config.sent heq) (.fifo n)).trans hempty) hsent
  · rcases fifo_step hstep' with hsame | ⟨m, status, hl, hexit, hupdate⟩
    · exact absurd ((hsame n).trans hempty) hsent
    · have hm : m = n := by
        by_contra hne
        refine hsent (((congrFun hupdate (.fifo n)).trans ?_).trans hempty)
        exact Function.update_of_ne (by simpa using Ne.symm hne) _ _
      subst hm
      have hstate : (u.proc p).state = .writeFIFO m status := hl
      have hexec : exec p ((logNetwork S pid).op p (u.proc p)) u = some v := hstep
      rw [show (logNetwork S pid).op p (u.proc p) = _ from logging_op_of_nil htodo, hstate] at hexec
      obtain rfl := Option.some.inj hexec
      refine ⟨status, hstate, hexit, ?_, ?_, rfl, rfl⟩
      · simp [Notes.next, notes, hstate]
      · simp [hempty]

/-- When a player writes to a FIFO, its agent waits for the status. -/
theorem exists_waiting_agent {u : LogState} {n : ℤ} {status : Status}
    (h : (logNetwork S pid).system.Reachable u) (hstate : (u.proc p).state = .writeFIFO n status)
    (hempty : u.sent (.chan (.fifo n)) = []) : ∃ a argv1,
      commandAt a = some (.player argv1) ∧ atoi argv1 = n ∧ a ≠ p ∧
      ((u.proc a).state = .blockedAgent n ∨ (u.proc a).state = .readFIFO n) ∧
      (u.proc a).todo = [] ∧ u.flag (.openWrite n) = true ∧ u.got (.chan (.fifo n)) = 0 := by
  have hk := kept_of_reachable h
  have hdoors := doors_of_reachable (erase_reachable h)
  obtain ⟨hwrite, hread⟩ := hdoors.writing p n status hstate
  have hgot : u.got (.chan (.fifo n)) = 0 := by
    have hle := hk.handed.named.piped.sane (.fifo n)
    rw [show (erase u).sent (.fifo n) = [] from hempty] at hle
    exact Nat.le_zero.1 hle
  obtain ⟨a, ha⟩ := (hdoors.reading n hread).resolve_right
    (by rw [show (erase u).got (.fifo n) = 0 from hgot]; exact lt_irrefl 0)
  have ha' : (u.proc a).state = .blockedAgent n ∨ (u.proc a).state = .readFIFO n := ha
  have hwaits : (u.proc a).state.Waits := by
    rcases ha' with hl | hl <;> rw [hl] <;> trivial
  have hne : a ≠ p := by
    rintro rfl
    rw [hstate] at hwaits
    exact hwaits
  cases hk.filing a with
  | unforked hl =>
    rw [hl] at hwaits
    exact hwaits.elim
  | agent argv1 st hcmd hreal hargv1 hfile happend hst hruns hnot => exact absurd hwaits hnot
  | own cmd hcmd hargv1 hfile hown hruns hagent =>
    cases cmd with
    | battle argv1 => rcases ha' with hl | hl <;> rw [hl] at hruns <;> exact hruns.elim
    | player argv1 =>
      obtain ⟨hn, hreal⟩ : n = atoi argv1 ∧ ¬Real n := by
        rcases ha' with hl | hl <;> rw [hl] at hruns <;> exact hruns
      have htodo := (hagent ⟨argv1, rfl, hn ▸ hreal⟩).2.1
      exact ⟨a, argv1, hcmd, hn.symm, hne, ha', htodo, hwrite, hgot⟩

/-- The player `p` with the number `r` has written its status to the FIFO `n`, and the agent `a`
waits for it. -/
structure Handing (s : LogState) (p a : Pid) (n r : ℤ) : Prop where
  exiting : (s.proc p).state = .exiting
  ne : a ≠ p
  waits : (s.proc a).state = .blockedAgent n ∨ (s.proc a).state = .readFIFO n
  todo : (s.proc a).todo = []
  openWrite : s.flag (.openWrite n) = true
  sent : ∃ status, s.sent (.chan (.fifo n)) = [status] ∧ status.real_player_id = r
  got : s.got (.chan (.fifo n)) = 0

/-- The state after the first write to a FIFO. -/
theorem exists_handing {u v : LogState} {n : ℤ} (h : (logNetwork S pid).system.Reachable u)
    (hempty : u.sent (.chan (.fifo n)) = []) (hstep : (logNetwork S pid).step p u = some v)
    (hsent : v.sent (.chan (.fifo n)) ≠ []) : ∃ argv1 a argv1',
      commandAt p = some (.player argv1) ∧ Real (atoi argv1) ∧
      commandAt a = some (.player argv1') ∧ atoi argv1' = n ∧
      Handing v p a n (atoi argv1) ∧ (v.proc p).todo ≠ [] := by
  obtain ⟨status, hstate, hexit, htodo, hsentv, hgotv, hflagv⟩ := fifo_write hempty hstep hsent
  have hexec : exec p ((logNetwork S pid).op p (u.proc p)) u = some v := hstep
  obtain ⟨argv1, hp, hreal, hid⟩ : ∃ argv1, commandAt p = some (.player argv1) ∧
      Real (atoi argv1) ∧ status.real_player_id = atoi argv1 := by
    obtain ⟨cmd, hcmd, hruns⟩ :=
      ((kept_of_reachable h).handed.named.proc p).resolve_left
        (by rw [show (erase u).proc p = _ from hstate]; exact nofun)
    rw [show (erase u).proc p = _ from hstate] at hruns
    cases cmd with
    | battle argv1 => exact hruns.elim
    | player argv1 => exact ⟨argv1, hcmd, hruns⟩
  obtain ⟨a, argv1', ha, hn, hne, hwaits, htodoa, hflag, hgot⟩ :=
    exists_waiting_agent h hstate hempty
  have hproc : v.proc a = u.proc a := exec_proc hexec hne
  exact ⟨argv1, a, argv1', hp, hreal, ha, hn, ⟨hexit, hne, hproc ▸ hwaits, hproc ▸ htodoa,
    hflagv ▸ hflag, ⟨status, hsentv, hid⟩, hgotv ▸ hgot⟩, htodo⟩

variable (S pid) in
/-- The agent reads the status, and writes its first line to the log of the player. -/
theorem Handing.agent_writes {v : LogState} {n r : ℤ} (h : Handing v p a n r) :
    ∃ y, (logNetwork S pid).Runs {a} Set.univ v y ∧ y.sent (.log a) ≠ [] ∧
      Appends y a (.player r) := by
  obtain ⟨status, hsent, hid⟩ := h.sent
  -- the agent comes to the `read`
  obtain ⟨v₁, hrun₁, hstate₁, htodo₁, hsent₁, hgot₁⟩ : ∃ v₁,
      (logNetwork S pid).Runs {a} Set.univ v v₁ ∧ (v₁.proc a).state = .readFIFO n ∧
      (v₁.proc a).todo = [] ∧ v₁.sent = v.sent ∧ v₁.got = v.got := by
    rcases h.waits with hstate | hstate
    · have hop : (logNetwork S pid).op a (v.proc a) = .await (fun flag => flag (.openWrite n))
          ((notes S pid).next a (v.proc a) (.readFIFO n)) := by
        rw [show (logNetwork S pid).op a (v.proc a) = _ from logging_op_of_nil h.todo, hstate]
        rfl
      obtain ⟨v₁, hrun, hproc, hsent₁, hgot₁, -⟩ := runs_await hop h.openWrite
      refine ⟨v₁, hrun, by rw [hproc]; rfl, ?_, hsent₁, hgot₁⟩
      rw [hproc]
      simp [Notes.next, notes, hstate]
    · exact ⟨v, .refl v, hstate, h.todo, rfl, rfl⟩
  -- it reads the status
  have hop : (logNetwork S pid).op a (v₁.proc a) = .read (.chan (.fifo n)) fun status : Status =>
      (notes S pid).hear a (v₁.proc a) (.fifo n) status (playing n status.HP status) := by
    rw [show (logNetwork S pid).op a (v₁.proc a) = _ from logging_op_of_nil htodo₁, hstate₁]
    rfl
  obtain ⟨v₂, hrun₂, hproc₂, -⟩ := runs_read (X := Set.univ) (l := []) (v := status) hop
    (by rw [hsent₁, hsent]; rfl) (by rw [hgot₁, h.got]; rfl) fun _ => trivial
  -- and it writes a line
  obtain ⟨line, todo, hline⟩ : ∃ line todo, (v₂.proc a).todo = line :: todo := by
    rw [hproc₂]
    exact ⟨_, _, rfl⟩
  obtain ⟨y, hrun₃, hproc₃, hsent₃, -⟩ := runs_write (X := Set.univ)
    (show (logNetwork S pid).op a (v₂.proc a) = _ from logging_op_of_cons hline) fun _ => trivial
  refine ⟨y, (hrun₁.trans hrun₂).trans hrun₃, ?_, ?_, ?_⟩
  · simp [hsent₃]
  · rw [hproc₃, hproc₂]
    rfl
  · rw [hproc₃, hproc₂, ← hid]
    rfl

variable (S pid) in
/-- The player writes its last line. -/
theorem Handing.last_line {v : LogState} {n r : ℤ} (h : Handing v p a n r)
    (hk : Kept v) (htodo : (v.proc p).todo ≠ []) :
    ∃ y, (logNetwork S pid).Runs {p} Set.univ v y ∧ Handing y p a n r ∧ (y.proc p).todo = [] := by
  obtain ⟨line, todo, hline⟩ := List.exists_cons_of_ne_nil htodo
  have hlast := hk.last p (.inl h.exiting)
  rw [hline, List.length_cons] at hlast
  have hnil : todo = [] := List.length_eq_zero_iff.1 (by omega)
  obtain ⟨y, hruns, hproc, hsent, hgot, hflag⟩ := runs_write (X := Set.univ)
    (show (logNetwork S pid).op p (v.proc p) = _ from logging_op_of_cons hline) fun _ => trivial
  have ha : y.proc a = v.proc a := hruns.proc (by simpa using h.ne)
  have hfifo : y.sent (.chan (.fifo n)) = v.sent (.chan (.fifo n)) := by
    rw [hsent]
    exact Function.update_of_ne (by simp) _ _
  refine ⟨y, hruns, ⟨?_, h.ne, ha ▸ h.waits, ha ▸ h.todo, hflag ▸ h.openWrite, hfifo ▸ h.sent,
    hgot ▸ h.got⟩, ?_⟩
  · rw [hproc]
    exact h.exiting
  · rw [hproc]
    exact hnil

/-- While the agent waits, nobody appends to the log of the player. -/
theorem Handing.not_appends {v : LogState} {n r : ℤ} {argv1 : List Char}
    (h : Handing v p a n r) (hk : Kept v) (ha : commandAt a = some (.player argv1))
    (hn : atoi argv1 = n) (b : Pid) : ¬Appends v b (.player r) := by
  intro happends
  obtain ⟨argv1', st, hb, -, hfile, hst, -, hnot⟩ := happends.agent hk
  obtain ⟨status, hsent, hid⟩ := h.sent
  have hmem : status ∈ (erase v).sent (.fifo n) := by
    rw [show (erase v).sent (.fifo n) = _ from hsent]
    exact List.mem_singleton_self _
  have hfifo : n = atoi argv1' :=
    hk.handed.once _ _ status hmem st hst (hid.trans (LogFile.player.inj hfile))
  obtain rfl : a = b := commandAt_inj ha hb (congrArg LogFile.player (hn.trans hfifo))
  rcases h.waits with hl | hl <;> rw [hl] at hnot <;> exact hnot trivial

/-- An agent that has opened a log goes on with it. -/
theorem Appends.run {w : List Pid} (h : Appends s a f)
    (hs : (logNetwork S pid).system.Reachable s)
    (hrun : (logNetwork S pid).system.run w s = some t) : Appends t a f :=
  (System.run_invariant (I := fun s => Kept s ∧ Appends s a f)
    (fun _ _ _ h hstep => ⟨h.1.step hstep, h.2.step h.1 hstep⟩) w
    ⟨kept_of_reachable hs, h⟩ hrun).2

/-- To every agent a player is handed over. -/
theorem exists_handover (hS : S.Valid) (pid : Pid → ℕ) {n : ℤ} (hn : n ∈ losersBracket.leaves) :
    ∃ w v p argv1 a argv1', (logNetwork S pid).system.run w (logNetwork S pid).start = some v ∧
      commandAt p = some (.player argv1) ∧ Real (atoi argv1) ∧
      commandAt a = some (.player argv1') ∧ atoi argv1' = n ∧
      Handing v p a n (atoi argv1) ∧ (v.proc p).todo ≠ [] := by
  obtain ⟨w, t, o, hrun, -, -, hfair, hfinal⟩ := exists_log_outcome hS pid
  have hsent : t.sent (.chan (.fifo n)) ≠ [] := by
    obtain ⟨c, hc, rfl⟩ := exists_loser n hn
    rw [← hfair.upper.ids_losers] at hc
    obtain ⟨l, hl, rfl⟩ := List.mem_map.1 hc
    rw [show t.sent (.chan (.fifo _)) = [S.restore l.2] from hfinal.fifo l hl]
    exact List.cons_ne_nil _ _
  have hempty : (logNetwork S pid).start.sent (.chan (.fifo n)) = [] := rfl
  obtain ⟨w₁, p, -, u, v, -, hrun₁, hu, hstep, hv, -⟩ :=
    System.exists_first_step (P := fun s => s.sent (.chan (.fifo n)) ≠ []) hrun
      (not_not.2 hempty) hsent
  obtain ⟨argv1, a, argv1', hp, hreal, ha, hn', hhanding, htodo⟩ :=
    exists_handing ⟨_, w₁, rfl, hrun₁⟩ (not_not.1 hu) hstep hv
  exact ⟨w₁ ++ [p], v, p, argv1, a, argv1', (System.run_snoc _).2 ⟨u, hrun₁, hstep⟩, hp, hreal, ha,
    hn', hhanding, htodo⟩

/-- For every agent there is an order of steps in which it overtakes its player. -/
theorem exists_race (hS : S.Valid) (pid : Pid → ℕ) (old : LogFile → List Char) {n : ℤ}
    (hn : n ∈ losersBracket.leaves) : ∃ w₁ w₂ y x p argv1 a argv1',
      (logFiles S pid old).run w₁ (logFilesStart S pid old) = some y ∧
      (logFiles S pid old).run w₂ y = some x ∧ LogFinished x.1 ∧
      commandAt p = some (.player argv1) ∧ Real (atoi argv1) ∧
      commandAt a = some (.player argv1') ∧ atoi argv1' = n ∧
      Appends y.1 a (.player (atoi argv1)) ∧ Appends x.1 a (.player (atoi argv1)) ∧
      Overtaken y.1 p (.player (atoi argv1)) := by
  obtain ⟨w, v, p, argv1, a, argv1', hrun, hp, hreal, ha, hn', hhanding, htodo⟩ :=
    exists_handover hS pid hn
  -- the agent goes on
  obtain ⟨y, hruns, hlog, happends⟩ := hhanding.agent_writes S pid
  obtain ⟨w', -, hrun'⟩ := hruns.exists_run
  have hruny := (System.run_append_eq_some _).2 ⟨v, hrun, hrun'⟩
  obtain ⟨e, hfiles⟩ := exists_files_run old ⟨old, fun _ => 0⟩ hruny
  -- and the championship comes to its end
  obtain ⟨w₂, x, hend, hfinished⟩ := exists_files_end hS ⟨_, _, rfl, hfiles⟩
  have hover : Overtaken y p (.player (atoi argv1)) := by
    refine ⟨?_, a, happends, hlog⟩
    rwa [hruns.proc (by simpa using Ne.symm hhanding.ne)]
  exact ⟨_, w₂, (y, e), x, p, argv1, a, argv1', hfiles, hend, hfinished, hp, hreal, ha, hn',
    happends, happends.run ⟨_, _, rfl, hruny⟩ (run_of_files hend), hover⟩

/-- For every agent there is an order of steps in which its player writes the last line first,
and the log is intact at the end. -/
theorem exists_unraced (hS : S.Valid) (pid : Pid → ℕ) (old : LogFile → List Char)
    (hold : ∀ r, old (.player r) = []) {n : ℤ} (hn : n ∈ losersBracket.leaves) :
    ∃ w x p argv1 a argv1',
      (logFiles S pid old).run w (logFilesStart S pid old) = some x ∧ LogFinished x.1 ∧
      commandAt p = some (.player argv1) ∧ Real (atoi argv1) ∧
      commandAt a = some (.player argv1') ∧ atoi argv1' = n ∧
      Appends x.1 a (.player (atoi argv1)) ∧ Intact x.1 x.2 p (.player (atoi argv1)) := by
  obtain ⟨w, v, p, argv1, a, argv1', hrun, hp, hreal, ha, hn', hhanding, htodo⟩ :=
    exists_handover hS pid hn
  -- the player goes on
  obtain ⟨y, hruns, hhanding', htodo'⟩ :=
    hhanding.last_line S pid (kept_of_reachable ⟨_, w, rfl, hrun⟩) htodo
  obtain ⟨w', -, hrun'⟩ := hruns.exists_run
  have hruny := (System.run_append_eq_some _).2 ⟨v, hrun, hrun'⟩
  have hk : Kept y := kept_of_reachable ⟨_, _, rfl, hruny⟩
  obtain ⟨e, hfiles⟩ := exists_files_run old ⟨old, fun _ => 0⟩ hruny
  obtain ⟨hplaced, hlog⟩ := intact_or_damaged hfiles hp hreal.not_agent (hold _)
  have hintact : Intact y e p (Command.player argv1).file := hlog.resolve_right fun hdamaged =>
    let ⟨_, b, happends, _⟩ := hdamaged
    hhanding'.not_appends hk ha hn' b happends
  -- then the agent
  obtain ⟨z, hruns', -, happends⟩ := hhanding'.agent_writes S pid
  obtain ⟨w'', -, hrun''⟩ := hruns'.exists_run
  have hrunz := (System.run_append_eq_some _).2 ⟨y, hruny, hrun''⟩
  obtain ⟨e', hfiles'⟩ := exists_files_run old e hrun''
  have hfilesz := (System.run_append_eq_some _).2 ⟨(y, e), hfiles, hfiles'⟩
  -- and the championship comes to its end
  obtain ⟨w₂, x, hend, hfinished⟩ := exists_files_end hS ⟨_, _, rfl, hfilesz⟩
  have hx : Intact x.1 x.2 p (Command.player argv1).file :=
    hintact.run hplaced (.inl hhanding'.exiting) htodo' hp hreal.not_agent
      ((System.run_append_eq_some _).2 ⟨(z, e'), hfiles', hend⟩)
  exact ⟨_, x, p, argv1, a, argv1', (System.run_append_eq_some _).2 ⟨(z, e'), hfilesz, hend⟩,
    hfinished, hp, hreal, ha, hn', happends.run ⟨_, _, rfl, hrunz⟩ (run_of_files hend), hx⟩

/-- The log of a player whose file was empty is intact at the end, its own lines and then those
of its agent, exactly if in no state of the run the agent has written a line and the player
has still one to write. Otherwise it is damaged. -/
theorem player_log_intact_iff {argv1 : List Char} {w : List Pid} {x : LogState × Disk}
    (hrun : (logFiles S pid old).run w (logFilesStart S pid old) = some x)
    (hfinished : LogFinished x.1) (hp : commandAt p = some (.player argv1))
    (hreal : Real (atoi argv1)) (hold : old (.player (atoi argv1)) = []) :
    (Intact x.1 x.2 p (.player (atoi argv1)) ↔
      (logFiles S pid old).Throughout (fun y => ¬Overtaken y.1 p (.player (atoi argv1))) w
        (logFilesStart S pid old)) ∧
    (Damaged x.1 x.2 p (.player (atoi argv1)) ↔
      ¬(logFiles S pid old).Throughout (fun y => ¬Overtaken y.1 p (.player (atoi argv1))) w
        (logFilesStart S pid old)) := by
  have hintact := intact_of_throughout hrun hp hreal.not_agent hold
  have hdamaged : ¬(logFiles S pid old).Throughout
      (fun y => ¬Overtaken y.1 p (.player (atoi argv1))) w (logFilesStart S pid old) →
      Damaged x.1 x.2 p (.player (atoi argv1)) := by
    intro hnot
    by_contra hwhole
    refine hnot ?_
    rintro w₁ w₂ y rfl hrun₁ hover
    obtain ⟨y', hy', hrun₂⟩ := System.run_append_eq_some _ |>.1 hrun
    obtain rfl : y = y' := Option.some.inj (hrun₁.symm.trans hy')
    exact hwhole (hover.finally hrun₁ hrun₂ hfinished hp hreal.not_agent hold)
  refine ⟨⟨fun h => ?_, hintact⟩, fun h hthroughout => h.not_intact (hintact hthroughout),
    hdamaged⟩
  by_contra hnot
  exact (hdamaged hnot).not_intact h

/-- In the championship of `player_status.txt` the log that goes over to agent 8 is intact at one
end, and damaged at another. -/
theorem player_log_zeroed :
    (∃ w x p argv1 a argv1',
      (logFiles zeroed (fun _ => 1) fun _ => []).run w
        (logFilesStart zeroed (fun _ => 1) fun _ => []) = some x ∧ LogFinished x.1 ∧
      commandAt p = some (.player argv1) ∧ Real (atoi argv1) ∧
      commandAt a = some (.player argv1') ∧ atoi argv1' = 8 ∧
      Appends x.1 a (.player (atoi argv1)) ∧ Intact x.1 x.2 p (.player (atoi argv1)) ∧
      (logFiles zeroed (fun _ => 1) fun _ => []).Throughout
        (fun y => ¬Overtaken y.1 p (.player (atoi argv1))) w
        (logFilesStart zeroed (fun _ => 1) fun _ => [])) ∧
    ∃ w x p argv1 a argv1',
      (logFiles zeroed (fun _ => 1) fun _ => []).run w
        (logFilesStart zeroed (fun _ => 1) fun _ => []) = some x ∧ LogFinished x.1 ∧
      commandAt p = some (.player argv1) ∧ Real (atoi argv1) ∧
      commandAt a = some (.player argv1') ∧ atoi argv1' = 8 ∧
      Appends x.1 a (.player (atoi argv1)) ∧ Damaged x.1 x.2 p (.player (atoi argv1)) := by
  constructor
  · obtain ⟨w, x, p, argv1, a, argv1', hrun, hfinished, hp, hreal, ha, hn, happends, hintact⟩ :=
      exists_unraced zeroed_valid (fun _ => 1) (fun _ => []) (fun _ => rfl) (n := 8) (by decide)
    exact ⟨w, x, p, argv1, a, argv1', hrun, hfinished, hp, hreal, ha, hn, happends, hintact,
      (player_log_intact_iff hrun hfinished hp hreal rfl).1.1 hintact⟩
  · obtain ⟨w₁, w₂, y, x, p, argv1, a, argv1', hrun₁, hrun₂, hfinished, hp, hreal, ha, hn, -,
      happends, hover⟩ := exists_race zeroed_valid (fun _ => 1) (fun _ => []) (n := 8) (by decide)
    have hrun := (System.run_append_eq_some _).2 ⟨y, hrun₁, hrun₂⟩
    exact ⟨_, x, p, argv1, a, argv1', hrun, hfinished, hp, hreal, ha, hn, happends,
      (player_log_intact_iff hrun hfinished hp hreal rfl).2.2 fun hnever =>
        hnever w₁ w₂ y rfl hrun₁ hover⟩

/-- The race is there in every championship. For every agent there is an order of steps in
which it writes to the log of its player before the last line of the player, and at the end this
log is shorter than what the two have written to it. -/
theorem log_race (hS : S.Valid) (pid : Pid → ℕ) (hold : ∀ r, old (.player r) = []) {n : ℤ}
    (hn : n ∈ losersBracket.leaves) : ∃ w₁ w₂ y x p argv1 a argv1',
      (logFiles S pid old).run w₁ (logFilesStart S pid old) = some y ∧
      (logFiles S pid old).run w₂ y = some x ∧ LogFinished x.1 ∧
      commandAt p = some (.player argv1) ∧ Real (atoi argv1) ∧
      commandAt a = some (.player argv1') ∧ atoi argv1' = n ∧
      Appends y.1 a (.player (atoi argv1)) ∧ Appends x.1 a (.player (atoi argv1)) ∧
      Overtaken y.1 p (.player (atoi argv1)) ∧
      Damaged x.1 x.2 p (.player (atoi argv1)) := by
  obtain ⟨w₁, w₂, y, x, p, argv1, a, argv1', hrun₁, hrun₂, hfinished, hp, hreal, ha, hn', hy, hx,
    hover⟩ := exists_race hS pid old hn
  exact ⟨w₁, w₂, y, x, p, argv1, a, argv1', hrun₁, hrun₂, hfinished, hp, hreal, ha, hn', hy, hx,
    hover, hover.finally hrun₁ hrun₂ hfinished hp hreal.not_agent (hold _)⟩

/-- Such a run of the championship of `player_status.txt`. -/
theorem log_race_zeroed : ∃ w₁ w₂ y x p argv1 a argv1',
    (logFiles zeroed (fun _ => 1) fun _ => []).run w₁
        (logFilesStart zeroed (fun _ => 1) fun _ => []) = some y ∧
      (logFiles zeroed (fun _ => 1) fun _ => []).run w₂ y = some x ∧ LogFinished x.1 ∧
      commandAt p = some (.player argv1) ∧ Real (atoi argv1) ∧
      commandAt a = some (.player argv1') ∧ atoi argv1' = 8 ∧
      Appends y.1 a (.player (atoi argv1)) ∧ Appends x.1 a (.player (atoi argv1)) ∧
      Overtaken y.1 p (.player (atoi argv1)) ∧
      Damaged x.1 x.2 p (.player (atoi argv1)) :=
  log_race zeroed_valid _ (fun _ => rfl) (by decide)

end Race

end SP2022.Championship
