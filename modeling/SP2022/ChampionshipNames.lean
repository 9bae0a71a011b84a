import Mathlib.Data.List.Nodup
import SP2022.ChampionshipLog

/-!
# Which process is which

The place of a process in the tree of forks says which program it runs (`commandAt`), and no two
processes run the same battle or the same player (`commandAt_inj`). In every state a process is
where its program can be, the status of a real player is its own (`named_of_reachable`), and a
player is handed over to one agent at most (`handedOver_of_reachable`).
-/

namespace SP2022.Championship

open Network

/-- The command line of a process. -/
def commandAt : Pid → Option Command
  | [] => some (.battle ['A'])
  | x :: p =>
    match commandAt p with
    | some (.battle argv1) => some ((graph (argv1.headD '\x00')).command x)
    | _ => none

/-- The battles of `graph`. -/
def battles : List Char :=
  ['A', 'B', 'C', 'D', 'E', 'F', 'G', 'H', 'I', 'J', 'K', 'L', 'M', 'N']

/-- The children of all battles. -/
def children : List (Char × Side) :=
  battles.flatMap fun b => [(b, .left), (b, .right)]

theorem mem_children {b : Char} (hb : b ∈ battles) (x : Side) : (b, x) ∈ children :=
  List.mem_flatMap.2 ⟨b, hb, by cases x <;> simp⟩

/-- No two children of battles are the same, and none is `battle A`. -/
theorem nodup_children : (LogFile.battle 'A' ::
    children.map fun c => ((graph c.1).command c.2).file).Nodup := by
  decide

theorem children_battles : ∀ c ∈ children, ∀ b, ((graph c.1).command c.2).file = .battle b →
    b ∈ battles := by
  have h : ∀ c ∈ children, ((graph c.1).command c.2).file ∈
      battles.map LogFile.battle ++ (List.range 15).map fun n => LogFile.player n := by
    decide
  intro c hc b hb
  have hmem := h c hc
  rw [hb] at hmem
  simpa using hmem

theorem commandAt_battles {p : Pid} {argv1 : List Char}
    (h : commandAt p = some (.battle argv1)) : argv1.headD '\x00' ∈ battles := by
  induction p generalizing argv1 with
  | nil =>
    obtain rfl := Command.battle.inj (Option.some.inj h)
    decide
  | cons x p ih =>
    unfold commandAt at h
    split at h
    · next argv1' hp =>
      refine children_battles _ (mem_children (ih hp) x) _ ?_
      rw [Option.some.inj h]
      rfl
    · cases h

/-- A process that is not the first one is a child of a battle. -/
theorem commandAt_cons {x : Side} {p : Pid} {cmd : Command} (h : commandAt (x :: p) = some cmd) :
    ∃ argv1, commandAt p = some (.battle argv1) ∧ argv1.headD '\x00' ∈ battles ∧
      cmd = (graph (argv1.headD '\x00')).command x := by
  unfold commandAt at h
  split at h
  · next argv1 hp => exact ⟨argv1, hp, commandAt_battles hp, (Option.some.inj h).symm⟩
  · cases h

/-- No two processes run the same battle or player. -/
theorem commandAt_inj {p q : Pid} {cmd cmd' : Command} (hp : commandAt p = some cmd)
    (hq : commandAt q = some cmd') (h : cmd.file = cmd'.file) : p = q := by
  obtain ⟨hA, hnodup⟩ := List.nodup_cons.1 nodup_children
  have hroot : ∀ {x : Side} {p : Pid} {cmd : Command}, commandAt (x :: p) = some cmd →
      cmd.file ≠ .battle 'A' := by
    intro x p cmd hcmd heq
    obtain ⟨argv1, -, hmem, rfl⟩ := commandAt_cons hcmd
    exact hA (List.mem_map.2 ⟨_, mem_children hmem x, heq⟩)
  induction p generalizing q cmd cmd' with
  | nil =>
    obtain rfl := Option.some.inj hp
    cases q with
    | nil => rfl
    | cons y q => exact absurd h.symm (hroot hq)
  | cons x p ih =>
    cases q with
    | nil =>
      obtain rfl := Option.some.inj hq
      exact absurd h (hroot hp)
    | cons y q =>
      obtain ⟨argv1, hp', hmem, rfl⟩ := commandAt_cons hp
      obtain ⟨argv1', hq', hmem', rfl⟩ := commandAt_cons hq
      have heq := List.inj_on_of_nodup_map hnodup (mem_children hmem x) (mem_children hmem' y) h
      obtain ⟨hb, rfl⟩ := Prod.mk.inj heq
      rw [ih hp' hq' (congrArg LogFile.battle hb)]

/-! ## Where a program can be -/

/-- A player with a `player_status.txt` line. -/
def Real (player_ID : ℤ) : Prop :=
  0 ≤ player_ID ∧ player_ID ≤ 7

instance (player_ID : ℤ) : Decidable (Real player_ID) :=
  inferInstanceAs (Decidable (_ ∧ _))

/-- A process that runs the program can be there. The status of a real player is its own. -/
def Local.Runs : Command → Local → Prop
  | .battle argv1, .forking battle_ID _ => battle_ID = argv1.headD '\x00'
  | .battle argv1, .playRead battle_ID _ _ _ => battle_ID = argv1.headD '\x00'
  | .battle argv1, .playWrite battle_ID _ _ _ => battle_ID = argv1.headD '\x00'
  | .battle argv1, .waitLoser battle_ID _ _ => battle_ID = argv1.headD '\x00'
  | .battle argv1, .passRead battle_ID _ _ => battle_ID = argv1.headD '\x00'
  | .battle argv1, .passUp battle_ID _ _ => battle_ID = argv1.headD '\x00'
  | .battle argv1, .passBack battle_ID _ _ => battle_ID = argv1.headD '\x00'
  | .battle argv1, .passDown battle_ID _ _ => battle_ID = argv1.headD '\x00'
  | .battle _, .print _ => True
  | .battle _, .waitWinner => True
  | .player argv1, .playerWrite player_ID _ status =>
    player_ID = atoi argv1 ∧ (Real player_ID → status.real_player_id = player_ID)
  | .player argv1, .playerRead player_ID _ status =>
    player_ID = atoi argv1 ∧ (Real player_ID → status.real_player_id = player_ID)
  | .player argv1, .openFIFO _ status => Real (atoi argv1) ∧ status.real_player_id = atoi argv1
  | .player argv1, .blockedFIFO _ status => Real (atoi argv1) ∧ status.real_player_id = atoi argv1
  | .player argv1, .writeFIFO _ status => Real (atoi argv1) ∧ status.real_player_id = atoi argv1
  | .player argv1, .createFIFO player_ID => player_ID = atoi argv1 ∧ ¬Real player_ID
  | .player argv1, .blockedAgent player_ID => player_ID = atoi argv1 ∧ ¬Real player_ID
  | .player argv1, .readFIFO player_ID => player_ID = atoi argv1 ∧ ¬Real player_ID
  | _, .exiting => True
  | _, .exited => True
  | _, _ => False

theorem Local.Runs.ne_unforked {cmd : Command} {l : Local} (h : l.Runs cmd) :
    l ≠ .unforked := by
  rintro rfl
  cases cmd <;> exact h.elim

theorem runs_playing {argv1 : List Char} {status : Status} (originHP : ℤ)
    (h : Real (atoi argv1) → status.real_player_id = atoi argv1) :
    (playing (atoi argv1) originHP status).Runs (.player argv1) := by
  unfold playing
  split_ifs with hflag hA hHP hreal
  · exact ⟨rfl, h⟩
  · trivial
  · exact ⟨rfl, h⟩
  · exact ⟨hreal, h hreal⟩
  · trivial

theorem runs_execl (S : Setup) (cmd : Command) : (execl S cmd).Runs cmd := by
  cases cmd with
  | battle argv1 => rfl
  | player argv1 =>
    simp only [execl, playerMain]
    split_ifs with hreal
    · exact runs_playing _ fun _ => rfl
    · exact ⟨rfl, hreal⟩

theorem runs_playLoop {argv1 : List Char} (stat1 stat2 : Status) :
    (playLoop (argv1.headD '\x00') stat1 stat2).Runs (.battle argv1) := by
  unfold playLoop
  split_ifs <;> rfl

theorem runs_passLoop {argv1 : List Char} (won : Side) (stat : Status) :
    (passLoop (argv1.headD '\x00') won stat).Runs (.battle argv1) := by
  unfold passLoop
  split_ifs
  · rfl
  · trivial

/-- What a process reads from its `stdin` is of the player that it asked about. -/
theorem Piped.answer {s : State} (hs : Piped s) {p : Pid} {st v : Status}
    (hasked : (s.proc p).asked = [st]) (hnext : (s.sent (.stdin p))[s.got (.stdin p)]? = some v) :
    v.key = st.key := by
  cases p with
  | nil => exact absurd (hs.top.asked.symm.trans hasked) (List.cons_ne_nil _ _).symm
  | cons x p => exact (hs.linked p x).answer_key hs.sane hasked hnext

/-- A battle goes on as a battle. -/
theorem battle_leads {S : Setup} {p : Pid} {l l' : Local} {argv1 : List Char}
    (h : l.Runs (.battle argv1)) (hleads : (op S p l).Leads l') : l'.Runs (.battle argv1) := by
  cases l with
  | forking battle_ID x =>
    obtain rfl : battle_ID = _ := h
    cases x with
    | left => exact hleads ▸ rfl
    | right => exact hleads ▸ runs_playLoop _ _
  | playRead battle_ID x stat1 stat2 =>
    cases x with
    | left =>
      obtain ⟨v, rfl⟩ := hleads
      exact h
    | right =>
      obtain ⟨v, rfl⟩ := hleads
      exact h
  | playWrite battle_ID x stat1 stat2 =>
    obtain rfl : battle_ID = _ := h
    cases x with
    | left => exact hleads ▸ rfl
    | right => exact hleads ▸ runs_playLoop _ _
  | waitLoser battle_ID stat1 stat2 =>
    obtain rfl : battle_ID = _ := h
    obtain rfl : l' = afterBattle p _ stat1 stat2 := hleads
    by_cases hp : p = []
    · simp only [afterBattle, hp, ne_eq, not_true_eq_false, if_false]
      trivial
    · simp only [afterBattle, ne_eq, hp, not_false_eq_true, if_true]
      exact runs_passLoop _ _
  | passRead battle_ID won stat | passBack battle_ID won stat =>
    obtain ⟨v, rfl⟩ := hleads
    exact h
  | passUp battle_ID won stat => exact hleads ▸ h
  | passDown battle_ID won stat =>
    obtain rfl : battle_ID = _ := h
    obtain rfl := show l' = _ from hleads
    split_ifs
    · trivial
    · exact runs_passLoop _ _
  | print winner | waitWinner | exiting => exact hleads ▸ trivial
  | exited => exact hleads.elim
  | _ => exact h.elim

theorem runs_step {S : Setup} {p : Pid} {s t : State} {cmd : Command} (h : (s.proc p).Runs cmd)
    (hs : Piped s) (hstep : (network S).step p s = some t) : (t.proc p).Runs cmd := by
  have hexec : exec p (op S p (s.proc p)) s = some t := hstep
  have hleads := exec_leads hexec
  cases cmd with
  | battle argv1 => exact battle_leads h hleads
  | player argv1 =>
    cases hproc : s.proc p with
    | playerRead player_ID originHP status =>
      have hkey : ∀ {v : Status}, (s.sent (.stdin p))[s.got (.stdin p)]? = some v →
          v.real_player_id = status.real_player_id := fun hv =>
        congrArg Prod.fst (hs.answer (show (s.proc p).asked = [status] by rw [hproc]; rfl) hv)
      rw [hproc] at h hexec
      obtain ⟨v, hv, rfl⟩ := Option.map_eq_some_iff.1 hexec
      obtain ⟨rfl, hid⟩ := h
      simp only [Function.update_self]
      exact runs_playing _ fun hreal => (hkey hv).trans (hid hreal)
    | readFIFO player_ID =>
      rw [hproc] at h hleads
      obtain ⟨v, hv⟩ := hleads
      obtain ⟨rfl, hreal⟩ := h
      exact hv ▸ runs_playing _ fun h => absurd h hreal
    | playerWrite player_ID originHP status | openFIFO n status | blockedFIFO n status
    | writeFIFO n status | createFIFO player_ID | blockedAgent player_ID | exiting =>
      rw [hproc] at h hleads
      rw [show t.proc p = _ from hleads]
      first | exact h | trivial
    | exited =>
      rw [hproc] at hexec
      cases hexec
    | _ =>
      rw [hproc] at h
      exact h.elim

/-- Processes run the programs that their places say. -/
structure Named (s : State) : Prop where
  piped : Piped s
  fork : ∀ p, ∀ cmd ∈ s.sent (.fork p), commandAt p = some cmd
  proc : ∀ p, s.proc p = .unforked ∨ ∃ cmd, commandAt p = some cmd ∧ (s.proc p).Runs cmd

/-- What is written to a `fork` is what its place says. -/
theorem Named.fork_step {S : Setup} {p : Pid} {s t : State} (h : Named s)
    (hstep : (network S).step p s = some t) :
    ∀ q, ∀ cmd ∈ t.sent (.fork q), commandAt q = some cmd := by
  intro q cmd hmem
  have hexec : exec p (op S p (s.proc p)) s = some t := hstep
  by_cases hold : cmd ∈ s.sent (.fork q)
  · exact h.fork q cmd hold
  have hproc := h.proc p
  cases hl : s.proc p with
  | forking battle_ID x =>
    rw [hl] at hproc hexec
    obtain ⟨argv, hcmd, hruns⟩ := hproc.resolve_left (by simp)
    have hwrite : ∃ y, t.sent = Function.update s.sent (.fork (y :: p))
        (s.sent (.fork (y :: p)) ++ [(graph battle_ID).command y]) := by
      cases x with
      | left => exact ⟨.left, (Option.some.inj hexec).symm ▸ rfl⟩
      | right => exact ⟨.right, (Option.some.inj hexec).symm ▸ rfl⟩
    obtain ⟨y, hsent⟩ := hwrite
    by_cases hq : q = y :: p
    · subst hq
      rw [hsent, Function.update_self, List.mem_append, List.mem_singleton] at hmem
      obtain rfl := hmem.resolve_left hold
      cases argv with
      | player argv1 => exact hruns.elim
      | battle argv1 =>
        obtain rfl : battle_ID = _ := hruns
        simp [commandAt, hcmd]
    · rw [hsent, Function.update_of_ne (by simpa using hq)] at hmem
      exact absurd hmem hold
  | playRead battle_ID x stat1 stat2 =>
    rw [exec_sent hexec (by cases x <;> simp [hl, op])] at hmem
    exact absurd hmem hold
  | playWrite battle_ID x stat1 stat2 =>
    rw [exec_sent hexec (by cases x <;> simp [hl, op])] at hmem
    exact absurd hmem hold
  | _ =>
    rw [exec_sent hexec (by simp [hl, op])] at hmem
    exact absurd hmem hold

theorem Named.step {S : Setup} {p : Pid} {s t : State} (h : Named s)
    (hstep : (network S).step p s = some t) : Named t := by
  refine ⟨piped_step h.piped hstep, h.fork_step hstep, fun q => ?_⟩
  have hexec : exec p (op S p (s.proc p)) s = some t := hstep
  by_cases hq : q = p
  · subst hq
    right
    rcases h.proc q with hl | ⟨cmd, hcmd, hruns⟩
    · rw [hl] at hexec
      obtain ⟨cmd, hnext, rfl⟩ := Option.map_eq_some_iff.1 hexec
      refine ⟨cmd, h.fork q cmd (List.mem_of_getElem? hnext), ?_⟩
      simp only [Function.update_self]
      exact runs_execl S cmd
    · exact ⟨cmd, hcmd, runs_step hruns h.piped hstep⟩
  · rw [exec_proc hexec hq]
    exact h.proc q

theorem named_of_reachable {S : Setup} {s : State} (h : (network S).system.Reachable s) :
    Named s := by
  refine h.invariant (I := Named) (fun s hs => ?_) fun p s t hs hstep => hs.step hstep
  refine ⟨piped_of_reachable (.of_init hs), ?_, fun p => ?_⟩
  · obtain rfl : s = start S := hs
    intro p cmd hcmd
    cases hcmd
  · obtain rfl : s = start S := hs
    by_cases hp : p = []
    · subst hp
      exact .inr ⟨_, rfl, runs_execl S _⟩
    · exact .inl (if_neg hp)

/-- The championship runs from the start. -/
theorem root_ne_unforked {S : Setup} {s : State} (h : (network S).system.Reachable s) :
    s.proc [] ≠ .unforked := by
  have hruns : Piped s ∧ (s.proc []).Runs (.battle ['A']) := by
    refine h.invariant (I := fun s => Piped s ∧ (s.proc []).Runs (.battle ['A'])) ?_ ?_
    · intro s hs
      obtain rfl : s = start S := hs
      exact ⟨piped_of_reachable (.of_init rfl), runs_execl S _⟩
    · intro p s t hs hstep
      refine ⟨piped_step hs.1 hstep, ?_⟩
      by_cases hp : [] = p
      · subst hp
        exact runs_step hs.2 hs.1 hstep
      · rw [exec_proc hstep hp]
        exact hs.2
  exact hruns.2.ne_unforked

/-! ## Who is handed over -/

/-- A status in a FIFO is of a real player that has exited or is about to. No player is in two
FIFOs. -/
structure HandedOver (s : State) : Prop where
  named : Named s
  sender : ∀ n, ∀ st ∈ s.sent (.fifo n), ∃ p argv1, commandAt p = some (.player argv1) ∧
    Real (atoi argv1) ∧ st.real_player_id = atoi argv1 ∧
    (s.proc p = .exiting ∨ s.proc p = .exited)
  once : ∀ n n', ∀ st ∈ s.sent (.fifo n), ∀ st' ∈ s.sent (.fifo n'),
    st.real_player_id = st'.real_player_id → n = n'

/-- What is written to a FIFO, and by whom. -/
theorem fifo_step {S : Setup} {p : Pid} {s t : State} (hstep : (network S).step p s = some t) :
    (∀ n, t.sent (.fifo n) = s.sent (.fifo n)) ∨
      ∃ n status, s.proc p = .writeFIFO n status ∧ t.proc p = .exiting ∧
        t.sent = Function.update s.sent (.fifo n) (s.sent (.fifo n) ++ [status]) := by
  have hexec : exec p (op S p (s.proc p)) s = some t := hstep
  cases hl : s.proc p with
  | writeFIFO n status =>
    rw [hl] at hexec
    obtain rfl := Option.some.inj hexec
    exact .inr ⟨n, status, rfl, Function.update_self _ _ _, rfl⟩
  | forking battle_ID x => exact .inl fun n => exec_sent hexec (by cases x <;> simp [hl, op])
  | playRead battle_ID x stat1 stat2 =>
    exact .inl fun n => exec_sent hexec (by cases x <;> simp [hl, op])
  | playWrite battle_ID x stat1 stat2 =>
    exact .inl fun n => exec_sent hexec (by cases x <;> simp [hl, op])
  | _ => exact .inl fun n => exec_sent hexec (by simp [hl, op])

theorem over_step {S : Setup} {p q : Pid} {s t : State}
    (h : s.proc q = .exiting ∨ s.proc q = .exited) (hstep : (network S).step p s = some t) :
    t.proc q = .exiting ∨ t.proc q = .exited := by
  have hexec : exec p (op S p (s.proc p)) s = some t := hstep
  by_cases hq : q = p
  · subst hq
    rcases h with hl | hl
    · rw [hl] at hexec
      exact .inr (exec_leads hexec)
    · rw [hl] at hexec
      cases hexec
  · rw [exec_proc hexec hq]
    exact h

theorem HandedOver.step {S : Setup} {p : Pid} {s t : State} (h : HandedOver s)
    (hstep : (network S).step p s = some t) : HandedOver t := by
  have hover : ∀ {q}, s.proc q = .exiting ∨ s.proc q = .exited →
      t.proc q = .exiting ∨ t.proc q = .exited := fun hq => over_step hq hstep
  have hnamed := h.named.step hstep
  rcases fifo_step hstep with hsent | ⟨n, status, hl, hexit, hsent⟩
  · refine ⟨hnamed, fun n st hst => ?_, fun n n' st hst st' hst' => ?_⟩
    · obtain ⟨q, argv1, hq, hreal, hid, hexited⟩ := h.sender n st (hsent n ▸ hst)
      exact ⟨q, argv1, hq, hreal, hid, hover hexited⟩
    · exact h.once n n' st (hsent n ▸ hst) st' (hsent n' ▸ hst')
  · -- the process that writes has not written before
    obtain ⟨cmd, hcmd, hruns⟩ := (h.named.proc p).resolve_left (by simp [hl])
    rw [hl] at hruns
    obtain ⟨argv1, rfl, hreal, hid⟩ : ∃ argv1, cmd = .player argv1 ∧ Real (atoi argv1) ∧
        status.real_player_id = atoi argv1 := by
      cases cmd with
      | battle argv1 => exact hruns.elim
      | player argv1 => exact ⟨argv1, rfl, hruns⟩
    have hfirst : ∀ n, ∀ st ∈ s.sent (.fifo n), st.real_player_id ≠ status.real_player_id := by
      intro n st hst heq
      obtain ⟨q, argv1', hq, -, hid', hexited⟩ := h.sender n st hst
      have hfile : (Command.player argv1').file = (Command.player argv1).file :=
        congrArg LogFile.player ((hid'.symm.trans heq).trans hid)
      rw [commandAt_inj hq hcmd hfile, hl] at hexited
      rcases hexited with hexited | hexited <;> cases hexited
    have hmem : ∀ {n' : ℤ} {st : Status}, st ∈ t.sent (.fifo n') →
        st ∈ s.sent (.fifo n') ∨ n' = n ∧ st = status := by
      intro n' st hst
      by_cases hn : n' = n
      · subst hn
        rw [hsent, Function.update_self, List.mem_append, List.mem_singleton] at hst
        exact hst.imp_right fun heq => ⟨rfl, heq⟩
      · rw [hsent, Function.update_of_ne (by simpa using hn)] at hst
        exact .inl hst
    refine ⟨hnamed, fun n' st hst => ?_, fun n₁ n₂ st hst st' hst' heq => ?_⟩
    · rcases hmem hst with hst | ⟨rfl, rfl⟩
      · obtain ⟨q, argv1', hq, hreal', hid', hexited⟩ := h.sender n' st hst
        exact ⟨q, argv1', hq, hreal', hid', hover hexited⟩
      · exact ⟨p, argv1, hcmd, hreal, hid, .inl hexit⟩
    · rcases hmem hst with hst | ⟨rfl, rfl⟩ <;> rcases hmem hst' with hst' | ⟨rfl, rfl⟩
      · exact h.once n₁ n₂ st hst st' hst' heq
      · exact absurd heq (hfirst _ _ hst)
      · exact absurd heq.symm (hfirst _ _ hst')
      · rfl

theorem handedOver_of_reachable {S : Setup} {s : State} (h : (network S).system.Reachable s) :
    HandedOver s := by
  refine h.invariant (I := HandedOver) (fun s hs => ?_) fun p s t hs hstep => hs.step hstep
  have hnamed := named_of_reachable (.of_init hs)
  obtain rfl : s = start S := hs
  exact ⟨hnamed, nofun, nofun⟩

end SP2022.Championship
