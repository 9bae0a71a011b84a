import SP2022.ChampionshipNames

/-!
# Whose log is in which file

A battle and a real player open a log file of their own, and an agent the one of the player that
it takes over (`Filing`), without changing it later. Each line is some text (`Kept.printed`),
and a process that is about to exit has one line left to write at most (`Kept.last`).
-/

namespace SP2022.Championship

open Network

/-! ## Which file a process has open -/

/-- The first argument. -/
def Command.argv1 : Command → List Char
  | .battle argv1 => argv1
  | .player argv1 => argv1

/-- An agent. -/
def Command.Agent (cmd : Command) : Prop :=
  ∃ argv1, cmd = .player argv1 ∧ ¬Real (atoi argv1)

/-- An agent that waits for a player. -/
def Local.Waits : Local → Prop
  | .createFIFO _ | .blockedAgent _ | .readFIFO _ => True
  | _ => False

/-- The file of a process is the one of its program, or it is an agent and the file is the one
of a player that was handed over to it. -/
inductive Filing (s : LogState) (p : Pid) : Prop
  | unforked (hstate : (s.proc p).state = .unforked) (htodo : (s.proc p).todo = [])
      (hlog : s.sent (.log p) = []) (hown : (s.proc p).vars.O_APPEND = false)
  | own (cmd : Command) (hcmd : commandAt p = some cmd)
      (hargv1 : (s.proc p).vars.argv1 = cmd.argv1) (hfile : (s.proc p).vars.file = cmd.file)
      (hown : (s.proc p).vars.O_APPEND = false) (hruns : (s.proc p).state.Runs cmd)
      (hagent : cmd.Agent →
        (s.proc p).state.Waits ∧ (s.proc p).todo = [] ∧ s.sent (.log p) = [])
  | agent (argv1 : List Char) (st : Status) (hcmd : commandAt p = some (.player argv1))
      (hreal : ¬Real (atoi argv1)) (hargv1 : (s.proc p).vars.argv1 = argv1)
      (hfile : (s.proc p).vars.file = .player st.real_player_id)
      (happend : (s.proc p).vars.O_APPEND = true)
      (hst : st ∈ s.sent (.chan (.fifo (atoi argv1))))
      (hruns : (s.proc p).state.Runs (.player argv1)) (hstate : ¬(s.proc p).state.Waits)

theorem not_waits_playing (n originHP : ℤ) (status : Status) :
    ¬(playing n originHP status).Waits := by
  unfold playing
  split_ifs <;> exact id

theorem not_waits_battle {l : Local} {argv1 : List Char} (h : l.Runs (.battle argv1)) :
    ¬l.Waits := by
  cases l with
  | createFIFO n | blockedAgent n | readFIFO n => exact h.elim
  | _ => exact id

/-- An agent waits once. -/
theorem not_waits_leads {S : Setup} {p : Pid} {l l' : Local} {cmd : Command} (hl : ¬l.Waits)
    (hruns : l.Runs cmd) (hleads : (op S p l).Leads l') : ¬l'.Waits := by
  cases cmd with
  | battle argv1 => exact not_waits_battle (battle_leads hruns hleads)
  | player argv1 =>
    cases l with
    | playerRead n originHP status =>
      obtain ⟨v, rfl⟩ := hleads
      exact not_waits_playing _ _ _
    | createFIFO n | blockedAgent n | readFIFO n => exact absurd trivial hl
    | playerWrite n originHP status | openFIFO n status | blockedFIFO n status
    | writeFIFO n status | exiting => exact hleads ▸ id
    | exited => exact hleads.elim
    | _ => exact hruns.elim

section Filing

variable {S : Setup} {pid : Pid → ℕ} {s t : LogState} {p q : Pid}

/-- Another process does not change the file. -/
theorem Filing.frame (h : Filing s p) (hq : q ≠ p)
    (hstep : (logNetwork S pid).step q s = some t) : Filing t p := by
  have hexec : exec q ((logNetwork S pid).op q (s.proc q)) s = some t := hstep
  have hproc : t.proc p = s.proc p := exec_proc hexec (Ne.symm hq)
  have hlog : t.sent (.log p) = s.sent (.log p) :=
    exec_sent hexec fun v l hop => hq ((logNetwork S pid).writes hop rfl).symm
  cases h with
  | unforked hstate htodo hempty hown =>
    exact .unforked (hproc ▸ hstate) (hproc ▸ htodo) (hlog ▸ hempty) (hproc ▸ hown)
  | own cmd hcmd hargv1 hfile hown hruns hagent =>
    exact .own cmd hcmd (hproc ▸ hargv1) (hproc ▸ hfile) (hproc ▸ hown) (hproc ▸ hruns)
      (by rwa [hproc, hlog])
  | agent argv1 st hcmd hreal hargv1 hfile happend hst hruns hstate =>
    exact .agent argv1 st hcmd hreal (hproc ▸ hargv1) (hproc ▸ hfile) (hproc ▸ happend)
      (((exec_grows hexec).sent _).subset hst) (hproc ▸ hruns) (hproc ▸ hstate)

/-- Where a program is after a step. -/
theorem runs_logging {cmd : Command} (hn : Named (erase s)) (hruns : (s.proc p).state.Runs cmd)
    (hstep : (logNetwork S pid).step p s = some t) : (t.proc p).state.Runs cmd := by
  rcases erase_step hstep with ⟨-, heq⟩ | ⟨-, hstep⟩
  · rw [show (t.proc p).state = (s.proc p).state from congrArg (fun u => u.proc p) heq]
    exact hruns
  · exact runs_step (show ((erase s).proc p).Runs cmd from hruns) hn.piped hstep

theorem read_fork {c : Chan} {k : c.Value → Local} {l : Local} (hop : op S p l = .read c k)
    (hc : c = .fork q) : l = .unforked := by
  subst hc
  cases l with
  | forking b x => cases x <;> cases hop
  | playRead b x stat1 stat2 => cases x <;> cases hop
  | playWrite b x stat1 stat2 => cases x <;> cases hop
  | unforked => rfl
  | _ => cases hop

theorem read_fifo {c : Chan} {k : c.Value → Local} {l : Local} {n : ℤ}
    (hop : op S p l = .read c k) (hc : c = .fifo n) : l = .readFIFO n := by
  subst hc
  cases l with
  | forking b x => cases x <;> cases hop
  | playRead b x stat1 stat2 => cases x <;> cases hop
  | playWrite b x stat1 stat2 => cases x <;> cases hop
  | readFIFO m => cases hop; rfl
  | _ => cases hop

/-- An operation that reads nothing. -/
theorem Filing.next {l : Local} (h : Filing s p) (hn : Named (erase s))
    (hstep : (logNetwork S pid).step p s = some t)
    (hop : ∀ c k, op S p (s.proc p).state ≠ .read c k)
    (hleads : (op S p (s.proc p).state).Leads l)
    (hproc : t.proc p = (notes S pid).next p (s.proc p) l)
    (hlog : t.sent (.log p) = s.sent (.log p))
    (hgrow : ∀ n, s.sent (.chan (.fifo n)) <+: t.sent (.chan (.fifo n))) : Filing t p := by
  have hvars : (t.proc p).vars = (s.proc p).vars := by rw [hproc]; rfl
  have hstate : (t.proc p).state = l := by rw [hproc]; rfl
  cases h with
  | unforked hunforked => exact absurd (by rw [hunforked]; rfl) (hop (.fork p) (execl S))
  | own cmd hcmd hargv1 hfile hown hruns hagent =>
    refine .own cmd hcmd (hvars ▸ hargv1) (hvars ▸ hfile) (hvars ▸ hown)
      (runs_logging hn hruns hstep) fun hagent' => ?_
    obtain ⟨hwaits, -, hempty⟩ := hagent hagent'
    rw [hstate, hlog, hproc]
    unfold Notes.next
    cases hl : (s.proc p).state with
    | createFIFO n =>
      rw [hl] at hleads
      obtain rfl : l = .blockedAgent n := hleads
      exact ⟨trivial, rfl, hempty⟩
    | blockedAgent n =>
      rw [hl] at hleads
      obtain rfl : l = .readFIFO n := hleads
      exact ⟨trivial, rfl, hempty⟩
    | readFIFO n => exact absurd (by rw [hl]; rfl) (hop (.fifo n) _)
    | _ =>
      rw [hl] at hwaits
      exact hwaits.elim
  | agent argv1 st hcmd hreal hargv1 hfile happend hst hruns hwaits =>
    refine .agent argv1 st hcmd hreal (hvars ▸ hargv1) (hvars ▸ hfile) (hvars ▸ happend)
      ((hgrow _).subset hst) (runs_logging hn hruns hstep) ?_
    rw [hstate]
    exact not_waits_leads hwaits hruns hleads

/-- Only `execl` and a FIFO change the variables. -/
theorem hear_vars {c : Chan} {v : c.Value} {l : Local}
    (hproc : t.proc p = (notes S pid).hear p (s.proc p) c v l) (hfork : ∀ q, c ≠ .fork q)
    (hfifo : ∀ n, c ≠ .fifo n) : (t.proc p).vars = (s.proc p).vars := by
  rw [hproc]
  cases c with
  | fork q => exact absurd rfl (hfork q)
  | fifo n => exact absurd rfl (hfifo n)
  | stdin q => rfl
  | stdout q => rfl
  | terminal => rfl

theorem Filing.own_step (h : Filing s p) (hn : Named (erase s))
    (hstep : (logNetwork S pid).step p s = some t) : Filing t p := by
  cases logging_cases hstep with
  | line a todo htodo ht =>
    subst ht
    cases h with
    | unforked hstate hnil => simp [hnil] at htodo
    | own cmd hcmd hargv1 hfile hown hruns hagent =>
      have hnot : ¬cmd.Agent := fun h => by simp [(hagent h).2.1] at htodo
      exact .own cmd hcmd (by simpa using hargv1) (by simpa using hfile) (by simpa using hown)
        (by simpa using hruns) fun h => absurd h hnot
    | agent argv1 st hcmd hreal hargv1 hfile happend hst hruns hwaits =>
      exact .agent argv1 st hcmd hreal (by simpa using hargv1) (by simpa using hfile)
        (by simpa using happend) (by simpa using hst) (by simpa using hruns)
        (by simpa using hwaits)
  | read c k v htodo hop hv ht =>
    have hgrow : ∀ n, s.sent (.chan (.fifo n)) <+: t.sent (.chan (.fifo n)) := fun n =>
      (exec_grows hstep).sent _
    have hlog : t.sent (.log p) = s.sent (.log p) := by rw [ht]
    have hproc : t.proc p = (notes S pid).hear p (s.proc p) c v (k v) := by simp [ht]
    cases h with
    | unforked hstate hnil hempty =>
      have hop' : op S p (s.proc p).state = .read (.fork p) (execl S) := by rw [hstate]; rfl
      obtain ⟨rfl, hk⟩ := Op.read.inj (hop'.symm.trans hop)
      obtain rfl := eq_of_heq hk
      have hcmd := hn.fork p v (List.mem_of_getElem? hv)
      refine .own v hcmd ?_ ?_ ?_ ?_ ?_
      · rw [hproc]; cases v <;> rfl
      · rw [hproc]; cases v <;> rfl
      · rw [hproc]; cases v <;> rfl
      · rw [hproc]; exact runs_execl S v
      · rintro ⟨argv1, rfl, hreal⟩
        rw [hproc, hlog, hempty]
        have hexecl : execl S (.player argv1) = .createFIFO (atoi argv1) := if_neg hreal
        refine ⟨?_, ?_, rfl⟩
        · show (execl S (.player argv1)).Waits
          rw [hexecl]
          trivial
        · show [] ++ (notes S pid).before p _ (execl S (.player argv1)) = []
          rw [hexecl]
          rfl
    | own cmd hcmd hargv1 hfile hown hruns hagent =>
      by_cases hfifo : ∃ n, c = .fifo n
      · -- an agent gets its player
        obtain ⟨n, rfl⟩ := hfifo
        have hstate := read_fifo hop rfl
        have hruns' := hruns
        rw [hstate] at hruns'
        cases cmd with
        | battle argv1 => exact hruns'.elim
        | player argv1 =>
          obtain ⟨rfl, hreal⟩ := hruns'
          have hop' : op S p (s.proc p).state = .read (.fifo (atoi argv1)) fun status : Status =>
              playing (atoi argv1) status.HP status := by
            rw [hstate]
            rfl
          refine .agent argv1 v hcmd hreal ?_ ?_ ?_ ((hgrow _).subset (List.mem_of_getElem? hv))
            (runs_logging hn hruns hstep) ?_
          · rw [hproc]; exact hargv1
          · rw [hproc]; rfl
          · rw [hproc]; rfl
          · obtain ⟨-, hk⟩ := Op.read.inj (hop'.symm.trans hop)
            obtain rfl := eq_of_heq hk
            rw [hproc]
            exact not_waits_playing _ _ _
      · have hfork : ∀ q, c ≠ .fork q := fun q hc => hruns.ne_unforked (read_fork hop hc)
        have hvars := hear_vars hproc hfork fun n hn => hfifo ⟨n, hn⟩
        refine .own cmd hcmd (hvars ▸ hargv1) (hvars ▸ hfile) (hvars ▸ hown)
          (runs_logging hn hruns hstep) fun hagent' => ?_
        have hwaits := (hagent hagent').1
        have hreads : ∀ {l : Local}, l.Waits → op S p l = .read c k → ∃ n, c = .fifo n := by
          intro l hl hop
          cases l with
          | createFIFO n => cases hop
          | blockedAgent n => cases hop
          | readFIFO n => cases hop; exact ⟨n, rfl⟩
          | _ => exact hl.elim
        exact absurd (hreads hwaits hop) hfifo
    | agent argv1 st hcmd hreal hargv1 hfile happend hst hruns hwaits =>
      have hfork : ∀ q, c ≠ .fork q := fun q hc => hruns.ne_unforked (read_fork hop hc)
      have hfifo : ∀ n, c ≠ .fifo n := fun n hc => by
        rw [read_fifo hop hc] at hwaits
        exact hwaits trivial
      have hvars := hear_vars hproc hfork hfifo
      refine .agent argv1 st hcmd hreal (hvars ▸ hargv1) (hvars ▸ hfile) (hvars ▸ happend)
        ((hgrow _).subset hst) (runs_logging hn hruns hstep) ?_
      rw [hproc]
      refine not_waits_leads hwaits hruns
        (show (op S p (s.proc p).state).Leads (k v) from ?_)
      rw [show op S p (s.proc p).state = .read c k from hop]
      exact ⟨v, rfl⟩
  | write c v l htodo hop ht =>
    refine h.next hn hstep (fun d k hk => ?_) ?_ (l := l) ?_ (by simp [ht]) fun n =>
      (exec_grows hstep).sent _
    · rw [show op S p (s.proc p).state = .write c v l from hop] at hk
      cases hk
    · rw [show op S p (s.proc p).state = .write c v l from hop]
      rfl
    · simp [ht]
  | raise f l htodo hop ht =>
    refine h.next hn hstep (fun d k hk => ?_) ?_ (l := l) ?_ (by simp [ht]) fun n =>
      (exec_grows hstep).sent _
    · rw [show op S p (s.proc p).state = .raise f l from hop] at hk
      cases hk
    · rw [show op S p (s.proc p).state = .raise f l from hop]
      rfl
    · simp [ht]
  | await ready l htodo hop hready ht =>
    refine h.next hn hstep (fun d k hk => ?_) ?_ (l := l) ?_ (by simp [ht]) fun n =>
      (exec_grows hstep).sent _
    · rw [show op S p (s.proc p).state = .await ready l from hop] at hk
      cases hk
    · rw [show op S p (s.proc p).state = .await ready l from hop]
      rfl
    · simp [ht]

end Filing

/-! ## The lines are not empty -/

/-- What a line starts with. -/
def Line.ID : Line → List Char
  | .writeLog _ ID _ _ _ _ => ID
  | .readLog _ ID _ _ _ _ => ID
  | .fifoTo player_ID _ _ _ => percentD player_ID
  | .fifoFrom player_ID _ _ => percentD player_ID

/-- The line starts with the first argument or with a number. -/
def Line.By (m : Vars) (a : Line) : Prop :=
  a.ID = m.argv1 ∨ ∃ n, a.ID = percentD n

theorem percentD_head (n : ℤ) : ∃ c l, percentD n = c :: l ∧ c ≠ '\x00' := by
  unfold percentD
  split_ifs
  · exact ⟨'-', _, rfl, by decide⟩
  · cases hl : Nat.toDigits 10 n.natAbs with
    | nil => exact absurd hl Nat.toDigits_ne_nil
    | cons c l =>
      refine ⟨c, l, rfl, ?_⟩
      rintro rfl
      have hdigit := Nat.isDigit_of_mem_toDigits (b := 10) (n := n.natAbs) (c := '\x00')
        (by decide) (by decide) (hl ▸ List.mem_cons_self)
      exact absurd hdigit (by decide)

theorem written_ne_nil {a : Line} {c : Char} {l : List Char} (h : a.ID = c :: l)
    (hc : c ≠ '\x00') : a.written ≠ [] := by
  have htext : ∃ rest, a.text = c :: rest := by
    cases a <;> simp only [Line.ID] at h <;> simp [Line.text, pipeText, fifoText, h]
  obtain ⟨rest, htext⟩ := htext
  rw [Line.written, htext, List.takeWhile_cons_of_pos (by simpa using hc)]
  exact List.cons_ne_nil _ _

/-- The first arguments are names. -/
theorem commandAt_argv1 {p : Pid} {cmd : Command} (h : commandAt p = some cmd) :
    ∃ c l, cmd.argv1 = c :: l ∧ c ≠ '\x00' := by
  have hnames : ∀ c ∈ children, ((graph c.1).command c.2).argv1.headD '\x00' ≠ '\x00' := by
    decide
  have hhead : cmd.argv1.headD '\x00' ≠ '\x00' := by
    cases p with
    | nil =>
      obtain rfl := Option.some.inj h
      decide
    | cons x p =>
      obtain ⟨argv1, -, hmem, rfl⟩ := commandAt_cons h
      exact hnames _ (mem_children hmem x)
  cases hargv1 : cmd.argv1 with
  | nil => simp [hargv1] at hhead
  | cons c l => exact ⟨c, l, rfl, by simpa [hargv1] using hhead⟩

section Kept

variable {S : Setup} {pid : Pid → ℕ} {s t : LogState} {p q : Pid}

theorem before_by (S : Setup) (pid : Pid → ℕ) (p : Pid) (m : Vars) (l : Local) :
    ∀ a ∈ (notes S pid).before p m l, a.By m := by
  intro a ha
  cases l <;> simp only [notes, List.mem_singleton, List.not_mem_nil] at ha <;> subst ha <;>
    exact .inl rfl

theorem heard_by (S : Setup) (pid : Pid → ℕ) (p : Pid) (m : Vars) (l : Local) (c : Chan)
    (v : c.Value) : ((notes S pid).heard p m l c v).2.length ≤ 1 ∧
      ∀ a ∈ ((notes S pid).heard p m l c v).2, a.By ((notes S pid).heard p m l c v).1 := by
  cases c <;> simp [notes, Line.By, Line.ID]

theorem after_by (S : Setup) (pid : Pid → ℕ) (p : Pid) (m : Vars) (l : Local) :
    ((notes S pid).after p m l).length ≤ 1 ∧ ∀ a ∈ (notes S pid).after p m l, a.By m := by
  cases l <;> simp [notes, Line.By, Line.ID]

/-- The lines of a process are those before its next operation, after one line at most about
the last one. -/
def Prepared (S : Setup) (pid : Pid → ℕ) (p : Pid) (w : Writing Local Vars Line) : Prop :=
  ∃ lines, w.todo = lines ++ (notes S pid).before p w.vars w.state ∧ lines.length ≤ 1 ∧
    ∀ a ∈ lines, a.By w.vars

theorem prepared_next (p : Pid) (w : Writing Local Vars Line) (l : Local) :
    Prepared S pid p ((notes S pid).next p w l) :=
  ⟨_, rfl, after_by S pid p w.vars w.state⟩

theorem prepared_hear (p : Pid) (w : Writing Local Vars Line) (c : Chan) (v : c.Value)
    (l : Local) : Prepared S pid p ((notes S pid).hear p w c v l) :=
  ⟨_, rfl, heard_by S pid p w.vars w.state c v⟩

/-- A step writes a line, or the process gets new ones. -/
theorem todo_step (hstep : (logNetwork S pid).step p s = some t) :
    (∃ a, (s.proc p).todo = a :: (t.proc p).todo ∧ (t.proc p).state = (s.proc p).state ∧
        (t.proc p).vars = (s.proc p).vars ∧ t.sent (.log p) = s.sent (.log p) ++ [a]) ∨
      (s.proc p).todo = [] ∧ t.sent (.log p) = s.sent (.log p) ∧
        Prepared S pid p (t.proc p) := by
  cases logging_cases hstep with
  | line a todo htodo ht =>
    subst ht
    exact .inl ⟨a, by simpa using htodo, by simp, by simp, by simp⟩
  | read c k v htodo hop hv ht =>
    have hproc : t.proc p = (notes S pid).hear p (s.proc p) c v (k v) := by simp [ht]
    exact .inr ⟨htodo, by simp [ht], hproc ▸ prepared_hear p _ c v _⟩
  | write c v l htodo hop ht =>
    have hproc : t.proc p = (notes S pid).next p (s.proc p) l := by simp [ht]
    exact .inr ⟨htodo, by simp [ht], hproc ▸ prepared_next p _ l⟩
  | raise f l htodo hop ht =>
    have hproc : t.proc p = (notes S pid).next p (s.proc p) l := by simp [ht]
    exact .inr ⟨htodo, by simp [ht], hproc ▸ prepared_next p _ l⟩
  | await ready l htodo hop hready ht =>
    have hproc : t.proc p = (notes S pid).next p (s.proc p) l := by simp [ht]
    exact .inr ⟨htodo, by simp [ht], hproc ▸ prepared_next p _ l⟩

/-- What holds of the processes and their lines in every state. -/
structure Kept (s : LogState) : Prop where
  handed : HandedOver (erase s)
  filing : ∀ p, Filing s p
  printed : ∀ p, ∀ a ∈ s.sent (.log p) ++ (s.proc p).todo, a.written ≠ []
  last : ∀ p, (s.proc p).state = .exiting ∨ (s.proc p).state = .exited →
    (s.proc p).todo.length ≤ 1

/-- A process writes lines with its name on them. -/
theorem Filing.written_ne_nil (h : Filing s p) {a : Line} (ha : a.By (s.proc p).vars)
    (htodo : (s.proc p).todo ≠ []) : a.written ≠ [] := by
  have hhead : ∃ c l, (s.proc p).vars.argv1 = c :: l ∧ c ≠ '\x00' := by
    cases h with
    | unforked hstate hnil => exact absurd hnil htodo
    | own cmd hcmd hargv1 => exact hargv1 ▸ commandAt_argv1 hcmd
    | agent argv1 st hcmd hreal hargv1 => exact hargv1 ▸ commandAt_argv1 hcmd
  rcases ha with ha | ⟨n, ha⟩
  · obtain ⟨c, l, hl, hc⟩ := hhead
    exact Championship.written_ne_nil (ha.trans hl) hc
  · obtain ⟨c, l, hl, hc⟩ := percentD_head n
    exact Championship.written_ne_nil (ha.trans hl) hc

theorem Kept.step (h : Kept s) (hstep : (logNetwork S pid).step p s = some t) : Kept t := by
  have hexec : exec p ((logNetwork S pid).op p (s.proc p)) s = some t := hstep
  have hfiling : ∀ q, Filing t q := fun q => by
    by_cases hq : p = q
    · subst hq
      exact (h.filing p).own_step h.handed.named hstep
    · exact (h.filing q).frame hq hstep
  have hother : ∀ q, q ≠ p → t.proc q = s.proc q ∧ t.sent (.log q) = s.sent (.log q) := fun q hq =>
    ⟨exec_proc hexec hq,
      exec_sent hexec fun v l hop => hq ((logNetwork S pid).writes hop rfl)⟩
  refine ⟨?_, hfiling, fun q => ?_, fun q => ?_⟩
  · rcases erase_step hstep with ⟨-, heq⟩ | ⟨-, hstep'⟩
    · exact heq ▸ h.handed
    · exact h.handed.step hstep'
  · by_cases hq : q = p
    · subst hq
      rcases todo_step hstep with ⟨a, htodo, -, -, hlog⟩ | ⟨htodo, hlog, lines, htodo', -, hby⟩
      · have hprinted := h.printed q
        rw [htodo] at hprinted
        rw [hlog, List.append_assoc]
        exact hprinted
      · intro a ha
        rw [hlog, List.mem_append] at ha
        rcases ha with ha | ha
        · exact h.printed q a (List.mem_append_left _ ha)
        · have hne : (t.proc q).todo ≠ [] := List.ne_nil_of_mem ha
          rw [htodo', List.mem_append] at ha
          rcases ha with ha | ha
          · exact (hfiling q).written_ne_nil (hby a ha) hne
          · exact (hfiling q).written_ne_nil (before_by S pid q _ _ a ha) hne
    · obtain ⟨hproc, hlog⟩ := hother q hq
      rw [hproc, hlog]
      exact h.printed q
  · by_cases hq : q = p
    · subst hq
      rcases todo_step hstep with ⟨a, htodo, hstate, -, -⟩ | ⟨htodo, -, lines, htodo', hle, -⟩
      · intro hover
        have hlast := h.last q (hstate ▸ hover)
        rw [htodo, List.length_cons] at hlast
        omega
      · rintro (hover | hover) <;> rw [htodo', hover] <;> simpa [notes] using hle
    · rw [(hother q hq).1]
      exact h.last q

theorem kept_of_reachable (h : (logNetwork S pid).system.Reachable s) : Kept s := by
  refine h.invariant (I := Kept) (fun s hs => ?_) fun p s t hs hstep => hs.step hstep
  obtain rfl : s = (logNetwork S pid).start := hs
  have hquiet := quiet_start S pid
  refine ⟨handedOver_of_reachable (.of_init rfl), fun p => ?_, fun p a ha => ?_, fun p _ => ?_⟩
  · by_cases hp : p = []
    · subst hp
      exact .own (.battle ['A']) rfl rfl rfl rfl (runs_execl S _) nofun
    · exact .unforked (if_neg hp) (hquiet p) rfl rfl
  · rw [hquiet p] at ha
    cases ha
  · rw [hquiet p]
    exact Nat.zero_le _

end Kept

end SP2022.Championship
