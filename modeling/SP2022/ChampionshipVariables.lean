import SP2022.ChampionshipNames

/-!
# Battles that start as if they were over

The variables of a battle have no value before its first round, so it may find its flag set
and skip the rounds. Then it waits for a child to exit, and its children for an answer. Such a
championship takes the steps of one whose battles all start in their loops, as long as these
battles are left out (`Lags`), and there a player or a battle does not exit before it had an
answer (`not_exited`). So the battle stays where it is for ever (`skipped`), and a championship that
finishes has the pipes of one with good variables (`exists_cleared_run`). The variables of
processes that are no battles do not matter (`run_cleared`).
-/

namespace SP2022.Championship

open Network

/-- The same championship, with the flags of the battles cleared. -/
def Setup.cleared (S : Setup) : Setup :=
  { S with stat1 := fun p =>
      if (S.stat1 p).battle_ended_flag = 1 then { S.stat1 p with battle_ended_flag := 0 }
      else S.stat1 p }

theorem Setup.Able.cleared {S : Setup} (hS : S.Able) : S.cleared.Valid := by
  refine ⟨⟨hS.HP, hS.ATK, hS.battle_ended_flag⟩, fun p => ?_⟩
  by_cases hp : (S.stat1 p).battle_ended_flag = 1
  · simp [Setup.cleared, hp]
  · simp [Setup.cleared, hp]

section Answers

variable {S : Setup} {s t : State} {entry : ℤ → Status}

/-! ## A child does not exit before it had an answer -/

/-- A process that has started no program, or a battle that has not started its children. -/
def Local.Starts : Local → Prop
  | .unforked => True
  | .forking _ _ => True
  | _ => False

theorem not_starts_playLoop (battle_ID : Char) (stat1 stat2 : Status) :
    ¬(playLoop battle_ID stat1 stat2).Starts := by
  unfold playLoop
  split_ifs <;> exact id

theorem not_starts_passLoop (battle_ID : Char) (won : Side) (stat : Status) :
    ¬(passLoop battle_ID won stat).Starts := by
  unfold passLoop
  split_ifs <;> exact id

theorem not_starts_afterBattle (p : Pid) (battle_ID : Char) (stat1 stat2 : Status) :
    ¬(afterBattle p battle_ID stat1 stat2).Starts := by
  unfold afterBattle
  by_cases hp : p ≠ []
  · simp only [if_pos hp]
    exact not_starts_passLoop _ _ _
  · simp only [if_neg hp]
    exact id

theorem not_starts_playing (player_ID originHP : ℤ) (status : Status) :
    ¬(playing player_ID originHP status).Starts := by
  unfold playing
  split_ifs <;> exact id

/-- A process comes to the start of its children from nowhere else. -/
theorem Local.Starts.of_leads {p : Pid} {l l' : Local} (h : (op S p l).Leads l')
    (hl' : l'.Starts) : l.Starts := by
  cases l
  case unforked => trivial
  case forking battle_ID x => trivial
  case playRead battle_ID x stat1 stat2 =>
    cases x <;> obtain ⟨v, rfl⟩ := h <;> exact hl'.elim
  case playWrite battle_ID x stat1 stat2 =>
    cases x <;> obtain rfl := h
    · exact hl'.elim
    · exact absurd hl' (not_starts_playLoop _ _ _)
  case waitLoser battle_ID stat1 stat2 =>
    obtain rfl := h
    exact absurd hl' (not_starts_afterBattle _ _ _ _)
  case passDown battle_ID won stat =>
    obtain rfl := h
    split_ifs at hl'
    · exact hl'.elim
    · exact absurd hl' (not_starts_passLoop _ _ _)
  case playerRead player_ID originHP status =>
    obtain ⟨v, rfl⟩ := h
    exact absurd hl' (not_starts_playing _ _ _)
  case readFIFO player_ID =>
    obtain ⟨v, rfl⟩ := h
    exact absurd hl' (not_starts_playing _ _ _)
  case passRead battle_ID won stat =>
    obtain ⟨v, rfl⟩ := h
    exact hl'.elim
  case passBack battle_ID won stat =>
    obtain ⟨v, rfl⟩ := h
    exact hl'.elim
  case exited => exact h.elim
  all_goals
    obtain rfl := h
    exact hl'.elim

/-- A battle that has not started its children has told them nothing. -/
theorem told_nothing {w : List Pid} (hrun : (network S).system.run w (start S) = some s) {p : Pid}
    (hp : (s.proc p).Starts) (x : Side) : s.sent (.stdin (x :: p)) = [] := by
  refine System.run_invariant (I := fun s => (s.proc p).Starts → s.sent (.stdin (x :: p)) = [])
    (fun q s t ih hstep ht => ?_) w (fun _ => rfl) hrun hp
  by_cases hq : p = q
  · subst hq
    have hs := Local.Starts.of_leads (exec_leads hstep) ht
    refine (exec_sent hstep fun v l hop => ?_).trans (ih hs)
    generalize s.proc p = l at hs hop
    cases l
    case unforked => cases hop
    case forking battle_ID y => cases y <;> cases hop
    all_goals exact hs.elim
  · rw [exec_proc hstep hq] at ht
    exact (exec_sent hstep fun v l hop => hq ((network S).writes hop rfl)).trans (ih ht)

theorem raise_exited {p q : Pid} {l l' : Local} (hop : op S p l = .raise (.exited q) l') :
    q = p ∧ l' = .exited := by
  cases l
  case exiting =>
    cases hop
    exact ⟨rfl, rfl⟩
  case forking battle_ID x => cases x <;> cases hop
  case playRead battle_ID x stat1 stat2 => cases x <;> cases hop
  case playWrite battle_ID x stat1 stat2 => cases x <;> cases hop
  all_goals cases hop

theorem exited_of_flag {w : List Pid} (hrun : (network S).system.run w (start S) = some s)
    {q : Pid} (hq : s.flag (.exited q) = true) : s.proc q = .exited := by
  refine System.run_invariant (I := fun s => s.flag (.exited q) = true → s.proc q = .exited)
    (fun p s t ih hstep ht => ?_) w (fun hc => absurd hc Bool.false_ne_true) hrun hq
  rcases exec_flag hstep ht with hs | ⟨l, hop, hproc⟩
  · have hne : q ≠ p := by
      rintro rfl
      cases (exited_no_step (ih hs)).symm.trans hstep
    exact (exec_proc hstep hne).trans (ih hs)
  · obtain ⟨rfl, rfl⟩ := raise_exited hop
    exact hproc

/-- When a part is done, all its processes but the first have had an answer. -/
theorem Tournament.heard {b : Bracket} {P : Played} {st : Status}
    {losers : List (Char × Status)} (h : Tournament S entry b P st losers) :
    ∀ {p q : Pid} {up down : List Status}, Stands S s P p up down .done → .fork q ∈ b.forks p →
      s.got (.stdin q) ≠ 0 := by
  induction h with
  | player n =>
    intro p q up down _ hq
    exact hq.elim
  | battle hkid hfought hend ih =>
    intro p q up down hdone hq
    obtain ⟨x, hq⟩ := hq
    have hx := (hdone.over x).1
    rcases hq with hq | hq
    · obtain ⟨_, hown⟩ := hx.exists_own
      rw [Chan.fork.inj hq, hown.read]
      simp [downs, hfought.ne_nil]
    · exact ih x hx hq

theorem Outcome.Final.heard {o : Outcome} (hfair : o.Fair S) (hfinal : o.Final S t) {q : Pid}
    (hq : .fork q ∈ championship.forks []) : t.got (.stdin q) ≠ 0 := by
  obtain ⟨x, hq⟩ := hq
  have hx := (hfinal.stands.over x).1
  rcases hq with hq | hq
  · obtain ⟨_, hown⟩ := hx.exists_own
    rw [Chan.fork.inj hq, hown.read]
    simp [downs, hfair.fought.ne_nil]
  · cases x
    · exact hfair.upper.heard hx hq
    · exact hfair.lower.heard hx hq

/-- A process that had no answer has not exited. -/
theorem not_exited (hS : S.Valid) {w : List Pid}
    (hrun : (network S).system.run w (start S) = some s) {q : Pid} (hq : q ≠ [])
    (hsent : s.sent (.stdin q) = []) : s.flag (.exited q) ≠ true := by
  intro hflag
  obtain ⟨w₀, t, o, hrun₀, hfair, hfinal⟩ := exists_outcome hS
  obtain ⟨v, hv, -⟩ := run_completes (hfinal.settled hfair hrun₀) (fun _ => Nat.zero_le _)
    hrun₀ hrun
  have hgot : s.got (.stdin q) = 0 := by
    have hle := Sane.run (fun _ => Nat.zero_le _) hrun (.stdin q)
    rwa [hsent, List.length_nil, Nat.le_zero] at hle
  -- it takes no step on the way to the end
  obtain ⟨hproc, hgot⟩ : t.proc q = .exited ∧ t.got (.stdin q) = 0 := by
    refine System.run_invariant (I := fun s => s.proc q = .exited ∧ s.got (.stdin q) = 0)
      (fun p s t ih hstep => ?_) v ⟨exited_of_flag hrun hflag, hgot⟩ hv
    have hne : q ≠ p := by
      rintro rfl
      cases (exited_no_step ih.1).symm.trans hstep
    refine ⟨(exec_proc hstep hne).trans ih.1, (exec_got hstep fun k hk => ?_).trans ih.2⟩
    exact hne ((network S).reads hk rfl)
  by_cases hfork : .fork q ∈ championship.forks []
  · exact hfinal.heard hfair hfork hgot
  · have hunforked := unforked_of_run hrun₀ hq (hfinal.no_fork q hfork)
    rw [hproc] at hunforked
    cases hunforked

/-! ## The steps of the two championships -/

/-- The battle `p` waits for a child that waits for it. -/
def Held (s : State) (p : Pid) : Prop :=
  (∃ battle_ID stat1 stat2, s.proc p = .waitLoser battle_ID stat1 stat2) ∧
    ∀ x, s.sent (.stdin (x :: p)) = []

/-- Both championships have written, read and raised the same, and their processes are at the
same place, except for battles that are held in the first one. -/
structure Lags (s s' : State) : Prop where
  sent : s'.sent = s.sent
  got : s'.got = s.got
  flag : s'.flag = s.flag
  proc : ∀ p, s'.proc p = s.proc p ∨ Held s p

theorem Held.step {p q : Pid} (h : Held s p) (hne : p ≠ q)
    (hstep : (network S).step q s = some t) : Held t p := by
  obtain ⟨⟨battle_ID, stat1, stat2, hproc⟩, hsent⟩ := h
  refine ⟨⟨battle_ID, stat1, stat2, (exec_proc hstep hne).trans hproc⟩, fun x => ?_⟩
  exact (exec_sent hstep fun v l hop => hne ((network S).writes hop rfl)).trans (hsent x)

/-- Clearing the flags changes only what a battle does after it started its children. -/
theorem op_cleared (S : Setup) (p : Pid) (l : Local)
    (hl : ∀ battle_ID, l = .forking battle_ID .right → (S.stat1 p).battle_ended_flag ≠ 1) :
    op S.cleared p l = op S p l := by
  cases l
  case unforked =>
    have hexecl : execl S.cleared = execl S := by
      funext cmd
      cases cmd <;> rfl
    simp only [op, hexecl]
  case forking battle_ID x =>
    cases x
    · rfl
    · have hstat1 : S.cleared.stat1 p = S.stat1 p := if_neg (hl battle_ID rfl)
      simp only [op, hstat1]
      rfl
  case playRead battle_ID x stat1 stat2 => cases x <;> rfl
  case playWrite battle_ID x stat1 stat2 => cases x <;> rfl
  all_goals rfl

/-- A process that does not step stays as the relation has it. -/
theorem Lags.others {s' : State} {p q : Pid} (h : Lags s s') (hne : p ≠ q)
    (hstep : (network S).step q s = some t) (l : Local) :
    Function.update s'.proc q l p = t.proc p ∨ Held t p := by
  rw [Function.update_of_ne hne, exec_proc hstep hne]
  exact (h.proc p).imp id fun hheld => hheld.step hne hstep

/-- A battle that starts its second child skips its rounds in the first championship only. -/
theorem Lags.skip {s' : State} {q : Pid} {battle_ID : Char} (h : Lags s s')
    (heq : s'.proc q = s.proc q) (hproc : s.proc q = .forking battle_ID .right)
    (hflag : (S.stat1 q).battle_ended_flag = 1) (htold : ∀ x, s.sent (.stdin (x :: q)) = [])
    (hstep : (network S).step q s = some t) :
    ∃ t', (network S.cleared).step q s' = some t' ∧ Lags t t' := by
  have hop : (network S).op q (s.proc q) = .write (.fork (.right :: q))
      ((graph battle_ID).command .right) (.waitLoser battle_ID (S.stat1 q) (S.stat2 q)) := by
    rw [hproc]
    change Op.write _ _ (playLoop _ _ _) = _
    rw [playLoop, if_neg (not_not.2 hflag)]
  have hcleared : (network S.cleared).step q s' = exec q (.write (.fork (.right :: q))
      ((graph battle_ID).command .right)
      (playLoop battle_ID (S.cleared.stat1 q) (S.stat2 q))) s' := by
    rw [Network.step, heq, hproc]
    rfl
  have hothers := fun p hp => h.others (p := p) hp hstep
  rw [Network.step, hop] at hstep
  obtain rfl := Option.some.inj hstep
  refine ⟨_, hcleared.trans rfl, ⟨?_, h.got, h.flag, fun p => ?_⟩⟩
  · simp only [h.sent]
  · by_cases hp : p = q
    · subst hp
      exact Or.inr ⟨⟨_, _, _, Function.update_self _ _ _⟩, fun x => by simp [htold x]⟩
    · exact hothers p hp _

/-- A battle that is held cannot go on, since neither child has exited. -/
theorem Lags.held_no_step (hS : S.Able) {s' : State} {w : List Pid} {q : Pid} (h : Lags s s')
    (hrun : (network S.cleared).system.run w (start S.cleared) = some s') (hq : Held s q) :
    (network S).step q s = none := by
  obtain ⟨⟨battle_ID, stat1, stat2, hproc⟩, hsent⟩ := hq
  have hnot : ∀ x, s.flag (.exited (x :: q)) = false := fun x => by
    rw [← h.flag]
    refine Bool.eq_false_of_not_eq_true (not_exited hS.cleared hrun (List.cons_ne_nil x q) ?_)
    rw [h.sent, hsent x]
  have hop : (network S).op q (s.proc q) =
      .await (waited q 1) (afterBattle q battle_ID stat1 stat2) := by
    rw [hproc]
    rfl
  rw [Network.step, hop]
  refine if_neg ?_
  simp [waited, hnot]

theorem Lags.step (hS : S.Able) {s' : State} {w : List Pid} {q : Pid} (h : Lags s s')
    (hrun : (network S.cleared).system.run w (start S.cleared) = some s')
    (hstep : (network S).step q s = some t) :
    ∃ t', (network S.cleared).step q s' = some t' ∧ Lags t t' := by
  rcases h.proc q with heq | hheld
  · by_cases hskip : ∃ battle_ID, s.proc q = .forking battle_ID .right ∧
        (S.stat1 q).battle_ended_flag = 1
    · obtain ⟨battle_ID, hproc, hflag⟩ := hskip
      have htold := told_nothing hrun (p := q) (by rw [heq, hproc]; trivial)
      rw [h.sent] at htold
      exact h.skip heq hproc hflag htold hstep
    · have hop := op_cleared S q (s.proc q) fun battle_ID hl hflag => hskip ⟨battle_ID, hl, hflag⟩
      refine ⟨{ t with proc := Function.update s'.proc q (t.proc q) }, ?_,
        ⟨rfl, rfl, rfl, fun p => ?_⟩⟩
      · change exec q (op S.cleared q (s'.proc q)) s' = _
        rw [heq, hop]
        exact exec_congr hstep h.sent h.got h.flag
      · by_cases hp : p = q
        · subst hp
          exact Or.inl (Function.update_self _ _ _)
        · exact h.others hp hstep _
  · cases (h.held_no_step hS hrun hheld).symm.trans hstep

theorem Lags.run (hS : S.Able) : ∀ {v w : List Pid} {s s' : State}, Lags s s' →
    (network S.cleared).system.run w (start S.cleared) = some s' →
    (network S).system.run v s = some t →
    ∃ t', (network S.cleared).system.run v s' = some t' ∧ Lags t t'
  | [], w, s, s', h, _, hv => by
    obtain rfl : s = t := by simpa using hv
    exact ⟨s', rfl, h⟩
  | q :: v, w, s, s', h, hrun, hv => by
    obtain ⟨u, hstep, hrest⟩ := (network S).system.run_cons.1 hv
    obtain ⟨u', hstep', hu⟩ := h.step hS hrun hstep
    obtain ⟨t', hv', ht⟩ := hu.run hS
      ((network S.cleared).system.run_snoc.2 ⟨s', hrun, hstep'⟩) hrest
    exact ⟨t', (network S.cleared).system.run_cons.2 ⟨u', hstep', hv'⟩, ht⟩

theorem exists_lags (hS : S.Able) {w : List Pid}
    (hrun : (network S).system.run w (start S) = some s) :
    ∃ s', (network S.cleared).system.run w (start S.cleared) = some s' ∧ Lags s s' := by
  have hstart : Lags (start S) (start S.cleared) := ⟨rfl, rfl, rfl, fun p => Or.inl rfl⟩
  exact hstart.run hS (w := []) rfl hrun

/-- A championship that finishes has the pipes of one with cleared flags. -/
theorem exists_cleared_run (hS : S.Able) {w : List Pid}
    (hrun : (network S).system.run w (start S) = some t) (ht : Finished t) :
    ∃ t', (network S.cleared).system.run w (start S.cleared) = some t' ∧ Finished t' ∧
      t'.sent = t.sent := by
  obtain ⟨t', hrun', hlags⟩ := exists_lags hS hrun
  refine ⟨t', hrun', fun p => ?_, hlags.sent⟩
  have hproc : t'.proc p = t.proc p := by
    refine (hlags.proc p).resolve_right fun hheld => ?_
    obtain ⟨⟨battle_ID, stat1, stat2, hp⟩, -⟩ := hheld
    rcases ht p with h | ⟨h, -⟩ <;> rw [hp] at h <;> cases h
  rw [hproc, hlags.sent]
  exact ht p

/-! ## Battles that are skipped -/

/-- A battle with its flag set never comes past its rounds. -/
theorem skipped (hS : S.Able) {q : Pid} {argv1 : List Char}
    (hq : commandAt q = some (.battle argv1)) (hflag : (S.stat1 q).battle_ended_flag = 1)
    {w : List Pid} (hrun : (network S).system.run w (start S) = some s) :
    (s.proc q).Starts ∨ Held s q := by
  induction w using List.reverseRecOn generalizing s with
  | nil =>
    obtain rfl : start S = s := by simpa using hrun
    left
    by_cases hroot : q = []
    · subst hroot
      trivial
    · rw [show (start S).proc q = .unforked from if_neg hroot]
      trivial
  | append_singleton w p ih =>
    obtain ⟨u, hu, hstep⟩ := (network S).system.run_snoc.1 hrun
    by_cases hp : q = p
    swap
    · rcases ih hu with hstarts | hheld
      · exact Or.inl ((exec_proc hstep hp).symm ▸ hstarts)
      · exact Or.inr (hheld.step hp hstep)
    subst hp
    rcases ih hu with hstarts | hheld
    swap
    · obtain ⟨u', hu', hlags⟩ := exists_lags hS hu
      cases (hlags.held_no_step hS hu' hheld).symm.trans hstep
    have htold := fun x => told_nothing hu hstarts x
    have hexec : exec q (op S q (u.proc q)) u = some s := hstep
    cases hl : u.proc q with
    | unforked =>
      rw [hl] at hexec
      obtain ⟨cmd, hcmd, rfl⟩ := Option.map_eq_some_iff.1 hexec
      have hat := (named_of_reachable ⟨_, _, rfl, hu⟩).fork q cmd (List.mem_of_getElem? hcmd)
      obtain rfl := Option.some.inj (hat.symm.trans hq)
      exact Or.inl (by simp [execl, Local.Starts])
    | forking battle_ID x =>
      rw [hl] at hexec
      cases x with
      | left =>
        obtain rfl := Option.some.inj hexec
        exact Or.inl (by simp [Local.Starts])
      | right =>
        obtain rfl := Option.some.inj hexec
        refine Or.inr ⟨⟨battle_ID, S.stat1 q, S.stat2 q, ?_⟩, fun x => ?_⟩
        · simp [playLoop, hflag]
        · simpa using htold x
    | _ => exact absurd hstarts (by simp [hl, Local.Starts])

/-- The flags of processes that are no battles can be cleared. -/
theorem run_cleared
    (hflag : ∀ p argv1, commandAt p = some (.battle argv1) → (S.stat1 p).battle_ended_flag ≠ 1)
    (w : List Pid) :
    (network S).system.run w (start S) = (network S.cleared).system.run w (start S.cleared) := by
  induction w using List.reverseRecOn with
  | nil => rfl
  | append_singleton w p ih =>
    rw [System.run_append, System.run_append, ← ih]
    cases hrun : (network S).system.run w (start S) with
    | none => rfl
    | some s =>
      have hop : op S.cleared p (s.proc p) = op S p (s.proc p) := by
        refine op_cleared S p _ fun battle_ID hl => ?_
        rcases (named_of_reachable ⟨_, _, rfl, hrun⟩).proc p with hun | ⟨cmd, hcmd, hruns⟩
        · rw [hl] at hun
          cases hun
        · rw [hl] at hruns
          cases cmd with
          | battle argv1 => exact hflag p argv1 hcmd
          | player argv1 => exact hruns.elim
      have hstep : (network S.cleared).step p s = (network S).step p s :=
        congrArg (fun o => exec p o s) hop
      change ((network S).step p s).bind _ = ((network S.cleared).step p s).bind _
      rw [hstep]
      rfl

end Answers

end SP2022.Championship
