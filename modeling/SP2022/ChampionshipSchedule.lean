import Mathlib.Tactic.IntervalCases
import SP2022.ChampionshipTournament

/-!
# Every schedule crowns the same champion

One order of steps takes the championship to its end : all processes start, the winners'
bracket is fought, the agents take over its losers, the losers' bracket is fought, and then
the battle of the root (`exists_outcome`). In the state it ends in, every process that was
forked has exited, and each FIFO carried at most one status, so by the general result on
networks every other order of steps can be completed to the same state
(`schedule_independent`).
-/

namespace SP2022.Championship

open Network

/-- The part of battle `B`. -/
def winnersBracket : Bracket :=
  .node 'B'
    (.node 'D' (.node 'G' (.player 0) (.player 1)) (.node 'H' (.player 2) (.player 3)))
    (.node 'E' (.node 'I' (.player 4) (.player 5)) (.node 'J' (.player 6) (.player 7)))

/-- The part of battle `C`. -/
def losersBracket : Bracket :=
  .node 'C'
    (.node 'F' (.node 'K' (.node 'M' (.player 8) (.player 9)) (.player 10))
      (.node 'L' (.node 'N' (.player 11) (.player 12)) (.player 13)))
    (.player 14)

/-- All battles and players. -/
def championship : Bracket :=
  .node 'A' winnersBracket losersBracket

theorem championship_wired : championship.Wired (.battle ['A']) := by
  simp +decide [championship, winnersBracket, losersBracket, Bracket.node, Bracket.Wired,
    Side.forall, both, graph, Node.command]

/-- What happens in the brackets and at the root. -/
structure Outcome where
  /-- The statuses with which the agents start. -/
  entry : ℤ → Status
  played : Side → Played
  finalist : Side → Status
  losers : Side → List (Char × Status)
  rounds : List Round
  last : Side → Status
  winner : Side

/-- The outcome keeps to the rules : the agents start as the losers of the winners' bracket. -/
structure Outcome.Fair (S : Setup) (o : Outcome) : Prop where
  upper : Tournament S S.initial winnersBracket (o.played .left) (o.finalist .left)
    (o.losers .left)
  lower : Tournament S o.entry losersBracket (o.played .right) (o.finalist .right)
    (o.losers .right)
  handed : ∀ l ∈ o.losers .left, o.entry (graph l.1).loser = S.restore l.2
  fought : Fought 'A' o.finalist o.rounds o.last
  ended : Ended 'A' o.finalist o.last o.winner

/-- The tree of the championship. -/
def Outcome.tree (o : Outcome) : Played :=
  .battle 'A' o.winner o.rounds o.played

/-- The channels of a state in which the championship is over with this outcome. -/
structure Outcome.Final (S : Setup) (o : Outcome) (t : State) : Prop where
  stands : Stands S t o.tree [] [] [] .done
  terminal : t.sent .terminal = [champion (o.last o.winner).real_player_id]
  fifo : ∀ l ∈ o.losers .left, t.sent (.fifo (graph l.1).loser) = [S.restore l.2]
  no_fifo : ∀ n, (∀ l ∈ o.losers .left, n ≠ (graph l.1).loser) → t.sent (.fifo n) = []
  forked : Forked t championship []
  no_fork : ∀ q, .fork q ∉ championship.forks [] → t.sent (.fork q) = []

/-- The winners' bracket is over, and the agents have not read their FIFOs. -/
structure Halfway (S : Setup) (s : State) (P : Played) (st : Status)
    (losers : List (Char × Status)) : Prop where
  root : ∃ stat1 stat2, Own s [] (.playRead 'A' .left stat1 stat2) [] 0
  link : ∀ x, Link s [] x 0 []
  upper : Tournament S S.initial winnersBracket P st losers
  stands : Stands S s P [.left] [] [] (.ready st)
  lower : Idle s Asleep losersBracket [.right]
  handed : Handed S s losers
  got : ∀ n, s.got (.fifo n) = 0
  no_fifo : ∀ n, (∀ l ∈ losers, n ≠ (graph l.1).loser) → s.sent (.fifo n) = []
  terminal : s.sent .terminal = []
  forked : Forked s championship []
  no_fork : ∀ q, .fork q ∉ championship.forks [] → s.sent (.fork q) = []

section Schedule

variable {S : Setup} {A : Set Pid} {X : Set Chan} {s t : State} {entry : ℤ → Status}

theorem Idle.imp {leaf leaf' : ℤ → Pid → State → Prop} : ∀ {b : Bracket} {p : Pid},
    (∀ n ∈ b.leaves, ∀ q, leaf n q s → leaf' n q s) → Idle s leaf b p → Idle s leaf' b p
  | .player n, p, h, hidle => h n (List.mem_singleton.2 rfl) p hidle
  | .battle _ _, _, h, ⟨hown, hlink, hkid⟩ =>
    ⟨hown, hlink, fun x => (hkid x).imp fun n hn => h n (mem_leaves_kid _ x hn)⟩

theorem Idle.exists_leaf {leaf : ℤ → Pid → State → Prop} {n : ℤ} : ∀ {b : Bracket} {p : Pid},
    Idle s leaf b p → n ∈ b.leaves → ∃ q, leaf n q s
  | .player _, p, h, hn => ⟨p, List.mem_singleton.1 hn ▸ h⟩
  | .battle _ kid, _, ⟨_, _, hkid⟩, hn =>
    let ⟨x, hx⟩ := (Side.mem_append (l := fun x => (kid x).leaves)).1 hn
    (hkid x).exists_leaf hx

theorem Setup.Valid.initial (hS : S.Valid) {n : ℤ} (hn : 0 ≤ n ∧ n ≤ 7) : S.Fit (S.initial n) :=
  ⟨hn, hS.battle_ended_flag n hn.1 hn.2, hS.HP n hn.1 hn.2, le_rfl, rfl⟩

/-- A loser came into its battle as its rules ask, and lost it. -/
theorem Tournament.loser {b : Bracket} {P : Played} {st : Status}
    {losers : List (Char × Status)} (h : Tournament S entry b P st losers)
    (hentry : ∀ n ∈ b.leaves, S.Fit (entry n)) :
    ∀ l ∈ losers, l.2.battle_ended_flag = 1 ∧ l.2.HP ≤ 0 ∧ ∃ st, S.Fit st ∧ Same l.1 st l.2 := by
  induction h with
  | player n =>
    intro l hl
    cases hl
  | @battle battle_ID kid kid' e f w rounds losers hkid hfought hend ih =>
    have hentry' := fun x n hn => hentry n (mem_leaves_kid battle_ID x hn)
    intro l hl
    rcases List.mem_cons.1 hl with rfl | hl
    · exact ⟨hend.battle_ended_flag _, hend.loser, _, (hkid w.other).fit (hentry' w.other),
        hend.same w.other⟩
    · obtain ⟨x, hl⟩ := Side.mem_append.1 hl
      exact ih x (hentry' x) l hl

theorem blank_start : Blank (start S) [] :=
  ⟨fun _ _ hne => if_neg hne, fun _ _ => rfl, fun _ _ => rfl, fun _ _ _ => ⟨rfl, rfl⟩,
    fun _ _ _ => ⟨rfl, rfl⟩⟩

theorem winners_real : ∀ n ∈ winnersBracket.leaves, 0 ≤ n ∧ n ≤ 7 := by
  decide

theorem losers_agents : ∀ n ∈ losersBracket.leaves, ¬(0 ≤ n ∧ n ≤ 7) := by
  decide

/-- The agents are there for the losers of the battles of the winners' bracket. -/
theorem agents_losers : losersBracket.leaves.Perm
    (winnersBracket.ids.map fun c => (graph c).loser) := by
  decide

theorem loser_mem (c : Char) (hc : c ∈ winnersBracket.ids) :
    (graph c).loser ∈ losersBracket.leaves :=
  agents_losers.mem_iff.2 (List.mem_map_of_mem hc)

theorem exists_loser (n : ℤ) (hn : n ∈ losersBracket.leaves) : ∃ c ∈ winnersBracket.ids,
    (graph c).loser = n :=
  List.mem_map.1 (agents_losers.mem_iff.1 hn)

/-- The processes start and fight the winners' bracket. -/
theorem exists_halfway (hS : S.Valid) : ∃ s P st losers,
    (network S).Runs (below []) Set.univ (start S) s ∧ Halfway S s P st losers := by
  obtain ⟨s₁, hrun₁, ⟨hroot₁, hlink₁, hkid₁⟩, hforked₁⟩ :=
    boot hS championship_wired rfl (blank_start (S := S))
  have hup : Idle s₁ (Started S) winnersBracket [.left] := hkid₁ .left
  have hlow : Idle s₁ (Started S) losersBracket [.right] := hkid₁ .right
  have hnot : ∀ {c : Chan}, (∀ q x, c ≠ .fork (x :: q)) → c ∉ championship.forks [] :=
    fun hc hmem =>
      let ⟨q, _, x, heq⟩ := Bracket.mem_forks hmem
      hc q x heq
  have hfifo₁ : ∀ n, s₁.sent (.fifo n) = [] := fun n => hrun₁.shared_sent _ (hnot nofun) rfl
  have hgates : Gates s₁ winnersBracket := by
    refine ⟨by decide, fun c hc => ?_, fun c _ => hfifo₁ _⟩
    obtain ⟨q, hstarted⟩ := hlow.exists_leaf (loser_mem c hc)
    rw [Started, if_neg (losers_agents _ (loser_mem c hc))] at hstarted
    exact hstarted.2
  have hready : Idle s₁ (Ready S S.initial) winnersBracket [.left] :=
    hup.imp fun n hn q hstarted => by
      rw [Started, if_pos (winners_real n hn)] at hstarted
      exact ⟨⟨_, rfl, hstarted⟩, nofun⟩
  obtain ⟨s₂, P, st, losers, htour, hrun₂, hstands₂, hgot₂, hhanded₂⟩ :=
    tournament_runs True hS (List.cons_ne_nil _ _) (by decide)
      (fun n hn => ⟨hS.initial (winners_real n hn), iff_of_true (winners_real n hn) trivial⟩)
      (fun _ => hgates) hready
  have hright : ∀ q ∈ below [.right], q ∉ below [.left] := fun q hq =>
    below_disjoint (by decide) [] hq
  have hroot := not_mem_below_cons .left []
  refine ⟨s₂, P, st, losers, (hrun₁.mono (Set.Subset.refl _) (Set.subset_univ _)).trans
    (hrun₂.mono (below_cons _ []) (Set.subset_univ _)), ?_, fun x => (hlink₁ x).frame hrun₂ hroot,
    htour, hstands₂, ?_, hhanded₂ trivial, fun n => ?_, fun n hn => ?_, ?_, ?_,
    fun q hq => ?_⟩
  · obtain ⟨stat1, stat2, hown⟩ := hroot₁
    exact ⟨stat1, stat2, hown.frame hrun₂ hroot⟩
  · refine (hlow.imp fun n hn q hstarted => ?_).frame hrun₂
      (fun n _ q hq hasleep => Own.frame hasleep hrun₂ (hright q hq)) hright
    rw [Started, if_neg (losers_agents n hn)] at hstarted
    exact hstarted.1
  · rw [hgot₂]
    exact hrun₁.shared_got _ (hnot nofun) rfl
  · refine (hrun₂.shared_sent _ (fun ⟨_, c, hc, heq⟩ => ?_) rfl).trans (hfifo₁ n)
    rw [← htour.ids_losers] at hc
    obtain ⟨l, hl, rfl⟩ := List.mem_map.1 hc
    exact hn l hl (Chan.fifo.inj heq)
  · exact (hrun₂.shared_sent _ (fun ⟨_, _, _, heq⟩ => by cases heq) rfl).trans
      (hrun₁.shared_sent _ (hnot nofun) rfl)
  · exact hforked₁.frame hrun₂ fun _ _ _ ⟨_, _, _, heq⟩ => by cases heq
  · refine (hrun₂.shared_sent _ (fun ⟨_, _, _, heq⟩ => by cases heq) rfl).trans ?_
    exact hrun₁.shared_sent _ hq rfl

/-- The agents take over, the losers' bracket is fought, and then the last battle. -/
theorem Halfway.finish (hS : S.Valid) {P : Played} {st : Status} {losers : List (Char × Status)}
    (h : Halfway S s P st losers) : ∃ (t : State) (o : Outcome),
      (network S).Runs (below []) Set.univ s t ∧ o.Fair S ∧ o.Final S t := by
  obtain ⟨stat1, stat2, hroot⟩ := h.root
  set entry : ℤ → Status := fun n => (s.sent (.fifo n)).headD (S.initial 0) with hentry
  have hhanded : ∀ l ∈ losers, entry (graph l.1).loser = S.restore l.2 := fun l hl => by
    rw [hentry]
    simp only [(h.handed l hl).1, List.headD_cons]
  have hinitial : ∀ n ∈ winnersBracket.leaves, S.Fit (S.initial n) := fun n hn =>
    hS.initial (winners_real n hn)
  have hagent : ∀ n ∈ losersBracket.leaves, S.Fit (entry n) ∧
      (entry n).HP = (S.file (entry n).real_player_id).HP ∧ Posted s entry n := by
    intro n hn
    obtain ⟨c, hc, rfl⟩ := exists_loser n hn
    rw [← h.upper.ids_losers] at hc
    obtain ⟨l, hl, rfl⟩ := List.mem_map.1 hc
    obtain ⟨-, -, st', hfit, hsame⟩ := h.upper.loser hinitial l hl
    have hsent := (h.handed l hl).1
    rw [← hhanded l hl] at hsent
    refine ⟨?_, ?_, (h.handed l hl).2, hsent, h.got _⟩
    · rw [hhanded l hl]
      exact hS.restore hfit hsame
    · rw [hhanded l hl]
      rfl
  have hr := not_mem_below_cons .right []
  have hleft : ∀ q ∈ below [.left], q ∉ below [.right] := fun q hq =>
    below_disjoint (by decide) [] hq
  obtain ⟨s₁, hrun₁, hready₁, hsent₁⟩ := wake hagent (by decide) h.lower
  obtain ⟨s₂, P', st', losers', htour, hrun₂, hstands₂, -, -⟩ :=
    tournament_runs False hS (List.cons_ne_nil _ _) (by decide)
      (fun n hn => ⟨(hagent n hn).1, iff_of_false (losers_agents n hn) id⟩) (fun hf => hf.elim)
      hready₁
  have hfit : ∀ x, S.Fit (both (st, st') x) :=
    Side.forall.2 ⟨h.upper.fit hinitial, htour.fit fun n hn => (hagent n hn).1⟩
  have hplaying : Playing S s₂ [] 'A' (both (P, P')) [] (both (st, st')) :=
    ⟨⟨stat1, stat2, (hroot.frame hrun₁ hr).frame hrun₂ hr⟩,
      fun x => ((h.link x).frame hrun₁ hr).frame hrun₂ hr,
      Side.forall.2 ⟨(h.stands.frame hrun₁ hleft).frame hrun₂ hleft, hstands₂⟩⟩
  obtain ⟨rounds, f, hf⟩ := hS.exists_fought 'A' (both (st, st') .left).HP.toNat hfit
    (Int.self_le_toNat _)
  obtain ⟨w, hend⟩ := hf.ends hS hfit
  obtain ⟨t, hrun₃, hstands₃, hterminal₃⟩ := hplaying.crowned hS hf hfit hend
  -- the channels that nobody owns are as after the winners' bracket
  have hsame : ∀ c, writer c = none → c ≠ .terminal → t.sent c = s.sent c := fun c hc hne => by
    rw [hrun₃.shared_sent c hne hc, hrun₂.shared_sent c (fun hf => hf.1) hc, hsent₁]
  have hterminal : s₂.sent .terminal = [] := by
    rw [hrun₂.shared_sent _ (fun hf => hf.1) rfl, hsent₁, h.terminal]
  refine ⟨t, ⟨entry, both (P, P'), both (st, st'), both (losers, losers'), rounds, f, w⟩,
    ((hrun₁.mono (below_cons _ []) (Set.subset_univ _)).trans
      (hrun₂.mono (below_cons _ []) (Set.subset_univ _))).trans
      (hrun₃.mono (Set.Subset.refl _) (Set.subset_univ _)),
    ⟨h.upper, htour, hhanded, hf, hend⟩, ⟨hstands₃, ?_, fun l hl => ?_, fun n hn => ?_,
    ?_, fun q hq => ?_⟩⟩
  · rw [hterminal₃, hterminal]
    rfl
  · rw [hsame (.fifo _) rfl nofun, (h.handed l hl).1]
  · rw [hsame (.fifo n) rfl nofun, h.no_fifo n hn]
  · exact h.forked.congr fun q => hsame (.fork q) rfl nofun
  · rw [hsame (.fork q) rfl nofun, h.no_fork q hq]

/-- There is a run to the end. -/
theorem exists_outcome (hS : S.Valid) : ∃ (w : List Pid) (t : State) (o : Outcome),
    (network S).system.run w (start S) = some t ∧ o.Fair S ∧ o.Final S t := by
  obtain ⟨s, P, st, losers, hrun, hhalf⟩ := exists_halfway hS
  obtain ⟨t, o, hrun', hfair, hfinal⟩ := hhalf.finish hS
  obtain ⟨w, -, hw⟩ := (hrun.trans hrun').exists_run
  exact ⟨w, t, o, hw, hfair, hfinal⟩

/-! ## Every order of steps -/

theorem Stands.done_proc : ∀ {P : Played} {p : Pid} {up down : List Status},
    Stands S s P p up down .done → s.proc p = .exited
  | .player _, _, _, _, ⟨⟨_, hl, hown⟩, _⟩ => hown.proc.trans hl
  | .battle _ _ _ _, _, _, _, ⟨⟨_, hl, hown⟩, _⟩ => hown.proc.trans hl

/-- What passes the battle on a side after its own rounds. -/
def passed (w x : Side) (l : List Status) : List Status :=
  if x = w then l else []

theorem mem_passed {w x : Side} {l : List Status} {st : Status} (h : st ∈ passed w x l) :
    x = w ∧ st ∈ l := by
  unfold passed at h
  split_ifs at h with hx
  · exact ⟨hx, h⟩
  · cases h

/-- What is on the pipes of the children of a battle. -/
theorem Stands.over {battle_ID : Char} {w : Side} {rounds : List Round} {kid : Side → Played}
    {p : Pid} {up down : List Status}
    (h : Stands S t (.battle battle_ID w rounds kid) p up down .done) (x : Side) :
    Stands S t (kid x) (x :: p) (ups rounds x ++ passed w x up) (downs rounds x ++ passed w x down)
        .done ∧
      t.sent (.stdout (x :: p)) = ups rounds x ++ passed w x up ∧
      t.sent (.stdin (x :: p)) = downs rounds x ++ passed w x down := by
  obtain ⟨-, -, hlink, hlink', hwon, hlost⟩ := h
  rcases x.eq_or_eq_other w with rfl | rfl
  · rw [passed, passed, if_pos rfl, if_pos rfl]
    exact ⟨hwon, hwon.exists_own.choose_spec.out, hlink.told⟩
  · rw [passed, passed, if_neg w.other_ne, if_neg w.other_ne, List.append_nil, List.append_nil]
    exact ⟨hlost, hlost.exists_own.choose_spec.out, hlink'.told⟩

/-- When a part is done, all its processes have exited. -/
theorem Tournament.exited {b : Bracket} {P : Played} {st : Status}
    {losers : List (Char × Status)} (h : Tournament S entry b P st losers) :
    ∀ {p q : Pid} {up down : List Status}, Stands S s P p up down .done → .fork q ∈ b.forks p →
      s.proc q = .exited := by
  induction h with
  | player n =>
    intro p q up down _ hq
    exact hq.elim
  | battle hkid hfought hend ih =>
    intro p q up down hdone hq
    obtain ⟨x, hq⟩ := hq
    have hx := (hdone.over x).1
    rcases hq with hq | hq
    · rw [Chan.fork.inj hq]
      exact hx.done_proc
    · exact ih x hx hq

/-- A process that was not forked has done nothing. -/
theorem unforked_of_run {w : List Pid} (hrun : (network S).system.run w (start S) = some s)
    {q : Pid} (hq : q ≠ []) (hsent : s.sent (.fork q) = []) : s.proc q = .unforked := by
  refine System.run_invariant (I := fun s => s.sent (.fork q) = [] → s.proc q = .unforked)
    (fun p s t ih hstep hsent => ?_) w (fun _ => if_neg hq) hrun hsent
  have hsent' : s.sent (.fork q) = [] :=
    List.prefix_nil.1 (hsent ▸ (exec_grows hstep).sent (.fork q))
  by_cases hp : q = p
  · subst hp
    have hop : (network S).op q (s.proc q) = .read (.fork q) (execl S) := by
      rw [ih hsent']
      rfl
    change exec q _ s = some t at hstep
    rw [hop] at hstep
    obtain ⟨v, hv, -⟩ := Option.map_eq_some_iff.1 hstep
    simp [hsent'] at hv
  · rw [exec_proc hstep hp]
    exact ih hsent'

/-- Every process that was forked has exited. -/
def Finished (s : State) : Prop :=
  ∀ p, s.proc p = .exited ∨ s.proc p = .unforked ∧ s.sent (.fork p) = []

theorem exited_no_step {p : Pid} (hp : s.proc p = .exited) : (network S).step p s = none := by
  have hop : (network S).op p (s.proc p) = .halt := by
    rw [hp]
    rfl
  rw [step, hop]
  rfl

/-- A finished championship stays as it is. -/
theorem Finished.no_step (h : Finished s) (p : Pid) : (network S).step p s = none := by
  rcases h p with hp | ⟨hp, hsent⟩
  · exact exited_no_step hp
  · have hop : (network S).op p (s.proc p) = .read (.fork p) (execl S) := by
      rw [hp]
      rfl
    rw [step, hop, exec, hsent]
    rfl

theorem Outcome.Final.finished {o : Outcome} (hfair : o.Fair S) (hfinal : o.Final S t)
    {w : List Pid} (hrun : (network S).system.run w (start S) = some t) : Finished t := by
  intro p
  by_cases hp : p = []
  · exact Or.inl (hp ▸ hfinal.stands.done_proc)
  by_cases hfork : .fork p ∈ championship.forks []
  · left
    obtain ⟨x, hq⟩ := hfork
    have hx := (hfinal.stands.over x).1
    rcases hq with hq | hq
    · rw [Chan.fork.inj hq]
      exact hx.done_proc
    · cases x
      · exact hfair.upper.exited hx hq
      · exact hfair.lower.exited hx hq
  · have hsent := hfinal.no_fork p hfork
    exact Or.inr ⟨unforked_of_run hrun hp hsent, hsent⟩

theorem Outcome.Final.settled {o : Outcome} (hfair : o.Fair S) (hfinal : o.Final S t)
    {w : List Pid} (hrun : (network S).system.run w (start S) = some t) :
    (network S).Settled t := by
  refine ⟨fun p => ?_, fun c hc => ?_⟩
  · rcases hfinal.finished hfair hrun p with hp | ⟨hp, hsent⟩
    · exact Or.inl (by rw [hp]; rfl)
    · refine Or.inr ⟨.fork p, execl S, by rw [hp]; rfl, rfl, ?_⟩
      rw [hsent]
      exact Nat.zero_le _
  · cases c with
    | fork q =>
      by_cases hq : .fork q ∈ championship.forks []
      · obtain ⟨cmd, hcmd⟩ := hfinal.forked.of_mem hq
        rw [hcmd]
        exact le_rfl
      · rw [hfinal.no_fork q hq]
        exact Nat.zero_le _
    | stdin q => simp [network, reader, writer] at hc
    | stdout q => simp [network, reader, writer] at hc
    | fifo n =>
      by_cases hn : ∃ l ∈ o.losers .left, n = (graph l.1).loser
      · obtain ⟨l, hl, rfl⟩ := hn
        rw [hfinal.fifo l hl]
        exact le_rfl
      · rw [hfinal.no_fifo n fun l hl heq => hn ⟨l, hl, heq⟩]
        exact Nat.zero_le _
    | terminal =>
      rw [hfinal.terminal]
      exact le_rfl

/-- The championship never gets stuck, and every order of steps writes the same statuses to
every pipe and FIFO and prints the same champion. -/
theorem schedule_independent (hS : S.Valid) : ∃ (t : State) (n : ℕ), Finished t ∧
    (∃ winner, t.sent .terminal = [champion winner]) ∧
    ∀ (w : List Pid) (s : State), (network S).system.run w (start S) = some s →
      w.length ≤ n ∧ (Finished s ∨ ∃ p u, (network S).step p s = some u) ∧
      (Finished s → s.sent = t.sent) := by
  obtain ⟨w₀, t, o, hrun₀, hfair, hfinal⟩ := exists_outcome hS
  refine ⟨t, w₀.length, hfinal.finished hfair hrun₀, ⟨_, hfinal.terminal⟩, fun w s hrun => ?_⟩
  obtain ⟨v, hv, hperm⟩ := run_completes (hfinal.settled hfair hrun₀) (fun _ => Nat.zero_le _)
    hrun₀ hrun
  have hlen : w.length ≤ w₀.length := by
    rw [← hperm.length_eq, List.length_append]
    exact Nat.le_add_right _ _
  cases v with
  | nil =>
    obtain rfl : s = t := by simpa using hv
    exact ⟨hlen, Or.inl (hfinal.finished hfair hrun₀), fun _ => rfl⟩
  | cons p v =>
    obtain ⟨u, hstep, -⟩ := (network S).system.run_cons.1 hv
    exact ⟨hlen, Or.inr ⟨p, u, hstep⟩, fun hs => by cases (hs.no_step p).symm.trans hstep⟩

end Schedule

/-- `player_status.txt`. -/
def player_status : List Entry :=
  [⟨7, 2, ['F', 'I', 'R', 'E'], 'G', 0⟩, ⟨8, 3, ['G', 'R', 'A', 'S', 'S'], 'G', 0⟩,
    ⟨4, 4, ['F', 'I', 'R', 'E'], 'H', 0⟩, ⟨1, 4, ['G', 'R', 'A', 'S', 'S'], 'H', 0⟩,
    ⟨12, 2, ['W', 'A', 'T', 'E', 'R'], 'I', 0⟩, ⟨3, 4, ['G', 'R', 'A', 'S', 'S'], 'I', 0⟩,
    ⟨7, 3, ['W', 'A', 'T', 'E', 'R'], 'J', 0⟩, ⟨10, 2, ['W', 'A', 'T', 'E', 'R'], 'J', 0⟩]

/-- The championship of `player_status.txt`, with variables that are zero. -/
def zeroed : Setup where
  file n := player_status.getD n.toNat ⟨0, 0, [], ' ', 0⟩
  stat1 _ := ⟨0, 0, 0, .FIRE, ' ', 0⟩
  stat2 _ := ⟨0, 0, 0, .FIRE, ' ', 0⟩

theorem zeroed_valid : zeroed.Valid := by
  refine ⟨⟨fun n h0 h7 => ?_, fun n h0 h7 => ?_, fun n h0 h7 => ?_⟩,
    fun _ => zero_ne_one⟩ <;>
    interval_cases n <;> decide

theorem schedule_independent_zeroed : ∃ (t : State) (n : ℕ), Finished t ∧
    (∃ winner, t.sent .terminal = [champion winner]) ∧
    ∀ (w : List Pid) (s : State), (network zeroed).system.run w (start zeroed) = some s →
      w.length ≤ n ∧ (Finished s ∨ ∃ p u, (network zeroed).step p s = some u) ∧
      (Finished s → s.sent = t.sent) :=
  schedule_independent zeroed_valid

end SP2022.Championship
