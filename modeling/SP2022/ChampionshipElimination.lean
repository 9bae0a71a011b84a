import Mathlib.Data.List.Nodup
import Mathlib.Tactic.IntervalCases
import SP2022.ChampionshipVariables

/-!
# A double elimination

What the pipes and FIFOs of a finished championship show. A battle is a process that was
started as `battle`, its players enter with the first statuses on the `stdout` of its
children, and a player loses it when the battle answers with its own letter, the flag and no
hit points left (`Loses`). `DoubleElimination` collects what this is about : who fights whom,
who hands over to which agent, how often a player loses before it is out, and who is the
champion.

The brackets give the losers of all battles (`Tournament.players`), and the state in which the
run of `exists_outcome` ends has them on its pipes (`Outcome.Final.battle`). Since every
complete run ends in this state, the same holds of all of them (`exists_final`).

A battle whose `stat1` starts with the flag set is held at its first `wait`, and a championship
with such a battle never finishes (`not_finished`). Without one, every run can be brought to its
end (`double_elimination_iff`).
-/

namespace SP2022.Championship

open Network

/-- The process `p` was started as the battle `battle_ID`. -/
def IsBattle (t : State) (p : Pid) (battle_ID : Char) : Prop :=
  p = [] ∧ battle_ID = 'A' ∨
    ∃ argv1, t.sent (.fork p) = [.battle argv1] ∧ argv1.headD '\x00' = battle_ID

/-- The process `p` was started as the player `n`. -/
def IsPlayer (t : State) (p : Pid) (n : ℤ) : Prop :=
  ∃ argv1, t.sent (.fork p) = [.player argv1] ∧ atoi argv1 = n

/-- The answer to a player that lost. -/
def Lost (r : Status) : Prop :=
  r.battle_ended_flag = 1 ∧ r.HP ≤ 0

/-- The real player `n` loses the battle `battle_ID`. -/
def Loses (t : State) (n : ℤ) (battle_ID : Char) : Prop :=
  ∃ p x, IsBattle t p battle_ID ∧ ∃ r ∈ t.sent (.stdin (x :: p)),
    Lost r ∧ r.current_battle_id = battle_ID ∧ r.real_player_id = n

/-- A status with which a player may enter a battle. -/
structure Enters (S : Setup) (t : State) (p : Pid) (x : Side) (e : Status) : Prop where
  head : (t.sent (.stdout (x :: p))).head? = some e
  player : ∀ st ∈ t.sent (.stdout (x :: p)), st.real_player_id = e.real_player_id
  fit : S.Fit e

/-- The championship is a double elimination. -/
structure DoubleElimination (S : Setup) (t : State) : Prop where
  /-- There are fourteen battles and fifteen players. -/
  battles : ∀ battle_ID, (∃ p, IsBattle t p battle_ID) ↔ battle_ID ∈
    ['A', 'B', 'C', 'D', 'E', 'F', 'G', 'H', 'I', 'J', 'K', 'L', 'M', 'N']
  players : ∀ n, (∃ p, IsPlayer t p n) ↔ 0 ≤ n ∧ n ≤ 14
  /-- Every battle is fought between two players, who enter it as its rules ask. -/
  entered : ∀ p battle_ID, IsBattle t p battle_ID → ∃ e : Side → Status,
    (∀ x, Enters S t p x (e x)) ∧ (e .left).real_player_id ≠ (e .right).real_player_id
  /-- A real player that loses before the end hands over to an agent. -/
  handed : ∀ p n, IsPlayer t p n → 0 ≤ n ∧ n ≤ 7 → ∀ r ∈ t.sent (.stdin p), Lost r →
    r.current_battle_id ≠ 'A' →
    8 ≤ (graph r.current_battle_id).loser ∧ (graph r.current_battle_id).loser ≤ 14 ∧
      t.sent (.fifo (graph r.current_battle_id).loser) = [S.restore r] ∧
      ∃ q, IsPlayer t q (graph r.current_battle_id).loser ∧
        IsBattle t q.tail (graph r.current_battle_id).loser_parent
  /-- Each FIFO carries one status. -/
  fifo : ∀ n, 8 ≤ n → n ≤ 14 → (t.sent (.fifo n)).length = 1
  /-- The players of the last battle lost no battle and one battle before, all others two. One
  of the two has hit points left, and is the champion. -/
  final : ∃ e f : Side → Status, ∃ w : Side, (∀ x, Enters S t [] x (e x)) ∧
    IsBattle t [.left] 'B' ∧ IsBattle t [.right] 'C' ∧
    (∀ b, b ≠ 'A' → ¬Loses t (e .left).real_player_id b) ∧
    (∃ c, c ≠ 'A' ∧ ∀ b, b ≠ 'A' → (Loses t (e .right).real_player_id b ↔ b = c)) ∧
    (∀ n, 0 ≤ n ∧ n ≤ 7 → (∀ x, n ≠ (e x).real_player_id) →
      ∃ c d, c ≠ d ∧ ∀ b, Loses t n b ↔ b = c ∨ b = d) ∧
    (∀ x, (t.sent (.stdin [x])).getLast? = some (f x)) ∧ 0 < (f w).HP ∧ (f w.other).HP ≤ 0 ∧
    (f w).real_player_id = (e w).real_player_id ∧
    t.sent .terminal = [champion (f w).real_player_id]

/-! ## The players of a bracket -/

section Players

variable {S : Setup} {entry : ℤ → Status} {b : Bracket} {P : Played} {st : Status}
  {losers : List (Char × Status)}

/-- The numbers of the players that lost. -/
def players (losers : List (Char × Status)) : List ℤ :=
  losers.map fun l => l.2.real_player_id

/-- Every player of a bracket but the winner loses one of its battles. -/
theorem Tournament.players (h : Tournament S entry b P st losers) :
    (st.real_player_id :: players losers).Perm
      (b.leaves.map fun n => (entry n).real_player_id) := by
  induction h with
  | player n => exact List.Perm.refl _
  | @battle battle_ID kid kid' e f w rounds losers hkid hfought hend ih =>
    have hw : (S.recover (f w)).real_player_id = (e w).real_player_id := (hend.same w).player
    have ho : (f w.other).real_player_id = (e w.other).real_player_id := (hend.same _).player
    have hboth := (ih .left).append (ih .right)
    rw [← List.map_append] at hboth
    refine List.Perm.trans ?_ hboth
    simp only [Championship.players, List.map_cons, List.map_append, hw, ho, List.cons_append]
    cases w
    · exact (List.perm_middle.symm).cons _
    · exact (List.Perm.swap _ _ _).trans ((List.perm_middle.symm).cons _)

end Players

/-! ## The battles of a bracket that is over -/

/-- `b'` is the part of the process `q` in a bracket `b` of the process `p`. -/
inductive Bracket.Part : Bracket → Pid → Bracket → Pid → Prop
  | refl (b : Bracket) (p : Pid) : Part b p b p
  | kid {battle_ID : Char} {kid : Side → Bracket} {p q : Pid} {b : Bracket} (x : Side)
    (h : Part (kid x) (x :: p) b q) : Part (.battle battle_ID kid) p b q

section Over

variable {S : Setup} {s t : State} {entry : ℤ → Status} {b : Bracket} {P : Played} {st : Status}
  {losers : List (Char × Status)}

/-- The battle `battle_ID` of the process `q`, as its pipes show it. -/
structure Over (S : Setup) (t : State) (battle_ID : Char) (q : Pid) (e f : Side → Status)
    (w : Side) (rounds : List Round) : Prop where
  fit : ∀ x, S.Fit (e x)
  fought : Fought battle_ID e rounds f
  ended : Ended battle_ID e f w
  up : ∀ x, ∃ later, t.sent (.stdout (x :: q)) = ups rounds x ++ later ∧
    ∀ st ∈ later, st.real_player_id = (e x).real_player_id
  down : ∀ x, ∃ later, t.sent (.stdin (x :: q)) = downs rounds x ++ later ∧
    ∀ r ∈ later, r.current_battle_id ≠ battle_ID

/-- Every battle of a bracket that is over was fought, and its loser is among the losers. -/
theorem Tournament.over (hS : S.Valid) (h : Tournament S entry b P st losers) :
    ∀ {p : Pid} {up down : List Status}, (∀ n ∈ b.leaves, S.Fit (entry n)) → b.ids.Nodup →
    (b.leaves.map fun n => (entry n).real_player_id).Nodup →
    Stands S t P p up down .done → (∀ m ∈ up, m.real_player_id = st.real_player_id) →
    (∀ r ∈ down, r.current_battle_id ∉ b.ids) → ∀ {battle_ID : Char} {kid : Side → Bracket}
    {q : Pid}, b.Part p (.battle battle_ID kid) q →
    ∃ e f w rounds, Over S t battle_ID q e f w rounds ∧ (battle_ID, f w.other) ∈ losers ∧
      (e .left).real_player_id ≠ (e .right).real_player_id := by
  induction h with
  | player n =>
    intro p up down _ _ _ _ _ _ battle_ID kid q hpart
    cases hpart
  | @battle ID kids kid' e f w rounds losers hkid hfought hend ih =>
    intro p up down hentry hids hplayers hdone hup hdown battle_ID kid q hpart
    have hentry' := fun x n hn => hentry n (mem_leaves_kid ID x hn)
    have he : ∀ x, S.Fit (e x) := fun x => (hkid x).fit (hentry' x)
    have hrounds := hfought.players hS he
    have hlater : ∀ x, ∀ st ∈ passed w x up, st.real_player_id = (e x).real_player_id := by
      intro x st hst
      obtain ⟨rfl, hst'⟩ := mem_passed hst
      exact (hup st hst').trans (hend.same x).player
    obtain ⟨hID, hkids⟩ := List.nodup_cons.1 hids
    rw [Bracket.leaves, List.map_append] at hplayers
    cases hpart with
    | refl =>
      refine ⟨e, f, w, rounds, ⟨he, hfought, hend, fun x => ⟨_, (hdone.over x).2.1, hlater x⟩,
        fun x => ⟨_, (hdone.over x).2.2, fun r hr heq => ?_⟩⟩, List.mem_cons_self, ?_⟩
      · exact hdown r (mem_passed hr).2 (heq ▸ List.mem_cons_self)
      · have hmem := fun x => (hkid x).players.mem_iff.1 List.mem_cons_self
        exact (List.nodup_append.1 hplayers).2.2 _ (hmem .left) _ (hmem .right)
    | kid x hpart =>
      have hid : ID ∉ (kids x).ids := fun hc =>
        hID ((Side.mem_append (l := fun x => (kids x).ids)).2 ⟨x, hc⟩)
      obtain ⟨e', f', w', rounds', hover, hlost, hne⟩ := ih x (hentry' x)
        (Side.nodup_append (l := fun x => (kids x).ids) hkids x)
        (Side.nodup_append (l := fun x => (kids x).leaves.map fun n => (entry n).real_player_id)
          hplayers x)
        (hdone.over x).1
        (fun m hm => by
          rcases List.mem_append.1 hm with hm | hm
          · obtain ⟨r, hr, rfl⟩ := List.mem_map.1 hm
            exact (hrounds r hr x).1
          · exact hlater x m hm)
        (fun r hr hc => by
          rcases List.mem_append.1 hr with hr | hr
          · obtain ⟨r', hr', rfl⟩ := List.mem_map.1 hr
            exact hid ((hrounds r' hr' x).2.battle ▸ hc)
          · exact hdown r (mem_passed hr).2 (mem_ids_kid x hc))
        hpart
      exact ⟨e', f', w', rounds', hover, List.mem_cons_of_mem _ (Side.mem_append.2 ⟨x, hlost⟩), hne⟩

/-- The players enter a battle as its rules ask. -/
theorem Over.enters (hS : S.Valid) {battle_ID : Char} {q : Pid} {e f : Side → Status} {w : Side}
    {rounds : List Round} (h : Over S t battle_ID q e f w rounds) (x : Side) :
    Enters S t q x (e x) := by
  obtain ⟨later, hsent, hlater⟩ := h.up x
  refine ⟨?_, fun st hst => ?_, h.fit x⟩
  · rw [hsent, List.head?_append, ups, h.fought.head x]
    rfl
  · rw [hsent] at hst
    rcases List.mem_append.1 hst with hst | hst
    · obtain ⟨r, hr, rfl⟩ := List.mem_map.1 hst
      exact (h.fought.players hS h.fit r hr x).1
    · exact hlater st hst

/-- A battle tells its loser, and nobody else, that it lost. -/
theorem Over.lost_iff (hS : S.Valid) {battle_ID : Char} {q : Pid} {e f : Side → Status} {w : Side}
    {rounds : List Round} (h : Over S t battle_ID q e f w rounds) (x : Side) (r : Status) :
    r ∈ t.sent (.stdin (x :: q)) ∧ Lost r ∧ r.current_battle_id = battle_ID ↔
      x = w.other ∧ r = f w.other := by
  obtain ⟨later, hsent, hlater⟩ := h.down x
  obtain ⟨init, hdowns, hinit⟩ := h.fought.downs hS h.fit x
  rw [hsent, downs, hdowns]
  constructor
  · rintro ⟨hr, ⟨hflag, hHP⟩, hid⟩
    rcases List.mem_append.1 hr with hr | hr
    · rcases List.mem_append.1 hr with hr | hr
      · rw [hinit r hr] at hflag
        cases hflag
      · obtain rfl := List.mem_singleton.1 hr
        rcases x.eq_or_eq_other w with rfl | rfl
        · exact absurd h.ended.winner (not_lt.2 hHP)
        · exact ⟨rfl, rfl⟩
    · exact absurd hid (hlater r hr)
  · rintro ⟨rfl, rfl⟩
    refine ⟨?_, ⟨h.ended.battle_ended_flag _, h.ended.loser⟩, (h.ended.same _).battle⟩
    exact List.mem_append_left _ (List.mem_append_right _ (List.mem_singleton.2 rfl))

/-- A player that lost was told so by the battle that it lost, or by one above the bracket. -/
theorem Tournament.told (hS : S.Valid) (h : Tournament S entry b P st losers) :
    ∀ {p : Pid} {up down : List Status}, (∀ n ∈ b.leaves, S.Fit (entry n)) →
    Stands S t P p up down .done → t.sent (.stdin p) = down → ∀ {n : ℤ} {q : Pid},
    b.Part p (.player n) q → ∀ r ∈ t.sent (.stdin q), Lost r →
    r ∈ down ∨ (r.current_battle_id, r) ∈ losers := by
  induction h with
  | player n =>
    intro p up down _ _ hdown n q hpart r hr _
    cases hpart
    exact Or.inl (hdown ▸ hr)
  | @battle ID kids kid' e f w rounds losers hkid hfought hend ih =>
    intro p up down hentry hdone _ n q hpart r hr hlost
    have hentry' := fun x n hn => hentry n (mem_leaves_kid ID x hn)
    cases hpart with
    | kid x hpart =>
      obtain ⟨hdone', -, hdown⟩ := hdone.over x
      rcases ih x (hentry' x) hdone' hdown hpart r hr hlost with hr | hr
      · rcases List.mem_append.1 hr with hr | hr
        · obtain ⟨init, hdowns, hinit⟩ := hfought.downs hS (fun x => (hkid x).fit (hentry' x)) x
          rw [downs, hdowns] at hr
          rcases List.mem_append.1 hr with hr | hr
          · exact absurd (hlost.1.symm.trans (hinit r hr)) (by decide)
          · obtain rfl := List.mem_singleton.1 hr
            rcases x.eq_or_eq_other w with rfl | rfl
            · exact absurd hend.winner (not_lt.2 hlost.2)
            · exact Or.inr ((hend.same _).battle ▸ List.mem_cons_self)
        · exact Or.inl (mem_passed hr).2
      · exact Or.inr (List.mem_cons_of_mem _ (Side.mem_append.2 ⟨x, hr⟩))

/-! ## Which process is which -/

/-- A process of a bracket was started with the command line that `graph` has for it. -/
theorem Forked.part {b b' : Bracket} {p q : Pid} (hpart : b.Part p b' q) : ∀ {cmd : Command},
    Forked t b p → b.Wired cmd →
    q = p ∧ b' = b ∨ ∃ cmd, t.sent (.fork q) = [cmd] ∧ b'.Wired cmd := by
  induction hpart with
  | refl b p => exact fun _ _ => Or.inl ⟨rfl, rfl⟩
  | @kid battle_ID kid p q b' x hpart ih =>
    intro cmd hforked hwired
    cases cmd with
    | player argv1 => exact hwired.elim
    | battle argv1 =>
      obtain ⟨hsent, hforked'⟩ := hforked x
      rcases ih hforked' (hwired.2 x) with ⟨rfl, rfl⟩ | hcmd
      · exact Or.inr ⟨_, hsent, hwired.2 x⟩
      · exact Or.inr hcmd

theorem Bracket.part_of_fork : ∀ {b : Bracket} {p q : Pid}, .fork q ∈ b.forks p →
    ∃ b', b.Part p b' q
  | .player _, _, _, hq => hq.elim
  | .battle _ kid, p, q, ⟨x, hq⟩ => by
    rcases hq with hq | hq
    · exact ⟨kid x, Chan.fork.inj hq ▸ .kid x (.refl _ _)⟩
    · obtain ⟨b', hpart⟩ := part_of_fork hq
      exact ⟨b', .kid x hpart⟩

theorem Bracket.exists_part {battle_ID : Char} : ∀ {b : Bracket} {p : Pid}, battle_ID ∈ b.ids →
    ∃ kid q, b.Part p (.battle battle_ID kid) q
  | .battle ID kids, p, h => by
    rcases List.mem_cons.1 h with rfl | h
    · exact ⟨kids, p, .refl _ _⟩
    · obtain ⟨x, hx⟩ := (Side.mem_append (l := fun x => (kids x).ids)).1 h
      obtain ⟨kid, q, hpart⟩ := exists_part (p := x :: p) hx
      exact ⟨kid, q, .kid x hpart⟩

theorem Bracket.Part.mem_leaves {p q : Pid} {n : ℤ} {b b' : Bracket} (h : b.Part p b' q)
    (hb' : b' = .player n) : n ∈ b.leaves := by
  induction h with
  | refl b p =>
    subst hb'
    exact List.mem_singleton.2 rfl
  | kid x h ih => exact mem_leaves_kid _ x (ih hb')

theorem Bracket.Part.mem_ids {p q : Pid} {battle_ID : Char} {kid : Side → Bracket}
    {b b' : Bracket} (h : b.Part p b' q) (hb' : b' = .battle battle_ID kid) :
    battle_ID ∈ b.ids := by
  induction h with
  | refl b p =>
    subst hb'
    exact List.mem_cons_self
  | kid x h ih => exact mem_ids_kid x (ih hb')

/-- The players of a bracket, with the battles in which they start. -/
def Bracket.seats : Bracket → Char → List (ℤ × Char)
  | .player n, parent => [(n, parent)]
  | .battle battle_ID kid, _ => (kid .left).seats battle_ID ++ (kid .right).seats battle_ID

theorem Bracket.part_of_seat {n : ℤ} {c : Char} : ∀ {b : Bracket} {p : Pid} {parent : Char},
    (n, c) ∈ b.seats parent → b = .player n ∧ c = parent ∨
      ∃ kid x q, b.Part p (.player n) (x :: q) ∧ b.Part p (.battle c kid) q
  | .player m, _, parent, h => by
    obtain ⟨rfl, rfl⟩ := Prod.mk.inj (List.mem_singleton.1 h)
    exact Or.inl ⟨rfl, rfl⟩
  | .battle ID kids, p, parent, h => by
    obtain ⟨x, hx⟩ := (Side.mem_append (l := fun x => (kids x).seats ID)).1 h
    rcases part_of_seat (p := x :: p) hx with ⟨hn, rfl⟩ | ⟨kid, y, q, hplayer, hbattle⟩
    · exact Or.inr ⟨kids, x, p, .kid x (hn ▸ .refl _ _), .refl _ _⟩
    · exact Or.inr ⟨kid, y, q, .kid x hplayer, .kid x hbattle⟩

theorem Bracket.exists_player {n : ℤ} : ∀ {b : Bracket} {p : Pid}, n ∈ b.leaves →
    ∃ q, b.Part p (.player n) q
  | .player _, p, h => ⟨p, List.mem_singleton.1 h ▸ .refl _ _⟩
  | .battle _ kids, p, h => by
    obtain ⟨x, hx⟩ := (Side.mem_append (l := fun x => (kids x).leaves)).1 h
    obtain ⟨q, hpart⟩ := exists_player (p := x :: p) hx
    exact ⟨q, .kid x hpart⟩

end Over

section Outcome

variable {S : Setup} {t : State} {o : Outcome}

/-- The losers of all battles. -/
def Outcome.lost (o : Outcome) : List (Char × Status) :=
  ('A', o.last o.winner.other) :: (o.losers .left ++ o.losers .right)

theorem Outcome.Fair.initial_fit (hS : S.Valid) : ∀ n ∈ winnersBracket.leaves,
    S.Fit (S.initial n) :=
  fun n hn => hS.initial (winners_real n hn)

/-- The agents play for the losers of the winners' bracket. -/
theorem Outcome.Fair.agents_perm (h : o.Fair S) :
    (losersBracket.leaves.map fun n => (o.entry n).real_player_id).Perm
      (players (o.losers .left)) := by
  have hids := h.upper.ids_losers
  have hplayers : players (o.losers .left) = (winnersBracket.ids.map fun c =>
      (graph c).loser).map fun n => (o.entry n).real_player_id := by
    rw [← hids, List.map_map, List.map_map]
    exact List.map_congr_left fun l hl => by simp [h.handed l hl, Setup.restore]
  rw [hplayers]
  exact agents_losers.map _

theorem Outcome.Fair.entry_fit (h : o.Fair S) (hS : S.Valid) : ∀ n ∈ losersBracket.leaves,
    S.Fit (o.entry n) := by
  intro n hn
  obtain ⟨c, hc, rfl⟩ := exists_loser n hn
  rw [← h.upper.ids_losers] at hc
  obtain ⟨l, hl, rfl⟩ := List.mem_map.1 hc
  obtain ⟨-, -, st, hfit, hsame⟩ := h.upper.loser (initial_fit hS) l hl
  rw [h.handed l hl]
  exact hS.restore hfit hsame

theorem Outcome.Fair.finalist_fit (h : o.Fair S) (hS : S.Valid) (x : Side) :
    S.Fit (o.finalist x) := by
  cases x
  · exact h.upper.fit (initial_fit hS)
  · exact h.lower.fit (h.entry_fit hS)

/-- The winner of the winners' bracket and its losers are the eight players. -/
theorem Outcome.Fair.upper_players (h : o.Fair S) :
    ((o.finalist .left).real_player_id :: players (o.losers .left)).Perm
      [0, 1, 2, 3, 4, 5, 6, 7] :=
  h.upper.players

/-- The winner of the losers' bracket and its losers are the losers of the winners' bracket. -/
theorem Outcome.Fair.lower_players (h : o.Fair S) :
    ((o.finalist .right).real_player_id :: players (o.losers .right)).Perm
      (players (o.losers .left)) :=
  h.lower.players.trans h.agents_perm

theorem Outcome.Fair.upper_nodup (h : o.Fair S) :
    ((o.finalist .left).real_player_id :: players (o.losers .left)).Nodup :=
  h.upper_players.nodup_iff.2 (by decide)

/-- The finalists are different players. -/
theorem Outcome.Fair.finalist_ne (h : o.Fair S) :
    (o.finalist .left).real_player_id ≠ (o.finalist .right).real_player_id := by
  have hmem := h.lower_players.mem_iff.1 List.mem_cons_self
  exact fun heq => (List.nodup_cons.1 h.upper_nodup).1 (heq ▸ hmem)

/-- Every process was started with the command line of its part. -/
theorem Outcome.Final.part_of_sent (h : o.Final S t) {q : Pid} {cmd : Command}
    (hsent : t.sent (.fork q) = [cmd]) : ∃ b, championship.Part [] b q ∧ b.Wired cmd := by
  by_cases hq : .fork q ∈ championship.forks []
  · obtain ⟨b, hpart⟩ := Bracket.part_of_fork hq
    rcases h.forked.part hpart championship_wired with ⟨rfl, -⟩ | ⟨cmd', hsent', hwired⟩
    · obtain ⟨q, -, x, heq⟩ := Bracket.mem_forks hq
      cases heq
    · obtain rfl := List.singleton_inj.1 (hsent.symm.trans hsent')
      exact ⟨b, hpart, hwired⟩
  · rw [h.no_fork q hq] at hsent
    cases hsent

theorem Outcome.Final.isBattle_iff (h : o.Final S t) {q : Pid} {battle_ID : Char} :
    IsBattle t q battle_ID ↔ ∃ kid, championship.Part [] (.battle battle_ID kid) q := by
  constructor
  · rintro (⟨rfl, rfl⟩ | ⟨argv1, hsent, hID⟩)
    · exact ⟨_, .refl _ _⟩
    · obtain ⟨b, hpart, hwired⟩ := h.part_of_sent hsent
      cases b with
      | player n => exact hwired.elim
      | battle ID kid => exact ⟨kid, (hID.symm.trans hwired.1) ▸ hpart⟩
  · rintro ⟨kid, hpart⟩
    rcases h.forked.part hpart championship_wired with ⟨rfl, heq⟩ | ⟨cmd, hsent, hwired⟩
    · exact Or.inl ⟨rfl, (Bracket.battle.inj heq).1⟩
    · cases cmd with
      | player argv1 => exact hwired.elim
      | battle argv1 => exact Or.inr ⟨argv1, hsent, hwired.1⟩

theorem Outcome.Final.isPlayer_iff (h : o.Final S t) {q : Pid} {n : ℤ} :
    IsPlayer t q n ↔ championship.Part [] (.player n) q := by
  constructor
  · rintro ⟨argv1, hsent, hn⟩
    obtain ⟨b, hpart, hwired⟩ := h.part_of_sent hsent
    cases b with
    | player m => exact (hwired.symm.trans hn) ▸ hpart
    | battle ID kid => exact hwired.elim
  · intro hpart
    rcases h.forked.part hpart championship_wired with ⟨rfl, heq⟩ | ⟨cmd, hsent, hwired⟩
    · cases heq
    · cases cmd with
      | player argv1 => exact ⟨argv1, hsent, hwired⟩
      | battle argv1 => exact hwired.elim

/-- What the pipes of the finalists show. -/
theorem Outcome.Final.over (h : o.Final S t) (x : Side) :
    Stands S t (o.played x) [x] (ups o.rounds x) (downs o.rounds x) .done ∧
      t.sent (.stdout [x]) = ups o.rounds x ∧ t.sent (.stdin [x]) = downs o.rounds x := by
  have hnil : passed o.winner x [] = [] := ite_self _
  have hover := h.stands.over x
  rwa [hnil, List.append_nil, List.append_nil] at hover

/-- The last battle. -/
theorem Outcome.Final.root (h : o.Final S t) (hfair : o.Fair S) (hS : S.Valid) :
    Over S t 'A' [] o.finalist o.last o.winner o.rounds := by
  refine ⟨hfair.finalist_fit hS, hfair.fought, hfair.ended, fun x => ⟨[], ?_, nofun⟩,
    fun x => ⟨[], ?_, nofun⟩⟩
  · rw [(h.over x).2.1, List.append_nil]
  · rw [(h.over x).2.2, List.append_nil]

theorem Outcome.Fair.downs_battle (h : o.Fair S) (hS : S.Valid) (x : Side) :
    ∀ r ∈ downs o.rounds x, r.current_battle_id = 'A' := by
  intro r hr
  obtain ⟨r', hr', rfl⟩ := List.mem_map.1 hr
  exact (h.fought.players hS (h.finalist_fit hS) r' hr' x).2.battle

/-- Every battle was fought between two players, and its loser is among the losers. -/
theorem Outcome.Final.battle (h : o.Final S t) (hfair : o.Fair S) (hS : S.Valid) {q : Pid}
    {battle_ID : Char} (hq : IsBattle t q battle_ID) :
    ∃ e f w rounds, Over S t battle_ID q e f w rounds ∧ (battle_ID, f w.other) ∈ o.lost ∧
      (e .left).real_player_id ≠ (e .right).real_player_id := by
  obtain ⟨kid, hpart⟩ := h.isBattle_iff.1 hq
  have hup : ∀ x, ∀ m ∈ ups o.rounds x, m.real_player_id = (o.finalist x).real_player_id := by
    intro x m hm
    obtain ⟨r, hr, rfl⟩ := List.mem_map.1 hm
    exact (hfair.fought.players hS (hfair.finalist_fit hS) r hr x).1
  have hdown : ∀ x, ∀ ids : List Char, 'A' ∉ ids →
      ∀ r ∈ downs o.rounds x, r.current_battle_id ∉ ids :=
    fun x ids hids r hr => hfair.downs_battle hS x r hr ▸ hids
  have hpart : (Bracket.battle 'A' (both (winnersBracket, losersBracket))).Part []
      (.battle battle_ID kid) q := hpart
  cases hpart with
  | refl => exact ⟨_, _, _, _, h.root hfair hS, List.mem_cons_self, hfair.finalist_ne⟩
  | kid x hpart =>
    cases x with
    | left =>
      obtain ⟨e, f, w, rounds, hbattle, hlost, hne⟩ := hfair.upper.over hS
        (Outcome.Fair.initial_fit hS) (by decide)
        (show ([0, 1, 2, 3, 4, 5, 6, 7] : List ℤ).Nodup by decide) (h.over .left).1 (hup .left)
        (hdown .left _ (by decide)) hpart
      exact ⟨e, f, w, rounds, hbattle, List.mem_cons_of_mem _ (List.mem_append_left _ hlost), hne⟩
    | right =>
      obtain ⟨e, f, w, rounds, hbattle, hlost, hne⟩ := hfair.lower.over hS
        (hfair.entry_fit hS) (by decide)
        (hfair.agents_perm.nodup_iff.2 (List.nodup_cons.1 hfair.upper_nodup).2) (h.over .right).1
        (hup .right) (hdown .right _ (by decide)) hpart
      exact ⟨e, f, w, rounds, hbattle, List.mem_cons_of_mem _ (List.mem_append_right _ hlost), hne⟩

/-- All battles have different letters. -/
theorem Outcome.Fair.ids_lost (h : o.Fair S) : o.lost.map Prod.fst = championship.ids := by
  rw [lost, List.map_cons, List.map_append, h.upper.ids_losers, h.lower.ids_losers]
  rfl

theorem Outcome.Fair.lost_unique (h : o.Fair S) {l l' : Char × Status} (hl : l ∈ o.lost)
    (hl' : l' ∈ o.lost) (heq : l.1 = l'.1) : l = l' := by
  refine List.inj_on_of_nodup_map ?_ hl hl' heq
  rw [h.ids_lost]
  decide

/-- The players lose the battles of which they are the losers. -/
theorem Outcome.Final.loses_iff (h : o.Final S t) (hfair : o.Fair S) (hS : S.Valid) {n : ℤ}
    {c : Char} : Loses t n c ↔ ∃ l ∈ o.lost, l.1 = c ∧ l.2.real_player_id = n := by
  constructor
  · rintro ⟨p, x, hp, r, hr, hlost, hid, rfl⟩
    obtain ⟨e, f, w, rounds, hbattle, hmem, -⟩ := h.battle hfair hS hp
    obtain ⟨-, rfl⟩ := (hbattle.lost_iff hS x r).1 ⟨hr, hlost, hid⟩
    exact ⟨_, hmem, rfl, rfl⟩
  · rintro ⟨⟨c, st⟩, hl, rfl, rfl⟩
    have hc : c ∈ championship.ids := hfair.ids_lost ▸ List.mem_map_of_mem hl
    obtain ⟨kid, p, hpart⟩ := Bracket.exists_part (p := []) hc
    have hp := h.isBattle_iff.2 ⟨kid, hpart⟩
    obtain ⟨e, f, w, rounds, hbattle, hmem, -⟩ := h.battle hfair hS hp
    obtain ⟨hr, hlost, hid⟩ := (hbattle.lost_iff hS w.other _).2 ⟨rfl, rfl⟩
    have hst : st = f w.other := (Prod.mk.inj (hfair.lost_unique hl hmem rfl)).2
    exact ⟨p, w.other, hp, _, hr, hlost, hid, congrArg _ hst.symm⟩

/-! ## How often a player loses -/

/-- A player is among the losers once or not at all. -/
theorem exists_loss {losers : List (Char × Status)} (hnodup : (players losers).Nodup) {n : ℤ}
    (hn : n ∈ players losers) : ∃ c ∈ losers.map Prod.fst, ∀ b,
      (∃ l ∈ losers, l.1 = b ∧ l.2.real_player_id = n) ↔ b = c := by
  obtain ⟨l, hl, rfl⟩ := List.mem_map.1 hn
  refine ⟨l.1, List.mem_map_of_mem hl, fun b => ⟨?_, ?_⟩⟩
  · rintro ⟨l', hl', rfl, heq⟩
    rw [List.inj_on_of_nodup_map hnodup hl' hl heq]
  · rintro rfl
    exact ⟨l, hl, rfl, rfl⟩

theorem no_loss {losers : List (Char × Status)} {n : ℤ} (hn : n ∉ players losers) (b : Char) :
    ¬∃ l ∈ losers, l.1 = b ∧ l.2.real_player_id = n :=
  fun ⟨_, hl, _, heq⟩ => hn (heq ▸ List.mem_map_of_mem hl)

theorem Outcome.Fair.lower_nodup (h : o.Fair S) :
    ((o.finalist .right).real_player_id :: players (o.losers .right)).Nodup :=
  h.lower_players.nodup_iff.2 (List.nodup_cons.1 h.upper_nodup).2

/-- A player loses in the winners' bracket, in the losers' bracket, or in the last battle. -/
theorem Outcome.Final.loses_cases (h : o.Final S t) (hfair : o.Fair S) (hS : S.Valid) (n : ℤ)
    (c : Char) : Loses t n c ↔
      'A' = c ∧ (o.last o.winner.other).real_player_id = n ∨
        (∃ l ∈ o.losers .left, l.1 = c ∧ l.2.real_player_id = n) ∨
        ∃ l ∈ o.losers .right, l.1 = c ∧ l.2.real_player_id = n := by
  rw [h.loses_iff hfair hS, Outcome.lost]
  simp only [List.mem_cons, List.mem_append, or_and_right, exists_or, exists_eq_left]

/-- The finalist that comes through `B` lost no battle before. -/
theorem Outcome.Final.upper_loses (h : o.Final S t) (hfair : o.Fair S) (hS : S.Valid) {b : Char}
    (hb : b ≠ 'A') : ¬Loses t (o.finalist .left).real_player_id b := by
  have hupper := (List.nodup_cons.1 hfair.upper_nodup).1
  rw [h.loses_cases hfair hS]
  rintro (⟨rfl, -⟩ | hl | hl)
  · exact hb rfl
  · exact no_loss hupper b hl
  · refine no_loss (fun hn => hupper ?_) b hl
    exact hfair.lower_players.mem_iff.1 (List.mem_cons_of_mem _ hn)

/-- The finalist that comes through `C` lost one battle before. -/
theorem Outcome.Final.lower_loses (h : o.Final S t) (hfair : o.Fair S) (hS : S.Valid) :
    ∃ c, c ≠ 'A' ∧ ∀ b, b ≠ 'A' → (Loses t (o.finalist .right).real_player_id b ↔ b = c) := by
  obtain ⟨c, hc, hloss⟩ := exists_loss (List.nodup_cons.1 hfair.upper_nodup).2
    (hfair.lower_players.mem_iff.1 List.mem_cons_self)
  rw [hfair.upper.ids_losers] at hc
  refine ⟨c, fun hA => absurd (hA ▸ hc) (by decide), fun b hb => ?_⟩
  have hlower := no_loss (List.nodup_cons.1 hfair.lower_nodup).1 b
  rw [h.loses_cases hfair hS, hloss b]
  exact ⟨fun hl => hl.elim (fun hA => absurd hA.1.symm hb) (Or.resolve_right · hlower),
    fun hl => Or.inr (Or.inl hl)⟩

/-- The other players lost two battles. -/
theorem Outcome.Final.others_lose (h : o.Final S t) (hfair : o.Fair S) (hS : S.Valid) {n : ℤ}
    (hn : 0 ≤ n ∧ n ≤ 7) (hne : ∀ x, n ≠ (o.finalist x).real_player_id) :
    ∃ c d, c ≠ d ∧ ∀ b, Loses t n b ↔ b = c ∨ b = d := by
  have hreal : n ∈ ([0, 1, 2, 3, 4, 5, 6, 7] : List ℤ) := by
    simp only [List.mem_cons]
    omega
  have hupper : n ∈ players (o.losers .left) :=
    (List.mem_cons.1 (hfair.upper_players.mem_iff.2 hreal)).resolve_left (hne .left)
  have hlower : n ∈ players (o.losers .right) :=
    (List.mem_cons.1 (hfair.lower_players.mem_iff.2 hupper)).resolve_left (hne .right)
  obtain ⟨c, hc, hloss⟩ := exists_loss (List.nodup_cons.1 hfair.upper_nodup).2 hupper
  obtain ⟨d, hd, hloss'⟩ := exists_loss (List.nodup_cons.1 hfair.lower_nodup).2 hlower
  rw [hfair.upper.ids_losers] at hc
  rw [hfair.lower.ids_losers] at hd
  have hids : ('A' :: (winnersBracket.ids ++ losersBracket.ids)).Nodup := by
    decide
  have hcd : c ≠ d := (List.nodup_append.1 (List.nodup_cons.1 hids).2).2.2 c hc d hd
  refine ⟨c, d, hcd, fun b => ?_⟩
  have hlast : ¬('A' = b ∧ (o.last o.winner.other).real_player_id = n) := by
    rintro ⟨-, rfl⟩
    exact hne o.winner.other (hfair.ended.same _).player
  rw [h.loses_cases hfair hS, hloss b, hloss' b]
  exact or_iff_right hlast

/-! ## The agents -/

/-- A player of the first battles starts in the winners' bracket. -/
theorem Outcome.Final.part_winners {p : Pid} {n : ℤ}
    (hpart : championship.Part [] (.player n) p) (hn : 0 ≤ n ∧ n ≤ 7) :
    winnersBracket.Part [.left] (.player n) p := by
  have hpart : (Bracket.battle 'A' (both (winnersBracket, losersBracket))).Part []
      (.player n) p := hpart
  cases hpart with
  | kid x hpart =>
    cases x with
    | left => exact hpart
    | right => exact absurd hn (losers_agents n (hpart.mem_leaves rfl))

/-- The agent of a battle starts in the battle that `graph` has for it. -/
theorem loser_seat : ∀ c ∈ winnersBracket.ids,
    ((graph c).loser, (graph c).loser_parent) ∈ losersBracket.seats 'A' ∧
      8 ≤ (graph c).loser ∧ (graph c).loser ≤ 14 :=
  List.forall_iff_forall_mem.1 (by decide)

/-- A real player that loses before the end hands over to an agent. -/
theorem Outcome.Final.handed (h : o.Final S t) (hfair : o.Fair S) (hS : S.Valid) {p : Pid} {n : ℤ}
    (hp : IsPlayer t p n) (hn : 0 ≤ n ∧ n ≤ 7) {r : Status} (hr : r ∈ t.sent (.stdin p))
    (hlost : Lost r) (hA : r.current_battle_id ≠ 'A') :
    8 ≤ (graph r.current_battle_id).loser ∧ (graph r.current_battle_id).loser ≤ 14 ∧
      t.sent (.fifo (graph r.current_battle_id).loser) = [S.restore r] ∧
      ∃ q, IsPlayer t q (graph r.current_battle_id).loser ∧
        IsBattle t q.tail (graph r.current_battle_id).loser_parent := by
  have hpart := part_winners (h.isPlayer_iff.1 hp) hn
  obtain ⟨hstands, -, hdown⟩ := h.over .left
  rcases hfair.upper.told hS (Outcome.Fair.initial_fit hS) hstands hdown hpart r hr hlost
    with hr | hr
  · exact absurd (hfair.downs_battle hS .left r hr) hA
  · have hc : r.current_battle_id ∈ winnersBracket.ids := by
      rw [← hfair.upper.ids_losers]
      exact List.mem_map_of_mem hr
    obtain ⟨hseat, h8, h14⟩ := loser_seat _ hc
    refine ⟨h8, h14, h.fifo _ hr, ?_⟩
    rcases Bracket.part_of_seat (p := [.right]) hseat with ⟨heq, -⟩ | ⟨kid, x, q, hplayer, hbattle⟩
    · cases heq
    · exact ⟨x :: q, h.isPlayer_iff.2 (.kid .right hplayer),
        h.isBattle_iff.2 ⟨kid, .kid .right hbattle⟩⟩

/-- Each FIFO carries one status. -/
theorem Outcome.Final.fifo_length (h : o.Final S t) (hfair : o.Fair S) {n : ℤ} (h8 : 8 ≤ n)
    (h14 : n ≤ 14) : (t.sent (.fifo n)).length = 1 := by
  have hn : n ∈ losersBracket.leaves := by
    interval_cases n <;> decide
  obtain ⟨c, hc, rfl⟩ := exists_loser n hn
  rw [← hfair.upper.ids_losers] at hc
  obtain ⟨l, hl, rfl⟩ := List.mem_map.1 hc
  rw [h.fifo l hl]
  rfl

/-- All battles were started. -/
theorem Outcome.Final.battles (h : o.Final S t) (c : Char) : (∃ p, IsBattle t p c) ↔
    c ∈ ['A', 'B', 'C', 'D', 'E', 'F', 'G', 'H', 'I', 'J', 'K', 'L', 'M', 'N'] := by
  have hids : championship.ids.Perm
      ['A', 'B', 'C', 'D', 'E', 'F', 'G', 'H', 'I', 'J', 'K', 'L', 'M', 'N'] := by
    decide
  rw [← hids.mem_iff]
  constructor
  · rintro ⟨p, hp⟩
    obtain ⟨kid, hpart⟩ := h.isBattle_iff.1 hp
    exact hpart.mem_ids rfl
  · intro hc
    obtain ⟨kid, p, hpart⟩ := Bracket.exists_part (p := []) hc
    exact ⟨p, h.isBattle_iff.2 ⟨kid, hpart⟩⟩

/-- All players were started. -/
theorem Outcome.Final.players (h : o.Final S t) (n : ℤ) :
    (∃ p, IsPlayer t p n) ↔ 0 ≤ n ∧ n ≤ 14 := by
  have hbound : ∀ n ∈ championship.leaves, 0 ≤ n ∧ n ≤ 14 := by
    decide
  constructor
  · rintro ⟨p, hp⟩
    exact hbound n ((h.isPlayer_iff.1 hp).mem_leaves rfl)
  · rintro ⟨h0, h14⟩
    have hn : n ∈ championship.leaves := by
      interval_cases n <;> decide
    obtain ⟨p, hpart⟩ := Bracket.exists_player (p := []) hn
    exact ⟨p, h.isPlayer_iff.2 hpart⟩

/-- The state in which the championship ends is that of a double elimination. -/
theorem Outcome.Final.doubleElimination (h : o.Final S t) (hfair : o.Fair S) (hS : S.Valid) :
    DoubleElimination S t := by
  refine ⟨h.battles, h.players, fun p battle_ID hp => ?_,
    fun p n hp hn r hr hlost hA => h.handed hfair hS hp hn hr hlost hA,
    fun n h8 h14 => h.fifo_length hfair h8 h14, ?_⟩
  · obtain ⟨e, f, w, rounds, hbattle, -, hne⟩ := h.battle hfair hS hp
    exact ⟨e, hbattle.enters hS, hne⟩
  · have hbattle : ∀ x, IsBattle t [x] (both ('B', 'C') x) := by
      refine Side.forall.2 ⟨h.isBattle_iff.2 ⟨_, .kid .left (.refl _ _)⟩,
        h.isBattle_iff.2 ⟨_, .kid .right (.refl _ _)⟩⟩
    refine ⟨o.finalist, o.last, o.winner, (h.root hfair hS).enters hS, hbattle .left,
      hbattle .right, fun b hb => h.upper_loses hfair hS hb, h.lower_loses hfair hS,
      fun n hn hne => h.others_lose hfair hS hn hne, fun x => ?_, hfair.ended.winner,
      hfair.ended.loser, (hfair.ended.same _).player, h.terminal⟩
    obtain ⟨init, hdowns, -⟩ := hfair.fought.downs hS (hfair.finalist_fit hS) x
    rw [(h.over x).2.2, downs, hdowns, List.getLast?_concat]

end Outcome

/-- What the pipes show does not depend on the variables of the battles. -/
theorem DoubleElimination.of_cleared {S : Setup} {t t' : State}
    (h : DoubleElimination S.cleared t') (hsent : t'.sent = t.sent) : DoubleElimination S t := by
  have hbattle : IsBattle t' = IsBattle t := by
    unfold IsBattle
    rw [hsent]
  have hplayer : IsPlayer t' = IsPlayer t := by
    unfold IsPlayer
    rw [hsent]
  have hloses : Loses t' = Loses t := by
    unfold Loses
    rw [hsent, hbattle]
  have henters : ∀ {p x e}, Enters S.cleared t' p x e → Enters S t p x e := by
    rintro p x e ⟨hhead, hlater, hfit⟩
    rw [hsent] at hhead hlater
    exact ⟨hhead, hlater, hfit.player, hfit.battle_ended_flag, hfit.HP_pos, hfit.HP_le, hfit.ATK⟩
  obtain ⟨hbattles, hplayers, hentered, hhanded, hfifo, hfinal⟩ := h
  rw [hbattle, hsent, hplayer] at hhanded
  rw [hbattle] at hbattles hentered
  rw [hplayer] at hplayers
  rw [hsent] at hfifo
  rw [hloses, hsent, hbattle] at hfinal
  obtain ⟨e, f, w, he, hfinal⟩ := hfinal
  refine ⟨hbattles, hplayers, fun p battle_ID hp => ?_, hhanded, hfifo,
    e, f, w, fun x => henters (he x), hfinal⟩
  obtain ⟨e, he, hne⟩ := hentered p battle_ID hp
  exact ⟨e, fun x => henters (he x), hne⟩

/-- Every run of the championship can be brought to its end, and every end is a double
elimination. -/
structure Eliminates (S : Setup) : Prop where
  finishes : ∀ (w : List Pid) (s : State), (network S).system.run w (start S) = some s →
    ∃ v t, (network S).system.run v s = some t ∧ Finished t
  eliminates : ∀ (w : List Pid) (t : State), (network S).system.run w (start S) = some t →
    Finished t → DoubleElimination S t

section Variables

variable {S : Setup}

theorem Setup.Valid.exists_final (hS : S.Valid) : ∃ t, Finished t ∧ DoubleElimination S t ∧
    ∀ (w : List Pid) (s : State), (network S).system.run w (start S) = some s →
      ∃ v, (network S).system.run v s = some t := by
  obtain ⟨w₀, t, o, hrun₀, hfair, hfinal⟩ := exists_outcome hS
  refine ⟨t, hfinal.finished hfair hrun₀, hfinal.doubleElimination hfair hS, fun w s hrun => ?_⟩
  obtain ⟨v, hv, -⟩ := run_completes (hfinal.settled hfair hrun₀) (fun _ => Nat.zero_le _)
    hrun₀ hrun
  exact ⟨v, hv⟩

/-- Every championship that finishes is a double elimination. -/
theorem Finished.doubleElimination (hS : S.Able) {w : List Pid} {t : State}
    (hrun : (network S).system.run w (start S) = some t) (ht : Finished t) :
    DoubleElimination S t := by
  obtain ⟨t', hrun', ht', hsent⟩ := exists_cleared_run hS hrun ht
  obtain ⟨u, -, hu, hcomplete⟩ := hS.cleared.exists_final
  obtain ⟨v, hv⟩ := hcomplete w t' hrun'
  cases v with
  | nil =>
    obtain rfl : t' = u := by simpa using hv
    exact hu.of_cleared hsent
  | cons p v =>
    obtain ⟨u', hstep, -⟩ := (network S.cleared).system.run_cons.1 hv
    cases (ht'.no_step p).symm.trans hstep

/-- One with a battle that starts with its flag set does not finish : all battles are started,
and this one never comes past its rounds. -/
theorem not_finished (hS : S.Able) {q : Pid} {argv1 : List Char}
    (hq : commandAt q = some (.battle argv1)) (hflag : (S.stat1 q).battle_ended_flag = 1)
    {w : List Pid} {t : State} (hrun : (network S).system.run w (start S) = some t) :
    ¬Finished t := by
  intro ht
  have hforked : q = [] ∨ t.sent (.fork q) ≠ [] := by
    have hbattles := (ht.doubleElimination hS hrun).battles (argv1.headD '\x00')
    obtain ⟨p, hp⟩ := hbattles.2 (commandAt_battles hq)
    rcases hp with ⟨rfl, hA⟩ | ⟨argv1', hsent, hID⟩
    · exact Or.inl (commandAt_inj hq (q := []) rfl (congrArg LogFile.battle hA))
    · have hcmd := (named_of_reachable ⟨_, _, rfl, hrun⟩).fork p _
        (hsent ▸ List.mem_singleton_self _)
      obtain rfl := commandAt_inj hq hcmd (congrArg LogFile.battle hID.symm)
      exact Or.inr (by simp [hsent])
  rcases ht q with hexit | ⟨hunforked, hsent⟩
  · rcases skipped hS hq hflag hrun with hstarts | ⟨⟨_, _, _, hproc⟩, -⟩
    · rw [hexit] at hstarts
      exact hstarts
    · cases hexit.symm.trans hproc
  · rcases hforked with rfl | hforked
    · exact root_ne_unforked ⟨_, _, rfl, hrun⟩ hunforked
    · exact hforked hsent

/-- The championship of players with hit points and attack is a double elimination exactly if
no battle finds its flag set before its first round. -/
theorem double_elimination_iff (hS : S.Able) : Eliminates S ↔
    ∀ p argv1, commandAt p = some (.battle argv1) → (S.stat1 p).battle_ended_flag ≠ 1 := by
  constructor
  · intro h p argv1 hp hflag
    obtain ⟨v, t, hrun, ht⟩ := h.finishes [] _ rfl
    exact not_finished hS hp hflag hrun ht
  · intro hflag
    refine ⟨fun w s hrun => ?_, fun w t hrun ht => ht.doubleElimination hS hrun⟩
    obtain ⟨t, ht, -, hcomplete⟩ := hS.cleared.exists_final
    have hrun' := (run_cleared hflag w).symm.trans hrun
    obtain ⟨v, hv⟩ := hcomplete w s hrun'
    have hall := (run_cleared hflag (w ++ v)).trans
      ((network S.cleared).system.run_append_eq_some.2 ⟨s, hrun', hv⟩)
    obtain ⟨s', hs', hv'⟩ := (network S).system.run_append_eq_some.1 hall
    obtain rfl := Option.some.inj (hrun.symm.trans hs')
    exact ⟨v, t, hv', ht⟩

end Variables

/-- The championship of `player_status.txt` has an end, and is a double elimination there. -/
theorem double_elimination_zeroed : ∃ w t,
    (network zeroed).system.run w (start zeroed) = some t ∧ Finished t ∧
      DoubleElimination zeroed t := by
  have h := (double_elimination_iff zeroed_valid.toAble).2 fun p _ _ => zeroed_valid.stat1 p
  obtain ⟨w, t, hrun, ht⟩ := h.finishes [] _ rfl
  exact ⟨w, t, hrun, ht, h.eliminates w t hrun ht⟩

/-- The same championship, if battle A finds its flag set. -/
def preset : Setup :=
  { zeroed with stat1 := fun p => { zeroed.stat1 p with
      battle_ended_flag := if p = [] then 1 else 0 } }

/-- It has no end. -/
theorem double_elimination_preset : preset.Able ∧
    (∀ w t, (network preset).system.run w (start preset) = some t → ¬Finished t) ∧
      ¬Eliminates preset := by
  have hS : preset.Able :=
    ⟨zeroed_valid.HP, zeroed_valid.ATK, zeroed_valid.battle_ended_flag⟩
  have hnot : ∀ w t, (network preset).system.run w (start preset) = some t → ¬Finished t :=
    fun w t hrun => not_finished hS (q := []) rfl rfl hrun
  refine ⟨hS, hnot, fun h => ?_⟩
  obtain ⟨w, t, hrun, ht⟩ := h.finishes [] _ rfl
  exact hnot w t hrun ht

end SP2022.Championship
