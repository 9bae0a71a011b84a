import Mathlib.Order.Basic
import SP2022.Championship

/-!
# One battle

A battle on its own : the rounds that two players fight (`Fought`), what a round does to
their statuses (`round_spec`), that a battle between players with hit points and attack ends
(`exists_fought`), and that it ends with one loser (`Fought.ends`).
-/

namespace SP2022.Championship

/-- A value for each side. -/
def both {α : Type} (r : α × α) : Side → α
  | .left => r.1
  | .right => r.2

theorem Side.forall {P : Side → Prop} : (∀ x, P x) ↔ P .left ∧ P .right := by
  constructor
  · exact fun h => ⟨h .left, h .right⟩
  · rintro ⟨hl, hr⟩ (_ | _)
    · exact hl
    · exact hr

theorem Side.mem_append {α : Type} {l : Side → List α} {a : α} :
    a ∈ l .left ++ l .right ↔ ∃ x, a ∈ l x := by
  rw [List.mem_append]
  constructor
  · rintro (h | h)
    · exact ⟨.left, h⟩
    · exact ⟨.right, h⟩
  · rintro ⟨_ | _, h⟩
    · exact Or.inl h
    · exact Or.inr h

theorem Side.nodup_append {α : Type} {l : Side → List α} (h : (l .left ++ l .right).Nodup)
    (x : Side) : (l x).Nodup := by
  obtain ⟨hl, hr, -⟩ := List.nodup_append.1 h
  cases x
  · exact hl
  · exact hr

@[simp] theorem Side.other_ne (x : Side) : x.other ≠ x := by
  cases x <;> simp [Side.other]

@[simp] theorem Side.other_other (x : Side) : x.other.other = x := by
  cases x <;> rfl

theorem Side.eq_or_eq_other (x w : Side) : x = w ∨ x = w.other := by
  cases x <;> cases w <;> simp [Side.other]

/-- A round, as a function of the two statuses. -/
def round (battle_ID : Char) (e : Side → Status) : Side → Status :=
  both (playRound battle_ID (e .left) (e .right))

/-- What goes up to a battle in a round, and what comes down. -/
structure Round where
  up : Side → Status
  down : Side → Status

/-- The rounds of a battle that starts with the statuses `e` and ends with `f`. -/
inductive Fought (battle_ID : Char) : (Side → Status) → List Round → (Side → Status) → Prop
  | last {e : Side → Status} (h : (round battle_ID e .left).battle_ended_flag = 1) :
    Fought battle_ID e [⟨e, round battle_ID e⟩] (round battle_ID e)
  | next {e f : Side → Status} {rounds : List Round}
    (h : (round battle_ID e .left).battle_ended_flag ≠ 1)
    (rest : Fought battle_ID (round battle_ID e) rounds f) :
    Fought battle_ID e (⟨e, round battle_ID e⟩ :: rounds) f

/-! ## The players -/

/-- The assumptions on `player_status.txt`. -/
structure Setup.Able (S : Setup) : Prop where
  HP : ∀ n, 0 ≤ n → n ≤ 7 → 1 ≤ (S.file n).HP
  ATK : ∀ n, 0 ≤ n → n ≤ 7 → 1 ≤ (S.file n).ATK
  battle_ended_flag : ∀ n, 0 ≤ n → n ≤ 7 → (S.file n).battle_ended_flag = 0

/-- The assumptions on `player_status.txt` and on the variables of the battles. -/
structure Setup.Valid (S : Setup) : Prop extends S.Able where
  stat1 : ∀ p, (S.stat1 p).battle_ended_flag ≠ 1

/-- A status as it enters a battle. -/
structure Setup.Fit (S : Setup) (st : Status) : Prop where
  player : 0 ≤ st.real_player_id ∧ st.real_player_id ≤ 7
  battle_ended_flag : st.battle_ended_flag = 0
  HP_pos : 1 ≤ st.HP
  HP_le : st.HP ≤ (S.file st.real_player_id).HP
  ATK : st.ATK = (S.file st.real_player_id).ATK

/-- A winner before its next battle. -/
def Setup.recover (S : Setup) (st : Status) : Status :=
  { st with
    HP := st.HP + ((S.file st.real_player_id).HP - st.HP).tdiv 2
    battle_ended_flag := 0 }

/-- A loser of the winners' bracket before its next battle. -/
def Setup.restore (S : Setup) (st : Status) : Status :=
  { st with HP := (S.file st.real_player_id).HP, battle_ended_flag := 0 }

/-- The same player, in the battle `battle_ID`. -/
structure Same (battle_ID : Char) (st st' : Status) : Prop where
  player : st'.real_player_id = st.real_player_id
  ATK : st'.ATK = st.ATK
  HP_le : st'.HP ≤ st.HP
  battle : st'.current_battle_id = battle_ID

/-- A round goes on with both players, or ends with one of them left. -/
def Decided (st st' r r' : Status) : Prop :=
  (r.battle_ended_flag = 0 ∧ r'.battle_ended_flag = 0 ∧ 1 ≤ r.HP ∧ 1 ≤ r'.HP ∧
      r.HP < st.HP ∧ r'.HP < st'.HP) ∨
    (r.battle_ended_flag = 1 ∧ r'.battle_ended_flag = 1 ∧
      (0 < r.HP ∧ r'.HP ≤ 0 ∨ r.HP ≤ 0 ∧ 0 < r'.HP))

/-- What a blow of a player takes, in the battle `battle_ID`. -/
def Status.blow (st : Status) (battle_ID : Char) : ℤ :=
  if (graph battle_ID).attr = st.attr then st.ATK * 2 else st.ATK

theorem blow_bounds {st : Status} (battle_ID : Char) (hATK : 0 ≤ st.ATK) :
    st.ATK ≤ st.blow battle_ID ∧ st.blow battle_ID ≤ 2 * st.ATK := by
  unfold Status.blow
  split_ifs <;> omega

/-- `Battle` ends with the first blow, or with the second one, or leaves both with hit
points. -/
theorem Battle_cases (stat1 stat2 : Status) (battle_ID : Char) :
    ((stat1.HP ≤ 0 ∨ stat2.HP - stat1.blow battle_ID ≤ 0) ∧ Battle stat1 stat2 battle_ID =
        ({ stat1 with battle_ended_flag := 1 },
          { stat2 with HP := stat2.HP - stat1.blow battle_ID, battle_ended_flag := 1 })) ∨
      (0 < stat1.HP ∧ 0 < stat2.HP - stat1.blow battle_ID ∧ stat1.HP - stat2.blow battle_ID ≤ 0 ∧
        Battle stat1 stat2 battle_ID =
          ({ stat1 with HP := stat1.HP - stat2.blow battle_ID, battle_ended_flag := 1 },
            { stat2 with HP := stat2.HP - stat1.blow battle_ID, battle_ended_flag := 1 })) ∨
      0 < stat2.HP - stat1.blow battle_ID ∧ 0 < stat1.HP - stat2.blow battle_ID ∧
        Battle stat1 stat2 battle_ID =
          ({ stat1 with HP := stat1.HP - stat2.blow battle_ID },
            { stat2 with HP := stat2.HP - stat1.blow battle_ID }) := by
  by_cases hfirst : stat1.HP ≤ 0 ∨ stat2.HP - stat1.blow battle_ID ≤ 0
  · refine .inl ⟨hfirst, ?_⟩
    unfold Status.blow at hfirst
    simp only [Battle, battleEnd, Status.blow, hfirst, if_true]
  · refine .inr ?_
    by_cases hsecond :
        stat1.HP - stat2.blow battle_ID ≤ 0 ∨ stat2.HP - stat1.blow battle_ID ≤ 0
    · refine .inl ⟨by omega, by omega, by omega, ?_⟩
      unfold Status.blow at hfirst hsecond
      simp only [Battle, battleEnd, Status.blow, hfirst, hsecond, if_true, if_false]
    · refine .inr ⟨by omega, by omega, ?_⟩
      unfold Status.blow at hfirst hsecond
      simp only [Battle, battleEnd, Status.blow, hfirst, hsecond, if_false]

/-- `Battle` changes hit points and the flag only. -/
theorem Battle_keeps (stat1 stat2 : Status) (battle_ID : Char) :
    (∃ hp flag, (Battle stat1 stat2 battle_ID).1 =
        { stat1 with HP := hp, battle_ended_flag := flag }) ∧
      ∃ hp flag, (Battle stat1 stat2 battle_ID).2 =
        { stat2 with HP := hp, battle_ended_flag := flag } := by
  rcases Battle_cases stat1 stat2 battle_ID with ⟨-, h⟩ | ⟨-, -, -, h⟩ | ⟨-, -, h⟩ <;>
    exact h ▸ ⟨⟨_, _, rfl⟩, ⟨_, _, rfl⟩⟩

/-- `Battle` sets both flags if it leaves one of the two without hit points, and it does not
leave both so : the second one strikes only if it is left with some. -/
theorem Battle_settles {stat1 stat2 : Status} (battle_ID : Char) (hHP : 0 < stat1.HP) :
    ((Battle stat1 stat2 battle_ID).1.battle_ended_flag = stat1.battle_ended_flag ∧
        (Battle stat1 stat2 battle_ID).2.battle_ended_flag = stat2.battle_ended_flag ∧
        0 < (Battle stat1 stat2 battle_ID).1.HP ∧ 0 < (Battle stat1 stat2 battle_ID).2.HP) ∨
      (Battle stat1 stat2 battle_ID).1.battle_ended_flag = 1 ∧
        (Battle stat1 stat2 battle_ID).2.battle_ended_flag = 1 ∧
        (0 < (Battle stat1 stat2 battle_ID).1.HP ∧ (Battle stat1 stat2 battle_ID).2.HP ≤ 0 ∨
          (Battle stat1 stat2 battle_ID).1.HP ≤ 0 ∧ 0 < (Battle stat1 stat2 battle_ID).2.HP) := by
  rcases Battle_cases stat1 stat2 battle_ID with
    ⟨hend, h⟩ | ⟨-, hleft, hend, h⟩ | ⟨hleft2, hleft1, h⟩
  · rw [h]
    exact .inr ⟨rfl, rfl, .inl ⟨hHP, hend.resolve_left (not_le.2 hHP)⟩⟩
  · rw [h]
    exact .inr ⟨rfl, rfl, .inr ⟨hend, hleft⟩⟩
  · rw [h]
    exact .inl ⟨rfl, rfl, hleft1, hleft2⟩

/-- What `Battle` takes from the hit points : at most twice the attack of the other, and at
least the attack if both are left with some. -/
theorem Battle_damage {stat1 stat2 : Status} (battle_ID : Char) (hATK1 : 0 ≤ stat1.ATK)
    (hATK2 : 0 ≤ stat2.ATK) :
    (stat1.HP - 2 * stat2.ATK ≤ (Battle stat1 stat2 battle_ID).1.HP ∧
        (Battle stat1 stat2 battle_ID).1.HP ≤ stat1.HP) ∧
      (stat2.HP - 2 * stat1.ATK ≤ (Battle stat1 stat2 battle_ID).2.HP ∧
        (Battle stat1 stat2 battle_ID).2.HP ≤ stat2.HP) ∧
      (0 < (Battle stat1 stat2 battle_ID).1.HP → 0 < (Battle stat1 stat2 battle_ID).2.HP →
        (Battle stat1 stat2 battle_ID).1.HP ≤ stat1.HP - stat2.ATK ∧
          (Battle stat1 stat2 battle_ID).2.HP ≤ stat2.HP - stat1.ATK) := by
  have h1 := blow_bounds battle_ID hATK1
  have h2 := blow_bounds battle_ID hATK2
  rcases Battle_cases stat1 stat2 battle_ID with ⟨hend, h⟩ | ⟨-, -, hend, h⟩ | ⟨-, -, h⟩ <;>
    rw [h] <;> dsimp only <;> omega

/-- In a round one of the sides strikes first. -/
theorem round_first (battle_ID : Char) (e : Side → Status) : ∃ x,
    round battle_ID e x = (Battle { e x with current_battle_id := battle_ID }
      { e x.other with current_battle_id := battle_ID } battle_ID).1 ∧
    round battle_ID e x.other = (Battle { e x with current_battle_id := battle_ID }
      { e x.other with current_battle_id := battle_ID } battle_ID).2 := by
  have hround : ∀ x, round battle_ID e x = both (playRound battle_ID (e .left) (e .right)) x :=
    fun x => rfl
  simp only [hround, playRound]
  split_ifs
  · exact ⟨.left, rfl, rfl⟩
  · exact ⟨.right, rfl, rfl⟩

/-- A round keeps the players. -/
theorem round_keeps (battle_ID : Char) (e : Side → Status) (x : Side) :
    ∃ hp flag, round battle_ID e x = { e x with
      current_battle_id := battle_ID, HP := hp, battle_ended_flag := flag } := by
  obtain ⟨y, hfirst, hsecond⟩ := round_first battle_ID e
  obtain ⟨⟨hp1, flag1, h1⟩, ⟨hp2, flag2, h2⟩⟩ := Battle_keeps
    { e y with current_battle_id := battle_ID } { e y.other with current_battle_id := battle_ID }
    battle_ID
  rcases Side.eq_or_eq_other x y with rfl | rfl
  · exact ⟨hp1, flag1, hfirst.trans h1⟩
  · exact ⟨hp2, flag2, hsecond.trans h2⟩

/-- A round leaves both sides with hit points and their flags as they are, or sets both flags
and leaves one side with hit points. -/
theorem round_settles (battle_ID : Char) {e : Side → Status} (hHP : ∀ x, 0 < (e x).HP) :
    (∀ x, (round battle_ID e x).battle_ended_flag = (e x).battle_ended_flag ∧
        0 < (round battle_ID e x).HP) ∨
      (∀ x, (round battle_ID e x).battle_ended_flag = 1) ∧
        ∃ w, 0 < (round battle_ID e w).HP ∧ (round battle_ID e w.other).HP ≤ 0 := by
  obtain ⟨y, hfirst, hsecond⟩ := round_first battle_ID e
  have h := @Battle_settles { e y with current_battle_id := battle_ID }
    { e y.other with current_battle_id := battle_ID } battle_ID (hHP y)
  rw [← hfirst, ← hsecond] at h
  rcases h with ⟨hflag, hflag', hpos, hpos'⟩ | ⟨hflag, hflag', hend⟩
  · refine Or.inl fun x => ?_
    rcases Side.eq_or_eq_other x y with rfl | rfl
    · exact ⟨hflag, hpos⟩
    · exact ⟨hflag', hpos'⟩
  · refine Or.inr ⟨fun x => ?_, ?_⟩
    · rcases Side.eq_or_eq_other x y with rfl | rfl
      · exact hflag
      · exact hflag'
    · rcases hend with ⟨hw, hlose⟩ | ⟨hlose, hw⟩
      · exact ⟨y, hw, hlose⟩
      · refine ⟨y.other, hw, ?_⟩
        rwa [Side.other_other]

/-- What a round takes from the hit points. -/
theorem round_damage (battle_ID : Char) {e : Side → Status} (hATK : ∀ x, 0 ≤ (e x).ATK)
    (x : Side) :
    (e x).HP - 2 * (e x.other).ATK ≤ (round battle_ID e x).HP ∧
      (round battle_ID e x).HP ≤ (e x).HP ∧
      ((∀ y, 0 < (round battle_ID e y).HP) →
        (round battle_ID e x).HP ≤ (e x).HP - (e x.other).ATK) := by
  obtain ⟨y, hfirst, hsecond⟩ := round_first battle_ID e
  obtain ⟨h1, h2, hboth⟩ := @Battle_damage { e y with current_battle_id := battle_ID }
    { e y.other with current_battle_id := battle_ID } battle_ID (hATK y) (hATK y.other)
  rw [← hfirst, ← hsecond] at hboth
  rw [← hfirst] at h1
  rw [← hsecond] at h2
  rcases Side.eq_or_eq_other x y with rfl | rfl
  · exact ⟨h1.1, h1.2, fun hpos => (hboth (hpos _) (hpos _)).1⟩
  · rw [Side.other_other]
    exact ⟨h2.1, h2.2, fun hpos => (hboth (hpos _) (hpos _)).2⟩

/-- A round keeps the players. It goes on if both have hit points left, and else it ends the
battle with one loser. -/
theorem round_spec (battle_ID : Char) {e : Side → Status} (hHP : ∀ x, 1 ≤ (e x).HP)
    (hATK : ∀ x, 1 ≤ (e x).ATK) (hflag : ∀ x, (e x).battle_ended_flag = 0) :
    (∀ x, Same battle_ID (e x) (round battle_ID e x)) ∧
      Decided (e .left) (e .right) (round battle_ID e .left) (round battle_ID e .right) := by
  have hdamage := round_damage battle_ID fun x => Int.le_of_lt (hATK x)
  refine ⟨fun x => ?_, ?_⟩
  · obtain ⟨hp, flag, heq⟩ := round_keeps battle_ID e x
    have hle := (hdamage x).2.1
    rw [heq] at hle ⊢
    exact ⟨rfl, rfl, hle, rfl⟩
  · rcases round_settles battle_ID hHP with hgo | ⟨hend, w, hw, hlose⟩
    · have hless : ∀ x, (round battle_ID e x).HP < (e x).HP := fun x => by
        have hx := (hdamage x).2.2 fun y => (hgo y).2
        have hother := hATK x.other
        omega
      exact .inl ⟨(hgo _).1.trans (hflag _), (hgo _).1.trans (hflag _), (hgo _).2, (hgo _).2,
        hless _, hless _⟩
    · refine .inr ⟨hend _, hend _, ?_⟩
      cases w
      · exact .inl ⟨hw, hlose⟩
      · exact .inr ⟨hlose, hw⟩

/-! ## A whole battle -/

theorem Same.trans {battle_ID : Char} {st st' st'' : Status} (h : Same battle_ID st st')
    (h' : Same battle_ID st' st'') : Same battle_ID st st'' :=
  ⟨h'.player.trans h.player, h'.ATK.trans h.ATK, h'.HP_le.trans h.HP_le, h'.battle⟩

/-- The end of a battle that `w` wins. -/
structure Ended (battle_ID : Char) (e f : Side → Status) (w : Side) : Prop where
  same : ∀ x, Same battle_ID (e x) (f x)
  battle_ended_flag : ∀ x, (f x).battle_ended_flag = 1
  winner : 0 < (f w).HP
  loser : (f w.other).HP ≤ 0

section Players

variable {S : Setup} {battle_ID : Char} {e f : Side → Status} {rounds : List Round}

theorem Setup.Fit.same {st st' : Status} (h : S.Fit st) (hsame : Same battle_ID st st')
    (hflag : st'.battle_ended_flag = 0) (hHP : 1 ≤ st'.HP) : S.Fit st' := by
  refine ⟨hsame.player ▸ h.player, hflag, hHP, ?_, ?_⟩
  · rw [hsame.player]
    exact hsame.HP_le.trans h.HP_le
  · rw [hsame.player, hsame.ATK, h.ATK]

/-- A round of players that can fight goes on with such players, or ends the battle. -/
theorem Setup.Valid.round_cases (hS : S.Valid) (battle_ID : Char) (he : ∀ x, S.Fit (e x)) :
    (∀ x, Same battle_ID (e x) (round battle_ID e x)) ∧
      ((∀ x, S.Fit (round battle_ID e x) ∧ (round battle_ID e x).HP < (e x).HP) ∨
        ∃ w, Ended battle_ID e (round battle_ID e) w) := by
  have hATK : ∀ x, 1 ≤ (e x).ATK := fun x =>
    (he x).ATK ▸ hS.ATK _ (he x).player.1 (he x).player.2
  obtain ⟨hsame, h | ⟨hl, hr, hend⟩⟩ := round_spec battle_ID (fun x => (he x).HP_pos) hATK
    fun x => (he x).battle_ended_flag
  · obtain ⟨hl, hr, hl1, hr1, hl2, hr2⟩ := h
    refine ⟨hsame, .inl (Side.forall.2 ⟨⟨(he _).same (hsame _) hl hl1, hl2⟩,
      ⟨(he _).same (hsame _) hr hr1, hr2⟩⟩)⟩
  · refine ⟨hsame, .inr ?_⟩
    rcases hend with ⟨hw, hlose⟩ | ⟨hlose, hw⟩
    · exact ⟨.left, hsame, Side.forall.2 ⟨hl, hr⟩, hw, hlose⟩
    · exact ⟨.right, hsame, Side.forall.2 ⟨hl, hr⟩, hw, hlose⟩

/-- A battle between players that can fight ends. -/
theorem Setup.Valid.exists_fought (hS : S.Valid) (battle_ID : Char) : ∀ (n : ℕ)
    {e : Side → Status}, (∀ x, S.Fit (e x)) → (e .left).HP ≤ n →
    ∃ rounds f, Fought battle_ID e rounds f
  | 0, e, he, hn => by
    have := (he .left).HP_pos
    omega
  | n + 1, e, he, hn => by
    obtain ⟨-, h | ⟨w, h⟩⟩ := hS.round_cases battle_ID he
    · have hflag := (h .left).1.battle_ended_flag
      obtain ⟨rounds, f, hf⟩ := hS.exists_fought battle_ID n (fun x => (h x).1) (by
        have := (h .left).2
        omega)
      exact ⟨_, f, .next (by omega) hf⟩
    · exact ⟨_, _, .last (h.battle_ended_flag .left)⟩

/-- A battle between players that can fight ends with one loser. -/
theorem Fought.ends (h : Fought battle_ID e rounds f) (hS : S.Valid) (he : ∀ x, S.Fit (e x)) :
    ∃ w, Ended battle_ID e f w := by
  induction h with
  | last hlast =>
    obtain ⟨-, hgo | hend⟩ := hS.round_cases battle_ID he
    · rw [(hgo .left).1.battle_ended_flag] at hlast
      cases hlast
    · exact hend
  | next hnext rest ih =>
    obtain ⟨hsame, hgo | ⟨w, hend⟩⟩ := hS.round_cases battle_ID he
    · obtain ⟨w, hw⟩ := ih fun x => (hgo x).1
      exact ⟨w, fun x => (hsame x).trans (hw.same x), hw.battle_ended_flag, hw.winner, hw.loser⟩
    · exact absurd (hend.battle_ended_flag .left) hnext

/-- The statuses with which a battle starts are the first that it reads. -/
theorem Fought.head (h : Fought battle_ID e rounds f) (x : Side) :
    (rounds.map fun r => r.up x).head? = some (e x) := by
  cases h with
  | last hlast => rfl
  | next hnext rest => rfl

theorem Fought.ne_nil (h : Fought battle_ID e rounds f) : rounds ≠ [] := by
  cases h <;> exact List.cons_ne_nil _ _

/-- All rounds are fought by the same players. -/
theorem Fought.players (h : Fought battle_ID e rounds f) (hS : S.Valid) (he : ∀ x, S.Fit (e x)) :
    ∀ r ∈ rounds, ∀ x, (r.up x).real_player_id = (e x).real_player_id ∧
      Same battle_ID (e x) (r.down x) := by
  induction h with
  | last hlast =>
    intro r hr x
    obtain rfl := List.mem_singleton.1 hr
    exact ⟨rfl, (hS.round_cases _ he).1 x⟩
  | next hnext rest ih =>
    obtain ⟨hsame, hgo | ⟨w, hend⟩⟩ := hS.round_cases battle_ID he
    · intro r hr x
      rcases List.mem_cons.1 hr with rfl | hr
      · exact ⟨rfl, hsame x⟩
      · obtain ⟨hup, hdown⟩ := ih (fun x => (hgo x).1) r hr x
        exact ⟨hup.trans (hsame x).player, (hsame x).trans hdown⟩
    · exact absurd (hend.battle_ended_flag .left) hnext

/-- Only the last round ends the battle. -/
theorem Fought.downs (h : Fought battle_ID e rounds f) (hS : S.Valid) (he : ∀ x, S.Fit (e x))
    (x : Side) : ∃ init : List Status, (rounds.map fun r => r.down x) = init ++ [f x] ∧
      ∀ st ∈ init, st.battle_ended_flag = 0 := by
  induction h with
  | last hlast => exact ⟨[], rfl, by simp⟩
  | next hnext rest ih =>
    obtain ⟨-, hgo | ⟨w, hend⟩⟩ := hS.round_cases battle_ID he
    · obtain ⟨init, heq, hinit⟩ := ih fun x => (hgo x).1
      refine ⟨round battle_ID _ x :: init, by rw [List.map_cons, heq]; rfl,
        fun st hst => ?_⟩
      rcases List.mem_cons.1 hst with rfl | hst
      · exact (hgo x).1.battle_ended_flag
      · exact hinit st hst
    · exact absurd (hend.battle_ended_flag .left) hnext

theorem Setup.Fit.recover {st : Status} (h : S.Fit st) {st' : Status}
    (hsame : Same battle_ID st st') (hHP : 0 < st'.HP) : S.Fit (S.recover st') := by
  have hle : st'.HP ≤ (S.file st'.real_player_id).HP := by
    rw [hsame.player]
    exact hsame.HP_le.trans h.HP_le
  have hdiv := Int.tdiv_eq_ediv_of_nonneg (b := 2) (Int.sub_nonneg.2 hle)
  refine ⟨?_, rfl, ?_, ?_, ?_⟩
  · exact hsame.player ▸ h.player
  · simp only [Setup.recover, hdiv]
    omega
  · simp only [Setup.recover, hdiv]
    omega
  · exact hsame.ATK.trans (h.ATK.trans (congrArg _ (congrArg _ hsame.player.symm)))

theorem Setup.Valid.restore (hS : S.Valid) {st st' : Status} (h : S.Fit st)
    (hsame : Same battle_ID st st') : S.Fit (S.restore st') := by
  have hplayer : 0 ≤ st'.real_player_id ∧ st'.real_player_id ≤ 7 := hsame.player ▸ h.player
  refine ⟨hplayer, rfl, hS.HP _ hplayer.1 hplayer.2, le_rfl, ?_⟩
  exact hsame.ATK.trans (h.ATK.trans (congrArg _ (congrArg _ hsame.player.symm)))

end Players

end SP2022.Championship
