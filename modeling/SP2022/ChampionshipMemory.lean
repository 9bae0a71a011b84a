import SP2022.Championship

/-!
# What a battle does with uninitialized memory

`main` of `battle` tests `stat1.battle_ended_flag` before it has read anything into `stat1`.
`acts` is what one process does with the values that come to it, and `memory_irrelevant_iff`
compares two processes with different first contents of `stat1` and `stat2` : whether they do
the same depends on that test (`Harmless`), since the battle writes over both variables
before it uses anything else of them (`acts_playRead`).
-/

namespace SP2022.Championship

/-! ## One process -/

/-- What comes to a process : the values of the channels it reads, as far as they come, and
the flags that go up. -/
structure Arrivals where
  value : (c : Chan) → ℕ → Option c.Value
  flag : Flag → Bool

/-- What a battle does : reads, writes, and the choice of `wonBattle`, and of `winner` in the
process `[]`. -/
inductive Act
  | read (c : Chan) (v : c.Value)
  | write (c : Chan) (v : c.Value)
  | select (wonBattle : Side) (winner : Option ℤ)

/-- The side that won, with the `stat` of its player. -/
def selected (stat1 stat2 : Status) : Side × Status :=
  if stat1.HP ≤ 0 then (.right, stat2) else (.left, stat1)

/-- What the process `p` chooses after a `wait`. -/
def chosen (p : Pid) : Local → List Act
  | .waitLoser _ stat1 stat2 =>
    let (won, stat) := selected stat1 stat2
    [.select won (if p = [] then some stat.real_player_id else none)]
  | _ => []

/-- What the process `p` does in its next operations, with `got` values read before. -/
def acts (S : Setup) (p : Pid) (A : Arrivals) : ℕ → Local → (Chan → ℕ) → List Act
  | 0, _, _ => []
  | n + 1, l, got =>
    match op S p l with
    | .read c k =>
      match A.value c (got c) with
      | some v => .read c v :: acts S p A n (k v) (Function.update got c (got c + 1))
      | none => []
    | .write c v l' => .write c v :: acts S p A n l' got
    | .raise _ l' => acts S p A n l' got
    | .await ready l' => if ready A.flag then chosen p l ++ acts S p A n l' got else []
    | .halt => []

/-- From the states `l` and `l'` the process `p` does the same. -/
def SameActs (S : Setup) (p : Pid) (A : Arrivals) (l l' : Local) : Prop :=
  ∀ n, (∃ m, acts S p A n l (fun _ => 0) <+: acts S p A m l' fun _ => 0) ∧
    ∃ m, acts S p A n l' (fun _ => 0) <+: acts S p A m l fun _ => 0

/-- The first contents `a` and `b` of `stat1` and `stat2` lead to the same : to the battle, or
past it to the same winner, or nothing comes to a process that goes to the battle and to one
that goes past it. -/
inductive Harmless (p : Pid) (A : Arrivals) (a b : Status × Status) : Prop
  | played : a.1.battle_ended_flag ≠ 1 → b.1.battle_ended_flag ≠ 1 → Harmless p A a b
  | skipped : a.1.battle_ended_flag = 1 → b.1.battle_ended_flag = 1 →
    (waited p 1 A.flag = true → (selected a.1 a.2).1 = (selected b.1 b.2).1 ∧
      (p = [] → (selected a.1 a.2).2.real_player_id = (selected b.1 b.2).2.real_player_id) ∧
      (p ≠ [] → (0 < (selected a.1 a.2).2.HP ↔ 0 < (selected b.1 b.2).2.HP) ∨
        A.value (.stdout ((selected a.1 a.2).1 :: p)) 0 = none)) → Harmless p A a b
  | stuck : (a.1.battle_ended_flag = 1 ↔ b.1.battle_ended_flag ≠ 1) →
    waited p 1 A.flag = false → A.value (.stdout (.left :: p)) 0 = none → Harmless p A a b

section Acts

variable {S : Setup} {p : Pid} {A : Arrivals} {battle_ID : Char} {n : ℕ} {got : Chan → ℕ}
  {l l' : Local} {stat1 stat2 : Status}

theorem SameActs.symm (h : SameActs S p A l l') : SameActs S p A l' l := fun n => (h n).symm

theorem SameActs.of_eq (h : ∀ n, acts S p A n l (fun _ => 0) = acts S p A n l' fun _ => 0) :
    SameActs S p A l l' := by
  refine fun n => ⟨⟨n, ?_⟩, n, ?_⟩
  · rw [h n]
  · rw [h n]

/-- The acts depend on the operation, and on the choice if it is a `wait`. -/
theorem acts_congr (hop : op S p l = op S p l') (hchosen : chosen p l = chosen p l') :
    acts S p A n l got = acts S p A n l' got := by
  cases n with
  | zero => rfl
  | succ n => simp only [acts, hop, hchosen]

/-- The battle writes over both variables before it uses them. -/
theorem acts_playRead (t1 t2 : Status) :
    acts S p A n (.playRead battle_ID .left stat1 stat2) got =
      acts S p A n (.playRead battle_ID .left t1 t2) got := by
  cases n with
  | zero => rfl
  | succ n =>
    have hcongr : ∀ v got', acts S p A n (.playRead battle_ID .right v stat2) got' =
        acts S p A n (.playRead battle_ID .right v t2) got' := fun v got' => acts_congr rfl rfl
    simp only [acts, op, hcongr]

theorem acts_waitWinner : acts S p A n .waitWinner got = [] := by
  match n with
  | 0 => rfl
  | 1 => simp [acts, op, chosen]
  | 2 => simp [acts, op, chosen]
  | n + 3 => simp [acts, op, chosen]

/-- Past the battle. -/
theorem acts_waitLoser : acts S p A (n + 1) (.waitLoser battle_ID stat1 stat2) got =
    if waited p 1 A.flag = true then
      .select (selected stat1 stat2).1
          (if p = [] then some (selected stat1 stat2).2.real_player_id else none) ::
        acts S p A n (afterBattle p battle_ID stat1 stat2) got
    else [] := by
  simp only [acts, op, chosen, List.singleton_append]

theorem afterBattle_eq : afterBattle p battle_ID stat1 stat2 =
    if p = [] then .print (selected stat1 stat2).2.real_player_id
    else passLoop battle_ID (selected stat1 stat2).1 (selected stat1 stat2).2 := by
  by_cases hp : p = [] <;> by_cases hHP : stat1.HP ≤ 0 <;>
    simp [afterBattle, selected, hp, hHP]

theorem playLoop_of_ne (h : stat1.battle_ended_flag ≠ 1) :
    playLoop battle_ID stat1 stat2 = .playRead battle_ID .left stat1 stat2 := if_pos h

theorem playLoop_of_eq (h : stat1.battle_ended_flag = 1) :
    playLoop battle_ID stat1 stat2 = .waitLoser battle_ID stat1 stat2 := if_neg (not_not.2 h)

/-- A process that waits for good does nothing. -/
theorem acts_waitLoser_blocked (hwait : waited p 1 A.flag = false) :
    acts S p A n (.waitLoser battle_ID stat1 stat2) got = [] := by
  cases n with
  | zero => rfl
  | succ n => rw [acts_waitLoser, if_neg (by simp [hwait])]

/-- Neither does one that nothing comes to. -/
theorem acts_playRead_blocked (hvalue : A.value (.stdout (.left :: p)) 0 = none) :
    acts S p A n (.playRead battle_ID .left stat1 stat2) (fun _ => 0) = [] := by
  cases n with
  | zero => rfl
  | succ n => simp only [acts, op, hvalue]

/-- The first act of the battle is a read. -/
theorem acts_playRead_cases :
    acts S p A n (.playRead battle_ID .left stat1 stat2) (fun _ => 0) = [] ∨
    ∃ v rest, acts S p A n (.playRead battle_ID .left stat1 stat2) (fun _ => 0) =
      .read (.stdout (.left :: p)) v :: rest := by
  cases n with
  | zero => exact Or.inl rfl
  | succ n =>
    simp only [acts, op]
    cases A.value (.stdout (.left :: p)) 0 with
    | none => exact Or.inl rfl
    | some v => exact Or.inr ⟨v, _, rfl⟩

/-- The passing mode reads first, if it starts. -/
theorem acts_passLoop {won : Side} {stat : Status} (hHP : 0 < stat.HP) :
    acts S p A (n + 1) (passLoop battle_ID won stat) got =
      match A.value (.stdout (won :: p)) (got (.stdout (won :: p))) with
      | some v => .read (.stdout (won :: p)) v :: acts S p A n (.passUp battle_ID won v)
          (Function.update got (.stdout (won :: p)) (got (.stdout (won :: p)) + 1))
      | none => [] := by
  rw [passLoop, if_pos hHP]
  simp only [acts, op]
  cases A.value (.stdout (won :: p)) (got (.stdout (won :: p))) <;> rfl

theorem acts_passLoop_done {won : Side} {stat : Status} (hHP : ¬0 < stat.HP) :
    acts S p A n (passLoop battle_ID won stat) got = [] := by
  rw [passLoop, if_neg hHP]
  exact acts_waitWinner

/-- The passing mode depends on `stat` only in its first test. -/
theorem acts_passLoop_eq {won : Side} {stat stat' : Status}
    (h : (0 < stat.HP ↔ 0 < stat'.HP) ∨ A.value (.stdout (won :: p)) 0 = none) :
    acts S p A n (passLoop battle_ID won stat) (fun _ => 0) =
      acts S p A n (passLoop battle_ID won stat') fun _ => 0 := by
  have hread : ∀ {stat : Status}, 0 < stat.HP → A.value (.stdout (won :: p)) 0 = none →
      acts S p A n (passLoop battle_ID won stat) (fun _ => 0) = [] := by
    intro stat hHP hvalue
    cases n with
    | zero => rfl
    | succ n => simp only [acts_passLoop hHP, hvalue]
  by_cases hHP : 0 < stat.HP <;> by_cases hHP' : 0 < stat'.HP
  · rw [passLoop, passLoop, if_pos hHP, if_pos hHP']
    exact acts_congr rfl rfl
  · have hvalue := h.resolve_left fun hiff => hHP' (hiff.1 hHP)
    rw [hread hHP hvalue, acts_passLoop_done hHP']
  · have hvalue := h.resolve_left fun hiff => hHP (hiff.2 hHP')
    rw [hread hHP' hvalue, acts_passLoop_done hHP]
  · rw [acts_passLoop_done hHP, acts_passLoop_done hHP']

end Acts

section Contents

variable {S : Setup} {p : Pid} {A : Arrivals} {battle_ID : Char} {a b : Status × Status}

/-- A process that goes past the battle and one that goes to it do the same only if nothing
comes to either. -/
theorem stuck_of_sameActs (ha : a.1.battle_ended_flag = 1) (hb : b.1.battle_ended_flag ≠ 1)
    (h : SameActs S p A (playLoop battle_ID a.1 a.2) (playLoop battle_ID b.1 b.2)) :
    waited p 1 A.flag = false ∧ A.value (.stdout (.left :: p)) 0 = none := by
  rw [playLoop_of_eq ha, playLoop_of_ne hb] at h
  obtain ⟨⟨m, hm⟩, m', hm'⟩ := h 1
  have hwait : waited p 1 A.flag = false := by
    by_contra hwait
    rw [acts_waitLoser, if_pos (by simpa using hwait)] at hm
    rcases acts_playRead_cases with hnil | ⟨v, rest, hcons⟩
    · rw [hnil] at hm
      cases List.prefix_nil.1 hm
    · rw [hcons] at hm
      cases (List.cons_prefix_cons.1 hm).1
  refine ⟨hwait, ?_⟩
  by_contra hvalue
  obtain ⟨v, hv⟩ := Option.ne_none_iff_exists'.1 hvalue
  rw [acts_waitLoser_blocked hwait] at hm'
  simp only [acts, op, hv] at hm'
  cases List.prefix_nil.1 hm'

/-- Two processes that go past the battle and do the same choose the same winner, and one reads
from it if the other does. -/
theorem winner_of_sameActs (ha : a.1.battle_ended_flag = 1) (hb : b.1.battle_ended_flag = 1)
    (h : SameActs S p A (playLoop battle_ID a.1 a.2) (playLoop battle_ID b.1 b.2))
    (hwait : waited p 1 A.flag = true) :
    (selected a.1 a.2).1 = (selected b.1 b.2).1 ∧
      (p = [] → (selected a.1 a.2).2.real_player_id = (selected b.1 b.2).2.real_player_id) ∧
      (p ≠ [] → A.value (.stdout ((selected a.1 a.2).1 :: p)) 0 ≠ none →
        0 < (selected a.1 a.2).2.HP → 0 < (selected b.1 b.2).2.HP) := by
  rw [playLoop_of_eq ha, playLoop_of_eq hb] at h
  -- the first two acts of `a`, in those of `b`
  obtain ⟨m, hm⟩ := (h 2).1
  rw [acts_waitLoser, if_pos hwait] at hm
  cases m with
  | zero => cases List.prefix_nil.1 hm
  | succ m =>
    rw [acts_waitLoser, if_pos hwait] at hm
    obtain ⟨hselect, hrest⟩ := List.cons_prefix_cons.1 hm
    obtain ⟨hside, hid⟩ := Act.select.inj hselect
    refine ⟨hside, fun hp => ?_, fun hp hvalue hHP => ?_⟩
    · rw [if_pos hp, if_pos hp] at hid
      exact Option.some.inj hid
    · by_contra hHP'
      obtain ⟨v, hv⟩ := Option.ne_none_iff_exists'.1 hvalue
      rw [afterBattle_eq, afterBattle_eq, if_neg hp, if_neg hp, acts_passLoop_done hHP',
        acts_passLoop hHP, hv] at hrest
      cases List.prefix_nil.1 hrest

/-- Two processes that go past the battle to the same winner, and both read from it or both do
not, do the same. -/
theorem acts_skipped {n : ℕ} (h : waited p 1 A.flag = true →
      (selected a.1 a.2).1 = (selected b.1 b.2).1 ∧
      (p = [] → (selected a.1 a.2).2.real_player_id = (selected b.1 b.2).2.real_player_id) ∧
      (p ≠ [] → (0 < (selected a.1 a.2).2.HP ↔ 0 < (selected b.1 b.2).2.HP) ∨
        A.value (.stdout ((selected a.1 a.2).1 :: p)) 0 = none)) :
    acts S p A n (.waitLoser battle_ID a.1 a.2) (fun _ => 0) =
      acts S p A n (.waitLoser battle_ID b.1 b.2) fun _ => 0 := by
  cases n with
  | zero => rfl
  | succ n =>
    cases hwait : waited p 1 A.flag with
    | false => rw [acts_waitLoser_blocked hwait, acts_waitLoser_blocked hwait]
    | true =>
      obtain ⟨hside, hid, hHP⟩ := h hwait
      rw [acts_waitLoser, acts_waitLoser, if_pos hwait, if_pos hwait, afterBattle_eq,
        afterBattle_eq, hside]
      by_cases hp : p = []
      · rw [if_pos hp, if_pos hp, if_pos hp, if_pos hp, hid hp]
      · rw [if_neg hp, if_neg hp, if_neg hp, if_neg hp]
        rw [hside] at hHP
        exact congrArg _ (acts_passLoop_eq (hHP hp))

end Contents

/-- A battle does not depend on what was in memory if and only if that is harmless. -/
theorem memory_irrelevant_iff (S : Setup) (p : Pid) (A : Arrivals) (battle_ID : Char)
    (a b : Status × Status) :
    SameActs S p A (playLoop battle_ID a.1 a.2) (playLoop battle_ID b.1 b.2) ↔
      Harmless p A a b := by
  constructor
  · intro h
    by_cases ha : a.1.battle_ended_flag = 1 <;> by_cases hb : b.1.battle_ended_flag = 1
    · refine .skipped ha hb fun hwait => ?_
      obtain ⟨hside, hid, hHP⟩ := winner_of_sameActs ha hb h hwait
      refine ⟨hside, hid, fun hp => or_iff_not_imp_right.2 fun hvalue => ⟨hHP hp hvalue, ?_⟩⟩
      exact (winner_of_sameActs hb ha h.symm hwait).2.2 hp (hside ▸ hvalue)
    · obtain ⟨hwait, hvalue⟩ := stuck_of_sameActs ha hb h
      exact .stuck (iff_of_true ha hb) hwait hvalue
    · obtain ⟨hwait, hvalue⟩ := stuck_of_sameActs hb ha h.symm
      exact .stuck (iff_of_false ha (not_not.2 hb)) hwait hvalue
    · exact .played ha hb
  · rintro (⟨ha, hb⟩ | ⟨ha, hb, hwinner⟩ | ⟨hflags, hwait, hvalue⟩)
    · rw [playLoop_of_ne ha, playLoop_of_ne hb]
      exact SameActs.of_eq fun n => acts_playRead b.1 b.2
    · rw [playLoop_of_eq ha, playLoop_of_eq hb]
      exact SameActs.of_eq fun n => acts_skipped hwinner
    · refine SameActs.of_eq fun n => ?_
      by_cases ha : a.1.battle_ended_flag = 1
      · rw [playLoop_of_eq ha, playLoop_of_ne (hflags.1 ha), acts_waitLoser_blocked hwait,
          acts_playRead_blocked hvalue]
      · rw [playLoop_of_ne ha, playLoop_of_eq (not_not.1 (mt hflags.2 ha)),
          acts_waitLoser_blocked hwait, acts_playRead_blocked hvalue]

/-- Memory with a flag in it. -/
def garbage (flag : ℤ) : Status :=
  ⟨0, 0, 0, .FIRE, ' ', flag⟩

/-- Players that always send the same, and exit. -/
def steadily : Arrivals where
  value
    | .stdout _, _ => some (garbage 0)
    | .stdin _, _ => some (garbage 0)
    | _, _ => none
  flag _ := true

/-- With a 1 in `battle_ended_flag` the battle does not take place. -/
theorem battle_skipped :
    ¬SameActs ⟨fun _ => ⟨0, 0, [], ' ', 0⟩, fun _ => garbage 0, fun _ => garbage 0⟩ [] steadily
      (playLoop 'A' (garbage 1) (garbage 0)) (playLoop 'A' (garbage 0) (garbage 0)) := by
  intro h
  have hstuck := @stuck_of_sameActs _ _ _ 'A' (garbage 1, garbage 0) (garbage 0, garbage 0) rfl
    (by decide) h
  exact absurd hstuck.1 (by decide)

end SP2022.Championship
