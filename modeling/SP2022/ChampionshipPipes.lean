import SP2022.ChampionshipBattle

/-!
# What is in the pipes

A player writes a status to its `stdout` and reads the answer from its `stdin`, and so does a
battle in its passing mode; a battle reads from its children and answers them. `Talk` says
what a step does to the pipes. In every state of the championship, whatever the order of
steps and whatever `player_status.txt` holds, at most one status is on its way between a
process and its parent, and it is answered with a status of the same player
(`pipes_alternate`). If no sum leaves the range of an `int`, no player's `ATK` or attribute is
ever changed, and no player has more hit points than it came with (`status_integrity`).
-/

namespace SP2022.Championship

open Network

/-- What a round does not change in a status. -/
def Status.key (st : Status) : ℤ × ℤ × Attribute :=
  (st.real_player_id, st.ATK, st.attr)

/-- The status that a process has written to its parent and waits to be answered. -/
def Local.asked : Local → List Status
  | .playerRead _ _ status => [status]
  | .passBack _ _ stat => [stat]
  | _ => []

/-- The status that a battle has read from the child `x` and not answered yet. -/
def Local.owed (x : Side) : Local → List Status
  | .playRead _ .right stat1 _ => if x = .left then [stat1] else []
  | .playWrite _ .left stat1 stat2 => [both (stat1, stat2) x]
  | .playWrite _ .right _ stat2 => if x = .right then [stat2] else []
  | .passUp _ won stat => if x = won then [stat] else []
  | .passBack _ won stat => if x = won then [stat] else []
  | .passDown _ won stat => if x = won then [stat] else []
  | _ => []

/-- The process has asked nothing and owes nothing. -/
def Local.Quiet (l : Local) : Prop :=
  l.asked = [] ∧ ∀ x, l.owed x = []

theorem quiet_playing (player_ID originHP : ℤ) (status : Status) :
    (playing player_ID originHP status).Quiet := by
  unfold playing
  split_ifs <;> exact ⟨rfl, fun _ => rfl⟩

theorem quiet_playLoop (battle_ID : Char) (stat1 stat2 : Status) :
    (playLoop battle_ID stat1 stat2).Quiet := by
  unfold playLoop
  split_ifs <;> exact ⟨rfl, fun _ => rfl⟩

theorem quiet_passLoop (battle_ID : Char) (won : Side) (stat : Status) :
    (passLoop battle_ID won stat).Quiet := by
  unfold passLoop
  split_ifs <;> exact ⟨rfl, fun _ => rfl⟩

theorem quiet_afterRelay (battle_ID : Char) (won : Side) (stat : Status) :
    (if stat.current_battle_id = 'A' ∧ stat.battle_ended_flag ≠ 0 then Local.waitWinner
      else passLoop battle_ID won stat).Quiet := by
  split_ifs
  · exact ⟨rfl, fun _ => rfl⟩
  · exact quiet_passLoop _ _ _

theorem quiet_afterBattle (p : Pid) (battle_ID : Char) (stat1 stat2 : Status) :
    (afterBattle p battle_ID stat1 stat2).Quiet := by
  by_cases hp : p = []
  · simp only [afterBattle, hp, ne_eq, not_true_eq_false, if_false]
    exact ⟨rfl, fun _ => rfl⟩
  · simp only [afterBattle, ne_eq, hp, not_false_eq_true, if_true]
    exact quiet_passLoop _ _ _

theorem quiet_execl (S : Setup) (c : Command) : (execl S c).Quiet := by
  cases c with
  | battle argv1 => exact ⟨rfl, fun _ => rfl⟩
  | player argv1 =>
    simp only [execl, playerMain]
    split_ifs
    · exact quiet_playing _ _ _
    · exact ⟨rfl, fun _ => rfl⟩

/-- A round keeps who the players are. -/
theorem playRound_key (battle_ID : Char) (stat1 stat2 : Status) :
    (playRound battle_ID stat1 stat2).1.key = stat1.key ∧
      (playRound battle_ID stat1 stat2).2.key = stat2.key := by
  simp only [playRound]
  split_ifs
  · obtain ⟨⟨_, _, h₁⟩, ⟨_, _, h₂⟩⟩ := Battle_keeps
      { stat1 with current_battle_id := battle_ID } { stat2 with current_battle_id := battle_ID }
      battle_ID
    rw [h₁, h₂]
    exact ⟨rfl, rfl⟩
  · obtain ⟨⟨_, _, h₁⟩, ⟨_, _, h₂⟩⟩ := Battle_keeps
      { stat2 with current_battle_id := battle_ID } { stat1 with current_battle_id := battle_ID }
      battle_ID
    rw [Prod.fst_swap, Prod.snd_swap, h₁, h₂]
    exact ⟨rfl, rfl⟩

/-- What a step of the process `p`, from `l` to `l'`, does to the pipes. -/
inductive Talk (p : Pid) (l l' : Local) (s t : State) : Prop
  /-- A status goes to the parent. -/
  | asks (st : Status)
      (sent : t.sent = Function.update s.sent (.stdout p) (s.sent (.stdout p) ++ [st]))
      (got : t.got = s.got) (asked : l.asked = []) (asked' : l'.asked = [st])
      (owed : ∀ x, l'.owed x = l.owed x)
  /-- The answer is read. A battle keeps it for the child that the status came from. -/
  | hears (st v : Status) (next : (s.sent (.stdin p))[s.got (.stdin p)]? = some v)
      (sent : t.sent = s.sent)
      (got : t.got = Function.update s.got (.stdin p) (s.got (.stdin p) + 1))
      (asked : l.asked = [st]) (asked' : l'.asked = [])
      (owed : ∀ x, (l'.owed x = [] ∧ l.owed x = []) ∨ (l'.owed x = [v] ∧ l.owed x = [st]))
  /-- A status is read from the child `x`. -/
  | listens (x : Side) (v : Status)
      (next : (s.sent (.stdout (x :: p)))[s.got (.stdout (x :: p))]? = some v)
      (sent : t.sent = s.sent)
      (got : t.got = Function.update s.got (.stdout (x :: p)) (s.got (.stdout (x :: p)) + 1))
      (asked : l'.asked = l.asked) (owed : l.owed x = [])
      (owed' : (l'.owed x).map Status.key = [v.key])
      (other : (l'.owed x.other).map Status.key = (l.owed x.other).map Status.key)
  /-- The child `x` is answered. -/
  | answers (x : Side) (st : Status)
      (sent : t.sent = Function.update s.sent (.stdin (x :: p)) (s.sent (.stdin (x :: p)) ++ [st]))
      (got : t.got = s.got) (asked : l'.asked = l.asked) (owed : l.owed x = [st])
      (owed' : l'.owed x = []) (other : l'.owed x.other = l.owed x.other)
  /-- The pipes are not touched. -/
  | silent (stdin : ∀ q, t.sent (.stdin q) = s.sent (.stdin q))
      (stdout : ∀ q, t.sent (.stdout q) = s.sent (.stdout q))
      (got : ∀ q, t.got (.stdin q) = s.got (.stdin q) ∧ t.got (.stdout q) = s.got (.stdout q))
      (asked : l'.asked = l.asked) (owed : ∀ x, l'.owed x = l.owed x)

/-- An operation that is none on a pipe. -/
def OffPipes (o : Op Chan Flag Chan.Value Local) : Prop :=
  ∀ q, (∀ k, o ≠ .read (.stdin q) k) ∧ (∀ k, o ≠ .read (.stdout q) k) ∧
    (∀ v l, o ≠ .write (.stdin q) v l) ∧ ∀ v l, o ≠ .write (.stdout q) v l

theorem talk_silent {p : Pid} {o : Op Chan Flag Chan.Value Local} {s t : State} {l : Local}
    (h : exec p o s = some t) (ho : OffPipes o) (hl : l.Quiet) (hl' : (t.proc p).Quiet) :
    Talk p l (t.proc p) s t :=
  .silent (fun q => exec_sent h (ho q).2.2.1) (fun q => exec_sent h (ho q).2.2.2)
    (fun q => ⟨exec_got h (ho q).1, exec_got h (ho q).2.1⟩) (hl'.1.trans hl.1.symm)
    fun x => (hl'.2 x).trans (hl.2 x).symm

/-- What a step does to the pipes. -/
theorem talk {S : Setup} {p : Pid} {s t : State} (hstep : (network S).step p s = some t) :
    Talk p (s.proc p) (t.proc p) s t := by
  change exec p (op S p (s.proc p)) s = some t at hstep
  have hquiet : ∀ {l : Local}, s.proc p = l → l.Quiet → OffPipes (op S p l) →
      (∀ l', (op S p l).Leads l' → l'.Quiet) → Talk p l (t.proc p) s t := by
    rintro l rfl hl ho hl'
    exact talk_silent hstep ho hl (hl' _ (exec_leads hstep))
  cases hproc : s.proc p with
  | unforked =>
    refine hquiet hproc ⟨rfl, fun _ => rfl⟩ (by simp [OffPipes, op]) ?_
    rintro _ ⟨c, rfl⟩
    exact quiet_execl S c
  | forking battle_ID x =>
    cases x with
    | left =>
      refine hquiet hproc ⟨rfl, fun _ => rfl⟩ (by simp [OffPipes, op]) ?_
      rintro _ rfl
      exact ⟨rfl, fun _ => rfl⟩
    | right =>
      refine hquiet hproc ⟨rfl, fun _ => rfl⟩ (by simp [OffPipes, op]) ?_
      rintro _ rfl
      exact quiet_playLoop _ _ _
  | playRead battle_ID x stat1 stat2 =>
    rw [hproc] at hstep
    cases x with
    | left =>
      obtain ⟨v, hv, rfl⟩ := Option.map_eq_some_iff.1 hstep
      refine .listens .left v hv rfl rfl ?_ rfl ?_ ?_ <;> simp [Local.asked, Local.owed, Side.other]
    | right =>
      obtain ⟨v, hv, rfl⟩ := Option.map_eq_some_iff.1 hstep
      have hkey := playRound_key battle_ID stat1 v
      refine .listens .right v hv rfl rfl ?_ rfl ?_ ?_ <;>
        simp [Local.asked, Local.owed, Side.other, both, hkey]
  | playWrite battle_ID x stat1 stat2 =>
    rw [hproc] at hstep
    cases x with
    | left =>
      obtain rfl := Option.some.inj hstep
      refine .answers .left stat1 rfl rfl ?_ rfl ?_ ?_ <;>
        simp [Local.asked, Local.owed, Side.other, both]
    | right =>
      obtain rfl := Option.some.inj hstep
      have hl := quiet_playLoop battle_ID stat1 stat2
      refine .answers .right stat2 rfl rfl ?_ rfl ?_ ?_
      · exact (congrArg Local.asked (Function.update_self _ _ _)).trans hl.1
      · exact (congrArg (Local.owed .right) (Function.update_self _ _ _)).trans (hl.2 _)
      · exact (congrArg (Local.owed .left) (Function.update_self _ _ _)).trans (hl.2 _)
  | waitLoser battle_ID stat1 stat2 =>
    refine hquiet hproc ⟨rfl, fun _ => rfl⟩ (by simp [OffPipes, op]) ?_
    rintro _ rfl
    exact quiet_afterBattle _ _ _ _
  | passRead battle_ID won stat =>
    rw [hproc] at hstep
    obtain ⟨v, hv, rfl⟩ := Option.map_eq_some_iff.1 hstep
    refine .listens won v hv rfl rfl ?_ rfl ?_ ?_ <;> simp [Local.asked, Local.owed]
  | passUp battle_ID won stat =>
    rw [hproc] at hstep
    obtain rfl := Option.some.inj hstep
    refine .asks stat rfl rfl rfl ?_ fun x => ?_ <;> simp [Local.asked, Local.owed]
  | passBack battle_ID won stat =>
    rw [hproc] at hstep
    obtain ⟨v, hv, rfl⟩ := Option.map_eq_some_iff.1 hstep
    refine .hears stat v hv rfl rfl rfl ?_ fun x => ?_
    · simp [Local.asked]
    · by_cases hx : x = won <;> simp [Local.owed, hx]
  | passDown battle_ID won stat =>
    rw [hproc] at hstep
    obtain rfl := Option.some.inj hstep
    have hl := quiet_afterRelay battle_ID won stat
    refine .answers won stat rfl rfl ?_ (if_pos rfl) ?_ ?_
    · exact (congrArg Local.asked (Function.update_self _ _ _)).trans hl.1
    · exact (congrArg (Local.owed won) (Function.update_self _ _ _)).trans (hl.2 _)
    · refine (congrArg (Local.owed won.other) (Function.update_self _ _ _)).trans ?_
      exact (hl.2 _).trans (if_neg (Side.other_ne won)).symm
  | playerWrite player_ID originHP status =>
    rw [hproc] at hstep
    obtain rfl := Option.some.inj hstep
    refine .asks status rfl rfl rfl ?_ fun x => ?_ <;> simp [Local.asked, Local.owed]
  | playerRead player_ID originHP status =>
    rw [hproc] at hstep
    obtain ⟨v, hv, rfl⟩ := Option.map_eq_some_iff.1 hstep
    have hl := quiet_playing player_ID originHP v
    exact .hears status v hv rfl rfl rfl (by simp [hl.1]) fun x => Or.inl ⟨by simp [hl.2], rfl⟩
  | readFIFO player_ID =>
    refine hquiet hproc ⟨rfl, fun _ => rfl⟩ (by simp [OffPipes, op]) ?_
    rintro _ ⟨v, rfl⟩
    exact quiet_playing _ _ _
  | print winner | waitWinner | openFIFO n status | blockedFIFO n status | writeFIFO n status
  | createFIFO player_ID | blockedAgent player_ID | exiting =>
    refine hquiet hproc ⟨rfl, fun _ => rfl⟩ (by simp [OffPipes, op]) ?_
    rintro _ rfl
    exact ⟨rfl, fun _ => rfl⟩
  | exited =>
    rw [hproc] at hstep
    cases hstep

/-! ## Questions and answers -/

/-- The answers that the parent `p` has given to the child `x`, with the one that it owes, and
the ones that the child has read, with the one that it waits for, are of the players whose
statuses the child has sent. -/
structure Linked (p : Pid) (x : Side) (s : State) : Prop where
  told : (s.sent (.stdin (x :: p)) ++ (s.proc p).owed x).map Status.key =
    ((s.sent (.stdout (x :: p))).take (s.got (.stdout (x :: p)))).map Status.key
  heard : ((s.sent (.stdin (x :: p))).take (s.got (.stdin (x :: p))) ++
    (s.proc (x :: p)).asked).map Status.key = (s.sent (.stdout (x :: p))).map Status.key

/-- `battle A 0` does not come to the passing mode. -/
def Local.Top : Local → Prop
  | .forking _ _ | .playRead _ _ _ _ | .playWrite _ _ _ _ | .waitLoser _ _ _ | .print _
  | .waitWinner | .exiting | .exited => True
  | _ => False

theorem Local.Top.asked {l : Local} (h : l.Top) : l.asked = [] := by
  cases l <;> first | rfl | exact h.elim

theorem top_step {S : Setup} {s t : State} (h : (s.proc []).Top)
    (hstep : (network S).step [] s = some t) : (t.proc []).Top := by
  have hleads := exec_leads hstep
  change (op S [] (s.proc [])).Leads (t.proc []) at hleads
  have hplay : ∀ battle_ID stat1 stat2, (playLoop battle_ID stat1 stat2).Top := by
    intro battle_ID stat1 stat2
    unfold playLoop
    split_ifs <;> trivial
  generalize s.proc [] = l at h hleads
  generalize t.proc [] = l' at hleads
  cases l with
  | forking battle_ID x =>
    cases x with
    | left => exact hleads ▸ trivial
    | right => exact hleads ▸ hplay _ _ _
  | playRead battle_ID x stat1 stat2 =>
    cases x with
    | left =>
      obtain ⟨v, rfl⟩ := hleads
      trivial
    | right =>
      obtain ⟨v, rfl⟩ := hleads
      trivial
  | playWrite battle_ID x stat1 stat2 =>
    cases x with
    | left => exact hleads ▸ trivial
    | right => exact hleads ▸ hplay _ _ _
  | waitLoser battle_ID stat1 stat2 => exact hleads ▸ trivial
  | print winner => exact hleads ▸ trivial
  | waitWinner => exact hleads ▸ trivial
  | exiting => exact hleads ▸ trivial
  | exited => exact hleads.elim
  | _ => exact h.elim

namespace Linked

variable {S : Setup} {p r : Pid} {x : Side} {s t : State}

theorem congr (h : Linked p x s) (hin : t.sent (.stdin (x :: p)) = s.sent (.stdin (x :: p)))
    (hout : t.sent (.stdout (x :: p)) = s.sent (.stdout (x :: p)))
    (hgot : t.got (.stdin (x :: p)) = s.got (.stdin (x :: p)))
    (hgot' : t.got (.stdout (x :: p)) = s.got (.stdout (x :: p)))
    (howed : ((t.proc p).owed x).map Status.key = ((s.proc p).owed x).map Status.key)
    (hasked : (t.proc (x :: p)).asked = (s.proc (x :: p)).asked) : Linked p x t := by
  constructor
  · rw [hin, hout, hgot', List.map_append, howed, ← List.map_append]
    exact h.told
  · rw [hin, hout, hgot, hasked]
    exact h.heard

/-- An answer is of the player that was asked about. -/
theorem answer_key (h : Linked p x s) (hs : Sane s) {st v : Status}
    (hasked : (s.proc (x :: p)).asked = [st])
    (hnext : (s.sent (.stdin (x :: p)))[s.got (.stdin (x :: p))]? = some v) : v.key = st.key := by
  have hgot := hs (.stdin (x :: p))
  have hlt := (List.getElem?_eq_some_iff.1 hnext).1
  have hheard := congrArg (fun l => l[s.got (.stdin (x :: p))]?) h.heard
  have htold := congrArg (fun l => l[s.got (.stdin (x :: p))]?) h.told
  simp only [List.map_append, List.map_take] at hheard htold
  rw [hasked, List.getElem?_append_right (by simp), List.length_take, List.length_map,
    min_eq_left hgot, Nat.sub_self] at hheard
  rw [List.getElem?_append_left (by simpa using hlt), List.getElem?_map, hnext] at htold
  -- the status with this number is among the ones that the parent has read
  rw [List.getElem?_take] at htold
  split_ifs at htold with hlt'
  · rw [← hheard] at htold
    exact Option.some.inj htold
  · cases htold

/-- The child asks. -/
theorem asks (h : Linked p x s) (hs : Sane s) {st : Status}
    (hsent : t.sent = Function.update s.sent (.stdout (x :: p)) (s.sent (.stdout (x :: p)) ++ [st]))
    (hgot : t.got = s.got) (hasked : (s.proc (x :: p)).asked = [])
    (hasked' : (t.proc (x :: p)).asked = [st]) (hp : t.proc p = s.proc p) : Linked p x t := by
  have hin : t.sent (.stdin (x :: p)) = s.sent (.stdin (x :: p)) := by simp [hsent]
  have hout : t.sent (.stdout (x :: p)) = s.sent (.stdout (x :: p)) ++ [st] := by simp [hsent]
  constructor
  · rw [hin, hout, hgot, hp, List.take_append_of_le_length (hs _)]
    exact h.told
  · have hheard := h.heard
    rw [hasked, List.append_nil] at hheard
    rw [hin, hout, hgot, hasked', List.map_append, hheard, ← List.map_append]

/-- The child reads the answer. -/
theorem hears (h : Linked p x s) (hs : Sane s) {st v : Status}
    (hnext : (s.sent (.stdin (x :: p)))[s.got (.stdin (x :: p))]? = some v)
    (hsent : t.sent = s.sent)
    (hgot : t.got = Function.update s.got (.stdin (x :: p)) (s.got (.stdin (x :: p)) + 1))
    (hasked : (s.proc (x :: p)).asked = [st]) (hasked' : (t.proc (x :: p)).asked = [])
    (hp : t.proc p = s.proc p) : Linked p x t := by
  have hin : t.got (.stdin (x :: p)) = s.got (.stdin (x :: p)) + 1 := by simp [hgot]
  have hout : t.got (.stdout (x :: p)) = s.got (.stdout (x :: p)) := by simp [hgot]
  constructor
  · rw [hsent, hout, hp]
    exact h.told
  · have hkey := h.answer_key hs hasked hnext
    rw [hsent, hin, hasked', List.append_nil, List.take_add_one, hnext, ← h.heard, hasked]
    simp [hkey]

/-- The parent reads what the child asks. -/
theorem listens (h : Linked p x s) {v : Status}
    (hnext : (s.sent (.stdout (x :: p)))[s.got (.stdout (x :: p))]? = some v)
    (hsent : t.sent = s.sent)
    (hgot : t.got = Function.update s.got (.stdout (x :: p)) (s.got (.stdout (x :: p)) + 1))
    (howed : (s.proc p).owed x = []) (howed' : ((t.proc p).owed x).map Status.key = [v.key])
    (hq : t.proc (x :: p) = s.proc (x :: p)) : Linked p x t := by
  have hin : t.got (.stdin (x :: p)) = s.got (.stdin (x :: p)) := by simp [hgot]
  have hout : t.got (.stdout (x :: p)) = s.got (.stdout (x :: p)) + 1 := by simp [hgot]
  constructor
  · have htold := h.told
    rw [howed, List.append_nil] at htold
    rw [hsent, hout, List.take_add_one, hnext, List.map_append, howed', List.map_append, htold]
    rfl
  · rw [hsent, hin, hq]
    exact h.heard

/-- The parent answers. -/
theorem answers (h : Linked p x s) (hs : Sane s) {st : Status}
    (hsent : t.sent = Function.update s.sent (.stdin (x :: p)) (s.sent (.stdin (x :: p)) ++ [st]))
    (hgot : t.got = s.got) (howed : (s.proc p).owed x = [st]) (howed' : (t.proc p).owed x = [])
    (hq : t.proc (x :: p) = s.proc (x :: p)) : Linked p x t := by
  have hin : t.sent (.stdin (x :: p)) = s.sent (.stdin (x :: p)) ++ [st] := by simp [hsent]
  have hout : t.sent (.stdout (x :: p)) = s.sent (.stdout (x :: p)) := by simp [hsent]
  constructor
  · rw [hin, hout, hgot, howed', List.append_nil, ← howed]
    exact h.told
  · rw [hin, hout, hgot, hq, List.take_append_of_le_length (hs _)]
    exact h.heard

/-- What a process does on the pipes keeps every link. -/
theorem step (h : ∀ p x, Linked p x s) (hs : Sane s) (htop : (s.proc []).Top)
    (hstep : (network S).step r s = some t) (p : Pid) (x : Side) : Linked p x t := by
  have hproc : ∀ q, q ≠ r → t.proc q = s.proc q := fun q hq => exec_proc hstep hq
  have hne : x :: p ≠ p := List.cons_ne_self x p
  cases talk hstep with
  | silent stdin stdout got asked owed =>
    refine (h p x).congr (stdin _) (stdout _) (got _).1 (got _).2 ?_ ?_
    · by_cases hp : p = r
      · rw [hp, owed x]
      · rw [hproc p hp]
    · by_cases hq : x :: p = r
      · rw [hq, asked]
      · rw [hproc _ hq]
  | asks st sent got asked asked' owed =>
    by_cases hq : x :: p = r
    · subst hq
      exact (h p x).asks hs sent got asked asked' (hproc p (Ne.symm hne))
    · refine (h p x).congr (by simp [sent]) ?_ (by rw [got]) (by rw [got]) ?_ (by rw [hproc _ hq])
      · rw [sent, Function.update_of_ne (by simpa using hq)]
      · by_cases hp : p = r
        · rw [hp, owed x]
        · rw [hproc p hp]
  | hears st v next sent got asked asked' owed =>
    by_cases hq : x :: p = r
    · subst hq
      exact (h p x).hears hs next sent got asked asked' (hproc p (Ne.symm hne))
    · refine (h p x).congr (by rw [sent]) (by rw [sent]) ?_ (by simp [got]) ?_ (by rw [hproc _ hq])
      · rw [got, Function.update_of_ne (by simpa using hq)]
      · by_cases hp : p = r
        · subst hp
          rcases owed x with ⟨h', h''⟩ | ⟨h', h''⟩
          · rw [h', h'']
          · -- `p` hands the answer on, so it is not `battle A 0`
            obtain ⟨y, p, rfl⟩ : ∃ y p', p = y :: p' := by
              cases p with
              | nil => exact absurd (htop.asked.symm.trans asked) (by simp)
              | cons y p' => exact ⟨y, p', rfl⟩
            rw [h', h'', List.map_singleton, List.map_singleton,
              (h p y).answer_key hs asked next]
        · rw [hproc p hp]
  | listens y v next sent got asked owed owed' other =>
    by_cases hp : p = r
    · subst hp
      rcases Side.eq_or_eq_other x y with rfl | rfl
      · exact (h p x).listens next sent got owed owed' (hproc _ hne)
      · refine (h p _).congr (by rw [sent]) (by rw [sent]) (by simp [got]) ?_ other
          (by rw [hproc _ hne])
        rw [got, Function.update_of_ne (by simp)]
    · refine (h p x).congr (by rw [sent]) (by rw [sent]) (by simp [got]) ?_ (by rw [hproc p hp]) ?_
      · rw [got, Function.update_of_ne (by simp [hp])]
      · by_cases hq : x :: p = r
        · rw [hq, asked]
        · rw [hproc _ hq]
  | answers y st sent got asked owed owed' other =>
    by_cases hp : p = r
    · subst hp
      rcases Side.eq_or_eq_other x y with rfl | rfl
      · exact (h p x).answers hs sent got owed owed' (hproc _ hne)
      · refine (h p _).congr ?_ (by simp [sent]) (by rw [got]) (by rw [got]) (by rw [other])
          (by rw [hproc _ hne])
        rw [sent, Function.update_of_ne (by simp)]
    · refine (h p x).congr ?_ (by simp [sent]) (by rw [got]) (by rw [got]) (by rw [hproc p hp]) ?_
      · rw [sent, Function.update_of_ne (by simp [hp])]
      · by_cases hq : x :: p = r
        · rw [hq, asked]
        · rw [hproc _ hq]

end Linked

/-- What holds of the pipes in every state. -/
structure Piped (s : State) : Prop where
  sane : Sane s
  top : (s.proc []).Top
  linked : ∀ p x, Linked p x s

theorem piped_step {S : Setup} {r : Pid} {s t : State} (h : Piped s)
    (hstep : (network S).step r s = some t) : Piped t := by
  refine ⟨h.sane.exec hstep, ?_, Linked.step h.linked h.sane h.top hstep⟩
  by_cases hr : r = []
  · subst hr
    exact top_step h.top hstep
  · rw [exec_proc hstep (Ne.symm hr)]
    exact h.top

theorem piped_of_reachable {S : Setup} {s : State} (h : (network S).system.Reachable s) :
    Piped s := by
  refine h.invariant (I := Piped) (fun s hs => ?_) fun r s t hs hstep => piped_step hs hstep
  obtain rfl : s = start S := hs
  have hproc : ∀ x p, (start S).proc (x :: p) = .unforked := fun x p => by simp [start]
  refine ⟨fun _ => Nat.zero_le _, trivial, fun p x => ⟨?_, ?_⟩⟩
  · cases p with
    | nil => rfl
    | cons y p => rw [hproc]; rfl
  · rw [hproc]
    rfl

theorem length_owed_le (x : Side) (l : Local) : (l.owed x).length ≤ 1 := by
  unfold Local.owed
  split <;> first | (split_ifs <;> simp) | simp

theorem length_asked_le (l : Local) : l.asked.length ≤ 1 := by
  cases l <;> simp [Local.asked]

/-- Processes and their parents take turns. Between a process and its parent there is at most
one status on its way, in one of the two pipes or held by the parent, and the answers that
the process reads are, in order, of the players whose statuses it sent, with their `ATK` and
attribute. This holds whatever `player_status.txt` and the variables of the battles hold, and
whatever the order of steps. -/
theorem pipes_alternate {S : Setup} {s : State} (h : (network S).system.Reachable s) (p : Pid)
    (x : Side) :
    (s.got (.stdin (x :: p)) ≤ (s.sent (.stdin (x :: p))).length ∧
      (s.sent (.stdin (x :: p))).length ≤ s.got (.stdout (x :: p)) ∧
      s.got (.stdout (x :: p)) ≤ (s.sent (.stdout (x :: p))).length ∧
      (s.sent (.stdout (x :: p))).length ≤ s.got (.stdin (x :: p)) + 1) ∧
    (s.sent (.stdin (x :: p))).map Status.key <+: (s.sent (.stdout (x :: p))).map Status.key := by
  have hp := piped_of_reachable h
  have hl := hp.linked p x
  have hin := hp.sane (.stdin (x :: p))
  have hout := hp.sane (.stdout (x :: p))
  have htold := congrArg List.length hl.told
  have hheard := congrArg List.length hl.heard
  have howed := length_owed_le x (s.proc p)
  have hasked := length_asked_le (s.proc (x :: p))
  simp only [List.length_map, List.length_append, List.length_take, min_eq_left hin,
    min_eq_left hout] at htold hheard
  refine ⟨⟨hin, by omega, hout, by omega⟩, ?_⟩
  have hprefix := (List.take_prefix (s.got (.stdout (x :: p)))
    (s.sent (.stdout (x :: p)))).map Status.key
  rw [← hl.told, List.map_append] at hprefix
  exact (List.prefix_append _ _).trans hprefix

/-- Eight equal players. -/
def level : Setup where
  file _ := ⟨10, 3, ['F', 'I', 'R', 'E'], ' ', 0⟩
  stat1 _ := ⟨0, 0, 0, .FIRE, ' ', 0⟩
  stat2 _ := ⟨0, 0, 0, .FIRE, ' ', 0⟩

/-- The battles `A`, `B`, `D` and `G` start, and a first round of `G` is fought and answered. -/
def opening : List Pid :=
  let G : Pid := [.left, .left, .left]
  [[], [.left], [.left], [.left, .left], [.left, .left], G, G, G, .left :: G, .right :: G,
    .left :: G, .right :: G, G, G, G, G, .left :: G]

theorem reachable_opening : ∃ s, (network level).system.Reachable s ∧
    (s.sent (.stdout [.left, .left, .left, .left])).length = 1 ∧
    s.got (.stdin [.left, .left, .left, .left]) = 1 := by
  have hrun : ((network level).system.run opening (start level)).map (fun s =>
      ((s.sent (.stdout [.left, .left, .left, .left])).length,
        s.got (.stdin [.left, .left, .left, .left]))) = some (1, 1) := by
    decide
  obtain ⟨s, hs, heq⟩ := Option.map_eq_some_iff.1 hrun
  exact ⟨s, ⟨start level, opening, rfl, hs⟩, congrArg Prod.fst heq, congrArg Prod.snd heq⟩

theorem pipes_alternate_opening : ∃ s, (network level).system.Reachable s ∧
    s.got (.stdin [.left, .left, .left, .left]) = 1 ∧
    ∀ p x, (s.got (.stdin (x :: p)) ≤ (s.sent (.stdin (x :: p))).length ∧
        (s.sent (.stdin (x :: p))).length ≤ s.got (.stdout (x :: p)) ∧
        s.got (.stdout (x :: p)) ≤ (s.sent (.stdout (x :: p))).length ∧
        (s.sent (.stdout (x :: p))).length ≤ s.got (.stdin (x :: p)) + 1) ∧
      (s.sent (.stdin (x :: p))).map Status.key <+:
        (s.sent (.stdout (x :: p))).map Status.key := by
  obtain ⟨s, hs, -, hgot⟩ := reachable_opening
  exact ⟨s, hs, hgot, fun p x => pipes_alternate hs p x⟩

/-! ## The players' own numbers -/

def INT_MAX : ℤ :=
  2147483647

/-- The assumptions on `player_status.txt` under which all hit points fit an `int`. -/
structure Setup.InRange (S : Setup) : Prop where
  HP : ∀ n, 0 ≤ n → n ≤ 7 → 1 ≤ (S.file n).HP ∧ (S.file n).HP ≤ INT_MAX
  ATK : ∀ n, 0 ≤ n → n ≤ 7 → 0 ≤ (S.file n).ATK ∧ 2 * (S.file n).ATK ≤ INT_MAX
  battle_ended_flag : ∀ n, 0 ≤ n → n ≤ 7 → (S.file n).battle_ended_flag = 0

/-- A status of one of the eight players, with its own attack and attribute, and no more hit
points than it came with. -/
structure Setup.Genuine (S : Setup) (st : Status) : Prop where
  player : 0 ≤ st.real_player_id ∧ st.real_player_id ≤ 7
  ATK : st.ATK = (S.file st.real_player_id).ATK
  attr : st.attr = translate (S.file st.real_player_id).attr
  HP_le : st.HP ≤ (S.file st.real_player_id).HP
  HP_ge : -INT_MAX ≤ st.HP

/-- A status that goes up to a battle or to an agent. -/
structure Setup.Standing (S : Setup) (st : Status) : Prop extends S.Genuine st where
  HP_pos : 1 ≤ st.HP

/-- A status that comes down from a battle. -/
structure Setup.Answer (S : Setup) (st : Status) : Prop extends S.Genuine st where
  HP_pos : st.battle_ended_flag ≠ 1 → 1 ≤ st.HP

/-- What may be written to a channel. -/
def Setup.Carries (S : Setup) : (c : Chan) → c.Value → Prop
  | .stdin _, st => S.Answer st
  | .stdout _, st => S.Standing st
  | .fifo _, st => S.Standing st
  | .fork _, _ => True
  | .terminal, _ => True

/-- What is read as an answer is of the player that was asked about. -/
def Local.Answered (l : Local) : (c : Chan) → c.Value → Prop
  | .stdin _, v => ∀ st ∈ l.asked, v.key = st.key
  | _, _ => True

/-- The hit points of a player when it was started. -/
def Setup.Origin (S : Setup) (originHP : ℤ) (status : Status) : Prop :=
  1 ≤ originHP ∧ originHP ≤ (S.file status.real_player_id).HP

/-- The statuses that a process will write are genuine, and a player recovers to no more hit
points than it came with. -/
def Local.Genuine (S : Setup) : Local → Prop
  | .playRead _ .right stat1 _ => S.Standing stat1
  | .playWrite _ .left stat1 stat2 => S.Answer stat1 ∧ S.Answer stat2
  | .playWrite _ .right _ stat2 => S.Answer stat2
  | .passUp _ _ stat => S.Standing stat
  | .passDown _ _ stat => S.Answer stat
  | .playerWrite _ originHP status => S.Standing status ∧ S.Origin originHP status
  | .playerRead _ originHP status => S.Origin originHP status
  | .openFIFO _ status => S.Standing status
  | .blockedFIFO _ status => S.Standing status
  | .writeFIFO _ status => S.Standing status
  | _ => True

section Genuine

variable {S : Setup}

theorem Setup.Genuine.of_key {st v : Status} (h : S.Genuine st) (hkey : v.key = st.key)
    (hHP : v.HP ≤ st.HP) (hge : -INT_MAX ≤ v.HP) : S.Genuine v := by
  obtain ⟨hid, hrest⟩ := Prod.ext_iff.1 hkey
  obtain ⟨hATK, hattr⟩ := Prod.ext_iff.1 hrest
  simp only [Status.key] at hid hATK hattr
  exact ⟨hid ▸ h.player, by rw [hATK, hid, h.ATK], by rw [hattr, hid, h.attr],
    hid ▸ hHP.trans h.HP_le, hge⟩

/-- What a round takes from a player with hit points, if a blow of the other one fits an
`int`. -/
structure Struck (st st' : Status) : Prop where
  HP_le : st'.HP ≤ st.HP
  HP_ge : -INT_MAX ≤ st'.HP
  HP_pos : st'.battle_ended_flag ≠ 1 → 1 ≤ st'.HP

theorem struck_Battle {stat1 stat2 : Status} (battle_ID : Char)
    (h1 : 0 ≤ stat1.ATK ∧ 2 * stat1.ATK ≤ INT_MAX) (h2 : 0 ≤ stat2.ATK ∧ 2 * stat2.ATK ≤ INT_MAX)
    (hHP1 : 1 ≤ stat1.HP) (hHP2 : 1 ≤ stat2.HP) :
    Struck stat1 (Battle stat1 stat2 battle_ID).1 ∧
      Struck stat2 (Battle stat1 stat2 battle_ID).2 := by
  have hblow1 := blow_bounds battle_ID h1.1
  have hblow2 := blow_bounds battle_ID h2.1
  have hmax : 0 ≤ INT_MAX := by decide
  have hself : -INT_MAX ≤ stat1.HP := by omega
  have hle1 : stat1.HP - stat2.blow battle_ID ≤ stat1.HP := by omega
  have hge1 : -INT_MAX ≤ stat1.HP - stat2.blow battle_ID := by omega
  have hle2 : stat2.HP - stat1.blow battle_ID ≤ stat2.HP := by omega
  have hge2 : -INT_MAX ≤ stat2.HP - stat1.blow battle_ID := by omega
  rcases Battle_cases stat1 stat2 battle_ID with ⟨-, h⟩ | ⟨-, -, -, h⟩ | ⟨hpos2, hpos1, h⟩ <;>
    rw [h]
  · exact ⟨⟨le_rfl, hself, nofun⟩, ⟨hle2, hge2, nofun⟩⟩
  · exact ⟨⟨hle1, hge1, nofun⟩, ⟨hle2, hge2, nofun⟩⟩
  · exact ⟨⟨hle1, hge1, fun _ => hpos1⟩, ⟨hle2, hge2, fun _ => hpos2⟩⟩

theorem struck_playRound {stat1 stat2 : Status} (battle_ID : Char)
    (h1 : 0 ≤ stat1.ATK ∧ 2 * stat1.ATK ≤ INT_MAX) (h2 : 0 ≤ stat2.ATK ∧ 2 * stat2.ATK ≤ INT_MAX)
    (hHP1 : 1 ≤ stat1.HP) (hHP2 : 1 ≤ stat2.HP) :
    Struck stat1 (playRound battle_ID stat1 stat2).1 ∧
      Struck stat2 (playRound battle_ID stat1 stat2).2 := by
  simp only [playRound]
  split_ifs
  · obtain ⟨h, h'⟩ := @struck_Battle { stat1 with current_battle_id := battle_ID }
      { stat2 with current_battle_id := battle_ID } battle_ID h1 h2 hHP1 hHP2
    exact ⟨⟨h.HP_le, h.HP_ge, h.HP_pos⟩, ⟨h'.HP_le, h'.HP_ge, h'.HP_pos⟩⟩
  · obtain ⟨h, h'⟩ := @struck_Battle { stat2 with current_battle_id := battle_ID }
      { stat1 with current_battle_id := battle_ID } battle_ID h2 h1 hHP2 hHP1
    exact ⟨⟨h'.HP_le, h'.HP_ge, h'.HP_pos⟩, ⟨h.HP_le, h.HP_ge, h.HP_pos⟩⟩

theorem answer_playRound (hS : S.InRange) (battle_ID : Char) {stat1 stat2 : Status}
    (h1 : S.Standing stat1) (h2 : S.Standing stat2) :
    S.Answer (playRound battle_ID stat1 stat2).1 ∧
      S.Answer (playRound battle_ID stat1 stat2).2 := by
  obtain ⟨hkey1, hkey2⟩ := playRound_key battle_ID stat1 stat2
  obtain ⟨hHP1, hHP2⟩ := struck_playRound battle_ID
    (h1.ATK ▸ hS.ATK _ h1.player.1 h1.player.2) (h2.ATK ▸ hS.ATK _ h2.player.1 h2.player.2)
    h1.HP_pos h2.HP_pos
  exact ⟨⟨h1.of_key hkey1 hHP1.HP_le hHP1.HP_ge, hHP1.HP_pos⟩,
    ⟨h2.of_key hkey2 hHP2.HP_le hHP2.HP_ge, hHP2.HP_pos⟩⟩

/-- A winner recovers to hit points between those it has and those it was started with. -/
theorem recover_bounds (HP originHP : ℤ) : min HP originHP ≤ HP + (originHP - HP).tdiv 2 ∧
    HP + (originHP - HP).tdiv 2 ≤ max HP originHP := by
  have h := Int.mul_tdiv_add_tmod (originHP - HP) 2
  rcases le_total 0 (originHP - HP) with hpos | hneg
  · have hmod := Int.tmod_nonneg 2 hpos
    have hdiv := Int.tdiv_nonneg hpos (show (0 : ℤ) ≤ 2 by decide)
    omega
  · have hneg' := Int.neg_nonneg_of_nonpos hneg
    have hmod := Int.tmod_nonneg 2 hneg'
    have hdiv := Int.tdiv_nonneg hneg' (show (0 : ℤ) ≤ 2 by decide)
    rw [Int.neg_tmod] at hmod
    rw [Int.neg_tdiv] at hdiv
    omega

/-- A player recovers, or hands its status on with the hit points it came with. -/
theorem genuine_playing (player_ID : ℤ) {originHP : ℤ} {v : Status} (h : S.Answer v)
    (horigin : S.Origin originHP v) : (playing player_ID originHP v).Genuine S := by
  have hle := h.HP_le
  obtain ⟨hpos, hfile⟩ := horigin
  have hmax : 0 ≤ INT_MAX := by decide
  unfold playing
  split_ifs with hflag _ hHP
  · exact ⟨⟨h.toGenuine, h.HP_pos hflag⟩, hpos, hfile⟩
  · trivial
  · have hrecover := recover_bounds v.HP originHP
    have hge : 1 ≤ v.HP + (originHP - v.HP).tdiv 2 := (le_min hHP hpos).trans hrecover.1
    refine ⟨⟨⟨h.player, h.ATK, h.attr, hrecover.2.trans (max_le hle hfile), ?_⟩, hge⟩, hpos, hfile⟩
    show -INT_MAX ≤ v.HP + (originHP - v.HP).tdiv 2
    omega
  · exact ⟨⟨h.player, h.ATK, h.attr, hfile, show -INT_MAX ≤ originHP by omega⟩, hpos⟩
  · trivial

theorem genuine_playLoop (battle_ID : Char) (stat1 stat2 : Status) :
    (playLoop battle_ID stat1 stat2).Genuine S := by
  unfold playLoop
  split_ifs <;> trivial

theorem genuine_passLoop (battle_ID : Char) (won : Side) (stat : Status) :
    (passLoop battle_ID won stat).Genuine S := by
  unfold passLoop
  split_ifs <;> trivial

theorem genuine_execl (hS : S.InRange) (c : Command) : (execl S c).Genuine S := by
  cases c with
  | battle argv1 => trivial
  | player argv1 =>
    simp only [execl, playerMain]
    split_ifs with hreal
    · obtain ⟨hHP, -⟩ := hS.HP _ hreal.1 hreal.2
      have hmax : 0 ≤ INT_MAX := by decide
      refine genuine_playing _ ⟨⟨hreal, rfl, rfl, le_rfl, ?_⟩, fun _ => hHP⟩ ⟨hHP, le_rfl⟩
      show -INT_MAX ≤ (S.file (atoi argv1)).HP
      omega
    · trivial

/-- What a process writes is genuine if what it reads is. -/
def Keeps (S : Setup) (l : Local) : Op Chan Flag Chan.Value Local → Prop
  | .read c k => ∀ v, S.Carries c v → l.Answered c v → (k v).Genuine S
  | .write c v l' => S.Carries c v ∧ l'.Genuine S
  | .raise _ l' => l'.Genuine S
  | .await _ l' => l'.Genuine S
  | .halt => True

theorem op_keeps (hS : S.InRange) (p : Pid) {l : Local}
    (h : l.Genuine S) : Keeps S l (op S p l) := by
  cases l with
  | unforked => exact fun c _ _ => genuine_execl hS c
  | forking battle_ID x =>
    cases x with
    | left => exact ⟨trivial, trivial⟩
    | right => exact ⟨trivial, genuine_playLoop _ _ _⟩
  | playRead battle_ID x stat1 stat2 =>
    cases x with
    | left => exact fun v hv _ => hv
    | right => exact fun v hv _ => answer_playRound hS battle_ID h hv
  | playWrite battle_ID x stat1 stat2 =>
    cases x with
    | left => exact ⟨h.1, h.2⟩
    | right => exact ⟨h, genuine_playLoop _ _ _⟩
  | waitLoser battle_ID stat1 stat2 =>
    show (afterBattle p battle_ID stat1 stat2).Genuine S
    by_cases hp : p = []
    · simp [afterBattle, hp, Local.Genuine]
    · simp only [afterBattle, ne_eq, hp, not_false_eq_true, if_true]
      exact genuine_passLoop _ _ _
  | passRead battle_ID won stat => exact fun v hv _ => hv
  | passUp battle_ID won stat => exact ⟨h, trivial⟩
  | passBack battle_ID won stat => exact fun v hv _ => hv
  | passDown battle_ID won stat =>
    refine ⟨h, ?_⟩
    split_ifs
    · trivial
    · exact genuine_passLoop _ _ _
  | playerWrite player_ID originHP status => exact ⟨h.1, h.2⟩
  | playerRead player_ID originHP status =>
    intro v hv hkey
    have hid : v.real_player_id = status.real_player_id :=
      congrArg Prod.fst (hkey status List.mem_cons_self)
    have horigin : S.Origin originHP v := by
      unfold Setup.Origin
      rw [hid]
      exact h
    exact genuine_playing player_ID hv horigin
  | openFIFO n status => exact h
  | blockedFIFO n status => exact h
  | writeFIFO n status => exact ⟨h, trivial⟩
  | readFIFO player_ID =>
    exact fun v hv _ => genuine_playing player_ID ⟨hv.toGenuine, fun _ => hv.HP_pos⟩
      ⟨hv.HP_pos, hv.HP_le⟩
  | print winner => exact ⟨trivial, trivial⟩
  | waitWinner | createFIFO player_ID | blockedAgent player_ID | exiting => trivial
  | exited => trivial

/-- All statuses in the pipes and FIFOs and in the processes that will write them are
genuine. -/
structure Integral (S : Setup) (s : State) : Prop where
  piped : Piped s
  proc : ∀ p, (s.proc p).Genuine S
  sent : ∀ c, ∀ v ∈ s.sent c, S.Carries c v

/-- What a process reads from its `stdin` answers what it asked. -/
theorem Integral.answered {s : State} (h : Integral S s) {p : Pid} {c : Chan}
    {k : c.Value → Local} (hop : op S p (s.proc p) = .read c k) {v : c.Value}
    (hnext : (s.sent c)[s.got c]? = some v) : (s.proc p).Answered c v := by
  cases c with
  | stdin q =>
    obtain rfl : q = p := reader_of_read hop rfl
    intro st hst
    cases q with
    | nil =>
      rw [h.piped.top.asked] at hst
      cases hst
    | cons x p =>
      have hle := length_asked_le (s.proc (x :: p))
      have hasked : (s.proc (x :: p)).asked = [st] := by
        obtain ⟨l, l', heq⟩ := List.append_of_mem hst
        rw [heq, List.length_append, List.length_cons] at hle
        rw [heq, List.length_eq_zero_iff.1 (show l.length = 0 by omega),
          List.length_eq_zero_iff.1 (show l'.length = 0 by omega)]
        rfl
      exact (h.piped.linked p x).answer_key h.piped.sane hasked hnext
  | fork q | stdout q | fifo n | terminal => trivial

/-- What an operation does to the statuses. -/
theorem Integral.exec {p : Pid} {s t : State} (h : Integral S s)
    (hstep : (network S).step p s = some t) (hkeeps : Keeps S (s.proc p) (op S p (s.proc p))) :
    (t.proc p).Genuine S ∧ ∀ c, ∀ v ∈ t.sent c, S.Carries c v := by
  have hexec : Network.exec p (op S p (s.proc p)) s = some t := hstep
  cases hop : op S p (s.proc p) with
  | read c k =>
    rw [hop] at hexec hkeeps
    obtain ⟨v, hv, rfl⟩ := Option.map_eq_some_iff.1 hexec
    simp only [Function.update_self]
    exact ⟨hkeeps v (h.sent c v (List.mem_of_getElem? hv)) (h.answered hop hv), h.sent⟩
  | write c v l =>
    rw [hop] at hexec hkeeps
    obtain rfl := Option.some.inj hexec
    simp only [Function.update_self]
    refine ⟨hkeeps.2, fun d w hw => ?_⟩
    by_cases hd : d = c
    · subst hd
      rw [Function.update_self, List.mem_append, List.mem_singleton] at hw
      rcases hw with hw | rfl
      · exact h.sent d w hw
      · exact hkeeps.1
    · rw [Function.update_of_ne hd] at hw
      exact h.sent d w hw
  | raise f l =>
    rw [hop] at hexec hkeeps
    obtain rfl := Option.some.inj hexec
    simp only [Function.update_self]
    exact ⟨hkeeps, h.sent⟩
  | await ready l =>
    rw [hop] at hexec hkeeps
    obtain rfl := Option.some.inj (Option.ite_none_right_eq_some.1 hexec).2
    simp only [Function.update_self]
    exact ⟨hkeeps, h.sent⟩
  | halt =>
    rw [hop] at hexec
    cases hexec

theorem Integral.step (hS : S.InRange) {p : Pid} {s t : State} (h : Integral S s)
    (hstep : (network S).step p s = some t) : Integral S t := by
  obtain ⟨hp, hsent⟩ := h.exec hstep (op_keeps hS p (h.proc p))
  refine ⟨piped_step h.piped hstep, fun q => ?_, hsent⟩
  by_cases hq : q = p
  · exact hq ▸ hp
  · rw [exec_proc (show Network.exec p _ s = some t from hstep) hq]
    exact h.proc q

/-- The championship changes nobody's attack or attribute, and gives nobody more hit points
than it came with. In every state, whatever the order of steps, each status that was ever
written to a pipe or a FIFO is one of the eight players', with the attack and the attribute of
its line in `player_status.txt` and at most its hit points, and fits an `int`. What goes up to a
battle or to an agent has hit points left. -/
theorem status_integrity (hS : S.InRange) {s : State} (h : (network S).system.Reachable s) :
    (∀ p, ∀ st ∈ s.sent (.stdin p), S.Genuine st) ∧
      (∀ p, ∀ st ∈ s.sent (.stdout p), S.Standing st) ∧
      ∀ n, ∀ st ∈ s.sent (.fifo n), S.Standing st := by
  have hs : Integral S s := by
    refine h.invariant (I := Integral S) (fun s hs => ?_) fun p s t hs hstep => hs.step hS hstep
    obtain rfl : s = start S := hs
    refine ⟨piped_of_reachable (.of_init rfl), fun p => ?_, fun c v hv => ?_⟩
    · simp only [start]
      split_ifs
      · exact genuine_execl hS _
      · trivial
    · cases hv
  exact ⟨fun p st hst => (hs.sent (.stdin p) st hst).toGenuine, fun p => hs.sent (.stdout p),
    fun n => hs.sent (.fifo n)⟩

end Genuine

theorem status_integrity_opening : ∃ s, (network level).system.Reachable s ∧
    (s.sent (.stdout [.left, .left, .left, .left])).length = 1 ∧
    (∀ p, ∀ st ∈ s.sent (.stdin p), level.Genuine st) ∧
    (∀ p, ∀ st ∈ s.sent (.stdout p), level.Standing st) ∧
    ∀ n, ∀ st ∈ s.sent (.fifo n), level.Standing st := by
  obtain ⟨s, hs, hsent, -⟩ := reachable_opening
  have hlevel : level.InRange :=
    ⟨fun _ _ _ => show (1 : ℤ) ≤ 10 ∧ 10 ≤ INT_MAX by decide,
      fun _ _ _ => show (0 : ℤ) ≤ 3 ∧ 2 * 3 ≤ INT_MAX by decide, fun _ _ _ => rfl⟩
  exact ⟨s, hs, hsent, status_integrity hlevel hs⟩

end SP2022.Championship
