import SP2022.ChampionshipEnds

/-!
# What a battle hands on

`Books` relates the four pipes of a battle : how far it has read from its children, what it
wrote to them, and what it wrote to and read from its parent. The books are kept by every step
of the battle (`Books.own_step`), and nobody else touches its ends of the pipes
(`Books.frame`), so they hold in every state (`books_of_reachable`). If the players come with
hit points and attack, no read returns 0, and what a battle hands on is what it was sent
(`passing_relays`).
-/

namespace SP2022.Championship

open Network

/-- What was read from a channel. -/
def heard (s : State) (c : Chan) : List c.Value :=
  (s.sent c).take (s.got c)

theorem heard_read {s t : State} {c : Chan} {v : c.Value} (hv : (s.sent c)[s.got c]? = some v)
    (hsent : t.sent c = s.sent c) (hgot : t.got c = s.got c + 1) :
    heard t c = heard s c ++ [v] := by
  rw [heard, hsent, hgot, List.take_add_one, hv]
  rfl

theorem heard_congr {s t : State} {c : Chan} (hs : Sane s) (hgrow : Grows s t)
    (hgot : t.got c = s.got c) : heard t c = heard s c := by
  obtain ⟨l, hl⟩ := hgrow.sent c
  rw [heard, hgot, ← hl, List.take_append_of_le_length (hs c)]
  rfl

/-- Before the passing mode, how many more statuses were read from the left child than from
the right one. -/
def Local.ahead : Local → Option ℕ
  | .unforked | .forking _ _ | .playRead _ .left _ _ | .playWrite _ _ _ _ | .waitLoser _ _ _
  | .print _ => some 0
  | .playRead _ .right _ _ => some 1
  | _ => none

/-- The child that won, in the passing mode. -/
def Local.won : Local → Option Side
  | .passRead _ won _ | .passUp _ won _ | .passBack _ won _ | .passDown _ won _ => some won
  | _ => none

/-- The process has not been a battle. -/
def Local.Unread : Local → Prop
  | .unforked | .playerWrite _ _ _ | .playerRead _ _ _ | .openFIFO _ _ | .blockedFIFO _ _
  | .writeFIFO _ _ | .createFIFO _ | .blockedAgent _ | .readFIFO _ => True
  | _ => False

/-- The process has done with its pipes. -/
def Local.Over : Local → Prop
  | .waitWinner | .exiting | .exited => True
  | _ => False

/-- The status on its way up. -/
def Local.carriedUp : Local → List Status
  | .passUp _ _ stat => [stat]
  | _ => []

/-- The status on its way down. -/
def Local.carriedDown : Local → List Status
  | .passDown _ _ stat => [stat]
  | _ => []

/-- The first statuses that the battle `p` read from the child `w` and wrote to it are those
of its own rounds, as many as were read from the child that lost. It wrote the later ones of
the child to its own `stdout`, as they are, and what it read from its own `stdin` to the
child. -/
structure Relays (p : Pid) (w : Side) (l : Local) (s : State) : Prop where
  fought : s.got (.stdout (w.other :: p)) ≤ s.got (.stdout (w :: p))
  answered : s.got (.stdout (w.other :: p)) ≤ (s.sent (.stdin (w :: p))).length
  up : s.sent (.stdout p) ++ l.carriedUp =
    (heard s (.stdout (w :: p))).drop (s.got (.stdout (w.other :: p)))
  down : (s.sent (.stdin (w :: p))).drop (s.got (.stdout (w.other :: p))) ++ l.carriedDown =
    heard s (.stdin p)

namespace Relays

variable {p : Pid} {w : Side} {l : Local} {s t : State}

/-- A process that carries the same keeps what it did. -/
theorem congr {l' : Local} (h : Relays p w l s) (hup : l'.carriedUp = l.carriedUp)
    (hdown : l'.carriedDown = l.carriedDown) : Relays p w l' s :=
  ⟨h.fought, h.answered, by rw [hup, h.up], by rw [hdown, h.down]⟩

/-- Only the pipes matter. -/
theorem of_eq (h : Relays p w l s) (hin : ∀ q, t.sent (.stdin q) = s.sent (.stdin q))
    (hout : ∀ q, t.sent (.stdout q) = s.sent (.stdout q))
    (hgot : ∀ q, t.got (.stdin q) = s.got (.stdin q) ∧ t.got (.stdout q) = s.got (.stdout q)) :
    Relays p w l t := by
  obtain ⟨hfought, hanswered, hup, hdown⟩ := h
  refine ⟨?_, ?_, ?_, ?_⟩
  · rwa [(hgot _).2, (hgot _).2]
  · rwa [(hgot _).2, hin]
  · rwa [hout, heard, hout, (hgot _).2, (hgot _).2]
  · rwa [hin, heard, hin, (hgot _).1, (hgot _).2]

/-- A status comes up from the child. -/
theorem reads_child {battle_ID : Char} {stat v : Status}
    (h : Relays p w (.passRead battle_ID w stat) s) (hs : Sane s)
    (hnext : (s.sent (.stdout (w :: p)))[s.got (.stdout (w :: p))]? = some v)
    (hsent : t.sent = s.sent)
    (hgot : t.got = Function.update s.got (.stdout (w :: p)) (s.got (.stdout (w :: p)) + 1)) :
    Relays p w (.passUp battle_ID w v) t := by
  have hw : t.got (.stdout (w :: p)) = s.got (.stdout (w :: p)) + 1 := by simp [hgot]
  have hother : t.got (.stdout (w.other :: p)) = s.got (.stdout (w.other :: p)) := by simp [hgot]
  have hin : t.got (.stdin p) = s.got (.stdin p) := by simp [hgot]
  have hlen : (heard s (.stdout (w :: p))).length = s.got (.stdout (w :: p)) :=
    List.length_take_of_le (hs _)
  refine ⟨?_, ?_, ?_, ?_⟩
  · rw [hother, hw]
    exact h.fought.trans (Nat.le_succ _)
  · rw [hother, hsent]
    exact h.answered
  · rw [heard_read hnext (congrFun hsent _) hw, hother, hsent,
      List.drop_append_of_le_length (hlen.symm ▸ h.fought), ← h.up]
    exact congrArg (· ++ [v]) (List.append_nil _).symm
  · rw [hother, hsent, heard, hin, hsent]
    exact h.down

/-- It goes to the parent. -/
theorem writes_parent {battle_ID : Char} {stat : Status}
    (h : Relays p w (.passUp battle_ID w stat) s)
    (hsent : t.sent = Function.update s.sent (.stdout p) (s.sent (.stdout p) ++ [stat]))
    (hgot : t.got = s.got) : Relays p w (.passBack battle_ID w stat) t := by
  have hin : t.sent (.stdin (w :: p)) = s.sent (.stdin (w :: p)) := by simp [hsent]
  have hkid : t.sent (.stdout (w :: p)) = s.sent (.stdout (w :: p)) := by simp [hsent]
  have hown : t.sent (.stdin p) = s.sent (.stdin p) := by simp [hsent]
  refine ⟨by rw [hgot]; exact h.fought, by rw [hgot, hin]; exact h.answered, ?_, ?_⟩
  · rw [hsent, Function.update_self, heard, hgot, hkid]
    exact (List.append_nil _).trans h.up
  · rw [hin, heard, hgot, hown]
    exact h.down

/-- The answer comes back. -/
theorem reads_parent {battle_ID : Char} {stat v : Status}
    (h : Relays p w (.passBack battle_ID w stat) s)
    (hnext : (s.sent (.stdin p))[s.got (.stdin p)]? = some v) (hsent : t.sent = s.sent)
    (hgot : t.got = Function.update s.got (.stdin p) (s.got (.stdin p) + 1)) :
    Relays p w (.passDown battle_ID w v) t := by
  have hin : t.got (.stdin p) = s.got (.stdin p) + 1 := by simp [hgot]
  have hkid : ∀ x, t.got (.stdout (x :: p)) = s.got (.stdout (x :: p)) := by simp [hgot]
  refine ⟨by rw [hkid, hkid]; exact h.fought, by rw [hkid, hsent]; exact h.answered, ?_, ?_⟩
  · rw [hkid, heard, hkid, hsent]
    exact h.up
  · rw [heard_read hnext (congrFun hsent _) hin, hkid, hsent, ← h.down]
    exact congrArg (· ++ [v]) (List.append_nil _).symm

/-- It goes to the child. -/
theorem writes_child {battle_ID : Char} {stat : Status}
    (h : Relays p w (.passDown battle_ID w stat) s)
    (hsent : t.sent = Function.update s.sent (.stdin (w :: p)) (s.sent (.stdin (w :: p)) ++ [stat]))
    (hgot : t.got = s.got) : Relays p w .waitWinner t := by
  have hin : t.sent (.stdin (w :: p)) = s.sent (.stdin (w :: p)) ++ [stat] := by simp [hsent]
  have hout : ∀ q, t.sent (.stdout q) = s.sent (.stdout q) := by simp [hsent]
  have hown : t.sent (.stdin p) = s.sent (.stdin p) := by simp [hsent]
  refine ⟨by rw [hgot]; exact h.fought, ?_, ?_, ?_⟩
  · rw [hgot, hin, List.length_append]
    exact h.answered.trans (Nat.le_add_right _ _)
  · rw [hout, heard, hout, hgot]
    exact h.up
  · rw [hgot, hin, heard, hgot, hown, List.drop_append_of_le_length h.answered]
    exact (List.append_nil _).trans h.down

end Relays

/-- What the pipes of the process `p` have to do with each other. -/
structure Books (p : Pid) (l : Local) (s : State) : Prop where
  unread : l.Unread → ∀ x, s.got (.stdout (x :: p)) = 0
  fights : ∀ k ∈ l.ahead, s.sent (.stdout p) = [] ∧ s.got (.stdin p) = 0 ∧
    s.got (.stdout (.left :: p)) = s.got (.stdout (.right :: p)) + k
  passes : ∀ w ∈ l.won, Relays p w l s
  past : l.Over → (∃ w, Relays p w l s) ∨ ∀ x, s.got (.stdout (x :: p)) = 0

namespace Books

variable {S : Setup} {p r : Pid} {l l' : Local} {s t : State}

/-- A player. -/
theorem of_unread (hahead : l.ahead = none) (hwon : l.won = none)
    (hgot : ∀ x, s.got (.stdout (x :: p)) = 0) : Books p l s :=
  ⟨fun _ => hgot, fun k hk => by simp [hahead] at hk, fun w hw => by simp [hwon] at hw,
    fun _ => .inr hgot⟩

theorem of_ahead {k : ℕ} (hahead : l.ahead = some k) (hwon : l.won = none) (hover : ¬l.Over)
    (hunread : ¬l.Unread) (hout : s.sent (.stdout p) = []) (hin : s.got (.stdin p) = 0)
    (hgot : s.got (.stdout (.left :: p)) = s.got (.stdout (.right :: p)) + k) : Books p l s := by
  refine ⟨fun h => absurd h hunread, fun k' hk => ?_, fun w hw => by simp [hwon] at hw,
    fun h => absurd h hover⟩
  obtain rfl : k = k' := by simpa [hahead] using hk
  exact ⟨hout, hin, hgot⟩

theorem of_won {w : Side} (hahead : l.ahead = none) (hwon : l.won = some w) (hunread : ¬l.Unread)
    (h : Relays p w l s) : Books p l s := by
  refine ⟨fun h => absurd h hunread, fun k hk => by simp [hahead] at hk, fun w' hw => ?_,
    fun _ => .inl ⟨w, h⟩⟩
  obtain rfl : w = w' := by simpa [hwon] using hw
  exact h

theorem of_over (hover : l.Over)
    (h : (∃ w, Relays p w l s) ∨ ∀ x, s.got (.stdout (x :: p)) = 0) : Books p l s := by
  cases l with
  | waitWinner => exact ⟨nofun, nofun, nofun, fun _ => h⟩
  | exiting => exact ⟨nofun, nofun, nofun, fun _ => h⟩
  | exited => exact ⟨nofun, nofun, nofun, fun _ => h⟩
  | _ => exact hover.elim

theorem of_passLoop {battle_ID : Char} {w : Side} {stat : Status}
    (h : Relays p w .waitWinner s) : Books p (passLoop battle_ID w stat) s := by
  unfold passLoop
  split_ifs
  · exact of_won rfl rfl id (h.congr rfl rfl)
  · exact of_over trivial (.inl ⟨w, h⟩)

theorem of_playLoop {battle_ID : Char} {stat1 stat2 : Status} (hout : s.sent (.stdout p) = [])
    (hin : s.got (.stdin p) = 0)
    (hgot : s.got (.stdout (.left :: p)) = s.got (.stdout (.right :: p))) :
    Books p (playLoop battle_ID stat1 stat2) s := by
  unfold playLoop
  split_ifs
  · exact of_ahead rfl rfl id id hout hin hgot
  · exact of_ahead rfl rfl id id hout hin hgot

/-- A battle whose rounds are over has nothing to hand on. -/
theorem relays_of_fights (h : Books p l s) (hahead : l.ahead = some 0) (howed : ∀ x, l.owed x = [])
    (hl : s.proc p = l) (hs : Piped s) (w : Side) : Relays p w .waitWinner s := by
  obtain ⟨hout, hin, hgot⟩ := h.fights 0 hahead
  have heq : s.got (.stdout (w.other :: p)) = s.got (.stdout (w :: p)) := by
    cases w
    · exact hgot.symm
    · exact hgot
  have htold := congrArg List.length (hs.linked p w).told
  rw [hl, howed, List.append_nil, List.length_map, List.length_map, List.length_take,
    min_eq_left (hs.sane _), ← heq] at htold
  refine ⟨heq.le, htold.ge, ?_, ?_⟩
  · rw [hout, List.drop_eq_nil_of_le]
    · rfl
    · rw [heq]
      exact List.length_take_le _ _
  · rw [List.drop_eq_nil_of_le htold.le, heard, hin]
    rfl

theorem of_playing (player_ID originHP : ℤ) (status : Status)
    (hgot : ∀ x, s.got (.stdout (x :: p)) = 0) : Books p (playing player_ID originHP status) s := by
  unfold playing
  split_ifs <;> exact of_unread rfl rfl hgot

theorem of_execl (c : Command) (hout : s.sent (.stdout p) = []) (hin : s.got (.stdin p) = 0)
    (hgot : ∀ x, s.got (.stdout (x :: p)) = 0) : Books p (execl S c) s := by
  cases c with
  | battle argv1 => exact of_ahead rfl rfl id id hout hin ((hgot _).trans (hgot _).symm)
  | player argv1 =>
    simp only [execl, playerMain]
    split_ifs
    · exact of_playing _ _ _ hgot
    · exact of_unread rfl rfl hgot

/-- Other processes do not touch the ends of the pipes that `p` has. -/
theorem frame (h : Books p (s.proc p) s) (hs : Sane s) (hr : r ≠ p)
    (hstep : (network S).step r s = some t) : Books p (t.proc p) t := by
  have hexec : Network.exec r (op S r (s.proc r)) s = some t := hstep
  have hgot : ∀ {c : Chan}, reader c = some p → t.got c = s.got c := fun hc =>
    exec_got hexec fun k hop => hr (reader_of_read hop hc).symm
  have hsent : ∀ {c : Chan}, writer c = some p → t.sent c = s.sent c := fun hc =>
    exec_sent hexec fun v l hop => hr (writer_of_write hop hc).symm
  have hheard : ∀ {c : Chan}, reader c = some p → heard t c = heard s c := fun hc =>
    heard_congr hs (exec_grows hexec) (hgot hc)
  have hrelays : ∀ {w}, Relays p w (s.proc p) s → Relays p w (s.proc p) t := fun {w} hw => by
    obtain ⟨hfought, hanswered, hup, hdown⟩ := hw
    refine ⟨?_, ?_, ?_, ?_⟩
    · rwa [@hgot (.stdout _) rfl, @hgot (.stdout _) rfl]
    · rwa [@hgot (.stdout _) rfl, @hsent (.stdin _) rfl]
    · rwa [@hgot (.stdout _) rfl, @hsent (.stdout _) rfl, @hheard (.stdout _) rfl]
    · rwa [@hgot (.stdout _) rfl, @hsent (.stdin _) rfl, @hheard (.stdin _) rfl]
  rw [exec_proc hexec (Ne.symm hr)]
  refine ⟨fun hl x => ?_, fun k hk => ?_, fun w hw => hrelays (h.passes w hw), fun hl => ?_⟩
  · rw [@hgot (.stdout _) rfl]
    exact h.unread hl x
  · rw [@hsent (.stdout _) rfl, @hgot (.stdin _) rfl, @hgot (.stdout _) rfl,
      @hgot (.stdout _) rfl]
    exact h.fights k hk
  · rcases h.past hl with ⟨w, hw⟩ | hzero
    · exact .inl ⟨w, hrelays hw⟩
    · refine .inr fun x => ?_
      rw [@hgot (.stdout _) rfl]
      exact hzero x

/-- A step of the process itself. -/
theorem own_step (h : Books p (s.proc p) s) (hs : Piped s)
    (hstep : (network S).step p s = some t) : Books p (t.proc p) t := by
  change exec p (op S p (s.proc p)) s = some t at hstep
  cases hproc : s.proc p with
  | unforked =>
    rw [hproc] at h hstep
    obtain ⟨hout, hin, -⟩ := h.fights 0 rfl
    have hgot := h.unread trivial
    obtain ⟨c, -, rfl⟩ := Option.map_eq_some_iff.1 hstep
    simp only [Function.update_self]
    exact of_execl c hout (by simpa using hin) (by simpa using hgot)
  | forking battle_ID x =>
    rw [hproc] at h hstep
    obtain ⟨hout, hin, hgot⟩ := h.fights 0 rfl
    cases x with
    | left =>
      obtain rfl := Option.some.inj hstep
      simp only [Function.update_self]
      exact of_ahead rfl rfl id id (by simpa using hout) hin hgot
    | right =>
      obtain rfl := Option.some.inj hstep
      simp only [Function.update_self]
      exact of_playLoop (by simpa using hout) hin hgot
  | playRead battle_ID x stat1 stat2 =>
    rw [hproc] at h hstep
    cases x with
    | left =>
      obtain ⟨hout, hin, hgot⟩ := h.fights 0 rfl
      obtain ⟨v, -, rfl⟩ := Option.map_eq_some_iff.1 hstep
      simp only [Function.update_self]
      exact of_ahead rfl rfl id id hout (by simpa using hin) (by simpa using hgot)
    | right =>
      obtain ⟨hout, hin, hgot⟩ := h.fights 1 rfl
      obtain ⟨v, -, rfl⟩ := Option.map_eq_some_iff.1 hstep
      simp only [Function.update_self]
      exact of_ahead rfl rfl id id hout (by simpa using hin) (by simpa using hgot)
  | playWrite battle_ID x stat1 stat2 =>
    rw [hproc] at h hstep
    obtain ⟨hout, hin, hgot⟩ := h.fights 0 rfl
    cases x with
    | left =>
      obtain rfl := Option.some.inj hstep
      simp only [Function.update_self]
      exact of_ahead rfl rfl id id (by simpa using hout) hin hgot
    | right =>
      obtain rfl := Option.some.inj hstep
      simp only [Function.update_self]
      exact of_playLoop (by simpa using hout) hin hgot
  | waitLoser battle_ID stat1 stat2 =>
    rw [hproc] at h hstep
    obtain ⟨hout, hin, hgot⟩ := h.fights 0 rfl
    have hrelays := h.relays_of_fights rfl (fun _ => rfl) hproc hs
    obtain rfl := Option.some.inj (Option.ite_none_right_eq_some.1 hstep).2
    simp only [Function.update_self]
    by_cases hp : p = []
    · simp only [afterBattle, hp, ne_eq, not_true_eq_false, if_false]
      exact of_ahead rfl rfl id id (hp ▸ hout) (hp ▸ hin) (hp ▸ hgot)
    · simp only [afterBattle, ne_eq, hp, not_false_eq_true, if_true]
      exact of_passLoop ((hrelays _).of_eq (fun _ => rfl) (fun _ => rfl) fun _ => ⟨rfl, rfl⟩)
  | print winner =>
    rw [hproc] at h hstep
    have hrelays := h.relays_of_fights rfl (fun _ => rfl) hproc hs .left
    obtain rfl := Option.some.inj hstep
    simp only [Function.update_self]
    exact of_over trivial (.inl ⟨_, hrelays.of_eq (by simp) (by simp) fun _ => ⟨rfl, rfl⟩⟩)
  | passRead battle_ID won stat =>
    rw [hproc] at h hstep
    have hrelays := h.passes won rfl
    obtain ⟨v, hv, rfl⟩ := Option.map_eq_some_iff.1 hstep
    simp only [Function.update_self]
    exact of_won rfl rfl id (hrelays.reads_child hs.sane hv rfl rfl)
  | passUp battle_ID won stat =>
    rw [hproc] at h hstep
    have hrelays := h.passes won rfl
    obtain rfl := Option.some.inj hstep
    simp only [Function.update_self]
    exact of_won rfl rfl id (hrelays.writes_parent rfl rfl)
  | passBack battle_ID won stat =>
    rw [hproc] at h hstep
    have hrelays := h.passes won rfl
    obtain ⟨v, hv, rfl⟩ := Option.map_eq_some_iff.1 hstep
    simp only [Function.update_self]
    exact of_won rfl rfl id (hrelays.reads_parent hv rfl rfl)
  | passDown battle_ID won stat =>
    rw [hproc] at h hstep
    have hrelays := h.passes won rfl
    obtain rfl := Option.some.inj hstep
    simp only [Function.update_self]
    split_ifs
    · exact of_over trivial (.inl ⟨_, hrelays.writes_child rfl rfl⟩)
    · exact of_passLoop (hrelays.writes_child rfl rfl)
  | playerRead player_ID originHP status =>
    rw [hproc] at h hstep
    have hgot := h.unread trivial
    obtain ⟨v, -, rfl⟩ := Option.map_eq_some_iff.1 hstep
    simp only [Function.update_self]
    exact of_playing _ _ _ (by simpa using hgot)
  | readFIFO player_ID =>
    rw [hproc] at h hstep
    have hgot := h.unread trivial
    obtain ⟨v, -, rfl⟩ := Option.map_eq_some_iff.1 hstep
    simp only [Function.update_self]
    exact of_playing _ _ _ (by simpa using hgot)
  | playerWrite player_ID originHP status | openFIFO n status | blockedFIFO n status
  | writeFIFO n status | createFIFO player_ID | blockedAgent player_ID =>
    rw [hproc] at h hstep
    have hleads := exec_leads hstep
    rw [show t.proc p = _ from hleads]
    refine of_unread rfl rfl fun x => ?_
    rw [exec_got hstep (by simp [op])]
    exact h.unread trivial x
  | waitWinner | exiting =>
    rw [hproc] at h hstep
    have hleads := exec_leads hstep
    rw [show t.proc p = _ from hleads]
    refine of_over trivial ?_
    rcases h.past trivial with ⟨w, hw⟩ | hzero
    · refine .inl ⟨w, @Relays.congr p w _ t _ (hw.of_eq ?_ ?_ ?_) rfl rfl⟩
      · exact fun q => exec_sent hstep (by simp [op])
      · exact fun q => exec_sent hstep (by simp [op])
      · exact fun q => ⟨exec_got hstep (by simp [op]), exec_got hstep (by simp [op])⟩
    · refine .inr fun x => ?_
      rw [exec_got hstep (by simp [op])]
      exact hzero x
  | exited =>
    rw [hproc] at hstep
    cases hstep

end Books

theorem books_of_reachable {S : Setup} {s : State} (h : (network S).system.Reachable s) (p : Pid) :
    Books p (s.proc p) s := by
  have hs : Piped s ∧ ∀ p, Books p (s.proc p) s := by
    refine h.invariant (I := fun s => Piped s ∧ ∀ p, Books p (s.proc p) s) (fun s hs => ?_) ?_
    · refine ⟨piped_of_reachable (.of_init hs), fun p => ?_⟩
      obtain rfl : s = start S := hs
      by_cases hp : p = []
      · subst hp
        show Books [] (execl S (.battle ['A'])) (start S)
        exact Books.of_execl _ rfl rfl fun _ => rfl
      · rw [show (start S).proc p = .unforked from if_neg hp]
        refine ⟨fun _ _ => rfl, fun k hk => ⟨rfl, rfl, ?_⟩, nofun, nofun⟩
        obtain rfl : 0 = k := by simpa [Local.ahead] using hk
        rfl
    · rintro r s t ⟨hs, hbooks⟩ hstep
      refine ⟨piped_step hs hstep, fun p => ?_⟩
      by_cases hr : r = p
      · subst hr
        exact (hbooks r).own_step hs hstep
      · exact (hbooks p).frame hs.sane hr hstep
  exact hs.2 p

/-- A battle hands on what it reads. In every state of a championship of players with hit points
and attack, a battle that is in its passing mode, or past it, has written to its `stdout` what
it read from the child that won after its own rounds, in order and unchanged but for the status
it carries, and has written to this child after its own rounds what it read from its `stdin`.
Before, it has not used the pipes to its parent. None of its reads returns 0. -/
theorem passing_relays {S : Setup} (hS : S.Able) {s : State}
    (h : (network S).system.Reachable s) (p : Pid) :
    Books p (s.proc p) s ∧ Connected S s p :=
  ⟨books_of_reachable h p, connected hS h p⟩

theorem passing_relays_opening : ∃ s, (network level).system.Reachable s ∧
    s.got (.stdin [.left, .left, .left, .left]) = 1 ∧
    ∀ p, Books p (s.proc p) s ∧ Connected level s p := by
  obtain ⟨s, hs, -, hgot⟩ := reachable_opening
  have hlevel : level.Able :=
    ⟨fun _ _ _ => show (1 : ℤ) ≤ 10 by decide, fun _ _ _ => show (1 : ℤ) ≤ 3 by decide,
      fun _ _ _ => rfl⟩
  exact ⟨s, hs, hgot, fun p => passing_relays hlevel hs p⟩

end SP2022.Championship
