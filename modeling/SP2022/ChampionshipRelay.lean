import Mathlib.Data.List.Infix
import SP2022.ChampionshipBattle

/-!
# The passing mode

A part of the championship whose battle is over acts like the player that won it : it has a
status ready for the battle above, it hands every answer down to that player, and when the
player loses for good, the processes of the part exit one after another. `Stands` says where
the processes of such a part are and what was written to their pipes, which is all that was
written to the pipes of the part itself after the rounds of its own battles.

The three things it can do are `Stands.send`, `Stands.deliver` and `Stands.quit`, each by
induction on the tree of the part.
-/

namespace SP2022.Championship

open Network

/-- The processes of the part that starts with `p`. -/
def below (p : Pid) : Set Pid :=
  {q | p <:+ q}

theorem mem_below (p : Pid) : p ∈ below p :=
  List.suffix_refl p

theorem below_cons (x : Side) (p : Pid) : below (x :: p) ⊆ below p :=
  fun _ hq => (List.suffix_cons x p).trans hq

theorem not_mem_below_cons (x : Side) (p : Pid) : p ∉ below (x :: p) :=
  fun h => Nat.not_succ_le_self _ (List.IsSuffix.length_le h)

/-- The parts of the two children have no process in common. -/
theorem below_disjoint {x y : Side} (hne : x ≠ y) (p : Pid) {q : Pid} (hx : q ∈ below (x :: p)) :
    q ∉ below (y :: p) := fun hy => by
  have hsuffix := List.suffix_of_suffix_length_le hx hy (by simp)
  exact hne (List.cons.inj (hsuffix.eq_of_length rfl)).1

theorem below_cons_ne (x : Side) (p : Pid) : ∀ q ∈ below (x :: p), q ∉ ({p} : Set Pid) :=
  fun _ hq heq => not_mem_below_cons x p (Set.mem_singleton_iff.1 heq ▸ hq)

theorem singleton_subset_below (p : Pid) : {p} ⊆ below p :=
  Set.singleton_subset_iff.2 (mem_below p)

/-! ## What a process controls -/

/-- Where the process `p` is, what it wrote to its `stdout`, and how much of its `stdin` it
read. -/
structure Own (s : State) (p : Pid) (l : Local) (out : List Status) (read : ℕ) : Prop where
  proc : s.proc p = l
  out : s.sent (.stdout p) = out
  read : s.got (.stdin p) = read

/-- How much the process `p` read from the child `x`, and what it wrote to it. -/
structure Link (s : State) (p : Pid) (x : Side) (heard : ℕ) (told : List Status) : Prop where
  heard : s.got (.stdout (x :: p)) = heard
  told : s.sent (.stdin (x :: p)) = told

section Frame

variable {S : Setup} {A : Set Pid} {X : Set Chan} {s t : State} {p : Pid}

theorem Own.frame {l : Local} {out : List Status} {read : ℕ} (h : Own s p l out read)
    (hrun : (network S).Runs A X s t) (hp : p ∉ A) : Own t p l out read :=
  ⟨(hrun.proc hp).trans h.proc, (hrun.sent (c := .stdout p) rfl hp).trans h.out,
    (hrun.got (c := .stdin p) rfl hp).trans h.read⟩

theorem Link.frame {x : Side} {heard : ℕ} {told : List Status} (h : Link s p x heard told)
    (hrun : (network S).Runs A X s t) (hp : p ∉ A) : Link t p x heard told :=
  ⟨(hrun.got (c := .stdout (x :: p)) rfl hp).trans h.heard,
    (hrun.sent (c := .stdin (x :: p)) rfl hp).trans h.told⟩

theorem Link.of_eq {x : Side} {heard : ℕ} {told : List Status} (h : Link s p x heard told)
    (hsent : t.sent = s.sent) (hgot : t.got = s.got) : Link t p x heard told :=
  ⟨by rw [hgot, h.heard], by rw [hsent, h.told]⟩

end Frame

/-! ## A part whose battles are over -/

/-- A part of the championship, with who won its battles and in which rounds. -/
inductive Played
  | player (player_ID : ℤ)
  | battle (battle_ID : Char) (won : Side) (rounds : List Round) (kid : Side → Played)

/-- The player that is left. -/
def Played.survivor : Played → ℤ
  | .player player_ID => player_ID
  | .battle _ won _ kid => (kid won).survivor

/-- The player that is left is ready to enter the next battle or round, waits for an answer,
or has exited. -/
inductive Phase
  | ready (st : Status)
  | waiting (st : Status)
  | done

/-- Where the process of a player is. -/
def playerAt (S : Setup) (player_ID : ℤ) : Phase → Local → Prop
  | .ready st, l => l = .playerWrite player_ID (S.file st.real_player_id).HP st
  | .waiting st, l => l = .playerRead player_ID (S.file st.real_player_id).HP st
  | .done, l => l = .exited

/-- Where a battle in its passing mode is. -/
def battleAt (battle_ID : Char) (won : Side) : Phase → Local → Prop
  | .ready _, l => ∃ st, l = .passRead battle_ID won st
  | .waiting _, l => ∃ st, l = .passBack battle_ID won st
  | .done, l => l = .exited

/-- The statuses that went up from a side. -/
def ups (rounds : List Round) (x : Side) : List Status :=
  rounds.map fun r => r.up x

/-- The answers that came down to a side. -/
def downs (rounds : List Round) (x : Side) : List Status :=
  rounds.map fun r => r.down x

/-- The part that starts with `p` has written `up` to its `stdout` and has read `down` from
its `stdin`. -/
def Stands (S : Setup) (s : State) : Played → Pid → List Status → List Status → Phase → Prop
  | .player player_ID, p, up, down, ph =>
    (∃ l, playerAt S player_ID ph l ∧ Own s p l up down.length) ∧
      (ph = .done → s.flag (.exited p) = true)
  | .battle battle_ID won rounds kid, p, up, down, ph =>
    (∃ l, battleAt battle_ID won ph l ∧ Own s p l up down.length) ∧
      (ph = .done → s.flag (.exited p) = true) ∧
      Link s p won (ups rounds won ++ up).length (downs rounds won ++ down) ∧
      Link s p won.other (ups rounds won.other).length (downs rounds won.other) ∧
      Stands S s (kid won) (won :: p) (ups rounds won ++ up) (downs rounds won ++ down) ph ∧
      Stands S s (kid won.other) (won.other :: p) (ups rounds won.other)
        (downs rounds won.other) .done

section Stands

variable {S : Setup} {A : Set Pid} {X : Set Chan} {s t : State}

theorem Stands.exists_own : ∀ {P : Played} {p : Pid} {up down : List Status} {ph : Phase},
    Stands S s P p up down ph → ∃ l, Own s p l up down.length
  | .player _, _, _, _, _, h => let ⟨l, _, h⟩ := h.1; ⟨l, h⟩
  | .battle _ _ _ _, _, _, _, _, h => let ⟨l, _, h⟩ := h.1; ⟨l, h⟩

theorem Stands.exited : ∀ {P : Played} {p : Pid} {up down : List Status},
    Stands S s P p up down .done → s.flag (.exited p) = true
  | .player _, _, _, _, h => h.2 rfl
  | .battle _ _ _ _, _, _, _, h => h.2.1 rfl

/-- Other processes do not change how a part stands. -/
theorem Stands.frame (hrun : (network S).Runs A X s t) : ∀ {P : Played} {p : Pid}
    {up down : List Status} {ph : Phase}, (∀ q ∈ below p, q ∉ A) → Stands S s P p up down ph →
      Stands S t P p up down ph
  | .player _, p, _, _, _, hA, ⟨⟨l, hl, hown⟩, hflag⟩ =>
    ⟨⟨l, hl, hown.frame hrun (hA p (mem_below p))⟩, fun h => hrun.flag (hflag h)⟩
  | .battle _ _ _ _, p, _, _, _, hA, ⟨⟨l, hl, hown⟩, hflag, hwon, hlost, hkid, hkid'⟩ =>
    ⟨⟨l, hl, hown.frame hrun (hA p (mem_below p))⟩, fun h => hrun.flag (hflag h),
      hwon.frame hrun (hA p (mem_below p)), hlost.frame hrun (hA p (mem_below p)),
      hkid.frame hrun fun q hq => hA q (below_cons _ p hq),
      hkid'.frame hrun fun q hq => hA q (below_cons _ p hq)⟩

/-! ## Relaying -/

/-- In the passing mode a status goes up. -/
theorem relay_up {p : Pid} {battle_ID : Char} {won : Side} {st₀ st : Status}
    {up l told : List Status} {read : ℕ} (hown : Own s p (.passRead battle_ID won st₀) up read)
    (hwon : Link s p won l.length told) (hsent : s.sent (.stdout (won :: p)) = l ++ [st]) :
    ∃ t, (network S).Runs {p} ∅ s t ∧ Own t p (.passBack battle_ID won st) (up ++ [st]) read ∧
      Link t p won (l ++ [st]).length told ∧
      ∀ heard told', Link s p won.other heard told' → Link t p won.other heard told' := by
  obtain ⟨s₁, hrun₁, hproc₁, hsent₁, hgot₁, -⟩ := runs_read (N := network S) (X := ∅) (p := p)
    (c := .stdout (won :: p)) (k := fun stat => .passUp battle_ID won stat)
    (by rw [hown.proc]; rfl) hsent hwon.heard (by simp [network, reader])
  obtain ⟨s₂, hrun₂, hproc₂, hsent₂, hgot₂, -⟩ := runs_write (N := network S) (X := ∅) (p := p)
    (c := .stdout p) (v := st) (l := .passBack battle_ID won st)
    (by rw [hproc₁]; rfl) (by simp [network, writer])
  refine ⟨s₂, hrun₁.trans hrun₂, ⟨hproc₂, ?_, ?_⟩, ⟨?_, ?_⟩, fun heard told' h => ⟨?_, ?_⟩⟩
  · rw [hsent₂, Function.update_self, hsent₁, hown.out]
  · simp [hgot₂, hgot₁, hown.read]
  · simp [hgot₂, hgot₁, hwon.heard]
  · simp [hsent₂, hsent₁, hwon.told]
  · simp [hgot₂, hgot₁, h.heard]
  · simp [hsent₂, hsent₁, h.told]

/-- Where a battle goes on after it handed down an answer. -/
def afterRelay (battle_ID : Char) (won : Side) (r : Status) : Local :=
  if r.current_battle_id = 'A' ∧ r.battle_ended_flag ≠ 0 then .waitWinner
  else passLoop battle_ID won r

/-- In the passing mode an answer comes down. -/
theorem relay_down {p : Pid} {battle_ID : Char} {won : Side} {st₀ r : Status}
    {up l told : List Status} {heard : ℕ} (hown : Own s p (.passBack battle_ID won st₀) up l.length)
    (hwon : Link s p won heard told) (hsent : s.sent (.stdin p) = l ++ [r]) :
    ∃ t, (network S).Runs {p} ∅ s t ∧
      Own t p (afterRelay battle_ID won r) up (l ++ [r]).length ∧
      Link t p won heard (told ++ [r]) ∧
      ∀ heard told', Link s p won.other heard told' → Link t p won.other heard told' := by
  obtain ⟨s₁, hrun₁, hproc₁, hsent₁, hgot₁, -⟩ := runs_read (N := network S) (X := ∅) (p := p)
    (c := .stdin p) (k := fun stat => .passDown battle_ID won stat)
    (by rw [hown.proc]; rfl) hsent hown.read (by simp [network, reader])
  obtain ⟨s₂, hrun₂, hproc₂, hsent₂, hgot₂, -⟩ := runs_write (N := network S) (X := ∅) (p := p)
    (c := .stdin (won :: p)) (v := r) (l := afterRelay battle_ID won r)
    (by rw [hproc₁]; rfl) (by simp [network, writer])
  refine ⟨s₂, hrun₁.trans hrun₂, ⟨hproc₂, ?_, ?_⟩, ⟨?_, ?_⟩, fun heard told' h => ⟨?_, ?_⟩⟩
  · simp [hsent₂, hsent₁, hown.out]
  · simp [hgot₂, hgot₁, hown.read]
  · simp [hgot₂, hgot₁, hwon.heard]
  · simp [hsent₂, hsent₁, hwon.told]
  · simp [hgot₂, hgot₁, h.heard]
  · simp [hsent₂, hsent₁, h.told]

/-- The status that is ready goes up. -/
theorem Stands.send {st : Status} : ∀ {P : Played} {s : State} {p : Pid} {up down : List Status},
    Stands S s P p up down (.ready st) →
    ∃ t, (network S).Runs (below p) ∅ s t ∧ Stands S t P p (up ++ [st]) down (.waiting st)
  | .player player_ID, s, p, up, down, ⟨⟨l, hl, hown⟩, _⟩ => by
    obtain rfl : l = _ := hl
    obtain ⟨t, hrun, hproc, hsent, hgot, -⟩ := runs_write (N := network S) (X := ∅) (p := p)
      (c := .stdout p) (v := st)
      (l := .playerRead player_ID (S.file st.real_player_id).HP st)
      (by rw [hown.proc]; rfl) (by simp [network, writer])
    refine ⟨t, hrun.mono (singleton_subset_below p) (Set.Subset.refl _),
      ⟨_, rfl, hproc, ?_, ?_⟩, nofun⟩
    · rw [hsent, Function.update_self, hown.out]
    · rw [hgot, hown.read]
  | .battle battle_ID won rounds kid, s, p, up, down,
      ⟨⟨l, ⟨st₀, hl⟩, hown⟩, _, hwon, hlost, hkid, hkid'⟩ => by
    subst hl
    -- the child that won sends the status first
    obtain ⟨s₁, hrun₁, hkid₁⟩ := hkid.send
    have hp := not_mem_below_cons won p
    obtain ⟨_, hout⟩ := hkid₁.exists_own
    obtain ⟨s₂, hrun₂, hown₂, hwon₂, hlost₂⟩ := relay_up (hown.frame hrun₁ hp)
      (hwon.frame hrun₁ hp) hout.out
    refine ⟨s₂, (hrun₁.mono (below_cons _ p) (Set.Subset.refl _)).trans
      (hrun₂.mono (singleton_subset_below p) (Set.Subset.refl _)), ⟨_, ⟨st, rfl⟩, hown₂⟩,
      nofun, ?_, hlost₂ _ _ (hlost.frame hrun₁ hp), ?_, ?_⟩
    · rwa [← List.append_assoc]
    · rw [← List.append_assoc]
      exact hkid₁.frame hrun₂ (below_cons_ne won p)
    · refine (hkid'.frame hrun₁ fun q hq => ?_).frame hrun₂ (below_cons_ne won.other p)
      exact below_disjoint (Side.other_ne won) p hq

/-! ## Answers after which the player goes on -/

/-- An answer after which the player goes on to the next round or to the next battle. -/
structure GoesOn (r : Status) : Prop where
  HP : 0 < r.HP
  battle_ended_flag : r.battle_ended_flag = 0 ∨
    r.battle_ended_flag = 1 ∧ r.current_battle_id ≠ 'A'

/-- The status with which the player goes on. -/
def Setup.answer (S : Setup) (r : Status) : Status :=
  if r.battle_ended_flag ≠ 1 then r else S.recover r

theorem Setup.answer_player (S : Setup) (r : Status) :
    (S.answer r).real_player_id = r.real_player_id := by
  unfold Setup.answer
  split_ifs <;> rfl

theorem GoesOn.playing {r : Status} (h : GoesOn r) (player_ID : ℤ) :
    playing player_ID (S.file r.real_player_id).HP r =
      .playerWrite player_ID (S.file r.real_player_id).HP (S.answer r) := by
  unfold Championship.playing Setup.answer
  rcases h.battle_ended_flag with hflag | ⟨hflag, hid⟩
  · simp [hflag]
  · simp [hflag, hid, h.HP, Setup.recover]

theorem GoesOn.afterRelay {r : Status} (h : GoesOn r) (battle_ID : Char) (won : Side) :
    afterRelay battle_ID won r = .passRead battle_ID won r := by
  have hnot : ¬(r.current_battle_id = 'A' ∧ r.battle_ended_flag ≠ 0) := by
    rintro ⟨hid, hflag⟩
    rcases h.battle_ended_flag with hflag' | ⟨-, hid'⟩
    · exact hflag hflag'
    · exact hid' hid
  unfold Championship.afterRelay passLoop
  rw [if_neg hnot, if_pos h.HP]

/-- The answer comes down to the player, which goes on. -/
theorem Stands.deliver {st r : Status} (hplayer : r.real_player_id = st.real_player_id)
    (hr : GoesOn r) : ∀ {P : Played} {s : State} {p : Pid} {up down : List Status},
    Stands S s P p up down (.waiting st) → s.sent (.stdin p) = down ++ [r] →
    ∃ t, (network S).Runs (below p) ∅ s t ∧
      Stands S t P p up (down ++ [r]) (.ready (S.answer r))
  | .player player_ID, s, p, up, down, ⟨⟨l, hl, hown⟩, _⟩, hsent => by
    obtain rfl : l = _ := hl
    obtain ⟨t, hrun, hproc, hsent', hgot, -⟩ := runs_read (N := network S) (X := ∅) (p := p)
      (c := .stdin p) (k := playing player_ID (S.file r.real_player_id).HP)
      (by rw [hown.proc, hplayer]; rfl) hsent hown.read (by simp [network, reader])
    refine ⟨t, hrun.mono (singleton_subset_below p) (Set.Subset.refl _),
      ⟨_, rfl, ?_, ?_, ?_⟩, nofun⟩
    · rw [hproc, hr.playing, Setup.answer_player]
    · rw [hsent', hown.out]
    · simp [hgot, hown.read]
  | .battle battle_ID won rounds kid, s, p, up, down,
      ⟨⟨l, ⟨st₀, hl⟩, hown⟩, _, hwon, hlost, hkid, hkid'⟩, hsent => by
    subst hl
    -- the battle hands the answer down first
    obtain ⟨s₁, hrun₁, hown₁, hwon₁, hlost₁⟩ := relay_down hown hwon hsent
    rw [hr.afterRelay] at hown₁
    obtain ⟨s₂, hrun₂, hkid₂⟩ := (hkid.frame hrun₁ (below_cons_ne won p)).deliver hplayer hr
      hwon₁.told
    have hp := not_mem_below_cons won p
    refine ⟨s₂, (hrun₁.mono (singleton_subset_below p) (Set.Subset.refl _)).trans
      (hrun₂.mono (below_cons _ p) (Set.Subset.refl _)), ⟨_, ⟨r, rfl⟩, hown₁.frame hrun₂ hp⟩,
      nofun, ?_, (hlost₁ _ _ hlost).frame hrun₂ hp, ?_, ?_⟩
    · rw [← List.append_assoc]
      exact hwon₁.frame hrun₂ hp
    · rwa [← List.append_assoc]
    · refine (hkid'.frame hrun₁ (below_cons_ne won.other p)).frame hrun₂ fun q hq => ?_
      exact below_disjoint (Side.other_ne won) p hq

/-! ## Answers after which the player exits -/

/-- An answer after which the player exits. -/
structure Quits (r : Status) : Prop where
  battle_ended_flag : r.battle_ended_flag = 1
  HP : r.current_battle_id ≠ 'A' → r.HP ≤ 0

theorem Quits.afterRelay {r : Status} (h : Quits r) (battle_ID : Char) (won : Side) :
    afterRelay battle_ID won r = .waitWinner := by
  unfold Championship.afterRelay passLoop
  have hflag : r.battle_ended_flag ≠ 0 := by
    rw [h.battle_ended_flag]
    decide
  by_cases hid : r.current_battle_id = 'A'
  · rw [if_pos ⟨hid, hflag⟩]
  · rw [if_neg fun hc => hid hc.1, if_neg (not_lt.2 (h.HP hid))]

/-- A process exits. -/
theorem exit_spec {p : Pid} {up : List Status} {read : ℕ} (hown : Own s p .exiting up read) :
    ∃ t, (network S).Runs {p} X s t ∧ Own t p .exited up read ∧ t.flag (.exited p) = true ∧
      t.sent = s.sent ∧ t.got = s.got := by
  obtain ⟨t, hrun, hproc, hsent, hgot, hflag⟩ := runs_raise (N := network S) (X := X) (p := p)
    (f := .exited p) (l := .exited) (by rw [hown.proc]; rfl)
  exact ⟨t, hrun, ⟨hproc, by rw [hsent, hown.out], by rw [hgot, hown.read]⟩, hflag, hsent, hgot⟩

/-- The player hands its status over, unless the championship is over for it. -/
def HandsOver (player_ID : ℤ) (r : Status) : Prop :=
  (0 ≤ player_ID ∧ player_ID ≤ 7) ∧ r.current_battle_id ≠ 'A'

instance (player_ID : ℤ) (r : Status) : Decidable (HandsOver player_ID r) :=
  inferInstanceAs (Decidable (_ ∧ _))

theorem Quits.playing {r : Status} (h : Quits r) (player_ID : ℤ) :
    playing player_ID (S.file r.real_player_id).HP r =
      if HandsOver player_ID r then .openFIFO (graph r.current_battle_id).loser (S.restore r)
      else .exiting := by
  unfold Championship.playing HandsOver
  by_cases hid : r.current_battle_id = 'A'
  · simp [h.battle_ended_flag, hid]
  · simp [h.battle_ended_flag, hid, not_lt.2 (h.HP hid), Setup.restore]

/-- The last steps of a player : it reads the answer, hands its status over if it has to, and
exits. -/
theorem player_quit {p : Pid} {player_ID : ℤ} {st r : Status} {up down : List Status}
    (hown : Own s p (.playerRead player_ID (S.file st.real_player_id).HP st) up down.length)
    (hsent : s.sent (.stdin p) = down ++ [r]) (hplayer : r.real_player_id = st.real_player_id)
    (hr : Quits r) (hopen : HandsOver player_ID r →
      s.flag (.openRead (graph r.current_battle_id).loser) = true) :
    ∃ t, (network S).Runs {p} {.fifo (graph r.current_battle_id).loser} s t ∧
      Own t p .exited up (down ++ [r]).length ∧ t.flag (.exited p) = true ∧
      t.got = Function.update s.got (.stdin p) (s.got (.stdin p) + 1) ∧
      t.sent (.fifo (graph r.current_battle_id).loser) =
        s.sent (.fifo (graph r.current_battle_id).loser) ++
          (if HandsOver player_ID r then [S.restore r] else []) ∧
      (HandsOver player_ID r → t.flag (.openWrite (graph r.current_battle_id).loser) = true) := by
  set n := (graph r.current_battle_id).loser with hn
  obtain ⟨s₁, hrun₁, hproc₁, hsent₁, hgot₁, hflag₁⟩ := runs_read (N := network S) (X := {.fifo n})
    (p := p) (c := .stdin p) (k := playing player_ID (S.file r.real_player_id).HP)
    (by rw [hown.proc, hplayer]; rfl) hsent hown.read (by simp [network, reader])
  rw [hr.playing, ← hn] at hproc₁
  have hread₁ : s₁.got (.stdin p) = (down ++ [r]).length := by
    simp [hgot₁, hown.read]
  have hout₁ : s₁.sent (.stdout p) = up := by
    rw [hsent₁, hown.out]
  by_cases hover : HandsOver player_ID r
  · rw [if_pos hover] at hproc₁ ⊢
    -- the other side of the FIFO is open, so `open` does not block
    obtain ⟨s₂, hrun₂, hproc₂, hsent₂, hgot₂, hflag₂⟩ := runs_raise (N := network S)
      (X := {.fifo n}) (p := p) (f := .openWrite n) (l := .blockedFIFO n (S.restore r))
      (by rw [hproc₁]; rfl)
    obtain ⟨s₃, hrun₃, hproc₃, hsent₃, hgot₃, hflag₃⟩ := runs_await (N := network S)
      (X := {.fifo n}) (p := p) (l := .writeFIFO n (S.restore r)) (by rw [hproc₂]; rfl)
      (hrun₂.flag (hrun₁.flag (hopen hover)))
    obtain ⟨s₄, hrun₄, hproc₄, hsent₄, hgot₄, hflag₄⟩ := runs_write (N := network S)
      (X := {.fifo n}) (p := p) (c := .fifo n) (v := S.restore r) (l := .exiting)
      (by rw [hproc₃]; rfl) (by simp)
    have hown₄ : Own s₄ p .exiting up (down ++ [r]).length := by
      refine ⟨hproc₄, ?_, ?_⟩
      · simp [hsent₄, hsent₃, hsent₂, hout₁]
      · rw [hgot₄, hgot₃, hgot₂, hread₁]
    obtain ⟨t, hrun₅, hown₅, hexit, hsent₅, hgot₅⟩ := exit_spec (X := {.fifo n}) hown₄
    refine ⟨t, (((hrun₁.trans hrun₂).trans hrun₃).trans hrun₄).trans hrun₅, hown₅, hexit, ?_, ?_,
      fun _ => hrun₅.flag (hrun₄.flag (hrun₃.flag hflag₂))⟩
    · rw [hgot₅, hgot₄, hgot₃, hgot₂, hgot₁]
    · rw [hsent₅, hsent₄, Function.update_self, hsent₃, hsent₂, hsent₁]
  · rw [if_neg hover] at hproc₁ ⊢
    obtain ⟨t, hrun₂, hown₂, hexit, hsent₂, hgot₂⟩ := exit_spec (X := {.fifo n})
      (⟨hproc₁, hout₁, hread₁⟩ : Own s₁ p .exiting up (down ++ [r]).length)
    refine ⟨t, hrun₁.trans hrun₂, hown₂, hexit, ?_, ?_, fun h => absurd h hover⟩
    · rw [hgot₂, hgot₁]
    · rw [hsent₂, hsent₁, List.append_nil]

theorem waited_two {p : Pid} {flag : Flag → Bool} (w : Side) (hw : flag (.exited (w :: p)) = true)
    (ho : flag (.exited (w.other :: p)) = true) : waited p 2 flag = true := by
  cases w <;> simp_all [waited, Side.other]

/-- The last answer comes down, the player exits, and then the battles that passed it on. -/
theorem Stands.quit {st r : Status} (hplayer : r.real_player_id = st.real_player_id)
    (hr : Quits r) : ∀ {P : Played} {s : State} {p : Pid} {up down : List Status},
    Stands S s P p up down (.waiting st) → s.sent (.stdin p) = down ++ [r] →
    (HandsOver P.survivor r → s.flag (.openRead (graph r.current_battle_id).loser) = true) →
    ∃ t, (network S).Runs (below p) {.fifo (graph r.current_battle_id).loser} s t ∧
      Stands S t P p up (down ++ [r]) .done ∧
      t.got (.fifo (graph r.current_battle_id).loser) =
        s.got (.fifo (graph r.current_battle_id).loser) ∧
      t.sent (.fifo (graph r.current_battle_id).loser) =
        s.sent (.fifo (graph r.current_battle_id).loser) ++
          (if HandsOver P.survivor r then [S.restore r] else []) ∧
      (HandsOver P.survivor r →
        t.flag (.openWrite (graph r.current_battle_id).loser) = true)
  | .player player_ID, s, p, up, down, ⟨⟨l, hl, hown⟩, _⟩, hsent, hopen => by
    obtain rfl : l = _ := hl
    obtain ⟨t, hrun, hown', hexit, hgot, hfifo, hflag⟩ := player_quit hown hsent hplayer hr hopen
    exact ⟨t, hrun.mono (singleton_subset_below p) (Set.Subset.refl _),
      ⟨⟨_, rfl, hown'⟩, fun _ => hexit⟩, by simp [hgot], hfifo, hflag⟩
  | .battle battle_ID won rounds kid, s, p, up, down,
      ⟨⟨l, ⟨st₀, hl⟩, hown⟩, _, hwon, hlost, hkid, hkid'⟩, hsent, hopen => by
    subst hl
    set n := (graph r.current_battle_id).loser with hn
    obtain ⟨s₁, hrun₁, hown₁, hwon₁, hlost₁⟩ := relay_down hown hwon hsent
    rw [hr.afterRelay] at hown₁
    obtain ⟨s₂, hrun₂, hkid₂, hgot₂, hfifo₂, hflag₂⟩ :=
      (hkid.frame hrun₁ (below_cons_ne won p)).quit hplayer hr hwon₁.told
        fun h => hrun₁.flag (hopen h)
    have hp := not_mem_below_cons won p
    have hown₂ := hown₁.frame hrun₂ hp
    have hkid₂' := (hkid'.frame hrun₁ (below_cons_ne won.other p)).frame hrun₂
      fun q hq => below_disjoint (Side.other_ne won) p hq
    -- both children have exited
    obtain ⟨s₃, hrun₃, hproc₃, hsent₃, hgot₃, -⟩ := runs_await (N := network S) (X := {.fifo n})
      (p := p) (l := .exiting) (by rw [hown₂.proc]; rfl)
      (waited_two won hkid₂.exited hkid₂'.exited)
    have hown₃ : Own s₃ p .exiting up (down ++ [r]).length :=
      ⟨hproc₃, by rw [hsent₃, hown₂.out], by rw [hgot₃, hown₂.read]⟩
    obtain ⟨t, hrun₄, hown₄, hexit, hsent₄, hgot₄⟩ := exit_spec (X := {.fifo n}) hown₃
    have hlast := hrun₃.trans hrun₄
    have hsent : t.sent = s₂.sent := hsent₄.trans hsent₃
    have hgot : t.got = s₂.got := hgot₄.trans hgot₃
    refine ⟨t, ((hrun₁.mono (singleton_subset_below p) (Set.empty_subset _)).trans
      (hrun₂.mono (below_cons _ p) (Set.Subset.refl _))).trans
      (hlast.mono (singleton_subset_below p) (Set.Subset.refl _)),
      ⟨⟨_, rfl, hown₄⟩, fun _ => hexit, ?_, ?_, ?_, ?_⟩, ?_, ?_, fun h => hlast.flag (hflag₂ h)⟩
    · rw [← List.append_assoc]
      exact (hwon₁.frame hrun₂ hp).of_eq hsent hgot
    · exact ((hlost₁ _ _ hlost).frame hrun₂ hp).of_eq hsent hgot
    · rw [← List.append_assoc]
      exact hkid₂.frame hlast (below_cons_ne won p)
    · exact hkid₂'.frame hlast (below_cons_ne won.other p)
    · rw [hgot, hgot₂, hrun₁.shared_got _ (Set.notMem_empty _) rfl]
    · rw [hsent, hfifo₂, hrun₁.shared_sent _ (Set.notMem_empty _) rfl]
      rfl

/-- A player that hands nothing over uses no FIFO. -/
theorem Stands.leave {P : Played} {p : Pid} {up down : List Status} {st r : Status}
    (hplayer : r.real_player_id = st.real_player_id) (hr : Quits r)
    (hover : ¬HandsOver P.survivor r) (h : Stands S s P p up down (.waiting st))
    (hsent : s.sent (.stdin p) = down ++ [r]) :
    ∃ t, (network S).Runs (below p) ∅ s t ∧ Stands S t P p up (down ++ [r]) .done := by
  obtain ⟨t, hrun, hdone, hgot, hfifo, -⟩ := h.quit hplayer hr hsent fun hc => absurd hc hover
  rw [if_neg hover, List.append_nil] at hfifo
  refine ⟨t, hrun.shrink (fun c hc _ _ => ?_) fun c hc _ _ => ?_, hdone⟩
  · obtain rfl := Set.mem_singleton_iff.1 hc
    exact hfifo
  · obtain rfl := Set.mem_singleton_iff.1 hc
    exact hgot

end Stands

end SP2022.Championship
