import SP2022.ChampionshipRelay

/-!
# The playing mode

A battle between two parts whose own battles are over : both send a status up, the battle
fights a round and sends the answers down (`Playing.exchange`), until a round ends it. Then
the part that won goes on, the other one exits, and the battle is in its passing mode
(`Playing.won`), or, at the root, it prints the champion and exits (`Playing.crowned`).
-/

namespace SP2022.Championship

open Network

/-- The battle of `p` is at the top of its loop after `rounds`, and its children are ready with
the statuses `e`. -/
structure Playing (S : Setup) (s : State) (p : Pid) (battle_ID : Char) (kid : Side → Played)
    (rounds : List Round) (e : Side → Status) : Prop where
  own : ∃ stat1 stat2, Own s p (.playRead battle_ID .left stat1 stat2) [] 0
  link : ∀ x, Link s p x rounds.length (downs rounds x)
  kid : ∀ x, Stands S s (kid x) (x :: p) (ups rounds x) (downs rounds x) (.ready (e x))

section Rounds

variable {S : Setup} {A : Set Pid} {X : Set Chan} {s t : State} {p : Pid} {battle_ID : Char}
  {kid : Side → Played} {rounds : List Round} {e f : Side → Status}

theorem ups_append (rounds rounds' : List Round) (x : Side) :
    ups (rounds ++ rounds') x = ups rounds x ++ ups rounds' x :=
  List.map_append

theorem downs_append (rounds rounds' : List Round) (x : Side) :
    downs (rounds ++ rounds') x = downs rounds x ++ downs rounds' x :=
  List.map_append

@[simp] theorem length_ups (rounds : List Round) (x : Side) :
    (ups rounds x).length = rounds.length :=
  List.length_map _

/-- What the battle itself does in a round. -/
theorem play_round {stat1 stat2 : Status} {heard : ℕ} {told l : Side → List Status}
    (hown : Own s p (.playRead battle_ID .left stat1 stat2) [] 0)
    (hlink : ∀ x, Link s p x heard (told x)) (hl : ∀ x, (l x).length = heard)
    (hsent : ∀ x, s.sent (.stdout (x :: p)) = l x ++ [e x]) :
    ∃ t, (network S).Runs {p} ∅ s t ∧
      Own t p (playLoop battle_ID (round battle_ID e .left) (round battle_ID e .right)) [] 0 ∧
      ∀ x, Link t p x (heard + 1) (told x ++ [round battle_ID e x]) := by
  obtain ⟨s₁, hrun₁, hproc₁, hsent₁, hgot₁, -⟩ := runs_read (N := network S) (X := ∅) (p := p)
    (c := .stdout (.left :: p)) (k := fun stat1 => .playRead battle_ID .right stat1 stat2)
    (by rw [hown.proc]; rfl) (hsent .left) ((hlink .left).heard.trans (hl .left).symm)
    (by simp [network, reader])
  obtain ⟨s₂, hrun₂, hproc₂, hsent₂, hgot₂, -⟩ := runs_read (N := network S) (X := ∅) (p := p)
    (c := .stdout (.right :: p))
    (k := fun stat2 => .playWrite battle_ID .left (playRound battle_ID (e .left) stat2).1
      (playRound battle_ID (e .left) stat2).2)
    (by rw [hproc₁]; rfl) (by rw [hsent₁]; exact hsent .right)
    (by simpa [hgot₁] using (hlink .right).heard.trans (hl .right).symm)
    (by simp [network, reader])
  obtain ⟨s₃, hrun₃, hproc₃, hsent₃, hgot₃, -⟩ := runs_write (N := network S) (X := ∅) (p := p)
    (c := .stdin (.left :: p)) (v := round battle_ID e .left)
    (l := .playWrite battle_ID .right (round battle_ID e .left) (round battle_ID e .right))
    (by rw [hproc₂]; rfl) (by simp [network, writer])
  obtain ⟨s₄, hrun₄, hproc₄, hsent₄, hgot₄, -⟩ := runs_write (N := network S) (X := ∅) (p := p)
    (c := .stdin (.right :: p)) (v := round battle_ID e .right)
    (l := playLoop battle_ID (round battle_ID e .left) (round battle_ID e .right))
    (by rw [hproc₃]; rfl) (by simp [network, writer])
  refine ⟨s₄, ((hrun₁.trans hrun₂).trans hrun₃).trans hrun₄, ⟨hproc₄, ?_, ?_⟩,
    Side.forall.2 ⟨⟨?_, ?_⟩, ⟨?_, ?_⟩⟩⟩
  · simp [hsent₄, hsent₃, hsent₂, hsent₁, hown.out]
  · simp [hgot₄, hgot₃, hgot₂, hgot₁, hown.read]
  · simp [hgot₄, hgot₃, hgot₂, hgot₁, (hlink _).heard]
  · simp [hsent₄, hsent₃, hsent₂, hsent₁, (hlink _).told]
  · simp [hgot₄, hgot₃, hgot₂, hgot₁, (hlink _).heard]
  · simp [hsent₄, hsent₃, hsent₂, hsent₁, (hlink _).told]

/-- Both children send their statuses, and the battle answers. -/
theorem Playing.exchange (h : Playing S s p battle_ID kid rounds e) :
    ∃ t, (network S).Runs (below p) ∅ s t ∧
      Own t p (playLoop battle_ID (round battle_ID e .left) (round battle_ID e .right)) [] 0 ∧
      (∀ x, Link t p x (rounds.length + 1) (downs (rounds ++ [⟨e, round battle_ID e⟩]) x)) ∧
      ∀ x, Stands S t (kid x) (x :: p) (ups (rounds ++ [⟨e, round battle_ID e⟩]) x)
        (downs rounds x) (.waiting (e x)) := by
  obtain ⟨stat1, stat2, hown⟩ := h.own
  obtain ⟨s₁, hrun₁, hleft₁⟩ := (h.kid .left).send
  have hright₁ := (h.kid .right).frame hrun₁ fun q hq => below_disjoint (by decide) p hq
  obtain ⟨s₂, hrun₂, hright₂⟩ := hright₁.send
  have hleft₂ := hleft₁.frame hrun₂ fun q hq => below_disjoint (by decide) p hq
  have hp := fun x => not_mem_below_cons x p
  have hkid₂ : ∀ x, Stands S s₂ (kid x) (x :: p) (ups rounds x ++ [e x]) (downs rounds x)
      (.waiting (e x)) := Side.forall.2 ⟨hleft₂, hright₂⟩
  obtain ⟨t, hrun₃, hown₃, hlink₃⟩ := play_round (S := S) (l := ups rounds)
    ((hown.frame hrun₁ (hp _)).frame hrun₂ (hp _))
    (fun x => ((h.link x).frame hrun₁ (hp _)).frame hrun₂ (hp _)) (fun x => length_ups rounds x)
    fun x => (hkid₂ x).exists_own.choose_spec.out
  refine ⟨t, ((hrun₁.mono (below_cons _ p) (Set.Subset.refl _)).trans
    (hrun₂.mono (below_cons _ p) (Set.Subset.refl _))).trans
    (hrun₃.mono (singleton_subset_below p) (Set.Subset.refl _)), hown₃, fun x => ?_, fun x => ?_⟩
  · rw [downs_append]
    exact hlink₃ x
  · rw [ups_append]
    exact (hkid₂ x).frame hrun₃ (below_cons_ne x p)

/-- After a round that does not end the battle, both children are ready again. -/
theorem Playing.next (hS : S.Valid) (he : ∀ x, S.Fit (e x))
    (hgo : ∀ x, S.Fit (round battle_ID e x)) (h : Playing S s p battle_ID kid rounds e) :
    ∃ t, (network S).Runs (below p) ∅ s t ∧
      Playing S t p battle_ID kid (rounds ++ [⟨e, round battle_ID e⟩]) (round battle_ID e) := by
  obtain ⟨s₁, hrun₁, hown₁, hlink₁, hkid₁⟩ := h.exchange
  have hsame := (hS.round_cases battle_ID he).1
  have hgoes : ∀ x, GoesOn (round battle_ID e x) := fun x =>
    ⟨(hgo x).HP_pos, .inl (hgo x).battle_ended_flag⟩
  have hanswer : ∀ x, S.answer (round battle_ID e x) = round battle_ID e x := fun x => by
    unfold Setup.answer
    rw [if_pos]
    rw [(hgo x).battle_ended_flag]
    decide
  have hloop : playLoop battle_ID (round battle_ID e .left) (round battle_ID e .right) =
      .playRead battle_ID .left (round battle_ID e .left) (round battle_ID e .right) := by
    unfold playLoop
    rw [if_pos]
    rw [(hgo .left).battle_ended_flag]
    decide
  have htold : ∀ x, s₁.sent (.stdin (x :: p)) = downs rounds x ++ [round battle_ID e x] :=
    fun x => (hlink₁ x).told.trans (downs_append _ _ _)
  have hp := fun x => not_mem_below_cons x p
  obtain ⟨s₂, hrun₂, hleft₂⟩ := (hkid₁ .left).deliver (hsame _).player (hgoes _) (htold _)
  have hright₂ := (hkid₁ .right).frame hrun₂ fun q hq => below_disjoint (by decide) p hq
  obtain ⟨s₃, hrun₃, hright₃⟩ := hright₂.deliver (hsame _).player (hgoes _)
    (((hlink₁ .right).frame hrun₂ (hp _)).told.trans (downs_append _ _ _))
  have hleft₃ := hleft₂.frame hrun₃ fun q hq => below_disjoint (by decide) p hq
  refine ⟨s₃, (hrun₁.trans (hrun₂.mono (below_cons _ p) (Set.Subset.refl _))).trans
    (hrun₃.mono (below_cons _ p) (Set.Subset.refl _)), ⟨_, _, hloop ▸
      (hown₁.frame hrun₂ (hp _)).frame hrun₃ (hp _)⟩, fun x => ?_, Side.forall.2 ⟨?_, ?_⟩⟩
  · rw [List.length_append]
    exact ((hlink₁ x).frame hrun₂ (hp _)).frame hrun₃ (hp _)
  · rw [hanswer] at hleft₃
    rw [downs_append]
    exact hleft₃
  · rw [hanswer] at hright₃
    rw [downs_append]
    exact hright₃

/-- The battle comes to its last round. -/
theorem Playing.last_round (hS : S.Valid) {rounds' : List Round}
    (hf : Fought battle_ID e rounds' f) : ∀ {s : State} {rounds : List Round},
    (∀ x, S.Fit (e x)) → Playing S s p battle_ID kid rounds e →
    ∃ t init e', rounds' = init ++ [⟨e', round battle_ID e'⟩] ∧ f = round battle_ID e' ∧
      (∀ x, S.Fit (e' x)) ∧ (network S).Runs (below p) ∅ s t ∧
      Playing S t p battle_ID kid (rounds ++ init) e' := by
  induction hf with
  | @last e hlast =>
    intro s rounds he h
    exact ⟨s, [], e, rfl, rfl, he, Runs.refl s, by rwa [List.append_nil]⟩
  | @next e f rounds' hnext rest ih =>
    intro s rounds he h
    obtain ⟨-, hgo | ⟨w, hend⟩⟩ := hS.round_cases battle_ID he
    · obtain ⟨s₁, hrun₁, h₁⟩ := h.next hS he fun x => (hgo x).1
      obtain ⟨t, init, e', hrounds, hf, he', hrun₂, h₂⟩ := ih (fun x => (hgo x).1) h₁
      refine ⟨t, ⟨e, round battle_ID e⟩ :: init, e', by rw [hrounds]; rfl, hf, he',
        hrun₁.trans hrun₂, ?_⟩
      rwa [List.append_assoc] at h₂
    · exact absurd (hend.battle_ended_flag .left) hnext

theorem waited_one {p : Pid} {flag : Flag → Bool} (x : Side) (hx : flag (.exited (x :: p)) = true) :
    waited p 1 flag = true := by
  cases x <;> simp [waited, hx]

/-- The battle stops in its loop when a round ended it, and then finds the winner. -/
theorem Ended.playLoop {w : Side} (h : Ended battle_ID e f w) :
    playLoop battle_ID (f .left) (f .right) = .waitLoser battle_ID (f .left) (f .right) := by
  unfold Championship.playLoop
  rw [if_neg]
  rw [h.battle_ended_flag .left]
  decide

theorem Ended.afterBattle {w : Side} (h : Ended battle_ID e f w) (p : Pid) :
    afterBattle p battle_ID (f .left) (f .right) =
      if p ≠ [] then .passRead battle_ID w (f w) else .print (f w).real_player_id := by
  have hwinner := h.winner
  have hloser := h.loser
  unfold Championship.afterBattle
  cases w
  · simp [not_le.2 hwinner, passLoop, hwinner]
  · simp only [Side.other] at hloser
    simp [hloser, passLoop, hwinner]

/-- The battle fights its rounds, and then its players wait for the last answer, which is there
already. -/
theorem Playing.fought (hS : S.Valid) {w : Side} (hf : Fought battle_ID e rounds f)
    (he : ∀ x, S.Fit (e x)) (hend : Ended battle_ID e f w)
    (h : Playing S s p battle_ID kid [] e) :
    ∃ (t : State) (told : Side → List Status) (e' : Side → Status),
      (network S).Runs (below p) ∅ s t ∧
      Own t p (.waitLoser battle_ID (f .left) (f .right)) [] 0 ∧
      (∀ x, downs rounds x = told x ++ [f x]) ∧ (∀ x, Same battle_ID (e' x) (f x)) ∧
      (∀ x, Link t p x rounds.length (downs rounds x)) ∧
      ∀ x, Stands S t (kid x) (x :: p) (ups rounds x) (told x) (.waiting (e' x)) := by
  obtain ⟨s₁, init, e', rfl, rfl, he', hrun₁, h₁⟩ := h.last_round hS hf he
  obtain ⟨t, hrun₂, hown₂, hlink₂, hkid₂⟩ := h₁.exchange
  rw [hend.playLoop] at hown₂
  refine ⟨t, downs init, e', hrun₁.trans hrun₂, hown₂, fun x => downs_append _ _ _,
    (hS.round_cases battle_ID he').1, fun x => ?_, hkid₂⟩
  rw [List.length_append]
  exact hlink₂ x

/-- The winner goes on, the loser exits, and the battle passes on what the winner does. -/
theorem Playing.won (hS : S.Valid) {w : Side} (hf : Fought battle_ID e rounds f)
    (he : ∀ x, S.Fit (e x)) (hend : Ended battle_ID e f w) (hroot : battle_ID ≠ 'A')
    (hp : p ≠ []) (h : Playing S s p battle_ID kid [] e)
    (hopen : HandsOver (kid w.other).survivor (f w.other) →
      s.flag (.openRead (graph battle_ID).loser) = true) :
    ∃ t, (network S).Runs (below p) {.fifo (graph battle_ID).loser} s t ∧
      Stands S t (.battle battle_ID w rounds kid) p [] [] (.ready (S.recover (f w))) ∧
      t.got (.fifo (graph battle_ID).loser) = s.got (.fifo (graph battle_ID).loser) ∧
      t.sent (.fifo (graph battle_ID).loser) = s.sent (.fifo (graph battle_ID).loser) ++
        (if HandsOver (kid w.other).survivor (f w.other) then [S.restore (f w.other)] else []) ∧
      (HandsOver (kid w.other).survivor (f w.other) →
        t.flag (.openWrite (graph battle_ID).loser) = true) := by
  obtain ⟨s₁, told, e', hrun₁, hown₁, hdowns, hsame, hlink₁, hkid₁⟩ := h.fought hS hf he hend
  have hloser : (f w.other).current_battle_id = battle_ID := (hsame _).battle
  have hwinner : (f w).current_battle_id = battle_ID := (hsame _).battle
  have hp' := fun x => not_mem_below_cons x p
  have hne := Side.other_ne w
  -- the winner hears its answer, and then the loser
  obtain ⟨s₂, hrun₂, hwon₂⟩ := (hkid₁ w).deliver (hsame w).player
    ⟨hend.winner, .inr ⟨hend.battle_ended_flag w, hwinner ▸ hroot⟩⟩
    ((hlink₁ w).told.trans (hdowns w))
  have hlost₂ := (hkid₁ w.other).frame hrun₂ fun q hq => below_disjoint hne p hq
  obtain ⟨s₃, hrun₃, hlost₃, hgot₃, hfifo₃, hflag₃⟩ := hlost₂.quit (hsame _).player
    ⟨hend.battle_ended_flag _, fun _ => hend.loser⟩
    (((hlink₁ w.other).frame hrun₂ (hp' w)).told.trans (hdowns w.other))
    fun hover => hloser ▸ hrun₂.flag (hrun₁.flag (hopen hover))
  have hwon₃ := hwon₂.frame hrun₃ fun q hq => below_disjoint hne.symm p hq
  rw [hloser] at hrun₃ hgot₃ hfifo₃ hflag₃
  have hown₃ := (hown₁.frame hrun₂ (hp' w)).frame hrun₃ (hp' w.other)
  have hlink₃ := fun x => ((hlink₁ x).frame hrun₂ (hp' w)).frame hrun₃ (hp' w.other)
  -- one child has exited
  have hafter := hend.afterBattle p
  rw [if_pos hp] at hafter
  obtain ⟨t, hrun₄, hproc₄, hsent₄, hgot₄, -⟩ := runs_await (N := network S)
    (X := {.fifo (graph battle_ID).loser}) (p := p) (l := .passRead battle_ID w (f w))
    (by rw [hown₃.proc, ← hafter]; rfl) (waited_one w.other hlost₃.exited)
  have hlink₄ := fun x => (hlink₃ x).of_eq hsent₄ hgot₄
  have hquiet : ∀ {A s t}, (network S).Runs A ∅ s t →
      t.sent (.fifo (graph battle_ID).loser) = s.sent (.fifo (graph battle_ID).loser) ∧
        t.got (.fifo (graph battle_ID).loser) = s.got (.fifo (graph battle_ID).loser) :=
    fun hrun => ⟨hrun.shared_sent _ (Set.notMem_empty _) rfl,
      hrun.shared_got _ (Set.notMem_empty _) rfl⟩
  have hbelow := Set.empty_subset {Chan.fifo (graph battle_ID).loser}
  refine ⟨t, (((hrun₁.mono (Set.Subset.refl _) hbelow).trans
    (hrun₂.mono (below_cons _ p) hbelow)).trans
    (hrun₃.mono (below_cons _ p) (Set.Subset.refl _))).trans
    (hrun₄.mono (singleton_subset_below p) (Set.Subset.refl _)),
    ⟨⟨_, ⟨_, rfl⟩, hproc₄, by rw [hsent₄, hown₃.out], by rw [hgot₄, hown₃.read]; rfl⟩, nofun,
      ?_, ?_, ?_, ?_⟩, ?_, ?_, fun hover => hrun₄.flag (hflag₃ hover)⟩
  · rw [List.append_nil, List.append_nil, length_ups]
    exact hlink₄ w
  · rw [length_ups]
    exact hlink₄ w.other
  · have hanswer : S.answer (f w) = S.recover (f w) := by
      unfold Setup.answer
      rw [if_neg]
      rw [hend.battle_ended_flag w]
      decide
    rw [List.append_nil, List.append_nil, hdowns, ← hanswer]
    exact hwon₃.frame hrun₄ (below_cons_ne w p)
  · rw [hdowns]
    exact hlost₃.frame hrun₄ (below_cons_ne w.other p)
  · rw [hgot₄, hgot₃, (hquiet hrun₂).2, (hquiet hrun₁).2]
  · rw [hsent₄, hfifo₃, (hquiet hrun₂).1, (hquiet hrun₁).1]

/-- The last steps of the root, when both players have exited : it prints the champion and
exits. -/
theorem crown_spec {w : Side} (hend : Ended 'A' e f w)
    (hown : Own s [] (.waitLoser 'A' (f .left) (f .right)) [] 0)
    (hexited : ∀ x, s.flag (.exited [x]) = true) :
    ∃ t, (network S).Runs {[]} {.terminal} s t ∧ Own t [] .exited [] 0 ∧
      t.flag (.exited []) = true ∧ t.got = s.got ∧
      t.sent = Function.update s.sent .terminal
        (s.sent .terminal ++ [champion (f w).real_player_id]) := by
  have hafter := hend.afterBattle []
  rw [if_neg (not_not.2 rfl)] at hafter
  obtain ⟨s₁, hrun₁, hproc₁, hsent₁, hgot₁, hflag₁⟩ := runs_await (N := network S)
    (X := {.terminal}) (p := []) (l := .print (f w).real_player_id)
    (by rw [hown.proc, ← hafter]; rfl) (waited_one .left (hexited .left))
  obtain ⟨s₂, hrun₂, hproc₂, hsent₂, hgot₂, hflag₂⟩ := runs_write (N := network S)
    (X := {.terminal}) (p := []) (c := .terminal) (v := champion (f w).real_player_id)
    (l := .waitWinner) (by rw [hproc₁]; rfl) (by simp)
  have hexited₂ : ∀ x, s₂.flag (.exited [x]) = true := fun x => by rw [hflag₂, hflag₁, hexited x]
  obtain ⟨s₃, hrun₃, hproc₃, hsent₃, hgot₃, -⟩ := runs_await (N := network S) (X := {.terminal})
    (p := []) (l := .exiting) (by rw [hproc₂]; rfl)
    (waited_two .left (hexited₂ .left) (hexited₂ .right))
  have hown₃ : Own s₃ [] .exiting [] 0 := by
    refine ⟨hproc₃, ?_, ?_⟩
    · simp [hsent₃, hsent₂, hsent₁, hown.out]
    · rw [hgot₃, hgot₂, hgot₁, hown.read]
  obtain ⟨t, hrun₄, hown₄, hexit, hsent₄, hgot₄⟩ := exit_spec (X := {.terminal}) hown₃
  refine ⟨t, ((hrun₁.trans hrun₂).trans hrun₃).trans hrun₄, hown₄, hexit, ?_, ?_⟩
  · rw [hgot₄, hgot₃, hgot₂, hgot₁]
  · rw [hsent₄, hsent₃, hsent₂, hsent₁]

/-- At the root both players exit, and the one that won is the champion. -/
theorem Playing.crowned (hS : S.Valid) {w : Side} (hf : Fought 'A' e rounds f)
    (he : ∀ x, S.Fit (e x)) (hend : Ended 'A' e f w) (h : Playing S s [] 'A' kid [] e) :
    ∃ t, (network S).Runs (below []) {.terminal} s t ∧
      Stands S t (.battle 'A' w rounds kid) [] [] [] .done ∧
      t.sent .terminal = s.sent .terminal ++ [champion (f w).real_player_id] := by
  obtain ⟨s₁, told, e', hrun₁, hown₁, hdowns, hsame, hlink₁, hkid₁⟩ := h.fought hS hf he hend
  have hquits : ∀ x, Quits (f x) := fun x =>
    ⟨hend.battle_ended_flag x, fun hid => absurd (hsame x).battle hid⟩
  have hkeeps : ∀ x n, ¬HandsOver n (f x) := fun x n hover => hover.2 (hsame x).battle
  have hp' := fun x => not_mem_below_cons x []
  obtain ⟨s₂, hrun₂, hleft₂⟩ := (hkid₁ .left).leave (hsame _).player (hquits _) (hkeeps _ _)
    ((hlink₁ .left).told.trans (hdowns .left))
  have hright₂ := (hkid₁ .right).frame hrun₂ fun q hq => below_disjoint (by decide) [] hq
  obtain ⟨s₃, hrun₃, hright₃⟩ := hright₂.leave (hsame _).player (hquits _) (hkeeps _ _)
    (((hlink₁ .right).frame hrun₂ (hp' _)).told.trans (hdowns .right))
  have hleft₃ := hleft₂.frame hrun₃ fun q hq => below_disjoint (by decide) [] hq
  have hkid₃ : ∀ x, Stands S s₃ (kid x) [x] (ups rounds x) (downs rounds x) .done :=
    Side.forall.2 ⟨(hdowns .left).symm ▸ hleft₃, (hdowns .right).symm ▸ hright₃⟩
  have hlink₃ := fun x => ((hlink₁ x).frame hrun₂ (hp' _)).frame hrun₃ (hp' _)
  obtain ⟨t, hrun₄, hown₄, hexit, hgot₄, hsent₄⟩ := crown_spec (S := S) hend
    ((hown₁.frame hrun₂ (hp' _)).frame hrun₃ (hp' _)) fun x => (hkid₃ x).exited
  have hlink₄ : ∀ x, Link t [] x (ups rounds x).length (downs rounds x) := by
    refine fun x => ⟨?_, ?_⟩
    · rw [hgot₄, length_ups, (hlink₃ x).heard]
    · simpa [hsent₄] using (hlink₃ x).told
  have hkid₄ := fun x => (hkid₃ x).frame hrun₄ (below_cons_ne x [])
  refine ⟨t, ?_, ⟨⟨_, rfl, hown₄⟩, fun _ => hexit, ?_, hlink₄ _, ?_, hkid₄ _⟩, ?_⟩
  · have hbelow := Set.empty_subset {Chan.terminal}
    have hroot : ∀ x, below [x] ⊆ below [] := fun x => below_cons x []
    exact (((hrun₁.mono (Set.Subset.refl _) hbelow).trans (hrun₂.mono (hroot _) hbelow)).trans
      (hrun₃.mono (hroot _) hbelow)).trans
      (hrun₄.mono (singleton_subset_below []) (Set.Subset.refl _))
  · rw [List.append_nil, List.append_nil]
    exact hlink₄ w
  · rw [List.append_nil, List.append_nil]
    exact hkid₄ w
  · have hquiet : ∀ {A s t}, (network S).Runs A ∅ s t → t.sent .terminal = s.sent .terminal :=
      fun hrun => hrun.shared_sent _ (Set.notMem_empty _) rfl
    rw [hsent₄, Function.update_self, hquiet hrun₃, hquiet hrun₂, hquiet hrun₁]

end Rounds

end SP2022.Championship
