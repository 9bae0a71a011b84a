import SP2022.ChampionshipBoot

/-!
# The battles of a bracket

Who wins and who loses the battles of a bracket whose players enter with given statuses
(`Tournament`). From a state in which the players are ready, the processes of the bracket can
fight all its battles (`tournament_runs`) : then the bracket stands with its winner, and every
real player that lost has written its status to the FIFO of its battle. The agents that read
these FIFOs are then the players of another bracket (`wake`).
-/

namespace SP2022.Championship

open Network

/-- The battles of a bracket, from the statuses `entry` of its players : its winner's status
for the next battle, and the losers with the statuses they lost with. -/
inductive Tournament (S : Setup) (entry : ℤ → Status) :
    Bracket → Played → Status → List (Char × Status) → Prop
  | player (n : ℤ) : Tournament S entry (.player n) (.player n) (entry n) []
  | battle {battle_ID : Char} {kid : Side → Bracket} {kid' : Side → Played} {e f : Side → Status}
    {w : Side} {rounds : List Round} {losers : Side → List (Char × Status)}
    (hkid : ∀ x, Tournament S entry (kid x) (kid' x) (e x) (losers x))
    (hfought : Fought battle_ID e rounds f) (hend : Ended battle_ID e f w) :
    Tournament S entry (.battle battle_ID kid) (.battle battle_ID w rounds kid')
      (S.recover (f w)) ((battle_ID, f w.other) :: (losers .left ++ losers .right))

/-- The FIFO of a battle. -/
def fifoOf (battle_ID : Char) : Chan :=
  .fifo (graph battle_ID).loser

/-- The FIFOs of the battles of a bracket, for real players. -/
def Bracket.gates (b : Bracket) (real : Prop) : Set Chan :=
  {c | real ∧ ∃ battle_ID ∈ b.ids, c = fifoOf battle_ID}

/-- The FIFOs of the battles are different, empty, and their agents wait. -/
structure Gates (s : State) (b : Bracket) : Prop where
  nodup : (b.ids.map fifoOf).Nodup
  openRead : ∀ battle_ID ∈ b.ids, s.flag (.openRead (graph battle_ID).loser) = true
  empty : ∀ battle_ID ∈ b.ids, s.sent (.fifo (graph battle_ID).loser) = []

/-- A player is ready with its status. -/
def Ready (S : Setup) (entry : ℤ → Status) (n : ℤ) (p : Pid) (s : State) : Prop :=
  Stands S s (.player n) p [] [] (.ready (entry n))

section Tournament

variable {S : Setup} {A : Set Pid} {X : Set Chan} {s t : State} {entry : ℤ → Status}

/-- The winner enters the next battle as its rules ask. -/
theorem Tournament.fit {b : Bracket} {P : Played} {st : Status}
    {losers : List (Char × Status)} (h : Tournament S entry b P st losers)
    (hentry : ∀ n ∈ b.leaves, S.Fit (entry n)) : S.Fit st := by
  induction h with
  | player n => exact hentry n (List.mem_singleton.2 rfl)
  | @battle battle_ID kid kid' e f w rounds losers hkid hfought hend ih =>
    have he := ih w fun n hn => hentry n (mem_leaves_kid _ w hn)
    exact he.recover (hend.same w) hend.winner

theorem Tournament.survivor_mem {b : Bracket} {P : Played} {st : Status}
    {losers : List (Char × Status)} (h : Tournament S entry b P st losers) :
    P.survivor ∈ b.leaves := by
  induction h with
  | player n => exact List.mem_singleton.2 rfl
  | @battle battle_ID kid kid' e f w rounds losers hkid hfought hend ih =>
    exact mem_leaves_kid _ w (ih w)

theorem Tournament.ids_losers {b : Bracket} {P : Played} {st : Status}
    {losers : List (Char × Status)} (h : Tournament S entry b P st losers) :
    losers.map Prod.fst = b.ids := by
  induction h with
  | player n => rfl
  | @battle battle_ID kid kid' e f w rounds losers hkid hfought hend ih =>
    rw [List.map_cons, List.map_append, ih .left, ih .right]
    rfl

theorem Gates.kid {battle_ID : Char} {kid : Side → Bracket}
    (h : Gates s (.battle battle_ID kid)) (x : Side) : Gates s (kid x) := by
  refine ⟨?_, fun c hc => h.openRead c (mem_ids_kid x hc), fun c hc => h.empty c (mem_ids_kid x hc)⟩
  have hnodup := (List.nodup_cons.1 h.nodup).2
  rw [List.map_append] at hnodup
  exact Side.nodup_append (l := fun x => (kid x).ids.map fifoOf) hnodup x

/-- What the other parts do leaves the gates of a part as they are. -/
theorem Gates.frame {b : Bracket} (h : Gates s b) (hrun : (network S).Runs A X s t)
    (hX : ∀ c ∈ b.ids, fifoOf c ∉ X) : Gates t b :=
  ⟨h.nodup, fun c hc => hrun.flag (h.openRead c hc),
    fun c hc => (hrun.shared_sent _ (hX c hc) rfl).trans (h.empty c hc)⟩

/-- The three parts of a bracket have different gates. -/
theorem Gates.disjoint {battle_ID : Char} {kid : Side → Bracket}
    (h : Gates s (.battle battle_ID kid)) :
    (∀ x, ∀ c ∈ (kid x).ids, fifoOf c ≠ fifoOf battle_ID) ∧
      ∀ c ∈ (kid .left).ids, ∀ d ∈ (kid .right).ids, fifoOf c ≠ fifoOf d := by
  have hnodup := List.nodup_cons.1 h.nodup
  rw [List.map_append, List.nodup_append, List.mem_append, not_or] at hnodup
  obtain ⟨⟨hl, hr⟩, -, -, hlr⟩ := hnodup
  refine ⟨Side.forall.2 ⟨fun c hc heq => ?_, fun c hc heq => ?_⟩, fun c hc d hd => ?_⟩
  · exact hl (heq ▸ List.mem_map_of_mem hc)
  · exact hr (heq ▸ List.mem_map_of_mem hc)
  · exact hlr _ (List.mem_map_of_mem hc) _ (List.mem_map_of_mem hd)

/-- The FIFOs after the battles of a bracket : an agent finds there the loser of its battle. -/
def Handed (S : Setup) (t : State) (losers : List (Char × Status)) : Prop :=
  ∀ l ∈ losers, t.sent (.fifo (graph l.1).loser) = [S.restore l.2] ∧
    t.flag (.openWrite (graph l.1).loser) = true

theorem Handed.frame {losers : List (Char × Status)} (h : Handed S s losers)
    (hrun : (network S).Runs A X s t) (hX : ∀ l ∈ losers, fifoOf l.1 ∉ X) : Handed S t losers :=
  fun l hl => ⟨(hrun.shared_sent _ (hX l hl) rfl).trans (h l hl).1, hrun.flag (h l hl).2⟩

/-- A battle that is won touches only its own FIFO, and that only for a real player. -/
theorem Playing.passes (hS : S.Valid) {real : Prop} {battle_ID : Char} {p : Pid}
    {kid : Side → Played} {rounds : List Round} {e f : Side → Status} {w : Side}
    (hf : Fought battle_ID e rounds f) (he : ∀ x, S.Fit (e x)) (hend : Ended battle_ID e f w)
    (hID : battle_ID ≠ 'A') (hp : p ≠ []) (h : Playing S s p battle_ID kid [] e)
    (hsurvivor : 0 ≤ (kid w.other).survivor ∧ (kid w.other).survivor ≤ 7 ↔ real)
    (hopen : real → s.flag (.openRead (graph battle_ID).loser) = true) :
    ∃ t, (network S).Runs (below p) {c | real ∧ c = fifoOf battle_ID} s t ∧
      Stands S t (.battle battle_ID w rounds kid) p [] [] (.ready (S.recover (f w))) ∧
      (∀ m, t.got (.fifo m) = s.got (.fifo m)) ∧
      (real → t.sent (.fifo (graph battle_ID).loser) =
        s.sent (.fifo (graph battle_ID).loser) ++ [S.restore (f w.other)] ∧
        t.flag (.openWrite (graph battle_ID).loser) = true) := by
  have hover : HandsOver (kid w.other).survivor (f w.other) ↔ real :=
    ⟨fun h => hsurvivor.1 h.1, fun h => ⟨hsurvivor.2 h, (hend.same w.other).battle ▸ hID⟩⟩
  obtain ⟨t, hrun, hstands, hgot, hfifo, hflag⟩ := h.won hS hf he hend hID hp
    fun h => hopen (hover.1 h)
  refine ⟨t, hrun.shrink (fun c hc hnot _ => ?_) fun c hc _ _ => ?_, hstands, fun m => ?_,
    fun hreal => ⟨?_, hflag (hover.2 hreal)⟩⟩
  · obtain rfl := Set.mem_singleton_iff.1 hc
    rw [hfifo, if_neg fun h => hnot ⟨hover.1 h, rfl⟩, List.append_nil]
  · obtain rfl := Set.mem_singleton_iff.1 hc
    exact hgot
  · by_cases hm : m = (graph battle_ID).loser
    · rw [hm, hgot]
    · exact hrun.shared_got _ (fun hc => hm (Chan.fifo.inj hc)) rfl
  · rw [hfifo, if_pos (hover.2 hreal)]

/-- The processes of a bracket fight its battles. -/
theorem tournament_runs (real : Prop) (hS : S.Valid) : ∀ {b : Bracket} {p : Pid} {s : State},
    p ≠ [] → 'A' ∉ b.ids → (∀ n ∈ b.leaves, S.Fit (entry n) ∧ (0 ≤ n ∧ n ≤ 7 ↔ real)) →
    (real → Gates s b) → Idle s (Ready S entry) b p →
    ∃ t P st losers, Tournament S entry b P st losers ∧
      (network S).Runs (below p) (b.gates real) s t ∧ Stands S t P p [] [] (.ready st) ∧
      (∀ m, t.got (.fifo m) = s.got (.fifo m)) ∧ (real → Handed S t losers)
  | .player n, p, s, _, _, _, _, hidle =>
    ⟨s, _, _, _, .player n, Runs.refl s, hidle, fun _ => rfl, fun _ _ hl => by cases hl⟩
  | .battle battle_ID kid, p, s, hp, hroot, hleaf, hgates, ⟨⟨stat1, stat2, hown⟩, hlink, hkid⟩ => by
    have hp' := fun x => not_mem_below_cons x p
    have hsub : ∀ x, (kid x).gates real ⊆ (Bracket.battle battle_ID kid).gates real :=
      fun x c ⟨hreal, d, hd, hc⟩ => ⟨hreal, d, mem_ids_kid x hd, hc⟩
    have hkid_runs := fun x {s : State} (hg : real → Gates s (kid x)) =>
      tournament_runs real hS (s := s) (List.cons_ne_nil x p) (fun hA => hroot (mem_ids_kid x hA))
        (fun n hn => hleaf n (mem_leaves_kid _ x hn)) hg
    -- first the battles on the left, then those on the right
    obtain ⟨s₁, P₁, st₁, losers₁, htour₁, hrun₁, hstands₁, hgot₁, hhanded₁⟩ :=
      hkid_runs .left (fun hreal => (hgates hreal).kid .left) (hkid .left)
    have hright : ∀ q ∈ below (.right :: p), q ∉ below (.left :: p) := fun q hq =>
      below_disjoint (by decide) p hq
    have hleft : ∀ q ∈ below (.left :: p), q ∉ below (.right :: p) := fun q hq =>
      below_disjoint (by decide) p hq
    obtain ⟨s₂, P₂, st₂, losers₂, htour₂, hrun₂, hstands₂, hgot₂, hhanded₂⟩ :=
      hkid_runs .right
        (fun hreal => ((hgates hreal).kid .right).frame hrun₁ fun c hc ⟨_, d, hd, heq⟩ =>
          (hgates hreal).disjoint.2 d hd c hc heq.symm)
        ((hkid .right).frame hrun₁ (fun n _ q hq hready => hready.frame hrun₁ fun q' hq' =>
          hright q' (hq.trans hq')) hright)
    set kid' := both (P₁, P₂) with hkid'
    set e := both (st₁, st₂) with he'
    set losers := both (losers₁, losers₂) with hlosers
    have htour : ∀ x, Tournament S entry (kid x) (kid' x) (e x) (losers x) :=
      Side.forall.2 ⟨htour₁, htour₂⟩
    have he : ∀ x, S.Fit (e x) := fun x =>
      (htour x).fit fun n hn => (hleaf n (mem_leaves_kid _ x hn)).1
    have hplaying : Playing S s₂ p battle_ID kid' [] e :=
      ⟨⟨stat1, stat2, (hown.frame hrun₁ (hp' _)).frame hrun₂ (hp' _)⟩,
        fun x => ((hlink x).frame hrun₁ (hp' _)).frame hrun₂ (hp' _),
        Side.forall.2 ⟨hstands₁.frame hrun₂ hleft, hstands₂⟩⟩
    -- then the battle itself
    obtain ⟨rounds, f, hf⟩ := hS.exists_fought battle_ID (e .left).HP.toNat he
      (Int.self_le_toNat _)
    obtain ⟨w, hend⟩ := hf.ends hS he
    have hID : battle_ID ≠ 'A' := fun h => hroot (h ▸ List.mem_cons_self)
    have hsurvivor := mem_leaves_kid battle_ID w.other (htour w.other).survivor_mem
    obtain ⟨t, hrun₃, hstands₃, hgot₃, hhanded₃⟩ := hplaying.passes hS hf he hend hID hp
      (hleaf _ hsurvivor).2 fun hreal =>
        hrun₂.flag (hrun₁.flag ((hgates hreal).openRead _ List.mem_cons_self))
    have hown_sub : {c | real ∧ c = fifoOf battle_ID} ⊆
        (Bracket.battle battle_ID kid).gates real :=
      fun c ⟨hreal, hc⟩ => ⟨hreal, battle_ID, List.mem_cons_self, hc⟩
    refine ⟨t, _, _, _, .battle htour hf hend, ((hrun₁.mono (below_cons _ p) (hsub _)).trans
      (hrun₂.mono (below_cons _ p) (hsub _))).trans (hrun₃.mono (Set.Subset.refl _) hown_sub),
      hstands₃, fun m => by rw [hgot₃, hgot₂, hgot₁], fun hreal => ?_⟩
    obtain ⟨hown_gate, hkid_gate⟩ := (hgates hreal).disjoint
    have hmem : ∀ x, ∀ l ∈ losers x, l.1 ∈ (kid x).ids := fun x l hl =>
      (htour x).ids_losers ▸ List.mem_map_of_mem hl
    have hquiet : ∀ x, fifoOf battle_ID ∉ (kid x).gates real := fun x ⟨_, d, hd, heq⟩ =>
      hown_gate x d hd heq.symm
    have hempty : s₂.sent (.fifo (graph battle_ID).loser) = [] :=
      (hrun₂.shared_sent _ (hquiet _) rfl).trans
        ((hrun₁.shared_sent _ (hquiet _) rfl).trans
          ((hgates hreal).empty _ List.mem_cons_self))
    have hhanded : ∀ x, Handed S t (losers x) := by
      refine Side.forall.2
        ⟨((hhanded₁ hreal).frame hrun₂ fun l hl => ?_).frame hrun₃ fun l hl => ?_,
        (hhanded₂ hreal).frame hrun₃ fun l hl => ?_⟩
      · exact fun ⟨_, d, hd, heq⟩ => hkid_gate l.1 (hmem .left l hl) d hd heq
      · exact fun hc => hown_gate .left l.1 (hmem .left l hl) hc.2
      · exact fun hc => hown_gate .right l.1 (hmem .right l hl) hc.2
    intro l hl
    rcases List.mem_cons.1 hl with rfl | hl
    · refine ⟨?_, (hhanded₃ hreal).2⟩
      rw [(hhanded₃ hreal).1, hempty, List.nil_append]
    · obtain ⟨x, hl⟩ := Side.mem_append.1 hl
      exact hhanded x l hl

/-! ## The agents -/

/-- An agent waits for the other end of its FIFO. -/
def Asleep (n : ℤ) (p : Pid) (s : State) : Prop :=
  Own s p (.blockedAgent n) [] 0

/-- There is a status for the agent in its FIFO, and nobody has read it. -/
structure Posted (s : State) (entry : ℤ → Status) (n : ℤ) : Prop where
  openWrite : s.flag (.openWrite n) = true
  sent : s.sent (.fifo n) = [entry n]
  got : s.got (.fifo n) = 0

/-- An agent takes over the status from its FIFO. -/
theorem wake_player {n : ℤ} {p : Pid} (hfit : S.Fit (entry n))
    (hHP : (entry n).HP = (S.file (entry n).real_player_id).HP) (hposted : Posted s entry n)
    (hown : Own s p (.blockedAgent n) [] 0) :
    ∃ t, (network S).Runs {p} {.fifo n} s t ∧ Ready S entry n p t ∧ t.sent = s.sent := by
  obtain ⟨s₁, hrun₁, hproc₁, hsent₁, hgot₁, -⟩ := runs_await (N := network S) (X := {.fifo n})
    (p := p) (l := .readFIFO n) (by rw [hown.proc]; rfl) hposted.openWrite
  obtain ⟨t, hrun₂, hproc₂, hsent₂, hgot₂, -⟩ := runs_read (N := network S) (X := {.fifo n})
    (p := p) (c := .fifo n) (k := fun status => playing n status.HP status)
    (by rw [hproc₁]; rfl) (l := []) (by rw [hsent₁, hposted.sent]; rfl)
    (by rw [hgot₁, hposted.got]; rfl) (by simp)
  have hplaying : playing n (entry n).HP (entry n) =
      .playerWrite n (S.file (entry n).real_player_id).HP (entry n) := by
    rw [playing, if_pos, hHP]
    rw [hfit.battle_ended_flag]
    decide
  refine ⟨t, hrun₁.trans hrun₂,
    ⟨⟨_, rfl, hproc₂.trans hplaying, ?_, ?_⟩, fun hph => by cases hph⟩, ?_⟩
  · rw [hsent₂, hsent₁, hown.out]
  · simp [hgot₂, hgot₁, hown.read]
  · rw [hsent₂, hsent₁]

/-- All agents of a bracket take over the statuses from their FIFOs. -/
theorem wake : ∀ {b : Bracket} {p : Pid} {s : State},
    (∀ n ∈ b.leaves, S.Fit (entry n) ∧ (entry n).HP = (S.file (entry n).real_player_id).HP ∧
      Posted s entry n) →
    b.leaves.Nodup → Idle s Asleep b p →
    ∃ t, (network S).Runs (below p) {c | ∃ n ∈ b.leaves, c = .fifo n} s t ∧
      Idle t (Ready S entry) b p ∧ t.sent = s.sent
  | .player n, p, s, hleaf, _, hown => by
    obtain ⟨hfit, hHP, hposted⟩ := hleaf n (List.mem_singleton.2 rfl)
    obtain ⟨t, hrun, hready, hsent⟩ := wake_player hfit hHP hposted hown
    refine ⟨t, hrun.mono (singleton_subset_below p) fun c hc => ?_, hready, hsent⟩
    exact ⟨n, List.mem_singleton.2 rfl, hc⟩
  | .battle battle_ID kid, p, s, hleaf, hnodup, ⟨⟨stat1, stat2, hown⟩, hlink, hkid⟩ => by
    obtain ⟨hnodup₁, hnodup₂, hdisjoint⟩ := List.nodup_append.1 hnodup
    have hp' := fun x => not_mem_below_cons x p
    obtain ⟨s₁, hrun₁, hready₁, hsent₁⟩ := wake
      (fun n hn => hleaf n (mem_leaves_kid battle_ID .left hn)) hnodup₁ (hkid .left)
    have hright : ∀ q ∈ below (.right :: p), q ∉ below (.left :: p) := fun q hq =>
      below_disjoint (by decide) p hq
    have hleft : ∀ q ∈ below (.left :: p), q ∉ below (.right :: p) := fun q hq =>
      below_disjoint (by decide) p hq
    obtain ⟨t, hrun₂, hready₂, hsent₂⟩ := wake (s := s₁) (p := .right :: p) (b := kid .right)
      (fun n hn => by
        obtain ⟨hfit, hHP, hposted⟩ :=
          hleaf n (mem_leaves_kid battle_ID .right hn)
        refine ⟨hfit, hHP, hrun₁.flag hposted.openWrite, by rw [hsent₁, hposted.sent], ?_⟩
        refine (hrun₁.shared_got _ (fun ⟨m, hm, heq⟩ => ?_) rfl).trans hposted.got
        exact hdisjoint m hm n hn (Chan.fifo.inj heq).symm)
      hnodup₂ ((hkid .right).frame hrun₁ (fun n _ q hq hasleep =>
        Own.frame hasleep hrun₁ (hright q hq)) hright)
    have hsub : ∀ x, {c : Chan | ∃ n ∈ (kid x).leaves, c = .fifo n} ⊆
        {c | ∃ n ∈ (Bracket.battle battle_ID kid).leaves, c = .fifo n} :=
      fun x c ⟨n, hn, hc⟩ => ⟨n, mem_leaves_kid _ x hn, hc⟩
    refine ⟨t, (hrun₁.mono (below_cons _ p) (hsub _)).trans (hrun₂.mono (below_cons _ p) (hsub _)),
      ⟨⟨stat1, stat2, (hown.frame hrun₁ (hp' _)).frame hrun₂ (hp' _)⟩,
        fun x => ((hlink x).frame hrun₁ (hp' _)).frame hrun₂ (hp' _),
        Side.forall.2 ⟨?_, hready₂⟩⟩, hsent₂.trans hsent₁⟩
    exact hready₁.frame hrun₂ (fun n _ q hq hready => hready.frame hrun₂ fun q' hq' =>
      hleft q' (hq.trans hq')) hleft

end Tournament

end SP2022.Championship
