import SP2022.ChampionshipRounds

/-!
# Starting the processes

The tree of battles and players that `graph` describes (`Bracket.Wired`), and the run in which
every battle forks its children (`boot`) : then all battles are at the top of their loops, the
real players are ready and the agents wait for the other end of their FIFOs (`Idle`).
-/

namespace SP2022.Championship

open Network

/-- A tree of battles and players. -/
inductive Bracket
  | player (player_ID : ℤ)
  | battle (battle_ID : Char) (kid : Side → Bracket)

namespace Bracket

/-- A battle with its two children. -/
def node (battle_ID : Char) (left right : Bracket) : Bracket :=
  .battle battle_ID (both (left, right))

/-- The program that `cmd` starts runs this part, as `graph` says. -/
def Wired : Bracket → Command → Prop
  | .player player_ID, .player argv1 => atoi argv1 = player_ID
  | .battle battle_ID kid, .battle argv1 =>
    argv1.headD '\x00' = battle_ID ∧ ∀ x, (kid x).Wired ((graph battle_ID).command x)
  | _, _ => False

/-- The battles. -/
def ids : Bracket → List Char
  | .player _ => []
  | .battle battle_ID kid => battle_ID :: ((kid .left).ids ++ (kid .right).ids)

/-- The players. -/
def leaves : Bracket → List ℤ
  | .player player_ID => [player_ID]
  | .battle _ kid => (kid .left).leaves ++ (kid .right).leaves

/-- The command lines that the part of `p` writes. -/
def forks : Bracket → Pid → Set Chan
  | .player _, _ => ∅
  | .battle _ kid, p => {c | ∃ x, c = .fork (x :: p) ∨ c ∈ (kid x).forks (x :: p)}

end Bracket

/-- The command lines that were written for the processes of a part. -/
def Forked (s : State) : Bracket → Pid → Prop
  | .player _, _ => True
  | .battle battle_ID kid, p =>
    ∀ x, s.sent (.fork (x :: p)) = [(graph battle_ID).command x] ∧ Forked s (kid x) (x :: p)

/-- The status with which the process of a real player starts. -/
def Setup.initial (S : Setup) (n : ℤ) : Status :=
  ⟨n, (S.file n).HP, (S.file n).ATK, translate (S.file n).attr, (S.file n).current_battle_id,
    (S.file n).battle_ended_flag⟩

/-- All battles of a part are at the top of their loops, and its players are as `leaf` says. -/
def Idle (s : State) (leaf : ℤ → Pid → State → Prop) : Bracket → Pid → Prop
  | .player player_ID, p => leaf player_ID p s
  | .battle battle_ID kid, p =>
    (∃ stat1 stat2, Own s p (.playRead battle_ID .left stat1 stat2) [] 0) ∧
      (∀ x, Link s p x 0 []) ∧ ∀ x, Idle s leaf (kid x) (x :: p)

/-- A player after the start. -/
def Started (S : Setup) (n : ℤ) (p : Pid) (s : State) : Prop :=
  if 0 ≤ n ∧ n ≤ 7 then Own s p (.playerWrite n (S.file n).HP (S.initial n)) [] 0
  else Own s p (.blockedAgent n) [] 0 ∧ s.flag (.openRead n) = true

/-- Nothing has happened yet in the part of `p`, except that `p` may be started. -/
structure Blank (s : State) (p : Pid) : Prop where
  proc : ∀ q ∈ below p, q ≠ p → s.proc q = .unforked
  out : ∀ q ∈ below p, s.sent (.stdout q) = []
  read : ∀ q ∈ below p, s.got (.stdin q) = 0
  link : ∀ q ∈ below p, ∀ x, Link s q x 0 []
  fork : ∀ q ∈ below p, ∀ x, s.sent (.fork (x :: q)) = [] ∧ s.got (.fork (x :: q)) = 0

section Boot

variable {S : Setup} {A : Set Pid} {X : Set Chan} {s t : State}

theorem mem_ids_kid {battle_ID : Char} {kid : Side → Bracket} (x : Side) {c : Char}
    (hc : c ∈ (kid x).ids) : c ∈ (Bracket.battle battle_ID kid).ids :=
  List.mem_cons_of_mem _ ((Side.mem_append (l := fun x => (kid x).ids)).2 ⟨x, hc⟩)

theorem mem_leaves_kid (battle_ID : Char) {kid : Side → Bracket} (x : Side) {n : ℤ}
    (hn : n ∈ (kid x).leaves) : n ∈ (Bracket.battle battle_ID kid).leaves :=
  (Side.mem_append (l := fun x => (kid x).leaves)).2 ⟨x, hn⟩

theorem Idle.frame {leaf : ℤ → Pid → State → Prop} (hrun : (network S).Runs A X s t) :
    ∀ {b : Bracket} {p : Pid}, (∀ n ∈ b.leaves, ∀ q ∈ below p, leaf n q s → leaf n q t) →
      (∀ q ∈ below p, q ∉ A) → Idle s leaf b p → Idle t leaf b p
  | .player n, p, hleaf, _, h => hleaf n (List.mem_singleton.2 rfl) p (mem_below p) h
  | .battle battle_ID kid, p, hleaf, hA, ⟨⟨stat1, stat2, hown⟩, hlink, hkid⟩ => by
    have hp := hA p (mem_below p)
    exact ⟨⟨stat1, stat2, hown.frame hrun hp⟩, fun x => (hlink x).frame hrun hp, fun x =>
      (hkid x).frame hrun (fun n hn q hq => hleaf n (mem_leaves_kid _ x hn) q (below_cons x p hq))
        fun q hq => hA q (below_cons x p hq)⟩

theorem Forked.frame (hrun : (network S).Runs A X s t) : ∀ {b : Bracket} {p : Pid},
    (∀ q ∈ below p, ∀ x, .fork (x :: q) ∉ X) → Forked s b p → Forked t b p
  | .player _, _, _, _ => trivial
  | .battle _ _, p, hX, h => fun x =>
    ⟨(hrun.shared_sent _ (hX p (mem_below p) x) rfl).trans (h x).1,
      (h x).2.frame hrun fun q hq => hX q (below_cons x p hq)⟩

theorem Forked.congr (h : ∀ q, t.sent (.fork q) = s.sent (.fork q)) : ∀ {b : Bracket} {p : Pid},
    Forked s b p → Forked t b p
  | .player _, _, _ => trivial
  | .battle _ _, _, hforked => fun x => ⟨(h _).trans (hforked x).1, (hforked x).2.congr h⟩

theorem Forked.of_mem : ∀ {b : Bracket} {p q : Pid}, Forked s b p → .fork q ∈ b.forks p →
    ∃ cmd, s.sent (.fork q) = [cmd]
  | .player _, _, _, _, hq => hq.elim
  | .battle _ _, _, _, h, ⟨x, hq⟩ =>
    hq.elim (fun hq => ⟨_, Chan.fork.inj hq ▸ (h x).1⟩) (h x).2.of_mem

/-- The command lines of a part are for processes below it. -/
theorem Bracket.mem_forks : ∀ {b : Bracket} {p : Pid} {c : Chan}, c ∈ b.forks p →
    ∃ q ∈ below p, ∃ x, c = .fork (x :: q)
  | .player _, _, _, h => h.elim
  | .battle _ _, p, _, ⟨x, h⟩ => by
    rcases h with rfl | h
    · exact ⟨p, mem_below p, x, rfl⟩
    · obtain ⟨q, hq, y, rfl⟩ := mem_forks h
      exact ⟨q, below_cons x p hq, y, rfl⟩

theorem Started.frame (hrun : (network S).Runs A X s t) {n : ℤ} {q : Pid} (hq : q ∉ A)
    (h : Started S n q s) : Started S n q t := by
  unfold Started at *
  split_ifs at h ⊢
  · exact h.frame hrun hq
  · exact ⟨h.1.frame hrun hq, hrun.flag h.2⟩

theorem Blank.kid {p : Pid} (h : Blank s p) (x : Side) : Blank s (x :: p) := by
  have hsub := fun q (hq : q ∈ below (x :: p)) => below_cons x p hq
  refine ⟨fun q hq _ => h.proc q (hsub q hq) ?_, fun q hq => h.out q (hsub q hq),
    fun q hq => h.read q (hsub q hq), fun q hq => h.link q (hsub q hq),
    fun q hq => h.fork q (hsub q hq)⟩
  rintro rfl
  exact not_mem_below_cons x q hq

theorem Blank.frame {p : Pid} (h : Blank s p) (hrun : (network S).Runs A X s t)
    (hA : ∀ q ∈ below p, q ∉ A) (hX : ∀ q ∈ below p, ∀ x, .fork (x :: q) ∉ X) : Blank t p := by
  refine ⟨fun q hq hne => (hrun.proc (hA q hq)).trans (h.proc q hq hne),
    fun q hq => (hrun.sent (c := .stdout q) rfl (hA q hq)).trans (h.out q hq),
    fun q hq => (hrun.got (c := .stdin q) rfl (hA q hq)).trans (h.read q hq),
    fun q hq x => (h.link q hq x).frame hrun (hA q hq), fun q hq x => ⟨?_, ?_⟩⟩
  · exact (hrun.shared_sent _ (hX q hq x) rfl).trans (h.fork q hq x).1
  · have hx : x :: q ∈ below p := hq.trans (List.suffix_cons x q)
    exact (hrun.got (c := .fork (x :: q)) rfl (hA _ hx)).trans (h.fork q hq x).2

/-- A process that is forked starts its program. -/
theorem Blank.exec {p : Pid} {cmd : Command} (h : Blank s p) (hproc : s.proc p = .unforked)
    (hsent : s.sent (.fork p) = [cmd]) (hgot : s.got (.fork p) = 0) :
    ∃ t, (network S).Runs {p} ∅ s t ∧ t.proc p = execl S cmd ∧ Blank t p := by
  obtain ⟨t, hrun, hproc', hsent', hgot', -⟩ := runs_read (N := network S) (X := ∅) (p := p)
    (c := .fork p) (k := execl S) (by rw [hproc]; rfl) (l := []) hsent hgot
    (by simp [network, reader])
  refine ⟨t, hrun, hproc', ⟨fun q hq hne => ?_, fun q hq => ?_, fun q hq => ?_, fun q hq x => ?_,
    fun q hq x => ?_⟩⟩
  · exact (hrun.proc hne).trans (h.proc q hq hne)
  · rw [hsent', h.out q hq]
  · simpa [hgot'] using h.read q hq
  · exact ⟨by simpa [hgot'] using (h.link q hq x).heard, by rw [hsent', (h.link q hq x).told]⟩
  · have hne : x :: q ≠ p := by
      rintro rfl
      exact not_mem_below_cons x q hq
    exact ⟨by rw [hsent', (h.fork q hq x).1], by simpa [hgot', hne] using (h.fork q hq x).2⟩

/-- A battle forks its children. -/
theorem fork_spec (hS : S.Valid) {p : Pid} {battle_ID : Char}
    (hproc : s.proc p = .forking battle_ID .left) (h : Blank s p) :
    ∃ t, (network S).Runs {p} {.fork (.left :: p), .fork (.right :: p)} s t ∧
      (∃ stat1 stat2, Own t p (.playRead battle_ID .left stat1 stat2) [] 0) ∧
      (∀ x, Link t p x 0 []) ∧
      ∀ x, t.sent (.fork (x :: p)) = [(graph battle_ID).command x] ∧
        t.got (.fork (x :: p)) = 0 := by
  have hp := mem_below p
  obtain ⟨s₁, hrun₁, hproc₁, hsent₁, hgot₁, -⟩ := runs_write (N := network S)
    (X := {.fork (.left :: p), .fork (.right :: p)}) (p := p) (c := .fork (.left :: p))
    (v := (graph battle_ID).command .left) (l := .forking battle_ID .right)
    (by rw [hproc]; rfl) (by simp)
  obtain ⟨t, hrun₂, hproc₂, hsent₂, hgot₂, -⟩ := runs_write (N := network S)
    (X := {.fork (.left :: p), .fork (.right :: p)}) (p := p) (c := .fork (.right :: p))
    (v := (graph battle_ID).command .right)
    (l := playLoop battle_ID (S.stat1 p) (S.stat2 p)) (by rw [hproc₁]; rfl) (by simp)
  rw [playLoop, if_pos (hS.stat1 p)] at hproc₂
  refine ⟨t, hrun₁.trans hrun₂, ⟨_, _, hproc₂, ?_, ?_⟩, fun x => ⟨?_, ?_⟩,
    Side.forall.2 ⟨⟨?_, ?_⟩, ⟨?_, ?_⟩⟩⟩
  · simp [hsent₂, hsent₁, h.out p hp]
  · rw [hgot₂, hgot₁, h.read p hp]
  · rw [hgot₂, hgot₁, (h.link p hp x).heard]
  · simp [hsent₂, hsent₁, (h.link p hp x).told]
  · simp [hsent₂, hsent₁, (h.fork p hp .left).1]
  · rw [hgot₂, hgot₁, (h.fork p hp .left).2]
  · simp [hsent₂, hsent₁, (h.fork p hp .right).1]
  · rw [hgot₂, hgot₁, (h.fork p hp .right).2]

/-- A real player is ready, and an agent waits for the other end of its FIFO. -/
theorem playerMain_spec (hS : S.Valid) {p : Pid} {n : ℤ} (hproc : s.proc p = playerMain S n)
    (h : Blank s p) : ∃ t, (network S).Runs {p} ∅ s t ∧ Started S n p t := by
  have hp := mem_below p
  unfold playerMain at hproc
  unfold Started
  split_ifs at hproc ⊢ with hn
  · refine ⟨s, Runs.refl s, ⟨?_, h.out p hp, h.read p hp⟩⟩
    have hflag := hS.battle_ended_flag n hn.1 hn.2
    rw [hproc, playing, if_pos]
    · rfl
    · simp [hflag]
  · obtain ⟨t, hrun, hproc', hsent, hgot, hflag⟩ := runs_raise (N := network S) (X := ∅) (p := p)
      (f := .openRead n) (l := .blockedAgent n) (by rw [hproc]; rfl)
    exact ⟨t, hrun, ⟨⟨hproc', by rw [hsent, h.out p hp], by rw [hgot, h.read p hp]⟩, hflag⟩⟩

/-- All processes of a part start. -/
theorem boot (hS : S.Valid) : ∀ {b : Bracket} {cmd : Command} {s : State} {p : Pid},
    b.Wired cmd → s.proc p = execl S cmd → Blank s p →
    ∃ t, (network S).Runs (below p) (b.forks p) s t ∧ Idle t (Started S) b p ∧ Forked t b p
  | .player n, .player argv1, s, p, hwired, hproc, h => by
    obtain rfl : atoi argv1 = n := hwired
    obtain ⟨t, hrun, hstarted⟩ := playerMain_spec hS hproc h
    exact ⟨t, hrun.mono (singleton_subset_below p) (Set.Subset.refl _), hstarted, trivial⟩
  | .battle battle_ID kid, .battle argv1, s, p, ⟨hID, hwired⟩, hproc, h => by
    rw [execl, hID] at hproc
    obtain ⟨s₁, hrun₁, ⟨stat1, stat2, hown₁⟩, hlink₁, hfork₁⟩ := fork_spec hS hproc h
    have hp := fun x => not_mem_below_cons x p
    have hmem : ∀ x, x :: p ∈ below p := fun x => List.suffix_cons x p
    have hproc₁ : ∀ x, s₁.proc (x :: p) = .unforked := fun x =>
      (hrun₁.proc (below_cons_ne x p _ (mem_below _))).trans
        (h.proc _ (hmem x) (List.cons_ne_self x p))
    have hblank₁ : ∀ x, Blank s₁ (x :: p) := fun x =>
      (h.kid x).frame hrun₁ (below_cons_ne x p) fun q hq y hy => by
        have hq' : q ≠ p := fun hc => hp x (hc ▸ hq)
        rcases hy with hy | hy <;> exact hq' (List.cons.inj (Chan.fork.inj hy)).2
    -- a child starts, whatever the other one did
    have hkid : ∀ x {s : State}, s.proc (x :: p) = .unforked →
        s.sent (.fork (x :: p)) = [(graph battle_ID).command x] → s.got (.fork (x :: p)) = 0 →
        Blank s (x :: p) → ∃ t, (network S).Runs (below (x :: p)) ((kid x).forks (x :: p)) s t ∧
          Idle t (Started S) (kid x) (x :: p) ∧ Forked t (kid x) (x :: p) := by
      intro x s hproc hsent hgot hblank
      obtain ⟨s', hrun, hproc', hblank'⟩ := hblank.exec (S := S) hproc hsent hgot
      obtain ⟨t, hrun', hidle, hfork⟩ := boot hS (hwired x) hproc' hblank'
      exact ⟨t, (hrun.mono (singleton_subset_below _) (Set.empty_subset _)).trans hrun', hidle,
        hfork⟩
    have hnot : ∀ x y q, q ∉ below (x :: p) → Chan.fork (y :: q) ∉ (kid x).forks (x :: p) := by
      intro x y q hq hc
      obtain ⟨q', hq', z, heq⟩ := Bracket.mem_forks hc
      exact hq ((List.cons.inj (Chan.fork.inj heq)).2 ▸ hq')
    obtain ⟨s₂, hrun₂, hleft₂, hforks₂⟩ := hkid .left (hproc₁ _) (hfork₁ _).1 (hfork₁ _).2
      (hblank₁ _)
    have hright : ∀ q ∈ below (.right :: p), q ∉ below (.left :: p) := fun q hq =>
      below_disjoint (by decide) p hq
    have hleft : ∀ q ∈ below (.left :: p), q ∉ below (.right :: p) := fun q hq =>
      below_disjoint (by decide) p hq
    have hfork₂ : ∀ x, s₂.sent (.fork (x :: p)) = [(graph battle_ID).command x] := fun x =>
      (hrun₂.shared_sent _ (hnot .left x p (hp _)) rfl).trans (hfork₁ x).1
    obtain ⟨t, hrun₃, hright₃, hforks₃⟩ := hkid .right
      ((hrun₂.proc (hright _ (mem_below _))).trans (hproc₁ _)) (hfork₂ _)
      ((hrun₂.got (c := .fork (.right :: p)) rfl (hright _ (mem_below _))).trans (hfork₁ _).2)
      ((hblank₁ _).frame hrun₂ hright fun q hq x => hnot .left x q (hright q hq))
    have hfork₃ : ∀ x, t.sent (.fork (x :: p)) = [(graph battle_ID).command x] := fun x =>
      (hrun₃.shared_sent _ (hnot .right x p (hp _)) rfl).trans (hfork₂ x)
    have hleft₃ := hleft₂.frame hrun₃
      (fun n _ q hq hstarted => hstarted.frame hrun₃ (hleft q hq)) hleft
    have hforks : ∀ x, (kid x).forks (x :: p) ⊆ (Bracket.battle battle_ID kid).forks p :=
      fun x c hc => ⟨x, .inr hc⟩
    refine ⟨t, ((hrun₁.mono (singleton_subset_below p) ?_).trans
      (hrun₂.mono (below_cons _ p) (hforks _))).trans (hrun₃.mono (below_cons _ p) (hforks _)),
      ⟨⟨stat1, stat2, (hown₁.frame hrun₂ (hp _)).frame hrun₃ (hp _)⟩,
        fun x => ((hlink₁ x).frame hrun₂ (hp _)).frame hrun₃ (hp _),
        Side.forall.2 ⟨hleft₃, hright₃⟩⟩,
      Side.forall.2 ⟨⟨hfork₃ _, hforks₂.frame hrun₃ fun q hq x => hnot .right x q (hleft q hq)⟩,
        ⟨hfork₃ _, hforks₃⟩⟩⟩
    rintro c (rfl | rfl)
    · exact ⟨.left, .inl rfl⟩
    · exact ⟨.right, .inl rfl⟩

end Boot

end SP2022.Championship
