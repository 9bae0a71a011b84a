import Mathlib.Data.List.Basic
import Mathlib.Logic.Function.Basic
import SP2022.Runs

/-!
# Networks of processes

Sequential processes that read from and write to unbounded channels, raise flags and wait
for flags. What a process does next (`Op`) depends only on its own state, a read waits for
the next value of its channel, and a flag stays up, so a process cannot tell in which order
the others ran.

A channel may have a fixed reader and a fixed writer. If one run ends in a state in which
every process has halted or waits on a channel of its own for good, and each channel with no
fixed reader or no fixed writer has carried at most one value (`Settled`), then every run can
be extended to one that ends in this state (`run_completes`) : no state is stuck before, and
every order of steps gives the same values on every channel.
-/

namespace SP2022

/-- What a process does next : `C` are channels with values `V`, `F` flags, `L` states. -/
inductive Op (C F : Type) (V : C → Type) (L : Type)
  | read (c : C) (k : V c → L)
  | write (c : C) (v : V c) (l : L)
  | raise (f : F) (l : L)
  | await (ready : (F → Bool) → Bool) (l : L)
  | halt

/-- The state after the operation may be `l`. -/
def Op.Leads {C F L : Type} {V : C → Type} : Op C F V L → L → Prop
  | .read _ k, l => ∃ v, l = k v
  | .write _ _ l', l => l = l'
  | .raise _ l', l => l = l'
  | .await _ l', l => l = l'
  | .halt, _ => False

/-- The states of all processes, what was written to each channel, how much of it was read,
and the flags that are up. -/
@[ext]
structure Config (P C F : Type) (V : C → Type) (L : Type) where
  proc : P → L
  sent : (c : C) → List (V c)
  got : C → ℕ
  flag : F → Bool

/-- If the operation waits for flags, more flags do not make it wait again. -/
def Op.Steady {C F L : Type} {V : C → Type} : Op C F V L → Prop
  | .await ready _ =>
    ∀ f g : F → Bool, (∀ x, f x = true → g x = true) → ready f = true → ready g = true
  | _ => True

/-- Processes `P` with their programs and the state they start in. Only the fixed reader of a
channel reads from it, only its fixed writer writes to it, and a condition on flags stays true
when more flags go up. -/
structure Network (P C F : Type) (V : C → Type) (L : Type) where
  start : Config P C F V L
  op : P → L → Op C F V L
  reader : C → Option P
  writer : C → Option P
  reads : ∀ {p q : P} {l : L} {c : C} {k : V c → L}, op p l = .read c k → reader c = some q → q = p
  writes : ∀ {p q : P} {l l' : L} {c : C} {v : V c},
    op p l = .write c v l' → writer c = some q → q = p
  steady : ∀ p l, (op p l).Steady

namespace Network

variable {P C F L : Type} {V : C → Type}

/-- Values are only added, read on, and flags stay up. -/
structure Grows (s t : Config P C F V L) : Prop where
  sent : ∀ c, s.sent c <+: t.sent c
  got : ∀ c, s.got c ≤ t.got c
  flag : ∀ f, s.flag f = true → t.flag f = true

theorem Grows.refl (s : Config P C F V L) : Grows s s :=
  ⟨fun _ => List.prefix_refl _, fun _ => le_rfl, fun _ h => h⟩

theorem Grows.trans {s t u : Config P C F V L} (h : Grows s t) (h' : Grows t u) : Grows s u :=
  ⟨fun c => (h.sent c).trans (h'.sent c), fun c => (h.got c).trans (h'.got c),
    fun f hf => h'.flag f (h.flag f hf)⟩

/-- No process reads more than was written. -/
def Sane (s : Config P C F V L) : Prop :=
  ∀ c, s.got c ≤ (s.sent c).length

/-- Two operations on the same end of a channel. -/
def Clash (o o' : Op C F V L) : Prop :=
  ∃ c, (∃ k k', o = .read c k ∧ o' = .read c k') ∨
    ∃ v l v' l', o = .write c v l ∧ o' = .write c v' l'

variable [DecidableEq P] [DecidableEq C] [DecidableEq F]

/-- The effect of an operation of the process `p`. -/
def exec (p : P) (o : Op C F V L) (s : Config P C F V L) : Option (Config P C F V L) :=
  match o with
  | .read c k => (s.sent c)[s.got c]?.map fun v =>
      { s with
        proc := Function.update s.proc p (k v)
        got := Function.update s.got c (s.got c + 1) }
  | .write c v l => some
      { s with
        proc := Function.update s.proc p l
        sent := Function.update s.sent c (s.sent c ++ [v]) }
  | .raise f l => some
      { s with
        proc := Function.update s.proc p l
        flag := Function.update s.flag f true }
  | .await ready l =>
    if ready s.flag then some { s with proc := Function.update s.proc p l } else none
  | .halt => none

variable (N : Network P C F V L)

/-- A step of the process `p`. -/
def step (p : P) (s : Config P C F V L) : Option (Config P C F V L) :=
  exec p (N.op p (s.proc p)) s

/-- A run is given by the order in which the processes step. -/
def system : System (Config P C F V L) P where
  init s := s = N.start
  step := N.step

/-! ## What a step changes -/

theorem exec_proc {p q : P} {o : Op C F V L} {s t : Config P C F V L} (h : exec p o s = some t)
    (hne : q ≠ p) : t.proc q = s.proc q := by
  cases o with
  | read c k =>
    obtain ⟨v, -, rfl⟩ := Option.map_eq_some_iff.1 h
    exact Function.update_of_ne hne _ _
  | write c v l =>
    obtain rfl := Option.some.inj h
    exact Function.update_of_ne hne _ _
  | raise f l =>
    obtain rfl := Option.some.inj h
    exact Function.update_of_ne hne _ _
  | await ready l =>
    obtain ⟨-, heq⟩ := Option.ite_none_right_eq_some.1 h
    obtain rfl := Option.some.inj heq
    exact Function.update_of_ne hne _ _
  | halt => cases h

theorem exec_leads {p : P} {o : Op C F V L} {s t : Config P C F V L} (h : exec p o s = some t) :
    o.Leads (t.proc p) := by
  cases o with
  | read c k =>
    obtain ⟨v, -, rfl⟩ := Option.map_eq_some_iff.1 h
    exact ⟨v, Function.update_self _ _ _⟩
  | write c v l =>
    obtain rfl := Option.some.inj h
    exact Function.update_self _ _ _
  | raise f l =>
    obtain rfl := Option.some.inj h
    exact Function.update_self _ _ _
  | await ready l =>
    obtain rfl := Option.some.inj (Option.ite_none_right_eq_some.1 h).2
    exact Function.update_self _ _ _
  | halt => cases h

theorem exec_grows {p : P} {o : Op C F V L} {s t : Config P C F V L} (h : exec p o s = some t) :
    Grows s t := by
  cases o with
  | read c k =>
    obtain ⟨v, -, rfl⟩ := Option.map_eq_some_iff.1 h
    refine ⟨fun _ => List.prefix_refl _, fun d => ?_, fun _ h => h⟩
    by_cases hd : d = c
    · subst hd
      simp
    · simp [hd]
  | write c v l =>
    obtain rfl := Option.some.inj h
    refine ⟨fun d => ?_, fun _ => le_rfl, fun _ h => h⟩
    by_cases hd : d = c
    · subst hd
      simp
    · simp [hd]
  | raise f l =>
    obtain rfl := Option.some.inj h
    refine ⟨fun _ => List.prefix_refl _, fun _ => le_rfl, fun g hg => ?_⟩
    by_cases hd : g = f
    · subst hd
      simp
    · simpa [hd] using hg
  | await ready l =>
    obtain ⟨-, heq⟩ := Option.ite_none_right_eq_some.1 h
    obtain rfl := Option.some.inj heq
    exact ⟨fun _ => List.prefix_refl _, fun _ => le_rfl, fun _ h => h⟩
  | halt => cases h

theorem exec_got {p : P} {o : Op C F V L} {s t : Config P C F V L} (h : exec p o s = some t)
    {c : C} (ho : ∀ k, o ≠ .read c k) : t.got c = s.got c := by
  cases o with
  | read d k =>
    obtain ⟨v, -, rfl⟩ := Option.map_eq_some_iff.1 h
    have hcd : c ≠ d := by
      rintro rfl
      exact ho k rfl
    simp [hcd]
  | write d v l => exact Option.some.inj h ▸ rfl
  | raise f l => exact Option.some.inj h ▸ rfl
  | await ready l => exact Option.some.inj (Option.ite_none_right_eq_some.1 h).2 ▸ rfl
  | halt => cases h

theorem exec_sent {p : P} {o : Op C F V L} {s t : Config P C F V L} (h : exec p o s = some t)
    {c : C} (ho : ∀ v l, o ≠ .write c v l) : t.sent c = s.sent c := by
  cases o with
  | read d k =>
    obtain ⟨v, -, rfl⟩ := Option.map_eq_some_iff.1 h
    rfl
  | write d v l =>
    have hcd : c ≠ d := by
      rintro rfl
      exact ho v l rfl
    obtain rfl := Option.some.inj h
    simp [hcd]
  | raise f l => exact Option.some.inj h ▸ rfl
  | await ready l => exact Option.some.inj (Option.ite_none_right_eq_some.1 h).2 ▸ rfl
  | halt => cases h

/-- A flag goes up in no other way than by `raise`. -/
theorem exec_flag {p : P} {o : Op C F V L} {s t : Config P C F V L} (h : exec p o s = some t)
    {f : F} (hf : t.flag f = true) : s.flag f = true ∨ ∃ l, o = .raise f l ∧ t.proc p = l := by
  cases o with
  | read d k =>
    obtain ⟨v, -, rfl⟩ := Option.map_eq_some_iff.1 h
    exact Or.inl hf
  | write d v l =>
    obtain rfl := Option.some.inj h
    exact Or.inl hf
  | raise g l =>
    obtain rfl := Option.some.inj h
    by_cases hg : f = g
    · subst hg
      exact Or.inr ⟨l, rfl, Function.update_self _ _ _⟩
    · exact Or.inl (by simpa [hg] using hf)
  | await ready l =>
    obtain rfl := Option.some.inj (Option.ite_none_right_eq_some.1 h).2
    exact Or.inl hf
  | halt => cases h

/-- What an operation does does not depend on where the other processes are. -/
theorem exec_congr {p : P} {o : Op C F V L} {s s' t : Config P C F V L} (h : exec p o s = some t)
    (hsent : s'.sent = s.sent) (hgot : s'.got = s.got) (hflag : s'.flag = s.flag) :
    exec p o s' = some { t with proc := Function.update s'.proc p (t.proc p) } := by
  obtain ⟨proc', sent', got', flag'⟩ := s'
  subst hsent hgot hflag
  cases o with
  | read c k =>
    obtain ⟨v, hv, rfl⟩ := Option.map_eq_some_iff.1 h
    exact Option.map_eq_some_iff.2 ⟨v, hv, by simp⟩
  | write c v l =>
    obtain rfl := Option.some.inj h
    simp [exec]
  | raise f l =>
    obtain rfl := Option.some.inj h
    simp [exec]
  | await ready l =>
    obtain ⟨hready, heq⟩ := Option.ite_none_right_eq_some.1 h
    obtain rfl := Option.some.inj heq
    simp [exec, hready]
  | halt => cases h

theorem Sane.exec {p : P} {o : Op C F V L} {s t : Config P C F V L} (hs : Sane s)
    (h : exec p o s = some t) : Sane t := by
  cases o with
  | read c k =>
    obtain ⟨v, hv, rfl⟩ := Option.map_eq_some_iff.1 h
    intro d
    by_cases hd : d = c
    · subst hd
      simpa using Nat.succ_le_of_lt (List.getElem?_eq_some_iff.1 hv).1
    · simpa [hd] using hs d
  | write c v l =>
    have hgrow := exec_grows h
    obtain rfl := Option.some.inj h
    exact fun d => (hs d).trans (hgrow.sent d).length_le
  | raise f l =>
    obtain rfl := Option.some.inj h
    exact hs
  | await ready l =>
    obtain ⟨-, heq⟩ := Option.ite_none_right_eq_some.1 h
    obtain rfl := Option.some.inj heq
    exact hs
  | halt => cases h

/-! ## Steps of different processes commute -/

/-- Two operations can be done in either order. -/
def Commute (p q : P) (o o' : Op C F V L) : Prop :=
  ∀ s s₁ s₂ : Config P C F V L, exec p o s = some s₁ → exec q o' s = some s₂ →
    ∃ t, exec q o' s₁ = some t ∧ exec p o s₂ = some t

theorem Commute.symm {p q : P} {o o' : Op C F V L} (h : Commute p q o o') : Commute q p o' o :=
  fun s s₁ s₂ h₁ h₂ =>
    let ⟨t, ht, ht'⟩ := h s s₂ s₁ h₂ h₁
    ⟨t, ht', ht⟩

theorem commute_read_read {p q : P} (hne : p ≠ q) {c d : C} (hcd : c ≠ d) (k : V c → L)
    (k' : V d → L) : Commute (F := F) p q (.read c k) (.read d k') := by
  intro s s₁ s₂ h₁ h₂
  obtain ⟨v, hv, rfl⟩ := Option.map_eq_some_iff.1 h₁
  obtain ⟨w, hw, rfl⟩ := Option.map_eq_some_iff.1 h₂
  simp [exec, hcd, hcd.symm, hv, hw, Function.update_comm hne, Function.update_comm hcd]

theorem commute_read_write {p q : P} (hne : p ≠ q) {c d : C} (k : V c → L) (w : V d) (l : L) :
    Commute (F := F) p q (.read c k) (.write d w l) := by
  intro s s₁ s₂ h₁ h₂
  obtain ⟨v, hv, rfl⟩ := Option.map_eq_some_iff.1 h₁
  obtain rfl := Option.some.inj h₂
  refine ⟨_, rfl, ?_⟩
  have hv' : (Function.update s.sent d (s.sent d ++ [w]) c)[s.got c]? = some v := by
    by_cases hcd : c = d
    · subst hcd
      rw [Function.update_self, List.getElem?_append_left (List.getElem?_eq_some_iff.1 hv).1, hv]
    · rw [Function.update_of_ne hcd, hv]
  simp [exec, hv', Function.update_comm hne]

theorem commute_write_write {p q : P} (hne : p ≠ q) {c d : C} (hcd : c ≠ d) (v : V c) (w : V d)
    (l l' : L) : Commute (F := F) p q (.write c v l) (.write d w l') := by
  intro s s₁ s₂ h₁ h₂
  obtain rfl := Option.some.inj h₁
  obtain rfl := Option.some.inj h₂
  simp [exec, hcd, hcd.symm, Function.update_comm hne, Function.update_comm hcd]

/-- A raised flag can only help another process. -/
theorem commute_raise {p q : P} (hne : p ≠ q) (f : F) (l : L) {o' : Op C F V L}
    (ho' : o'.Steady) : Commute p q (.raise f l) o' := by
  intro s s₁ s₂ h₁ h₂
  have hup := (exec_grows h₁).flag
  obtain rfl := Option.some.inj h₁
  refine ⟨_, ?_, rfl⟩
  cases o' with
  | read d k =>
    obtain ⟨w, hw, rfl⟩ := Option.map_eq_some_iff.1 h₂
    simp [exec, hw, Function.update_comm hne]
  | write d w l' =>
    obtain rfl := Option.some.inj h₂
    simp [exec, Function.update_comm hne]
  | raise g l' =>
    obtain rfl := Option.some.inj h₂
    by_cases hfg : f = g
    · subst hfg
      simp [exec, Function.update_comm hne]
    · simp [exec, Function.update_comm hne, Function.update_comm hfg]
  | await ready l' =>
    obtain ⟨hr, heq⟩ := Option.ite_none_right_eq_some.1 h₂
    obtain rfl := Option.some.inj heq
    have hr' := ho' _ _ hup hr
    simp only at hr'
    simp [exec, hr', Function.update_comm hne]
  | halt => cases h₂

/-- Waiting can be postponed. -/
theorem commute_await {p q : P} (hne : p ≠ q) {ready : (F → Bool) → Bool} {l : L}
    (ho : Op.Steady (V := V) (C := C) (.await ready l)) (o' : Op C F V L) :
    Commute p q (.await ready l) o' := by
  intro s s₁ s₂ h₁ h₂
  obtain ⟨hr, heq⟩ := Option.ite_none_right_eq_some.1 h₁
  obtain rfl := Option.some.inj heq
  have hr' := ho _ _ (exec_grows h₂).flag hr
  cases o' with
  | read d k =>
    obtain ⟨w, hw, rfl⟩ := Option.map_eq_some_iff.1 h₂
    simp [exec, hw, hr, Function.update_comm hne]
  | write d w l' =>
    obtain rfl := Option.some.inj h₂
    simp [exec, hr, Function.update_comm hne]
  | raise g l' =>
    obtain rfl := Option.some.inj h₂
    simp only at hr'
    simp [exec, hr', Function.update_comm hne]
  | await ready' l' =>
    obtain ⟨hw, heq⟩ := Option.ite_none_right_eq_some.1 h₂
    obtain rfl := Option.some.inj heq
    simp [exec, hr, hw, Function.update_comm hne]
  | halt => cases h₂

/-- Operations of different processes commute, unless they clash. -/
theorem commute {p q : P} (hne : p ≠ q) {o o' : Op C F V L} (ho : o.Steady) (ho' : o'.Steady)
    (hclash : ¬Clash o o') : Commute p q o o' := by
  cases o with
  | read c k =>
    cases o' with
    | read d k' =>
      have hcd : c ≠ d := by
        rintro rfl
        exact hclash ⟨c, .inl ⟨k, k', rfl, rfl⟩⟩
      exact commute_read_read hne hcd k k'
    | write d w l => exact commute_read_write hne k w l
    | raise f l => exact (commute_raise hne.symm f l ho).symm
    | await ready l => exact (commute_await hne.symm ho' _).symm
    | halt => exact fun s s₁ s₂ _ h₂ => by cases h₂
  | write c v l =>
    cases o' with
    | read d k' => exact (commute_read_write hne.symm k' v l).symm
    | write d w l' =>
      have hcd : c ≠ d := by
        rintro rfl
        exact hclash ⟨c, .inr ⟨v, l, w, l', rfl, rfl⟩⟩
      exact commute_write_write hne hcd v w l l'
    | raise f l => exact (commute_raise hne.symm f l ho).symm
    | await ready l => exact (commute_await hne.symm ho' _).symm
    | halt => exact fun s s₁ s₂ _ h₂ => by cases h₂
  | raise f l => exact commute_raise hne f l ho'
  | await ready l => exact commute_await hne ho o'
  | halt => exact fun s s₁ s₂ h₁ _ => by cases h₁

/-! ## Runs -/

variable {N}

theorem run_proc {p : P} : ∀ {w : List P} {s t : Config P C F V L}, N.system.run w s = some t →
    p ∉ w → t.proc p = s.proc p
  | [], s, t, hrun, _ => by
    obtain rfl : s = t := by simpa using hrun
    rfl
  | q :: w, s, t, hrun, hp => by
    obtain ⟨u, hstep, hrest⟩ := N.system.run_cons.1 hrun
    rw [List.mem_cons, not_or] at hp
    exact (run_proc hrest hp.2).trans (exec_proc hstep hp.1)

theorem run_grows : ∀ {w : List P} {s t : Config P C F V L}, N.system.run w s = some t →
    Grows s t
  | [], s, t, hrun => by
    obtain rfl : s = t := by simpa using hrun
    exact Grows.refl s
  | q :: w, s, t, hrun => by
    obtain ⟨u, hstep, hrest⟩ := N.system.run_cons.1 hrun
    exact (exec_grows hstep).trans (run_grows hrest)

theorem Sane.run {w : List P} {s t : Config P C F V L} (hs : Sane s)
    (hrun : N.system.run w s = some t) : Sane t :=
  System.run_invariant (fun _ _ _ hs hstep => hs.exec hstep) w hs hrun

/-- Only its fixed reader reads from a channel. -/
theorem run_got {p : P} {c : C} (hreader : N.reader c = some p) : ∀ {w : List P}
    {s t : Config P C F V L}, N.system.run w s = some t → p ∉ w → t.got c = s.got c
  | [], s, t, hrun, _ => by
    obtain rfl : s = t := by simpa using hrun
    rfl
  | q :: w, s, t, hrun, hp => by
    obtain ⟨u, hstep, hrest⟩ := N.system.run_cons.1 hrun
    rw [List.mem_cons, not_or] at hp
    exact (run_got hreader hrest hp.2).trans
      (exec_got hstep fun k hk => hp.1 (N.reads hk hreader))

/-- Only its fixed writer writes to a channel. -/
theorem run_sent {p : P} {c : C} (hwriter : N.writer c = some p) : ∀ {w : List P}
    {s t : Config P C F V L}, N.system.run w s = some t → p ∉ w → t.sent c = s.sent c
  | [], s, t, hrun, _ => by
    obtain rfl : s = t := by simpa using hrun
    rfl
  | q :: w, s, t, hrun, hp => by
    obtain ⟨u, hstep, hrest⟩ := N.system.run_cons.1 hrun
    rw [List.mem_cons, not_or] at hp
    exact (run_sent hwriter hrest hp.2).trans
      (exec_sent hstep fun v l hv => hp.1 (N.writes hv hwriter))

theorem step_read {p : P} {c : C} {k : V c → L} {s t : Config P C F V L}
    (hop : N.op p (s.proc p) = .read c k) (hstep : N.step p s = some t) :
    t.got c = s.got c + 1 := by
  rw [step, hop] at hstep
  obtain ⟨v, -, rfl⟩ := Option.map_eq_some_iff.1 hstep
  simp

theorem step_write {p : P} {c : C} {v : V c} {l : L} {s t : Config P C F V L}
    (hop : N.op p (s.proc p) = .write c v l) (hstep : N.step p s = some t) :
    (t.sent c).length = (s.sent c).length + 1 := by
  rw [step, hop] at hstep
  obtain rfl := Option.some.inj hstep
  simp

/-- A process that has halted does not step again. -/
theorem notMem_of_halt {q : P} : ∀ {w : List P} {s t : Config P C F V L},
    N.system.run w s = some t → N.op q (s.proc q) = .halt → q ∉ w
  | [], s, t, _, _ => List.not_mem_nil
  | p :: w, s, t, hrun, hhalt => by
    obtain ⟨u, hstep, hrest⟩ := N.system.run_cons.1 hrun
    have hne : q ≠ p := by
      rintro rfl
      change exec q (N.op q (s.proc q)) s = some u at hstep
      rw [hhalt] at hstep
      cases hstep
    rw [List.mem_cons, not_or]
    exact ⟨hne, notMem_of_halt hrest ((exec_proc hstep hne).symm ▸ hhalt)⟩

/-- A process that steps again steps from where it is. -/
theorem exists_next_step {p : P} {w : List P} {s t : Config P C F V L}
    (hrun : N.system.run w s = some t) (hp : p ∈ w) :
    ∃ (a b : List P) (u u' : Config P C F V L), w = a ++ p :: b ∧ N.system.run a s = some u ∧
      N.step p u = some u' ∧ N.system.run b u' = some t ∧ u.proc p = s.proc p := by
  obtain ⟨a, b, rfl, hpa⟩ := List.eq_append_cons_of_mem hp
  obtain ⟨u, hu, hrest⟩ := N.system.run_append_eq_some.1 hrun
  obtain ⟨u', hstep, hb⟩ := N.system.run_cons.1 hrest
  exact ⟨a, b, u, u', rfl, hu, hstep, hb, run_proc hu hpa⟩

/-- If a read is still made after the writer has halted, there is a value left for it. -/
theorem unread_of_halt {p q : P} {c : C} {k : V c → L} {w : List P} {s t : Config P C F V L}
    (hrun : N.system.run w s = some t) (hp : p ∈ w) (hop : N.op p (s.proc p) = .read c k)
    (hwriter : N.writer c = some q) (hhalt : N.op q (s.proc q) = .halt) :
    s.got c < (s.sent c).length := by
  obtain ⟨a, b, u, u', rfl, hu, hstep, -, hproc⟩ := exists_next_step hrun hp
  have hsent : u.sent c = s.sent c := run_sent hwriter hu (notMem_of_halt hu hhalt)
  rw [step, hproc, hop] at hstep
  obtain ⟨v, hv, -⟩ := Option.map_eq_some_iff.1 hstep
  calc s.got c ≤ u.got c := (run_grows hu).got c
    _ < (u.sent c).length := (List.getElem?_eq_some_iff.1 hv).1
    _ = (s.sent c).length := by rw [hsent]

/-- What is written after the reader has halted stays unread. -/
theorem unread_of_write {p q : P} {c : C} {v : V c} {l : L} {w : List P}
    {s t : Config P C F V L} (hs : Sane s) (hrun : N.system.run w s = some t) (hp : p ∈ w)
    (hop : N.op p (s.proc p) = .write c v l) (hreader : N.reader c = some q)
    (hhalt : N.op q (s.proc q) = .halt) : t.got c < (t.sent c).length := by
  have hgot : t.got c = s.got c := run_got hreader hrun (notMem_of_halt hrun hhalt)
  obtain ⟨a, b, u, u', rfl, hu, hstep, hb, hproc⟩ := exists_next_step hrun hp
  calc t.got c = s.got c := hgot
    _ ≤ (s.sent c).length := hs c
    _ ≤ (u.sent c).length := ((run_grows hu).sent c).length_le
    _ < (u'.sent c).length := by rw [step_write (hproc ▸ hop) hstep]; exact Nat.lt_succ_self _
    _ ≤ (t.sent c).length := ((run_grows hb).sent c).length_le

/-! ## Every run can be completed -/

variable (N)

/-- No process will step again, and a channel that two processes could use on the same end
carried at most one value. -/
structure Settled (t : Config P C F V L) : Prop where
  still : ∀ p, N.op p (t.proc p) = .halt ∨ ∃ c k, N.op p (t.proc p) = .read c k ∧
    N.reader c = some p ∧ (t.sent c).length ≤ t.got c
  once : ∀ c, N.reader c = none ∨ N.writer c = none → (t.sent c).length ≤ 1

variable {N}

/-- The next operations of two processes that both step before the end do not clash. -/
theorem not_clash {p q : P} (hne : p ≠ q) {a b : List P} {s s₂ t : Config P C F V L}
    (hs : Sane s) (hq : N.step q s = some s₂) (hp : p ∉ a)
    (hrun : N.system.run (a ++ p :: b) s₂ = some t) (ht : N.Settled t) :
    ¬Clash (N.op p (s.proc p)) (N.op q (s.proc q)) := by
  obtain ⟨u, ha, hrun⟩ := N.system.run_append_eq_some.1 hrun
  obtain ⟨u', hstep, hb⟩ := N.system.run_cons.1 hrun
  have hproc : u.proc p = s.proc p := (run_proc ha hp).trans (exec_proc hq hne)
  have hga := run_grows ha
  have hgb := run_grows hb
  rintro ⟨c, ⟨k, k', hk, hk'⟩ | ⟨v, l, v', l', hv, hv'⟩⟩
  · have hnone : N.reader c = none := by
      rw [Option.eq_none_iff_forall_ne_some]
      exact fun r hr => hne ((N.reads hk hr).symm.trans (N.reads hk' hr))
    have h₁ := step_read hk' hq
    have h₂ := step_read (hproc ▸ hk) hstep
    have hsane := (((hs.exec hq).run ha).exec hstep) c
    have hone := ht.once c (.inl hnone)
    have := hga.got c
    have := (hgb.sent c).length_le
    omega
  · have hnone : N.writer c = none := by
      rw [Option.eq_none_iff_forall_ne_some]
      exact fun r hr => hne ((N.writes hv hr).symm.trans (N.writes hv' hr))
    have h₁ := step_write hv' hq
    have h₂ := step_write (hproc ▸ hv) hstep
    have hone := ht.once c (.inr hnone)
    have := (hga.sent c).length_le
    have := (hgb.sent c).length_le
    omega

/-- A step that a run takes later can be taken first. -/
theorem run_swap {p : P} {b : List P} {t : Config P C F V L} (ht : N.Settled t) :
    ∀ {a : List P} {s s₁ : Config P C F V L}, Sane s → p ∉ a → N.step p s = some s₁ →
      N.system.run (a ++ p :: b) s = some t → N.system.run (a ++ b) s₁ = some t
  | [], s, s₁, _, _, hstep, hrun => by
    obtain ⟨u, hu, hb⟩ := N.system.run_cons.1 hrun
    obtain rfl : s₁ = u := Option.some.inj (hstep.symm.trans hu)
    exact hb
  | q :: a, s, s₁, hs, hp, hstep, hrun => by
    obtain ⟨s₂, hq, hrest⟩ := N.system.run_cons.1 hrun
    rw [List.mem_cons, not_or] at hp
    obtain ⟨hne, hp⟩ : p ≠ q ∧ p ∉ a := hp
    obtain ⟨s₃, h₁, h₂⟩ := commute hne (N.steady _ _) (N.steady _ _)
      (not_clash hne hs hq hp hrest ht) s s₁ s₂ hstep hq
    rw [← exec_proc hstep (Ne.symm hne)] at h₁
    rw [← exec_proc hq hne] at h₂
    exact N.system.run_cons.2 ⟨s₃, h₁, run_swap ht (hs.exec hq) hp h₂ hrest⟩

/-- A process that can step will do so before the end. -/
theorem mem_of_step {p : P} {w : List P} {s s₁ t : Config P C F V L} (ht : N.Settled t)
    (hstep : N.step p s = some s₁) (hrun : N.system.run w s = some t) : p ∈ w := by
  by_contra hp
  have hproc := run_proc hrun hp
  rcases ht.still p with hhalt | ⟨c, k, hop, hreader, hle⟩
  · rw [hproc] at hhalt
    rw [step, hhalt] at hstep
    cases hstep
  · have hgot : t.got c = s.got c := run_got hreader hrun hp
    rw [hproc] at hop
    rw [step, hop] at hstep
    obtain ⟨v, hv, -⟩ := Option.map_eq_some_iff.1 hstep
    have hlt := (List.getElem?_eq_some_iff.1 hv).1
    have := ((run_grows hrun).sent c).length_le
    omega

/-- Every run can be extended to the settled state, and takes no more steps than this needs. -/
theorem run_completes {t : Config P C F V L} (ht : N.Settled t) :
    ∀ {u w : List P} {s s' : Config P C F V L}, Sane s → N.system.run w s = some t →
      N.system.run u s = some s' → ∃ v, N.system.run v s' = some t ∧ (u ++ v).Perm w
  | [], w, s, s', _, hw, hu => by
    obtain rfl : s = s' := by simpa using hu
    exact ⟨w, hw, List.Perm.refl w⟩
  | p :: u, w, s, s', hs, hw, hu => by
    obtain ⟨s₁, hstep, hrest⟩ := N.system.run_cons.1 hu
    obtain ⟨a, b, rfl, hp⟩ := List.eq_append_cons_of_mem (mem_of_step ht hstep hw)
    obtain ⟨v, hv, hperm⟩ := run_completes ht (hs.exec hstep) (run_swap ht hs hp hstep hw) hrest
    exact ⟨v, hv, (hperm.cons p).trans List.perm_middle.symm⟩

end Network

end SP2022
