import SP2022.Network

/-!
# Networks whose processes keep logs

`N.logging notes` is the network `N` with a log for each process : a process writes the lines
of an operation to its log before or after it, one at a time, and takes its next operation when
all are written. A step of it is a step of `N` or writes one line (`LogStep`). Erasing the
logs, every run is one of `N` (`erase_reachable`), and every run of `N` can be taken with
logs (`exists_logging_run`), so what ends every run of `N` in the same state ends every run
with the same logs (`settled_of_erase`).

If a channel is noted, that is if its reader writes a line after each read and its writer one
before each write, no log ever shows a value as read that no log shows as written
(`causal`).
-/

set_option linter.unusedSectionVars false

namespace SP2022

/-- The channels of a network, and the logs of its processes. -/
inductive Logged (P C : Type)
  | chan (c : C)
  | log (p : P)
  deriving DecidableEq

/-- What is written to the channels and, in lines `A`, to the logs. -/
abbrev Logged.Value {P C : Type} (V : C → Type) (A : Type) : Logged P C → Type
  | .chan c => V c
  | .log _ => A

/-- A process, the variables from which it writes its lines, and the lines that it has to
write before its next operation. -/
structure Writing (L M A : Type) where
  state : L
  vars : M
  todo : List A

/-- The lines of the processes : before an operation, after one that reads a value, and after
any other one. Reading a value may change the variables. -/
structure Notes (P C : Type) (V : C → Type) (L M A : Type) where
  vars : P → M
  before : P → M → L → List A
  heard : P → M → L → (c : C) → V c → M × List A
  after : P → M → L → List A

namespace Notes

variable {P C F L M A : Type} {V : C → Type} (notes : Notes P C V L M A)

/-- After `v` was read from `c`. -/
def hear (p : P) (l : Writing L M A) (c : C) (v : V c) (l' : L) : Writing L M A :=
  let (vars, lines) := notes.heard p l.vars l.state c v
  ⟨l', vars, lines ++ notes.before p vars l'⟩

/-- After another operation. -/
def next (p : P) (l : Writing L M A) (l' : L) : Writing L M A :=
  ⟨l', l.vars, notes.after p l.vars l.state ++ notes.before p l.vars l'⟩

/-- The operation with the lines that follow. -/
def annotate (p : P) (l : Writing L M A) :
    Op C F V L → Op (Logged P C) F (Logged.Value V A) (Writing L M A)
  | .read c k => .read (.chan c) fun v => notes.hear p l c v (k v)
  | .write c v l' => .write (.chan c) v (notes.next p l l')
  | .raise f l' => .raise f (notes.next p l l')
  | .await ready l' => .await ready (notes.next p l l')
  | .halt => .halt

end Notes

namespace Network

variable {P C F L M A : Type} {V : C → Type} (N : Network P C F V L) (notes : Notes P C V L M A)

/-- A process writes a line, or does what it does in `N`. -/
def loggingOp (p : P) (l : Writing L M A) :
    Op (Logged P C) F (Logged.Value V A) (Writing L M A) :=
  match l.todo with
  | a :: todo => .write (.log p) a { l with todo := todo }
  | [] => notes.annotate p l (N.op p l.state)

/-- The network with logs. -/
def logging : Network P (Logged P C) F (Logged.Value V A) (Writing L M A) where
  start :=
    { proc := fun p =>
        ⟨N.start.proc p, notes.vars p, notes.before p (notes.vars p) (N.start.proc p)⟩
      sent := fun
        | .chan c => N.start.sent c
        | .log _ => []
      got := fun
        | .chan c => N.start.got c
        | .log _ => 0
      flag := N.start.flag }
  op := N.loggingOp notes
  reader := fun
    | .chan c => N.reader c
    | .log p => some p
  writer := fun
    | .chan c => N.writer c
    | .log p => some p
  reads := by
    intro p q l c k hop hr
    unfold loggingOp at hop
    cases htodo : l.todo with
    | cons a todo => simp [htodo] at hop
    | nil =>
      simp only [htodo] at hop
      cases hN : N.op p l.state <;> rw [hN] at hop <;> cases hop
      exact N.reads hN hr
  writes := by
    intro p q l l' c v hop hw
    unfold loggingOp at hop
    cases htodo : l.todo with
    | cons a todo =>
      simp only [htodo] at hop
      cases hop
      exact (Option.some.inj hw).symm
    | nil =>
      simp only [htodo] at hop
      cases hN : N.op p l.state <;> rw [hN] at hop <;> cases hop
      exact N.writes hN hw
  steady := by
    intro p l
    unfold loggingOp
    cases htodo : l.todo with
    | cons a todo => trivial
    | nil =>
      have hsteady := N.steady p l.state
      cases hN : N.op p l.state with
      | await ready l' =>
        rw [hN] at hsteady
        exact hsteady
      | read c k => trivial
      | write c v l' => trivial
      | raise f l' => trivial
      | halt => trivial

/-- The state without the logs. -/
def erase (s : Config P (Logged P C) F (Logged.Value V A) (Writing L M A)) : Config P C F V L where
  proc p := (s.proc p).state
  sent c := s.sent (.chan c)
  got c := s.got (.chan c)
  flag := s.flag

variable [DecidableEq P] [DecidableEq C] [DecidableEq F] {N} {notes}
variable {p q : P} {s t : Config P (Logged P C) F (Logged.Value V A) (Writing L M A)}

/-- What a step with logs does. -/
inductive LogStep (N : Network P C F V L) (notes : Notes P C V L M A) (p : P)
    (s t : Config P (Logged P C) F (Logged.Value V A) (Writing L M A)) : Prop
  | line (a : A) (todo : List A) (htodo : (s.proc p).todo = a :: todo)
      (ht : t = { s with
        proc := Function.update s.proc p { s.proc p with todo := todo }
        sent := Function.update s.sent (.log p) (s.sent (.log p) ++ [a]) })
  | read (c : C) (k : V c → L) (v : V c) (htodo : (s.proc p).todo = [])
      (hop : N.op p (s.proc p).state = .read c k)
      (hv : (s.sent (.chan c))[s.got (.chan c)]? = some v)
      (ht : t = { s with
        proc := Function.update s.proc p (notes.hear p (s.proc p) c v (k v))
        got := Function.update s.got (.chan c) (s.got (.chan c) + 1) })
  | write (c : C) (v : V c) (l : L) (htodo : (s.proc p).todo = [])
      (hop : N.op p (s.proc p).state = .write c v l)
      (ht : t = { s with
        proc := Function.update s.proc p (notes.next p (s.proc p) l)
        sent := Function.update s.sent (.chan c) (s.sent (.chan c) ++ [v]) })
  | raise (f : F) (l : L) (htodo : (s.proc p).todo = [])
      (hop : N.op p (s.proc p).state = .raise f l)
      (ht : t = { s with
        proc := Function.update s.proc p (notes.next p (s.proc p) l)
        flag := Function.update s.flag f true })
  | await (ready : (F → Bool) → Bool) (l : L) (htodo : (s.proc p).todo = [])
      (hop : N.op p (s.proc p).state = .await ready l) (hready : ready s.flag = true)
      (ht : t = { s with proc := Function.update s.proc p (notes.next p (s.proc p) l) })

theorem logging_op_of_nil {w : Writing L M A} (h : w.todo = []) :
    (N.logging notes).op p w = notes.annotate p w (N.op p w.state) := by
  show N.loggingOp notes p w = _
  unfold loggingOp
  rw [h]

theorem logging_op_of_cons {w : Writing L M A} {a : A} {todo : List A} (h : w.todo = a :: todo) :
    (N.logging notes).op p w = .write (.log p) a { w with todo := todo } := by
  show N.loggingOp notes p w = _
  unfold loggingOp
  rw [h]

theorem logging_cases (h : (N.logging notes).step p s = some t) : LogStep N notes p s t := by
  have hexec : exec p (N.loggingOp notes p (s.proc p)) s = some t := h
  unfold loggingOp at hexec
  cases htodo : (s.proc p).todo with
  | cons a todo =>
    simp only [htodo] at hexec
    exact .line a todo htodo (Option.some.inj hexec).symm
  | nil =>
    simp only [htodo] at hexec
    cases hop : N.op p (s.proc p).state with
    | read c k =>
      rw [hop] at hexec
      obtain ⟨v, hv, rfl⟩ := Option.map_eq_some_iff.1 hexec
      exact .read c k v htodo hop hv rfl
    | write c v l =>
      rw [hop] at hexec
      exact .write c v l htodo hop (Option.some.inj hexec).symm
    | raise f l =>
      rw [hop] at hexec
      exact .raise f l htodo hop (Option.some.inj hexec).symm
    | await ready l =>
      rw [hop] at hexec
      obtain ⟨hready, ht⟩ := Option.ite_none_right_eq_some.1 hexec
      exact .await ready l htodo hop hready (Option.some.inj ht).symm
    | halt =>
      rw [hop] at hexec
      cases hexec

/-! ## Erasing the logs -/

theorem erase_proc (w : Writing L M A) :
    (fun q => (Function.update s.proc p w q).state) =
      Function.update (erase s).proc p w.state := by
  funext q
  by_cases hq : q = p
  · subst hq
    rw [Function.update_self, Function.update_self]
  · rw [Function.update_of_ne hq, Function.update_of_ne hq]
    rfl

theorem erase_sent {c : C} (l : List (V c)) :
    (fun d => Function.update s.sent (.chan c) l (.chan d)) =
      Function.update (erase s).sent c l := by
  funext d
  by_cases hd : d = c
  · subst hd
    rw [Function.update_self, Function.update_self]
  · rw [Function.update_of_ne (by simpa using hd), Function.update_of_ne hd]
    rfl

theorem erase_got (c : C) (n : ℕ) :
    (fun d => Function.update s.got (.chan c) n (.chan d)) =
      Function.update (erase s).got c n := by
  funext d
  by_cases hd : d = c
  · subst hd
    rw [Function.update_self, Function.update_self]
  · rw [Function.update_of_ne (by simpa using hd), Function.update_of_ne hd]
    rfl

/-- A line is not seen. -/
theorem erase_line {a : A} {todo : List A} :
    erase { s with
      proc := Function.update s.proc p { s.proc p with todo := todo }
      sent := Function.update s.sent (.log p) (s.sent (.log p) ++ [a]) } = erase s := by
  unfold erase
  congr 1
  · rw [erase_proc]
    exact Function.update_eq_self p _

/-- A step with logs writes a line, which is not seen, or is a step without logs. -/
theorem erase_step (h : (N.logging notes).step p s = some t) :
    ((s.proc p).todo ≠ [] ∧ erase t = erase s) ∨
      ((s.proc p).todo = [] ∧ N.step p (erase s) = some (erase t)) := by
  cases logging_cases h with
  | line a todo htodo ht =>
    subst ht
    exact .inl ⟨by simp [htodo], erase_line⟩
  | read c k v htodo hop hv ht =>
    subst ht
    refine .inr ⟨htodo, ?_⟩
    rw [step, show N.op p ((erase s).proc p) = _ from hop]
    refine Option.map_eq_some_iff.2 ⟨v, hv, ?_⟩
    unfold erase
    simp only [erase_proc, erase_got]
    rfl
  | write c v l htodo hop ht =>
    subst ht
    refine .inr ⟨htodo, ?_⟩
    rw [step, show N.op p ((erase s).proc p) = _ from hop]
    refine congrArg some ?_
    unfold erase
    simp only [erase_proc, erase_sent]
    rfl
  | raise f l htodo hop ht =>
    subst ht
    refine .inr ⟨htodo, ?_⟩
    rw [step, show N.op p ((erase s).proc p) = _ from hop]
    refine congrArg some ?_
    unfold erase
    simp only [erase_proc]
    rfl
  | await ready l htodo hop hready ht =>
    subst ht
    refine .inr ⟨htodo, ?_⟩
    rw [step, show N.op p ((erase s).proc p) = _ from hop]
    refine (if_pos hready).trans (congrArg some ?_)
    unfold erase
    simp only [erase_proc]
    rfl

/-- Without the logs, a state that is reached with them is reached. -/
theorem erase_reachable (h : (N.logging notes).system.Reachable s) :
    N.system.Reachable (erase s) := by
  refine h.invariant (I := fun s => N.system.Reachable (erase s)) (fun s hs => ?_)
    fun p s t hs hstep => ?_
  · obtain rfl : s = (N.logging notes).start := hs
    exact .of_init rfl
  · rcases erase_step hstep with ⟨-, heq⟩ | ⟨-, hstep⟩
    · exact heq ▸ hs
    · exact hs.step hstep

/-! ## Every run can be taken with logs -/

/-- No process has lines to write. -/
def Quiet (s : Config P (Logged P C) F (Logged.Value V A) (Writing L M A)) : Prop :=
  ∀ p, (s.proc p).todo = []

variable (N notes) in
/-- A process writes its lines. -/
theorem exists_flush (p : P) : ∀ (lines : List A)
    {s : Config P (Logged P C) F (Logged.Value V A) (Writing L M A)},
    (s.proc p).todo = lines → ∃ w t, (N.logging notes).system.run w s = some t ∧
      erase t = erase s ∧ (t.proc p).todo = [] ∧ ∀ q, q ≠ p → t.proc q = s.proc q
  | [], s, htodo => ⟨[], s, rfl, rfl, htodo, fun _ _ => rfl⟩
  | a :: lines, s, htodo => by
    set u : Config P (Logged P C) F (Logged.Value V A) (Writing L M A) := { s with
      proc := Function.update s.proc p { s.proc p with todo := lines }
      sent := Function.update s.sent (.log p) (s.sent (.log p) ++ [a]) } with hu
    have hstep : (N.logging notes).step p s = some u := by
      rw [step, logging_op_of_cons htodo]
      rfl
    have hlines : (u.proc p).todo = lines := by simp [hu]
    obtain ⟨w, t, hrun, herase, hdone, hother⟩ := exists_flush p lines hlines
    refine ⟨p :: w, t, (System.run_cons _).2 ⟨u, hstep, hrun⟩, herase.trans erase_line, hdone,
      fun q hq => (hother q hq).trans ?_⟩
    rw [hu]
    exact Function.update_of_ne hq _ _

variable (notes) in
theorem exists_logging_of_step {u : Config P C F V L} (hs : (s.proc p).todo = [])
    (hstep : N.step p (erase s) = some u) : ∃ t, (N.logging notes).step p s = some t := by
  have hexec : exec p (N.op p (s.proc p).state) (erase s) = some u := hstep
  simp only [step, logging_op_of_nil hs]
  cases hN : N.op p (s.proc p).state with
  | read c k =>
    rw [hN] at hexec
    obtain ⟨v, hv, -⟩ := Option.map_eq_some_iff.1 hexec
    exact ⟨_, Option.map_eq_some_iff.2 ⟨v, hv, rfl⟩⟩
  | write c v l => exact ⟨_, rfl⟩
  | raise f l => exact ⟨_, rfl⟩
  | await ready l =>
    rw [hN] at hexec
    exact ⟨_, if_pos (Option.ite_none_right_eq_some.1 hexec).1⟩
  | halt =>
    rw [hN] at hexec
    cases hexec

variable (notes) in
/-- A step can be taken with logs. -/
theorem exists_logging_step {u : Config P C F V L} (hs : Quiet s)
    (hstep : N.step p (erase s) = some u) : ∃ w t, (N.logging notes).system.run w s = some t ∧
      erase t = u ∧ Quiet t := by
  obtain ⟨t, ht⟩ := exists_logging_of_step notes (hs p) hstep
  obtain rfl : erase t = u := by
    rcases erase_step ht with ⟨hne, -⟩ | ⟨-, h⟩
    · exact absurd (hs p) hne
    · exact Option.some.inj (h.symm.trans hstep)
  obtain ⟨w, t', hrun, herase, hdone, hother⟩ := exists_flush N notes p _ rfl
  refine ⟨p :: w, t', (System.run_cons _).2 ⟨t, ht, hrun⟩, herase, fun q => ?_⟩
  by_cases hq : q = p
  · exact hq ▸ hdone
  · rw [hother q hq, exec_proc ht hq]
    exact hs q

variable (notes) in
/-- A run can be taken with logs. -/
theorem exists_logging_run : ∀ {w : List P} {u : Config P C F V L}
    {s : Config P (Logged P C) F (Logged.Value V A) (Writing L M A)}, Quiet s →
    N.system.run w (erase s) = some u → ∃ w' t, (N.logging notes).system.run w' s = some t ∧
      erase t = u ∧ Quiet t
  | [], u, s, hs, hrun => by
    obtain rfl : erase s = u := by simpa using hrun
    exact ⟨[], s, rfl, rfl, hs⟩
  | p :: w, u, s, hs, hrun => by
    obtain ⟨v, hstep, hrest⟩ := N.system.run_cons.1 hrun
    obtain ⟨w₁, t₁, hrun₁, rfl, hquiet₁⟩ := exists_logging_step notes hs hstep
    obtain ⟨w₂, t₂, hrun₂, rfl, hquiet₂⟩ := exists_logging_run hquiet₁ hrest
    exact ⟨w₁ ++ w₂, t₂, (System.run_append_eq_some _).2 ⟨t₁, hrun₁, hrun₂⟩, rfl, hquiet₂⟩

/-- What ends every run without logs ends every run with logs. -/
theorem settled_of_erase (hs : Quiet s) (h : N.Settled (erase s)) :
    (N.logging notes).Settled s := by
  refine ⟨fun p => ?_, fun c hc => ?_⟩
  · have hop : (N.logging notes).op p (s.proc p) =
        notes.annotate p (s.proc p) (N.op p (s.proc p).state) := logging_op_of_nil (hs p)
    rcases h.still p with hhalt | ⟨c, k, hread, hreader, hle⟩
    · refine .inl (hop.trans ?_)
      rw [show N.op p (s.proc p).state = .halt from hhalt]
      rfl
    · have hread' : (N.logging notes).op p (s.proc p) =
          .read (.chan c) fun v => notes.hear p (s.proc p) c v (k v) := by
        rw [hop, show N.op p (s.proc p).state = .read c k from hread]
        rfl
      exact .inr ⟨.chan c, _, hread', hreader, hle⟩
  · cases c with
    | chan c => exact h.once c hc
    | log p => simp [logging] at hc

/-! ## What the logs say -/

/-- What an operation writes to `c`. -/
def offers (c : C) : Op C F V L → List (V c)
  | .write d v _ => if h : d = c then [h ▸ v] else []
  | _ => []

@[simp] theorem offers_self (c : C) (v : V c) (l : L) :
    offers c (Op.write (F := F) c v l) = [v] :=
  dif_pos rfl

theorem offers_of_ne {c d : C} (h : d ≠ c) (v : V d) (l : L) :
    offers c (Op.write (F := F) d v l) = [] :=
  dif_neg h

/-- A line is written after each read from `c`, and `f` finds these lines and what they say
was read. -/
structure NotesReads (notes : Notes P C V L M A) (c : C) (f : A → Option (V c)) : Prop where
  before : ∀ p m l, (notes.before p m l).filterMap f = []
  heard : ∀ p m l v, (notes.heard p m l c v).2.filterMap f = [v]
  heard_of_ne : ∀ p m l d v, d ≠ c → (notes.heard p m l d v).2.filterMap f = []
  after : ∀ p m l, (notes.after p m l).filterMap f = []

/-- A line is written before each write to `c`, and `g` finds these lines and what they say
will be written. -/
structure NotesWrites (N : Network P C F V L) (notes : Notes P C V L M A) (c : C)
    (g : A → Option (V c)) : Prop where
  before : ∀ p m l, (notes.before p m l).filterMap g = offers c (N.op p l)
  heard : ∀ p m l d v, (notes.heard p m l d v).2.filterMap g = []
  after : ∀ p m l, (notes.after p m l).filterMap g = []

section Noted

variable {c : C} {f g : A → Option (V c)}

/-- The log of the reader of `c`, with the lines it has to write, says what was read. -/
def LogsReads (c : C) (f : A → Option (V c)) (q : P)
    (s : Config P (Logged P C) F (Logged.Value V A) (Writing L M A)) : Prop :=
  (s.sent (.log q)).filterMap f ++ (s.proc q).todo.filterMap f =
    (s.sent (.chan c)).take (s.got (.chan c))

/-- The log of the writer of `c`, with the lines it has to write, says what was written and
what is written next. -/
structure LogsWrites (N : Network P C F V L) (c : C) (g : A → Option (V c)) (p : P)
    (s : Config P (Logged P C) F (Logged.Value V A) (Writing L M A)) : Prop where
  logged : (s.sent (.log p)).filterMap g ++ (s.proc p).todo.filterMap g =
    s.sent (.chan c) ++ offers c (N.op p (s.proc p).state)
  todo : ((s.proc p).todo.filterMap g).length ≤ (offers c (N.op p (s.proc p).state)).length

/-- A line that is written leaves the lines to write. -/
theorem filterMap_line {a : A} {done todo : List A} :
    (done ++ [a]).filterMap f ++ todo.filterMap f =
      done.filterMap f ++ (a :: todo).filterMap f := by
  rw [← List.filterMap_append, ← List.filterMap_append, List.append_assoc]
  rfl

theorem LogsReads.step (hf : NotesReads notes c f) (hq : N.reader c = some q)
    (hsane : Sane s) (h : LogsReads c f q s) (hstep : (N.logging notes).step p s = some t) :
    LogsReads c f q t := by
  unfold LogsReads at h ⊢
  -- nobody writes lines about `c` after another operation
  have hnext : ∀ {l}, (s.proc p).todo = [] → (Function.update s.proc p
      (notes.next p (s.proc p) l) q).todo.filterMap f = (s.proc q).todo.filterMap f := by
    intro l htodo
    by_cases hpq : q = p
    · subst hpq
      simp [Notes.next, hf.after, hf.before, htodo]
    · rw [Function.update_of_ne hpq]
  cases logging_cases hstep with
  | line a todo htodo ht =>
    subst ht
    by_cases hpq : q = p
    · subst hpq
      simp only [Function.update_self, htodo] at h ⊢
      exact filterMap_line.trans h
    · simpa [hpq] using h
  | read d k v htodo hop hv ht =>
    subst ht
    by_cases hdc : d = c
    · subst hdc
      obtain rfl : q = p := N.reads hop hq
      rw [htodo, List.filterMap_nil, List.append_nil] at h
      simp only [Function.update_self, Notes.hear, List.filterMap_append, hf.heard, hf.before,
        List.append_nil]
      rw [h, List.take_add_one, hv]
      rfl
    · have hgot : Function.update s.got (.chan d) (s.got (.chan d) + 1) (.chan c) =
          s.got (.chan c) := Function.update_of_ne (by simpa using Ne.symm hdc) _ _
      simp only [hgot]
      by_cases hpq : q = p
      · subst hpq
        simpa [Notes.hear, hf.heard_of_ne _ _ _ _ _ hdc, hf.before, htodo] using h
      · simpa [hpq] using h
  | write d v l htodo hop ht =>
    subst ht
    have htake : (Function.update s.sent (.chan d) (s.sent (.chan d) ++ [v]) (.chan c)).take
        (s.got (.chan c)) = (s.sent (.chan c)).take (s.got (.chan c)) := by
      by_cases hdc : d = c
      · subst hdc
        rw [Function.update_self, List.take_append_of_le_length (hsane _)]
      · rw [Function.update_of_ne (by simpa using Ne.symm hdc)]
    simp only [htake, hnext htodo]
    simpa using h
  | raise e l htodo hop ht =>
    subst ht
    simpa only [hnext htodo] using h
  | await ready l htodo hop hready ht =>
    subst ht
    simpa only [hnext htodo] using h

/-- After an operation that its log announced. -/
theorem LogsWrites.of_logged
    (htodo : (t.proc q).todo.filterMap g = offers c (N.op q (t.proc q).state))
    (hlog : (t.sent (.log q)).filterMap g = t.sent (.chan c)) : LogsWrites N c g q t :=
  ⟨by rw [hlog, htodo], by rw [htodo]⟩

theorem LogsWrites.congr (h : LogsWrites N c g q s) (hproc : t.proc q = s.proc q)
    (hlog : t.sent (.log q) = s.sent (.log q)) (hchan : t.sent (.chan c) = s.sent (.chan c)) :
    LogsWrites N c g q t :=
  ⟨by rw [hproc, hlog, hchan]; exact h.logged, by rw [hproc]; exact h.todo⟩

theorem LogsWrites.step (hg : NotesWrites N notes c g) (hq : N.writer c = some q)
    (h : LogsWrites N c g q s) (hstep : (N.logging notes).step p s = some t) :
    LogsWrites N c g q t := by
  have hlog : ∀ {o}, (s.proc q).todo = [] → N.op q (s.proc q).state = o →
      (s.sent (.log q)).filterMap g = s.sent (.chan c) ++ offers c o := by
    rintro o htodo rfl
    simpa [htodo] using h.logged
  cases logging_cases hstep with
  | line a todo htodo ht =>
    by_cases hpq : q = p
    · subst ht hpq
      obtain ⟨hlogged, hle⟩ := h
      rw [htodo] at hlogged hle
      refine ⟨?_, ?_⟩
      · simp only [Function.update_self]
        exact filterMap_line.trans hlogged
      · simp only [Function.update_self]
        exact ((List.sublist_cons_self a todo).filterMap g).length_le.trans hle
    · exact h.congr (by simp [ht, hpq]) (by simp [ht, hpq]) (by simp [ht])
  | read d k v htodo hop hv ht =>
    by_cases hpq : q = p
    · subst ht hpq
      refine .of_logged ?_ ?_
      · simp [Notes.hear, hg.heard, hg.before]
      · simpa [offers] using hlog htodo hop
    · exact h.congr (by simp [ht, hpq]) (by simp [ht]) (by simp [ht])
  | write d v l htodo hop ht =>
    by_cases hpq : q = p
    · subst ht hpq
      refine .of_logged (by simp [Notes.next, hg.after, hg.before]) ?_
      have heq := hlog htodo hop
      by_cases hdc : d = c
      · subst hdc
        simpa using heq
      · simpa [offers_of_ne hdc, Ne.symm hdc] using heq
    · have hdc : d ≠ c := by
        rintro rfl
        exact hpq (N.writes hop hq)
      exact h.congr (by simp [ht, hpq]) (by simp [ht]) (by simp [ht, Ne.symm hdc])
  | raise e l htodo hop ht =>
    by_cases hpq : q = p
    · subst ht hpq
      refine .of_logged (by simp [Notes.next, hg.after, hg.before]) ?_
      simpa [offers] using hlog htodo hop
    · exact h.congr (by simp [ht, hpq]) (by simp [ht]) (by simp [ht])
  | await ready l htodo hop hready ht =>
    by_cases hpq : q = p
    · subst ht hpq
      refine .of_logged (by simp [Notes.next, hg.after, hg.before]) ?_
      simpa [offers] using hlog htodo hop
    · exact h.congr (by simp [ht, hpq]) (by simp [ht]) (by simp [ht])

/-- The network starts with empty channels. -/
def Fresh (N : Network P C F V L) : Prop :=
  ∀ c, N.start.sent c = [] ∧ N.start.got c = 0

theorem Fresh.logging (h : N.Fresh) : (N.logging notes).Fresh
  | .chan c => h c
  | .log _ => ⟨rfl, rfl⟩

theorem logsReads_of_reachable (hfresh : N.Fresh) (hf : NotesReads notes c f)
    (hq : N.reader c = some q) (h : (N.logging notes).system.Reachable s) :
    LogsReads c f q s := by
  have hs : Sane s ∧ LogsReads c f q s := by
    refine h.invariant (I := fun s => Sane s ∧ LogsReads c f q s) (fun s hs => ?_) ?_
    · obtain rfl : s = (N.logging notes).start := hs
      refine ⟨fun c => (hfresh.logging c).2 ▸ Nat.zero_le _, ?_⟩
      unfold LogsReads
      rw [(hfresh.logging _).1, (hfresh.logging _).1, (hfresh.logging _).2]
      exact hf.before _ _ _
    · exact fun p s t hs hstep => ⟨hs.1.exec hstep, hs.2.step hf hq hs.1 hstep⟩
  exact hs.2

theorem logsWrites_of_reachable (hfresh : N.Fresh)
    (hg : NotesWrites N notes c g) (hq : N.writer c = some q)
    (h : (N.logging notes).system.Reachable s) : LogsWrites N c g q s := by
  refine h.invariant (I := LogsWrites N c g q) (fun s hs => ?_) fun p s t hs hstep =>
    hs.step hg hq hstep
  obtain rfl : s = (N.logging notes).start := hs
  refine .of_logged (hg.before _ _ _) ?_
  rw [(hfresh.logging _).1, (hfresh.logging _).1]
  rfl

/-- In every state, what the reader of a channel has logged is a beginning of what was
written to the channel, which is a beginning of what the writer has logged. -/
theorem causal (hfresh : N.Fresh) (hf : NotesReads notes c f)
    (hg : NotesWrites N notes c g) (hp : N.writer c = some p) (hq : N.reader c = some q)
    (h : (N.logging notes).system.Reachable s) :
    (s.sent (.log q)).filterMap f <+: s.sent (.chan c) ∧
      s.sent (.chan c) <+: (s.sent (.log p)).filterMap g := by
  have hreads := logsReads_of_reachable hfresh hf hq h
  obtain ⟨hlogged, hle⟩ := logsWrites_of_reachable hfresh hg hp h
  constructor
  · unfold LogsReads at hreads
    exact (List.prefix_append _ _).trans (hreads ▸ List.take_prefix _ _)
  · have hprefix : s.sent (.chan c) <+:
        (s.sent (.log p)).filterMap g ++ (s.proc p).todo.filterMap g :=
      hlogged ▸ List.prefix_append _ _
    refine List.prefix_of_prefix_length_le hprefix (List.prefix_append _ _) ?_
    have hlen := congrArg List.length hlogged
    simp only [List.length_append] at hlen
    omega

end Noted

end Network

end SP2022
