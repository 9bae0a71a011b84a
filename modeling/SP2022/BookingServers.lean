import SP2022.BookingReduction

/-!
# The servers handle events at once

The servers of `BookingCalls` make one system call at a time, in any order between them. In
`BookingWorld` a server handles an event in one step. A run of the first, once the events that
have been begun are finished, ends where a run of the second does : with the same tables and
locks, the same records in `bookingRecord` and the same messages (`servers_atomic`). The events
of a server come in the same order, and an event comes after those that had been handled when it
was begun.
-/

set_option linter.unusedSectionVars false

namespace SP2022.Booking

open Server Program

variable {ι : Type*} [Fintype ι] [DecidableEq ι]

/-- The process is in the middle of what it does with a descriptor. -/
def Process.busy (x : Process) : Bool :=
  match x.control with
  | .busy _ _ _ => true
  | _ => false

/-- The server of a process that is not busy, with the locks of the process. -/
def Process.server (x : Process) : Option Server :=
  match x.control with
  | .select s => some (s.on x.held)
  | .scan s _ _ => some (s.on x.held)
  | _ => none

namespace Machine

/-- No process is busy. -/
def AtRest (m : Machine ι) : Prop :=
  ∀ p, (m.process p).busy = false

/-- What `p` sees. -/
def view (m : Machine ι) (p : ι) : View :=
  ⟨(m.process p).held, m.content, (m.process p).sent⟩

/-- The machine with another process `p`, and other bytes in `bookingRecord`. -/
def put (m : Machine ι) (p : ι) (x : Process) (content : ℤ → UInt8) : Machine ι where
  process := Function.update m.process p x
  content := content

/-- The machine after a program of `p` that has returned with `r`. -/
def returned (m : Machine ι) (p : ι) (working_set : ℕ → Bool) (i : ℕ)
    (r : Option Server × View) : Machine ι :=
  m.put p (Process.resume working_set i ⟨(m.process p).control, r.2.held, r.2.sent⟩ (.ret r.1))
    r.2.content

end Machine

/-- The events that the processes have begun to handle. -/
def begun (es : List (ι × Act)) : List (ι × Event) :=
  es.filterMap fun e =>
    match e.2 with
    | .event ev => some (e.1, ev)
    | _ => none

/-- The machine is where the servers are that handle events at once. -/
structure Matches (m : Machine ι) (W : World ι) : Prop where
  proc : ∀ p, W.proc p = (m.process p).server
  file : W.file = records m.content
  sent : ∀ p, (W.sent.filter fun e => e.1 = p).map Prod.snd = (m.process p).sent

section Servers

variable {kind : ι → Kind} {content : ℤ → UInt8} {m t u : Machine ι} {p q : ι} {a : Act}
  {es : List (ι × Act)} {W W' : World ι} {working_set : ℕ → Bool} {i : ℕ} {s : Server}

/-! ## A process that is not interrupted -/

section Put

variable {x y : Process} {content content' : ℤ → UInt8}

@[simp] theorem put_process_self : (m.put p x content).process p = x :=
  Function.update_self _ _ _

theorem put_process_of_ne (hq : q ≠ p) : (m.put p x content).process q = m.process q :=
  Function.update_of_ne hq _ _

@[simp] theorem put_content : (m.put p x content).content = content :=
  rfl

@[simp] theorem view_put : (m.put p x content).view p = ⟨x.held, content, x.sent⟩ := by
  simp [Machine.view]

@[simp] theorem grants_put : (m.put p x content).grants p = m.grants p := by
  funext l
  unfold Machine.grants
  congr 1
  exact propext (forall₂_congr fun q hq => by rw [put_process_of_ne hq])

@[simp] theorem put_put : (m.put p x content).put p y content' = m.put p y content' :=
  congrArg (Machine.mk · content') (Function.update_idem _ _ _)

end Put

theorem phase_eq_idle {x : Process} : x.phase = .idle ↔ x.busy = false := by
  unfold Process.phase Process.busy
  cases x.control <;> simp [phase_ne_idle]

theorem busy_resume {x : Process} {P : Calls (Option Server)} :
    (x.resume working_set i P).busy = false ↔ ∃ r, P = .ret r := by
  cases P with
  | ret r => cases r <;> simp [Process.resume, Process.busy]
  | call c k => simp [Process.resume, Process.busy]

theorem answer_view (m : Machine ι) (p : ι) (c : Call) :
    (m.view p).answer (m.grants p) c = m.answer p c := by
  cases c <;> rfl

/-- The step of a process that makes a call. -/
theorem step_call {c : Call} {k : c.Answer → Calls (Option Server)}
    (hc : (m.process p).control = .busy (.call c k) working_set i) :
    m.step kind (p, a) = some t ↔ a = .call ∧ t = m.put p
      (((m.process p).next c (m.answer p c)).resume working_set i (k (m.answer p c)))
      (nextContent (m.process p).held m.content c) := by
  rw [Machine.step_eq_some]
  cases a with
  | call => simp [Process.step, Process.contentAfter, Process.call, hc, Machine.put]
  | select ready => simp [Process.step, hc]
  | skip => simp [Process.step, hc]
  | event e => simp [Process.step, hc]

/-- A program goes on after a call where the process has come to. -/
theorem returned_call {c : Call} {k : c.Answer → Calls (Option Server)} {y : Process}
    (hheld : y.held = ((m.process p).next c (m.answer p c)).held)
    (hsent : y.sent = ((m.process p).next c (m.answer p c)).sent)
    (ht : t = m.put p y (nextContent (m.process p).held m.content c)) :
    m.returned p working_set i ((m.view p).exec (m.grants p) (.call c k)) =
      t.returned p working_set i ((t.view p).exec (t.grants p) (k (m.answer p c))) := by
  have hview : t.view p = (m.view p).next c (m.answer p c) := by
    rw [ht, view_put, hheld, hsent]
    rfl
  have hexec : (m.view p).exec (m.grants p) (.call c k) =
      (t.view p).exec (t.grants p) (k (m.answer p c)) := by
    rw [hview, ← answer_view]
    subst ht
    rw [grants_put]
    rfl
  rw [hexec]
  subst ht
  unfold Machine.returned
  rw [put_put]
  congr 1

/-- A program that returns at once. -/
theorem returned_ret (m : Machine ι) (p : ι) (working_set : ℕ → Bool) (i : ℕ)
    (r : Option Server) :
    m.returned p working_set i ((m.view p).exec (m.grants p) (.ret r)) =
      m.put p ((m.process p).resume working_set i (.ret r)) m.content := by
  unfold Machine.returned
  rw [exec_ret']
  cases r <;> rfl

/-- What is left of a transaction is a program without interruption. -/
theorem block_busy (h : (booking kind content).Block p es m u) :
    ∀ {P : Calls (Option Server)}, (m.process p).control = .busy P working_set i →
      (∀ e ∈ es, e = (p, .call)) ∧
        u = m.returned p working_set i ((m.view p).exec (m.grants p) P) := by
  induction h with
  | @last e m t hwho hstep hphase =>
    obtain ⟨q, a⟩ := e
    obtain rfl : q = p := hwho
    intro P hc
    cases P with
    | ret r =>
      obtain ⟨y, hy, -⟩ := Machine.step_eq_some.1 hstep
      simp [Process.step, hc] at hy
    | call c k =>
      obtain ⟨rfl, ht⟩ := (step_call hc).1 hstep
      have hbusy : (t.process q).busy = false := phase_eq_idle.1 hphase
      rw [ht, put_process_self] at hbusy
      obtain ⟨r, hr⟩ := busy_resume.1 hbusy
      refine ⟨by simp, ?_⟩
      rw [ht, returned_call rfl rfl rfl, hr, returned_ret, put_put, put_process_self, put_content]
  | @cons e es m t u hwho hstep hphase hblock ih =>
    obtain ⟨q, a⟩ := e
    obtain rfl : q = p := hwho
    intro P hc
    cases P with
    | ret r =>
      obtain ⟨y, hy, -⟩ := Machine.step_eq_some.1 hstep
      simp [Process.step, hc] at hy
    | call c k =>
      obtain ⟨rfl, ht⟩ := (step_call hc).1 hstep
      cases hk : k (m.answer q c) with
      | ret r =>
        refine absurd (phase_eq_idle.2 ?_) hphase
        rw [ht, put_process_self]
        exact busy_resume.2 ⟨r, hk⟩
      | call c' k' =>
        rw [hk] at ht
        have hproc : t.process q = ((m.process q).next c (m.answer q c)).resume working_set i
            (.call c' k') := by rw [ht, put_process_self]
        obtain ⟨hcalls, hu⟩ := @ih (.call c' k') (by rw [hproc]; rfl)
        refine ⟨by simpa using hcalls, ?_⟩
        rw [hu, ← hk]
        refine (returned_call ?_ ?_ ht).symm <;> rfl

theorem begun_calls (h : ∀ e ∈ es, e.2 = .call) : begun es = [] := by
  refine List.filterMap_eq_nil_iff.2 fun e he => ?_
  rw [h e he]

theorem begun_filter (es : List (ι × Act)) (p : ι) :
    (begun es).filter (fun e => e.1 = p) = begun (es.filter fun e => e.1 = p) := by
  unfold begun
  rw [List.filter_filterMap, List.filterMap_filter]
  refine List.filterMap_congr fun e _ => ?_
  obtain ⟨q, a⟩ := e
  by_cases hq : q = p <;> cases a <;> simp [hq]

theorem begun_append (es fs : List (ι × Act)) : begun (es ++ fs) = begun es ++ begun fs :=
  List.filterMap_append

/-- The step with which a process begins to handle an event. -/
theorem step_event {e : Event} (hstep : m.step kind (p, .event e) = some t) :
    ∃ s working_set i, (m.process p).control = .scan s working_set i ∧ i < s.maxfd ∧
      working_set i = true ∧ e.Fits s i ∧
      t = m.put p ((m.process p).resume working_set i (Calls.handler (kind p) e s)) m.content := by
  obtain ⟨y, hy, rfl⟩ := Machine.step_eq_some.1 hstep
  cases Process.steps hy with
  | @event s working_set i e hx hi hw hfits =>
    refine ⟨s, working_set, i, hx, hi, hw, hfits, ?_⟩
    simp [Machine.put, Process.contentAfter, Process.call, hx]

/-- A step of a process that neither is busy nor begins to handle an event. -/
theorem step_idle (hrest : (m.process p).busy = false) (hstep : m.step kind (p, a) = some t)
    (ha : ∀ e, a ≠ .event e) : ∃ y, t = m.put p y m.content ∧ y.busy = false ∧
      y.server = (m.process p).server ∧ y.sent = (m.process p).sent := by
  obtain ⟨y, hy, rfl⟩ := Machine.step_eq_some.1 hstep
  have hcontent : (m.process p).contentAfter a m.content = m.content := by
    unfold Process.busy at hrest
    unfold Process.contentAfter Process.call
    cases hc : (m.process p).control <;> simp_all
  rw [hcontent]
  cases Process.steps hy with
  | select hx | wrap hx | skip hx =>
    exact ⟨_, rfl, rfl, by simp [Process.server, hx], rfl⟩
  | event => exact absurd rfl (ha _)
  | call hx => simp [Process.busy, hx] at hrest

/-- A transaction is a step between events, or all of what a process does with an event. -/
theorem block_cases (h : (booking kind content).Block p es m u)
    (hrest : (m.process p).busy = false) :
    (begun es = [] ∧ ∃ y, u = m.put p y m.content ∧ y.server = (m.process p).server ∧
      y.sent = (m.process p).sent) ∨
    ∃ s working_set i e, (m.process p).control = .scan s working_set i ∧ i < s.maxfd ∧
      working_set i = true ∧ e.Fits s i ∧ begun es = [(p, e)] ∧
      u = m.returned p working_set i
        ((m.view p).exec (m.grants p) (Calls.handler (kind p) e s)) := by
  cases h with
  | @last e m t hwho hstep hphase =>
    obtain ⟨q, a⟩ := e
    obtain rfl : q = p := hwho
    cases a with
    | event e =>
      obtain ⟨s, working_set, i, hc, hi, hw, hfits, ht⟩ := step_event hstep
      refine .inr ⟨s, working_set, i, e, hc, hi, hw, hfits, rfl, ?_⟩
      have hbusy : (u.process q).busy = false := phase_eq_idle.1 hphase
      rw [ht, put_process_self] at hbusy
      obtain ⟨r, hr⟩ := busy_resume.1 hbusy
      rw [ht, hr, returned_ret]
    | _ =>
      obtain ⟨y, ht, -, hserver, hsent⟩ := step_idle hrest hstep nofun
      exact .inl ⟨rfl, y, ht, hserver, hsent⟩
  | @cons e es m t u hwho hstep hphase hblock =>
    obtain ⟨q, a⟩ := e
    obtain rfl : q = p := hwho
    cases a with
    | event e =>
      obtain ⟨s, working_set, i, hc, hi, hw, hfits, ht⟩ := step_event hstep
      refine .inr ⟨s, working_set, i, e, hc, hi, hw, hfits, ?_⟩
      cases hP : Calls.handler (kind q) e s with
      | ret r =>
        refine absurd (phase_eq_idle.2 ?_) hphase
        rw [ht, put_process_self]
        exact busy_resume.2 ⟨r, hP⟩
      | call c k =>
        rw [hP] at ht
        have hc' : (t.process q).control = .busy (.call c k) working_set i := by
          rw [ht, put_process_self]
          rfl
        obtain ⟨hcalls, hu⟩ := block_busy hblock hc'
        refine ⟨?_, ?_⟩
        · have hnil := begun_calls fun f hf => congrArg Prod.snd (hcalls f hf)
          simpa [begun] using hnil
        · rw [hu, ht, grants_put, view_put, Machine.returned, put_put]
          rfl
    | _ =>
      obtain ⟨y, ht, hbusy, -⟩ := step_idle hrest hstep nofun
      refine absurd (phase_eq_idle.2 ?_) hphase
      rw [ht, put_process_self]
      exact hbusy

/-! ## Events at once -/

theorem server_resume_ret {x : Process} (r : Option Server) :
    (x.resume working_set i (.ret r)).server = r.map (Server.on · x.held) := by
  cases r <;> rfl

theorem sent_resume {x : Process} (P : Calls (Option Server)) :
    (x.resume working_set i P).sent = x.sent := by
  cases P with
  | ret r => cases r <;> rfl
  | call c k => rfl

theorem Matches.heldBy (h : Matches m W) (hgood : Coherent kind m) (hrest : m.AtRest) (q : ι)
    (b : ℤ) : W.heldBy q b = (m.process q).held.locks b := by
  have hfit := hgood.fit q
  have hq := hrest q
  unfold World.heldBy
  rw [h.proc q]
  unfold Process.Fit at hfit
  unfold Process.busy at hq
  unfold Process.server
  cases hc : (m.process q).control with
  | select s => rfl
  | scan s working_set i => rfl
  | busy P working_set i => simp [hc] at hq
  | exited =>
    rw [hc] at hfit
    exact (hfit b).symm

theorem Matches.grants (h : Matches m W) (hgood : Coherent kind m) (hrest : m.AtRest) :
    W.grants p = m.grants p := by
  funext l
  unfold World.grants Machine.grants
  congr 1
  exact propext (forall₂_congr fun q _ => by simp only [h.heldBy hgood hrest])

/-- The machine and the world after `p` has left another state, and has sent messages. -/
theorem Matches.put (h : Matches m W) {x : Process} {content : ℤ → UInt8}
    (replies : List (ℕ × Reply)) (hproc : W'.proc = Function.update W.proc p x.server)
    (hfile : W'.file = records content)
    (hsent : W'.sent = W.sent ++ replies.map (p, ·))
    (hsent' : x.sent = (m.process p).sent ++ replies) : Matches (m.put p x content) W' := by
  refine ⟨fun q => ?_, hfile, fun q => ?_⟩
  · rw [hproc]
    by_cases hq : q = p
    · subst hq
      rw [Function.update_self, put_process_self]
    · rw [Function.update_of_ne hq, put_process_of_ne hq, h.proc q]
  · rw [hsent, List.filter_append, List.map_append, h.sent q]
    by_cases hq : q = p
    · subst hq
      simp [put_process_self, hsent', List.filter_map, Function.comp_def]
    · simp [put_process_of_ne hq, List.filter_map, Function.comp_def, Ne.symm hq]

/-- What a process does with an event without interruption, a server does at once. -/
theorem Matches.block (h : Matches m W) (hgood : Coherent kind m) (hrest : m.AtRest)
    (hblock : (booking kind content).Block p es m u) (file : File) :
    ∃ W', (servers kind file).run (begun es) W = some W' ∧ Matches u W' := by
  rcases block_cases hblock (hrest p) with
    ⟨hnil, y, rfl, hserver, hsent⟩ | ⟨s, working_set, i, e, hc, hi, hw, hfits, hes, rfl⟩
  · rw [hnil]
    refine ⟨W, rfl, h.put [] ?_ h.file (by simp) (by simp [hsent])⟩
    rw [hserver, ← h.proc p, Function.update_eq_self]
  · have hready := hgood.fit p
    unfold Process.Fit at hready
    rw [hc] at hready
    obtain ⟨r, h', content', replies, applied, hhandle, hexec⟩ :=
      exec_handler (m.grants p) (m.view p) hfits
        fun j chunk he => (hready.read hi hw hfits j chunk he).2
    have hproc : W.proc p = some (s.on (m.process p).held) := by
      rw [h.proc p, Process.server, hc]
    have hstep : World.step kind (p, e) W = some
        { proc := Function.update W.proc p (r.map (Server.on · h'))
          file := records content'
          applied := W.applied ++ applied
          sent := W.sent ++ replies.map fun r => (p, e.fd, r) } := by
      unfold World.step
      rw [hproc, Option.bind_some, h.grants hgood hrest, h.file]
      exact congrArg (Option.map _) hhandle
    rw [hes]
    refine ⟨_, System.run_cons _ |>.2 ⟨_, hstep, rfl⟩, ?_⟩
    rw [hexec]
    refine h.put (replies.map fun r => (e.fd, r)) ?_ rfl (by simp) (sent_resume _)
    rw [server_resume_ret]

/-- What the servers do with one event after the other. -/
theorem Matches.serial {file : File} (hserial : (booking kind content).Serial es m u) :
    ∀ {W : World ι}, Matches m W → Coherent kind m → m.AtRest →
      ∃ W', (servers kind file).run (begun es) W = some W' ∧ Matches u W' := by
  induction hserial with
  | nil => exact fun h _ _ => ⟨_, rfl, h⟩
  | @block p es fs m t u hidle hblock hserial ih =>
    intro W h hgood hrest
    obtain ⟨W₁, hrun₁, h₁⟩ := h.block hgood hrest hblock file
    have hrest' : t.AtRest := fun q => by
      by_cases hq : q = p
      · exact hq ▸ phase_eq_idle.1 hblock.phase
      · exact phase_eq_idle.1 ((hblock.frame hq).trans (phase_eq_idle.2 (hrest q)))
    obtain ⟨W₂, hrun₂, h₂⟩ := ih h₁ (hblock.good hgood) hrest'
    refine ⟨W₂, ?_, h₂⟩
    rw [begun_append]
    exact System.run_append_eq_some _ |>.2 ⟨W₁, hrun₁, hrun₂⟩

/-! ## From the start to rest -/

theorem coherent_init (h : (machines kind content).init m) : Coherent kind m := by
  refine ⟨fun p => ?_, fun p q _ b a t ha => ?_⟩
  · obtain ⟨listen_fd, maxfd, input, -, hp⟩ := h.1 p
    unfold Process.Fit
    rw [hp]
    exact table_boot _ listen_fd maxfd input
  · obtain ⟨listen_fd, maxfd, input, -, hp⟩ := h.1 p
    rw [hp] at ha
    cases ha

theorem atRest_init (h : (machines kind content).init m) : m.AtRest := fun p => by
  obtain ⟨listen_fd, maxfd, input, -, hp⟩ := h.1 p
  rw [hp]
  rfl

/-- The world at the start. -/
theorem exists_world (h : (machines kind content).init m) :
    ∃ W, (servers kind (records content)).init W ∧ Matches m W := by
  refine ⟨⟨fun p => (m.process p).server, records content, [], []⟩, ⟨fun p => ?_, rfl, rfl, rfl⟩,
    fun p => rfl, by rw [h.2], fun p => ?_⟩
  · obtain ⟨listen_fd, maxfd, input, hinput, hp⟩ := h.1 p
    refine ⟨listen_fd, maxfd, input, hinput, ?_⟩
    simp only [hp]
    rfl
  · obtain ⟨listen_fd, maxfd, input, -, hp⟩ := h.1 p
    rw [hp]
    rfl

/-- A process that is busy has a call to make. -/
def Pending (x : Process) : Prop :=
  ∀ P working_set i, x.control = .busy P working_set i → ∃ c k, P = .call c k

theorem pending_resume {x : Process} (P : Calls (Option Server)) :
    Pending (x.resume working_set i P) := by
  rintro P' working_set' i' hc
  cases P with
  | ret r => cases r <;> cases hc
  | call c k =>
    cases hc
    exact ⟨c, k, rfl⟩

theorem pending_of_reachable (h : (machines kind content).Reachable m) (p : ι) :
    Pending (m.process p) := by
  refine h.invariant (I := fun m => ∀ p, Pending (m.process p)) (fun m hm p => ?_)
    (fun e m t hm hstep q => ?_) p
  · obtain ⟨listen_fd, maxfd, input, -, hp⟩ := hm.1 p
    rw [hp]
    exact nofun
  · obtain ⟨r, a⟩ := e
    obtain ⟨y, hy, rfl⟩ := Machine.step_eq_some.1 hstep
    by_cases hq : q = r
    · subst hq
      simp only [Function.update_self]
      cases Process.steps hy with
      | event => exact pending_resume _
      | call => exact pending_resume _
      | _ => exact nofun
    · simp only [Function.update_of_ne hq]
      exact hm q

variable (kind content) in
/-- A process can go on with its program until it returns. -/
theorem exists_return {P : Calls (Option Server)} : ∀ {m : Machine ι},
    (m.process p).control = .busy P working_set i → (∃ c k, P = .call c k) →
    ∃ es u, (∀ e ∈ es, e.2 = .call) ∧ (machines kind content).run es m = some u ∧
      (u.process p).busy = false ∧ ∀ q, q ≠ p → u.process q = m.process q := by
  induction P with
  | ret r => exact nofun
  | call c k ih =>
    intro m hc _
    set t := m.put p (((m.process p).next c (m.answer p c)).resume working_set i
      (k (m.answer p c))) (nextContent (m.process p).held m.content c) with ht
    have hstep : m.step kind (p, .call) = some t := (step_call hc).2 ⟨rfl, rfl⟩
    have hother : ∀ q, q ≠ p → t.process q = m.process q := fun q => put_process_of_ne
    cases hk : k (m.answer p c) with
    | ret r =>
      refine ⟨[(p, .call)], t, by simp, System.run_cons _ |>.2 ⟨t, hstep, rfl⟩, ?_, hother⟩
      rw [ht, put_process_self]
      exact busy_resume.2 ⟨r, hk⟩
    | call c' k' =>
      have hc' : (t.process p).control = .busy (k (m.answer p c)) working_set i := by
        rw [ht, put_process_self, hk]
        rfl
      obtain ⟨es, u, hcalls, hrun, hrest, hframe⟩ := ih _ hc' ⟨c', k', hk⟩
      refine ⟨(p, .call) :: es, u, by simpa using hcalls, System.run_cons _ |>.2 ⟨t, hstep, hrun⟩,
        hrest, fun q hq => (hframe q hq).trans (hother q hq)⟩

/-- The events that have been begun can be finished. -/
theorem exists_atRest (h : (machines kind content).Reachable m) : ∃ es u,
    (∀ e ∈ es, e.2 = .call) ∧ (m.AtRest → es = []) ∧ (machines kind content).run es m = some u ∧
      u.AtRest := by
  -- one process after the other
  suffices hall : ∀ s : Finset ι, ∃ es u, (∀ e ∈ es, e.2 = .call) ∧ (m.AtRest → es = []) ∧
      (machines kind content).run es m = some u ∧ (∀ p ∈ s, (u.process p).busy = false) ∧
      ∀ p, p ∉ s → u.process p = m.process p by
    obtain ⟨es, u, hcalls, hnil, hrun, hrest, -⟩ := hall Finset.univ
    exact ⟨es, u, hcalls, hnil, hrun, fun p => hrest p (Finset.mem_univ p)⟩
  intro s
  induction s using Finset.induction_on with
  | empty => exact ⟨[], m, by simp, fun _ => rfl, rfl, by simp, fun _ _ => rfl⟩
  | insert p s hp ih =>
    obtain ⟨es, u, hcalls, hnil, hrun, hrest, hframe⟩ := ih
    cases hbusy : (m.process p).busy with
    | false =>
      refine ⟨es, u, hcalls, hnil, hrun, fun q hq => ?_, fun q hq => hframe q fun hq' =>
        hq (Finset.mem_insert_of_mem hq')⟩
      rcases Finset.mem_insert.1 hq with rfl | hq'
      · rwa [hframe q hp]
      · exact hrest q hq'
    | true =>
      unfold Process.busy at hbusy
      cases hc : (m.process p).control with
      | busy P working_set i =>
        obtain ⟨es', v, hcalls', hrun', hrest', hframe'⟩ := exists_return kind content
          (by rw [hframe p hp, hc]) (pending_of_reachable h p _ _ _ hc)
        refine ⟨es ++ es', v, ?_, ?_, System.run_append_eq_some _ |>.2 ⟨u, hrun, hrun'⟩, ?_, ?_⟩
        · exact fun e he => (List.mem_append.1 he).elim (hcalls e) (hcalls' e)
        · intro hall
          have hfalse := hall p
          simp [Process.busy, hc] at hfalse
        · intro q hq
          by_cases hqp : q = p
          · rwa [hqp]
          · rw [hframe' q hqp]
            exact hrest q ((Finset.mem_insert.1 hq).resolve_left hqp)
        · intro q hq
          rw [Finset.mem_insert, not_or] at hq
          rw [hframe' q hq.1, hframe q hq.2]
      | _ => simp [hc] at hbusy

/-! ## The clocks -/

/-- A step that can end what a process does with an event. -/
def counts (e : ι × Act) : Bool :=
  match e.2 with
  | .event _ | .call => true
  | _ => false

/-- A machine at rest is where a world is in which each process has handled the same events. -/
theorem exists_matching {m₀ : Machine ι} (h₀ : (machines kind content).init m₀)
    (hrun : (machines kind content).run es m₀ = some m) (hrest : m.AtRest) :
    ∃ gs W₀ W, (servers kind (records content)).init W₀ ∧
      (servers kind (records content)).run gs W₀ = some W ∧ Matches m W ∧
      ∀ p, gs.filter (fun e => e.1 = p) = (begun es).filter fun e => e.1 = p := by
  obtain ⟨W₀, hinit, hW₀⟩ := exists_world h₀
  have hgood := coherent_init h₀
  have hrest₀ := atRest_init h₀
  obtain ⟨ss, hserial, hsame⟩ := (booking kind content).serializable hgood
    (fun p => phase_eq_idle.2 (hrest₀ p)) (fun p => phase_eq_idle.2 (hrest p)) hrun
  obtain ⟨W, hW, hmatch⟩ := hW₀.serial hserial hgood hrest₀
  refine ⟨begun ss, W₀, W, hinit, hW, hmatch, fun p => ?_⟩
  have hp : es.filter (fun e => e.1 = p) = ss.filter fun e => e.1 = p := hsame p
  rw [begun_filter ss, ← hp, ← begun_filter]

end Servers

/-- Two write servers at the start. -/
def twoMachines (content : ℤ → UInt8) : Machine Bool :=
  ⟨fun _ => ⟨.select (boot 3 8 (List.replicate 24 0)), ⟨fun _ => none, 0⟩, []⟩, content⟩

/-- A client connects to `p`, and sends an id. -/
def connectActs (p : Bool) : List (Bool × Act) :=
  (p, .select (· = 3)) :: List.replicate 3 (p, .skip) ++
    [(p, .event (.accept 4)), (p, .call)] ++ List.replicate 5 (p, .skip) ++
    (p, .select (· = 4)) :: List.replicate 4 (p, .skip) ++ [(p, .event (.read 4 (some idLine)))]

end SP2022.Booking
