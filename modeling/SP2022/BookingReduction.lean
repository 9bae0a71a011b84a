import SP2022.BookingBlocks

/-!
# The servers can be taken to handle events at once

The calls of a server on `bookingRecord` come between taking a lock and giving it back, and no
other server accesses these bytes. So what a server does with an event is a transaction in the
sense of `Transactions` : before it takes or gives back a lock its calls can be made later, and
after that sooner (`booking`).
-/

set_option linter.unusedSectionVars false

namespace SP2022.Booking

open Server Program

/-! ## One process -/

namespace Process

variable {kind : Kind} {answer answer' : (c : Call) → c.Answer} {a : Act} {x y : Process}

/-- The steps of a process. -/
inductive Steps (kind : Kind) (answer : (c : Call) → c.Answer) (x : Process) : Act → Process → Prop
  | select {s ready} (hx : x.control = .select s)
      (hset : ∀ i < s.maxfd, ready i = true → s.master_set i = true) :
      Steps kind answer x (.select ready) { x with control := .scan s ready 0 }
  | wrap {s working_set i} (hx : x.control = .scan s working_set i) (hi : s.maxfd ≤ i) :
      Steps kind answer x .skip { x with control := .select s }
  | skip {s working_set i} (hx : x.control = .scan s working_set i) (hi : i < s.maxfd)
      (hw : working_set i = false) :
      Steps kind answer x .skip { x with control := .scan s working_set (i + 1) }
  | event {s working_set i e} (hx : x.control = .scan s working_set i) (hi : i < s.maxfd)
      (hw : working_set i = true) (hfits : e.Fits s i) :
      Steps kind answer x (.event e) (x.resume working_set i (Calls.handler kind e s))
  | call {c k working_set i} (hx : x.control = .busy (.call c k) working_set i) :
      Steps kind answer x .call
        ((x.next c (answer c)).resume working_set i (k (answer c)))

theorem steps (h : x.step kind answer a = some y) : Steps kind answer x a y := by
  unfold step at h
  split at h
  · rename_i s ready hx
    split_ifs at h with hset
    exact Option.some.inj h ▸ .select hx hset
  · rename_i s working_set i hx
    split_ifs at h with hi hw
    · exact Option.some.inj h ▸ .wrap hx hi
    · exact Option.some.inj h ▸ .skip hx (by omega) (by simpa using hw)
  · rename_i s working_set i e hx
    split_ifs at h with hc
    obtain ⟨hi, hw, hfits⟩ := hc
    exact Option.some.inj h ▸ .event hx hi hw hfits
  · rename_i c k working_set i hx
    exact Option.some.inj h ▸ .call hx
  · cases h

/-- What holds of a process. -/
def Fit (kind : Kind) (x : Process) : Prop :=
  match x.control with
  | .select s => Table kind (s.on x.held)
  | .scan s working_set i => Ready kind x.held s working_set i
  | .busy P working_set i =>
    ∃ b, Safe P (fun r h _ => Leads kind working_set i r h) x.held b
  | .exited => ∀ b, x.held.locks b = none

/-- Where a process is in its transaction. -/
noncomputable def phase (x : Process) : Phase :=
  match x.control with
  | .busy P _ _ => P.phase commits
  | _ => .idle

theorem fit_resume {P : Calls (Option Server)} {working_set : ℕ → Bool} {i : ℕ} {b : Bool}
    (h : Safe P (fun r h _ => Leads kind working_set i r h) x.held b) :
    (x.resume working_set i P).Fit kind := by
  cases P with
  | ret r =>
    obtain ⟨t, rfl, ht⟩ := h
    exact ht
  | call c k => exact ⟨b, h⟩

theorem Fit.step (h : x.Fit kind) (hs : Steps kind answer x a y) : y.Fit kind := by
  unfold Fit at h
  cases hs with
  | select hx hset =>
    rw [hx] at h
    exact ⟨h, fun j _ => hset j⟩
  | wrap hx hi =>
    rw [hx] at h
    exact h.table
  | skip hx hi hw =>
    rw [hx] at h
    exact ⟨h.table, fun j hj => h.left j (by omega)⟩
  | event hx hi hw hfits =>
    rw [hx] at h
    rcases h.safe hi hw hfits with hexit | hsafe
    · rw [hexit]
      exact fun _ => rfl
    · exact fit_resume hsafe
  | call hx =>
    rw [hx] at h
    obtain ⟨b, hsafe⟩ := h
    exact fit_resume (hsafe.2 _)

theorem call_eq_some {c : Call} (h : x.call a = some c) : a = .call ∧
    ∃ k working_set i, x.control = .busy (.call c k) working_set i := by
  unfold call at h
  split at h
  · rename_i c' k working_set i hx
    obtain rfl := Option.some.inj h
    exact ⟨rfl, k, working_set, i, hx⟩
  · cases h

/-- A process accesses `bookingRecord` where it has a lock. -/
theorem Fit.pre (h : x.Fit kind) {c : Call} (hc : x.call a = some c) : effects.Pre c x.held := by
  obtain ⟨-, k, working_set, i, hx⟩ := call_eq_some hc
  unfold Fit at h
  rw [hx] at h
  obtain ⟨b, hsafe⟩ := h
  exact hsafe.1.1

/-- The step does not concern the locks. -/
structure Unseen (x : Process) (a : Act) (y : Process) : Prop where
  commits : ∀ c, x.call a = some c → commits c = false
  locks : y.held.locks = x.held.locks

theorem locks_next {c : Call} (hc : Booking.commits c = false) (a : c.Answer) :
    (x.next c a).held.locks = x.held.locks := by
  cases c with
  | setlk l => cases hc
  | unlock l_start l_len => cases hc
  | _ => rfl

theorem locks_resume {P : Calls (Option Server)} {working_set : ℕ → Bool} {i : ℕ}
    (hP : P ≠ .ret none) : (x.resume working_set i P).held.locks = x.held.locks := by
  cases P with
  | ret r =>
    cases r with
    | none => exact absurd rfl hP
    | some s => rfl
  | call c k => rfl

/-- A process that makes calls does not exit after them. -/
theorem ne_exit {P : Calls (Option Server)} {working_set : ℕ → Bool} {i : ℕ} {h : Held} {b : Bool}
    (hsafe : Safe P (fun r h _ => Leads kind working_set i r h) h b) : P ≠ .ret none := by
  rintro rfl
  obtain ⟨t, ht, -⟩ := hsafe
  cases ht

theorem phase_resume {P : Calls (Option Server)} {working_set : ℕ → Bool} {i : ℕ} {f : Phase}
    (h : (x.resume working_set i P).phase = f) (hf : f ≠ .idle) :
    P.phase Booking.commits = f := by
  cases P with
  | ret r => cases r <;> exact absurd h.symm hf
  | call c k => exact h

/-- A call that does not commit. -/
theorem Unseen.of_call {c : Call} {k : c.Answer → Calls (Option Server)}
    {working_set : ℕ → Bool} {i : ℕ} {h : Held} {b : Bool}
    (hx : x.control = .busy (.call c k) working_set i) (hcommits : Booking.commits c = false)
    (hsafe : Safe (k (answer c)) (fun r h _ => Leads kind working_set i r h) h b) :
    Unseen x .call ((x.next c (answer c)).resume working_set i (k (answer c))) := by
  refine ⟨fun c' hc => ?_, (locks_resume (ne_exit hsafe)).trans (locks_next hcommits _)⟩
  obtain ⟨-, k', working_set', i', hx'⟩ := call_eq_some hc
  rw [hx] at hx'
  obtain ⟨hcall, -⟩ := Control.busy.inj hx'
  obtain ⟨rfl, -⟩ := Program.call.inj hcall
  exact hcommits

/-- A step that leads to `before`. -/
theorem Fit.unseen_of_before (h : x.Fit kind) (hs : Steps kind answer x a y)
    (hy : y.phase = .before) : Unseen x a y := by
  unfold Fit at h
  cases hs with
  | select hx | wrap hx | skip hx => cases hy
  | event hx hi hw hfits =>
    rw [hx] at h
    refine ⟨fun c hc => ?_, locks_resume fun hexit => ?_⟩
    · cases (call_eq_some hc).1
    · rw [hexit] at hy
      cases hy
  | call hx =>
    rw [hx] at h
    obtain ⟨b, hsafe⟩ := h
    have hcommits := commits_of_before hsafe (phase_resume hy nofun)
    exact .of_call hx hcommits (hsafe.2 _)

/-- A step that is taken in `after`. -/
theorem Fit.unseen_of_after (h : x.Fit kind) (hs : Steps kind answer x a y)
    (hx : x.phase = .after) : Unseen x a y ∧ y.phase ≠ .before := by
  unfold Fit at h
  unfold phase at hx
  cases hs with
  | select hx' | wrap hx' | skip hx' | event hx' =>
    rw [hx'] at hx
    cases hx
  | call hx' =>
    rw [hx'] at h hx
    obtain ⟨b, hsafe⟩ := h
    obtain ⟨hcommits, hafter⟩ := phase_call hx (answer _)
    exact ⟨.of_call hx' hcommits (hsafe.2 _),
      fun hy => by cases (phase_resume hy nofun).symm.trans hafter⟩

/-- A step depends on the answer to its call only. -/
theorem step_congr (h : ∀ c, x.call a = some c → answer c = answer' c) :
    x.step kind answer a = x.step kind answer' a := by
  unfold step
  split <;> try rfl
  rename_i c k working_set i hx
  have hc : x.call .call = some c := by
    unfold call
    rw [hx]
  rw [h c hc]

/-- Locks are granted by the system. -/
theorem Steps.locks (hs : Steps kind answer x a y) {b : ℤ} {t : LockType}
    (ht : y.held.locks b = some t) : x.held.locks b = some t ∨ ∃ l, x.call a = some (.setlk l) ∧
      answer (.setlk l) = true ∧ l.covers b = true ∧ t = l.l_type := by
  have hresume : ∀ {z : Process} {P : Calls (Option Server)} {working_set : ℕ → Bool} {i : ℕ},
      (z.resume working_set i P).held.locks b = some t → z.held.locks b = some t := by
    intro z P working_set i h
    by_cases hP : P = .ret none
    · rw [hP] at h
      cases h
    · rwa [locks_resume hP] at h
  cases hs with
  | select hx | wrap hx | skip hx => exact .inl ht
  | event hx => exact .inl (hresume ht)
  | @call c k working_set i hx =>
    have hnext := hresume ht
    cases hc : Booking.commits c with
    | false =>
      rw [locks_next hc] at hnext
      exact .inl hnext
    | true =>
      cases c with
      | setlk l =>
        have hcall : x.call .call = some (.setlk l) := by
          unfold Process.call
          rw [hx]
        simp only [next, Held.next, Held.lock] at hnext
        split_ifs at hnext with hgranted
        · simp only at hnext
          split_ifs at hnext with hcov
          · exact .inr ⟨l, hcall, hgranted, hcov, (Option.some.inj hnext).symm⟩
          · exact .inl hnext
        · exact .inl hnext
      | unlock l_start l_len =>
        simp only [next, Held.next, Held.unlock] at hnext
        split_ifs at hnext
        exact .inl hnext
      | _ => cases hc

end Process

/-! ## The machine -/

section Machine

variable {ι : Type*} [Fintype ι] [DecidableEq ι] {kind : ι → Kind} {m t u : Machine ι} {p q : ι}
  {a b : Act} {x y : Process}

/-- Processes are in order, and locks of different ones do not conflict. -/
structure Coherent (kind : ι → Kind) (m : Machine ι) : Prop where
  fit : ∀ p, (m.process p).Fit (kind p)
  locks : ∀ p q, p ≠ q → ∀ b a t, (m.process p).held.locks b = some a →
    (m.process q).held.locks b = some t → a.conflicts t = false

theorem Machine.step_eq_some : m.step kind (p, a) = some t ↔
    ∃ y, (m.process p).step (kind p) (m.answer p) a = some y ∧
      t = ⟨Function.update m.process p y, (m.process p).contentAfter a m.content⟩ := by
  unfold Machine.step
  rw [Option.map_eq_some_iff]
  exact exists_congr fun y => and_congr_right fun _ => eq_comm

/-- A granted lock conflicts with no lock of another process. -/
theorem Machine.of_grants {l : Flock} (h : m.grants p l = true) (hne : q ≠ p) {b : ℤ}
    (hb : l.covers b = true) {t : LockType} (ht : (m.process q).held.locks b = some t) :
    l.l_type.conflicts t = false := by
  simp only [Flock.covers, Bool.and_eq_true, decide_eq_true_eq] at hb
  have hall := of_decide_eq_true h
  refine hall q hne (b - l.l_start).toNat (by omega) t ?_
  rw [show l.l_start + ((b - l.l_start).toNat : ℤ) = b by omega]
  exact ht

theorem Coherent.step (h : Coherent kind m) (hstep : m.step kind (p, a) = some t) :
    Coherent kind t := by
  obtain ⟨y, hy, rfl⟩ := Machine.step_eq_some.1 hstep
  have hs := Process.steps hy
  -- a lock of the process that moved against one of another process
  have hpair : ∀ q, q ≠ p → ∀ b a t, y.held.locks b = some a →
      (m.process q).held.locks b = some t → a.conflicts t = false := by
    intro q hq b a t ha ht
    rcases hs.locks ha with hold | ⟨l, -, hgrant, hcov, rfl⟩
    · exact h.locks p q (Ne.symm hq) b a t hold ht
    · exact Machine.of_grants hgrant hq hcov ht
  refine ⟨fun q => ?_, fun q r hne b a t ha ht => ?_⟩
  · by_cases hq : q = p
    · subst hq
      simpa using (h.fit q).step hs
    · simpa [Function.update_of_ne hq] using h.fit q
  · simp only at ha ht
    by_cases hq : q = p
    · subst hq
      rw [Function.update_self] at ha
      rw [Function.update_of_ne (Ne.symm hne)] at ht
      exact hpair r (Ne.symm hne) b a t ha ht
    · rw [Function.update_of_ne hq] at ha
      by_cases hr : r = p
      · subst hr
        rw [Function.update_self] at ht
        rw [conflicts_comm]
        exact hpair q hne b t a ht ha
      · rw [Function.update_of_ne hr] at ht
        exact h.locks q r hne b a t ha ht

/-- A process writes where no other has a lock. -/
theorem Coherent.disjoint (h : Coherent kind m) (hpq : p ≠ q) {data : Bytes}
    (hw : (m.process p).call a = some (.write data)) {offset n : ℤ} (hn : 0 < n)
    (hlock : ∀ b, offset ≤ b → b < offset + n → (m.process q).held.locks b ≠ none) :
    offset + n ≤ (m.process p).held.offset ∨
      (m.process p).held.offset + data.length ≤ offset := by
  by_contra hover
  rw [not_or, not_le, not_le] at hover
  obtain ⟨hlt, hlt'⟩ := hover
  obtain ⟨hpos, hlocks⟩ := (h.fit p).pre hw
  -- a byte of both
  obtain ⟨b, h1, h2, h3, h4⟩ : ∃ b, offset ≤ b ∧ b < offset + n ∧
      (m.process p).held.offset ≤ b ∧ b < (m.process p).held.offset + data.length := by
    rcases le_total offset (m.process p).held.offset with hle | hle
    · exact ⟨_, hle, hlt, le_rfl, by omega⟩
    · exact ⟨offset, le_rfl, by omega, hle, hlt'⟩
  obtain ⟨t, ht⟩ := Option.ne_none_iff_exists'.1 (hlock b h1 h2)
  have hwrite : (m.process p).held.locks b = some .wrlck := hlocks b h3 h4
  have hconf := h.locks p q hpq b _ _ hwrite ht
  simp [LockType.conflicts] at hconf

theorem answer_congr {c : Call} (hp : t.process p = m.process p)
    (hlocks : ∀ l, c = .setlk l → ∀ q, q ≠ p →
      (t.process q).held.locks = (m.process q).held.locks)
    (hread : c = .read → readAt t.content (m.process p).held.offset sizeofRecord.toNat =
      readAt m.content (m.process p).held.offset sizeofRecord.toNat) :
    t.answer p c = m.answer p c := by
  cases c with
  | setlk l =>
    show t.grants p l = m.grants p l
    unfold Machine.grants
    congr 1
    exact propext (forall₂_congr fun q hq => by rw [hlocks l rfl q hq])
  | read =>
    show readAt t.content (t.process p).held.offset _ = _
    rw [hp]
    exact hread rfl
  | _ => rfl

theorem nextContent_comm {h h' : Held} {content : ℤ → UInt8} {c c' : Call}
    (hdisj : ∀ data data', c = .write data → c' = .write data' →
      h'.offset + data'.length ≤ h.offset ∨ h.offset + data.length ≤ h'.offset) :
    nextContent h' (nextContent h content c) c' =
      nextContent h (nextContent h' content c') c := by
  cases c with
  | write data =>
    cases c' with
    | write data' => exact writeAt_comm (hdisj data data' rfl rfl)
    | _ => rfl
  | _ => rfl

/-- What a process reads does not depend on a step of another one. -/
theorem Coherent.read_contentAfter (h : Coherent kind m) (hpq : p ≠ q)
    (hread : (m.process q).call b = some .read) :
    readAt ((m.process p).contentAfter a m.content) (m.process q).held.offset sizeofRecord.toNat =
      readAt m.content (m.process q).held.offset sizeofRecord.toNat := by
  unfold Process.contentAfter
  cases hcall : (m.process p).call a with
  | none => rfl
  | some c =>
    cases c with
    | write data =>
      exact readAt_writeAt_of_disjoint (h.disjoint hpq hcall (by decide) ((h.fit q).pre hread))
    | _ => rfl

theorem Coherent.content_comm (h : Coherent kind m) (hpq : p ≠ q) :
    (m.process q).contentAfter b ((m.process p).contentAfter a m.content) =
      (m.process p).contentAfter a ((m.process q).contentAfter b m.content) := by
  unfold Process.contentAfter
  cases hp : (m.process p).call a with
  | none => rfl
  | some c =>
    cases hq : (m.process q).call b with
    | none => rfl
    | some c' =>
      refine nextContent_comm fun data data' hc hc' => ?_
      subst hc hc'
      obtain ⟨hpos, hlocks⟩ := (h.fit q).pre hq
      exact h.disjoint hpq hp (by omega) fun b hlo hhi => by simp [hlocks b hlo hhi]

/-- Steps of two processes can be taken in the other order if the first leads to `before`, or
the second is taken in `after`. -/
theorem Coherent.swap (h : Coherent kind m) (hpq : p ≠ q)
    (hp : m.step kind (p, a) = some t) (hq : t.step kind (q, b) = some u)
    (hphase : (t.process p).phase = .before ∨ (t.process q).phase = .after) :
    ∃ v, m.step kind (q, b) = some v ∧ v.step kind (p, a) = some u := by
  obtain ⟨y, hy, rfl⟩ := Machine.step_eq_some.1 hp
  obtain ⟨z, hz, rfl⟩ := Machine.step_eq_some.1 hq
  have hqp : Function.update m.process p y q = m.process q := Function.update_of_ne hpq.symm _ _
  simp only [hqp, Function.update_self] at hz hphase
  have hys := Process.steps hy
  have hzs := Process.steps hz
  have hunseen : (m.process p).Unseen a y ∨ (m.process q).Unseen b z :=
    hphase.imp ((h.fit p).unseen_of_before hys) fun hx => ((h.fit q).unseen_of_after hzs hx).1
  -- if one asks for a lock, the other keeps its own
  have hkeep : ∀ l, (m.process p).call a = some (.setlk l) →
      z.held.locks = (m.process q).held.locks := fun l hl =>
    hunseen.elim (fun hu => by cases hu.commits _ hl) fun hu => hu.locks
  have hkeep' : ∀ l, (m.process q).call b = some (.setlk l) →
      y.held.locks = (m.process p).held.locks := fun l hl =>
    hunseen.elim (fun hu => hu.locks) fun hu => by cases hu.commits _ hl
  set v : Machine ι :=
    ⟨Function.update m.process q z, (m.process q).contentAfter b m.content⟩ with hv
  have hvp : v.process p = m.process p := Function.update_of_ne hpq _ _
  have hvq : v.process q = z := Function.update_self _ _ _
  have hvr : ∀ r, r ≠ q → v.process r = m.process r := fun r hr => Function.update_of_ne hr _ _
  have hstep : m.step kind (q, b) = some v := by
    refine Machine.step_eq_some.2 ⟨z, ?_, rfl⟩
    refine (Process.step_congr fun c hc => answer_congr hqp ?_ ?_).symm.trans hz
    · rintro l rfl r hr
      by_cases hrp : r = p
      · subst hrp
        simpa using hkeep' l hc
      · simp [Function.update_of_ne hrp]
    · rintro rfl
      exact h.read_contentAfter hpq hc
  refine ⟨v, hstep, Machine.step_eq_some.2 ⟨y, ?_, ?_⟩⟩
  · rw [hvp]
    refine (Process.step_congr fun c hc => answer_congr hvp ?_ ?_).trans hy
    · rintro l rfl r hr
      by_cases hrq : r = q
      · subst hrq
        rw [hvq]
        exact hkeep l hc
      · rw [hvr r hrq]
    · rintro rfl
      exact h.read_contentAfter hpq.symm hc
  · rw [hvp]
    exact congr (congrArg Machine.mk (Function.update_comm hpq _ _ _))
      ((congrArg (Process.contentAfter b _) hqp).trans (h.content_comm hpq))

/-- What a server does with an event is a transaction. -/
noncomputable def booking (kind : ι → Kind) (content : ℤ → UInt8) :
    Transactions (machines kind content) ι where
  who e := e.1
  phase p m := (m.process p).phase
  Good := Coherent kind
  good_step := fun h hstep => h.step hstep
  frame := by
    rintro ⟨p, a⟩ m t q hstep hq
    obtain ⟨y, -, rfl⟩ := Machine.step_eq_some.1 hstep
    exact congrArg Process.phase (Function.update_of_ne hq _ _)
  committed := by
    rintro ⟨p, a⟩ m t h hstep hafter
    obtain ⟨y, hy, rfl⟩ := Machine.step_eq_some.1 hstep
    show (Function.update m.process p y p).phase ≠ .before
    rw [Function.update_self]
    exact ((h.fit p).unseen_of_after (Process.steps hy) hafter).2
  swap := fun h hp hq hne hphase => h.swap hne hp hq hphase

end Machine

end SP2022.Booking
