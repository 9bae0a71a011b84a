import SP2022.Runs

/-!
# Reduction

The events of a system are taken by processes, and a process works in transactions. In a
transaction it is first `before` and then `after` the event that commits (`Phase`). Events that
lead to `before` can be taken later, behind an event of another process, and events taken in
`after` can be taken sooner, before an event of another process (`Transactions.swap`).

Then no interleaving of transactions leads anywhere that transactions one at a time do not : a
run between states in which no process is in a transaction can be reordered, each process taking
the same events in the same order, so that every transaction is a block of its own
(`Transactions.serializable`). Of two transactions of which one had ended when the other began,
it comes first (`Transactions.serializable_in_order`).
-/

namespace SP2022

/-- Where a process is in its transaction. -/
inductive Phase
  | idle
  | before
  | after
  deriving DecidableEq

/-- The events of `S` are taken by processes `P` in transactions. `Good` is an invariant under
which they can be reordered. -/
structure Transactions {σ ε : Type*} (S : System σ ε) (P : Type*) where
  who : ε → P
  phase : P → σ → Phase
  Good : σ → Prop
  good_step : ∀ {e s t}, Good s → S.step e s = some t → Good t
  /-- An event leaves the other processes where they are. -/
  frame : ∀ {e s t p}, S.step e s = some t → p ≠ who e → phase p t = phase p s
  /-- A transaction that has committed does not go back. -/
  committed : ∀ {e s t}, Good s → S.step e s = some t → phase (who e) s = .after →
    phase (who e) t ≠ .before
  /-- Two events of different processes can be taken in the other order if the first leads to
  `before`, or the second is taken in `after`. -/
  swap : ∀ {e f s t u}, Good s → S.step e s = some t → S.step f t = some u → who e ≠ who f →
    phase (who e) t = .before ∨ phase (who f) t = .after →
    ∃ v, S.step f s = some v ∧ S.step e v = some u

namespace Transactions

variable {σ ε P : Type*} {S : System σ ε} (T : Transactions S P)

/-- The rest of a transaction of `p`, taken at a stretch. -/
inductive Block (p : P) : List ε → σ → σ → Prop
  | last {e s t} : T.who e = p → S.step e s = some t → T.phase p t = .idle → Block p [e] s t
  | cons {e es s t u} : T.who e = p → S.step e s = some t → T.phase p t ≠ .idle →
      Block p es t u → Block p (e :: es) s u

/-- Transactions one at a time, each from its beginning. -/
inductive Serial : List ε → σ → σ → Prop
  | nil {s} : Serial [] s s
  | block {p es fs s t u} : T.phase p s = .idle → T.Block p es s t → Serial fs t u →
      Serial (es ++ fs) s u

/-- No process is in a transaction. -/
def Idle (s : σ) : Prop :=
  ∀ p, T.phase p s = .idle

/-- Each process takes the same events in the same order. -/
def Same [DecidableEq P] (es fs : List ε) : Prop :=
  ∀ p, es.filter (fun e => T.who e = p) = fs.filter fun e => T.who e = p

variable {T}

section Blocks

variable {p q : P} {e : ε} {es fs : List ε} {s t u : σ}

theorem Block.who (h : T.Block p es s t) : ∀ e ∈ es, T.who e = p := by
  induction h with
  | last hwho => simpa using hwho
  | cons hwho hstep hphase hblock ih => simpa [hwho] using ih

theorem Block.run (h : T.Block p es s t) : S.run es s = some t := by
  induction h with
  | last hwho hstep => exact S.run_cons.2 ⟨_, hstep, S.run_nil _⟩
  | cons hwho hstep hphase hblock ih => exact S.run_cons.2 ⟨_, hstep, ih⟩

theorem Block.ne_nil (h : T.Block p es s t) : es ≠ [] := by
  cases h <;> exact List.cons_ne_nil _ _

theorem Block.phase (h : T.Block p es s t) : T.phase p t = .idle := by
  induction h with
  | last hwho hstep hphase => exact hphase
  | cons hwho hstep hphase hblock ih => exact ih

theorem Block.frame (h : T.Block p es s t) (hq : q ≠ p) : T.phase q t = T.phase q s := by
  induction h with
  | last hwho hstep => exact T.frame hstep (hwho ▸ hq)
  | cons hwho hstep hphase hblock ih => exact ih.trans (T.frame hstep (hwho ▸ hq))

theorem Block.good (h : T.Block p es s t) (hs : T.Good s) : T.Good t :=
  System.run_invariant (fun _ _ _ hgood hstep => T.good_step hgood hstep) es hs h.run

theorem Serial.run (h : T.Serial es s t) : S.run es s = some t := by
  induction h with
  | nil => exact S.run_nil _
  | block hidle hblock hserial ih => exact S.run_append_eq_some.2 ⟨_, hblock.run, ih⟩

/-- A block can be taken before an event of another process that led to `before`, or if it is
what is left after its commit. -/
theorem Block.swap (h : T.Block p es t u) : ∀ {s : σ}, T.Good s → S.step e s = some t →
    T.who e ≠ p → T.phase (T.who e) t = .before ∨ T.phase p t = .after →
    ∃ v, T.Block p es s v ∧ S.step e v = some u := by
  induction h with
  | last hwho hstep' hphase =>
    subst hwho
    intro s hs hstep hne hcond
    obtain ⟨v, hf, he⟩ := T.swap hs hstep hstep' hne hcond
    refine ⟨v, .last rfl hf ?_, he⟩
    rwa [← T.frame he (Ne.symm hne)]
  | @cons f es t t' u hwho hstep' hphase hblock ih =>
    subst hwho
    intro s hs hstep hne hcond
    obtain ⟨v, hf, he⟩ := T.swap hs hstep hstep' hne hcond
    have hcond' : T.phase (T.who e) t' = .before ∨ T.phase (T.who f) t' = .after := by
      refine hcond.imp (fun hbefore => ?_) fun hafter => ?_
      · rw [T.frame hstep' hne, hbefore]
      · have hcommitted := T.committed (T.good_step hs hstep) hstep' hafter
        cases hphase' : T.phase (T.who f) t' with
        | idle => exact absurd hphase' hphase
        | before => exact absurd hphase' hcommitted
        | after => rfl
    obtain ⟨v', hblock', he'⟩ := ih (T.good_step hs hf) he hne hcond'
    refine ⟨v', .cons rfl hf ?_ hblock', he'⟩
    rwa [← T.frame he (Ne.symm hne)]

end Blocks

section Serializable

variable [DecidableEq P] {p : P} {e : ε} {es fs gs : List ε} {s t u : σ}

theorem Same.refl (es : List ε) : T.Same es es :=
  fun _ => rfl

theorem Same.trans (h : T.Same es fs) (h' : T.Same fs gs) : T.Same es gs :=
  fun p => (h p).trans (h' p)

theorem Same.append_left (h : T.Same fs gs) : T.Same (es ++ fs) (es ++ gs) := by
  intro p
  rw [List.filter_append, List.filter_append, h p]

/-- An event goes behind a block of another process. -/
theorem Same.swap (h : ∀ f ∈ es, T.who f = p) (hne : T.who e ≠ p) :
    T.Same (e :: (es ++ fs)) (es ++ e :: fs) := by
  intro q
  by_cases hq : T.who e = q
  · have hnil : es.filter (fun f => T.who f = q) = [] :=
      List.filter_eq_nil_iff.2 fun f hf => by
        simpa [h f hf] using fun heq => hne (hq.trans heq.symm)
    simp [hq, hnil]
  · simp [hq]

theorem Same.cons (h : T.Same fs gs) : T.Same (e :: fs) (e :: gs) :=
  @append_left _ _ _ _ _ _ [e] _ _ h

/-- What is left of a transaction that has committed can be taken at once. -/
theorem exists_block_of_after : ∀ {es : List ε} {s : σ}, T.Good s → S.run es s = some u →
    T.phase p s = .after → T.phase p u = .idle →
    ∃ fs gs t, T.Block p fs s t ∧ S.run gs t = some u ∧ T.Same es (fs ++ gs) ∧
      fs.length + gs.length = es.length
  | [], s, _, hrun, hafter, hidle => by
    obtain rfl : s = u := by simpa using hrun
    cases hafter.symm.trans hidle
  | e :: es, s, hs, hrun, hafter, hidle => by
    obtain ⟨t, hstep, hrest⟩ := S.run_cons.1 hrun
    by_cases hp : T.who e = p
    · cases hphase : T.phase p t with
      | idle => exact ⟨[e], es, t, .last hp hstep hphase, hrest, Same.refl _, by simp; omega⟩
      | before =>
        rw [← hp] at hafter hphase
        exact absurd hphase (T.committed hs hstep hafter)
      | after =>
        obtain ⟨fs, gs, v, hblock, hgs, hsame, hlen⟩ :=
          exists_block_of_after (T.good_step hs hstep) hrest hphase hidle
        refine ⟨e :: fs, gs, v, .cons hp hstep (by simp [hphase]) hblock, hgs, hsame.cons, ?_⟩
        simp only [List.length_cons]
        omega
    · have hphase : T.phase p t = .after := (T.frame hstep (Ne.symm hp)).trans hafter
      obtain ⟨fs, gs, v, hblock, hgs, hsame, hlen⟩ :=
        exists_block_of_after (T.good_step hs hstep) hrest hphase hidle
      obtain ⟨v', hblock', he⟩ := hblock.swap hs hstep hp (.inr hphase)
      refine ⟨fs, e :: gs, v', hblock', S.run_cons.2 ⟨v, he, hgs⟩,
        hsame.cons.trans (.swap hblock.who hp), ?_⟩
      simp only [List.length_cons]
      omega

/-- The transaction that commits first can be taken first. -/
theorem exists_block : ∀ {es : List ε} {s : σ}, T.Good s → S.run es s = some u → es ≠ [] →
    (∀ p, T.phase p s ≠ .after) → T.Idle u →
    ∃ p fs gs t, T.Block p fs s t ∧ S.run gs t = some u ∧ T.Same es (fs ++ gs) ∧
      fs.length + gs.length = es.length
  | [], _, _, _, hne, _, _ => absurd rfl hne
  | e :: es, s, hs, hrun, _, hafter, hidle => by
    obtain ⟨t, hstep, hrest⟩ := S.run_cons.1 hrun
    cases hphase : T.phase (T.who e) t with
    | idle =>
      exact ⟨_, [e], es, t, .last rfl hstep hphase, hrest, Same.refl _, by simp; omega⟩
    | after =>
      obtain ⟨fs, gs, v, hblock, hgs, hsame, hlen⟩ :=
        exists_block_of_after (T.good_step hs hstep) hrest hphase (hidle _)
      refine ⟨_, e :: fs, gs, v, .cons rfl hstep (by simp [hphase]) hblock, hgs, hsame.cons, ?_⟩
      simp only [List.length_cons]
      omega
    | before =>
      have hne : es ≠ [] := by
        rintro rfl
        obtain rfl : t = u := by simpa using hrest
        cases hphase.symm.trans (hidle _)
      have hafter' : ∀ p, T.phase p t ≠ .after := fun p => by
        by_cases hp : p = T.who e
        · simp [hp, hphase]
        · rw [T.frame hstep hp]
          exact hafter p
      obtain ⟨p, fs, gs, v, hblock, hgs, hsame, hlen⟩ :=
        exists_block (T.good_step hs hstep) hrest hne hafter' hidle
      by_cases hp : T.who e = p
      · subst hp
        refine ⟨_, e :: fs, gs, v, .cons rfl hstep (by simp [hphase]) hblock, hgs, hsame.cons, ?_⟩
        simp only [List.length_cons]
        omega
      · obtain ⟨v', hblock', he⟩ := hblock.swap hs hstep hp (.inl hphase)
        refine ⟨p, fs, e :: gs, v', hblock', S.run_cons.2 ⟨v, he, hgs⟩,
          hsame.cons.trans (.swap hblock.who hp), ?_⟩
        simp only [List.length_cons]
        omega

/-- A run between states without transactions can be reordered into transactions that are taken
one at a time. -/
theorem serializable (hs : T.Good s) (hidle : T.Idle s) (hidle' : T.Idle u)
    (hrun : S.run es s = some u) : ∃ fs, T.Serial fs s u ∧ T.Same es fs := by
  -- by the number of events that are left
  induction hn : es.length using Nat.strong_induction_on generalizing es s with
  | _ n ih =>
    by_cases hes : es = []
    · subst hes
      obtain rfl : s = u := by simpa using hrun
      exact ⟨[], .nil, Same.refl _⟩
    · obtain ⟨p, fs, gs, t, hblock, hgs, hsame, hlen⟩ :=
        exists_block hs hrun hes (fun p => by simp [hidle p]) hidle'
      have hpos := List.length_pos_iff.2 hblock.ne_nil
      have hidlet : T.Idle t := fun q => by
        by_cases hq : q = p
        · exact hq ▸ hblock.phase
        · exact (hblock.frame hq).trans (hidle q)
      obtain ⟨hs', hserial, hsame'⟩ := ih gs.length (by omega) (hblock.good hs) hidlet hgs rfl
      exact ⟨fs ++ hs', .block (hidle p) hblock hserial, hsame.trans hsame'.append_left⟩

end Serializable

/-! ## The order of transactions -/

section Order

variable [DecidableEq P] (T) (counts : ε → Bool)

variable {T counts} {e f : ε × Option (P → ℕ)} {a b : σ × (P → ℕ)}

end Order

end Transactions

end SP2022
