import SP2022.BookingCalls
import SP2022.BookingNumbers

/-!
# Which lines are ids

`initialize` takes the line of a client that has no id for one of the twenty ids if
`convert` returns that id. It then calls `fcntl` for the lock of the record (`asks_iff`), and
what it does for the client depends on the answer; any other line it answers at once. So it
takes the numerals of the ids (`IdLine`), and also every numeral, with or without a sign, that
is another number with the same rest modulo `2 ^ 32` (`Alias`). It treats a line as it should
exactly if the line is no such alias (`id_gate_iff`).
-/

namespace SP2022.Booking

open Server

/-- The line is a numeral, digits only, of the id of the record `k`. -/
def IdLine (line : Bytes) (k : ℤ) : Prop :=
  (∀ c ∈ line, isdigit c) ∧ (decimal line : ℤ) = 902001 + k ∧ 0 ≤ k ∧ k ≤ 19

instance (line : Bytes) (k : ℤ) : Decidable (IdLine line k) :=
  inferInstanceAs (Decidable (_ ∧ _))

/-- The line is a numeral, perhaps with a sign, of a number that is no id but has the rest of
one modulo `2 ^ 32`. -/
def Alias (line : Bytes) : Prop :=
  Signed line ∧ ∃ k, 0 ≤ k ∧ k ≤ 19 ∧ value line % 2 ^ 32 = 902001 + k ∧ value line ≠ 902001 + k

/-- `initialize` starts with a call of `fcntl` for the lock on the record `k`. -/
def Asks (kind : Kind) (s : Server) (i : ℕ) (k : ℤ) : Prop :=
  ∃ next, Calls.initializeClient kind i s = .call (.setlk (recordLock kind k)) next

section Gate

variable {kind : Kind} {s : Server} {i : ℕ} {line : Bytes} {k : ℤ}

/-! ## What `initialize` does with a line -/

/-- What `initialize` calls first, if the line is no id. -/
theorem initializeClient_sends
    (h : convert (s.requestP i).buf < 902001 ∨ 902020 < convert (s.requestP i).buf) :
    Calls.initializeClient kind i s =
      .call (.send i .failed) (fun _ => .ret (s.disconnect i false, false)) := by
  unfold Calls.initializeClient
  simp only [if_pos h]
  rfl

/-- What it calls first for an id. -/
theorem initializeClient_setlk
    (h : ¬(convert (s.requestP i).buf < 902001 ∨ 902020 < convert (s.requestP i).buf)) :
    Asks kind s i (convert (s.requestP i).buf - 902000 - 1) := by
  unfold Asks Calls.initializeClient
  simp only [if_neg h]
  exact ⟨_, rfl⟩

theorem asks_iff :
    Asks kind s i k ↔ 0 ≤ k ∧ k ≤ 19 ∧ convert (s.requestP i).buf = 902001 + k := by
  by_cases hr : convert (s.requestP i).buf < 902001 ∨ 902020 < convert (s.requestP i).buf
  · refine iff_of_false ?_ fun h => by omega
    rintro ⟨next, h⟩
    rw [initializeClient_sends hr] at h
    exact Call.noConfusion (Program.call.inj h).1
  · have hasks : Asks kind s i _ := initializeClient_setlk hr
    constructor
    · rintro ⟨next, h⟩
      obtain ⟨next', h'⟩ := hasks
      have hlock := Call.setlk.inj (Program.call.inj (h.symm.trans h')).1
      simp only [recordLock, Flock.mk.injEq, true_and, and_true, sizeofRecord] at hlock
      omega
    · rintro ⟨h0, hk, hid⟩
      have hidx : convert (s.requestP i).buf - 902000 - 1 = k := by omega
      rwa [hidx] at hasks

/-- A line that asks for no lock is answered, and the client disconnected. -/
theorem login_refused (h : ∀ k, ¬Asks kind s i k) (last : Reply) :
    Calls.login kind i last s = .call (.send i .failed) (fun _ => .ret (s.disconnect i false)) ∧
      ∀ setlk file,
        login kind setlk file i last s = ⟨some (s.disconnect i false), file, [.failed], []⟩ := by
  have hid : ¬∃ k, 0 ≤ k ∧ k < 20 ∧ convert (s.requestP i).buf = 902001 + k := by
    rintro ⟨k, h0, hk, heq⟩
    exact h k (asks_iff.2 ⟨h0, by omega, heq⟩)
  constructor
  · have hr : convert (s.requestP i).buf < 902001 ∨ 902020 < convert (s.requestP i).buf := by
      by_contra hr
      exact hid ⟨convert (s.requestP i).buf - 902001, by omega⟩
    rw [Calls.login, initializeClient_sends hr]
    rfl
  · intro setlk file
    unfold login
    rw [initializeClient_refused hid]
    rfl

/-- A client that asks for a lock and does not get it is refused as locked. -/
theorem initializeClient_locked (h : Asks kind s i k) {setlk : Flock → Bool}
    (hset : setlk (recordLock kind k) = false) (file : File) :
    s.initializeClient kind setlk file i = (s.disconnect i false, [.locked], false) := by
  obtain ⟨h0, hk, hid⟩ := asks_iff.1 h
  rw [initializeClient_eq h0 (by omega) hid kind setlk file]
  simp [setLock, hset, disconnect_setId]

/-- One that gets it is registered, unless it is the second one of a write server. -/
theorem initializeClient_admits (h : Asks kind s i k) {setlk : Flock → Bool}
    (hset : setlk (recordLock kind k)) (hfree : kind = .write → s.arr k ≠ 1) (file : File) :
    s.initializeClient kind setlk file i =
      (s.register kind i k, bookedLines (file k).bookingState, true) := by
  obtain ⟨h0, hk, hid⟩ := asks_iff.1 h
  have hpre : s.preload kind k = 0 := by
    cases kind with
    | read => rfl
    | write => exact if_neg (hfree rfl)
  rw [initializeClient_eq h0 (by omega) hid kind setlk file]
  simp only [setLock, hset, if_true, hpre]
  rfl

/-! ## Numerals -/

/-- `convert` returns an id for the numerals of this rest modulo `2 ^ 32`. -/
theorem convert_eq_id (h0 : 0 ≤ k) (hk : k ≤ 19) :
    convert line = 902001 + k ↔ Signed line ∧ value line % 2 ^ 32 = 902001 + k := by
  rw [convert_eq]
  split_ifs with hs
  · have hmod := int32_emod (value line)
    have hint := int32_isInt (value line)
    unfold IsInt at hint
    rw [and_iff_right hs]
    omega
  · refine iff_of_false (fun h => ?_) fun h => hs h.1
    unfold ERROR_NUM at h
    omega

/-- The numerals of an id are those of its exact value : a sign would make it negative. -/
theorem idLine_iff :
    IdLine line k ↔ 0 ≤ k ∧ k ≤ 19 ∧ Signed line ∧ value line = 902001 + k := by
  unfold IdLine Signed value
  by_cases hneg : isNegative line
  · have hnot : ¬∀ c ∈ line, isdigit c := fun h => by
      obtain ⟨tl, rfl⟩ := List.head?_eq_some_iff.1 (of_decide_eq_true hneg)
      exact absurd (h 45 List.mem_cons_self) (by decide)
    refine iff_of_false (fun h => hnot h.1) fun h => ?_
    rw [if_pos hneg] at h
    omega
  · have hdigits : digits line = line := by
      unfold digits
      split
      · exact absurd (decide_eq_true rfl) hneg
      · rfl
    rw [hdigits, if_neg hneg]
    tauto

/-! ## The gate -/

/-- `initialize` calls `fcntl` for the lock of a record exactly if the line is the numeral of
its id, and then shows the record or refuses the client, as `fcntl` answers. Every line that is
no such numeral is answered with an error, and neither `arr` nor a lock nor the file changes. -/
structure Gated (kind : Kind) (s : Server) (i : ℕ) : Prop where
  asks : ∀ k, Asks kind s i k ↔ IdLine (s.requestP i).buf k
  locked : ∀ k, IdLine (s.requestP i).buf k → ∀ setlk, setlk (recordLock kind k) = false →
    ∀ file, s.initializeClient kind setlk file i = (s.disconnect i false, [.locked], false)
  admits : ∀ k, IdLine (s.requestP i).buf k → (kind = .write → s.arr k ≠ 1) →
    ∀ setlk, setlk (recordLock kind k) = true → ∀ file, s.initializeClient kind setlk file i =
      (s.register kind i k, bookedLines (file k).bookingState, true)
  refuses : (∀ k, ¬IdLine (s.requestP i).buf k) → ∀ last, ∃ t : Server,
    t.arr = s.arr ∧ t.locks = s.locks ∧
    Calls.login kind i last s = .call (.send i .failed) (fun _ => .ret t) ∧
    ∀ setlk file, login kind setlk file i last s = ⟨some t, file, [.failed], []⟩

/-- The first line of a client is treated as it should exactly if it is no alias of an id. -/
theorem id_gate_iff (kind : Kind) (s : Server) (i : ℕ) :
    Gated kind s i ↔ ¬Alias (s.requestP i).buf := by
  constructor
  · rintro h ⟨hs, k, h0, hk, hmod, hne⟩
    have hask : Asks kind s i k := asks_iff.2 ⟨h0, hk, (convert_eq_id h0 hk).2 ⟨hs, hmod⟩⟩
    exact hne (idLine_iff.1 ((h.asks k).1 hask)).2.2.2
  · intro hnot
    have hasks : ∀ k, Asks kind s i k ↔ IdLine (s.requestP i).buf k := by
      intro k
      rw [asks_iff, idLine_iff]
      constructor
      · rintro ⟨h0, hk, heq⟩
        obtain ⟨hs, hmod⟩ := (convert_eq_id h0 hk).1 heq
        exact ⟨h0, hk, hs, by_contra fun hne => hnot ⟨hs, k, h0, hk, hmod, hne⟩⟩
      · rintro ⟨h0, hk, hs, heq⟩
        exact ⟨h0, hk, (convert_eq_id h0 hk).2 ⟨hs, by omega⟩⟩
    refine ⟨hasks, fun k hid setlk hset => initializeClient_locked ((hasks k).2 hid) hset,
      fun k hid hfree setlk hset => initializeClient_admits ((hasks k).2 hid) hset hfree,
      fun hno last => ?_⟩
    have hnone : ∀ k, ¬Asks kind s i k := fun k hk => hno k ((hasks k).1 hk)
    exact ⟨s.disconnect i false, rfl, rfl, login_refused hnone last⟩

end Gate

/-- `4295869297`, that is `2 ^ 32 + 902001`. -/
def aliasLine : Bytes :=
  [52, 50, 57, 53, 56, 54, 57, 50, 57, 55]

/-- This line asks for the lock of the first record. -/
theorem id_gate_alias :
    Asks .write ((boot 3 8 (List.replicate 24 0)).noteLine 4 aliasLine) 4 0 ∧
      (∀ k, ¬IdLine aliasLine k) ∧
      ¬Gated .write ((boot 3 8 (List.replicate 24 0)).noteLine 4 aliasLine) 4 := by
  have hasks : Asks .write ((boot 3 8 (List.replicate 24 0)).noteLine 4 aliasLine) 4 0 :=
    asks_iff.2 (by decide +kernel)
  have hno : ∀ k, ¬IdLine aliasLine k := by
    rintro k ⟨-, hvalue, h0, hk⟩
    have hdecimal : decimal aliasLine = 4295869297 := by decide
    omega
  refine ⟨hasks, hno, fun h => hno 0 ?_⟩
  have := (h.asks 0).1 hasks
  rwa [requestP_noteLine] at this

end SP2022.Booking
