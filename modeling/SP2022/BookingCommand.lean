import Mathlib.Algebra.BigOperators.Fin
import Mathlib.Algebra.Order.BigOperators.Group.Finset
import SP2022.Booking

/-!
# The checks on a command

The new counts and their sum are rounded to `int` at every step. `check_eq_ok` says which
parameters pass, in terms of the rounded counts, and `new_count_exact` that a count which
passes is the exact sum. The total has no such guarantee : `check_iff` gives the exact
totals that pass, and those from `2 ^ 31` on wrap around (`Wraps`).
-/

namespace SP2022.Booking

theorem convert_isInt (s : Bytes) : IsInt (convert s) := by
  unfold convert
  dsimp only
  split
  · unfold ERROR_NUM IsInt
    omega
  · exact int32_isInt _

/-- The parameters are `int`s. -/
theorem params_isInt {input : Bytes} {param : Counts} (h : params input = some param)
    (j : Fin OBJ_NUM) : IsInt (param j) := by
  unfold params at h
  split_ifs at h
  obtain rfl := Option.some.inj h
  exact convert_isInt _

/-- The second loop passes if no count is negative, and returns the rounded sum. -/
theorem newCounts_eq_ok (param old : Counts) :
    ∀ (js : List (Fin OBJ_NUM)) (sum : ℤ) {r : ℤ}, IsInt sum →
      (newCounts param old js sum = .ok r ↔ (∀ j ∈ js, 0 ≤ int32 (param j + old j)) ∧
        r = int32 (sum + (js.map fun j => int32 (param j + old j)).sum))
  | [], sum, r, hsum => by
    simp [newCounts, int32_eq hsum, eq_comm]
  | j :: js, sum, r, hsum => by
    have ih := newCounts_eq_ok param old js (int32 (sum + int32 (param j + old j))) (r := r)
      (int32_isInt _)
    unfold newCounts
    split_ifs with hneg
    · refine iff_of_false (by simp) fun h => ?_
      have := h.1 j List.mem_cons_self
      omega
    · rw [ih, int32_add_left, List.map_cons, List.sum_cons, add_assoc]
      simp only [List.mem_cons, forall_eq_or_imp, not_lt.1 hneg, true_and]

/-- Parameters pass if no new count is negative and the rounded total is at most `15`. -/
theorem check_eq_ok {param old new : Counts} : check param old = .ok new ↔
    (∀ j, 0 ≤ int32 (param j + old j)) ∧ int32 (∑ j, int32 (param j + old j)) ≤ 15 ∧
      new = fun j => int32 (param j + old j) := by
  have hloop := @newCounts_eq_ok param old (List.finRange OBJ_NUM) 0
  have hsum : ((List.finRange OBJ_NUM).map fun j => int32 (param j + old j)).sum =
      ∑ j, int32 (param j + old j) := (Fin.sum_univ_def _).symm
  unfold check
  cases hc : newCounts param old (List.finRange OBJ_NUM) 0 with
  | error r =>
    refine iff_of_false (by simp) fun h => ?_
    have hok := (hloop (r := int32 (∑ j, int32 (param j + old j))) (by unfold IsInt; omega)).2
      ⟨fun j _ => h.1 j, by rw [zero_add, hsum]⟩
    rw [hc] at hok
    exact absurd hok (by simp)
  | ok sum =>
    obtain ⟨hnonneg, hr⟩ := (hloop (by unfold IsInt; omega)).1 hc
    rw [zero_add, hsum] at hr
    subst hr
    simp only
    split_ifs with h15
    · refine iff_of_false (by simp) fun h => ?_
      omega
    · rw [Except.ok.injEq, eq_comm]
      exact ⟨fun h => ⟨fun j => hnonneg j (List.mem_finRange j), not_lt.1 h15, h⟩, fun h => h.2.2⟩

/-- A new count that is not negative is exact : the sum of two `int`s, one of them not
negative, wraps around to a negative number only. -/
theorem new_count_exact {p c : ℤ} (hp : IsInt p) (hc : IsInt c) (h0 : 0 ≤ c) :
    0 ≤ int32 (p + c) ↔ 0 ≤ p + c ∧ p + c < 2 ^ 31 := by
  have hmod := int32_emod (p + c)
  have hint := int32_isInt (p + c)
  unfold IsInt at hp hc hint
  constructor
  · intro h
    omega
  · rintro ⟨hlo, hhi⟩
    rw [int32_eq ⟨by omega, hhi⟩]
    exact hlo

/-- The three new counts are right, but their exact total wraps around to a number that is
at most `15`. -/
def Wraps (param old : Counts) : Prop :=
  (∀ j, 0 ≤ param j + old j ∧ param j + old j < 2 ^ 31) ∧
    2 ^ 31 ≤ ∑ j, (param j + old j) ∧ ∑ j, (param j + old j) ≤ 2 ^ 32 + 15

instance (param old : Counts) : Decidable (Wraps param old) :=
  inferInstanceAs (Decidable (_ ∧ _ ∧ _))

/-- Over counts that are not negative, parameters pass exactly if the exact new counts are
`int`s, not negative, with a total of at most `15` or one that wraps around. -/
theorem check_iff {param old new : Counts} (hparam : ∀ j, IsInt (param j))
    (hold : ∀ j, IsInt (old j)) (h0 : ∀ j, 0 ≤ old j) : check param old = .ok new ↔
      (((∀ j, 0 ≤ param j + old j) ∧ ∑ j, (param j + old j) ≤ 15) ∨ Wraps param old) ∧
        new = fun j => param j + old j := by
  have hexact : ∀ j, 0 ≤ int32 (param j + old j) ↔
      0 ≤ param j + old j ∧ param j + old j < 2 ^ 31 :=
    fun j => new_count_exact (hparam j) (hold j) (h0 j)
  have htotal : (∀ j, 0 ≤ param j + old j ∧ param j + old j < 2 ^ 31) →
      (int32 (∑ j, (param j + old j)) ≤ 15 ↔ ∑ j, (param j + old j) ≤ 15 ∨
        2 ^ 31 ≤ ∑ j, (param j + old j) ∧ ∑ j, (param j + old j) ≤ 2 ^ 32 + 15) := by
    intro hn
    have hmod := int32_emod (∑ j, (param j + old j))
    have hint := int32_isInt (∑ j, (param j + old j))
    rw [Fin.sum_univ_three] at hmod hint ⊢
    have h0 := hn 0
    have h1 := hn 1
    have h2 := hn 2
    unfold IsInt at hint
    omega
  rw [check_eq_ok]
  constructor
  · rintro ⟨hn, hs, rfl⟩
    have hn' : ∀ j, 0 ≤ param j + old j ∧ param j + old j < 2 ^ 31 := fun j => (hexact j).1 (hn j)
    have heq : ∀ j, int32 (param j + old j) = param j + old j :=
      fun j => int32_eq ⟨by have := hn' j; omega, (hn' j).2⟩
    simp only [heq] at hs ⊢
    exact ⟨((htotal hn').1 hs).imp (fun h => ⟨fun j => (hn' j).1, h⟩) fun h => ⟨hn', h⟩, trivial⟩
  · rintro ⟨hor, rfl⟩
    have hn : ∀ j, 0 ≤ param j + old j ∧ param j + old j < 2 ^ 31 := by
      rcases hor with ⟨hn, hs⟩ | hw
      · intro j
        have hle := Finset.single_le_sum (fun i _ => hn i) (Finset.mem_univ j)
        exact ⟨hn j, by omega⟩
      · exact hw.1
    have heq : ∀ j, int32 (param j + old j) = param j + old j :=
      fun j => int32_eq ⟨by have := hn j; omega, (hn j).2⟩
    refine ⟨fun j => (hexact j).2 (hn j), ?_, funext fun j => (heq j).symm⟩
    simp only [heq]
    exact (htotal hn).2 (hor.imp (fun h => h.2) fun h => h.2)

/-! ## The answer to a command -/

/-- The second loop fails for a negative count only. -/
theorem newCounts_error {param old : Counts} {js : List (Fin OBJ_NUM)} {sum : ℤ} {r : Reply}
    (h : newCounts param old js sum = .error r) :
    r = .negative ∧ ∃ j ∈ js, int32 (param j + old j) < 0 := by
  induction js generalizing sum with
  | nil => simp [newCounts] at h
  | cons j js ih =>
    unfold newCounts at h
    split_ifs at h with hneg
    · exact ⟨(Except.error.inj h).symm, j, List.mem_cons_self, hneg⟩
    · obtain ⟨hr, i, hi, hneg⟩ := ih h
      exact ⟨hr, i, List.mem_cons_of_mem j hi, hneg⟩

/-- The checks fail for a negative count, and then for the total. -/
theorem check_eq (param old : Counts) : check param old =
    if ∃ j, int32 (param j + old j) < 0 then .error .negative
    else if 15 < int32 (∑ j, int32 (param j + old j)) then .error .exceeds
    else .ok fun j => int32 (param j + old j) := by
  by_cases hneg : ∃ j, int32 (param j + old j) < 0
  · rw [if_pos hneg]
    unfold check
    cases hc : newCounts param old (List.finRange OBJ_NUM) 0 with
    | error r => exact congrArg _ (newCounts_error hc).1
    | ok sum =>
      have hpos := ((newCounts_eq_ok param old _ 0 (by unfold IsInt; omega)).1 hc).1
      obtain ⟨j, hj⟩ := hneg
      exact absurd (hpos j (List.mem_finRange j)) (not_le.2 hj)
  · rw [if_neg hneg]
    split_ifs with h15
    · unfold check
      cases hc : newCounts param old (List.finRange OBJ_NUM) 0 with
      | error r =>
        obtain ⟨-, j, -, hj⟩ := newCounts_error hc
        exact absurd ⟨j, hj⟩ hneg
      | ok sum =>
        obtain ⟨-, rfl⟩ := (newCounts_eq_ok param old _ 0 (by unfold IsInt; omega)).1 hc
        rw [zero_add, ← Fin.sum_univ_def]
        exact if_pos h15
    · refine check_eq_ok.2 ⟨fun j => not_lt.1 fun hj => hneg ⟨j, hj⟩, not_lt.1 h15, rfl⟩

/-- What the checks are for : the exact new counts, unless one is negative or their exact
total exceeds `15`. -/
def limitCheck (param old : Counts) : Except Reply Counts :=
  if ∃ j, param j + old j < 0 then .error .negative
  else if 15 < ∑ j, (param j + old j) then .error .exceeds
  else .ok fun j => param j + old j

/-- An exact new count is negative, or all of them are `int`s and their total does not wrap
around. -/
def Unwrapped (param old : Counts) : Prop :=
  (∃ j, param j + old j < 0) ∨ (∀ j, param j + old j < 2 ^ 31) ∧
    ¬(2 ^ 31 ≤ ∑ j, (param j + old j) ∧ ∑ j, (param j + old j) ≤ 2 ^ 32 + 15)

instance (param old : Counts) : Decidable (Unwrapped param old) :=
  inferInstanceAs (Decidable (_ ∨ _))

section Limits

variable {param old : Counts}

/-- Over counts that are not negative the checks are as they should, unless something wraps
around. -/
theorem check_of_unwrapped (hparam : ∀ j, IsInt (param j)) (hold : ∀ j, IsInt (old j))
    (h0 : ∀ j, 0 ≤ old j) (h : Unwrapped param old) : check param old = limitCheck param old := by
  unfold limitCheck
  have hexact := fun j => new_count_exact (hparam j) (hold j) (h0 j)
  by_cases hneg : ∃ j, param j + old j < 0
  · obtain ⟨j, hj⟩ := hneg
    have hj' : int32 (param j + old j) < 0 := not_le.1 fun hle => by
      have := ((hexact j).1 hle).1
      omega
    rw [check_eq, if_pos ⟨j, hj'⟩, if_pos ⟨j, hj⟩]
  · obtain ⟨hhi, hwrap⟩ := h.resolve_left hneg
    have hlo : ∀ j, 0 ≤ param j + old j := fun j => not_lt.1 fun hj => hneg ⟨j, hj⟩
    have heq : ∀ j, int32 (param j + old j) = param j + old j :=
      fun j => int32_eq ⟨(hlo j).trans' (by decide), hhi j⟩
    have htotal : 15 < int32 (∑ j, (param j + old j)) ↔ 15 < ∑ j, (param j + old j) := by
      have hmod := int32_emod (∑ j, (param j + old j))
      have hint := int32_isInt (∑ j, (param j + old j))
      rw [Fin.sum_univ_three] at hmod hint hwrap ⊢
      have h0 := hlo 0
      have h1 := hlo 1
      have h2 := hlo 2
      have h0' := hhi 0
      have h1' := hhi 1
      have h2' := hhi 2
      unfold IsInt at hint
      omega
    rw [check_eq]
    simp only [heq, htotal]

/-- If something wraps around, the total exceeds `15`, and the checks do not say so. -/
theorem check_of_wrapped (hparam : ∀ j, IsInt (param j)) (hold : ∀ j, IsInt (old j))
    (h0 : ∀ j, 0 ≤ old j) (h : ¬Unwrapped param old) :
    limitCheck param old = .error .exceeds ∧ check param old ≠ .error .exceeds := by
  obtain ⟨hneg, hwrap⟩ := not_or.1 h
  have hlo : ∀ j, 0 ≤ param j + old j := fun j => not_lt.1 fun hj => hneg ⟨j, hj⟩
  have hle : ∀ j, param j + old j ≤ ∑ j, (param j + old j) := fun j =>
    Finset.single_le_sum (f := fun j => param j + old j) (fun i _ => hlo i) (Finset.mem_univ j)
  by_cases hhi : ∀ j, param j + old j < 2 ^ 31
  · have hsum : 2 ^ 31 ≤ ∑ j, (param j + old j) ∧ ∑ j, (param j + old j) ≤ 2 ^ 32 + 15 :=
      not_not.1 fun hn => hwrap ⟨hhi, hn⟩
    refine ⟨?_, ?_⟩
    · rw [limitCheck, if_neg hneg, if_pos (by omega)]
    · rw [(check_iff hparam hold h0).2 ⟨Or.inr ⟨fun j => ⟨hlo j, hhi j⟩, hsum⟩, rfl⟩]
      simp
  · obtain ⟨j, hj⟩ := not_forall.1 hhi
    have hbig := hle j
    have hj' : int32 (param j + old j) < 0 := not_le.1 fun hle =>
      hj ((new_count_exact (hparam j) (hold j) (h0 j)).1 hle).2
    refine ⟨?_, ?_⟩
    · rw [limitCheck, if_neg hneg, if_pos (by omega)]
    · rw [check_eq, if_pos ⟨j, hj'⟩]
      simp

end Limits

/-! ## What a command does with it -/

/-- What the checks make of the slots. -/
def result (param : Option Counts) (old : Counts) : Except Reply Counts :=
  match param with
  | none => .error .failed
  | some param => check param old

/-- The file after a command on the record `k` with this result. -/
def fileAfter (file : File) (k : ℤ) : Except Reply Counts → File
  | .error _ => file
  | .ok new => Function.update file k { file k with bookingState := new }

/-- What the client is told. -/
def repliesAfter (k : ℤ) : Except Reply Counts → List Reply
  | .error r => [r]
  | .ok new => .updated (902001 + k) :: bookedLines new

theorem fileAfter_ok (file : File) (k : ℤ) (new : Counts) : fileAfter file k (.ok new) =
    Function.update file k { file k with bookingState := new } :=
  rfl

/-- A command line, by the result of its checks. -/
theorem command_eq {file : File} {i : ℕ} {s : Server} {k : ℤ}
    (hid : (s.requestP i).id = 902001 + k) :
    (command file i s).server =
        some (Server.disconnect { s with input := scan (s.requestP i).buf s.input } i true) ∧
      (command file i s).file = fileAfter file k
        (result (params (scan (s.requestP i).buf s.input)) (file k).bookingState) ∧
      (command file i s).replies = repliesAfter k
        (result (params (scan (s.requestP i).buf s.input)) (file k).bookingState) := by
  have hidx : 902001 + k - 902000 - 1 = k := by omega
  unfold command result
  simp only [hid, hidx]
  cases params (scan (s.requestP i).buf s.input) with
  | none => exact ⟨rfl, rfl, rfl⟩
  | some param =>
    simp only
    cases check param (file k).bookingState with
    | error r => exact ⟨rfl, rfl, rfl⟩
    | ok new => exact ⟨rfl, rfl, rfl⟩

/-- What a command line adds to which record. -/
theorem command_applied {file : File} {i : ℕ} {s : Server} {k : ℤ}
    (hid : (s.requestP i).id = 902001 + k) :
    (command file i s).applied =
      match params (scan (s.requestP i).buf s.input) with
      | none => []
      | some param =>
        match check param (file k).bookingState with
        | .error _ => []
        | .ok _ => [(k, param)] := by
  have hidx : 902001 + k - 902000 - 1 = k := by omega
  unfold command
  simp only [hid, hidx]
  cases params (scan (s.requestP i).buf s.input) with
  | none => rfl
  | some param =>
    simp only
    cases check param (file k).bookingState <;> rfl

/-- No check fails with the message of a success. -/
theorem check_ne_updated {param old : Counts} {r : Reply} (h : check param old = .error r)
    (id : ℤ) : r ≠ .updated id := by
  rw [check_eq] at h
  split_ifs at h <;> rw [← Except.error.inj h] <;> simp

end SP2022.Booking
