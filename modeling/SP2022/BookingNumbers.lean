import Mathlib.Tactic.NormNum
import SP2022.Booking

/-!
# What `convert` computes

`convert` takes an optional `-` and digits (`Signed`) and rejects everything else. It
multiplies and adds in an `int`, so what it returns is the number that the line stands for
(`value`), modulo `2 ^ 32` (`convert_eq`). A line of at most seven characters is too short
to overflow (`convert_bounds`). It asks for no digit, and its error number is an `int` like
others, so it recognises the numerals but for these two cases (`convert_recognises_iff`).
-/

namespace SP2022.Booking

/-- The line without its sign. -/
def digits : Bytes → Bytes
  | 45 :: s => s
  | s => s

/-- Whether there is a sign. -/
def isNegative (s : Bytes) : Bool :=
  s.head? = some 45

/-- An optional `-` and digits. -/
def Signed (s : Bytes) : Prop :=
  ∀ c ∈ digits s, isdigit c

instance (s : Bytes) : Decidable (Signed s) :=
  inferInstanceAs (Decidable (∀ c ∈ digits s, isdigit c))

/-- The number that a line of this form stands for. -/
def value (s : Bytes) : ℤ :=
  if isNegative s then -(decimal (digits s) : ℤ) else decimal (digits s)

/-- The test of the loop is one for digits. -/
theorem not_isdigit_iff (c : UInt8) : (c < 48 ∨ 57 < c) ↔ ¬isdigit c := by
  rw [isdigit_iff]
  simp only [UInt8.lt_iff_toNat_lt, UInt8.reduceToNat]
  omega

/-- The loop of `convert` reads digits, modulo `2 ^ 32`, and gives up at anything else. -/
theorem convertLoop_eq {s : Bytes} {n : ℕ} {res : ℤ} (hres : res = int32 n) :
    convertLoop res s = if s.all isdigit then some (int32 (decimalFrom n s)) else none := by
  induction s generalizing n res with
  | nil => simp [convertLoop, decimalFrom, hres]
  | cons c s ih =>
    have hdigit := not_isdigit_iff c
    unfold convertLoop
    by_cases hc : isdigit c
    · have hstep : int32 (int32 (res * 10) + (c.toNat - 48)) =
          int32 ((10 * n + (c - 48).toNat : ℕ) : ℤ) := by
        have hlo := (isdigit_iff.1 hc).1
        rw [int32_add_left, hres, toNat_digit hc]
        refine int32_congr ?_
        have hmod := int32_emod n
        omega
      rw [if_neg fun h => hdigit.1 h hc, ih hstep]
      simp only [List.all_cons, hc, Bool.true_and, decimalFrom]
    · rw [if_pos (hdigit.2 hc), List.all_cons, Bool.eq_false_iff.2 hc]
      rfl

theorem convert_digits (s : Bytes) : convert s = match convertLoop 0 (digits s) with
    | none => ERROR_NUM
    | some res => int32 ((if isNegative s then -1 else 1) * res) := by
  cases s with
  | nil => rfl
  | cons c s =>
    by_cases hc : c = 45
    · rw [hc]
      rfl
    · have hdigits : digits (c :: s) = c :: s := by
        unfold digits
        split
        · next heq => exact absurd (List.cons.inj heq).1 hc
        · rfl
      have hneg : isNegative (c :: s) = false := by simp [isNegative, hc]
      rw [hdigits, hneg]
      unfold convert
      split
      next heq =>
        split at heq
        · next h => exact absurd (List.cons.inj h).1 hc
        · obtain ⟨rfl, rfl⟩ := Prod.mk.inj heq
          rfl

/-- `convert` returns the number that the line stands for, modulo `2 ^ 32`. -/
theorem convert_eq (s : Bytes) :
    convert s = if Signed s then int32 (value s) else ERROR_NUM := by
  rw [convert_digits, convertLoop_eq (show (0 : ℤ) = int32 (0 : ℕ) by decide)]
  by_cases hd : Signed s
  · have hmod := int32_emod (decimalFrom 0 (digits s))
    rw [if_pos hd, if_pos (List.all_eq_true.2 hd)]
    refine int32_congr ?_
    unfold value decimal
    cases isNegative s
    · simp only [Bool.false_eq_true, if_false]
      omega
    · simp only [if_true]
      omega
  · rw [if_neg hd, if_neg fun h => hd (List.all_eq_true.1 h)]

/-- Digits without a sign. -/
theorem convert_of_digits {s : Bytes} (h : ∀ c ∈ s, isdigit c) : convert s = int32 (decimal s) := by
  have hhead : s.head? ≠ some 45 := fun hc => by
    obtain ⟨tl, rfl⟩ := List.head?_eq_some_iff.1 hc
    exact absurd (h 45 List.mem_cons_self) (by decide)
  have hdigits : digits s = s := by
    unfold digits
    split
    · exact absurd rfl hhead
    · rfl
  have hneg : isNegative s = false := decide_eq_false hhead
  rw [convert_eq, if_pos (by rw [Signed, hdigits]; exact h), value, hneg, hdigits]
  rfl

theorem length_digits_le (s : Bytes) : (digits s).length ≤ s.length := by
  unfold digits
  split
  · exact Nat.le_succ _
  · exact le_rfl

/-- At most seven characters do not overflow. -/
theorem convert_bounds {s : Bytes} (hlen : s.length ≤ 7) :
    -10 ^ 7 < convert s ∧ convert s < 10 ^ 7 := by
  rw [convert_eq]
  split_ifs with hs
  · have hlt : decimal (digits s) < 10 ^ 7 :=
      (decimal_lt hs).trans_le (Nat.pow_le_pow_right (by decide) ((length_digits_le s).trans hlen))
    have hvalue : -10 ^ 7 < value s ∧ value s < 10 ^ 7 := by
      unfold value
      split_ifs <;> omega
    rw [int32_eq ⟨by omega, by omega⟩]
    exact hvalue
  · decide

/-! ## What is recognised -/

/-- An optional `-` and one or more digits. -/
def IsNumeral (s : Bytes) : Prop :=
  digits s ≠ [] ∧ Signed s

instance (s : Bytes) : Decidable (IsNumeral s) :=
  decidable_of_iff (digits s ≠ [] ∧ (digits s).all isdigit = true) <| by
    simp [IsNumeral, Signed]

/-- `convert` returns the value of a numeral that fits in an `int`, apart from the value it
rejects with, and rejects what is no numeral. -/
def Recognised (s : Bytes) : Prop :=
  (IsNumeral s → IsInt (value s) → convert s = value s ∧ convert s ≠ ERROR_NUM) ∧
    (¬IsNumeral s → convert s = ERROR_NUM)

theorem digits_eq_nil_iff (s : Bytes) : digits s = [] ↔ s = [] ∨ s = [45] := by
  unfold digits
  split
  · next s => simp
  · next hne =>
    constructor
    · exact Or.inl
    · rintro (h | h)
      · exact h
      · exact absurd h (hne [])

/-- The strings that `convert` recognises : it takes an empty digit string for 0, and
`ERROR_NUM` has a numeral of its own. -/
theorem convert_recognises_iff (s : Bytes) :
    Recognised s ↔ s ≠ [] ∧ s ≠ [45] ∧ ¬(IsNumeral s ∧ value s = ERROR_NUM) := by
  have hempty := digits_eq_nil_iff s
  have hconvert := convert_eq s
  constructor
  · rintro ⟨hvalue, hreject⟩
    have hdigits : digits s ≠ [] := by
      intro hnil
      have hsigned : Signed s := fun c hc => by rw [hnil] at hc; cases hc
      have hzero : convert s = 0 := by
        rw [hconvert, if_pos hsigned, value, hnil]
        split_ifs <;> decide
      have herror := hreject fun h => h.1 hnil
      rw [hzero] at herror
      exact absurd herror (by decide)
    refine ⟨fun h => hdigits (hempty.2 (Or.inl h)), fun h => hdigits (hempty.2 (Or.inr h)), ?_⟩
    rintro ⟨hnum, heq⟩
    obtain ⟨hv, hne⟩ := hvalue hnum (by rw [heq]; unfold ERROR_NUM IsInt; omega)
    exact hne (hv.trans heq)
  · rintro ⟨hnil, hminus, hsentinel⟩
    have hdigits : digits s ≠ [] := fun h => (hempty.1 h).elim hnil hminus
    refine ⟨fun hnum hint => ?_, fun hnum => ?_⟩
    · have hv : convert s = value s := by rw [hconvert, if_pos hnum.2, int32_eq hint]
      exact ⟨hv, fun h => hsentinel ⟨hnum, hv.symm.trans h⟩⟩
    · rw [hconvert, if_neg fun h => hnum ⟨hdigits, h⟩]

/-- A lone `-` is taken for 0, and the numeral `-100000` is taken for a rejection. -/
theorem convert_misreads : ¬Recognised [45] ∧ ¬Recognised [45, 49, 48, 48, 48, 48, 48] := by
  constructor
  · intro h
    exact absurd (h.2 (by decide)) (by decide)
  · intro h
    exact (h.1 (by decide) (by decide)).2 (by decide)

end SP2022.Booking
