import Mathlib.Data.List.Basic
import Mathlib.Data.List.TakeWhile
import Mathlib.Data.Int.Basic
import Mathlib.Tactic.Ring

/-!
# The parts of the C library that the programs share

Strings are the bytes before their `NUL`. `int32` rounds an exact result to the C `int`
that two's complement keeps of it, and an `int` is a number that it leaves alone
(`IsInt`).
-/

namespace SP2022

/-- A string, without its `NUL`. -/
abbrev Bytes :=
  List UInt8

/-- The string that starts at the first of these bytes. -/
def cstring (mem : Bytes) : Bytes :=
  mem.takeWhile (· ≠ 0)

/-- `isspace` in the C locale. -/
def isspace (c : UInt8) : Bool :=
  c = 32 || (9 ≤ c && c ≤ 13)

/-- `isdigit`. -/
def isdigit (c : UInt8) : Bool :=
  48 ≤ c && c ≤ 57

/-- `strstr` : the first position of `pat`. -/
def strstr (pat : Bytes) : Bytes → Option ℕ
  | [] => if pat = [] then some 0 else none
  | c :: s => if pat.isPrefixOf (c :: s) then some 0 else (strstr pat s).map (· + 1)

/-- `strstr` finds what is there. -/
theorem strstr_isSome_iff (pat : Bytes) : ∀ s : Bytes, (strstr pat s).isSome ↔ pat <:+: s
  | [] => by
    unfold strstr
    split_ifs with h <;> simp [h]
  | c :: s => by
    rw [List.infix_cons_iff, ← strstr_isSome_iff pat s, strstr]
    split_ifs with h
    · simp [List.isPrefixOf_iff_prefix.1 h]
    · have hnot : ¬pat <+: c :: s := fun hc => h (List.isPrefixOf_iff_prefix.2 hc)
      simp [hnot]

/-- The words of a string, as `%s` reads them one after another. -/
def words (s : Bytes) : List Bytes :=
  (s.splitOnP isspace).filter (· ≠ [])

/-- The pieces of a list have only its elements. -/
theorem mem_of_mem_splitOnP {p : UInt8 → Bool} {s w : Bytes} {c : UInt8}
    (hw : w ∈ s.splitOnP p) (hc : c ∈ w) : c ∈ s := by
  induction s generalizing w with
  | nil =>
    obtain rfl := List.mem_singleton.1 hw
    exact hc
  | cons x s ih =>
    rw [List.splitOnP_cons_eq_if_modifyHead] at hw
    split_ifs at hw
    · rcases List.mem_cons.1 hw with rfl | hw
      · simp at hc
      · exact List.mem_cons_of_mem x (ih hw hc)
    · cases hs : s.splitOnP p with
      | nil => exact absurd hs (List.splitOnP_ne_nil p s)
      | cons v vs =>
        rw [hs, List.modifyHead_cons] at hw
        rcases List.mem_cons.1 hw with rfl | hw
        · refine (List.mem_cons.1 hc).elim (fun h => h ▸ List.mem_cons_self) fun hc => ?_
          exact List.mem_cons_of_mem x (ih (hs ▸ List.mem_cons_self) hc)
        · exact List.mem_cons_of_mem x (ih (hs ▸ List.mem_cons_of_mem v hw) hc)

theorem mem_of_mem_words {s w : Bytes} {c : UInt8} (hw : w ∈ words s) (hc : c ∈ w) : c ∈ s :=
  mem_of_mem_splitOnP (List.mem_filter.1 hw).1 hc

/-- The word that ends at a blank. -/
theorem words_append {w : Bytes} (hne : w ≠ []) (h : ∀ c ∈ w, isspace c = false) {c : UInt8}
    (hc : isspace c) (s : Bytes) : words (w ++ c :: s) = w :: words s := by
  simp [words, List.splitOnP_append_cons_of_forall_mem h c hc, hne]

theorem words_single {w : Bytes} (hne : w ≠ []) (h : ∀ c ∈ w, isspace c = false) :
    words w = [w] := by
  simp [words, List.splitOnP_eq_singleton h, hne]

theorem zero_notMem_cstring (mem : Bytes) : 0 ∉ cstring mem :=
  fun h => absurd (List.mem_takeWhile_imp h) (by decide)

/-- A string ends at the first `NUL`. -/
theorem cstring_append {s : Bytes} (h : 0 ∉ s) (rest : Bytes) :
    cstring (s ++ rest) = s ++ cstring rest := by
  refine List.takeWhile_append_of_pos fun c hc => ?_
  exact decide_eq_true fun h0 => h (h0 ▸ hc)

theorem cstring_append_zero {s : Bytes} (h : 0 ∉ s) (rest : Bytes) :
    cstring (s ++ 0 :: rest) = s := by
  rw [cstring_append h]
  simp [cstring]

/-! ## Decimal numerals -/

/-- The number that a string of digits is read as, after one that was read as `n`. -/
def decimalFrom : ℕ → Bytes → ℕ
  | n, [] => n
  | n, c :: s => decimalFrom (10 * n + (c - 48).toNat) s

/-- The number that a string of digits stands for. -/
def decimal (s : Bytes) : ℕ :=
  decimalFrom 0 s

theorem isdigit_iff {c : UInt8} : isdigit c ↔ 48 ≤ c.toNat ∧ c.toNat ≤ 57 := by
  simp [isdigit, UInt8.le_iff_toNat_le]

theorem toNat_digit {c : UInt8} (h : isdigit c) : (c - 48).toNat = c.toNat - 48 :=
  UInt8.toNat_sub_of_le _ _ (UInt8.le_iff_toNat_le.2 (isdigit_iff.1 h).1)

/-- More digits multiply the number by powers of ten. -/
theorem decimalFrom_lt {s : Bytes} (h : ∀ c ∈ s, isdigit c) (n : ℕ) :
    decimalFrom n s < (n + 1) * 10 ^ s.length := by
  induction s generalizing n with
  | nil => simp [decimalFrom]
  | cons c s ih =>
    have hc := isdigit_iff.1 (h c List.mem_cons_self)
    have hdigit := toNat_digit (h c List.mem_cons_self)
    have hs := ih (fun d hd => h d (List.mem_cons_of_mem c hd)) (10 * n + (c - 48).toNat)
    calc decimalFrom n (c :: s) < (10 * n + (c - 48).toNat + 1) * 10 ^ s.length := hs
      _ ≤ (10 * (n + 1)) * 10 ^ s.length := Nat.mul_le_mul_right _ (by omega)
      _ = (n + 1) * 10 ^ (c :: s).length := by
        rw [List.length_cons, pow_succ]
        ring

theorem decimal_lt {s : Bytes} (h : ∀ c ∈ s, isdigit c) : decimal s < 10 ^ s.length := by
  have := decimalFrom_lt h 0
  rwa [zero_add, one_mul] at this

/-- Zeros in front do not count. -/
theorem decimal_zeros (m : ℕ) (s : Bytes) : decimal (List.replicate m 48 ++ s) = decimal s := by
  induction m with
  | zero => rfl
  | succ m ih => exact ih

/-- The value of a string of decimal digits. -/
def digits (s : List UInt8) : ℤ :=
  s.foldl (fun n c => 10 * n + (c.toNat - 48 : ℤ)) 0

/-- `atoi`, before the result is stored in an `int`. -/
def atoi (s : List UInt8) : ℤ :=
  match s.dropWhile isspace with
  | 45 :: s => -digits (s.takeWhile isdigit)
  | 43 :: s => digits (s.takeWhile isdigit)
  | s => digits (s.takeWhile isdigit)

/-- A sign or none, and digits, with the number they stand for. -/
inductive Numeral : Bytes → ℤ → Prop
  | plain {ds : Bytes} : ds ≠ [] → (∀ c ∈ ds, isdigit c) → Numeral ds (decimal ds)
  | plus {ds : Bytes} : ds ≠ [] → (∀ c ∈ ds, isdigit c) → Numeral (43 :: ds) (decimal ds)
  | minus {ds : Bytes} : ds ≠ [] → (∀ c ∈ ds, isdigit c) → Numeral (45 :: ds) (-decimal ds)

theorem Numeral.ne_nil {s : Bytes} {x : ℤ} (h : Numeral s x) : s ≠ [] := by
  cases h with
  | plain hne hd => exact hne
  | plus hne hd => simp
  | minus hne hd => simp

theorem Numeral.chars {s : Bytes} {x : ℤ} (h : Numeral s x) {c : UInt8} (hc : c ∈ s) :
    c = 43 ∨ c = 45 ∨ isdigit c := by
  cases h with
  | plain hne hd => exact Or.inr (Or.inr (hd c hc))
  | plus hne hd => exact (List.mem_cons.1 hc).imp_right fun hc => Or.inr (hd c hc)
  | minus hne hd =>
    exact (List.mem_cons.1 hc).elim (fun h => Or.inr (Or.inl h)) fun hc => Or.inr (Or.inr (hd c hc))

theorem digits_eq {s : Bytes} (h : ∀ c ∈ s, isdigit c) : digits s = decimal s := by
  have main : ∀ {s : Bytes} (n : ℕ), (∀ c ∈ s, isdigit c) →
      s.foldl (fun n c => 10 * n + (c.toNat - 48 : ℤ)) (n : ℤ) = decimalFrom n s := by
    intro s
    induction s with
    | nil => exact fun n _ => rfl
    | cons c s ih =>
      intro n hs
      have hlo := (isdigit_iff.1 (hs c List.mem_cons_self)).1
      have hstep : (10 * (n : ℤ) + (c.toNat - 48 : ℤ)) = (10 * n + (c - 48).toNat : ℕ) := by
        rw [toNat_digit (hs c List.mem_cons_self)]
        omega
      rw [List.foldl_cons, hstep, ih _ fun d hd => hs d (List.mem_cons_of_mem c hd)]
      rfl
  exact main 0 h

theorem digits_takeWhile {ds rest : Bytes} (hd : ∀ c ∈ ds, isdigit c)
    (hrest : ∀ c ∈ rest.head?, ¬isdigit c) :
    digits ((ds ++ rest).takeWhile isdigit) = decimal ds := by
  rw [List.takeWhile_append_of_pos hd]
  have hnone : rest.takeWhile isdigit = [] := by
    cases rest with
    | nil => rfl
    | cons c rest => exact List.takeWhile_cons_of_neg (hrest c rfl)
  rw [hnone, List.append_nil, digits_eq hd]

/-- `atoi` reads the numeral after the blanks. -/
theorem atoi_numeral {s rest : Bytes} {x : ℤ} (h : Numeral s x) (b : ℕ)
    (hrest : ∀ c ∈ rest.head?, ¬isdigit c) :
    atoi (List.replicate b 32 ++ (s ++ rest)) = x := by
  have hblank : ∀ c ∈ List.replicate b (32 : UInt8), isspace c := fun c hc => by
    rw [List.eq_of_mem_replicate hc]
    decide
  unfold atoi
  rw [List.dropWhile_append_of_pos hblank]
  cases h with
  | plain hne hd =>
    obtain ⟨c, ds, rfl⟩ := List.exists_cons_of_ne_nil hne
    have hc := isdigit_iff.1 (hd c List.mem_cons_self)
    have hspace : ¬isspace c := by
      simp only [isspace, UInt8.le_iff_toNat_le, Bool.or_eq_true, Bool.and_eq_true,
        decide_eq_true_eq, ← UInt8.toNat_inj, UInt8.reduceToNat]
      omega
    rw [List.cons_append, List.dropWhile_cons_of_neg hspace]
    split
    · next heq => exact absurd hc.1 (by rw [(List.cons.inj heq).1]; decide)
    · next heq => exact absurd hc.1 (by rw [(List.cons.inj heq).1]; decide)
    · exact digits_takeWhile hd hrest
  | plus hne hd => exact digits_takeWhile hd hrest
  | minus hne hd => exact congrArg Neg.neg (digits_takeWhile hd hrest)

/-! ## `int` -/

/-- The `int` that is left of an exact result. -/
def int32 (x : ℤ) : ℤ :=
  x.bmod (2 ^ 32)

/-- The values of `int`. -/
def IsInt (x : ℤ) : Prop :=
  -2 ^ 31 ≤ x ∧ x < 2 ^ 31

instance (x : ℤ) : Decidable (IsInt x) :=
  inferInstanceAs (Decidable (_ ∧ _))

theorem int32_isInt (x : ℤ) : IsInt (int32 x) := by
  unfold int32 IsInt
  have hlo := @Int.le_bmod x (2 ^ 32) (by decide)
  have hhi := @Int.bmod_lt x (2 ^ 32) (by decide)
  omega

theorem int32_eq {x : ℤ} (h : IsInt x) : int32 x = x := by
  unfold int32 IsInt at *
  exact Int.bmod_eq_of_le (by omega) (by omega)

/-- Rounding keeps the value modulo `2 ^ 32`. -/
theorem int32_emod (x : ℤ) : int32 x % 2 ^ 32 = x % 2 ^ 32 :=
  Int.bmod_emod

theorem int32_congr {x y : ℤ} (h : x % 2 ^ 32 = y % 2 ^ 32) : int32 x = int32 y := by
  unfold int32
  rw [← @Int.emod_bmod x (2 ^ 32), ← @Int.emod_bmod y (2 ^ 32)]
  exact congrArg (Int.bmod · (2 ^ 32)) h

/-- A rounded summand does not change a rounded sum. -/
theorem int32_add_left (x y : ℤ) : int32 (int32 x + y) = int32 (x + y) :=
  int32_congr (by rw [Int.add_emod, int32_emod, ← Int.add_emod])

end SP2022
