import Mathlib.Data.List.Basic
import Mathlib.Data.List.Perm.Basic
import Mathlib.Logic.Function.Basic
import Mathlib.Tactic

/-!
# Queues kept in an array with a size

A C array with a size field is a function on indices together with an integer
`n`; `queue q n` is the list it stands for. Slots at or past `n` keep whatever was
written there last. The three ways such a queue changes are pushing at the end
(`queue_push`), deleting by shifting the tail down (`queue_shiftDown`), and
filling a hole with the last entry (`queue_fill`).
-/

namespace SP2022

variable {α β : Type*}

/-- `n` turns of `for (i = lo; ; i++) body`. -/
def forLoop (body : ℤ → β → β) : ℕ → ℤ → β → β
  | 0, _, s => s
  | n + 1, lo, s => forLoop body n (lo + 1) (body lo s)

/-- The first `n` entries of an array. -/
def queue (q : ℤ → α) (n : ℤ) : List α :=
  (List.range n.toNat).map fun k : ℕ => q k

/-- `for (k = j; k < n - 1; k++) q[k] = q[k + 1]`. -/
def shiftDown (q : ℤ → α) (j n : ℤ) : ℤ → α :=
  forLoop (fun k q => Function.update q k (q (k + 1))) (n - 1 - j).toNat j q

@[simp] theorem length_queue (q : ℤ → α) (n : ℤ) : (queue q n).length = n.toNat := by
  simp [queue]

@[simp] theorem queue_zero (q : ℤ → α) : queue q 0 = [] := by
  simp [queue]

@[simp] theorem getElem_queue (q : ℤ → α) (n : ℤ) (k : ℕ) (hk : k < (queue q n).length) :
    (queue q n)[k] = q k := by
  simp [queue]

theorem mem_queue {q : ℤ → α} {n : ℤ} {a : α} : a ∈ queue q n ↔ ∃ k, 0 ≤ k ∧ k < n ∧ q k = a := by
  simp only [queue, List.mem_map, List.mem_range]
  constructor
  · rintro ⟨k, hk, rfl⟩
    exact ⟨k, by omega, by omega, rfl⟩
  · rintro ⟨k, h0, hk, rfl⟩
    exact ⟨k.toNat, by omega, by rw [Int.toNat_of_nonneg h0]⟩

theorem queue_ext {q : ℤ → α} {n : ℤ} {l : List α} (hlen : l.length = n.toNat)
    (h : ∀ (k : ℕ) (hk : k < l.length), q k = l[k]) : queue q n = l := by
  refine List.ext_getElem (by simp [hlen]) fun k hk hk' => ?_
  rw [getElem_queue, h k hk']

/-- `q[n] = a; n++`. -/
theorem queue_push (q : ℤ → α) {n : ℤ} (hn : 0 ≤ n) (a : α) :
    queue (Function.update q n a) (n + 1) = queue q n ++ [a] := by
  refine queue_ext (by simp; omega) fun k hk => ?_
  simp only [List.length_append, length_queue, List.length_singleton] at hk
  rcases Nat.lt_or_ge k n.toNat with h | h
  · rw [List.getElem_append_left (by simpa using h), getElem_queue,
      Function.update_of_ne (by omega)]
  · obtain rfl : k = n.toNat := by omega
    rw [List.getElem_append_right (by simp), Int.toNat_of_nonneg hn, Function.update_self]
    simp

/-- What the shifting loop leaves in each slot. -/
theorem shiftDown_apply (q : ℤ → α) (j n k : ℤ) :
    shiftDown q j n k = if j ≤ k ∧ k < n - 1 then q (k + 1) else q k := by
  have main : ∀ (m : ℕ) (lo : ℤ) (p : ℤ → α) (k : ℤ),
      forLoop (fun k q => Function.update q k (q (k + 1))) m lo p k =
        if lo ≤ k ∧ k < lo + m then p (k + 1) else p k := by
    intro m
    induction m with
    | zero =>
      intro lo p k
      rw [if_neg (by omega)]
      rfl
    | succ m ih =>
      intro lo p k
      rw [forLoop, ih]
      by_cases hk : k = lo
      · subst hk
        rw [if_neg (by omega), if_pos (by omega), Function.update_self]
      · rw [Function.update_of_ne hk]
        by_cases h : lo ≤ k ∧ k < lo + (m + 1 : ℕ)
        · rw [if_pos h, if_pos (by omega), Function.update_of_ne (by omega)]
        · rw [if_neg h, if_neg (by omega)]
  rw [shiftDown, main]
  by_cases h : j ≤ k ∧ k < n - 1
  · rw [if_pos h, if_pos (by omega)]
  · rw [if_neg h, if_neg (by omega)]

/-- Deleting entry `j` by shifting the entries after it. -/
theorem queue_shiftDown (q : ℤ → α) {n : ℤ} {j : ℕ} (hj : (j : ℤ) < n) :
    queue (shiftDown q j n) (n - 1) = (queue q n).eraseIdx j := by
  refine queue_ext ?_ fun k hk => ?_
  · rw [List.length_eraseIdx_of_lt (by simp; omega), length_queue]
    omega
  rw [List.length_eraseIdx_of_lt (by simp; omega), length_queue] at hk
  rw [shiftDown_apply, List.getElem_eraseIdx]
  split_ifs with h1 h2 h2
  · omega
  · rw [getElem_queue]
    push_cast
    rfl
  · rw [getElem_queue]
  · omega

/-- `q[c] = q[n - 1]; n--`. -/
theorem queue_fill (q : ℤ → α) (n : ℤ) (c : ℕ) :
    queue (Function.update q c (q (n - 1))) (n - 1) =
      ((queue q n).set c (q (n - 1))).dropLast := by
  refine queue_ext (by simp) fun k hk => ?_
  simp only [List.length_dropLast, List.length_set, length_queue] at hk
  rw [List.getElem_dropLast, List.getElem_set]
  split_ifs with h
  · rw [h, Function.update_self]
  · rw [getElem_queue, Function.update_of_ne (by omega)]

end SP2022
