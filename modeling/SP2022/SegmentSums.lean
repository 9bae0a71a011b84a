import Mathlib.Algebra.Order.Monoid.Defs
import Mathlib.Algebra.BigOperators.Group.List.Basic
import Mathlib.Data.List.Infix
import Mathlib.Order.Bounds.Image
import Mathlib.Order.Bounds.Basic

/-!
# Sums of segments

The greatest sum of a contiguous part of a list, one element after another. A segment of
`xs ++ [a]` is one of `xs` or a suffix of `xs ++ [a]` (`segmentSums_concat`), and a suffix
that is not empty is `[a]` or extends one of `xs` (`suffixSums_concat`). So the greatest sum of
a segment is known after each element if the greatest sum of a suffix is kept beside it.
-/

namespace SP2022

variable {α : Type*} [AddCommMonoid α]

/-- The sums of the contiguous parts of a list, the empty one included. -/
def segmentSums (xs : List α) : Set α :=
  {x | ∃ l, l <:+: xs ∧ l.sum = x}

/-- The sums of the parts at its end that are not empty. -/
def suffixSums (xs : List α) : Set α :=
  {x | ∃ l, l ≠ [] ∧ l <:+ xs ∧ l.sum = x}

theorem segmentSums_nil : segmentSums ([] : List α) = {0} := by
  ext x
  simp [segmentSums, eq_comm]

theorem suffixSums_nil : suffixSums ([] : List α) = ∅ := by
  ext x
  simp +contextual [suffixSums]

theorem suffixSums_concat (xs : List α) (a : α) :
    suffixSums (xs ++ [a]) = insert a ((· + a) '' suffixSums xs) := by
  ext x
  constructor
  · rintro ⟨l, hne, hl, rfl⟩
    rcases List.suffix_concat_iff.1 hl with rfl | ⟨m, rfl, hm⟩
    · exact absurd rfl hne
    rcases eq_or_ne m [] with rfl | hne'
    · exact Or.inl (by simp)
    · exact Or.inr ⟨m.sum, ⟨m, hne', hm, rfl⟩, by simp⟩
  · rintro (rfl | ⟨_, ⟨l, hne, hl, rfl⟩, rfl⟩)
    · exact ⟨[x], by simp, List.suffix_append xs [x], by simp⟩
    · exact ⟨l ++ [a], by simp, List.suffix_concat_iff.2 (Or.inr ⟨l, rfl, hl⟩), by simp⟩

theorem segmentSums_concat (xs : List α) (a : α) :
    segmentSums (xs ++ [a]) = segmentSums xs ∪ suffixSums (xs ++ [a]) := by
  ext x
  constructor
  · rintro ⟨l, hl, rfl⟩
    rcases List.infix_concat_iff.1 hl with hl | hl
    · rcases eq_or_ne l [] with rfl | hne
      · exact Or.inl ⟨[], List.nil_infix, rfl⟩
      · exact Or.inr ⟨l, hne, hl, rfl⟩
    · exact Or.inl ⟨l, hl, rfl⟩
  · rintro (⟨l, hl, rfl⟩ | ⟨l, -, hl, rfl⟩)
    · exact ⟨l, hl.trans (List.prefix_append xs [a]).isInfix, rfl⟩
    · exact ⟨l, hl.isInfix, rfl⟩

section Order

variable [LinearOrder α]

/-- The best suffix of a longer list extends the best one before, or starts anew. -/
theorem isGreatest_suffixSums_concat [IsOrderedAddMonoid α] {xs : List α} {y : α}
    (h : IsGreatest (suffixSums xs) y) (a : α) :
    IsGreatest (suffixSums (xs ++ [a])) (max a (y + a)) := by
  rw [suffixSums_concat]
  have hmono : Monotone (· + a) := fun b c hbc => add_le_add_left hbc a
  exact (hmono.map_isGreatest h).insert a

/-- The best segment is the best one before or a suffix. -/
theorem isGreatest_segmentSums_concat {xs : List α} {a x y : α}
    (hx : IsGreatest (segmentSums xs) x) (hy : IsGreatest (suffixSums (xs ++ [a])) y) :
    IsGreatest (segmentSums (xs ++ [a])) (max x y) := by
  rw [segmentSums_concat]
  exact hx.union hy

end Order

end SP2022
