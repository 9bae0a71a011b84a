import Mathlib.Data.List.Perm.Basic
import Mathlib.Tactic.Ring

/-!
# Exchanging and merging

Two pieces of sorting programs, for any type and any strict preference `r`. `swapAt`
exchanges two elements of a list. `mergeBy` merges two lists and takes from the first one
only what `r` strictly prefers. Both keep the elements and commute with maps.

A merge may prefer by another order than the one in which its lists are (`Twisted`). Its
result is in order exactly if the lists `Agree`.
-/

namespace SP2022

section Swap

variable {α β : Type*}

/-- Exchange the elements `i` and `j`. -/
def swapAt (l : List α) (i j : ℕ) : List α :=
  match l[i]?, l[j]? with
  | some a, some b => (l.set i b).set j a
  | _, _ => l

theorem length_swapAt (l : List α) (i j : ℕ) : (swapAt l i j).length = l.length := by
  unfold swapAt
  split <;> simp

theorem getElem?_swapAt {l : List α} {i j : ℕ} (hi : i < l.length) (hj : j < l.length) (k : ℕ) :
    (swapAt l i j)[k]? = if k = j then l[i]? else if k = i then l[j]? else l[k]? := by
  unfold swapAt
  simp only [List.getElem?_eq_getElem hi, List.getElem?_eq_getElem hj, List.getElem?_set]
  grind

theorem map_swapAt (f : α → β) (l : List α) (i j : ℕ) :
    (swapAt l i j).map f = swapAt (l.map f) i j := by
  unfold swapAt
  simp only [List.getElem?_map]
  cases l[i]? <;> cases l[j]? <;> simp

theorem swapAt_perm (l : List α) (i j : ℕ) : (swapAt l i j).Perm l := by
  unfold swapAt
  split
  · next a b ha hb =>
    obtain ⟨hi, rfl⟩ := List.getElem?_eq_some_iff.1 ha
    obtain ⟨hj, rfl⟩ := List.getElem?_eq_some_iff.1 hb
    exact List.set_set_perm hi hj
  · exact List.Perm.refl l

end Swap

section Merge

variable {α β : Type*} (r : α → α → Prop) [DecidableRel r]

/-- Merge two lists. The first one goes first where `r` strictly prefers it. -/
def mergeBy : List α → List α → List α
  | [], ys => ys
  | x :: xs, [] => x :: xs
  | x :: xs, y :: ys =>
    if r x y then x :: mergeBy xs (y :: ys) else y :: mergeBy (x :: xs) ys
termination_by xs ys => xs.length + ys.length

theorem mergeBy_perm (xs ys : List α) : (mergeBy r xs ys).Perm (xs ++ ys) := by
  fun_induction mergeBy r xs ys with
  | case1 ys => exact List.Perm.refl ys
  | case2 x xs => rw [List.append_nil]
  | case3 x xs y ys hr ih => exact ih.cons x
  | case4 x xs y ys hr ih => exact (ih.cons y).trans List.perm_middle.symm

theorem length_mergeBy (xs ys : List α) : (mergeBy r xs ys).length = xs.length + ys.length := by
  rw [(mergeBy_perm r xs ys).length_eq, List.length_append]

variable {r}

theorem mem_mergeBy {xs ys : List α} {a : α} : a ∈ mergeBy r xs ys ↔ a ∈ xs ∨ a ∈ ys := by
  rw [(mergeBy_perm r xs ys).mem_iff, List.mem_append]

/-- A map that keeps the preference between the two lists commutes with merging. -/
theorem map_mergeBy {s : β → β → Prop} [DecidableRel s] {f : α → β} {xs ys : List α}
    (h : ∀ x ∈ xs, ∀ y ∈ ys, (r x y ↔ s (f x) (f y))) :
    (mergeBy r xs ys).map f = mergeBy s (xs.map f) (ys.map f) := by
  fun_induction mergeBy r xs ys with
  | case1 ys => simp [mergeBy]
  | case2 x xs => simp [mergeBy]
  | case3 x xs y ys hr ih =>
    have hs : s (f x) (f y) := (h x List.mem_cons_self y List.mem_cons_self).1 hr
    simp only [List.map_cons, mergeBy, if_pos hs] at ih ⊢
    rw [ih fun a ha => h a (List.mem_cons_of_mem x ha)]
  | case4 x xs y ys hr ih =>
    have hs : ¬s (f x) (f y) := (h x List.mem_cons_self y List.mem_cons_self).not.1 hr
    simp only [List.map_cons, mergeBy, if_neg hs] at ih ⊢
    rw [ih fun a ha b hb => h a ha b (List.mem_cons_of_mem y hb)]

theorem sublist_mergeBy_left (xs ys : List α) : xs.Sublist (mergeBy r xs ys) := by
  fun_induction mergeBy r xs ys with
  | case1 ys => exact List.nil_sublist ys
  | case2 x xs => exact List.Sublist.refl _
  | case3 x xs y ys hr ih => exact ih.cons_cons x
  | case4 x xs y ys hr ih => exact ih.cons y

theorem sublist_mergeBy_right (xs ys : List α) : ys.Sublist (mergeBy r xs ys) := by
  fun_induction mergeBy r xs ys with
  | case1 ys => exact List.Sublist.refl ys
  | case2 x xs => exact List.nil_sublist _
  | case3 x xs y ys hr ih => exact ih.cons x
  | case4 x xs y ys hr ih => exact ih.cons_cons y

end Merge

/-! ## Two orders -/

section Twist

variable {α : Type*} {le r : α → α → Prop}

/-- A linear order, and a preference that may turn elements around. What is between two
elements that it turns around is itself turned around with the first one. -/
structure Twisted (le r : α → α → Prop) : Prop where
  total : ∀ a b, le a b ∨ le b a
  antisymm : ∀ a b, le a b → le b a → a = b
  trans : ∀ a b c, le a b → le b c → le a c
  asymm : ∀ a b, r a b → ¬r b a
  connected : ∀ a b, a ≠ b → r a b ∨ r b a
  between : ∀ a b c, le a b → le b c → r c a → a ≠ b → r b a

/-- The preference turns nothing around between the lists, but for elements of the second one
that the first one has as well. -/
def Agree (le r : α → α → Prop) (xs ys : List α) : Prop :=
  ∀ a ∈ xs, ∀ b ∈ ys, (le a b → ¬r b a) ∧ (le b a → r a b → b ∈ xs)

theorem Twisted.refl (h : Twisted le r) (a : α) : le a a :=
  (h.total a a).elim id id

theorem Twisted.irrefl (h : Twisted le r) (a : α) : ¬r a a :=
  fun hr => h.asymm a a hr hr

variable [DecidableRel r] {xs ys : List α}

/-- The merge of two lists that agree is in order. -/
theorem Twisted.sorted_of_agree (h : Twisted le r) (hxs : xs.Pairwise le) (hys : ys.Pairwise le)
    (hagree : Agree le r xs ys) : (mergeBy r xs ys).Pairwise le := by
  fun_induction mergeBy r xs ys with
  | case1 ys => exact hys
  | case2 x xs => exact hxs
  | case3 x xs y ys hr ih =>
    obtain ⟨hx, hxs'⟩ := List.pairwise_cons.1 hxs
    have hy := (List.pairwise_cons.1 hys).1
    have hxy : le x y := by
      refine (h.total x y).elim id fun hyx => ?_
      have hmem := (hagree x List.mem_cons_self y List.mem_cons_self).2 hyx hr
      rcases List.mem_cons.1 hmem with rfl | hmem
      · exact hyx
      · exact hx y hmem
    refine List.pairwise_cons.2 ⟨fun a ha => ?_, ih hxs' hys fun a ha b hb => ?_⟩
    · rcases mem_mergeBy.1 ha with ha | ha
      · exact hx a ha
      · rcases List.mem_cons.1 ha with rfl | ha
        · exact hxy
        · exact h.trans x y a hxy (hy a ha)
    · obtain ⟨hle, hback⟩ := hagree a (List.mem_cons_of_mem x ha) b hb
      refine ⟨hle, fun hba hrab => (List.mem_cons.1 (hback hba hrab)).resolve_left ?_⟩
      -- `b` is not the element that was taken
      rintro rfl
      have hyb : le y b := by
        rcases List.mem_cons.1 hb with rfl | hb
        · exact h.refl b
        · exact hy b hb
      exact h.irrefl b (h.antisymm b y hxy hyb ▸ hr)
  | case4 x xs y ys hr ih =>
    obtain ⟨hy, hys'⟩ := List.pairwise_cons.1 hys
    have hx := (List.pairwise_cons.1 hxs).1
    have hyx : le y x := by
      refine (h.total y x).elim id fun hxy => ?_
      have hnot := (hagree x List.mem_cons_self y List.mem_cons_self).1 hxy
      by_cases heq : x = y
      · exact heq ▸ h.refl x
      · exact absurd (h.connected x y heq) (not_or.2 ⟨hr, hnot⟩)
    refine List.pairwise_cons.2 ⟨fun a ha => ?_, ih hxs hys' fun a ha b hb => ?_⟩
    · rcases mem_mergeBy.1 ha with ha | ha
      · rcases List.mem_cons.1 ha with rfl | ha
        · exact hyx
        · exact h.trans y x a hyx (hx a ha)
      · exact hy a ha
    · exact hagree a ha b (List.mem_cons_of_mem y hb)

/-- If the merge of two lists is in order, they agree. -/
theorem Twisted.agree_of_sorted (h : Twisted le r) (hxs : xs.Pairwise le) (hys : ys.Pairwise le)
    (hsorted : (mergeBy r xs ys).Pairwise le) : Agree le r xs ys := by
  fun_induction mergeBy r xs ys with
  | case1 ys => exact fun a ha => absurd ha List.not_mem_nil
  | case2 x xs => exact fun a ha b hb => absurd hb List.not_mem_nil
  | case3 x xs y ys hr ih =>
    obtain ⟨hx, hsorted⟩ := List.pairwise_cons.1 hsorted
    have hih := ih (List.pairwise_cons.1 hxs).2 hys hsorted
    intro a ha b hb
    rcases List.mem_cons.1 ha with rfl | ha
    · have hab : le a b := hx b (mem_mergeBy.2 (Or.inr hb))
      refine ⟨fun _ hrba => ?_, fun hba _ => h.antisymm a b hab hba ▸ List.mem_cons_self⟩
      -- `y` is between `a` and `b`
      have hay : le a y := hx y (mem_mergeBy.2 (Or.inr List.mem_cons_self))
      have hyb : le y b := by
        rcases List.mem_cons.1 hb with rfl | hb
        · exact h.refl b
        · exact (List.pairwise_cons.1 hys).1 b hb
      have hne : a ≠ y := fun heq => h.irrefl y (heq ▸ hr)
      exact h.asymm a y hr (h.between a y b hay hyb hrba hne)
    · obtain ⟨hle, hback⟩ := hih a ha b hb
      exact ⟨hle, fun hba hrab => List.mem_cons_of_mem x (hback hba hrab)⟩
  | case4 x xs y ys hr ih =>
    obtain ⟨hy, hsorted⟩ := List.pairwise_cons.1 hsorted
    have hih := ih hxs (List.pairwise_cons.1 hys).2 hsorted
    intro a ha b hb
    rcases List.mem_cons.1 hb with rfl | hb
    · have hba : le b a := hy a (mem_mergeBy.2 (Or.inl ha))
      refine ⟨fun hab hrba => h.irrefl a (h.antisymm a b hab hba ▸ hrba), fun _ hrab => ?_⟩
      -- `x` is `b`, or between `b` and `a`
      by_cases heq : b = x
      · exact heq ▸ List.mem_cons_self
      · have hbx : le b x := hy x (mem_mergeBy.2 (Or.inl List.mem_cons_self))
        have hxa : le x a := by
          rcases List.mem_cons.1 ha with rfl | ha
          · exact h.refl a
          · exact (List.pairwise_cons.1 hxs).1 a ha
        exact absurd (h.between b x a hbx hxa hrab heq) hr
    · exact hih a ha b hb

/-- Merging two lists that are in order gives a list that is exactly if they agree. -/
theorem Twisted.sorted_iff (h : Twisted le r) (hxs : xs.Pairwise le) (hys : ys.Pairwise le) :
    (mergeBy r xs ys).Pairwise le ↔ Agree le r xs ys :=
  ⟨h.agree_of_sorted hxs hys, h.sorted_of_agree hxs hys⟩

end Twist

end SP2022
