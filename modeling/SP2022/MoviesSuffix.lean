import SP2022.MoviesRanking

/-!
# The suffix and the order

The leaves of the recursion order plain titles, and the merges titles that carry the suffix.
The two orders differ on titles with equal scores if one continues the other by bytes that,
with the suffix, are before the suffix alone (`Overtakes`). As the suffix starts with `TAB`
and has no other byte up to it, what is between two such titles overtakes the first one as
well (`strcmp_between`), which makes the two orders `Twisted`. So a merge is in order
exactly if its halves have no overtaking row but one that the first half has as well, and
the whole recursion exactly if this is so at every level (`mergeTree_sorted_iff`). Titles
without bytes up to `TAB` never overtake each other (`rank_spec`).
-/

namespace SP2022.Recommendation

/-! ## `strcmp` with the suffix -/

/-- If the suffix puts `t` before a string of bytes greater than `TAB`, it puts a smaller
string there too. -/
theorem strcmp_lt_tail : ∀ {s t u : Bytes}, (∀ c ∈ u, 9 < c) → strcmp s t ≤ 0 →
    strcmp (t ++ key) u < 0 → strcmp (s ++ key) u < 0
  | s, t, [], _, _, htu => by
    have hne : t ++ key ≠ [] := by simp [key]
    obtain ⟨c, v, hcv⟩ := List.exists_cons_of_ne_nil hne
    simp [hcv, strcmp] at htu
  | [], _, e :: u, hu, _, _ => by
    have he : (9 : UInt8) < e := hu e List.mem_cons_self
    simp [key, strcmp, he]
  | c :: s, [], _, _, hst, _ => by simp [strcmp] at hst
  | c :: s, d :: t, e :: u, hu, hst, htu => by
    have ih := @strcmp_lt_tail s t u fun b hb => hu b (List.mem_cons_of_mem e hb)
    simp only [List.cons_append, strcmp, UInt8.lt_iff_toNat_lt] at hst htu ⊢
    split_ifs at hst htu ⊢ <;> omega

/-- What is between two titles that the suffix turns around is turned around with the first
one. -/
theorem strcmp_between : ∀ {s t u : Bytes}, strcmp s t < 0 → strcmp t u ≤ 0 →
    strcmp (u ++ key) (s ++ key) < 0 → strcmp (t ++ key) (s ++ key) < 0
  | [], [], _, hst, _, _ => by simp [strcmp] at hst
  | [], c :: t, [], _, htu, _ => by simp [strcmp] at htu
  | [], c :: t, d :: u, _, htu, hus => by
    have hhead : ∀ c v, strcmp (c :: v) key =
        if c < 9 then -1 else if 9 < c then 1 else strcmp v key.tail := fun _ _ => rfl
    have hlt := @strcmp_lt_tail t u key.tail (by decide +kernel)
    rw [List.nil_append, List.cons_append, hhead] at hus ⊢
    simp only [strcmp, UInt8.lt_iff_toNat_lt] at htu hus ⊢
    split_ifs at htu hus ⊢ <;> omega
  | a :: s, [], _, hst, _, _ => by simp [strcmp] at hst
  | a :: s, b :: t, [], _, htu, _ => by simp [strcmp] at htu
  | a :: s, b :: t, c :: u, hst, htu, hus => by
    have ih := @strcmp_between s t u
    simp only [List.cons_append, strcmp, UInt8.lt_iff_toNat_lt] at hst htu hus ⊢
    split_ifs at hst htu hus ⊢ <;> omega

/-- The suffix turns two titles around exactly if one continues the other by bytes that, with
the suffix, are before the suffix. -/
theorem strcmp_turned_iff : ∀ {s t : Bytes}, strcmp s t ≤ 0 ∧ strcmp (t ++ key) (s ++ key) < 0 ↔
    ∃ u, t = s ++ u ∧ strcmp (u ++ key) key < 0
  | [], t => by
    cases t <;> simp [strcmp]
  | a :: s, [] => by
    simp [strcmp]
  | a :: s, b :: t => by
    have ih := @strcmp_turned_iff s t
    by_cases hab : a = b
    · subst hab
      simpa [strcmp] using ih
    · have hne : ∀ u, b :: t ≠ (a :: s) ++ u := fun u h => hab (List.cons.inj h).1.symm
      simp only [hne, false_and, exists_false, iff_false]
      rw [UInt8.ext_iff] at hab
      simp only [List.cons_append, strcmp, UInt8.lt_iff_toNat_lt]
      split_ifs <;> omega

/-! ## Two orders of rows -/

section Rows

variable {S : Type} [Score S]

/-- The test of the merge loop, on rows to which the suffix is still to be added. -/
def betterKey (a b : Bytes × S) : Prop :=
  betterRow (withKey a) (withKey b)

instance : DecidableRel (betterKey (S := S)) :=
  fun a b => inferInstanceAs (Decidable (betterRow (withKey a) (withKey b)))

/-- The scores are equal, and the title of `a` continues that of `b` by bytes that, with the
suffix, are before the suffix. -/
def Overtakes (a b : Bytes × S) : Prop :=
  a.2 = b.2 ∧ ∃ u, a.1 = b.1 ++ u ∧ strcmp (u ++ key) key < 0

/-- A row overtakes another one if it is behind it without the suffix and before it with
the suffix. -/
theorem overtakes_iff {a b : Bytes × S} : Overtakes b a ↔ Before a b ∧ betterKey b a := by
  unfold Overtakes Before betterKey betterRow withKey
  rw [← strcmp_turned_iff]
  constructor
  · rintro ⟨heq, hle, hlt⟩
    exact ⟨Or.inr ⟨heq.symm, hle⟩, Or.inr ⟨heq, hlt⟩⟩
  · rintro ⟨hgt | ⟨heq, hle⟩, hgt' | ⟨heq', hlt⟩⟩
    · exact absurd hgt hgt'.asymm
    · exact absurd heq' hgt.ne
    · exact absurd heq hgt'.ne
    · exact ⟨heq', hle, hlt⟩

omit [Score S] in
theorem withKey_injective : Function.Injective (withKey (S := S)) := by
  intro a b h
  obtain ⟨htitle, hscore⟩ := Prod.mk.inj h
  exact Prod.ext (List.append_cancel_right htitle) hscore

theorem Before.total (a b : Bytes × S) : Before a b ∨ Before b a := by
  by_cases h : betterRow b a
  · exact Or.inr (before_of_betterRow h)
  · exact Or.inl (not_betterRow.1 h)

theorem twisted : Twisted (Before (S := S)) betterKey where
  total := Before.total
  antisymm _ _ := Before.antisymm
  trans _ _ _ := Before.trans
  asymm a b := betterRow_asymm (withKey a) (withKey b)
  connected a b hne := by
    by_contra hnot
    obtain ⟨hab, hba⟩ := not_or.1 hnot
    exact hne (withKey_injective
      (Before.antisymm (not_betterRow.1 hba) (not_betterRow.1 hab)))
  between a b c hab hbc hca hne := by
    -- all three scores are equal, and the titles are in order
    have hac := overtakes_iff.2 ⟨hab.trans hbc, hca⟩
    rcases hab with hgt | ⟨heq, hst⟩
    · rcases hbc with hgt' | ⟨heq', -⟩
      · exact absurd hac.1 (hgt'.trans hgt).ne
      · exact absurd hac.1 (heq' ▸ hgt).ne
    · rcases hbc with hgt' | ⟨-, htu⟩
      · exact absurd hac.1 (heq ▸ hgt').ne
      · have hlt := (strcmp_turned_iff.2 hac.2).2
        have hne' : strcmp a.1 b.1 ≠ 0 := fun h0 => hne (Prod.ext (strcmp_eq_zero.1 h0) heq)
        exact Or.inr ⟨heq.symm, strcmp_between (by omega) htu hlt⟩

/-! ## The recursion -/

/-- `mergeSort` with `levels` levels below, on rows to which the suffix is still to be added. -/
def mergeTree : ℕ → List (Bytes × S) → List (Bytes × S)
  | 0, rows =>
    mergeBy betterKey (select (rows.take (rows.length / 2))) (select (rows.drop (rows.length / 2)))
  | levels + 1, rows =>
    mergeBy betterKey (mergeTree levels (rows.take (rows.length / 2)))
      (mergeTree levels (rows.drop (rows.length / 2)))

theorem mergeBy_withKey (xs ys : List (Bytes × S)) :
    mergeBy betterRow (xs.map withKey) (ys.map withKey) = (mergeBy betterKey xs ys).map withKey :=
  (map_mergeBy (r := betterKey) (s := betterRow) (f := withKey) fun _ _ _ _ => Iff.rfl).symm

/-- Adding the suffix first is adding it last. -/
theorem rankTree_eq_mergeTree : ∀ (levels : ℕ) (rows : List (Bytes × S)),
    rankTree levels rows = (mergeTree levels rows).map withKey
  | 0, _ => mergeBy_withKey _ _
  | levels + 1, rows => by
    rw [rankTree, rankTree_eq_mergeTree levels, rankTree_eq_mergeTree levels, mergeTree,
      mergeBy_withKey]

theorem mergeTree_perm (levels : ℕ) (rows : List (Bytes × S)) :
    (mergeTree levels rows).Perm rows := by
  have hperm := rankTree_perm levels rows
  rw [rankTree_eq_mergeTree] at hperm
  exact (List.map_perm_map_iff withKey_injective).1 hperm

/-- No row of the second half overtakes one of the first half, and a row of the first half
overtakes a row of the second half only if the first half has that row as well. -/
def HalvesAligned (rows : List (Bytes × S)) : Prop :=
  ∀ a ∈ rows.take (rows.length / 2), ∀ b ∈ rows.drop (rows.length / 2),
    ¬Overtakes b a ∧ (Overtakes a b → b ∈ rows.take (rows.length / 2))

/-- The halves are aligned at every level of `mergeSort`. -/
def Aligned : ℕ → List (Bytes × S) → Prop
  | 0, rows => HalvesAligned rows
  | levels + 1, rows =>
    Aligned levels (rows.take (rows.length / 2)) ∧
      Aligned levels (rows.drop (rows.length / 2)) ∧ HalvesAligned rows

/-- The merge of two halves that are in order is in order exactly if they are aligned. -/
theorem sorted_merge_iff {rows xs ys : List (Bytes × S)}
    (hxs : xs.Perm (rows.take (rows.length / 2))) (hys : ys.Perm (rows.drop (rows.length / 2)))
    (hsx : xs.Pairwise Before) (hsy : ys.Pairwise Before) :
    (mergeBy betterKey xs ys).Pairwise Before ↔ HalvesAligned rows := by
  rw [twisted.sorted_iff hsx hsy]
  unfold Agree HalvesAligned
  simp only [hxs.mem_iff, hys.mem_iff, overtakes_iff, not_and, and_imp]

/-- `mergeSort` puts the rows in order exactly if the halves are aligned at every level. -/
theorem mergeTree_sorted_iff : ∀ (levels : ℕ) {rows : List (Bytes × S)}, NonNeg rows →
    ((mergeTree levels rows).Pairwise Before ↔ Aligned levels rows)
  | 0, rows, hpos =>
    sorted_merge_iff (select_perm _) (select_perm _) (select_pairwise (hpos.take _))
      (select_pairwise (hpos.drop _))
  | levels + 1, rows, hpos => by
    have hl := mergeTree_sorted_iff levels (hpos.take (rows.length / 2))
    have hr := mergeTree_sorted_iff levels (hpos.drop (rows.length / 2))
    have hmerge := @sorted_merge_iff S _ rows _ _ (mergeTree_perm levels _)
      (mergeTree_perm levels _)
    rw [Aligned, mergeTree]
    constructor
    · intro hsorted
      have hsl := hsorted.sublist (sublist_mergeBy_left _ _)
      have hsr := hsorted.sublist (sublist_mergeBy_right _ _)
      exact ⟨hl.1 hsl, hr.1 hsr, (hmerge hsl hsr).1 hsorted⟩
    · rintro ⟨hal, har, hhalves⟩
      exact (hmerge (hl.2 hal) (hr.2 har)).2 hhalves

/-- `mergeSort` gives what one `sort` gives exactly if the halves are aligned at every
level. -/
theorem rankTree_eq_select_iff (levels : ℕ) {rows : List (Bytes × S)} (hpos : NonNeg rows) :
    rankTree levels rows = (select rows).map withKey ↔ Aligned levels rows := by
  rw [rankTree_eq_mergeTree, (List.map_injective_iff.2 withKey_injective).eq_iff,
    ← mergeTree_sorted_iff levels hpos]
  constructor
  · intro heq
    rw [heq]
    exact select_pairwise hpos
  · exact eq_select hpos (mergeTree_perm levels rows)

/-! ## Titles without bytes up to `TAB` -/

/-- The titles have only bytes greater than `TAB`. -/
def Printable (rows : List (Bytes × S)) : Prop :=
  ∀ r ∈ rows, ∀ c ∈ r.1, 9 < c

omit [Score S] in
/-- No title without such bytes overtakes another one. -/
theorem not_overtakes {a b : Bytes × S} (h : ∀ c ∈ a.1, 9 < c) : ¬Overtakes a b := by
  rintro ⟨-, u, heq, hlt⟩
  cases u with
  | nil => simp [strcmp_self] at hlt
  | cons c u =>
    have hc : (9 : UInt8) < c := h c (by simp [heq])
    have hnc : ¬c < 9 := by
      rw [UInt8.lt_iff_toNat_lt] at hc ⊢
      omega
    simp [key, strcmp, hc, hnc] at hlt

omit [Score S] in
theorem aligned_of_printable : ∀ (levels : ℕ) {rows : List (Bytes × S)}, Printable rows →
    Aligned levels rows
  | 0, _, h => fun a ha b hb =>
    ⟨not_overtakes (h b (List.mem_of_mem_drop hb)),
      fun hover => absurd hover (not_overtakes (h a (List.mem_of_mem_take ha)))⟩
  | levels + 1, _, h =>
    ⟨aligned_of_printable levels fun r hr => h r (List.mem_of_mem_take hr),
      aligned_of_printable levels fun r hr => h r (List.mem_of_mem_drop hr),
      aligned_of_printable 0 h⟩

/-- Both paths rank the rows. -/
theorem rank_spec {rows : List (Bytes × S)} (hpos : NonNeg rows) (hprint : Printable rows) :
    rank rows = (select rows).map withKey := by
  unfold rank
  split_ifs
  · rfl
  · exact (rankTree_eq_select_iff _ hpos).2 (aligned_of_printable _ hprint)

end Rows

end SP2022.Recommendation
