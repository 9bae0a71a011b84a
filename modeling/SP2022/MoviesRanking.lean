import SP2022.Movies

/-!
# Ranking rows

What the server computes, on rows of a title and a score and with no memory : `select` is
the order in which `sort` picks the rows, `withKey` the suffix it adds, and `rank` the
whole ranking, by one `sort` for fewer than `mergeThread` rows and by `rankTree` otherwise.
`Before` is the order that is asked for, and `select` the only way to bring the rows into it
(`eq_select`).
-/

namespace SP2022.Recommendation

/-! ## `strcmp` -/

theorem strcmp_eq_zero : ∀ {s t : Bytes}, strcmp s t = 0 ↔ s = t
  | [], [] => by simp [strcmp]
  | [], _ :: _ => by simp [strcmp]
  | _ :: _, [] => by simp [strcmp]
  | a :: s, b :: t => by
    have ih := @strcmp_eq_zero s t
    unfold strcmp
    split_ifs with hab hba
    · simp [UInt8.ne_of_lt hab]
    · simp [(UInt8.ne_of_lt hba).symm]
    · have heq : a = b := UInt8.le_antisymm (UInt8.not_lt.1 hba) (UInt8.not_lt.1 hab)
      rw [ih, heq, List.cons.injEq, and_iff_right rfl]

theorem strcmp_self (s : Bytes) : strcmp s s = 0 :=
  strcmp_eq_zero.2 rfl

theorem strcmp_swap : ∀ s t : Bytes, strcmp t s = -strcmp s t
  | [], [] => rfl
  | [], _ :: _ => rfl
  | _ :: _, [] => rfl
  | a :: s, b :: t => by
    have ih := strcmp_swap s t
    simp only [strcmp, UInt8.lt_iff_toNat_lt]
    split_ifs <;> omega

theorem strcmp_trans : ∀ {s t u : Bytes}, strcmp s t ≤ 0 → strcmp t u ≤ 0 → strcmp s u ≤ 0
  | [], _, [], _, _ => le_rfl
  | [], _, _ :: _, _, _ => by simp [strcmp]
  | _ :: _, [], _, h, _ => by simp [strcmp] at h
  | _ :: _, _ :: _, [], _, h => by simp [strcmp] at h
  | a :: s, b :: t, c :: u, hst, htu => by
    have ih := @strcmp_trans s t u
    simp only [strcmp, UInt8.lt_iff_toNat_lt] at hst htu ⊢
    split_ifs at hst htu ⊢ <;> omega

/-! ## The order -/

section Rows

variable {S : Type} [Score S]

/-- The test of the merge loop, on rows. -/
def betterRow (a b : Bytes × S) : Prop :=
  b.2 < a.2 ∨ a.2 = b.2 ∧ strcmp a.1 b.1 < 0

instance : DecidableRel (betterRow (S := S)) :=
  fun a b => inferInstanceAs (Decidable (b.2 < a.2 ∨ a.2 = b.2 ∧ strcmp a.1 b.1 < 0))

/-- The order of the output : by score, from the highest, and by title if the scores are
equal. -/
def Before (a b : Bytes × S) : Prop :=
  b.2 < a.2 ∨ a.2 = b.2 ∧ strcmp a.1 b.1 ≤ 0

theorem not_betterRow {a b : Bytes × S} : ¬betterRow b a ↔ Before a b := by
  have hswap := strcmp_swap a.1 b.1
  unfold betterRow Before
  rw [not_or, not_lt, not_and, le_iff_lt_or_eq, hswap]
  constructor
  · rintro ⟨hlt | heq, himp⟩
    · exact Or.inl hlt
    · have := himp heq
      exact Or.inr ⟨heq.symm, by omega⟩
  · rintro (hlt | ⟨heq, hle⟩)
    · exact ⟨Or.inl hlt, fun heq => absurd heq hlt.ne⟩
    · exact ⟨Or.inr heq.symm, fun _ => by omega⟩

theorem Before.refl (a : Bytes × S) : Before a a :=
  Or.inr ⟨rfl, (strcmp_self a.1).le⟩

theorem Before.trans {a b c : Bytes × S} (hab : Before a b) (hbc : Before b c) : Before a c := by
  rcases hab with hab | ⟨hab, hst⟩
  · rcases hbc with hbc | ⟨hbc, -⟩
    · exact Or.inl (hbc.trans hab)
    · exact Or.inl (hbc ▸ hab)
  · rcases hbc with hbc | ⟨hbc, htu⟩
    · exact Or.inl (hab ▸ hbc)
    · exact Or.inr ⟨hab.trans hbc, strcmp_trans hst htu⟩

theorem before_of_betterRow {a b : Bytes × S} (h : betterRow a b) : Before a b :=
  h.imp_right fun h => ⟨h.1, h.2.le⟩

theorem betterRow_asymm (a b : Bytes × S) (h : betterRow a b) : ¬betterRow b a :=
  not_betterRow.2 (before_of_betterRow h)

/-! ## `argmax` -/

/-- The row at an index of the parallel arrays. -/
def rowAt (movie : List Bytes) (src : List S) (i : ℕ) : Bytes × S :=
  (movie.getD i [], src.getD i 0)

/-- `argmax` finds a row that goes before all others of its range. -/
theorem argmax_spec (src : List S) (movie : List Bytes) {start stop : ℕ} (hlt : start < stop)
    (hpos : ∀ j, start ≤ j → j < stop → 0 ≤ src.getD j 0) :
    ∃ idx, argmax src movie start stop = some idx ∧ start ≤ idx ∧ idx < stop ∧
      ∀ j, start ≤ j → j < stop → Before (rowAt movie src idx) (rowAt movie src j) := by
  have hloop : ∀ m, start + (m + 1) ≤ stop → ∃ idx,
      (List.range' start (m + 1)).foldl (argmaxStep src movie) (start, Score.minusOne) =
        (idx, src.getD idx 0) ∧ start ≤ idx ∧ idx < start + (m + 1) ∧
      ∀ j, start ≤ j → j < start + (m + 1) → Before (rowAt movie src idx) (rowAt movie src j) := by
    intro m hm
    induction m with
    | zero =>
      have hfirst : (Score.minusOne : S) < src.getD start 0 :=
        lt_of_lt_of_le Score.minusOne_lt (hpos start le_rfl hlt)
      refine ⟨start, ?_, le_rfl, by omega, fun j hj hj' => ?_⟩
      · simp only [zero_add, List.range'_one, List.foldl_cons, List.foldl_nil, argmaxStep,
          if_pos hfirst]
      · obtain rfl : j = start := by omega
        exact Before.refl _
    | succ m ih =>
      obtain ⟨idx, heq, hlo, hhi, hbefore⟩ := ih (by omega)
      rw [List.range'_concat, List.foldl_append, heq]
      simp only [List.foldl_cons, List.foldl_nil, one_mul]
      -- the new element wins by its score, by its title, or not at all
      have hnew : ∀ i, Before (rowAt movie src i) (rowAt movie src idx) →
          Before (rowAt movie src i) (rowAt movie src (start + (m + 1))) →
          ∀ j, start ≤ j → j < start + (m + 1 + 1) →
            Before (rowAt movie src i) (rowAt movie src j) := by
        intro i hold hlast j hj hj'
        rcases Nat.lt_succ_iff_lt_or_eq.1 (show j < start + (m + 1) + 1 by omega) with hj' | rfl
        · exact hold.trans (hbefore j hj hj')
        · exact hlast
      unfold argmaxStep
      split_ifs with hgt heq' hcmp
      · exact ⟨_, rfl, by omega, by omega, hnew _ (Or.inl hgt) (Before.refl _)⟩
      · have hle : strcmp (movie.getD (start + (m + 1)) []) (movie.getD idx []) ≤ 0 := by
          have hpos : 0 < strcmp (movie.getD idx []) (movie.getD (start + (m + 1)) []) := hcmp
          rw [strcmp_swap (movie.getD idx [])]
          omega
        exact ⟨_, by rw [heq'], by omega, by omega,
          hnew _ (Or.inr ⟨heq', hle⟩) (Before.refl _)⟩
      · exact ⟨idx, rfl, hlo, by omega,
          hnew _ (Before.refl _) (Or.inr ⟨heq'.symm, not_lt.1 hcmp⟩)⟩
      · refine ⟨idx, rfl, hlo, by omega, hnew _ (Before.refl _) (Or.inl ?_)⟩
        exact lt_of_le_of_ne (not_lt.1 hgt) heq'
  obtain ⟨idx, heq, hlo, hhi, hbefore⟩ := hloop (stop - start - 1) (by omega)
  have hlen : stop - start - 1 + 1 = stop - start := by omega
  rw [hlen] at heq
  refine ⟨idx, ?_, hlo, by omega, fun j hj hj' => hbefore j hj (by omega)⟩
  unfold argmax
  simp only [heq]
  exact if_pos (hpos idx hlo (by omega))

/-! ## `sort` -/

/-- The row that `sort` picks for the place `i`. -/
def pick (rows : List (Bytes × S)) (i : ℕ) : ℕ :=
  (argmax (rows.map Prod.snd) (rows.map Prod.fst) i rows.length).getD i

/-- The rows after `m` turns of the loop of `sort`. -/
def selectLoop (rows : List (Bytes × S)) (m : ℕ) : List (Bytes × S) :=
  (List.range m).foldl (fun rows i => swapAt rows i (pick rows i)) rows

/-- The rows in the order in which `sort` leaves them. -/
def select (rows : List (Bytes × S)) : List (Bytes × S) :=
  selectLoop rows (rows.length - 1)

theorem selectLoop_succ (rows : List (Bytes × S)) (m : ℕ) :
    selectLoop rows (m + 1) = swapAt (selectLoop rows m) m (pick (selectLoop rows m) m) := by
  simp [selectLoop, List.range_succ]

theorem selectLoop_perm (rows : List (Bytes × S)) (m : ℕ) : (selectLoop rows m).Perm rows := by
  induction m with
  | zero => exact List.Perm.refl rows
  | succ m ih =>
    rw [selectLoop_succ]
    exact (swapAt_perm _ _ _).trans ih

theorem length_selectLoop (rows : List (Bytes × S)) (m : ℕ) :
    (selectLoop rows m).length = rows.length :=
  (selectLoop_perm rows m).length_eq

/-- No score is negative. -/
def NonNeg (rows : List (Bytes × S)) : Prop :=
  ∀ r ∈ rows, 0 ≤ r.2

theorem NonNeg.perm {rows rows' : List (Bytes × S)} (h : NonNeg rows) (hperm : rows'.Perm rows) :
    NonNeg rows' :=
  fun r hr => h r (hperm.mem_iff.1 hr)

/-- `argmax` on the arrays of rows. -/
theorem pick_spec {rows : List (Bytes × S)} (hpos : NonNeg rows) {i : ℕ} (hi : i < rows.length) :
    argmax (rows.map Prod.snd) (rows.map Prod.fst) i rows.length = some (pick rows i) ∧
      i ≤ pick rows i ∧ pick rows i < rows.length ∧
      ∀ (a b : Bytes × S) (j : ℕ), i ≤ j → rows[pick rows i]? = some a → rows[j]? = some b →
        Before a b := by
  have hget : ∀ {j : ℕ} {a : Bytes × S}, rows[j]? = some a →
      rowAt (rows.map Prod.fst) (rows.map Prod.snd) j = a := by
    intro j a ha
    simp [rowAt, List.getD_eq_getElem?_getD, ha]
  obtain ⟨idx, heq, hlo, hhi, hbefore⟩ := argmax_spec (rows.map Prod.snd) (rows.map Prod.fst) hi
    fun j _ hj => by
      have hmem := hpos _ (List.getElem_mem hj)
      simpa [List.getD_eq_getElem?_getD, List.getElem?_eq_getElem hj] using hmem
  have hpick : pick rows i = idx := by
    rw [pick, heq, Option.getD_some]
  rw [hpick]
  refine ⟨heq, hlo, hhi, fun a b j hj ha hb => ?_⟩
  have hjlt := (List.getElem?_eq_some_iff.1 hb).1
  have := hbefore j hj hjlt
  rwa [hget ha, hget hb] at this

/-- After `m` turns the first `m` rows are in place. -/
theorem selectLoop_before {rows : List (Bytes × S)} (hpos : NonNeg rows) {m : ℕ}
    (hm : m ≤ rows.length) : ∀ (a b : Bytes × S) (i j : ℕ), i < m → i ≤ j →
      (selectLoop rows m)[i]? = some a → (selectLoop rows m)[j]? = some b → Before a b := by
  induction m with
  | zero => exact fun a b i j hi => absurd hi (Nat.not_lt_zero i)
  | succ m ih =>
    have hlen := length_selectLoop rows m
    have hm' : m < (selectLoop rows m).length := by omega
    obtain ⟨-, hlo, hhi, hbest⟩ := pick_spec (hpos.perm (selectLoop_perm rows m)) hm'
    intro a b i j hi hij ha hb
    rw [selectLoop_succ, getElem?_swapAt hm' hhi] at ha hb
    have hih := ih (by omega)
    rcases Nat.lt_succ_iff_lt_or_eq.1 hi with hi | rfl
    · -- a row that was in place, before one of the rows from `m` on
      rw [if_neg (by omega), if_neg (by omega)] at ha
      split_ifs at hb with h1 h2
      · exact hih a b i m hi hi.le ha hb
      · exact hih a b i _ hi (by omega) ha hb
      · exact hih a b i j hi hij ha hb
    · have ha' : (selectLoop rows i)[pick (selectLoop rows i) i]? = some a := by
        rw [if_pos (rfl : i = i)] at ha
        split_ifs at ha with h1
        · rwa [← h1]
        · exact ha
      split_ifs at hb with h1 h2
      · exact hbest a b i le_rfl ha' hb
      · exact hbest a b _ hlo ha' hb
      · exact hbest a b j hij ha' hb

theorem select_perm (rows : List (Bytes × S)) : (select rows).Perm rows :=
  selectLoop_perm rows _

theorem select_pairwise {rows : List (Bytes × S)} (hpos : NonNeg rows) :
    (select rows).Pairwise Before := by
  rw [List.pairwise_iff_getElem]
  intro i j hi hj hij
  have hlen : (select rows).length = rows.length := (select_perm rows).length_eq
  exact selectLoop_before hpos (Nat.sub_le _ _) _ _ i j (by omega) hij.le
    (List.getElem?_eq_getElem hi) (List.getElem?_eq_getElem hj)

theorem Before.antisymm {a b : Bytes × S} (hab : Before a b) (hba : Before b a) : a = b := by
  rcases hab with hab | ⟨heq, hst⟩
  · rcases hba with hba | ⟨heq, -⟩
    · exact absurd hab hba.asymm
    · exact absurd heq hab.ne
  · rcases hba with hba | ⟨-, hts⟩
    · exact absurd heq hba.ne
    · rw [strcmp_swap a.1 b.1] at hts
      exact Prod.ext (strcmp_eq_zero.1 (by omega)) heq

/-- There is one way to put the rows in order. -/
theorem eq_select {rows out : List (Bytes × S)} (hpos : NonNeg rows) (hperm : out.Perm rows)
    (hsorted : out.Pairwise Before) : out = select rows :=
  List.Perm.eq_of_pairwise (fun _ _ _ _ => Before.antisymm) hsorted (select_pairwise hpos)
    (hperm.trans (select_perm rows).symm)

/-! ## The whole ranking -/

/-- A row with the suffix. -/
def withKey (r : Bytes × S) : Bytes × S :=
  (r.1 ++ key, r.2)

/-- `mergeSort`, with `levels` levels below. -/
def rankTree : ℕ → List (Bytes × S) → List (Bytes × S)
  | 0, rows =>
    mergeBy betterRow ((select (rows.take (rows.length / 2))).map withKey)
      ((select (rows.drop (rows.length / 2))).map withKey)
  | levels + 1, rows =>
    mergeBy betterRow (rankTree levels (rows.take (rows.length / 2)))
      (rankTree levels (rows.drop (rows.length / 2)))

/-- The recursion keeps the rows, each with the suffix. -/
theorem rankTree_perm : ∀ (levels : ℕ) (rows : List (Bytes × S)),
    (rankTree levels rows).Perm (rows.map withKey)
  | 0, rows => by
    refine (mergeBy_perm _ _ _).trans ((((select_perm _).map withKey).append
      ((select_perm _).map withKey)).trans ?_)
    rw [← List.map_append, List.take_append_drop]
  | levels + 1, rows => by
    refine (mergeBy_perm _ _ _).trans (((rankTree_perm levels _).append
      (rankTree_perm levels _)).trans ?_)
    rw [← List.map_append, List.take_append_drop]

theorem length_rankTree (levels : ℕ) (rows : List (Bytes × S)) :
    (rankTree levels rows).length = rows.length := by
  rw [(rankTree_perm levels rows).length_eq, List.length_map]

/-- The output for these rows. -/
def rank (rows : List (Bytes × S)) : List (Bytes × S) :=
  if rows.length < mergeThread then (select rows).map withKey else rankTree (depth - 1) rows

theorem NonNeg.take {rows : List (Bytes × S)} (h : NonNeg rows) (n : ℕ) : NonNeg (rows.take n) :=
  fun r hr => h r (List.mem_of_mem_take hr)

theorem NonNeg.drop {rows : List (Bytes × S)} (h : NonNeg rows) (n : ℕ) : NonNeg (rows.drop n) :=
  fun r hr => h r (List.mem_of_mem_drop hr)

end Rows

end SP2022.Recommendation
