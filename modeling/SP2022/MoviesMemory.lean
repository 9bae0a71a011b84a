import SP2022.MoviesRanking

/-!
# Rows in memory

`Holds mem movies pts rows` says that two parallel arrays hold these rows. `sort` takes the
rows to their order with the suffix, and leaves every string that was there (`sort_spec`) :
each turn of its loop does on the arrays what `selectLoop` does on the rows, with the
suffix on the rows it is done with (`partly`). The merge loops merge the rows
(`Holds.mergeLoops`).
-/

namespace SP2022.Recommendation

/-! ## Strings that stay -/

/-- The pointer points to a string. -/
def Mem.Valid (mem : Mem) : Ptr → Prop
  | .slot n => n < mem.slots.length
  | .heap n => n < mem.heap.length

/-- All strings stay, and the heap may have new ones. -/
def Mem.Ext (mem mem' : Mem) : Prop :=
  mem'.slots = mem.slots ∧ mem.heap <+: mem'.heap

/-- The pointer is to a string that `malloc` has returned since. -/
def Mem.Fresh (mem : Mem) : Ptr → Prop
  | .slot _ => False
  | .heap n => mem.heap.length ≤ n

theorem Mem.Ext.refl (mem : Mem) : mem.Ext mem :=
  ⟨rfl, List.prefix_refl _⟩

theorem Mem.Ext.trans {mem mem' mem'' : Mem} (h : mem.Ext mem') (h' : mem'.Ext mem'') :
    mem.Ext mem'' :=
  ⟨h'.1.trans h.1, h.2.trans h'.2⟩

theorem Mem.Ext.valid {mem mem' : Mem} (h : mem.Ext mem') {p : Ptr} (hp : mem.Valid p) :
    mem'.Valid p := by
  cases p with
  | slot n =>
    show n < mem'.slots.length
    rw [h.1]
    exact hp
  | heap n => exact lt_of_lt_of_le hp h.2.length_le

theorem Mem.Ext.str {mem mem' : Mem} (h : mem.Ext mem') {p : Ptr} (hp : mem.Valid p) :
    mem'.str p = mem.str p := by
  cases p with
  | slot n => simp only [Mem.str, h.1]
  | heap n =>
    obtain ⟨rest, hrest⟩ := h.2
    have hn : n < mem.heap.length := hp
    simp only [Mem.str, ← hrest, List.getD_eq_getElem?_getD, List.getElem?_append_left hn]

theorem Mem.Fresh.mono {mem mem' : Mem} (h : mem.Ext mem') {p : Ptr} (hp : mem'.Fresh p) :
    mem.Fresh p := by
  cases p with
  | slot n => exact hp
  | heap n => exact h.2.length_le.trans hp

theorem Mem.ext_malloc (mem : Mem) (s : Bytes) : mem.Ext (mem.malloc s).1 :=
  ⟨rfl, List.prefix_append _ _⟩

theorem Mem.malloc_spec (mem : Mem) (s : Bytes) : (mem.malloc s).1.Valid (mem.malloc s).2 ∧
    mem.Fresh (mem.malloc s).2 ∧ (mem.malloc s).1.str (mem.malloc s).2 = s := by
  refine ⟨?_, le_rfl, ?_⟩
  · show mem.heap.length < (mem.heap ++ [s]).length
    simp
  · show (mem.heap ++ [s]).getD mem.heap.length [] = s
    simp

section Rows

variable {S : Type}

/-- The arrays hold the rows. -/
structure Holds (mem : Mem) (movies : List Ptr) (pts : List S) (rows : List (Bytes × S)) :
    Prop where
  valid : ∀ p ∈ movies, mem.Valid p
  strs : movies.map mem.str = rows.map Prod.fst
  pts : pts = rows.map Prod.snd

namespace Holds

variable {mem mem' : Mem} {movies movies' : List Ptr} {pts pts' : List S}
  {rows rows' : List (Bytes × S)}

theorem length (h : Holds mem movies pts rows) : movies.length = rows.length := by
  simpa using congrArg List.length h.strs

theorem take (h : Holds mem movies pts rows) (n : ℕ) :
    Holds mem (movies.take n) (pts.take n) (rows.take n) := by
  refine ⟨fun p hp => h.valid p (List.mem_of_mem_take hp), ?_, ?_⟩
  · rw [List.map_take, List.map_take, h.strs]
  · rw [h.pts, List.map_take]

theorem drop (h : Holds mem movies pts rows) (n : ℕ) :
    Holds mem (movies.drop n) (pts.drop n) (rows.drop n) := by
  refine ⟨fun p hp => h.valid p (List.mem_of_mem_drop hp), ?_, ?_⟩
  · rw [List.map_drop, List.map_drop, h.strs]
  · rw [h.pts, List.map_drop]

theorem append (h : Holds mem movies pts rows) (h' : Holds mem movies' pts' rows') :
    Holds mem (movies ++ movies') (pts ++ pts') (rows ++ rows') := by
  refine ⟨fun p hp => (List.mem_append.1 hp).elim (h.valid p) (h'.valid p), ?_, ?_⟩
  · rw [List.map_append, List.map_append, h.strs, h'.strs]
  · rw [h.pts, h'.pts, List.map_append]

/-- The rows stay if the strings do. -/
theorem congr (h : Holds mem movies pts rows) (hvalid : ∀ p ∈ movies, mem'.Valid p)
    (hstr : ∀ p ∈ movies, mem'.str p = mem.str p) : Holds mem' movies pts rows :=
  ⟨hvalid, (List.map_congr_left hstr).trans h.strs, h.pts⟩

theorem ext (h : Holds mem movies pts rows) (hext : mem.Ext mem') : Holds mem' movies pts rows :=
  h.congr (fun p hp => hext.valid (h.valid p hp)) fun p hp => hext.str (h.valid p hp)

end Holds

/-! ## `sort` -/

/-- The titles during `sort`, which is done with the first `m`. -/
def partly (m : ℕ) (rows : List (Bytes × S)) : List Bytes :=
  rows.mapIdx fun i r => if i < m then r.1 ++ key else r.1

theorem getElem?_partly (m : ℕ) (rows : List (Bytes × S)) (i : ℕ) :
    (partly m rows)[i]? = rows[i]?.map fun r => if i < m then r.1 ++ key else r.1 :=
  List.getElem?_mapIdx

theorem partly_zero (rows : List (Bytes × S)) : partly 0 rows = rows.map Prod.fst := by
  refine List.ext_getElem? fun i => ?_
  rw [getElem?_partly, List.getElem?_map]
  rfl

theorem partly_length (rows : List (Bytes × S)) :
    partly rows.length rows = rows.map fun r => r.1 ++ key := by
  refine List.ext_getElem? fun i => ?_
  rw [getElem?_partly, List.getElem?_map]
  by_cases hi : i < rows.length
  · simp [hi]
  · simp [List.getElem?_eq_none (not_lt.1 hi)]

/-- An exchange behind the first `m` rows. -/
theorem swapAt_partly {m j : ℕ} {rows : List (Bytes × S)} (hm : m < rows.length) (hmj : m ≤ j)
    (hj : j < rows.length) : swapAt (partly m rows) m j = partly m (swapAt rows m j) := by
  have hlen : (partly m rows).length = rows.length := List.length_mapIdx
  refine List.ext_getElem? fun i => ?_
  rw [getElem?_partly, getElem?_swapAt (hlen.symm ▸ hm) (hlen.symm ▸ hj), getElem?_swapAt hm hj,
    getElem?_partly, getElem?_partly, getElem?_partly]
  have hnj : ¬j < m := hmj.not_gt
  by_cases h1 : i = j
  · simp [h1, hnj]
  by_cases h2 : i = m
  · subst h2
    simp [h1, hnj]
  · rw [if_neg h1, if_neg h2, if_neg h1, if_neg h2]

/-- The suffix is added to the next row. -/
theorem set_partly {m : ℕ} {rows : List (Bytes × S)} {r : Bytes × S} (hr : rows[m]? = some r) :
    (partly m rows).set m (r.1 ++ key) = partly (m + 1) rows := by
  have hm : m < (partly m rows).length := by
    rw [show (partly m rows).length = rows.length from List.length_mapIdx]
    exact (List.getElem?_eq_some_iff.1 hr).1
  refine List.ext_getElem? fun i => ?_
  rw [List.getElem?_set, getElem?_partly, getElem?_partly]
  by_cases hi : m = i
  · subst hi
    simp [hm, hr]
  · have hiff : i < m + 1 ↔ i < m := by omega
    simp [hi, hiff]

/-- What the arrays hold after `m` turns of the loop of `sort`, which began in `mem₀`. -/
structure Sorting (mem₀ : Mem) (rows : List (Bytes × S)) (m : ℕ) (mem : Mem) (movies : List Ptr)
    (pts : List S) : Prop where
  ext : mem₀.Ext mem
  valid : ∀ p ∈ movies, mem.Valid p
  fresh : ∀ i < m, ∀ p, movies[i]? = some p → mem₀.Fresh p
  strs : movies.map mem.str = partly m rows
  pts : pts = rows.map Prod.snd

/-- The titles fit into `MAX_LEN` bytes. -/
def Short (rows : List (Bytes × S)) : Prop :=
  ∀ r ∈ rows, r.1.length < MAX_LEN

variable {mem₀ mem : Mem} {rows : List (Bytes × S)} {m : ℕ} {movies : List Ptr} {pts : List S}

theorem Sorting.length (h : Sorting mem₀ rows m mem movies pts) : movies.length = rows.length := by
  have := congrArg List.length h.strs
  rwa [List.length_map, show (partly m rows).length = rows.length from List.length_mapIdx] at this

/-- `add_secret` for the next row. -/
theorem Sorting.secretAt (h : Sorting mem₀ rows m mem movies pts) (hshort : Short rows)
    (hm : m < rows.length) : ∃ mem' movies', secretAt mem movies m = some (mem', movies') ∧
      Sorting mem₀ rows (m + 1) mem' movies' pts := by
  have hm' : m < movies.length := h.length.symm ▸ hm
  have hr : rows[m]? = some rows[m] := List.getElem?_eq_getElem hm
  have hstr : mem.str movies[m] = rows[m].1 := by
    have hget : (movies.map mem.str)[m]? = (partly m rows)[m]? := by rw [h.strs]
    rw [List.getElem?_map, List.getElem?_eq_getElem hm', getElem?_partly, hr] at hget
    simpa using hget
  have hlen : (mem.str movies[m]).length < MAX_LEN :=
    hstr ▸ hshort _ (List.getElem_mem hm)
  obtain ⟨hvalid, hfresh, hnew⟩ := mem.malloc_spec (mem.str movies[m] ++ key)
  have hext := mem.ext_malloc (mem.str movies[m] ++ key)
  refine ⟨(mem.malloc (mem.str movies[m] ++ key)).1,
    movies.set m (mem.malloc (mem.str movies[m] ++ key)).2, ?_,
    h.ext.trans hext, fun p hp => ?_, fun i hi p hp => ?_, ?_, h.pts⟩
  · simp [Recommendation.secretAt, add_secret, List.getElem?_eq_getElem hm', hlen]
  · rcases List.mem_or_eq_of_mem_set hp with hp | rfl
    · exact hext.valid (h.valid p hp)
    · exact hvalid
  · rw [List.getElem?_set] at hp
    split_ifs at hp with h1
    · obtain rfl := Option.some.inj hp
      exact hfresh.mono h.ext
    · exact h.fresh i (by omega) p hp
  · have hold : movies.map (mem.malloc (mem.str movies[m] ++ key)).1.str = movies.map mem.str :=
      List.map_congr_left fun p hp => hext.str (h.valid p hp)
    rw [List.map_set, hold, h.strs, hnew, hstr, set_partly hr]

variable [Score S]

/-- `argmax` looks at the titles of its range only. -/
theorem argmax_congr {src : List S} {movie movie' : List Bytes} {start stop : ℕ}
    (hlt : start < stop)
    (h : ∀ i, start ≤ i → i < stop → movie.getD i [] = movie'.getD i []) :
    argmax src movie start stop = argmax src movie' start stop := by
  have hloop : ∀ m, start + m ≤ stop →
      (List.range' start m).foldl (argmaxStep src movie) (start, Score.minusOne) =
        (List.range' start m).foldl (argmaxStep src movie') (start, Score.minusOne) ∧
      start ≤ ((List.range' start m).foldl (argmaxStep src movie) (start, Score.minusOne)).1 ∧
      ((List.range' start m).foldl (argmaxStep src movie) (start, Score.minusOne)).1 < stop := by
    intro m hm
    induction m with
    | zero => exact ⟨rfl, le_rfl, hlt⟩
    | succ m ih =>
      obtain ⟨heq, hlo, hhi⟩ := ih (by omega)
      rw [List.range'_concat, List.foldl_append, List.foldl_append, ← heq]
      simp only [List.foldl_cons, List.foldl_nil, one_mul]
      generalize (List.range' start m).foldl (argmaxStep src movie) (start, Score.minusOne) = best
        at hlo hhi ⊢
      unfold argmaxStep
      rw [h best.1 hlo hhi, h (start + m) (by omega) (by omega)]
      refine ⟨rfl, ?_⟩
      split_ifs
      · exact ⟨by simp, by simp; omega⟩
      · exact ⟨by simp, by simp; omega⟩
      · exact ⟨hlo, hhi⟩
      · exact ⟨hlo, hhi⟩
  unfold argmax
  rw [(hloop (stop - start) (by omega)).1]

/-- One turn of the loop of `sort`. -/
theorem Sorting.step (h : Sorting mem₀ rows m mem movies pts) (hshort : Short rows)
    (hpos : NonNeg rows) (hm : m < rows.length) : ∃ mem' movies' pts',
      sortStep (mem, movies, pts) m = some (mem', movies', pts') ∧
        Sorting mem₀ (swapAt rows m (pick rows m)) (m + 1) mem' movies' pts' := by
  obtain ⟨hmax, hlo, hhi, -⟩ := pick_spec hpos hm
  have hargmax : argmax pts (movies.map mem.str) m movies.length = some (pick rows m) := by
    rw [h.length, h.pts, ← hmax, h.strs]
    refine argmax_congr hm fun i hi _ => ?_
    rw [List.getD_eq_getElem?_getD, List.getD_eq_getElem?_getD, getElem?_partly,
      List.getElem?_map]
    simp only [hi.not_gt, if_false]
  have hlen : (swapAt rows m (pick rows m)).length = rows.length := length_swapAt _ _ _
  have hm' : m < movies.length := h.length.symm ▸ hm
  have hhi' : pick rows m < movies.length := h.length.symm ▸ hhi
  have hswapped : Sorting mem₀ (swapAt rows m (pick rows m)) m mem
      (swapAt movies m (pick rows m)) (swapAt pts m (pick rows m)) := by
    refine ⟨h.ext, fun p hp => ?_, fun i hi p hp => ?_, ?_, ?_⟩
    · exact h.valid p ((swapAt_perm movies m _).mem_iff.1 hp)
    · rw [getElem?_swapAt hm' hhi', if_neg (by omega), if_neg (by omega)] at hp
      exact h.fresh i hi p hp
    · rw [map_swapAt, h.strs, swapAt_partly hm hlo hhi]
    · rw [h.pts, map_swapAt]
  obtain ⟨mem', movies', hsecret, hnext⟩ := hswapped.secretAt
    (fun r hr => hshort r ((swapAt_perm rows m _).mem_iff.1 hr)) (hlen.symm ▸ hm)
  refine ⟨mem', movies', _, ?_, hnext⟩
  simp [sortStep, hargmax, hhi', hsecret]

/-- The loop of `sort`. -/
theorem Sorting.loop (h : Sorting mem₀ rows 0 mem movies pts) (hshort : Short rows)
    (hpos : NonNeg rows) : ∀ m, m ≤ rows.length → ∃ mem' movies' pts',
      (List.range m).foldlM sortStep (mem, movies, pts) = some (mem', movies', pts') ∧
        Sorting mem₀ (selectLoop rows m) m mem' movies' pts'
  | 0, _ => ⟨mem, movies, pts, rfl, h⟩
  | m + 1, hm => by
    obtain ⟨mem₁, movies₁, pts₁, hrun, h₁⟩ := h.loop hshort hpos m (by omega)
    obtain ⟨mem₂, movies₂, pts₂, hstep, h₂⟩ := h₁.step
      (fun r hr => hshort r ((selectLoop_perm rows m).mem_iff.1 hr))
      (hpos.perm (selectLoop_perm rows m)) (by rw [length_selectLoop]; omega)
    refine ⟨mem₂, movies₂, pts₂, ?_, ?_⟩
    · rw [List.range_succ, List.foldlM_append, hrun]
      simpa using hstep
    · rw [selectLoop_succ]
      exact h₂

/-- `sort` puts the rows in order and adds the suffix, in new strings. -/
theorem sort_spec (num_of_movies : ℕ) (h : Holds mem movies pts rows) (hshort : Short rows)
    (hpos : NonNeg rows) (hne : rows ≠ []) (hnum : rows.length ≤ num_of_movies) :
    ∃ mem' movies' pts', sort num_of_movies mem movies pts = some (mem', movies', pts') ∧
      mem.Ext mem' ∧ (∀ p ∈ movies', mem.Fresh p) ∧
      Holds mem' movies' pts' ((select rows).map withKey) := by
  have hlen := h.length
  have hpos' : 0 < rows.length := List.length_pos_iff.2 hne
  have hne' : movies ≠ [] := List.length_pos_iff.1 (hlen ▸ hpos')
  have hbegin : Sorting mem rows 0 mem movies pts :=
    ⟨.refl mem, h.valid, fun i hi => absurd hi (Nat.not_lt_zero i),
      h.strs.trans (partly_zero rows).symm, h.pts⟩
  obtain ⟨mem₁, movies₁, pts₁, hrun, h₁⟩ :=
    hbegin.loop hshort hpos (rows.length - 1) (Nat.sub_le _ _)
  have hsel : (select rows).length = rows.length := (select_perm rows).length_eq
  obtain ⟨mem₂, movies₂, hsecret, h₂⟩ := h₁.secretAt
    (fun r hr => hshort r ((select_perm rows).mem_iff.1 hr))
    (show rows.length - 1 < (select rows).length by omega)
  have hlen₁ : movies₁.length = rows.length := h₁.length.trans hsel
  rw [show rows.length - 1 + 1 = (select rows).length by omega] at h₂
  have hlen₂ : movies₂.length = (select rows).length := h₂.length
  refine ⟨mem₂, movies₂, pts₁, ?_, h₂.ext, fun p hp => ?_, h₂.valid, ?_, ?_⟩
  · have hcond : movies.length ≤ num_of_movies ∧ movies ≠ [] := ⟨by omega, hne'⟩
    rw [sort, if_pos hcond, hlen, hrun]
    simp [hlen₁, hsecret]
  · obtain ⟨i, hi, rfl⟩ := List.getElem_of_mem hp
    exact h₂.fresh i (hlen₂ ▸ hi) _ (List.getElem?_eq_getElem hi)
  · rw [h₂.strs, show selectLoop rows (rows.length - 1) = select rows from rfl, partly_length,
      List.map_map]
    rfl
  · rw [h₂.pts, List.map_map]
    rfl

/-! ## The merge loops -/

/-- The merge loops merge the rows, and take their pointers from the two parts. -/
theorem Holds.mergeLoops {movies₁ movies₂ : List Ptr} {pts₁ pts₂ : List S}
    {rows₁ rows₂ : List (Bytes × S)} (h₁ : Holds mem movies₁ pts₁ rows₁)
    (h₂ : Holds mem movies₂ pts₂ rows₂) {mid : ℕ} (hmid : rows₁.length = mid) :
    Holds mem (mergeLoops mem (movies₁ ++ movies₂) (pts₁ ++ pts₂) mid).1
        (mergeLoops mem (movies₁ ++ movies₂) (pts₁ ++ pts₂) mid).2
        (mergeBy betterRow rows₁ rows₂) ∧
      ∀ p ∈ (mergeLoops mem (movies₁ ++ movies₂) (pts₁ ++ pts₂) mid).1,
        p ∈ movies₁ ∨ p ∈ movies₂ := by
  have hlen : movies₁.length = pts₁.length := by
    rw [h₁.length, h₁.pts, List.length_map]
  have hzip : (movies₁ ++ movies₂).zip (pts₁ ++ pts₂) = movies₁.zip pts₁ ++ movies₂.zip pts₂ :=
    List.zip_append hlen
  have hzlen : (movies₁.zip pts₁).length = mid := by
    rw [List.length_zip, ← hlen, Nat.min_self, h₁.length, hmid]
  have hrows : ∀ {movies : List Ptr} {pts : List S} {rows : List (Bytes × S)},
      Holds mem movies pts rows →
        (movies.zip pts).map (fun r => (mem.str r.1, r.2)) = rows := by
    intro movies pts rows h
    have hmap : (movies.zip pts).map (fun r => (mem.str r.1, r.2)) =
        (movies.map mem.str).zip pts := by
      rw [List.zip_map_left]
      rfl
    rw [hmap, h.strs, h.pts]
    exact (List.zip_of_prod rfl rfl).symm
  have htmp : (mergeBy (better mem.str) (movies₁.zip pts₁) (movies₂.zip pts₂)).map
      (fun r => (mem.str r.1, r.2)) = mergeBy betterRow rows₁ rows₂ := by
    rw [map_mergeBy (r := better mem.str) (s := betterRow)
      (f := fun r : Ptr × S => (mem.str r.1, r.2)) fun _ _ _ _ => Iff.rfl, hrows h₁, hrows h₂]
  have hmem : ∀ r ∈ mergeBy (better mem.str) (movies₁.zip pts₁) (movies₂.zip pts₂),
      r.1 ∈ movies₁ ∨ r.1 ∈ movies₂ := fun r hr =>
    (mem_mergeBy.1 hr).imp (fun h => (List.of_mem_zip h).1) fun h => (List.of_mem_zip h).1
  unfold Recommendation.mergeLoops
  rw [hzip, List.take_append_of_le_length hzlen.ge, List.drop_append_of_le_length hzlen.ge,
    List.take_of_length_le hzlen.le, List.drop_of_length_le hzlen.le, List.nil_append]
  refine ⟨⟨fun p hp => ?_, ?_, ?_⟩, fun p hp => ?_⟩
  · obtain ⟨r, hr, rfl⟩ := List.mem_map.1 hp
    exact (hmem r hr).elim (h₁.valid _) (h₂.valid _)
  · rw [← htmp, List.map_map, List.map_map]
    rfl
  · rw [← htmp, List.map_map]
    rfl
  · obtain ⟨r, hr, rfl⟩ := List.mem_map.1 hp
    exact hmem r hr

end Rows

end SP2022.Recommendation
