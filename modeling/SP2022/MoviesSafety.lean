import SP2022.MoviesBuilds

/-!
# The calls of `sort`

`SortCall` is a call of `sort` with the memory it finds, and `Safe` says that its range is not
empty and not too long, that every index it uses is in the range, the last one `size - 1`
included, and that no assertion of `lib.c` fails. `recommendCalls` and `mainCalls` list the
calls of the two builds : one for few movies, and otherwise two for each of the sixteen
leaves of the recursion, where the halves of at least `mergeThread` movies are never empty. A
build writes its lines only if they are safe (`recommend_isSome`, `mainP_safe`).
All of them are safe exactly if some movie matches the request (`sort_calls_safe_iff`).
Without one, `sort` is called with `size` zero and uses `movies[-1]`.
-/

namespace SP2022.Recommendation

section Calls

variable {S : Type}

/-- The arguments of a call of `sort`, with the memory that it finds. -/
structure SortCall (S : Type) where
  mem : Mem
  movies : List Ptr
  pts : List S

variable [Score S]

/-! ## The indices of a call -/

/-- What `argmax` looks at : every element of its range, and the best one before it. -/
def argmaxReads (src : List S) (movie : List Bytes) (start stop : ℕ) : List ℕ :=
  (List.range' start (stop - start)).flatMap fun i =>
    [i, ((List.range' start (i - start)).foldl (argmaxStep src movie) (start, Score.minusOne)).1]

/-- The indices of one turn of the loop of `sort`. -/
def turnIndices (st : Mem × List Ptr × List S) (i : ℕ) : List ℕ :=
  let (mem, movies, pts) := st
  argmaxReads pts (movies.map mem.str) i movies.length ++
    i :: (argmax pts (movies.map mem.str) i movies.length).toList

namespace SortCall

/-- All indices that a call uses, if it gets that far. -/
def indices (c : SortCall S) : List ℤ :=
  ((List.range (c.movies.length - 1)).flatMap fun i =>
    (((List.range i).foldlM sortStep (c.mem, c.movies, c.pts)).elim [] fun st =>
      turnIndices st i).map Nat.cast) ++ [(c.movies.length : ℤ) - 1]

/-- The range is not empty and not too long, all indices are in it, and no assertion fails. -/
structure Safe (num_of_movies : ℕ) (c : SortCall S) : Prop where
  size : 1 ≤ c.movies.length ∧ c.movies.length ≤ num_of_movies
  indices : ∀ k ∈ c.indices, 0 ≤ k ∧ k < c.movies.length
  asserts : (sort num_of_movies c.mem c.movies c.pts).isSome

end SortCall

theorem argmaxStep_fst (src : List S) (movie : List Bytes) (best : ℕ × S) (i : ℕ) :
    (argmaxStep src movie best i).1 = best.1 ∨ (argmaxStep src movie best i).1 = i := by
  unfold argmaxStep
  split_ifs <;> simp

/-- The best element so far is in the range. -/
theorem argmaxLoop_range (src : List S) (movie : List Bytes) {start stop : ℕ} (hlt : start < stop) :
    ∀ m, start + m ≤ stop →
      start ≤ ((List.range' start m).foldl (argmaxStep src movie) (start, Score.minusOne)).1 ∧
      ((List.range' start m).foldl (argmaxStep src movie) (start, Score.minusOne)).1 < stop
  | 0, _ => ⟨le_rfl, hlt⟩
  | m + 1, hm => by
    have ih := argmaxLoop_range src movie hlt m (by omega)
    rw [List.range'_concat, List.foldl_append]
    simp only [List.foldl_cons, List.foldl_nil, one_mul]
    rcases argmaxStep_fst src movie _ (start + m) with h | h
    · rw [h]
      exact ih
    · rw [h]
      omega

theorem secretAt_keeps {mem mem' : Mem} {movies movies' : List Ptr} {i : ℕ}
    (h : secretAt mem movies i = some (mem', movies')) :
    movies'.length = movies.length ∧ mem'.slots = mem.slots := by
  simp only [secretAt, add_secret, Option.bind_eq_bind, Option.bind_eq_some_iff] at h
  obtain ⟨s, -, ⟨mem₁, s'⟩, hadd, heq⟩ := h
  split_ifs at hadd
  obtain ⟨rfl, rfl⟩ := Prod.mk.inj (Option.some.inj hadd)
  obtain ⟨rfl, rfl⟩ := Prod.mk.inj (Option.some.inj heq)
  exact ⟨List.length_set, rfl⟩

/-- A turn of the loop keeps the size of the array and the shared slots. -/
theorem sortStep_keeps {st st' : Mem × List Ptr × List S} {i : ℕ} (h : sortStep st i = some st') :
    st'.2.1.length = st.2.1.length ∧ st'.1.slots = st.1.slots := by
  obtain ⟨mem, movies, pts⟩ := st
  simp only [sortStep, Option.bind_eq_bind, Option.bind_eq_some_iff] at h
  obtain ⟨idx, -, h⟩ := h
  split_ifs at h
  obtain ⟨⟨mem', movies'⟩, hsecret, heq⟩ := Option.bind_eq_some_iff.1 h
  obtain rfl := Option.some.inj heq
  have hkeeps := secretAt_keeps hsecret
  rwa [length_swapAt] at hkeeps

theorem sortLoop_keeps {is : List ℕ} {st st' : Mem × List Ptr × List S}
    (h : is.foldlM sortStep st = some st') :
    st'.2.1.length = st.2.1.length ∧ st'.1.slots = st.1.slots := by
  induction is generalizing st with
  | nil =>
    obtain rfl := Option.some.inj h
    exact ⟨rfl, rfl⟩
  | cons i is ih =>
    rw [List.foldlM_cons, Option.bind_eq_bind, Option.bind_eq_some_iff] at h
    obtain ⟨st₁, hstep, hrest⟩ := h
    have h₁ := sortStep_keeps hstep
    have h₂ := ih hrest
    exact ⟨h₂.1.trans h₁.1, h₂.2.trans h₁.2⟩

/-- `sort` writes to the heap only. -/
theorem sort_slots {num_of_movies : ℕ} {mem mem' : Mem} {movies movies' : List Ptr}
    {pts pts' : List S} (h : sort num_of_movies mem movies pts = some (mem', movies', pts')) :
    mem'.slots = mem.slots := by
  unfold sort at h
  split_ifs at h
  simp only [Option.bind_eq_bind, Option.bind_eq_some_iff] at h
  obtain ⟨⟨mem₁, movies₁, pts₁⟩, hloop, ⟨mem₂, movies₂⟩, hlast, heq⟩ := h
  obtain ⟨rfl, -⟩ := Prod.mk.inj (Option.some.inj heq)
  exact (secretAt_keeps hlast).2.trans (sortLoop_keeps hloop).2

/-- A turn of the loop stays in its range. -/
theorem turnIndices_range {st : Mem × List Ptr × List S} {i : ℕ} (hi : i < st.2.1.length) :
    ∀ k ∈ turnIndices st i, k < st.2.1.length := by
  obtain ⟨mem, movies, pts⟩ := st
  have hi : i < movies.length := hi
  have hbest := fun m => argmaxLoop_range pts (movies.map mem.str) hi m
  intro k hk
  simp only [turnIndices, argmaxReads, List.mem_append, List.mem_flatMap, List.mem_cons,
    List.mem_range'_1, List.not_mem_nil, or_false, Option.mem_toList] at hk
  rcases hk with ⟨j, ⟨hj, hj'⟩, rfl | rfl⟩ | rfl | hk
  · show k < movies.length
    omega
  · exact (hbest (j - i) (by omega)).2
  · exact hi
  · unfold argmax at hk
    dsimp only at hk
    split_ifs at hk
    obtain rfl := Option.some.inj hk
    exact (hbest _ (by omega)).2

/-- A call that survives is safe. -/
theorem SortCall.safe_iff {num_of_movies : ℕ} {c : SortCall S} :
    c.Safe num_of_movies ↔ (sort num_of_movies c.mem c.movies c.pts).isSome := by
  refine ⟨Safe.asserts, fun h => ?_⟩
  have hcond : c.movies.length ≤ num_of_movies ∧ c.movies ≠ [] := by
    unfold sort at h
    split_ifs at h with hcond
    · exact hcond
    · simp at h
  have hpos := List.length_pos_iff.2 hcond.2
  refine ⟨⟨hpos, hcond.1⟩, fun k hk => ?_, h⟩
  rcases List.mem_append.1 hk with hk | hk
  · obtain ⟨i, hi, hk⟩ := List.mem_flatMap.1 hk
    obtain ⟨n, hn, rfl⟩ := List.mem_map.1 hk
    cases hrun : (List.range i).foldlM sortStep (c.mem, c.movies, c.pts) with
    | none => simp [hrun] at hn
    | some st =>
      rw [hrun] at hn
      have hlen : st.2.1.length = c.movies.length := (sortLoop_keeps hrun).1
      have hi' := List.mem_range.1 hi
      have hlt := @turnIndices_range S _ st i (by omega) n hn
      omega
  · have hlast := List.mem_singleton.1 hk
    omega

/-! ## The calls of a leaf -/

/-- The two calls of a leaf of the recursion. -/
def leafCalls (num_of_movies : ℕ) (mem : Mem) (movies : List Ptr) (pts : List S) :
    List (SortCall S) :=
  let mid := movies.length / 2
  ⟨mem, movies.take mid, pts.take mid⟩ ::
    (sort num_of_movies mem (movies.take mid) (pts.take mid)).elim [] fun st =>
      [⟨st.1, movies.drop mid, pts.drop mid⟩]

variable {mem : Mem} {movies : List Ptr} {pts : List S} {rows : List (Bytes × S)}

theorem safe_call {num_of_movies : ℕ} (h : Holds mem movies pts rows) (hshort : Short rows)
    (hpos : NonNeg rows) (hne : rows ≠ []) (hnum : rows.length ≤ num_of_movies) :
    SortCall.Safe num_of_movies ⟨mem, movies, pts⟩ := by
  obtain ⟨mem', movies', pts', hrun, -⟩ := sort_spec num_of_movies h hshort hpos hne hnum
  exact SortCall.safe_iff.2 (Option.isSome_of_eq_some hrun)

/-- A leaf with at least two rows makes safe calls. -/
theorem leafCalls_safe {num_of_movies : ℕ} (h : Holds mem movies pts rows) (hshort : Short rows)
    (hpos : NonNeg rows) (hlen : 2 ≤ rows.length) (hnum : rows.length ≤ num_of_movies) :
    ∀ c ∈ leafCalls num_of_movies mem movies pts, c.Safe num_of_movies := by
  obtain ⟨hl, hr, hmid⟩ := @halves_length S rows 0 hlen
  obtain ⟨mem₁, movies₁, pts₁, hrun, hext, -, -⟩ := sort_spec num_of_movies
    (h.take (rows.length / 2)) (hshort.take _) (hpos.take _) (List.length_pos_iff.1 hl) (by omega)
  unfold leafCalls
  simp only [h.length, hrun, Option.elim_some, List.forall_mem_cons]
  refine ⟨safe_call (h.take _) (hshort.take _) (hpos.take _) (List.length_pos_iff.1 hl)
    (by omega), safe_call ((h.drop _).ext hext) (hshort.drop _) (hpos.drop _)
    (List.length_pos_iff.1 hr) (by rw [List.length_drop]; omega), by simp⟩

/-! ## The calls of the recursion -/

/-- The calls of `mergeSort` in the THREAD build. -/
def callsT (num_of_movies : ℕ) : ℕ → Mem → List Ptr → List S → List (SortCall S)
  | 0, mem, movies, pts => leafCalls num_of_movies mem movies pts
  | levels + 1, mem, movies, pts =>
    let mid := movies.length / 2
    let left := mergeSortT num_of_movies levels mem (movies.take mid) (pts.take mid)
    callsT num_of_movies levels mem (movies.take mid) (pts.take mid) ++
      callsT num_of_movies levels (left.elim mem Prod.fst) (movies.drop mid) (pts.drop mid)

/-- The memory after a child. One that does not survive leaves it as it was. -/
def afterChild (mem : Mem) (child : Option (Mem × List S)) : Mem :=
  { mem with slots := child.elim mem.slots fun st => st.1.slots }

/-- The calls of `mergeSort` in the PROCESS build. The children run one after the other. -/
def callsP (num_of_movies : ℕ) : ℕ → Mem → List Ptr → List S → List (SortCall S)
  | 0, mem, movies, pts => leafCalls num_of_movies mem movies pts
  | levels + 1, mem, movies, pts =>
    let mid := movies.length / 2
    let left := mergeSortP num_of_movies levels mem (movies.take mid) (pts.take mid)
    callsP num_of_movies levels mem (movies.take mid) (pts.take mid) ++
      callsP num_of_movies levels (afterChild mem left) (movies.drop mid) (pts.drop mid)

/-- A leaf gets through both calls exactly if they are safe. -/
theorem leafCalls_isSome {num_of_movies : ℕ} {mem : Mem} {movies : List Ptr} {pts : List S} :
    (mergeSortT num_of_movies 0 mem movies pts).isSome ↔
      ∀ c ∈ leafCalls num_of_movies mem movies pts, c.Safe num_of_movies := by
  unfold mergeSortT leafCalls
  simp only [Option.bind_eq_bind, List.forall_mem_cons, SortCall.safe_iff]
  cases sort num_of_movies mem (movies.take (movies.length / 2))
      (pts.take (movies.length / 2)) with
  | none => simp
  | some st =>
    cases hright : sort num_of_movies st.1 (movies.drop (movies.length / 2))
        (pts.drop (movies.length / 2)) <;>
      simp [hright]

/-- The recursion of the THREAD build ends normally exactly if its calls are safe. -/
theorem mergeSortT_isSome (num_of_movies : ℕ) : ∀ (levels : ℕ) {mem : Mem} {movies : List Ptr}
    {pts : List S}, (mergeSortT num_of_movies levels mem movies pts).isSome ↔
      ∀ c ∈ callsT num_of_movies levels mem movies pts, c.Safe num_of_movies
  | 0, _, _, _ => leafCalls_isSome
  | levels + 1, mem, movies, pts => by
    have hl := @mergeSortT_isSome num_of_movies levels mem (movies.take (movies.length / 2))
      (pts.take (movies.length / 2))
    have hr := fun mem => @mergeSortT_isSome num_of_movies levels mem
      (movies.drop (movies.length / 2)) (pts.drop (movies.length / 2))
    unfold callsT
    simp only [List.forall_mem_append, ← hl, ← hr]
    rw [mergeSortT]
    simp only [Option.bind_eq_bind]
    cases mergeSortT num_of_movies levels mem (movies.take (movies.length / 2))
        (pts.take (movies.length / 2)) with
    | none => simp
    | some st =>
      cases hright : mergeSortT num_of_movies levels st.1 (movies.drop (movies.length / 2))
          (pts.drop (movies.length / 2)) <;>
        simp [hright]

/-- A child of the PROCESS build that survives has made safe calls. -/
theorem mergeSortP_safe (num_of_movies : ℕ) : ∀ (levels : ℕ) {mem : Mem} {movies : List Ptr}
    {pts : List S}, (mergeSortP num_of_movies levels mem movies pts).isSome →
      ∀ c ∈ callsP num_of_movies levels mem movies pts, c.Safe num_of_movies
  | 0, mem, movies, pts, h => by
    rw [callsP, ← leafCalls_isSome]
    obtain ⟨st, hst⟩ := Option.isSome_iff_exists.1 h
    simp only [mergeSortP, Option.bind_eq_bind, Option.bind_eq_some_iff] at hst
    obtain ⟨left, hleft, right, hright, -⟩ := hst
    simp [mergeSortT, hleft, hright]
  | levels + 1, mem, movies, pts, h => by
    obtain ⟨st, hst⟩ := Option.isSome_iff_exists.1 h
    simp only [mergeSortP, Option.bind_eq_bind, Option.bind_eq_some_iff] at hst
    obtain ⟨left, hleft, right, hright, -⟩ := hst
    unfold callsP
    simp only [hleft, List.forall_mem_append]
    exact ⟨mergeSortP_safe num_of_movies levels (Option.isSome_of_eq_some hleft),
      mergeSortP_safe num_of_movies levels (Option.isSome_of_eq_some hright)⟩

theorem callsT_safe {num_of_movies levels : ℕ} (h : Holds mem movies pts rows)
    (hshort : Short rows) (hpos : NonNeg rows) (hlen : 2 ^ (levels + 1) ≤ rows.length)
    (hnum : rows.length ≤ num_of_movies) :
    ∀ c ∈ callsT num_of_movies levels mem movies pts, c.Safe num_of_movies := by
  obtain ⟨mem', movies', pts', hrun, -⟩ :=
    mergeSortT_spec num_of_movies levels h hshort hpos hlen hnum
  exact (mergeSortT_isSome num_of_movies levels).1 (Option.isSome_of_eq_some hrun)

omit [Score S] in
theorem copyBack_frame : ∀ (ns : List ℕ) (srcs : List Ptr) {mem mem' : Mem},
    copyBack (ns.map .slot) srcs mem = some mem' → mem.Frame ns mem'
  | [], _, mem, mem', h => by
    obtain rfl : mem = mem' := by simpa [copyBack] using h
    exact ⟨rfl, fun _ _ => rfl⟩
  | n :: ns, [], mem, mem', h => by
    obtain rfl : mem = mem' := by simpa [copyBack] using h
    exact ⟨rfl, fun _ _ => rfl⟩
  | n :: ns, p :: srcs, mem, mem', h => by
    rw [List.map_cons, copyBack, Option.bind_eq_some_iff] at h
    obtain ⟨mem₁, hcopy, hrest⟩ := h
    unfold Mem.strcpy at hcopy
    split_ifs at hcopy
    obtain rfl := Option.some.inj hcopy
    obtain ⟨hlen, hframe⟩ := copyBack_frame ns srcs hrest
    refine ⟨hlen.trans List.length_set, fun m hm => ?_⟩
    obtain ⟨hmn, hm⟩ := not_or.1 (mt List.mem_cons.2 hm)
    exact (hframe m hm).trans (List.getElem?_set_ne (Ne.symm hmn))

omit [Score S] in
theorem copyOut_slots : ∀ (srcs : List Ptr) {mem mem' : Mem} {dsts : List Ptr},
    copyOut srcs mem = some (mem', dsts) → mem'.slots = mem.slots
  | [], mem, mem', dsts, h => by
    obtain ⟨rfl, -⟩ := Prod.mk.inj (Option.some.inj h)
    rfl
  | src :: srcs, mem, mem', dsts, h => by
    simp only [copyOut, Option.bind_eq_bind, Option.bind_eq_some_iff] at h
    obtain ⟨mem₁, hcopy, ⟨mem₂, dsts'⟩, hrest, heq⟩ := h
    obtain ⟨rfl, -⟩ := Prod.mk.inj (Option.some.inj heq)
    unfold Mem.strcpy at hcopy
    split_ifs at hcopy
    obtain rfl := Option.some.inj hcopy
    have hslots := copyOut_slots srcs hrest
    exact hslots

/-- A child that survives has written to the slots it was given only. -/
theorem mergeSortP_frame (num_of_movies : ℕ) : ∀ (levels : ℕ) {mem mem' : Mem} {ns : List ℕ}
    {pts pts' : List S}, mergeSortP num_of_movies levels mem (ns.map .slot) pts =
      some (mem', pts') → mem.Frame ns mem'
  | 0, mem, mem', ns, pts, pts', h => by
    simp only [mergeSortP, Option.bind_eq_bind, Option.bind_eq_some_iff] at h
    obtain ⟨⟨mem₁, cpy₁, pts₁⟩, hsort₁, ⟨mem₂, cpy₂, pts₂⟩, hsort₂, mem₃, hback, heq⟩ := h
    obtain ⟨rfl, -⟩ := Prod.mk.inj (Option.some.inj heq)
    have hslots := (sort_slots hsort₂).trans (sort_slots hsort₁)
    have hframe : mem.Frame ns mem₂ := ⟨congrArg _ hslots, fun n _ => by rw [hslots]⟩
    exact hframe.trans (copyBack_frame ns _ hback)
  | levels + 1, mem, mem', ns, pts, pts', h => by
    simp only [mergeSortP, ← List.map_take, ← List.map_drop, Option.bind_eq_bind,
      Option.bind_eq_some_iff] at h
    obtain ⟨⟨child₁, pts₁⟩, hrun₁, ⟨child₂, pts₂⟩, hrun₂, ⟨mem₃, cpy⟩, hout, mem₄, hback, heq⟩ := h
    obtain ⟨rfl, -⟩ := Prod.mk.inj (Option.some.inj heq)
    obtain ⟨hlen₁, hframe₁⟩ := mergeSortP_frame num_of_movies levels hrun₁
    obtain ⟨hlen₂, hframe₂⟩ := mergeSortP_frame num_of_movies levels hrun₂
    have hslots := copyOut_slots _ hout
    refine .trans ⟨?_, fun n hn => ?_⟩ (copyBack_frame ns _ hback)
    · rw [hslots]
      exact hlen₂.trans hlen₁
    · rw [hslots]
      exact (hframe₂ n fun h => hn (List.mem_of_mem_drop h)).trans
        (hframe₁ n fun h => hn (List.mem_of_mem_take h))

theorem callsP_safe (num_of_movies : ℕ) : ∀ (levels : ℕ) {mem : Mem} {ns : List ℕ}
    {pts : List S} {rows : List (Bytes × S)}, ns.Nodup → Holds mem (ns.map .slot) pts rows →
    Short rows → NonNeg rows → 2 ^ (levels + 1) ≤ rows.length → rows.length ≤ num_of_movies →
    ∀ c ∈ callsP num_of_movies levels mem (ns.map .slot) pts, c.Safe num_of_movies
  | 0, mem, ns, pts, rows, _, h, hshort, hpos, hlen, hnum =>
    leafCalls_safe h hshort hpos hlen hnum
  | levels + 1, mem, ns, pts, rows, hnd, h, hshort, hpos, hlen, hnum => by
    obtain ⟨hl, hr, hmid⟩ := halves_length hlen
    have hhalf : (ns.map Ptr.slot).length = rows.length := h.length
    have hdisj := hnd
    rw [← List.take_append_drop (rows.length / 2) ns, List.nodup_append] at hdisj
    obtain ⟨hndl, hndr, hdisj⟩ := hdisj
    have hleft := h.take (rows.length / 2)
    have hright := h.drop (rows.length / 2)
    rw [← List.map_take] at hleft
    rw [← List.map_drop] at hright
    -- the slots of the second child are as they were, whatever becomes of the first one
    have hright₁ : Holds (afterChild mem (mergeSortP num_of_movies levels mem
          ((ns.take (rows.length / 2)).map .slot) (pts.take (rows.length / 2))))
        ((ns.drop (rows.length / 2)).map .slot) (pts.drop (rows.length / 2))
        (rows.drop (rows.length / 2)) := by
      cases hrun : mergeSortP num_of_movies levels mem ((ns.take (rows.length / 2)).map .slot)
          (pts.take (rows.length / 2)) with
      | none => exact hright
      | some st =>
        obtain ⟨child, pts₁⟩ := st
        obtain ⟨hslots, hframe⟩ := mergeSortP_frame num_of_movies levels hrun
        exact hright.slots hslots fun n hn => hframe n fun hn' => hdisj n hn' n hn rfl
    intro c hc
    unfold callsP at hc
    simp only [hhalf, ← List.map_take, ← List.map_drop] at hc
    rcases List.mem_append.1 hc with hc | hc
    · exact callsP_safe num_of_movies levels hndl hleft (hshort.take _) (hpos.take _) hl
        (by omega) c hc
    · exact callsP_safe num_of_movies levels hndr hright₁ (hshort.drop _) (hpos.drop _) hr
        (by rw [List.length_drop]; omega) c hc

/-! ## The calls of the builds -/

variable {P : Type*} (Dot : P → P → S)

/-- The calls of `Recommend` in the THREAD build. -/
def recommendCalls (movies : List (Movie P)) (req : Request P) : List (SortCall S) :=
  let found := movies.zipIdx.filter fun m => req.wants m.1
  let mem : Mem := ⟨[], movies.map Movie.title⟩
  let filter := found.map fun m => Ptr.heap m.2
  let pts := found.map fun m => Dot req.profile m.1.profile
  if filter.length < mergeThread then [⟨mem, filter, pts⟩]
  else callsT movies.length (depth - 1) mem filter pts

/-- The calls of `main` in the PROCESS build. -/
def mainCalls (movies : List (Movie P)) (req : Request P) : List (SortCall S) :=
  let found := movies.filter req.wants
  ((found.map Movie.title).foldlM shareTitle []).elim [] fun slots =>
    let mem : Mem := ⟨slots, movies.map Movie.title⟩
    let filter := (List.range found.length).map Ptr.slot
    let pts := found.map fun m => Dot req.profile m.profile
    if found.length < mergeThread then [⟨mem, filter, pts⟩]
    else callsP movies.length (depth - 1) mem filter pts

/-- `Recommend` writes its lines exactly if all its calls are safe. -/
theorem recommend_isSome (movies : List (Movie P)) (req : Request P) :
    (Recommend Dot movies req).isSome ↔
      ∀ c ∈ recommendCalls Dot movies req, c.Safe movies.length := by
  -- what is done after the sorting does not fail
  have hlines : ∀ (o : Option (Mem × List Ptr × List S)),
      (o.bind fun st => some (st.2.1.map st.1.str)).isSome = o.isSome := fun o => by
    cases o <;> rfl
  unfold Recommend recommendCalls
  dsimp only
  split_ifs
  · rw [List.forall_mem_singleton, SortCall.safe_iff]
    exact iff_of_eq (congrArg (· = true) (hlines _))
  · rw [← mergeSortT_isSome]
    exact iff_of_eq (congrArg (· = true) (hlines _))

/-- If `main` of the PROCESS build writes its lines, all its calls were safe. -/
theorem mainP_safe {movies : List (Movie P)} {req : Request P}
    (h : (mainP Dot movies req).isSome) : ∀ c ∈ mainCalls Dot movies req, c.Safe movies.length := by
  obtain ⟨lines, hlines⟩ := Option.isSome_iff_exists.1 h
  simp only [mainP, Option.bind_eq_bind, Option.bind_eq_some_iff] at hlines
  obtain ⟨slots, hslots, hlines⟩ := hlines
  unfold mainCalls
  simp only [hslots, Option.elim_some]
  split_ifs at hlines ⊢
  · obtain ⟨st, hst, -⟩ := Option.bind_eq_some_iff.1 hlines
    simpa [SortCall.safe_iff] using Option.isSome_of_eq_some hst
  · obtain ⟨st, hst, -⟩ := Option.bind_eq_some_iff.1 hlines
    exact mergeSortP_safe _ _ (Option.isSome_of_eq_some hst)

/-- A call for few rows, or those of a recursion, are safe exactly if there are rows. -/
theorem calls_safe_iff {num_of_movies : ℕ} {tree : List (SortCall S)}
    (h : Holds mem movies pts rows) (hshort : Short rows) (hpos : NonNeg rows)
    (hnum : rows.length ≤ num_of_movies)
    (htree : mergeThread ≤ rows.length → ∀ c ∈ tree, c.Safe num_of_movies) :
    (∀ c ∈ if movies.length < mergeThread then [⟨mem, movies, pts⟩] else tree,
      c.Safe num_of_movies) ↔ rows ≠ [] := by
  rw [h.length]
  constructor
  · rintro hsafe rfl
    have hsize : 1 ≤ movies.length :=
      (hsafe ⟨mem, movies, pts⟩ (List.mem_singleton_self _)).size.1
    have hlen : movies.length = 0 := h.length
    omega
  · intro hne c hc
    split_ifs at hc with hfew
    · obtain rfl := List.mem_singleton.1 hc
      exact safe_call h hshort hpos hne hnum
    · exact htree (not_lt.1 hfew) c hc

/-- In both builds, every call of `sort` for a request has a range that is not empty and not
too long, uses indices of it only and fails no assertion, exactly if some movie matches. -/
theorem sort_calls_safe_iff {movies : List (Movie P)} {req : Request P}
    (hshort : ∀ m ∈ movies, req.Matches m → m.title.length < MAX_LEN)
    (hpos : ∀ m ∈ movies, req.Matches m → 0 ≤ Dot req.profile m.profile) :
    ((∀ c ∈ recommendCalls Dot movies req, c.Safe movies.length) ↔
        ∃ m ∈ movies, req.Matches m) ∧
      ((∀ c ∈ mainCalls Dot movies req, c.Safe movies.length) ↔ ∃ m ∈ movies, req.Matches m) := by
  have hshort' : Short (wantedRows Dot movies req) := fun r hr => by
    obtain ⟨m, hm, hmatch, rfl⟩ := (mem_wantedRows Dot).1 hr
    exact hshort m hm hmatch
  have hpos' : NonNeg (wantedRows Dot movies req) := fun r hr => by
    obtain ⟨m, hm, hmatch, rfl⟩ := (mem_wantedRows Dot).1 hr
    exact hpos m hm hmatch
  have hsome : (∃ m ∈ movies, req.Matches m) ↔ wantedRows Dot movies req ≠ [] := by
    constructor
    · rintro ⟨m, hm, hmatch⟩
      exact List.ne_nil_of_mem ((mem_wantedRows Dot).2 ⟨m, hm, hmatch, rfl⟩)
    · intro hne
      obtain ⟨r, hr⟩ := List.exists_mem_of_ne_nil _ hne
      obtain ⟨m, hm, hmatch, -⟩ := (mem_wantedRows Dot).1 hr
      exact ⟨m, hm, hmatch⟩
  have hnum := length_wantedRows_le Dot movies req
  have hholds := holds_recommend Dot movies req
  have hshared := holds_shared Dot movies req
  rw [hsome]
  constructor
  · exact calls_safe_iff hholds hshort' hpos' hnum fun hlen =>
      callsT_safe hholds hshort' hpos' hlen hnum
  · unfold mainCalls
    simp only [share_titles Dot hshort', Option.elim_some]
    rw [← calls_safe_iff hshared hshort' hpos' hnum fun hlen =>
      callsP_safe movies.length (depth - 1) List.nodup_range hshared hshort' hpos' hlen hnum]
    simp only [List.length_map, List.length_range]

local instance integers : Score ℤ :=
  instScoreInt

/-- Twenty of forty movies match. -/
theorem sort_calls_safe_shelf :
    ((∀ c ∈ recommendCalls (· * ·) shelf (ask [98]), c.Safe shelf.length) ↔
        ∃ m ∈ shelf, (ask [98]).Matches m) ∧
      ((∀ c ∈ mainCalls (· * ·) shelf (ask [98]), c.Safe shelf.length) ↔
        ∃ m ∈ shelf, (ask [98]).Matches m) :=
  sort_calls_safe_iff (· * ·) (by decide +kernel) (by decide +kernel)

/-- No movie matches, and `sort` uses the index `-1`. -/
theorem sort_call_unsafe : (∀ m ∈ shelf, 0 ≤ (ask [122]).profile * m.profile) ∧
    (∃ c ∈ recommendCalls (· * ·) shelf (ask [122]), c.movies.length = 0 ∧ -1 ∈ c.indices) ∧
    ∃ c ∈ mainCalls (· * ·) shelf (ask [122]), c.movies.length = 0 ∧ -1 ∈ c.indices := by
  refine ⟨by decide +kernel, by decide +kernel, by decide +kernel⟩

end Calls

end SP2022.Recommendation
