import SP2022.MoviesBuilds
import SP2022.Termination

/-!
# The threads of `mergeSort`

The THREAD build again, now with its threads. `SortPlace` is where a call of `sort` is, one turn of
a loop to a step, and `Thread` is where a thread that runs `mergeSort` is, with the threads it
has created below it. A thread is named by the `pthread_create` calls that led to it, and any
thread that is not in `pthread_join` takes the next step. `Arrays` is the memory as a thread
sees it : all strings, and the entries from `Input -> movies` and `Input -> pts` on that are
its own. The heap is one for all threads, so strings appear on it at any time.

Whatever the order of steps, no assertion fails and no thread is stuck, the threads come to an
end, and then the arrays hold what the calls of `mergeSortT`, one after the other, leave in
them (`threads_agree`).
-/

namespace SP2022.Recommendation

/-! ## Where the threads are -/

/-- The strings, and the entries of `movies` and `pts` that a function works on. -/
structure Arrays (S : Type) where
  mem : Mem
  movies : List Ptr
  pts : List S

/-- Where a call of `sort` is. -/
inductive SortPlace (S : Type)
  /-- Before `validate`. -/
  | entered
  /-- Before the test of the loop. -/
  | looping (i : ℕ)
  /-- In `argmax`, before the test of its loop, with `ret` and `max`. -/
  | scanning (start i : ℕ) (best : ℕ × S)
  | returned

/-- `input`. What its two pointers point to is in `Arrays`. -/
structure Input where
  len : ℕ
  depth : ℕ
  deriving DecidableEq, Repr

/-- The two calls of `sort`, or the two threads. -/
inductive Half
  | first
  | second
  deriving DecidableEq, Repr

/-- Where a thread is. -/
inductive Thread (S : Type)
  /-- Before the test of `depth`. -/
  | entry (input : Input)
  /-- In a call of `sort`. -/
  | sorting (input : Input) (half : Half) (call : SortPlace S)
  /-- Before the second `pthread_create`. -/
  | created (input : Input) (tid1 : Thread S)
  /-- In the two calls of `pthread_join`. -/
  | joining (input : Input) (tid1 tid2 : Thread S)
  /-- In the loops that fill `tmp_movies` and `tmp_pts`. -/
  | merging (input : Input) (key1 key2 : ℕ) (tmp : List (Ptr × S))
  /-- In the loop that copies them back. -/
  | copying (input : Input) (i : ℕ) (tmp : List (Ptr × S))
  | exited

section Steps

variable {S : Type}

/-- The entry `i` of both arrays. -/
def Arrays.entry (a : Arrays S) (i : ℕ) : Option (Ptr × S) := do
  let p ← a.movies[i]?
  let x ← a.pts[i]?
  some (p, x)

/-- The arrays that the first or the second half of `mergeSort` is given. -/
def Arrays.half (a : Arrays S) (mid : ℕ) : Half → Arrays S
  | .first => ⟨a.mem, a.movies.take mid, a.pts.take mid⟩
  | .second => ⟨a.mem, a.movies.drop mid, a.pts.drop mid⟩

/-- The arrays after a step in one half. -/
def Arrays.withHalf (a : Arrays S) (mid : ℕ) (b : Arrays S) : Half → Arrays S
  | .first => ⟨b.mem, b.movies ++ a.movies.drop mid, b.pts ++ a.pts.drop mid⟩
  | .second => ⟨b.mem, a.movies.take mid ++ b.movies, a.pts.take mid ++ b.pts⟩

/-- The arrays hold the rows. -/
abbrev Arrays.Hold (a : Arrays S) (rows : List (Bytes × S)) : Prop :=
  Holds a.mem a.movies a.pts rows

/-- The rows of a half. -/
def rowsOf (rows : List (Bytes × S)) : Half → List (Bytes × S)
  | .first => rows.take (rows.length / 2)
  | .second => rows.drop (rows.length / 2)

/-- The thread has exited, so `pthread_join` returns. -/
def Thread.done : Thread S → Bool
  | .exited => true
  | _ => false

/-- The thread with a name is there and can go on : it has not exited and is not in
`pthread_join`. -/
def Thread.ready : List Half → Thread S → Bool
  | [], .joining _ tid1 tid2 => tid1.done && tid2.done
  | [], t => !t.done
  | .first :: name, .created _ tid1 => tid1.ready name
  | .first :: name, .joining _ tid1 _ => tid1.ready name
  | .second :: name, .joining _ _ tid2 => tid2.ready name
  | _ :: _, _ => false

/-! ## Their steps -/

variable [Score S] (num_of_movies : ℕ)

/-- One step of `sort`. The one that leaves the loop of `argmax` also exchanges the two
entries and adds the suffix. -/
def SortPlace.step (a : Arrays S) : SortPlace S → Option (SortPlace S × Arrays S)
  | .entered => if a.movies.length ≤ num_of_movies then some (.looping 0, a) else none
  | .looping i =>
    if i + 1 < a.movies.length then some (.scanning i i (i, Score.minusOne), a)
    else do
      let (mem, movies) ← secretAt a.mem a.movies (a.movies.length - 1)
      some (.returned, ⟨mem, movies, a.pts⟩)
  | .scanning start i best =>
    if i < a.movies.length then
      some (.scanning start (i + 1) (argmaxStep a.pts (a.movies.map a.mem.str) best i), a)
    else if 0 ≤ best.2 ∧ best.1 < a.movies.length then do
      let (mem, movies) ← secretAt a.mem (swapAt a.movies start best.1) start
      some (.looping (start + 1), ⟨mem, movies, swapAt a.pts start best.1⟩)
    else none
  | .returned => none

/-- The merge loops, one turn to a step. -/
def mergeStep (a : Arrays S) (input : Input) (key1 key2 : ℕ) (tmp : List (Ptr × S)) :
    Option (Thread S) :=
  let mid := input.len / 2
  if key1 < mid ∧ key2 < input.len then do
    let x ← a.entry key1
    let y ← a.entry key2
    if better a.mem.str x y then some (.merging input (key1 + 1) key2 (tmp ++ [x]))
    else some (.merging input key1 (key2 + 1) (tmp ++ [y]))
  else if key1 < mid then do
    let x ← a.entry key1
    some (.merging input (key1 + 1) key2 (tmp ++ [x]))
  else if key2 < input.len then do
    let y ← a.entry key2
    some (.merging input key1 (key2 + 1) (tmp ++ [y]))
  else some (.copying input 0 tmp)

/-- A step of the thread itself. -/
def Thread.own (a : Arrays S) : Thread S → Option (Thread S × Arrays S)
  | .entry input =>
    if input.depth = depth - 1 then some (.sorting input .first .entered, a)
    else some (.created input (.entry ⟨input.len / 2, input.depth + 1⟩), a)
  | .sorting input .first .returned => some (.sorting input .second .entered, a)
  | .sorting input .second .returned => some (.merging input 0 (input.len / 2) [], a)
  | .sorting input half call => do
    let (call, b) ← call.step num_of_movies (a.half (input.len / 2) half)
    some (.sorting input half call, a.withHalf (input.len / 2) b half)
  | .created input tid1 =>
    some (.joining input tid1 (.entry ⟨input.len - input.len / 2, input.depth + 1⟩), a)
  | .joining input tid1 tid2 =>
    if tid1.done ∧ tid2.done then some (.merging input 0 (input.len / 2) [], a) else none
  | .merging input key1 key2 tmp => (mergeStep a input key1 key2 tmp).map fun t => (t, a)
  | .copying input i tmp =>
    if i < input.len then do
      let x ← tmp[i]?
      some (.copying input (i + 1) tmp, ⟨a.mem, a.movies.set i x.1, a.pts.set i x.2⟩)
    else some (.exited, a)
  | .exited => none

/-- A step of the thread with a name : of the thread itself, or of one below it, in the half
of the arrays that it was given. -/
def Thread.step : List Half → Thread S → Arrays S → Option (Thread S × Arrays S)
  | [], t, a => t.own num_of_movies a
  | .first :: name, .created input tid1, a => do
    let (tid1, b) ← Thread.step name tid1 (a.half (input.len / 2) .first)
    some (.created input tid1, a.withHalf (input.len / 2) b .first)
  | .first :: name, .joining input tid1 tid2, a => do
    let (tid1, b) ← Thread.step name tid1 (a.half (input.len / 2) .first)
    some (.joining input tid1 tid2, a.withHalf (input.len / 2) b .first)
  | .second :: name, .joining input tid1 tid2, a => do
    let (tid2, b) ← Thread.step name tid2 (a.half (input.len / 2) .second)
    some (.joining input tid1 tid2, a.withHalf (input.len / 2) b .second)
  | _ :: _, _, _ => none

/-- The threads from a state on. A step is given by the name of the thread that takes it. -/
def threads (start : Thread S × Arrays S) : System (Thread S × Arrays S) (List Half) where
  init s := s = start
  step name s := s.1.step num_of_movies name s.2

end Steps

/-! ## During a call of `sort` -/

section Sorts

variable {S : Type} {mem mem₀ mem' : Mem} {movies : List Ptr} {pts : List S}
  {rows : List (Bytes × S)} {m : ℕ}

theorem Mem.ext_secretAt {movies' : List Ptr} (h : secretAt mem movies m = some (mem', movies')) :
    mem.Ext mem' := by
  obtain ⟨p, -, h⟩ := Option.bind_eq_some_iff.1 h
  obtain ⟨⟨mem₁, q⟩, hadd, h⟩ := Option.bind_eq_some_iff.1 h
  obtain ⟨rfl, -⟩ := Prod.mk.inj (Option.some.inj h)
  unfold add_secret at hadd
  split_ifs at hadd
  obtain ⟨rfl, -⟩ := Prod.mk.inj (Option.some.inj hadd)
  exact mem.ext_malloc _

theorem Sorting.extend (h : Sorting mem₀ rows m mem movies pts) (hext : mem.Ext mem') :
    Sorting mem₀ rows m mem' movies pts :=
  ⟨h.ext.trans hext, fun p hp => hext.valid (h.valid p hp), h.fresh,
    (List.map_congr_left fun p hp => hext.str (h.valid p hp)).trans h.strs, h.pts⟩

/-- When the suffix is on all rows. -/
theorem Sorting.holds (h : Sorting mem₀ rows rows.length mem movies pts) :
    Holds mem movies pts (rows.map withKey) := by
  refine ⟨h.valid, ?_, ?_⟩
  · rw [h.strs, partly_length, List.map_map]
    rfl
  · rw [h.pts, List.map_map]
    rfl

variable [Score S]

/-- What `argmax` has in `ret` and `max` after the entries up to `i`. -/
def scanned (a : Arrays S) (start i : ℕ) : ℕ × S :=
  (List.range' start (i - start)).foldl (argmaxStep a.pts (a.movies.map a.mem.str))
    (start, Score.minusOne)

theorem scanned_succ (a : Arrays S) {start i : ℕ} (h : start ≤ i) :
    scanned a start (i + 1) = argmaxStep a.pts (a.movies.map a.mem.str) (scanned a start i) i := by
  rw [scanned, Nat.succ_sub h, List.range'_1_concat, List.foldl_append, Nat.add_sub_cancel' h]
  rfl

/-- What the arrays hold during a call of `sort` with these rows. -/
inductive Sorts (rows : List (Bytes × S)) : SortPlace S → Arrays S → Prop
  | entered {a : Arrays S} (h : Holds a.mem a.movies a.pts rows) : Sorts rows .entered a
  | looping {a : Arrays S} {mem₀ : Mem} {i : ℕ}
      (h : Sorting mem₀ (selectLoop rows i) i a.mem a.movies a.pts) (hi : i < rows.length) :
      Sorts rows (.looping i) a
  | scanning {a : Arrays S} {mem₀ : Mem} {start i : ℕ}
      (h : Sorting mem₀ (selectLoop rows start) start a.mem a.movies a.pts)
      (hstart : start + 1 < rows.length) (hle : start ≤ i) (hi : i ≤ rows.length) :
      Sorts rows (.scanning start i (scanned a start i)) a
  | returned {a : Arrays S} (h : Holds a.mem a.movies a.pts ((select rows).map withKey)) :
      Sorts rows .returned a

/-- The steps that are left of a call of `sort` with `size` entries, or more. -/
def SortPlace.left (size : ℕ) : SortPlace S → ℕ
  | .entered => size * (size + 3) + 2
  | .looping i => (size - i) * (size + 3) + 1
  | .scanning start i _ => (size - start - 1) * (size + 3) + (size - i) + 2
  | .returned => 0

theorem Sorts.length {call : SortPlace S} {a : Arrays S} (h : Sorts rows call a) :
    a.movies.length = rows.length ∧ a.pts.length = rows.length := by
  cases h with
  | entered h => exact ⟨h.length, by rw [h.pts, List.length_map]⟩
  | looping h =>
    exact ⟨h.length.trans (length_selectLoop _ _), by
      rw [h.pts, List.length_map, length_selectLoop]⟩
  | scanning h =>
    exact ⟨h.length.trans (length_selectLoop _ _), by
      rw [h.pts, List.length_map, length_selectLoop]⟩
  | returned h =>
    have hsel : ((select rows).map withKey).length = rows.length := by
      rw [List.length_map, (select_perm rows).length_eq]
    exact ⟨h.length.trans hsel, by rw [h.pts, List.length_map, hsel]⟩

/-- New strings on the heap do not disturb a call of `sort`. -/
theorem Sorts.extend {call : SortPlace S} {a : Arrays S} (h : Sorts rows call a)
    (hext : a.mem.Ext mem') : Sorts rows call { a with mem := mem' } := by
  cases h with
  | entered h => exact .entered (h.ext hext)
  | looping h hi => exact .looping (h.extend hext) hi
  | @scanning _ mem₀ start i h hstart hle hi =>
    have hstrs : a.movies.map mem'.str = a.movies.map a.mem.str :=
      List.map_congr_left fun p hp => hext.str (h.valid p hp)
    have hsame : scanned { a with mem := mem' } start i = scanned a start i := by
      simp only [scanned, hstrs]
    rw [← hsame]
    exact .scanning (h.extend hext) hstart hle hi
  | returned h => exact .returned (h.ext hext)

/-- The turn of the loop of `sort` after its `argmax`. -/
theorem sortStep_eq (a : Arrays S) (i : ℕ) : sortStep (a.mem, a.movies, a.pts) i =
    if 0 ≤ (scanned a i a.movies.length).2 ∧ (scanned a i a.movies.length).1 < a.movies.length
    then (secretAt a.mem (swapAt a.movies i (scanned a i a.movies.length).1) i).map
      fun r => (r.1, r.2, swapAt a.pts i (scanned a i a.movies.length).1)
    else none := by
  have hargmax : argmax a.pts (a.movies.map a.mem.str) i a.movies.length =
      if 0 ≤ (scanned a i a.movies.length).2 then some (scanned a i a.movies.length).1
      else none := rfl
  simp only [sortStep, hargmax]
  by_cases hpos : 0 ≤ (scanned a i a.movies.length).2
  · by_cases hlt : (scanned a i a.movies.length).1 < a.movies.length
    · simp only [hpos, hlt, if_true, and_self, Option.bind_eq_bind, Option.bind_some]
      cases secretAt a.mem (swapAt a.movies i (scanned a i a.movies.length).1) i <;> rfl
    · simp [hpos, hlt]
  · simp [hpos]

/-- A call of `sort` that has not returned takes its next step : no assertion fails and no index
is out of range. -/
theorem Sorts.step {num_of_movies : ℕ} {call : SortPlace S} {a : Arrays S} (h : Sorts rows call a)
    (hshort : Short rows) (hpos : NonNeg rows) (hne : rows ≠ [])
    (hnum : rows.length ≤ num_of_movies) (hcall : call ≠ .returned) :
    ∃ call' a', call.step num_of_movies a = some (call', a') ∧ Sorts rows call' a' ∧
      a.mem.Ext a'.mem ∧ call'.left rows.length < call.left rows.length := by
  have hlen := h.length.1
  have hrows : 0 < rows.length := List.length_pos_iff.2 hne
  cases h with
  | entered h =>
    refine ⟨.looping 0, a, if_pos (hlen ▸ hnum), @Sorts.looping _ _ _ _ a.mem 0 ?_ hrows,
      .refl _, ?_⟩
    · exact ⟨.refl _, h.valid, fun i hi => absurd hi (Nat.not_lt_zero i),
        h.strs.trans (partly_zero rows).symm, h.pts⟩
    · simp [SortPlace.left]
  | @looping _ mem₀ i h hi =>
    by_cases hlast : i + 1 < rows.length
    · refine ⟨.scanning i i (i, Score.minusOne), a, if_pos (hlen ▸ hlast), ?_, .refl _, ?_⟩
      · have hscan : scanned a i i = (i, Score.minusOne) := by
          simp [scanned]
        rw [← hscan]
        exact .scanning h hlast le_rfl hi.le
      · obtain ⟨k, hk⟩ : ∃ k, rows.length = i + (k + 1) := ⟨rows.length - i - 1, by omega⟩
        have h1 : rows.length - i = k + 1 := by omega
        simp only [SortPlace.left, h1, Nat.add_sub_cancel, Nat.succ_mul]
        omega
    · have heq : i = rows.length - 1 := by omega
      obtain ⟨mem', movies', hsecret, h'⟩ := h.secretAt
        (fun r hr => hshort r ((selectLoop_perm rows i).mem_iff.1 hr))
        (by rwa [length_selectLoop])
      rw [← hlen] at heq
      refine ⟨.returned, ⟨mem', movies', a.pts⟩, ?_, .returned ?_, Mem.ext_secretAt hsecret, ?_⟩
      · simp only [SortPlace.step, hlen, if_neg hlast]
        rw [← hlen, ← heq, hsecret]
        rfl
      · have hsel : selectLoop rows i = select rows := by
          rw [heq, hlen]
          rfl
        have hfull : i + 1 = (select rows).length := by
          rw [(select_perm rows).length_eq]
          omega
        rw [hsel, hfull] at h'
        exact h'.holds
      · simp [SortPlace.left]
  | @scanning _ mem₀ start i h hstart hle hi =>
    by_cases hlast : i < rows.length
    · refine ⟨.scanning start (i + 1) (scanned a start (i + 1)), a, ?_,
        .scanning h hstart (by omega) hlast, .refl _, ?_⟩
      · simp only [SortPlace.step, hlen, if_pos hlast, scanned_succ a hle]
      · simp only [SortPlace.left]
        omega
    · obtain rfl : i = rows.length := by omega
      obtain ⟨mem', movies', pts', hrun, h'⟩ := h.step
        (fun r hr => hshort r ((selectLoop_perm rows start).mem_iff.1 hr))
        (hpos.perm (selectLoop_perm rows start)) (by rw [length_selectLoop]; omega)
      rw [sortStep_eq, hlen] at hrun
      obtain ⟨hidx, hrun⟩ := Option.ite_none_right_eq_some.1 hrun
      obtain ⟨⟨mem₁, movies₁⟩, hsecret, heq⟩ := Option.map_eq_some_iff.1 hrun
      obtain ⟨rfl, rfl, rfl⟩ : mem₁ = mem' ∧ movies₁ = movies' ∧ _ = pts' := by
        simpa using heq
      refine ⟨.looping (start + 1),
        ⟨mem₁, movies₁, swapAt a.pts start (scanned a start rows.length).1⟩, ?_,
        @Sorts.looping _ _ _ _ mem₀ _ ?_ hstart, Mem.ext_secretAt hsecret, ?_⟩
      · simp only [SortPlace.step, hlen, lt_irrefl, if_false, if_pos hidx, hsecret]
        rfl
      · rw [selectLoop_succ]
        exact h'
      · simp only [SortPlace.left]
        have h1 : rows.length - (start + 1) = rows.length - start - 1 := by omega
        rw [h1]
        omega
  | returned => exact absurd rfl hcall

end Sorts

/-! ## During `mergeSort` -/

section Working

variable {S : Type} [Score S] {mem' : Mem} {rows : List (Bytes × S)} {levels num_of_movies : ℕ}

/-- The rows of a half before it is merged. -/
def halfRank : ℕ → List (Bytes × S) → List (Bytes × S)
  | 0, rows => (select rows).map withKey
  | levels + 1, rows => rankTree levels rows

theorem rankTree_eq (levels : ℕ) (rows : List (Bytes × S)) : rankTree levels rows =
    mergeBy betterRow (halfRank levels (rowsOf rows .first))
      (halfRank levels (rowsOf rows .second)) := by
  cases levels <;> rfl

theorem length_halfRank (levels : ℕ) (rows : List (Bytes × S)) :
    (halfRank levels rows).length = rows.length := by
  cases levels with
  | zero => exact (List.length_map _).trans (select_perm rows).length_eq
  | succ levels => exact length_rankTree levels rows

/-- What a thread with `levels` levels below is given. -/
structure Given (num_of_movies levels : ℕ) (rows : List (Bytes × S)) : Prop where
  short : Short rows
  nonneg : NonNeg rows
  enough : 2 ^ (levels + 1) ≤ rows.length
  num : rows.length ≤ num_of_movies

theorem Given.half (h : Given num_of_movies (levels + 1) rows) (half : Half) :
    Given num_of_movies levels (rowsOf rows half) := by
  obtain ⟨hl, hr, -⟩ := halves_length h.enough
  have hnum := h.num
  cases half with
  | first =>
    refine ⟨h.short.take _, h.nonneg.take _, hl, ?_⟩
    rw [rowsOf, List.length_take]
    omega
  | second =>
    refine ⟨h.short.drop _, h.nonneg.drop _, hr, ?_⟩
    rw [rowsOf, List.length_drop]
    omega

/-- The argument of a thread fits the rows it is given. -/
structure Input.For (input : Input) (levels : ℕ) (rows : List (Bytes × S)) : Prop where
  len : input.len = rows.length
  depth : input.depth + levels + 1 = Recommendation.depth

/-- What the arrays hold while a thread and the ones below it are at work on these rows. -/
inductive Working : ℕ → List (Bytes × S) → Thread S → Arrays S → Prop
  | entry {levels : ℕ} {rows : List (Bytes × S)} {a : Arrays S} {input : Input}
      (hin : input.For levels rows) (h : a.Hold rows) : Working levels rows (.entry input) a
  | sortFirst {rows : List (Bytes × S)} {a : Arrays S} {input : Input} {call : SortPlace S}
      (hin : input.For 0 rows)
      (h₁ : Sorts (rowsOf rows .first) call (a.half (rows.length / 2) .first))
      (h₂ : (a.half (rows.length / 2) .second).Hold (rowsOf rows .second)) :
      Working 0 rows (.sorting input .first call) a
  | sortSecond {rows : List (Bytes × S)} {a : Arrays S} {input : Input} {call : SortPlace S}
      (hin : input.For 0 rows)
      (h₁ : (a.half (rows.length / 2) .first).Hold (halfRank 0 (rowsOf rows .first)))
      (h₂ : Sorts (rowsOf rows .second) call (a.half (rows.length / 2) .second)) :
      Working 0 rows (.sorting input .second call) a
  | created {levels : ℕ} {rows : List (Bytes × S)} {a : Arrays S} {input : Input}
      {tid1 : Thread S} (hin : input.For (levels + 1) rows)
      (h₁ : Working levels (rowsOf rows .first) tid1 (a.half (rows.length / 2) .first))
      (h₂ : (a.half (rows.length / 2) .second).Hold (rowsOf rows .second)) :
      Working (levels + 1) rows (.created input tid1) a
  | joining {levels : ℕ} {rows : List (Bytes × S)} {a : Arrays S} {input : Input}
      {tid1 tid2 : Thread S} (hin : input.For (levels + 1) rows)
      (h₁ : Working levels (rowsOf rows .first) tid1 (a.half (rows.length / 2) .first))
      (h₂ : Working levels (rowsOf rows .second) tid2 (a.half (rows.length / 2) .second)) :
      Working (levels + 1) rows (.joining input tid1 tid2) a
  | merging {levels : ℕ} {rows done : List (Bytes × S)} {a : Arrays S} {input : Input}
      {key1 key2 : ℕ} {tmp : List (Ptr × S)} (hin : input.For levels rows)
      (h₁ : (a.half (rows.length / 2) .first).Hold (halfRank levels (rowsOf rows .first)))
      (h₂ : (a.half (rows.length / 2) .second).Hold (halfRank levels (rowsOf rows .second)))
      (htmp : Holds a.mem (tmp.map Prod.fst) (tmp.map Prod.snd) done)
      (hmerge : done ++ mergeBy betterRow ((halfRank levels (rowsOf rows .first)).drop key1)
        ((halfRank levels (rowsOf rows .second)).drop key2) = rankTree levels rows) :
      Working levels rows (.merging input key1 (rows.length / 2 + key2) tmp) a
  | copying {levels : ℕ} {rows : List (Bytes × S)} {a : Arrays S} {input : Input} {i : ℕ}
      {tmp : List (Ptr × S)} (hin : input.For levels rows)
      (hmovies : a.movies.length = rows.length) (hpts : a.pts.length = rows.length)
      (htmp : Holds a.mem (tmp.map Prod.fst) (tmp.map Prod.snd) (rankTree levels rows))
      (hi : i ≤ rows.length) (hmovies' : a.movies.take i = (tmp.map Prod.fst).take i)
      (hpts' : a.pts.take i = (tmp.map Prod.snd).take i) :
      Working levels rows (.copying input i tmp) a
  | exited {levels : ℕ} {rows : List (Bytes × S)} {a : Arrays S}
      (h : a.Hold (rankTree levels rows)) : Working levels rows .exited a

/-- The steps that are left of the merge and the copying back, or more. -/
def mergeCost (len : ℕ) : ℕ :=
  2 * len + 4

/-- The steps of a call of `sort`, or more. -/
def sortCost (size : ℕ) : ℕ :=
  size * (size + 3) + 2

/-- The steps of `mergeSort`, with `levels` levels below, or more. -/
def mergeSortCost : ℕ → ℕ → ℕ
  | 0, len => sortCost (len / 2) + sortCost (len - len / 2) + mergeCost len + 3
  | levels + 1, len =>
    mergeSortCost levels (len / 2) + mergeSortCost levels (len - len / 2) + mergeCost len + 3

/-- The steps that are left of a thread and the ones below it, or more. -/
def Thread.left : Thread S → ℕ
  | .entry input => mergeSortCost (depth - 1 - input.depth) input.len
  | .sorting input .first call =>
    call.left (input.len / 2) + sortCost (input.len - input.len / 2) + mergeCost input.len + 2
  | .sorting input .second call =>
    call.left (input.len - input.len / 2) + mergeCost input.len + 1
  | .created input tid1 => tid1.left +
    mergeSortCost (depth - 1 - (input.depth + 1)) (input.len - input.len / 2) +
      mergeCost input.len + 2
  | .joining input tid1 tid2 => tid1.left + tid2.left + mergeCost input.len + 1
  | .merging input key1 key2 _ => (input.len / 2 - key1) + (input.len - key2) + input.len + 3
  | .copying input i _ => input.len - i + 1
  | .exited => 0

omit [Score S] in
theorem Arrays.Hold.lengths {a : Arrays S} (h : a.Hold rows) :
    a.movies.length = rows.length ∧ a.pts.length = rows.length :=
  ⟨h.length, by rw [h.pts, List.length_map]⟩

omit [Score S] in
theorem length_rowsOf (rows : List (Bytes × S)) : (rowsOf rows .first).length = rows.length / 2 ∧
    (rowsOf rows .second).length = rows.length - rows.length / 2 := by
  rw [rowsOf, rowsOf, List.length_take, List.length_drop]
  omega

omit [Score S] in
/-- Both halves of the arrays are full. -/
theorem Arrays.length_of_halves {a : Arrays S} {n₁ n₂ : ℕ}
    (h₁ : (a.half (rows.length / 2) .first).movies.length = n₁ ∧
      (a.half (rows.length / 2) .first).pts.length = n₁)
    (h₂ : (a.half (rows.length / 2) .second).movies.length = n₂ ∧
      (a.half (rows.length / 2) .second).pts.length = n₂)
    (hn₁ : n₁ = rows.length / 2) (hn₂ : n₂ = rows.length - rows.length / 2) :
    a.movies.length = rows.length ∧ a.pts.length = rows.length := by
  simp only [Arrays.half, List.length_take, List.length_drop] at h₁ h₂
  omega

theorem Working.length {t : Thread S} {a : Arrays S} (h : Working levels rows t a) :
    a.movies.length = rows.length ∧ a.pts.length = rows.length := by
  induction h with
  | entry hin h => exact h.lengths
  | sortFirst hin h₁ h₂ =>
    exact Arrays.length_of_halves h₁.length h₂.lengths (length_rowsOf _).1 (length_rowsOf _).2
  | sortSecond hin h₁ h₂ =>
    exact Arrays.length_of_halves h₁.lengths h₂.length
      ((length_halfRank _ _).trans (length_rowsOf _).1) (length_rowsOf _).2
  | created hin h₁ h₂ ih =>
    exact Arrays.length_of_halves ih h₂.lengths (length_rowsOf _).1 (length_rowsOf _).2
  | joining hin h₁ h₂ ih₁ ih₂ =>
    exact Arrays.length_of_halves ih₁ ih₂ (length_rowsOf _).1 (length_rowsOf _).2
  | merging hin h₁ h₂ htmp hmerge =>
    exact Arrays.length_of_halves h₁.lengths h₂.lengths
      ((length_halfRank _ _).trans (length_rowsOf _).1)
      ((length_halfRank _ _).trans (length_rowsOf _).2)
  | copying hin hmovies hpts => exact ⟨hmovies, hpts⟩
  | exited h =>
    have h' := h.lengths
    rwa [length_rankTree] at h'

/-- New strings on the heap do not disturb the threads. -/
theorem Working.extend {t : Thread S} {a : Arrays S} (h : Working levels rows t a) :
    ∀ {mem' : Mem}, a.mem.Ext mem' → Working levels rows t { a with mem := mem' } := by
  induction h with
  | entry hin h => exact fun hext => .entry hin (h.ext hext)
  | sortFirst hin h₁ h₂ => exact fun hext => .sortFirst hin (h₁.extend hext) (h₂.ext hext)
  | sortSecond hin h₁ h₂ => exact fun hext => .sortSecond hin (h₁.ext hext) (h₂.extend hext)
  | created hin h₁ h₂ ih => exact fun hext => .created hin (ih hext) (h₂.ext hext)
  | joining hin h₁ h₂ ih₁ ih₂ => exact fun hext => .joining hin (ih₁ hext) (ih₂ hext)
  | merging hin h₁ h₂ htmp hmerge =>
    exact fun hext => .merging hin (h₁.ext hext) (h₂.ext hext) (htmp.ext hext) hmerge
  | copying hin hmovies hpts htmp hi hmovies' hpts' =>
    exact fun hext => .copying hin hmovies hpts (htmp.ext hext) hi hmovies' hpts'
  | exited h => exact fun hext => .exited (h.ext hext)

/-! ## A step -/

omit [Score S] in
/-- A step in the first half, seen from both halves. -/
theorem Arrays.half_withHalf_first {a b : Arrays S} {mid : ℕ}
    (hb : b.movies.length = mid ∧ b.pts.length = mid) :
    (a.withHalf mid b .first).half mid .first = b ∧
      (a.withHalf mid b .first).half mid .second = { a.half mid .second with mem := b.mem } := by
  simp only [Arrays.withHalf, Arrays.half, List.take_left' hb.1, List.take_left' hb.2,
    List.drop_left' hb.1, List.drop_left' hb.2, and_self]

omit [Score S] in
/-- A step in the second half, seen from both halves. -/
theorem Arrays.half_withHalf_second {a b : Arrays S} {mid : ℕ}
    (ha : mid ≤ a.movies.length ∧ mid ≤ a.pts.length) :
    (a.withHalf mid b .second).half mid .first = { a.half mid .first with mem := b.mem } ∧
      (a.withHalf mid b .second).half mid .second = b := by
  have hm : (a.movies.take mid).length = mid := List.length_take_of_le ha.1
  have hp : (a.pts.take mid).length = mid := List.length_take_of_le ha.2
  simp only [Arrays.withHalf, Arrays.half, List.take_left' hm, List.take_left' hp,
    List.drop_left' hm, List.drop_left' hp, and_self]

omit [Score S] in
theorem Arrays.entry_first {a : Arrays S} {mid i : ℕ} (hi : i < mid) :
    a.entry i = (a.half mid .first).entry i := by
  simp only [Arrays.entry, Arrays.half, List.getElem?_take_of_lt hi]

omit [Score S] in
theorem Arrays.entry_second (a : Arrays S) (mid i : ℕ) :
    a.entry (mid + i) = (a.half mid .second).entry i := by
  simp only [Arrays.entry, Arrays.half, List.getElem?_drop]

omit [Score S] in
/-- The entry of a row. -/
theorem Arrays.Hold.entry {a : Arrays S} (h : a.Hold rows) {i : ℕ} (hi : i < rows.length) :
    ∃ x, a.entry i = some x ∧ a.mem.Valid x.1 ∧ (a.mem.str x.1, x.2) = rows[i] := by
  have hm : i < a.movies.length := h.length.symm ▸ hi
  have hp : i < a.pts.length := h.lengths.2.symm ▸ hi
  refine ⟨(a.movies[i], a.pts[i]), ?_, h.valid _ (List.getElem_mem hm), ?_⟩
  · simp [Arrays.entry, List.getElem?_eq_getElem hm, List.getElem?_eq_getElem hp]
  · have hstr : (a.movies.map a.mem.str)[i]? = (rows.map Prod.fst)[i]? := by rw [h.strs]
    have hpts : a.pts[i]? = (rows.map Prod.snd)[i]? := by rw [h.pts]
    simp only [List.getElem?_map, List.getElem?_eq_getElem hm, List.getElem?_eq_getElem hp,
      List.getElem?_eq_getElem hi, Option.map_some, Option.some.injEq] at hstr hpts
    exact Prod.ext hstr hpts

omit [Score S] in
/-- One more row in `tmp_movies` and `tmp_pts`. -/
theorem Holds.concat {mem : Mem} {tmp : List (Ptr × S)} {x : Ptr × S} {r : Bytes × S}
    (h : Holds mem (tmp.map Prod.fst) (tmp.map Prod.snd) rows) (hx : mem.Valid x.1)
    (hr : (mem.str x.1, x.2) = r) :
    Holds mem ((tmp ++ [x]).map Prod.fst) ((tmp ++ [x]).map Prod.snd) (rows ++ [r]) := by
  subst hr
  rw [List.map_append, List.map_append]
  refine h.append ⟨fun p hp => ?_, rfl, rfl⟩
  obtain rfl := List.mem_singleton.1 hp
  exact hx

theorem mergeBy_nil_right {α : Type*} (r : α → α → Prop) [DecidableRel r] (xs : List α) :
    mergeBy r xs [] = xs := by
  cases xs <;> simp [mergeBy]

/-- The merge loops go on until they have merged all rows. -/
theorem Working.mergeStep {a : Arrays S} {input : Input} {key1 key2 : ℕ} {tmp : List (Ptr × S)}
    {done : List (Bytes × S)} (hin : input.For levels rows)
    (h₁ : (a.half (rows.length / 2) .first).Hold (halfRank levels (rowsOf rows .first)))
    (h₂ : (a.half (rows.length / 2) .second).Hold (halfRank levels (rowsOf rows .second)))
    (htmp : Holds a.mem (tmp.map Prod.fst) (tmp.map Prod.snd) done)
    (hmerge : done ++ mergeBy betterRow ((halfRank levels (rowsOf rows .first)).drop key1)
      ((halfRank levels (rowsOf rows .second)).drop key2) = rankTree levels rows) :
    ∃ t', Recommendation.mergeStep a input key1 (rows.length / 2 + key2) tmp = some t' ∧
      Working levels rows t' a ∧
      t'.left < (Thread.merging input key1 (rows.length / 2 + key2) tmp).left := by
  have hlen₁ : (halfRank levels (rowsOf rows .first)).length = rows.length / 2 :=
    (length_halfRank _ _).trans (length_rowsOf rows).1
  have hlen₂ : (halfRank levels (rowsOf rows .second)).length = rows.length - rows.length / 2 :=
    (length_halfRank _ _).trans (length_rowsOf rows).2
  have hlen := Arrays.length_of_halves h₁.lengths h₂.lengths hlen₁ hlen₂
  generalize hL : halfRank levels (rowsOf rows .first) = L at h₁ hmerge hlen₁
  generalize hR : halfRank levels (rowsOf rows .second) = R at h₂ hmerge hlen₂
  have hmore : ∀ {x : Ptr × S} {r : Bytes × S} {m n : ℕ}, a.mem.Valid x.1 →
      (a.mem.str x.1, x.2) = r →
      (done ++ [r]) ++ mergeBy betterRow (L.drop m) (R.drop n) = rankTree levels rows →
      Working levels rows (.merging input m (rows.length / 2 + n) (tmp ++ [x])) a :=
    fun hx hr hmerge' => .merging hin (hL ▸ h₁) (hR ▸ h₂) (htmp.concat hx hr)
      (by rw [hL, hR]; exact hmerge')
  unfold Recommendation.mergeStep
  simp only [hin.len]
  by_cases hk₁ : key1 < rows.length / 2 <;> by_cases hk₂ : key2 < rows.length - rows.length / 2
  · -- both halves have a next row
    have hk₁' : key1 < L.length := by omega
    have hk₂' : key2 < R.length := by omega
    obtain ⟨x, hx, hvx, hrx⟩ := h₁.entry hk₁'
    obtain ⟨y, hy, hvy, hry⟩ := h₂.entry hk₂'
    rw [← Arrays.entry_first hk₁] at hx
    rw [← Arrays.entry_second] at hy
    rw [List.drop_eq_getElem_cons hk₁', List.drop_eq_getElem_cons hk₂', mergeBy] at hmerge
    rw [if_pos ⟨hk₁, by omega⟩, hx, hy]
    simp only [Option.bind_eq_bind, Option.bind_some]
    have hiff : better a.mem.str x y ↔ betterRow L[key1] R[key2] := by
      rw [← hrx, ← hry]
      exact Iff.rfl
    by_cases hbetter : better a.mem.str x y
    · rw [if_pos (hiff.1 hbetter), ← List.drop_eq_getElem_cons hk₂'] at hmerge
      refine ⟨_, if_pos hbetter, hmore hvx hrx (by rw [← hmerge]; simp), ?_⟩
      simp only [Thread.left, hin.len]
      omega
    · rw [if_neg (mt hiff.2 hbetter), ← List.drop_eq_getElem_cons hk₁'] at hmerge
      refine ⟨_, if_neg hbetter, hmore (n := key2 + 1) hvy hry (by rw [← hmerge]; simp), ?_⟩
      simp only [Thread.left, hin.len]
      omega
  · -- only the first half has
    have hk₁' : key1 < L.length := by omega
    obtain ⟨x, hx, hvx, hrx⟩ := h₁.entry hk₁'
    rw [← Arrays.entry_first hk₁] at hx
    rw [List.drop_eq_nil_of_le (show R.length ≤ key2 by omega), mergeBy_nil_right,
      List.drop_eq_getElem_cons hk₁'] at hmerge
    rw [if_neg (by omega), if_pos hk₁, hx]
    refine ⟨_, rfl, hmore hvx hrx ?_, ?_⟩
    · rw [List.drop_eq_nil_of_le (show R.length ≤ key2 by omega), mergeBy_nil_right, ← hmerge]
      simp
    · simp only [Thread.left, hin.len]
      omega
  · -- only the second half has
    have hk₂' : key2 < R.length := by omega
    obtain ⟨y, hy, hvy, hry⟩ := h₂.entry hk₂'
    rw [← Arrays.entry_second] at hy
    rw [List.drop_eq_nil_of_le (show L.length ≤ key1 by omega), mergeBy,
      List.drop_eq_getElem_cons hk₂'] at hmerge
    rw [if_neg (by omega), if_neg hk₁, if_pos (by omega), hy]
    refine ⟨_, rfl, hmore (n := key2 + 1) hvy hry ?_, ?_⟩
    · rw [List.drop_eq_nil_of_le (show L.length ≤ key1 by omega), mergeBy, ← hmerge]
      simp
    · simp only [Thread.left, hin.len]
      omega
  · rw [List.drop_eq_nil_of_le (show L.length ≤ key1 by omega),
      List.drop_eq_nil_of_le (show R.length ≤ key2 by omega), mergeBy, List.append_nil] at hmerge
    subst hmerge
    rw [if_neg (by omega), if_neg hk₁, if_neg (by omega)]
    refine ⟨_, rfl, .copying hin hlen.1 hlen.2 htmp (Nat.zero_le _) rfl rfl, ?_⟩
    simp only [Thread.left, hin.len]
    omega

/-- One entry is copied back. -/
theorem take_succ_set {α : Type*} {l m : List α} {i : ℕ} {x : α} (h : l.take i = m.take i)
    (hi : i < l.length) (hx : m[i]? = some x) : (l.set i x).take (i + 1) = m.take (i + 1) := by
  rw [List.take_add_one, List.take_add_one, List.take_set_of_le le_rfl, h,
    List.getElem?_set_self hi, hx]

/-- The rows are copied back, and then the thread exits. -/
theorem Working.copyStep {a : Arrays S} {input : Input} {i : ℕ} {tmp : List (Ptr × S)}
    (hin : input.For levels rows) (hmovies : a.movies.length = rows.length)
    (hpts : a.pts.length = rows.length)
    (htmp : Holds a.mem (tmp.map Prod.fst) (tmp.map Prod.snd) (rankTree levels rows))
    (hi : i ≤ rows.length) (hmovies' : a.movies.take i = (tmp.map Prod.fst).take i)
    (hpts' : a.pts.take i = (tmp.map Prod.snd).take i) :
    ∃ t' a', (Thread.copying input i tmp).own num_of_movies a = some (t', a') ∧
      Working levels rows t' a' ∧ a.mem.Ext a'.mem ∧
      t'.left < (Thread.copying input i tmp).left := by
  have hlen : tmp.length = rows.length := by
    have := htmp.length
    rwa [List.length_map, length_rankTree] at this
  by_cases hlt : i < rows.length
  · have hget : tmp[i]? = some tmp[i] := List.getElem?_eq_getElem (hlen ▸ hlt)
    refine ⟨.copying input (i + 1) tmp, ⟨a.mem, a.movies.set i tmp[i].1, a.pts.set i tmp[i].2⟩, ?_,
      .copying hin ?_ ?_ htmp hlt ?_ ?_, .refl _, ?_⟩
    · simp only [Thread.own, hin.len, if_pos hlt, hget]
      rfl
    · rw [List.length_set, hmovies]
    · rw [List.length_set, hpts]
    · exact take_succ_set hmovies' (hmovies ▸ hlt) (by rw [List.getElem?_map, hget]; rfl)
    · exact take_succ_set hpts' (hpts ▸ hlt) (by rw [List.getElem?_map, hget]; rfl)
    · simp only [Thread.left, hin.len]
      omega
  · obtain rfl : i = rows.length := by omega
    rw [List.take_of_length_le hmovies.le, List.take_of_length_le (by simp [hlen])] at hmovies'
    rw [List.take_of_length_le hpts.le, List.take_of_length_le (by simp [hlen])] at hpts'
    refine ⟨.exited, a, ?_, .exited ?_, .refl _, ?_⟩
    · simp only [Thread.own, hin.len, lt_irrefl, if_false]
    · rw [Arrays.Hold, hmovies', hpts']
      exact htmp
    · simp only [Thread.left]
      omega

/-- Before the first call of `sort`, or the first `pthread_create`. -/
theorem Working.enter {a : Arrays S} {input : Input} (hg : Given num_of_movies levels rows)
    (hin : input.For levels rows) (h : a.Hold rows) :
    ∃ t' a', (Thread.entry input).own num_of_movies a = some (t', a') ∧
      Working levels rows t' a' ∧ a.mem.Ext a'.mem ∧
      t'.left < (Thread.entry input : Thread S).left := by
  have hdepth := hin.depth
  have hleft : depth - 1 - input.depth = levels := by omega
  cases levels with
  | zero =>
    refine ⟨.sorting input .first .entered, a, if_pos (by omega),
      .sortFirst hin (.entered (h.take _)) (h.drop _), .refl _, ?_⟩
    simp only [Thread.left, hleft, mergeSortCost, SortPlace.left, sortCost]
    omega
  | succ levels =>
    refine ⟨.created input (.entry ⟨input.len / 2, input.depth + 1⟩), a, if_neg (by omega),
      .created hin (.entry ⟨?_, ?_⟩ (h.take _)) (h.drop _), .refl _, ?_⟩
    · rw [hin.len, (length_rowsOf rows).1]
    · show input.depth + 1 + levels + 1 = depth
      omega
    · have hleft' : depth - 1 - (input.depth + 1) = levels := by omega
      simp only [Thread.left, hleft, hleft', mergeSortCost]
      omega

omit [Score S] in
theorem Thread.done_iff {t : Thread S} : t.done = true ↔ t = .exited := by
  cases t <;> simp [Thread.done]

theorem Working.rows_exited {a : Arrays S} (h : Working levels rows .exited a) :
    a.Hold (rankTree levels rows) := by
  cases h with
  | exited h => exact h

/-- Before the merge loops. -/
theorem Working.merges {a : Arrays S} {input : Input} (hin : input.For levels rows)
    (h₁ : (a.half (rows.length / 2) .first).Hold (halfRank levels (rowsOf rows .first)))
    (h₂ : (a.half (rows.length / 2) .second).Hold (halfRank levels (rowsOf rows .second))) :
    Working levels rows (.merging input 0 (input.len / 2) []) a := by
  have hempty : Holds a.mem (([] : List (Ptr × S)).map Prod.fst)
      (([] : List (Ptr × S)).map Prod.snd) [] := ⟨fun p hp => absurd hp List.not_mem_nil, rfl, rfl⟩
  rw [hin.len]
  exact @Working.merging _ _ _ _ _ _ _ 0 0 _ hin h₁ h₂ hempty (rankTree_eq levels rows).symm

/-- A thread that can go on takes its next step : no assertion fails and no index is out of
range. What the others work on stays, but for new strings on the heap. -/
theorem Working.step {t : Thread S} {a : Arrays S} (h : Working levels rows t a) :
    ∀ {name : List Half}, Given num_of_movies levels rows → t.ready name = true →
    ∃ t' a', t.step num_of_movies name a = some (t', a') ∧ Working levels rows t' a' ∧
      a.mem.Ext a'.mem ∧ t'.left < t.left := by
  induction h with
  | entry hin h =>
    intro name hg hready
    cases name with
    | nil => exact Working.enter hg hin h
    | cons half name => cases half <;> cases hready
  | @sortFirst rows a input call hin h₁ h₂ =>
    intro name hg hready
    cases name with
    | cons half name => cases half <;> cases hready
    | nil =>
    obtain ⟨hl, hr, hmid⟩ := halves_length hg.enough
    have hnum := hg.num
    by_cases hcall : call = .returned
    · subst hcall
      cases h₁ with
      | returned h₁ =>
      refine ⟨.sorting input .second .entered, a, rfl, .sortSecond hin h₁ (.entered h₂), .refl _,
        ?_⟩
      simp only [Thread.left, SortPlace.left, sortCost, hin.len]
      omega
    · have hsize : (rowsOf rows .first).length ≤ num_of_movies := by
        rw [rowsOf, hmid]
        omega
      obtain ⟨call', b, hstep, h₁', hext, hlt⟩ := h₁.step (hg.short.take _) (hg.nonneg.take _)
        (List.length_pos_iff.1 hl) hsize hcall
      obtain ⟨hfirst, hsecond⟩ := Arrays.half_withHalf_first (a := a)
        ⟨h₁'.length.1.trans (length_rowsOf rows).1, h₁'.length.2.trans (length_rowsOf rows).1⟩
      refine ⟨.sorting input .first call', a.withHalf (rows.length / 2) b .first, ?_,
        .sortFirst hin (hfirst.symm ▸ h₁') (hsecond.symm ▸ h₂.ext hext), hext, ?_⟩
      · cases call with
        | returned => exact absurd rfl hcall
        | _ => simp only [Thread.step, Thread.own, hin.len, hstep]; rfl
      · rw [(length_rowsOf rows).1] at hlt
        simp only [Thread.left, hin.len]
        omega
  | @sortSecond rows a input call hin h₁ h₂ =>
    intro name hg hready
    cases name with
    | cons half name => cases half <;> cases hready
    | nil =>
    obtain ⟨hl, hr, hmid⟩ := halves_length hg.enough
    have hnum := hg.num
    have hlen := Arrays.length_of_halves h₁.lengths h₂.length
      ((length_halfRank _ _).trans (length_rowsOf _).1) (length_rowsOf _).2
    by_cases hcall : call = .returned
    · subst hcall
      cases h₂ with
      | returned h₂ =>
      refine ⟨.merging input 0 (input.len / 2) [], a, rfl, .merges hin h₁ h₂, .refl _, ?_⟩
      · simp only [Thread.left, SortPlace.left, mergeCost]
        omega
    · have hsize : (rowsOf rows .second).length ≤ num_of_movies := by
        rw [(length_rowsOf rows).2]
        omega
      obtain ⟨call', b, hstep, h₂', hext, hlt⟩ := h₂.step (hg.short.drop _) (hg.nonneg.drop _)
        (List.length_pos_iff.1 hr) hsize hcall
      obtain ⟨hfirst, hsecond⟩ := Arrays.half_withHalf_second (a := a) (b := b)
        (show rows.length / 2 ≤ a.movies.length ∧ rows.length / 2 ≤ a.pts.length by omega)
      refine ⟨.sorting input .second call', a.withHalf (rows.length / 2) b .second, ?_,
        .sortSecond hin (hfirst.symm ▸ h₁.ext hext) (hsecond.symm ▸ h₂'), hext, ?_⟩
      · cases call with
        | returned => exact absurd rfl hcall
        | _ => simp only [Thread.step, Thread.own, hin.len, hstep]; rfl
      · rw [(length_rowsOf rows).2] at hlt
        simp only [Thread.left, hin.len]
        omega
  | @created levels rows a input tid1 hin h₁ h₂ ih =>
    intro name hg hready
    match name, hready with
    | [], _ =>
      refine ⟨.joining input tid1 (.entry ⟨input.len - input.len / 2, input.depth + 1⟩), a, rfl,
        .joining hin h₁ (.entry ⟨?_, ?_⟩ h₂), .refl _, ?_⟩
      · rw [hin.len, (length_rowsOf rows).2]
      · have hdepth := hin.depth
        show input.depth + 1 + levels + 1 = depth
        omega
      · simp only [Thread.left]
        omega
    | .first :: name, hready =>
      obtain ⟨tid1', b, hstep, h₁', hext, hlt⟩ := ih (hg.half .first) hready
      obtain ⟨hfirst, hsecond⟩ := Arrays.half_withHalf_first (a := a)
        ⟨h₁'.length.1.trans (length_rowsOf rows).1, h₁'.length.2.trans (length_rowsOf rows).1⟩
      refine ⟨.created input tid1', a.withHalf (rows.length / 2) b .first, ?_,
        .created hin (hfirst.symm ▸ h₁') (hsecond.symm ▸ h₂.ext hext), hext, ?_⟩
      · simp only [Thread.step, hin.len, hstep]
        rfl
      · simp only [Thread.left]
        omega
  | @joining levels rows a input tid1 tid2 hin h₁ h₂ ih₁ ih₂ =>
    intro name hg hready
    have hlen := Arrays.length_of_halves h₁.length h₂.length (length_rowsOf _).1 (length_rowsOf _).2
    match name, hready with
    | [], hready =>
      obtain ⟨hdone₁, hdone₂⟩ := Bool.and_eq_true_iff.1 hready
      obtain rfl := Thread.done_iff.1 hdone₁
      obtain rfl := Thread.done_iff.1 hdone₂
      refine ⟨.merging input 0 (input.len / 2) [], a, rfl,
        .merges hin h₁.rows_exited h₂.rows_exited, .refl _, ?_⟩
      simp only [Thread.left, mergeCost]
      omega
    | .first :: name, hready =>
      obtain ⟨tid1', b, hstep, h₁', hext, hlt⟩ := ih₁ (hg.half .first) hready
      obtain ⟨hfirst, hsecond⟩ := Arrays.half_withHalf_first (a := a)
        ⟨h₁'.length.1.trans (length_rowsOf rows).1, h₁'.length.2.trans (length_rowsOf rows).1⟩
      refine ⟨.joining input tid1' tid2, a.withHalf (rows.length / 2) b .first, ?_,
        .joining hin (hfirst.symm ▸ h₁') (hsecond.symm ▸ h₂.extend hext), hext, ?_⟩
      · simp only [Thread.step, hin.len, hstep]
        rfl
      · simp only [Thread.left]
        omega
    | .second :: name, hready =>
      obtain ⟨tid2', b, hstep, h₂', hext, hlt⟩ := ih₂ (hg.half .second) hready
      obtain ⟨hfirst, hsecond⟩ := Arrays.half_withHalf_second (a := a) (b := b)
        (show rows.length / 2 ≤ a.movies.length ∧ rows.length / 2 ≤ a.pts.length by omega)
      refine ⟨.joining input tid1 tid2', a.withHalf (rows.length / 2) b .second, ?_,
        .joining hin (hfirst.symm ▸ h₁.extend hext) (hsecond.symm ▸ h₂'), hext, ?_⟩
      · simp only [Thread.step, hin.len, hstep]
        rfl
      · simp only [Thread.left]
        omega
  | merging hin h₁ h₂ htmp hmerge =>
    intro name hg hready
    cases name with
    | cons half name => cases half <;> cases hready
    | nil =>
    obtain ⟨t', hstep, h', hlt⟩ := Working.mergeStep hin h₁ h₂ htmp hmerge
    exact ⟨t', _, by simp only [Thread.step, Thread.own, hstep]; rfl, h', .refl _, hlt⟩
  | copying hin hmovies hpts htmp hi hmovies' hpts' =>
    intro name hg hready
    cases name with
    | cons half name => cases half <;> cases hready
    | nil => exact Working.copyStep hin hmovies hpts htmp hi hmovies' hpts'
  | exited h =>
    intro name hg hready
    cases name with
    | cons half name => cases half <;> cases hready
    | nil => cases hready

/-! ## Whole runs -/

omit [Score S] in
/-- As long as the first thread has not exited, some thread can go on : not all of them are in
`pthread_join`. -/
theorem Thread.exists_ready : ∀ {t : Thread S}, t.done = false → ∃ name, t.ready name = true
  | .entry _, _ => ⟨[], rfl⟩
  | .sorting _ _ _, _ => ⟨[], rfl⟩
  | .created _ _, _ => ⟨[], rfl⟩
  | .joining _ tid1 tid2, _ => by
    cases h₁ : tid1.done with
    | false =>
      obtain ⟨name, hname⟩ := tid1.exists_ready h₁
      exact ⟨.first :: name, hname⟩
    | true =>
      cases h₂ : tid2.done with
      | false =>
        obtain ⟨name, hname⟩ := tid2.exists_ready h₂
        exact ⟨.second :: name, hname⟩
      | true => exact ⟨[], Bool.and_eq_true_iff.2 ⟨h₁, h₂⟩⟩
  | .merging _ _ _ _, _ => ⟨[], rfl⟩
  | .copying _ _ _, _ => ⟨[], rfl⟩
  | .exited, h => by cases h

/-- Only a thread that can go on takes a step. -/
theorem Thread.ready_of_step {t : Thread S} : ∀ {name : List Half} {a : Arrays S}
    {r : Thread S × Arrays S}, t.step num_of_movies name a = some r → t.ready name = true := by
  induction t with
  | joining input tid1 tid2 ih₁ ih₂ =>
    intro name a r hstep
    match name, hstep with
    | [], hstep =>
      obtain ⟨hdone, -⟩ := Option.ite_none_right_eq_some.1 hstep
      exact Bool.and_eq_true_iff.2 hdone
    | .first :: name, hstep =>
      obtain ⟨r', hstep', -⟩ := Option.bind_eq_some_iff.1 hstep
      exact ih₁ hstep'
    | .second :: name, hstep =>
      obtain ⟨r', hstep', -⟩ := Option.bind_eq_some_iff.1 hstep
      exact ih₂ hstep'
  | created input tid1 ih =>
    intro name a r hstep
    match name, hstep with
    | [], _ => rfl
    | .first :: name, hstep =>
      obtain ⟨r', hstep', -⟩ := Option.bind_eq_some_iff.1 hstep
      exact ih hstep'
  | exited =>
    intro name a r hstep
    cases name with
    | nil => cases hstep
    | cons half name => cases half <;> cases hstep
  | _ =>
    intro name a r hstep
    cases name with
    | nil => rfl
    | cons half name => cases half <;> cases hstep

/-- The state in which the first thread has been created for these arrays. -/
def Arrays.fork (a : Arrays S) : Thread S × Arrays S :=
  (.entry ⟨a.movies.length, 0⟩, a)

/-- Every order of steps brings the threads to the same end : they take a bounded number of
steps, no step fails, as long as the first thread has not exited some thread can go on, and
when it has, the arrays hold the strings and scores of `result`. -/
structure Agree (num_of_movies : ℕ) (a result : Arrays S) : Prop where
  bounded : ∀ es s, (threads num_of_movies a.fork).run es a.fork = some s →
    es.length ≤ mergeSortCost (depth - 1) a.movies.length
  safe : ∀ s, (threads num_of_movies a.fork).Reachable s → ∀ name, s.1.ready name = true →
    ∃ s', (threads num_of_movies a.fork).step name s = some s'
  live : ∀ s, (threads num_of_movies a.fork).Reachable s → s.1.done = true ∨
    ∃ name, s.1.ready name = true
  result : ∀ s, (threads num_of_movies a.fork).Reachable s → s.1.done = true →
    s.2.movies.map s.2.mem.str = result.movies.map result.mem.str ∧ s.2.pts = result.pts

/-- `mergeSort` with its threads leaves in the arrays what its calls leave there one after the
other, whatever the order in which the threads run. -/
theorem threads_agree {a : Arrays S} (h : a.Hold rows) (hshort : Short rows) (hpos : NonNeg rows)
    (hmany : mergeThread ≤ rows.length) (hnum : rows.length ≤ num_of_movies) :
    ∃ result : Arrays S, mergeSortT num_of_movies (depth - 1) a.mem a.movies a.pts =
      some (result.mem, result.movies, result.pts) ∧ Agree num_of_movies a result := by
  have hg : Given num_of_movies (depth - 1) rows := ⟨hshort, hpos, hmany, hnum⟩
  obtain ⟨mem', movies', pts', hrun, -, h'⟩ :=
    mergeSortT_spec num_of_movies (depth - 1) h hshort hpos hmany hnum
  have hstart : Working (depth - 1) rows a.fork.1 a.fork.2 := .entry ⟨h.length, rfl⟩ h
  have hpays : (threads num_of_movies a.fork).Pays (fun s => Working (depth - 1) rows s.1 s.2)
      (fun _ => 1) fun s => s.1.left := by
    intro name s s' hs hstep
    obtain ⟨t', a', hstep', hs', -, hlt⟩ := hs.step hg (Thread.ready_of_step hstep)
    obtain rfl := Option.some.inj (hstep'.symm.trans hstep)
    refine ⟨hs', ?_⟩
    show 1 + t'.left ≤ s.1.left
    omega
  have hreach : ∀ s, (threads num_of_movies a.fork).Reachable s →
      Working (depth - 1) rows s.1 s.2 := by
    rintro s ⟨s₀, es, rfl, hes⟩
    exact hpays.run es hstart hes
  refine ⟨⟨mem', movies', pts'⟩, hrun, fun es s hes => ?_, fun s hs name hready => ?_,
    fun s _ => ?_, fun s hs hdone => ?_⟩
  · have hle := System.length_le_of_measure hpays es hstart hes
    exact (Nat.le_add_right _ _).trans hle
  · obtain ⟨t', a', hstep, -⟩ := (hreach s hs).step hg hready
    exact ⟨_, hstep⟩
  · cases hdone : s.1.done with
    | true => exact Or.inl rfl
    | false => exact Or.inr (Thread.exists_ready hdone)
  · have hw := hreach s hs
    rw [Thread.done_iff.1 hdone] at hw
    have hrows := hw.rows_exited
    exact ⟨hrows.strs.trans h'.strs.symm, hrows.pts.trans h'.pts.symm⟩

/-- The arrays of the request `*` on the shelf of forty movies. -/
def shelfArrays : Arrays ℤ :=
  ⟨⟨[], shelf.map Movie.title⟩, (List.range 40).map .heap, shelf.map Movie.profile⟩

local instance threadScore : Score ℤ :=
  instScoreInt

theorem threads_agree_shelf : ∃ result : Arrays ℤ,
    mergeSortT 40 (depth - 1) shelfArrays.mem shelfArrays.movies shelfArrays.pts =
      some (result.mem, result.movies, result.pts) ∧ Agree 40 shelfArrays result := by
  refine @threads_agree ℤ _ (shelf.map fun m => (m.title, m.profile)) 40 shelfArrays
    ⟨?_, by decide +kernel, by decide +kernel⟩ ?_ ?_ (by decide +kernel) (by decide +kernel)
  · intro p hp
    obtain ⟨n, hn, rfl⟩ := List.mem_map.1 hp
    exact List.mem_range.1 hn
  · simp only [Short]
    decide +kernel
  · simp only [NonNeg]
    decide +kernel

end Working

end SP2022.Recommendation
