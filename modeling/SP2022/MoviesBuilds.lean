import SP2022.MoviesMemory
import SP2022.MoviesSuffix

/-!
# Both builds write the ranking

The THREAD build keeps all strings on one heap, and each level of its recursion leaves the
arrays with the rows of `rankTree` (`mergeSortT_spec`). In the PROCESS build a level leaves
them in the shared slots it was given and in `pts`, and no other slot changes
(`mergeSortP_spec`) : the strings of a leaf and the copies of a node above it are on a heap
that is lost, and they are written over the slots only after the merge has read everything.
So both builds write the titles of `rank` (`recommend_eq_rank`, `mainP_eq_rank`), which
gives the order of the output (`recommend_ranking`) and that the builds agree
(`builds_agree`).
-/

namespace SP2022.Recommendation

section Builds

variable {S : Type} {mem : Mem} {rows : List (Bytes × S)} {pts : List S}

theorem Short.take (h : Short rows) (n : ℕ) : Short (rows.take n) :=
  fun r hr => h r (List.mem_of_mem_take hr)

theorem Short.drop (h : Short rows) (n : ℕ) : Short (rows.drop n) :=
  fun r hr => h r (List.mem_of_mem_drop hr)

/-- With at least `2 ^ (levels + 1)` rows both halves have at least `2 ^ levels`. -/
theorem halves_length {levels : ℕ} (h : 2 ^ (levels + 1) ≤ rows.length) :
    2 ^ levels ≤ (rows.take (rows.length / 2)).length ∧
      2 ^ levels ≤ (rows.drop (rows.length / 2)).length ∧
      (rows.take (rows.length / 2)).length = rows.length / 2 := by
  rw [pow_succ] at h
  rw [List.length_take, List.length_drop]
  omega

variable [Score S]

/-! ## The THREAD build -/

/-- Every level leaves the rows of `rankTree`. -/
theorem mergeSortT_spec (num_of_movies : ℕ) : ∀ (levels : ℕ) {mem : Mem} {movies : List Ptr}
    {pts : List S} {rows : List (Bytes × S)}, Holds mem movies pts rows → Short rows →
    NonNeg rows → 2 ^ (levels + 1) ≤ rows.length → rows.length ≤ num_of_movies →
    ∃ mem' movies' pts', mergeSortT num_of_movies levels mem movies pts =
        some (mem', movies', pts') ∧ mem.Ext mem' ∧ Holds mem' movies' pts' (rankTree levels rows)
  | 0, mem, movies, pts, rows, h, hshort, hpos, hlen, hnum => by
    obtain ⟨hl, hr, hmid⟩ := halves_length hlen
    have hhalf := h.length
    obtain ⟨mem₁, movies₁, pts₁, hrun₁, hext₁, -, h₁⟩ := sort_spec num_of_movies
      (h.take (rows.length / 2)) (hshort.take _) (hpos.take _) (List.length_pos_iff.1 hl) (by omega)
    obtain ⟨mem₂, movies₂, pts₂, hrun₂, hext₂, -, h₂⟩ := sort_spec num_of_movies
      ((h.drop (rows.length / 2)).ext hext₁) (hshort.drop _) (hpos.drop _)
      (List.length_pos_iff.1 hr) (by rw [List.length_drop]; omega)
    have hmid' : ((select (rows.take (rows.length / 2))).map withKey).length = rows.length / 2 := by
      rw [List.length_map, (select_perm _).length_eq, hmid]
    have hmerge := ((h₁.ext hext₂).mergeLoops h₂ hmid').1
    refine ⟨mem₂, _, _, ?_, hext₁.trans hext₂, hmerge⟩
    rw [mergeSortT, hhalf]
    simp [hrun₁, hrun₂]
  | levels + 1, mem, movies, pts, rows, h, hshort, hpos, hlen, hnum => by
    obtain ⟨hl, hr, hmid⟩ := halves_length hlen
    have hhalf := h.length
    obtain ⟨mem₁, movies₁, pts₁, hrun₁, hext₁, h₁⟩ := mergeSortT_spec num_of_movies levels
      (h.take (rows.length / 2)) (hshort.take _) (hpos.take _) hl (by omega)
    obtain ⟨mem₂, movies₂, pts₂, hrun₂, hext₂, h₂⟩ := mergeSortT_spec num_of_movies levels
      ((h.drop (rows.length / 2)).ext hext₁) (hshort.drop _) (hpos.drop _) hr
      (by rw [List.length_drop]; omega)
    have hmid' : (rankTree levels (rows.take (rows.length / 2))).length = rows.length / 2 := by
      rw [length_rankTree, hmid]
    have hmerge := ((h₁.ext hext₂).mergeLoops h₂ hmid').1
    refine ⟨mem₂, _, _, ?_, hext₁.trans hext₂, hmerge⟩
    rw [mergeSortT, hhalf]
    simp [hrun₁, hrun₂]

variable {P : Type*} (Dot : P → P → S)

/-- The titles that the request wants, with their scores. -/
def wantedRows (movies : List (Movie P)) (req : Request P) : List (Bytes × S) :=
  (movies.filter req.wants).map fun m => (m.title, Dot req.profile m.profile)

omit [Score S] in
/-- There are no more rows than movies. -/
theorem length_wantedRows_le (movies : List (Movie P)) (req : Request P) :
    (wantedRows Dot movies req).length ≤ movies.length := by
  rw [wantedRows, List.length_map]
  exact List.length_filter_le _ _

omit [Score S] in
/-- The filter loop of the THREAD build leaves the rows in its arrays. -/
theorem holds_recommend (movies : List (Movie P)) (req : Request P) :
    Holds ⟨[], movies.map Movie.title⟩
      ((movies.zipIdx.filter fun m => req.wants m.1).map fun m => Ptr.heap m.2)
      ((movies.zipIdx.filter fun m => req.wants m.1).map fun m => Dot req.profile m.1.profile)
      (wantedRows Dot movies req) := by
  set found := movies.zipIdx.filter fun m => req.wants m.1 with hfound
  have hrows : found.map (fun m => (m.1.title, Dot req.profile m.1.profile)) =
      wantedRows Dot movies req := by
    have hfst : found.map Prod.fst = movies.filter req.wants := by
      rw [hfound, show (fun m : Movie P × ℕ => req.wants m.1) = req.wants ∘ Prod.fst from rfl,
        ← List.filter_map, List.zipIdx_map_fst]
    rw [wantedRows, ← hfst, List.map_map]
    rfl
  have hget : ∀ m ∈ found, movies[m.2]? = some m.1 := fun m hm =>
    List.mem_zipIdx_iff_getElem?.1 (List.mem_filter.1 hm).1
  refine ⟨fun p hp => ?_, ?_, ?_⟩
  · obtain ⟨m, hm, rfl⟩ := List.mem_map.1 hp
    have hlt := (List.getElem?_eq_some_iff.1 (hget m hm)).1
    simpa [Mem.Valid] using hlt
  · rw [← hrows, List.map_map, List.map_map]
    refine List.map_congr_left fun m hm => ?_
    simp [Mem.str, List.getD_eq_getElem?_getD, hget m hm]
  · rw [← hrows, List.map_map]
    rfl

/-- The output of the THREAD build is the ranking. -/
theorem recommend_eq_rank {movies : List (Movie P)} {req : Request P}
    (hshort : Short (wantedRows Dot movies req)) (hpos : NonNeg (wantedRows Dot movies req))
    (hne : wantedRows Dot movies req ≠ []) :
    Recommend Dot movies req = some ((rank (wantedRows Dot movies req)).map Prod.fst) := by
  have hholds := holds_recommend Dot movies req
  have hnum := length_wantedRows_le Dot movies req
  have hlen := hholds.length
  unfold Recommend
  dsimp only
  by_cases hfew : (wantedRows Dot movies req).length < mergeThread
  · obtain ⟨mem', movies', pts', hrun, -, -, h'⟩ :=
      sort_spec movies.length hholds hshort hpos hne hnum
    rw [if_pos (hlen ▸ hfew), hrun, rank, if_pos hfew, ← h'.strs]
    rfl
  · obtain ⟨mem', movies', pts', hrun, -, h'⟩ := mergeSortT_spec movies.length (depth - 1) hholds
      hshort hpos (not_lt.1 hfew) hnum
    rw [if_neg (hlen ▸ hfew), hrun, rank, if_neg hfew, ← h'.strs]
    rfl

/-! ## The PROCESS build -/

/-- The titles with the suffix fit into `MAX_LEN` bytes. -/
def Fits (rows : List (Bytes × S)) : Prop :=
  ∀ r ∈ rows, r.1.length + key.length < MAX_LEN

omit [Score S] in
theorem Fits.short (h : Fits rows) : Short rows :=
  fun r hr => lt_of_le_of_lt (Nat.le_add_right _ _) (h r hr)

/-- The rows with the suffix fit as well. -/
theorem Fits.short_rankTree (h : Fits rows) (levels : ℕ) : Short (rankTree levels rows) := by
  intro r hr
  obtain ⟨r', hr', rfl⟩ := List.mem_map.1 ((rankTree_perm levels rows).mem_iff.1 hr)
  have := h r' hr'
  simpa [withKey] using this

/-- Only these slots have changed. -/
def Mem.Frame (ns : List ℕ) (mem mem' : Mem) : Prop :=
  mem'.slots.length = mem.slots.length ∧ ∀ n, n ∉ ns → mem'.slots[n]? = mem.slots[n]?

theorem Mem.Frame.trans {ns : List ℕ} {mem mem' mem'' : Mem} (h : mem.Frame ns mem')
    (h' : mem'.Frame ns mem'') : mem.Frame ns mem'' :=
  ⟨h'.1.trans h.1, fun n hn => (h'.2 n hn).trans (h.2 n hn)⟩

theorem Mem.Fresh.heap {mem : Mem} {p : Ptr} (h : mem.Fresh p) : ∃ n, p = .heap n := by
  cases p with
  | slot n => exact absurd h id
  | heap n => exact ⟨n, rfl⟩

/-- `strcpy` of strings on the heap to different slots. -/
theorem copyBack_spec : ∀ (ns : List ℕ) (srcs : List Ptr) (mem : Mem), ns.Nodup →
    (∀ n ∈ ns, n < mem.slots.length) → srcs.length = ns.length →
    (∀ p ∈ srcs, (∃ n, p = .heap n) ∧ (mem.str p).length < MAX_LEN) →
    ∃ mem', copyBack (ns.map .slot) srcs mem = some mem' ∧ mem'.heap = mem.heap ∧
      mem.Frame ns mem' ∧ (ns.map .slot).map mem'.str = srcs.map mem.str
  | [], srcs, mem, _, _, hlen, _ => by
    obtain rfl : srcs = [] := List.length_eq_zero_iff.1 hlen
    exact ⟨mem, rfl, rfl, ⟨rfl, fun _ _ => rfl⟩, rfl⟩
  | n :: ns, [], mem, _, _, hlen, _ => by simp at hlen
  | n :: ns, p :: srcs, mem, hnd, hlt, hlen, hsrc => by
    obtain ⟨hn, hnd⟩ := List.nodup_cons.1 hnd
    obtain ⟨⟨q, rfl⟩, hp⟩ := hsrc p List.mem_cons_self
    have hn' := hlt n List.mem_cons_self
    set mem₁ : Mem := { mem with slots := mem.slots.set n (mem.str (.heap q)) } with hmem₁
    have hstr : ∀ p ∈ srcs, mem₁.str p = mem.str p := by
      intro p hp
      obtain ⟨⟨q', rfl⟩, -⟩ := hsrc p (List.mem_cons_of_mem _ hp)
      rfl
    obtain ⟨mem', hrun, hheap, ⟨hslots, hframe⟩, hstrs⟩ := copyBack_spec ns srcs mem₁ hnd
      (fun m hm => by simpa [hmem₁] using hlt m (List.mem_cons_of_mem _ hm)) (by simpa using hlen)
      fun p hp => by
        obtain ⟨hheap, hp'⟩ := hsrc p (List.mem_cons_of_mem _ hp)
        exact ⟨hheap, (hstr p hp).symm ▸ hp'⟩
    have hfirst : mem'.str (.slot n) = mem.str (.heap q) := by
      have hget := hframe n hn
      simp only [hmem₁, List.getElem?_set_self hn'] at hget
      simp [Mem.str, List.getD_eq_getElem?_getD, hget]
    refine ⟨mem', ?_, hheap, ⟨by simpa [hmem₁] using hslots, fun m hm => ?_⟩, ?_⟩
    · simp [copyBack, Mem.strcpy, hp, Mem.store, ← hmem₁, hrun]
    · obtain ⟨hmn, hm⟩ := not_or.1 (mt List.mem_cons.2 hm)
      rw [hframe m hm, hmem₁, List.getElem?_set_ne (Ne.symm hmn)]
    · rw [List.map_cons, List.map_cons, List.map_cons, hstrs, hfirst, List.map_congr_left hstr]

/-- Copies of strings on the heap. -/
theorem copyOut_spec : ∀ (srcs : List Ptr) (mem : Mem),
    (∀ p ∈ srcs, mem.Valid p ∧ (mem.str p).length < MAX_LEN) →
    ∃ mem' dsts, copyOut srcs mem = some (mem', dsts) ∧ mem.Ext mem' ∧
      dsts.map mem'.str = srcs.map mem.str ∧ ∀ p ∈ dsts, mem'.Valid p ∧ mem.Fresh p
  | [], mem, _ => ⟨mem, [], rfl, .refl mem, rfl, fun p hp => absurd hp List.not_mem_nil⟩
  | src :: srcs, mem, hsrc => by
    obtain ⟨hvalid, hshort⟩ := hsrc src List.mem_cons_self
    have hext := mem.ext_malloc (mem.str src)
    obtain ⟨hnew, hfresh, hstr⟩ := mem.malloc_spec (mem.str src)
    have hkeep : ∀ p ∈ srcs, (mem.malloc (mem.str src)).1.str p = mem.str p := fun p hp =>
      hext.str (hsrc p (List.mem_cons_of_mem _ hp)).1
    obtain ⟨mem', dsts, hrun, hext', hstrs, hdsts⟩ := copyOut_spec srcs (mem.malloc (mem.str src)).1
      fun p hp => ⟨hext.valid (hsrc p (List.mem_cons_of_mem _ hp)).1,
        (hkeep p hp).symm ▸ (hsrc p (List.mem_cons_of_mem _ hp)).2⟩
    have hcpy : (mem.malloc []).1.strcpy (mem.malloc []).2 src =
        some (mem.malloc (mem.str src)).1 := by
      have hsame : (mem.malloc []).1.str src = mem.str src := (mem.ext_malloc []).str hvalid
      unfold Mem.strcpy
      rw [hsame, if_pos hshort]
      simp [Mem.malloc, Mem.store]
    refine ⟨mem', (mem.malloc (mem.str src)).2 :: dsts, ?_, hext.trans hext', ?_, fun p hp => ?_⟩
    · simp only [copyOut, hcpy, Option.bind_eq_bind, Option.bind_some, hrun]
      rfl
    · rw [List.map_cons, List.map_cons, hstrs, hext'.str hnew, hstr, List.map_congr_left hkeep]
    · rcases List.mem_cons.1 hp with rfl | hp
      · exact ⟨hext'.valid hnew, hfresh⟩
      · exact ⟨(hdsts p hp).1, (hdsts p hp).2.mono hext⟩

omit [Score S] in
/-- The merged rows are written over the slots of the two halves. -/
theorem copyBack_rows {ns : List ℕ} {tmp : List Ptr} {pts : List S} {rows : List (Bytes × S)}
    (hnd : ns.Nodup) (hlt : ∀ n ∈ ns, n < mem.slots.length) (h : Holds mem tmp pts rows)
    (hheap : ∀ p ∈ tmp, ∃ n, p = .heap n) (hshort : Short rows)
    (hlen : rows.length = ns.length) :
    ∃ mem', copyBack (ns.map .slot) tmp mem = some mem' ∧ mem.Frame ns mem' ∧
      Holds mem' (ns.map .slot) pts rows := by
  have hfits : ∀ p ∈ tmp, (∃ n, p = .heap n) ∧ (mem.str p).length < MAX_LEN := by
    intro p hp
    refine ⟨hheap p hp, ?_⟩
    have hmem : mem.str p ∈ rows.map Prod.fst := h.strs ▸ List.mem_map_of_mem hp
    obtain ⟨r, hr, heq⟩ := List.mem_map.1 hmem
    exact heq ▸ hshort r hr
  obtain ⟨mem', hrun, -, hframe, hstrs⟩ :=
    copyBack_spec ns tmp mem hnd hlt (h.length.trans hlen) hfits
  refine ⟨mem', hrun, hframe, fun p hp => ?_, hstrs.trans h.strs, h.pts⟩
  obtain ⟨n, hn, rfl⟩ := List.mem_map.1 hp
  exact lt_of_lt_of_eq (hlt n hn) hframe.1.symm

omit [Score S] in
/-- Rows in slots stay if these slots do. -/
theorem Holds.slots {mem mem' : Mem} {ns : List ℕ} (h : Holds mem (ns.map .slot) pts rows)
    (hlen : mem'.slots.length = mem.slots.length)
    (hslots : ∀ n ∈ ns, mem'.slots[n]? = mem.slots[n]?) : Holds mem' (ns.map .slot) pts rows := by
  refine h.congr (fun p hp => ?_) fun p hp => ?_
  · have hvalid := h.valid p hp
    obtain ⟨n, hn, rfl⟩ := List.mem_map.1 hp
    exact lt_of_lt_of_eq hvalid hlen.symm
  · obtain ⟨n, hn, rfl⟩ := List.mem_map.1 hp
    simp only [Mem.str, List.getD_eq_getElem?_getD, hslots n hn]

/-- A node above the leaves copies the rows of its slots, merges the copies and writes them
back. -/
theorem mergeCopies {ns : List ℕ} {rows₁ rows₂ : List (Bytes × S)} (hnd : ns.Nodup)
    (h : Holds mem (ns.map .slot) pts (rows₁ ++ rows₂)) (hshort : Short (rows₁ ++ rows₂)) :
    ∃ mem₁ cpy mem₂, copyOut (ns.map .slot) mem = some (mem₁, cpy) ∧
      copyBack (ns.map .slot) (mergeLoops mem₁ cpy pts rows₁.length).1 mem₁ = some mem₂ ∧
      mem.Frame ns mem₂ ∧ Holds mem₂ (ns.map .slot) (mergeLoops mem₁ cpy pts rows₁.length).2
        (mergeBy betterRow rows₁ rows₂) := by
  obtain ⟨mem₁, cpy, hcopy, hext, hstrs, hcpy⟩ := copyOut_spec (ns.map .slot) mem fun p hp => by
    refine ⟨h.valid p hp, ?_⟩
    have hmem := h.strs ▸ List.mem_map_of_mem (f := mem.str) hp
    obtain ⟨r, hr, heq⟩ := List.mem_map.1 hmem
    exact heq ▸ hshort r hr
  have hcopies : Holds mem₁ cpy pts (rows₁ ++ rows₂) :=
    ⟨fun p hp => (hcpy p hp).1, hstrs.trans h.strs, h.pts⟩
  have hl := hcopies.take rows₁.length
  have hr := hcopies.drop rows₁.length
  rw [List.take_left] at hl
  rw [List.drop_left] at hr
  obtain ⟨hmerge, hptrs⟩ := hl.mergeLoops hr rfl
  rw [List.take_append_drop, List.take_append_drop] at hmerge hptrs
  have hlen : (mergeBy betterRow rows₁ rows₂).length = ns.length := by
    rw [length_mergeBy, ← List.length_append, ← h.length, List.length_map]
  obtain ⟨mem₂, hback, hframe, h₂⟩ := copyBack_rows hnd
    (fun n hn => hext.1 ▸ h.valid _ (List.mem_map_of_mem hn)) hmerge
    (fun p hp => (hptrs p hp).elim (fun hp => (hcpy p (List.mem_of_mem_take hp)).2.heap)
      fun hp => (hcpy p (List.mem_of_mem_drop hp)).2.heap)
    (fun r hr => hshort r (List.mem_append.2 (mem_mergeBy.1 hr))) hlen
  have hframe₁ : mem.Frame ns mem₁ := ⟨congrArg _ hext.1, fun n _ => by rw [hext.1]⟩
  exact ⟨mem₁, cpy, mem₂, hcopy, hback, hframe₁.trans hframe, h₂⟩

/-- The last level sorts two copies of the strings on the heap, merges them and copies them
back. -/
theorem mergeSortP_zero (num_of_movies : ℕ) {mem : Mem} {ns : List ℕ} {pts : List S}
    {rows : List (Bytes × S)} (hnd : ns.Nodup) (h : Holds mem (ns.map .slot) pts rows)
    (hfits : Fits rows) (hpos : NonNeg rows) (hlen : 2 ^ (0 + 1) ≤ rows.length)
    (hnum : rows.length ≤ num_of_movies) :
    ∃ mem' pts', mergeSortP num_of_movies 0 mem (ns.map .slot) pts = some (mem', pts') ∧
      mem.Frame ns mem' ∧ Holds mem' (ns.map .slot) pts' (rankTree 0 rows) := by
  obtain ⟨hl, hr, hmid⟩ := halves_length hlen
  have hhalf : (ns.map Ptr.slot).length = rows.length := h.length
  obtain ⟨mem₁, cpy₁, pts₁, hrun₁, hext₁, hfresh₁, h₁⟩ := sort_spec num_of_movies
    (h.take (rows.length / 2)) (hfits.short.take _) (hpos.take _) (List.length_pos_iff.1 hl)
    (by omega)
  obtain ⟨mem₂, cpy₂, pts₂, hrun₂, hext₂, hfresh₂, h₂⟩ := sort_spec num_of_movies
    ((h.drop (rows.length / 2)).ext hext₁) (hfits.short.drop _) (hpos.drop _)
    (List.length_pos_iff.1 hr) (by rw [List.length_drop]; omega)
  have hmid' : ((select (rows.take (rows.length / 2))).map withKey).length = rows.length / 2 := by
    rw [List.length_map, (select_perm _).length_eq, hmid]
  obtain ⟨hmerge, hptrs⟩ := (h₁.ext hext₂).mergeLoops h₂ hmid'
  have hslots : mem₂.slots = mem.slots := hext₂.1.trans hext₁.1
  obtain ⟨mem₃, hback, hframe, h₃⟩ := copyBack_rows hnd
    (fun n hn => hslots ▸ h.valid _ (List.mem_map_of_mem hn)) hmerge
    (fun p hp => (hptrs p hp).elim (fun hp => (hfresh₁ p hp).heap) fun hp => (hfresh₂ p hp).heap)
    (hfits.short_rankTree 0)
    ((length_rankTree 0 rows).trans (by simpa using hhalf.symm))
  have hframe' : mem.Frame ns mem₂ := ⟨congrArg _ hslots, fun n _ => by rw [hslots]⟩
  refine ⟨mem₃, _, ?_, hframe'.trans hframe, h₃⟩
  rw [mergeSortP, hhalf]
  simp [hrun₁, hrun₂, hback]
/-- Two halves of the slots, one changed after the other. -/
theorem Mem.Frame.halves {mem mem₁ mem₂ : Mem} {ns : List ℕ} {k : ℕ}
    (h₁ : mem.Frame (ns.take k) mem₁) (h₂ : mem₁.Frame (ns.drop k) mem₂) : mem.Frame ns mem₂ := by
  refine ⟨h₂.1.trans h₁.1, fun n hn => ?_⟩
  have hl : n ∉ ns.take k := fun hn' => hn (List.mem_of_mem_take hn')
  have hr : n ∉ ns.drop k := fun hn' => hn (List.mem_of_mem_drop hn')
  exact (h₂.2 n hr).trans (h₁.2 n hl)

theorem Fits.short_halves {rows : List (Bytes × S)} (h : Fits rows) (levels k : ℕ) :
    Short (rankTree levels (rows.take k) ++ rankTree levels (rows.drop k)) := by
  intro r hr
  rcases List.mem_append.1 hr with hr | hr
  · exact Fits.short_rankTree (fun r hr => h r (List.mem_of_mem_take hr)) _ r hr
  · exact Fits.short_rankTree (fun r hr => h r (List.mem_of_mem_drop hr)) _ r hr

/-- Every level leaves the rows of `rankTree` in the slots it was given, and no other slot
changes. -/
theorem mergeSortP_spec (num_of_movies : ℕ) : ∀ (levels : ℕ) {mem : Mem} {ns : List ℕ}
    {pts : List S} {rows : List (Bytes × S)}, ns.Nodup → Holds mem (ns.map .slot) pts rows →
    Fits rows → NonNeg rows → 2 ^ (levels + 1) ≤ rows.length → rows.length ≤ num_of_movies →
    ∃ mem' pts', mergeSortP num_of_movies levels mem (ns.map .slot) pts = some (mem', pts') ∧
      mem.Frame ns mem' ∧ Holds mem' (ns.map .slot) pts' (rankTree levels rows)
  | 0, mem, ns, pts, rows, hnd, h, hfits, hpos, hlen, hnum =>
    mergeSortP_zero num_of_movies hnd h hfits hpos hlen hnum
  | levels + 1, mem, ns, pts, rows, hnd, h, hfits, hpos, hlen, hnum => by
    obtain ⟨hl, hr, hmid⟩ := halves_length hlen
    have hhalf : (ns.map Ptr.slot).length = rows.length := h.length
    have hdisj := hnd
    rw [← List.take_append_drop (rows.length / 2) ns, List.nodup_append] at hdisj
    obtain ⟨hndl, hndr, hdisj⟩ := hdisj
    -- the first child
    have hleft := h.take (rows.length / 2)
    rw [← List.map_take] at hleft
    obtain ⟨child₁, pts₁, hrun₁, hframe₁, h₁⟩ := mergeSortP_spec num_of_movies levels hndl hleft
      (fun r hr => hfits r (List.mem_of_mem_take hr)) (hpos.take _) hl (by omega)
    set mem₁ : Mem := { mem with slots := child₁.slots } with hmem₁
    have h₁' : Holds mem₁ ((ns.take (rows.length / 2)).map .slot) pts₁
        (rankTree levels (rows.take (rows.length / 2))) := h₁.slots rfl fun _ _ => rfl
    -- the second child
    have hright := h.drop (rows.length / 2)
    rw [← List.map_drop] at hright
    have hright₁ : Holds mem₁ ((ns.drop (rows.length / 2)).map .slot)
        (pts.drop (rows.length / 2)) (rows.drop (rows.length / 2)) :=
      hright.slots hframe₁.1 fun n hn => hframe₁.2 n fun hn' => hdisj n hn' n hn rfl
    obtain ⟨child₂, pts₂, hrun₂, hframe₂, h₂⟩ := mergeSortP_spec num_of_movies levels hndr hright₁
      (fun r hr => hfits r (List.mem_of_mem_drop hr)) (hpos.drop _) hr
      (by rw [List.length_drop]; omega)
    set mem₂ : Mem := { mem with slots := child₂.slots } with hmem₂
    have h₂' : Holds mem₂ ((ns.drop (rows.length / 2)).map .slot) pts₂
        (rankTree levels (rows.drop (rows.length / 2))) := h₂.slots rfl fun _ _ => rfl
    have h₁'' : Holds mem₂ ((ns.take (rows.length / 2)).map .slot) pts₁
        (rankTree levels (rows.take (rows.length / 2))) :=
      h₁'.slots hframe₂.1 fun n hn => hframe₂.2 n fun hn' => hdisj n hn n hn' rfl
    have hframe : mem.Frame ns mem₂ := Mem.Frame.halves (k := rows.length / 2) hframe₁ hframe₂
    -- the parent copies both halves, merges and copies back
    have hboth := h₁''.append h₂'
    rw [← List.map_append, List.take_append_drop] at hboth
    obtain ⟨mem₃, cpy, mem₄, hcopy, hback, hframe₄, h₄⟩ :=
      mergeCopies hnd hboth (hfits.short_halves levels (rows.length / 2))
    rw [length_rankTree, hmid] at hback h₄
    refine ⟨mem₄, _, ?_, hframe.trans hframe₄, h₄⟩
    rw [List.map_take] at hrun₁
    rw [List.map_drop] at hrun₂
    rw [mergeSortP, hhalf]
    simp [hrun₁, ← hmem₁, hrun₂, ← hmem₂, hcopy, hback]

theorem foldlM_shareTitle : ∀ (titles slots : List Bytes), (∀ t ∈ titles, t.length < MAX_LEN) →
    titles.foldlM shareTitle slots = some (slots ++ titles)
  | [], slots, _ => by simp
  | t :: titles, slots, h => by
    have ht := h t List.mem_cons_self
    have ih := foldlM_shareTitle titles (slots ++ [t]) fun t ht => h t (List.mem_cons_of_mem _ ht)
    rw [List.append_assoc, List.singleton_append] at ih
    simp [List.foldlM_cons, shareTitle, ht, ih]

omit [Score S] in
/-- The filter loop of the PROCESS build leaves the rows in shared slots. -/
theorem holds_shared (movies : List (Movie P)) (req : Request P) :
    Holds ⟨(movies.filter req.wants).map Movie.title, movies.map Movie.title⟩
      ((List.range (movies.filter req.wants).length).map .slot)
      ((movies.filter req.wants).map fun m => Dot req.profile m.profile)
      (wantedRows Dot movies req) := by
  set found := movies.filter req.wants with hfound
  refine ⟨fun p hp => ?_, ?_, ?_⟩
  · obtain ⟨n, hn, rfl⟩ := List.mem_map.1 hp
    simpa [Mem.Valid] using hn
  · rw [wantedRows, List.map_map, List.map_map]
    refine List.ext_getElem? fun i => ?_
    by_cases hi : i < found.length
    · simp [Mem.str, hi, ← hfound]
    · simp [← hfound, not_lt.1 hi]
  · rw [wantedRows, List.map_map]
    rfl

omit [Score S] in
/-- The titles are shared if they fit. -/
theorem share_titles {movies : List (Movie P)} {req : Request P}
    (hshort : Short (wantedRows Dot movies req)) :
    ((movies.filter req.wants).map Movie.title).foldlM shareTitle [] =
      some ((movies.filter req.wants).map Movie.title) := by
  refine foldlM_shareTitle _ [] fun t ht => ?_
  obtain ⟨m, hm, rfl⟩ := List.mem_map.1 ht
  exact hshort _ (List.mem_map_of_mem hm)

/-- The output of the PROCESS build is the ranking. -/
theorem mainP_eq_rank {movies : List (Movie P)} {req : Request P}
    (hfits : Fits (wantedRows Dot movies req)) (hpos : NonNeg (wantedRows Dot movies req))
    (hne : wantedRows Dot movies req ≠ []) :
    mainP Dot movies req = some ((rank (wantedRows Dot movies req)).map Prod.fst) := by
  have hholds := holds_shared Dot movies req
  have hnum := length_wantedRows_le Dot movies req
  have hlen : (wantedRows Dot movies req).length = (movies.filter req.wants).length :=
    List.length_map _
  unfold mainP
  simp only [share_titles Dot hfits.short, Option.bind_eq_bind, Option.bind_some]
  by_cases hfew : (wantedRows Dot movies req).length < mergeThread
  · obtain ⟨mem', movies', pts', hrun, -, -, h'⟩ :=
      sort_spec movies.length hholds hfits.short hpos hne hnum
    rw [if_pos (hlen ▸ hfew), hrun, rank, if_pos hfew, ← h'.strs]
    rfl
  · obtain ⟨mem', pts', hrun, -, h'⟩ := mergeSortP_spec movies.length (depth - 1) List.nodup_range
      hholds hfits hpos (not_lt.1 hfew) hnum
    rw [if_neg (hlen ▸ hfew), hrun, rank, if_neg hfew, ← h'.strs]
    rfl

/-! ## The output -/

/-- The title contains the keyword, or the keyword is `*`. -/
def Request.Matches (req : Request P) (m : Movie P) : Prop :=
  req.keywords <:+: m.title ∨ req.keywords = star

theorem Request.wants_iff (req : Request P) (m : Movie P) : req.wants m ↔ req.Matches m := by
  unfold Request.wants Request.Matches
  rw [Bool.or_eq_true, strstr_isSome_iff, decide_eq_true_iff, strcmp_eq_zero]

instance (req : Request P) (m : Movie P) : Decidable (req.Matches m) :=
  decidable_of_iff _ (req.wants_iff m)

omit [Score S] in
/-- The rows are those of the movies that match. -/
theorem mem_wantedRows {movies : List (Movie P)} {req : Request P} {r : Bytes × S} :
    r ∈ wantedRows Dot movies req ↔
      ∃ m ∈ movies, req.Matches m ∧ (m.title, Dot req.profile m.profile) = r := by
  simp only [wantedRows, List.mem_map, List.mem_filter, Request.wants_iff, and_assoc]

/-- The movies that match, as the server takes them for a request : with scores that are not
negative, and titles that fit with the suffix. -/
structure Request.Serves (req : Request P) (movies : List (Movie P)) : Prop where
  found : ∃ m ∈ movies, req.Matches m
  nonneg : ∀ m ∈ movies, req.Matches m → 0 ≤ Dot req.profile m.profile
  fits : ∀ m ∈ movies, req.Matches m → m.title.length + key.length < MAX_LEN

/-- What the two builds need of the rows. -/
theorem Request.Serves.wanted {req : Request P} {movies : List (Movie P)}
    (h : req.Serves Dot movies) :
    wantedRows Dot movies req =
        (movies.filter fun m => req.Matches m).map
          (fun m => (m.title, Dot req.profile m.profile)) ∧
      Fits (wantedRows Dot movies req) ∧ NonNeg (wantedRows Dot movies req) ∧
      wantedRows Dot movies req ≠ [] := by
  have heq : wantedRows Dot movies req = (movies.filter fun m => req.Matches m).map
      fun m => (m.title, Dot req.profile m.profile) := by
    unfold wantedRows
    congr 1
    refine List.filter_congr fun m _ => ?_
    rw [Bool.eq_iff_iff, decide_eq_true_iff]
    exact req.wants_iff m
  refine ⟨heq, fun r hr => ?_, fun r hr => ?_, ?_⟩
  · obtain ⟨m, hm, hmatch, rfl⟩ := (mem_wantedRows Dot).1 hr
    exact h.fits m hm hmatch
  · obtain ⟨m, hm, hmatch, rfl⟩ := (mem_wantedRows Dot).1 hr
    exact h.nonneg m hm hmatch
  · obtain ⟨m, hm, hmatch⟩ := h.found
    exact List.ne_nil_of_mem ((mem_wantedRows Dot).2 ⟨m, hm, hmatch, rfl⟩)

local instance : Score ℤ where
  minusOne := -1
  minusOne_lt := by decide

/-- Forty movies, every other one with `b` in its title. -/
def shelf : List (Movie ℤ) :=
  (List.range 40).map fun n =>
    ⟨n, [if n % 2 = 0 then 97 else 98, 100 - n.toUInt8], ((n * 7 % 5 : ℕ) : ℤ)⟩

/-- A request for these titles. -/
def ask (keywords : Bytes) : Request ℤ :=
  ⟨1, keywords, 3⟩

theorem ask_serves : (ask star).Serves (· * ·) shelf :=
  ⟨by decide +kernel, by decide +kernel, by decide +kernel⟩

/-- `Recommend` writes the titles that match, each with one suffix, by score and then by
title. -/
theorem recommend_ranking {movies : List (Movie P)} {req : Request P}
    (h : req.Serves Dot movies) (hprint : ∀ m ∈ movies, req.Matches m → ∀ c ∈ m.title, 9 < c) :
    ∃ ranked : List (Bytes × S),
      ranked.Perm ((movies.filter fun m => req.Matches m).map
        fun m => (m.title, Dot req.profile m.profile)) ∧
      ranked.Pairwise Before ∧
      Recommend Dot movies req = some (ranked.map fun r => r.1 ++ key) := by
  obtain ⟨heq, hfits, hpos, hne⟩ := h.wanted
  have hprint' : Printable (wantedRows Dot movies req) := by
    rw [heq]
    intro r hr
    obtain ⟨m, hm, rfl⟩ := List.mem_map.1 hr
    exact hprint m (List.mem_filter.1 hm).1 (of_decide_eq_true (List.mem_filter.1 hm).2)
  refine ⟨select (wantedRows Dot movies req), heq ▸ select_perm _, select_pairwise hpos, ?_⟩
  rw [recommend_eq_rank Dot hfits.short hpos hne, rank_spec hpos hprint', List.map_map]
  rfl

theorem recommend_ranking_shelf :
    ∃ ranked : List (Bytes × ℤ),
      ranked.Perm ((shelf.filter fun m => (ask star).Matches m).map
        fun m => (m.title, 3 * m.profile)) ∧
      ranked.Pairwise Before ∧
      Recommend (· * ·) shelf (ask star) = some (ranked.map fun r => r.1 ++ key) :=
  recommend_ranking (· * ·) ask_serves (by decide +kernel)

/-- The two builds write the same lines. -/
theorem builds_agree {movies : List (Movie P)} {req : Request P} (h : req.Serves Dot movies) :
    ∃ lines, Recommend Dot movies req = some lines ∧ mainP Dot movies req = some lines := by
  obtain ⟨-, hfits, hpos, hne⟩ := h.wanted
  exact ⟨_, recommend_eq_rank Dot hfits.short hpos hne, mainP_eq_rank Dot hfits hpos hne⟩

theorem builds_agree_shelf :
    ∃ lines, Recommend (· * ·) shelf (ask star) = some lines ∧
      mainP (· * ·) shelf (ask star) = some lines :=
  builds_agree (· * ·) ask_serves

end Builds

end SP2022.Recommendation
