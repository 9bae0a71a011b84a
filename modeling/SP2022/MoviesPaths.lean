import SP2022.MoviesBuilds

/-!
# The parallel path and the plain path

On the same arrays, `mergeSort` of the THREAD build and one call of `sort` leave the same
titles and scores exactly if the rows are `Aligned` : no title overtakes another one with
the same score where their halves meet (`paths_agree_iff`). Two titles of which one
continues the other by a byte below `TAB` are enough to tell the paths apart
(`paths_disagree`).
-/

namespace SP2022.Recommendation

section Paths

variable {S : Type} [Score S]

/-- What the arrays hold. -/
def contents (st : Mem × List Ptr × List S) : List Bytes × List S :=
  (st.2.1.map st.1.str, st.2.2)

omit [Score S] in
theorem Holds.contents {mem : Mem} {movies : List Ptr} {pts : List S} {rows : List (Bytes × S)}
    (h : Holds mem movies pts rows) :
    Recommendation.contents (mem, movies, pts) = (rows.map Prod.fst, rows.map Prod.snd) :=
  Prod.ext h.strs h.pts

/-- On at least `mergeThread` rows, both paths come to an end and leave the same titles and
scores exactly if the halves are aligned at every level. -/
theorem paths_agree_iff {num_of_movies : ℕ} {mem : Mem} {movies : List Ptr} {pts : List S}
    {rows : List (Bytes × S)} (h : Holds mem movies pts rows) (hshort : Short rows)
    (hpos : NonNeg rows) (hlen : mergeThread ≤ rows.length) (hnum : rows.length ≤ num_of_movies) :
    (∃ out, (mergeSortT num_of_movies (depth - 1) mem movies pts).map contents = some out ∧
      (sort num_of_movies mem movies pts).map contents = some out) ↔ Aligned (depth - 1) rows := by
  have hne : rows ≠ [] := List.length_pos_iff.1 (hlen.trans' (by decide))
  obtain ⟨mem₁, movies₁, pts₁, hrun₁, -, h₁⟩ :=
    mergeSortT_spec num_of_movies (depth - 1) h hshort hpos hlen hnum
  obtain ⟨mem₂, movies₂, pts₂, hrun₂, -, -, h₂⟩ :=
    sort_spec num_of_movies h hshort hpos hne hnum
  rw [hrun₁, hrun₂, Option.map_some, Option.map_some, h₁.contents, h₂.contents,
    ← rankTree_eq_select_iff _ hpos]
  constructor
  · rintro ⟨out, hout₁, hout₂⟩
    obtain ⟨hfst, hsnd⟩ := Prod.mk.inj (Option.some.inj (hout₁.trans hout₂.symm))
    exact (List.zip_of_prod hfst hsnd).trans (List.zip_of_prod rfl rfl).symm
  · intro heq
    exact ⟨_, rfl, by rw [heq]⟩

omit [Score S] in
/-- Rows with their titles on the heap. -/
theorem holds_heap (rows : List (Bytes × S)) : Holds ⟨[], rows.map Prod.fst⟩
    ((List.range rows.length).map .heap) (rows.map Prod.snd) rows := by
  refine ⟨fun p hp => ?_, ?_, rfl⟩
  · obtain ⟨n, hn, rfl⟩ := List.mem_map.1 hp
    simpa [Mem.Valid] using hn
  · refine List.ext_getElem? fun i => ?_
    by_cases hi : i < rows.length
    · simp [Mem.str, hi]
    · simp [not_lt.1 hi]

local instance wholeScore : Score ℤ :=
  instScoreInt

/-- `"A"`, `"A\001"` and thirty other titles, all with the score zero. -/
def twins : List (Bytes × ℤ) :=
  ([65], 0) :: ([65, 1], 0) :: (List.range 30).map fun n => ([66, 48 + n.toUInt8], 0)

theorem paths_agree_twins :
    (∃ out, (mergeSortT 32 (depth - 1) ⟨[], twins.map Prod.fst⟩
          ((List.range twins.length).map .heap) (twins.map Prod.snd)).map contents = some out ∧
        (sort 32 ⟨[], twins.map Prod.fst⟩ ((List.range twins.length).map .heap)
          (twins.map Prod.snd)).map contents = some out) ↔ Aligned (depth - 1) twins :=
  paths_agree_iff (holds_heap twins) (show ∀ r ∈ twins, r.1.length < MAX_LEN by decide)
    (show ∀ r ∈ twins, 0 ≤ r.2 by decide) (by decide) (by decide)

/-- The plain path puts `"A"` first, as `strcmp` does, and the parallel one `"A\001"`, as the
suffix starts with `TAB`. -/
theorem paths_disagree :
    twins.length = 32 ∧ (∀ r ∈ twins, 0 ∉ r.1 ∧ 0 ≤ r.2 ∧ r.1.length < MAX_LEN) ∧
    ((sort 32 ⟨[], twins.map Prod.fst⟩ ((List.range twins.length).map .heap)
        (twins.map Prod.snd)).map contents).map (fun out => out.1.take 2) =
      some [[65] ++ key, [65, 1] ++ key] ∧
    ((mergeSortT 32 (depth - 1) ⟨[], twins.map Prod.fst⟩ ((List.range twins.length).map .heap)
        (twins.map Prod.snd)).map contents).map (fun out => out.1.take 2) =
      some [[65, 1] ++ key, [65] ++ key] :=
  ⟨by decide, by decide, by decide +kernel, by decide +kernel⟩

end Paths

end SP2022.Recommendation
