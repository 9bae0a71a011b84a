import SP2022.SegmentSums
import SP2022.ThreadCounts

/-!
# The sums that `max_subarray` prints

`Encodes` is a record of the kind `max_subarray` is sent. The buffer behind the record keeps
bytes of earlier contents, which `atoi` does not reach (`Encodes.atoi_eq`). `Best` says what
the two accumulators hold; `Best.concat` takes it over one more number and `solo_best` over a
whole run, from which `max_subarray_exact` follows for the thread in the program.
-/

namespace SP2022.ThreadLib

/-- A record that holds a number, right-justified in four characters, and a newline. -/
def Encodes (r : Record) (x : ℤ) : Prop :=
  ∃ b s, Numeral s x ∧ r.toList = List.replicate b 32 ++ (s ++ [10])

/-- `atoi` does not look behind the record's newline. -/
theorem Encodes.atoi_eq {r : Record} {x : ℤ} (h : Encodes r x) (rest : List UInt8) :
    atoi (r.toList ++ rest) = x := by
  obtain ⟨b, s, hs, hr⟩ := h
  rw [hr, List.append_assoc, List.append_assoc]
  refine atoi_numeral hs b fun c hc => ?_
  rw [show c = 10 from (Option.some.inj hc).symm]
  decide

/-- What `max_subarray` keeps and has printed after it has read `xs` : `y` is the best sum at
the end of `xs`, `x` the best sum in it, and each line was the best sum so far. -/
structure Best (xs : List ℤ) (v : View) : Prop where
  empty : xs = [] → v.vars.y = 0
  suffix : xs ≠ [] → IsGreatest (suffixSums xs) v.vars.y
  segment : IsGreatest (segmentSums xs) v.vars.x
  length : v.lines.length = xs.length
  lines : ∀ (j : ℕ) (hj : j < v.lines.length),
    IsGreatest (segmentSums (xs.take (j + 1))) v.lines[j]

theorem best_start (p : Spec) : Best [] (View.start p) := by
  refine ⟨fun _ => rfl, fun h => absurd rfl h, ?_, rfl, fun j hj => absurd hj (Nat.not_lt_zero j)⟩
  rw [segmentSums_nil]
  exact isGreatest_singleton

/-- One number more. -/
theorem Best.concat {xs : List ℤ} {u v : View} (h : Best xs v) {a : ℤ}
    (hlines : u.lines = v.lines ++ [u.vars.x])
    (hy : u.vars.y = if v.vars.y + a < a then a else v.vars.y + a)
    (hx : u.vars.x = if u.vars.y < v.vars.x then v.vars.x else u.vars.y) :
    Best (xs ++ [a]) u := by
  have hsuffix : IsGreatest (suffixSums (xs ++ [a])) u.vars.y := by
    have hmax : u.vars.y = max a (v.vars.y + a) := by
      rw [hy]
      split_ifs <;> omega
    rcases eq_or_ne xs [] with rfl | hne
    · rw [hmax, h.empty rfl, zero_add, max_self, suffixSums_concat, suffixSums_nil]
      simp
    · rw [hmax]
      exact isGreatest_suffixSums_concat (h.suffix hne) a
  have hsegment : IsGreatest (segmentSums (xs ++ [a])) u.vars.x := by
    have hmax : u.vars.x = max v.vars.x u.vars.y := by
      rw [hx]
      split_ifs <;> omega
    rw [hmax]
    exact isGreatest_segmentSums_concat h.segment hsuffix
  refine ⟨fun h => absurd h (by simp), fun _ => hsuffix, hsegment, ?_, fun j hj => ?_⟩
  · simp [hlines, h.length]
  · simp only [hlines, List.length_append, List.length_singleton] at hj
    rcases Nat.lt_or_ge j v.lines.length with hlt | hge
    · simp only [hlines, List.getElem_append_left hlt]
      rw [List.take_append_of_le_length (by rw [← h.length]; exact hlt)]
      exact h.lines j hlt
    · obtain rfl : j = v.lines.length := by omega
      simp only [hlines, List.getElem_concat_length]
      rw [List.take_of_length_le (by simp [h.length])]
      exact hsegment

section Solo

variable {R : ℕ → Record} {p : Spec} {xs : List ℤ}

/-- After `k` numbers `max_subarray` has the best sums of these. -/
theorem solo_best (hfunc : p.func = .max_subarray) (harg : p.arg = xs.length)
    (hxs : ∀ (j : ℕ) (hj : j < xs.length), Encodes (R j) xs[j]) :
    ∀ k ≤ xs.length, Best (xs.take k) (solo id R p (2 * k))
  | 0, _ => best_start p
  | k + 1, hk => by
    obtain ⟨hbefore, hreads⟩ := @solo_max_subarray id R p (fun _ _ _ => rfl) hfunc k (by omega)
    have hnum : xs[k] = atoi ((R (solo id R p (2 * k)).reads).toList ++
        (solo id R p (2 * k)).vars.buf.drop 5) := by
      rw [hreads, (hxs k hk).atoi_eq]
    obtain ⟨-, -, hlines, hy, hx⟩ :=
      hbefore.max_subarray_turns hfunc (u := solo id R p (2 * (k + 1))) rfl hnum
    rw [← List.take_concat_get' _ _ hk]
    exact (solo_best hfunc harg hxs k (by omega)).concat hlines hy hx

/-- In the turn that ends in `async_read` it prints nothing. -/
theorem solo_best_lines (hfunc : p.func = .max_subarray) (harg : p.arg = xs.length)
    (hxs : ∀ (j : ℕ) (hj : j < xs.length), Encodes (R j) xs[j]) {m : ℕ}
    (hm : m ≤ 2 * xs.length) :
    (solo id R p m).lines.length ≤ xs.length ∧
      ∀ (j : ℕ) (hj : j < (solo id R p m).lines.length),
        IsGreatest (segmentSums (xs.take (j + 1))) (solo id R p m).lines[j] := by
  have main : ∀ k ≤ xs.length, (solo id R p (2 * k)).lines.length ≤ xs.length ∧
      ∀ (j : ℕ) (hj : j < (solo id R p (2 * k)).lines.length),
        IsGreatest (segmentSums (xs.take (j + 1))) (solo id R p (2 * k)).lines[j] := by
    intro k hk
    have h := solo_best hfunc harg hxs k hk
    have hlength := h.length
    rw [List.length_take_of_le hk] at hlength
    refine ⟨hlength.trans_le hk, fun j hj => ?_⟩
    have hgreatest := h.lines j hj
    rwa [List.take_take, min_eq_left (by omega)] at hgreatest
  obtain ⟨k, rfl | rfl⟩ := Nat.even_or_odd' m
  · exact main k (by omega)
  · have hbefore := (@solo_max_subarray id R p (fun _ _ _ => rfl) hfunc k (by omega)).1
    have hlines : (solo id R p (2 * k + 1)).lines = (solo id R p (2 * k)).lines :=
      (hbefore.max_subarray_turn hfunc (R := R)).2.2.1
    simp only [hlines]
    exact main k (by omega)

end Solo

/-- `max_subarray` prints the greatest sums. The `k`-th number it prints is the greatest sum of
a contiguous part, possibly empty, of the first `k` numbers it was sent, whatever its buffer
held at first, and it exits after as many prints as its argument says. -/
theorem max_subarray_exact {mem : Ptr → Tcb} {tcbs : Func → Tcb} {fd : Func → ℤ}
    {fib_arg col_arg sub_arg : ℤ} {R : Ptr → ℕ → Record} {k : ℕ} {p : Spec}
    (hk : (init_threads tcbs fd fib_arg col_arg sub_arg)[k]? = some p)
    (hfunc : p.func = .max_subarray) (hfd : p.fd ≠ -1) {xs : List ℤ} (hne : xs ≠ [])
    (harg : p.arg = xs.length)
    (hxs : ∀ (j : ℕ) (hj : j < xs.length), Encodes (R (k + 1) j) xs[j]) :
    (∀ M, (program id mem (init_threads tcbs fd fib_arg col_arg sub_arg) R).Reachable M →
      (M.lines p.id).length ≤ xs.length ∧ ∀ (j : ℕ) (hj : j < (M.lines p.id).length),
        IsGreatest (segmentSums (xs.take (j + 1))) (M.lines p.id)[j]) ∧
    Stops (program id mem (init_threads tcbs fd fib_arg col_arg sub_arg) R) (k + 1) p.id
      xs.length := by
  have hid := init_threads_nodup tcbs fd fib_arg col_arg sub_arg
  have hpos := List.length_pos_of_ne_nil hne
  have hstops := @stops_of_counted id _ _ (fun _ _ _ => rfl) mem _ R hid hk
    (by rw [hfunc]; decide) (by omega) fun _ => hfd
  rw [show p.arg.toNat = xs.length by omega] at hstops
  refine ⟨fun M hM => ?_, hstops⟩
  have ht := tracked_of_resumptions hid hk hM rfl
  set m := (M.resumptions (k + 1)).length
  obtain ⟨n, hn⟩ : ∃ n, xs.length = n + 1 := ⟨xs.length - 1, by omega⟩
  have hlast := @solo_max_subarray_counted id (R (k + 1)) p n (fun _ _ _ => rfl) hfunc (by omega)
  have hm : m ≤ 2 * xs.length := hn ▸ ht.le_of_exited (hlast.exits (by omega))
  simp only [ht.core.lines]
  exact solo_best_lines hfunc harg hxs hm

/-- The records of the third sample, sent to the thread 2. -/
def sampleRecords : Ptr → ℕ → Record
  | _, 0 => #v[32, 32, 45, 49, 10]
  | _, _ => #v[32, 32, 57, 57, 10]

theorem max_subarray_exact_two :
    (∀ M, (program id (fun _ => blank) (init_threads (fun _ => blank) (fun _ => 5) 4 (-1) 2)
      sampleRecords).Reachable M → (M.lines 2).length ≤ 2) ∧
    Stops (program id (fun _ => blank) (init_threads (fun _ => blank) (fun _ => 5) 4 (-1) 2)
      sampleRecords) 2 2 2 := by
  have hrecords : ∀ (j : ℕ) (hj : j < [(-1 : ℤ), 99].length),
      Encodes (sampleRecords 2 j) [(-1 : ℤ), 99][j] := by
    intro j hj
    match j, hj with
    | 0, _ => exact ⟨2, [45, 49], @Numeral.minus [49] (by simp) (by simp [isdigit]), by decide⟩
    | 1, _ => exact ⟨2, [57, 57], @Numeral.plain [57, 57] (by simp) (by simp [isdigit]), by decide⟩
  have hexact := @max_subarray_exact (fun _ => blank) (fun _ => blank) (fun _ => 5) 4 (-1) 2
    sampleRecords 1 ⟨.max_subarray, 2, 2, blank, 5⟩ rfl rfl (by decide) [-1, 99] (by decide) rfl
    hrecords
  exact ⟨fun M hM => (hexact.1 M hM).1, hexact.2⟩

end SP2022.ThreadLib
