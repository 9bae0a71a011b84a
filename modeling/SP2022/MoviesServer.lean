import Mathlib.Algebra.Order.BigOperators.Group.Finset
import SP2022.MoviesRequests
import SP2022.MoviesThreads

/-!
# The THREAD server at work

`main` of the THREAD build after `initialize` : the workers that run `Group`, each with its call
of `Recommend` and the threads that this call creates, all on one heap. A step is one turn of a
loop of one worker or of one of its threads, and any of them takes the next one. The file
`<id>t.out` holds the lines that were written to it; `fopen` with `"w"` empties it.

Whatever the order of steps, no assertion fails and nothing is stuck, the server comes to an
end, and then the file of every request holds the lines that `Recommend` alone writes for it
(`tserver_serves`). The workers share the requests as in `MoviesRequests`, and a call is not
disturbed by the others since these only add strings to the heap (`Answers.extend`).
-/

namespace SP2022.Recommendation

/-- Where a call of `Recommend` is. -/
inductive Place (S : Type)
  /-- In the loop over the movies. -/
  | filtering (i : ℕ)
  /-- In its call of `sort`. -/
  | sorting (call : SortPlace S)
  /-- In `pthread_join`. -/
  | joining (tid0 : Thread S)
  /-- In the loop that writes the lines. -/
  | writing (i : ℕ)
  | returned

/-- A call of `Recommend`. -/
structure Call (S : Type) where
  filter : List Ptr
  pts : List S
  place : Place S

/-- A call that has just begun. -/
def Call.start {S : Type} : Call S :=
  ⟨[], [], .filtering 0⟩

/-- The thread with this name, of the worker itself (`[]`) or below `tid0`, can go on in a
call. -/
def Call.ready {S : Type} (name : List Half) (c : Call S) : Bool :=
  match c.place with
  | .joining tid0 => if tid0.done then name = [] else tid0.ready name
  | .returned => false
  | _ => name = []

/-- The workers, the calls they are in, the strings of the process and the files. -/
structure TServer (w : ℕ) (S : Type) where
  requests : Requests w
  call : Fin w → Call S
  mem : Mem
  files : ℤ → List Bytes

/-- The worker, or one of its threads, can go on. -/
def TServer.ready {w : ℕ} {S : Type} (s : TServer w S) (e : Fin w × List Half) : Bool :=
  match s.requests.worker e.1 with
  | .recommending _ =>
    match (s.call e.1).place with
    | .returned => e.2 = []
    | _ => (s.call e.1).ready e.2
  | .exited _ => false
  | _ => e.2 = []

section Steps

variable {S : Type} [Score S] {P : Type*} (Dot : P → P → S) (movies : List (Movie P))

/-- One step of `Recommend`, with the lines of its file. -/
def Call.step (req : Request P) (name : List Half) (c : Call S) (mem : Mem) (lines : List Bytes) :
    Option (Call S × Mem × List Bytes) :=
  match c.place with
  | .filtering i =>
    match movies[i]? with
    | some m =>
      if req.wants m then
        some (⟨c.filter ++ [.heap i], c.pts ++ [Dot req.profile m.profile], .filtering (i + 1)⟩,
          mem, lines)
      else some ({ c with place := .filtering (i + 1) }, mem, lines)
    | none =>
      if c.filter.length < mergeThread then some ({ c with place := .sorting .entered }, mem, lines)
      else some ({ c with place := .joining (.entry ⟨c.filter.length, 0⟩) }, mem, lines)
  | .sorting .returned => some ({ c with place := .writing 0 }, mem, [])
  | .sorting call => do
    let (call, a) ← call.step movies.length ⟨mem, c.filter, c.pts⟩
    some (⟨a.movies, a.pts, .sorting call⟩, a.mem, lines)
  | .joining .exited => some ({ c with place := .writing 0 }, mem, [])
  | .joining tid0 => do
    let (tid0, a) ← tid0.step movies.length name ⟨mem, c.filter, c.pts⟩
    some (⟨a.movies, a.pts, .joining tid0⟩, a.mem, lines)
  | .writing i =>
    match c.filter[i]? with
    | some p => some ({ c with place := .writing (i + 1) }, mem, lines ++ [mem.str p])
    | none => some ({ c with place := .returned }, mem, lines)
  | .returned => none

/-- A step of `Group` outside of `Recommend`. A call begins with it if the worker takes one. -/
def TServer.group {w : ℕ} (num_of_reqs : ℕ) (t : Fin w) (s : TServer w S) :
    Option (TServer w S) :=
  (Group num_of_reqs t s.requests).map fun requests =>
    { s with requests := requests, call := Function.update s.call t .start }

/-- One step of the worker `e.1`, or of its thread with the name `e.2`. -/
def TServer.step (reqs : List (Request P)) {w : ℕ} (e : Fin w × List Half) (s : TServer w S) :
    Option (TServer w S) :=
  if s.ready e then
    match s.requests.worker e.1 with
    | .recommending cur =>
      match (s.call e.1).place with
      | .returned => s.group reqs.length e.1
      | _ => reqs[cur.toNat]?.bind fun req =>
        ((s.call e.1).step Dot movies req e.2 s.mem (s.files req.id)).map fun (call, mem, lines) =>
          { s with
            call := Function.update s.call e.1 call
            mem := mem
            files := Function.update s.files req.id lines }
    | _ => s.group reqs.length e.1
  else none

/-- The server with `w` workers, after `initialize`. -/
def TServer.boot (w : ℕ) : TServer w S where
  requests := ⟨-1, fun _ => .locking, []⟩
  call _ := .start
  mem := ⟨[], movies.map Movie.title⟩
  files _ := []

/-- The server as a transition system. -/
def tserver (reqs : List (Request P)) (w : ℕ) : System (TServer w S) (Fin w × List Half) where
  init s := s = .boot movies w
  step := TServer.step Dot movies reqs

end Steps

/-! ## A call of `Recommend` -/

section Answers

variable {S : Type} [Score S] {P : Type*} (Dot : P → P → S) (movies : List (Movie P))

/-- What the memory and the file hold during a call of `Recommend`. -/
inductive Answers (req : Request P) (mem : Mem) : Call S → List Bytes → Prop
  | filtering {filter : List Ptr} {pts : List S} {i : ℕ} {lines : List Bytes}
      (h : Holds mem filter pts (wantedRows Dot (movies.take i) req)) :
      Answers req mem ⟨filter, pts, .filtering i⟩ lines
  | sorting {filter : List Ptr} {pts : List S} {call : SortPlace S} {lines : List Bytes}
      (hfew : (wantedRows Dot movies req).length < mergeThread)
      (h : Sorts (wantedRows Dot movies req) call ⟨mem, filter, pts⟩) :
      Answers req mem ⟨filter, pts, .sorting call⟩ lines
  | joining {filter : List Ptr} {pts : List S} {tid0 : Thread S} {lines : List Bytes}
      (hmany : mergeThread ≤ (wantedRows Dot movies req).length)
      (h : Working (depth - 1) (wantedRows Dot movies req) tid0 ⟨mem, filter, pts⟩) :
      Answers req mem ⟨filter, pts, .joining tid0⟩ lines
  | writing {filter : List Ptr} {pts : List S} {i : ℕ}
      (h : Holds mem filter pts (rank (wantedRows Dot movies req))) :
      Answers req mem ⟨filter, pts, .writing i⟩
        (((rank (wantedRows Dot movies req)).map Prod.fst).take i)
  | returned {filter : List Ptr} {pts : List S} :
      Answers req mem ⟨filter, pts, .returned⟩ ((rank (wantedRows Dot movies req)).map Prod.fst)

/-- The steps of the sorting part of a call, or more. -/
def sortingCost (rows : List (Bytes × S)) : ℕ :=
  if rows.length < mergeThread then sortCost rows.length else mergeSortCost (depth - 1) rows.length

/-- The steps that are left of a call, or more. -/
def Call.left (req : Request P) (c : Call S) : ℕ :=
  match c.place with
  | .filtering i => movies.length - i + sortingCost (wantedRows Dot movies req) +
      (wantedRows Dot movies req).length + 3
  | .sorting call => call.left (wantedRows Dot movies req).length +
      (wantedRows Dot movies req).length + 2
  | .joining tid0 => tid0.left + (wantedRows Dot movies req).length + 2
  | .writing i => (wantedRows Dot movies req).length - i + 1
  | .returned => 0

variable {Dot movies} {req : Request P} {mem mem' : Mem} {c : Call S} {lines : List Bytes}

/-- New strings on the heap do not disturb a call. -/
theorem Answers.extend (h : Answers Dot movies req mem c lines) (hext : mem.Ext mem') :
    Answers Dot movies req mem' c lines := by
  cases h with
  | filtering h => exact .filtering (h.ext hext)
  | sorting hfew h => exact .sorting hfew (h.extend hext)
  | joining hmany h => exact .joining hmany (h.extend hext)
  | writing h => exact .writing (h.ext hext)
  | returned => exact .returned

theorem Answers.start : Answers Dot movies req mem .start lines :=
  .filtering ⟨fun _ hp => absurd hp List.not_mem_nil, rfl, rfl⟩

omit [Score S] in
theorem wantedRows_take_succ {i : ℕ} {m : Movie P} (hm : movies[i]? = some m) :
    wantedRows Dot (movies.take (i + 1)) req = wantedRows Dot (movies.take i) req ++
      if req.wants m then [(m.title, Dot req.profile m.profile)] else [] := by
  rw [List.take_add_one, hm, wantedRows, List.filter_append, List.map_append]
  cases hwants : req.wants m <;> simp [wantedRows, hwants]

theorem length_rank (rows : List (Bytes × S)) : (rank rows).length = rows.length := by
  unfold rank
  split_ifs
  · rw [List.length_map, (select_perm rows).length_eq]
  · exact length_rankTree _ _

/-- The next turn of the filter loop. -/
theorem Answers.filter {filter : List Ptr} {pts : List S} {i : ℕ}
    (h : Holds mem filter pts (wantedRows Dot (movies.take i) req))
    (htitles : (⟨[], movies.map Movie.title⟩ : Mem).Ext mem) (name : List Half) :
    ∃ c' mem' lines', (⟨filter, pts, .filtering i⟩ : Call S).step Dot movies req name mem lines =
      some (c', mem', lines') ∧ mem.Ext mem' ∧ Answers Dot movies req mem' c' lines' ∧
      c'.left Dot movies req < (⟨filter, pts, .filtering i⟩ : Call S).left Dot movies req := by
  cases hm : movies[i]? with
  | some m =>
    have hi : i < movies.length := (List.getElem?_eq_some_iff.1 hm).1
    have hrows : wantedRows Dot (movies.take (i + 1)) req = _ := wantedRows_take_succ hm
    cases hwants : req.wants m with
    | true =>
      have hvalid : (⟨[], movies.map Movie.title⟩ : Mem).Valid (.heap i) := by
        simpa [Mem.Valid] using hi
      have hstr : mem.str (.heap i) = m.title := by
        rw [htitles.str hvalid]
        simp [Mem.str, List.getD_eq_getElem?_getD, hm]
      rw [hwants, if_pos rfl] at hrows
      refine ⟨⟨filter ++ [.heap i], pts ++ [Dot req.profile m.profile], .filtering (i + 1)⟩, mem,
        lines, ?_, .refl _, .filtering ?_, ?_⟩
      · simp only [Call.step, hm, hwants, if_true]
      · rw [hrows]
        refine h.append ⟨fun p hp => ?_, ?_, rfl⟩
        · obtain rfl := List.mem_singleton.1 hp
          exact htitles.valid hvalid
        · simp only [List.map_cons, List.map_nil, hstr]
      · simp only [Call.left]
        omega
    | false =>
      rw [hwants, if_neg Bool.false_ne_true, List.append_nil] at hrows
      refine ⟨⟨filter, pts, .filtering (i + 1)⟩, mem, lines, ?_, .refl _,
        .filtering (hrows.symm ▸ h), ?_⟩
      · simp only [Call.step, hm, hwants, Bool.false_eq_true, if_false]
      · simp only [Call.left]
        omega
  | none =>
    rw [List.take_of_length_le (List.getElem?_eq_none_iff.1 hm)] at h
    by_cases hfew : (wantedRows Dot movies req).length < mergeThread
    · refine ⟨⟨filter, pts, .sorting .entered⟩, mem, lines, ?_, .refl _,
        .sorting hfew (.entered h), ?_⟩
      · simp only [Call.step, hm, h.length, if_pos hfew]
      · simp only [Call.left, sortingCost, if_pos hfew, SortPlace.left, sortCost]
        omega
    · refine ⟨⟨filter, pts, .joining (.entry ⟨filter.length, 0⟩)⟩, mem, lines, ?_, .refl _,
        .joining (not_lt.1 hfew) (.entry ⟨h.length, rfl⟩ h), ?_⟩
      · simp only [Call.step, hm, h.length, if_neg hfew]
      · simp only [Call.left, sortingCost, if_neg hfew, Thread.left, h.length, Nat.sub_zero]
        omega

/-- A call goes on with the next step of the worker, or of a thread that can go on. -/
theorem Answers.step (h : Answers Dot movies req mem c lines) (hserves : req.Serves Dot movies)
    (htitles : (⟨[], movies.map Movie.title⟩ : Mem).Ext mem) {name : List Half}
    (hready : c.ready name = true) :
    ∃ c' mem' lines', c.step Dot movies req name mem lines = some (c', mem', lines') ∧
      mem.Ext mem' ∧ Answers Dot movies req mem' c' lines' ∧
      c'.left Dot movies req < c.left Dot movies req := by
  obtain ⟨-, hfits, hpos, hne⟩ := hserves.wanted
  have hnum := length_wantedRows_le Dot movies req
  cases h with
  | filtering h => exact Answers.filter h htitles name
  | @sorting filter pts call lines hfew h =>
    by_cases hcall : call = .returned
    · subst hcall
      cases h with
      | returned h =>
      refine ⟨⟨filter, pts, .writing 0⟩, mem, [], rfl, .refl _, .writing (i := 0) ?_, ?_⟩
      · rw [rank, if_pos hfew]
        exact h
      · simp only [Call.left, SortPlace.left]
        omega
    · obtain ⟨call', a, hstep, h', hext, hlt⟩ := h.step hfits.short hpos hne hnum hcall
      refine ⟨⟨a.movies, a.pts, .sorting call'⟩, a.mem, lines, ?_, hext, .sorting hfew h', ?_⟩
      · cases call with
        | returned => exact absurd rfl hcall
        | _ => simp only [Call.step, hstep]; rfl
      · simp only [Call.left]
        omega
  | @joining filter pts tid0 lines hmany h =>
    cases hdone : tid0.done with
    | true =>
      obtain rfl := Thread.done_iff.1 hdone
      refine ⟨⟨filter, pts, .writing 0⟩, mem, [], rfl, .refl _, .writing (i := 0) ?_, ?_⟩
      · rw [rank, if_neg (not_lt.2 hmany)]
        exact h.rows_exited
      · simp only [Call.left]
        omega
    | false =>
      have hready' : tid0.ready name = true := by
        simpa [Call.ready, hdone] using hready
      obtain ⟨tid0', a, hstep, h', hext, hlt⟩ :=
        h.step ⟨hfits.short, hpos, hmany, hnum⟩ hready'
      refine ⟨⟨a.movies, a.pts, .joining tid0'⟩, a.mem, lines, ?_, hext, .joining hmany h', ?_⟩
      · cases tid0 with
        | exited => cases hdone
        | _ => simp only [Call.step, hstep]; rfl
      · simp only [Call.left]
        omega
  | @writing filter pts i h =>
    have hlen : filter.length = (wantedRows Dot movies req).length :=
      h.length.trans (length_rank _)
    cases hp : filter[i]? with
    | some p =>
      have hi : i < filter.length := (List.getElem?_eq_some_iff.1 hp).1
      have hget : ((rank (wantedRows Dot movies req)).map Prod.fst)[i]? = some (mem.str p) := by
        rw [← h.strs, List.getElem?_map, hp]
        rfl
      refine ⟨⟨filter, pts, .writing (i + 1)⟩, mem, _, ?_, .refl _, .writing (i := i + 1) h, ?_⟩
      · simp only [Call.step, hp, List.take_add_one, hget]
        rfl
      · simp only [Call.left]
        omega
    | none =>
      have hi := List.getElem?_eq_none_iff.1 hp
      refine ⟨⟨filter, pts, .returned⟩, mem,
        ((rank (wantedRows Dot movies req)).map Prod.fst).take i, by simp only [Call.step, hp],
        .refl _, ?_, ?_⟩
      · rw [List.take_of_length_le (by rw [List.length_map, length_rank]; omega)]
        exact .returned
      · simp only [Call.left]
        omega
  | returned => cases hready

end Answers

/-! ## All workers -/

section Serving

variable {S : Type} [Score S] {P : Type*} {Dot : P → P → S} {movies : List (Movie P)}
  {reqs : List (Request P)} {w : ℕ} {s s' : TServer w S}

/-- Every worker in `Recommend` answers the request that it took, and the files of the requests
that were taken before hold their rankings. -/
structure Serving (Dot : P → P → S) (movies : List (Movie P)) (reqs : List (Request P))
    (s : TServer w S) : Prop where
  shares : Shares reqs.length s.requests
  titles : (⟨[], movies.map Movie.title⟩ : Mem).Ext s.mem
  called : ∀ t cur, s.requests.worker t = .recommending cur → (t, cur) ∈ s.requests.calls
  answers : ∀ t cur, s.requests.worker t = .recommending cur → ∀ req,
    reqs[cur.toNat]? = some req → Answers Dot movies req s.mem (s.call t) (s.files req.id)
  written : ∀ t cur, (t, cur) ∈ s.requests.calls → s.requests.worker t = .recommending cur ∨
    ∀ req, reqs[cur.toNat]? = some req →
      s.files req.id = (rank (wantedRows Dot movies req)).map Prod.fst

/-- Two calls are for different requests. -/
theorem Shares.call_inj {n : ℕ} {s : Requests w} (h : Shares n s) {t t' : Fin w} {cur : ℤ}
    (ht : (t, cur) ∈ s.calls) (ht' : (t', cur) ∈ s.calls) : t = t' :=
  congrArg Prod.fst (List.inj_on_of_nodup_map h.served_once.1 ht ht' rfl)

theorem Shares.cur_nonneg {n : ℕ} {s : Requests w} (h : Shares n s) {t : Fin w} {cur : ℤ}
    (ht : (t, cur) ∈ s.calls) : 0 ≤ cur ∧ cur < n :=
  h.served_once.2 cur (List.mem_map_of_mem ht)

/-- No more than one index for each request and each worker is taken. -/
theorem Shares.front_le {n : ℕ} {s : Requests w} (h : Shares n s) : s.front + 1 ≤ n + w := by
  have hone : ∀ t, ((s.worker t).holds).card ≤ 1 := fun t => by
    cases s.worker t <;> simp
  have hheld : (∑ t, (s.worker t).holds).card ≤ w := by
    rw [Multiset.card_sum]
    exact (Finset.sum_le_sum fun t _ => hone t).trans (by simp)
  have hserved : (s.served : Multiset ℤ).card ≤ n := by
    have hsub : (s.served : Multiset ℤ) ≤ upTo (n - 1) :=
      (Multiset.le_iff_subset (Multiset.coe_nodup.2 h.served_once.1)).2 fun i hi => by
        have := h.served_once.2 i hi
        exact mem_upTo.2 ⟨this.1, by omega⟩
    have hcard := Multiset.card_le_card hsub
    rw [card_upTo] at hcard
    omega
  have hcard := congrArg Multiset.card h.taken
  rw [Multiset.card_add, card_upTo] at hcard
  omega

/-- Different requests have different files. -/
theorem id_ne {reqs : List (Request P)} (hids : (reqs.map Request.id).Nodup) {i j : ℕ}
    {req req' : Request P} (hi : reqs[i]? = some req) (hj : reqs[j]? = some req') (hij : i ≠ j) :
    req.id ≠ req'.id := by
  intro heq
  have hi' : (reqs.map Request.id)[i]? = some req.id := by rw [List.getElem?_map, hi]; rfl
  have hj' : (reqs.map Request.id)[j]? = some req.id := by rw [List.getElem?_map, hj, heq]; rfl
  have hlt := (List.getElem?_eq_some_iff.1 hi').1
  exact hij ((List.getElem?_inj hlt hids).1 (hi'.trans hj'.symm))

/-- The worker `t` goes to another place of `Group`. If it was in `Recommend`, its call has
returned; if it goes there, this is a new call. -/
theorem Serving.goto (h : Serving Dot movies reqs s) {t : Fin w} {x : Worker} {r : Requests w}
    (hshares : Shares reqs.length (r.goto t x)) (hworker : r.worker = s.requests.worker)
    (hcalls : ∀ c, c ∈ r.calls ↔ c ∈ s.requests.calls ∨ c.1 = t ∧ x = .recommending c.2)
    (hreturned : ∀ cur, s.requests.worker t = .recommending cur →
      (s.call t).place = .returned) :
    Serving Dot movies reqs
      { s with requests := r.goto t x, call := Function.update s.call t .start } := by
  have hself : (r.goto t x).worker t = x := Function.update_self _ _ _
  have hother : ∀ u, u ≠ t → (r.goto t x).worker u = s.requests.worker u := fun u hu =>
    (Function.update_of_ne hu _ _).trans (congrFun hworker u)
  refine ⟨hshares, h.titles, fun u cur hu => ?_, fun u cur hu => ?_, fun u cur hu => ?_⟩
  · by_cases hut : u = t
    · subst hut
      exact (hcalls _).2 (Or.inr ⟨rfl, hself.symm.trans hu⟩)
    · exact (hcalls _).2 (Or.inl (h.called u cur ((hother u hut).symm.trans hu)))
  · by_cases hut : u = t
    · subst hut
      simp only [Function.update_self]
      exact fun _ _ => .start
    · simp only [Function.update_of_ne hut]
      exact h.answers u cur ((hother u hut).symm.trans hu)
  · rcases (hcalls _).1 hu with hu | ⟨rfl, hx⟩
    · rcases h.written u cur hu with hrec | hfile
      · by_cases hut : u = t
        · -- the call that returns has written its lines
          subst hut
          refine Or.inr fun req hreq => ?_
          have hans := h.answers u cur hrec req hreq
          have hplace := hreturned cur hrec
          show s.files req.id = _
          generalize s.call u = c, s.files req.id = lines at hans hplace ⊢
          cases hans with
          | returned => rfl
          | _ => cases hplace
        · exact Or.inl ((hother u hut).trans hrec)
      · exact Or.inr hfile
    · exact Or.inl (hself.trans hx)

/-- A step of `Group`. -/
theorem Serving.group (h : Serving Dot movies reqs s) {t : Fin w}
    (hreturned : ∀ cur, s.requests.worker t = .recommending cur → (s.call t).place = .returned)
    (hstep : s.group reqs.length t = some s') : Serving Dot movies reqs s' := by
  obtain ⟨r, hr, rfl⟩ := Option.map_eq_some_iff.1 hstep
  have hshares := h.shares.step hr
  unfold Group at hr
  cases hw : s.requests.worker t with
  | locking =>
    rw [hw] at hr
    obtain rfl := Option.some.inj hr
    exact h.goto hshares rfl (fun c => by simp) hreturned
  | testing cur =>
    rw [hw] at hr
    simp only at hr
    split_ifs at hr with hcur
    · obtain rfl := Option.some.inj hr
      refine h.goto hshares rfl (fun c => ?_) hreturned
      rw [List.mem_append, List.mem_singleton, Worker.recommending.injEq, Prod.ext_iff]
      exact or_congr_right (and_congr_right fun _ => eq_comm)
    · obtain rfl := Option.some.inj hr
      exact h.goto hshares rfl (fun c => by simp) hreturned
  | recommending cur =>
    rw [hw] at hr
    obtain rfl := Option.some.inj hr
    exact h.goto hshares rfl (fun c => by simp) hreturned
  | exited cur =>
    rw [hw] at hr
    cases hr

omit [Score S] in
theorem Call.place_of_ready {c : Call S} {name : List Half} (h : c.ready name = true) :
    c.place ≠ .returned := by
  intro hplace
  rw [Call.ready, hplace] at h
  cases h

/-- A step of a worker in `Recommend`, before it returns. -/
theorem TServer.step_call {t : Fin w} {name : List Half} {cur : ℤ} {req : Request P}
    (hw : s.requests.worker t = .recommending cur) (hreq : reqs[cur.toNat]? = some req)
    (hready : (s.call t).ready name = true) : s.step Dot movies reqs (t, name) =
      ((s.call t).step Dot movies req name s.mem (s.files req.id)).map fun r =>
        { s with
          call := Function.update s.call t r.1
          mem := r.2.1
          files := Function.update s.files req.id r.2.2 } := by
  have hplace := Call.place_of_ready hready
  have hready' : s.ready (t, name) = true := by
    simp only [TServer.ready, hw]
    cases hp : (s.call t).place with
    | returned => exact absurd hp hplace
    | _ => exact hready
  rw [TServer.step, if_pos hready']
  simp only [hw]
  cases hp : (s.call t).place with
  | returned => exact absurd hp hplace
  | _ => simp only [hreq]; rfl

/-- A step of a worker in `Recommend`. -/
theorem Serving.call (h : Serving Dot movies reqs s) (hids : (reqs.map Request.id).Nodup)
    (hserves : ∀ req ∈ reqs, req.Serves Dot movies) {t : Fin w} {name : List Half} {cur : ℤ}
    {req : Request P} (hw : s.requests.worker t = .recommending cur)
    (hreq : reqs[cur.toNat]? = some req) (hready : (s.call t).ready name = true) :
    ∃ c' mem' lines', s.step Dot movies reqs (t, name) = some { s with
          call := Function.update s.call t c'
          mem := mem'
          files := Function.update s.files req.id lines' } ∧
      Serving Dot movies reqs { s with
          call := Function.update s.call t c'
          mem := mem'
          files := Function.update s.files req.id lines' } ∧
      c'.left Dot movies req < (s.call t).left Dot movies req := by
  have hcall := h.called t cur hw
  obtain ⟨c', mem', lines', hstep, hext, hans, hlt⟩ := (h.answers t cur hw req hreq).step
    (hserves req (List.mem_of_getElem? hreq)) h.titles hready
  -- the file of another request stays
  have hfile : ∀ {u : Fin w} {cur' : ℤ} {req' : Request P}, (u, cur') ∈ s.requests.calls →
      cur' ≠ cur → reqs[cur'.toNat]? = some req' →
      Function.update s.files req.id lines' req'.id = s.files req'.id := by
    intro u cur' req' hu hne hreq'
    have h0 := h.shares.cur_nonneg hcall
    have h0' := h.shares.cur_nonneg hu
    exact Function.update_of_ne (id_ne hids hreq' hreq (by omega)) _ _
  refine ⟨c', mem', lines', ?_, ⟨h.shares, h.titles.trans hext, h.called,
    fun u cur' hu req' hreq' => ?_, fun u cur' hu => ?_⟩, hlt⟩
  · rw [TServer.step_call hw hreq hready, hstep]
    rfl
  · by_cases hut : u = t
    · subst hut
      cases hw.symm.trans hu
      obtain rfl := Option.some.inj (hreq.symm.trans hreq')
      simp only [Function.update_self]
      exact hans
    · have hne : cur' ≠ cur := fun heq =>
        hut (h.shares.call_inj (h.called u cur' hu) (heq ▸ hcall))
      simp only [Function.update_of_ne hut, hfile (h.called u cur' hu) hne hreq']
      exact (h.answers u cur' hu req' hreq').extend hext
  · by_cases hne : cur' = cur
    · subst hne
      obtain rfl := h.shares.call_inj hu hcall
      exact Or.inl hw
    · refine (h.written u cur' hu).imp_right fun hold req' hreq' => ?_
      exact (hfile hu hne hreq').trans (hold req' hreq')

/-! ## The steps that are left -/

/-- The steps of any call, or more. -/
def callCost (Dot : P → P → S) (movies : List (Movie P)) (reqs : List (Request P)) : ℕ :=
  (reqs.map fun req => (Call.start : Call S).left Dot movies req).sum

/-- The steps that are left of a worker before it takes another request, or more. -/
def TServer.workerLeft (Dot : P → P → S) (movies : List (Movie P)) (reqs : List (Request P))
    (s : TServer w S) (t : Fin w) : ℕ :=
  match s.requests.worker t with
  | .locking => 0
  | .testing _ => callCost Dot movies reqs + 2
  | .recommending cur =>
    (reqs[cur.toNat]?.map fun req => (s.call t).left Dot movies req).getD 0 + 1
  | .exited _ => 0

/-- The steps that are left of the server, or more. -/
def TServer.left (Dot : P → P → S) (movies : List (Movie P)) (reqs : List (Request P))
    (s : TServer w S) : ℕ :=
  (reqs.length + w - (s.requests.front + 1).toNat) * (callCost Dot movies reqs + 3) +
    ∑ t, s.workerLeft Dot movies reqs t

theorem sum_add_of_eq_off {f f' : Fin w → ℕ} {t : Fin w} (h : ∀ u, u ≠ t → f' u = f u) :
    ∑ u, f' u + f t = ∑ u, f u + f' t := by
  have hold := Finset.add_sum_erase Finset.univ f (Finset.mem_univ t)
  have hnew := Finset.add_sum_erase Finset.univ f' (Finset.mem_univ t)
  have hothers : ∑ u ∈ Finset.univ.erase t, f' u = ∑ u ∈ Finset.univ.erase t, f u :=
    Finset.sum_congr rfl fun u hu => h u (Finset.ne_of_mem_erase hu)
  omega

omit [Score S] in
/-- A step of a worker that does not take another request. -/
theorem TServer.left_lt {t : Fin w} (hfront : s'.requests.front = s.requests.front)
    (hoff : ∀ u, u ≠ t → s'.workerLeft Dot movies reqs u = s.workerLeft Dot movies reqs u)
    (hlt : s'.workerLeft Dot movies reqs t < s.workerLeft Dot movies reqs t) :
    s'.left Dot movies reqs < s.left Dot movies reqs := by
  have hsum := sum_add_of_eq_off hoff
  rw [TServer.left, TServer.left, hfront]
  omega

omit [Score S] in
/-- A step of a worker that takes another request. -/
theorem TServer.left_lt_pop {t : Fin w} (hfront : s'.requests.front = s.requests.front + 1)
    (h0 : -1 ≤ s.requests.front) (hle : s'.requests.front + 1 ≤ reqs.length + w)
    (hoff : ∀ u, u ≠ t → s'.workerLeft Dot movies reqs u = s.workerLeft Dot movies reqs u)
    (hself : s'.workerLeft Dot movies reqs t ≤
      s.workerLeft Dot movies reqs t + callCost Dot movies reqs + 2) :
    s'.left Dot movies reqs < s.left Dot movies reqs := by
  have hsum := sum_add_of_eq_off hoff
  rw [hfront] at hle
  obtain ⟨k, hk⟩ : ∃ k, reqs.length + w - (s.requests.front + 1).toNat = k + 1 :=
    ⟨reqs.length + w - (s.requests.front + 1).toNat - 1, by omega⟩
  have hk' : reqs.length + w - (s.requests.front + 1 + 1).toNat = k := by omega
  rw [TServer.left, TServer.left, hfront, hk, hk', Nat.succ_mul]
  omega

omit [Score S] in
theorem workerLeft_goto {t u : Fin w} {x : Worker} {r : Requests w}
    (hworker : r.worker = s.requests.worker) (hu : u ≠ t) :
    TServer.workerLeft Dot movies reqs
      { s with requests := r.goto t x, call := Function.update s.call t .start } u =
    s.workerLeft Dot movies reqs u := by
  have hw : (r.goto t x).worker u = s.requests.worker u :=
    (Function.update_of_ne hu _ _).trans (congrFun hworker u)
  simp only [TServer.workerLeft, hw, Function.update_of_ne hu]

omit [Score S] in
theorem workerLeft_goto_self {t : Fin w} {x : Worker} {r : Requests w} :
    TServer.workerLeft Dot movies reqs
      { s with requests := r.goto t x, call := Function.update s.call t .start } t =
    match x with
    | .locking => 0
    | .testing _ => callCost Dot movies reqs + 2
    | .recommending cur =>
      (reqs[cur.toNat]?.map fun req => (Call.start : Call S).left Dot movies req).getD 0 + 1
    | .exited _ => 0 := by
  have hw : (r.goto t x).worker t = x := Function.update_self _ _ _
  simp only [TServer.workerLeft, hw, Function.update_self]

/-- A step of `Group` brings the server closer to its end. -/
theorem Serving.left_group (h : Serving Dot movies reqs s) {t : Fin w}
    (hstep : s.group reqs.length t = some s') :
    s'.left Dot movies reqs < s.left Dot movies reqs := by
  obtain ⟨r, hr, rfl⟩ := Option.map_eq_some_iff.1 hstep
  have hfront := (h.shares.step hr).front_le
  have hfront₀ := h.shares.front
  unfold Group at hr
  cases hw : s.requests.worker t with
  | locking =>
    rw [hw] at hr
    obtain rfl := Option.some.inj hr
    refine TServer.left_lt_pop (t := t) rfl hfront₀ hfront (fun u hu => workerLeft_goto rfl hu) ?_
    rw [workerLeft_goto_self]
    simp only
    omega
  | testing cur =>
    rw [hw] at hr
    simp only at hr
    have hself : s.workerLeft Dot movies reqs t = callCost Dot movies reqs + 2 := by
      simp only [TServer.workerLeft, hw]
    split_ifs at hr with hcur
    · obtain rfl := Option.some.inj hr
      refine TServer.left_lt rfl (fun u hu => workerLeft_goto rfl hu) ?_
      rw [workerLeft_goto_self, hself]
      simp only
      cases hreq : reqs[cur.toNat]? with
      | none => simp
      | some req =>
        have hle : (Call.start : Call S).left Dot movies req ≤ callCost Dot movies reqs :=
          List.single_le_sum (fun _ _ => Nat.zero_le _) _
            (List.mem_map_of_mem (List.mem_of_getElem? hreq))
        simp only [Option.map_some, Option.getD_some]
        omega
    · obtain rfl := Option.some.inj hr
      refine TServer.left_lt rfl (fun u hu => workerLeft_goto rfl hu) ?_
      rw [workerLeft_goto_self, hself]
      simp
  | recommending cur =>
    rw [hw] at hr
    obtain rfl := Option.some.inj hr
    refine TServer.left_lt rfl (fun u hu => workerLeft_goto rfl hu) ?_
    rw [workerLeft_goto_self]
    simp only [TServer.workerLeft, hw]
    omega
  | exited cur =>
    rw [hw] at hr
    cases hr

/-- What a step of the server does. -/
theorem Serving.step (h : Serving Dot movies reqs s) (hids : (reqs.map Request.id).Nodup)
    (hserves : ∀ req ∈ reqs, req.Serves Dot movies) {e : Fin w × List Half}
    (hready : s.ready e = true) : ∃ s', s.step Dot movies reqs e = some s' ∧
      Serving Dot movies reqs s' ∧ s'.left Dot movies reqs < s.left Dot movies reqs := by
  obtain ⟨t, name⟩ := e
  have hgroup : (∀ cur, s.requests.worker t = .recommending cur →
      (s.call t).place = .returned) → (∃ r, Group reqs.length t s.requests = some r) →
      s.step Dot movies reqs (t, name) = s.group reqs.length t →
      ∃ s', s.step Dot movies reqs (t, name) = some s' ∧ Serving Dot movies reqs s' ∧
        s'.left Dot movies reqs < s.left Dot movies reqs := by
    rintro hreturned ⟨r, hr⟩ heq
    have hstep : s.group reqs.length t = some
        { s with requests := r, call := Function.update s.call t .start } := by
      rw [TServer.group, hr]
      rfl
    exact ⟨_, heq.trans hstep, h.group hreturned hstep, h.left_group hstep⟩
  have hstep : s.step Dot movies reqs (t, name) = _ := if_pos hready
  cases hw : s.requests.worker t with
  | locking =>
    refine hgroup (fun cur hrec => ?_) ⟨_, by simp only [Group, hw]; rfl⟩ ?_
    · cases hw.symm.trans hrec
    · rw [hstep]
      simp only [hw]
  | testing cur =>
    refine hgroup (fun cur hrec => ?_) ?_ ?_
    · cases hw.symm.trans hrec
    · by_cases hcur : cur < reqs.length
      · exact ⟨_, by simp only [Group, hw, if_pos hcur]; rfl⟩
      · exact ⟨_, by simp only [Group, hw, if_neg hcur]; rfl⟩
    · rw [hstep]
      simp only [hw]
  | recommending cur =>
    by_cases hplace : (s.call t).place = .returned
    · refine hgroup (fun _ _ => hplace) ⟨_, by simp only [Group, hw]; rfl⟩ ?_
      rw [hstep]
      simp only [hw, hplace]
    · have hcall : (s.call t).ready name = true := by
        simp only [TServer.ready, hw] at hready
        cases hp : (s.call t).place with
        | returned => exact absurd hp hplace
        | _ => exact hready
      have hlt := (h.shares.cur_nonneg (h.called t cur hw))
      have hreq : reqs[cur.toNat]? = some reqs[cur.toNat] := List.getElem?_eq_getElem (by omega)
      obtain ⟨c', mem', lines', hstep', h', hless⟩ := h.call hids hserves hw hreq hcall
      refine ⟨_, hstep', h', TServer.left_lt (t := t) rfl (fun u hu => ?_) ?_⟩
      · simp only [TServer.workerLeft, Function.update_of_ne hu]
      · simp only [TServer.workerLeft, hw, hreq, Function.update_self, Option.map_some,
          Option.getD_some]
        omega
  | exited cur =>
    simp only [TServer.ready, hw] at hready
    cases hready

/-! ## The whole server -/

theorem serving_of_reachable (hids : (reqs.map Request.id).Nodup)
    (hserves : ∀ req ∈ reqs, req.Serves Dot movies)
    (h : (tserver Dot movies reqs w).Reachable s) : Serving Dot movies reqs s := by
  refine h.invariant (fun s hs => ?_) fun e s s' hs hstep => ?_
  · subst hs
    exact ⟨⟨le_rfl, by simp [TServer.boot, Requests.served, Worker.holds, upTo],
      by simp [TServer.boot, Requests.served], by simp [TServer.boot]⟩, .refl _,
      fun t cur ht => by simp [TServer.boot] at ht, fun t cur ht => by simp [TServer.boot] at ht,
      fun t cur ht => by simp [TServer.boot] at ht⟩
  · obtain ⟨hready, -⟩ := Option.ite_none_right_eq_some.1 hstep
    obtain ⟨s'', hstep', h', -⟩ := hs.step hids hserves hready
    obtain rfl := Option.some.inj (hstep'.symm.trans hstep)
    exact h'

omit [Score S] in
/-- A worker that has not exited can go on, or a thread of its call can. -/
theorem TServer.exists_ready (s : TServer w S) (t : Fin w) :
    (∃ name, s.ready (t, name) = true) ∨ ∃ cur, s.requests.worker t = .exited cur := by
  cases hw : s.requests.worker t with
  | locking => exact Or.inl ⟨[], by simp [TServer.ready, hw]⟩
  | testing cur => exact Or.inl ⟨[], by simp [TServer.ready, hw]⟩
  | recommending cur =>
    left
    cases hp : (s.call t).place with
    | joining tid0 =>
      cases hdone : tid0.done with
      | true => exact ⟨[], by simp [TServer.ready, Call.ready, hw, hp, hdone]⟩
      | false =>
        obtain ⟨name, hname⟩ := Thread.exists_ready hdone
        exact ⟨name, by simp [TServer.ready, Call.ready, hw, hp, hdone, hname]⟩
    | _ => exact ⟨[], by simp [TServer.ready, Call.ready, hw, hp]⟩
  | exited cur => exact Or.inr ⟨cur, rfl⟩

/-- All workers have exited. -/
def TServer.Over (s : TServer w S) : Prop :=
  ∀ t, ∃ cur, s.requests.worker t = .exited cur

omit [Score S] in
theorem TServer.over_or_ready (s : TServer w S) : s.Over ∨ ∃ e, s.ready e = true := by
  by_cases hover : s.Over
  · exact Or.inl hover
  · obtain ⟨t, ht⟩ := not_forall.1 hover
    obtain ⟨name, hname⟩ := (s.exists_ready t).resolve_right ht
    exact Or.inr ⟨(t, name), hname⟩

/-- When all workers have exited, the file of every request holds its ranking. -/
theorem Serving.files (h : Serving Dot movies reqs s) (hw : 0 < w) (hall : s.Over)
    {req : Request P} (hreq : req ∈ reqs) :
    s.files req.id = (rank (wantedRows Dot movies req)).map Prod.fst := by
  obtain ⟨k, hk, rfl⟩ := List.getElem_of_mem hreq
  have hserved : (k : ℤ) ∈ s.requests.served := by
    rw [← Multiset.mem_coe, h.shares.all_served hw hall, mem_upTo]
    omega
  obtain ⟨⟨t, cur⟩, hcall, heq⟩ := List.mem_map.1 hserved
  obtain rfl : cur = k := heq
  obtain ⟨cur', hexited⟩ := hall t
  refine ((h.written t k hcall).resolve_left fun hrec => ?_) _ (List.getElem?_eq_getElem hk)
  cases hexited.symm.trans hrec

/-- The steps of the server pay for themselves. -/
theorem serving_pays (hids : (reqs.map Request.id).Nodup)
    (hserves : ∀ req ∈ reqs, req.Serves Dot movies) :
    (tserver Dot movies reqs w).Pays (Serving Dot movies reqs) (fun _ => 1)
      (TServer.left Dot movies reqs) := by
  intro e s s' hs hstep
  obtain ⟨hready, -⟩ := Option.ite_none_right_eq_some.1 hstep
  obtain ⟨s'', hstep', h', hlt⟩ := hs.step hids hserves hready
  obtain rfl := Option.some.inj (hstep'.symm.trans hstep)
  refine ⟨h', ?_⟩
  show 1 + _ ≤ _
  omega

/-- The THREAD server serves every request, whatever the order of steps of its workers and their
threads : it takes a bounded number of steps, no step fails, something can go on until all
workers have exited, which it comes to from every state, and then the file of each request holds
the lines that `Recommend` alone writes for it. -/
theorem tserver_serves (hids : (reqs.map Request.id).Nodup)
    (hserves : ∀ req ∈ reqs, req.Serves Dot movies) (hw : 0 < w) :
    (∃ n, ∀ es s, (tserver Dot movies reqs w).run es (.boot movies w) = some s → es.length ≤ n) ∧
    ∀ s, (tserver Dot movies reqs w).Reachable s →
      (∀ e, s.ready e = true → ∃ s', (tserver Dot movies reqs w).step e s = some s') ∧
      (s.Over ∨ ∃ e, s.ready e = true) ∧
      (∃ es t, (tserver Dot movies reqs w).run es s = some t ∧ t.Over) ∧
      (s.Over → ∀ req ∈ reqs, Recommend Dot movies req = some (s.files req.id)) := by
  have hpays := @serving_pays S _ P Dot movies reqs w hids hserves
  refine ⟨⟨(TServer.boot movies w : TServer w S).left Dot movies reqs, fun es s hes => ?_⟩,
    fun s hs => ?_⟩
  · have hstart : Serving Dot movies reqs (.boot movies w) :=
      serving_of_reachable hids hserves (.of_init rfl)
    exact (Nat.le_add_right _ _).trans (System.length_le_of_measure hpays es hstart hes)
  have hserving := serving_of_reachable hids hserves hs
  refine ⟨fun e hready => ?_, s.over_or_ready, ?_, fun hall req hreq => ?_⟩
  · obtain ⟨s', hstep, -⟩ := hserving.step hids hserves hready
    exact ⟨s', hstep⟩
  · have hlive : ∀ s, Serving Dot movies reqs s → ¬s.Over → ∃ e s',
        (tserver Dot movies reqs w).step e s = some s' ∧ 0 < 1 := fun s hs hnot => by
      obtain ⟨e, hready⟩ := s.over_or_ready.resolve_left hnot
      obtain ⟨s', hstep, -⟩ := hs.step hids hserves hready
      exact ⟨e, s', hstep, Nat.one_pos⟩
    obtain ⟨es, t, hrun, hover, -⟩ := System.exists_run_done hpays hlive _ hserving le_rfl
    exact ⟨es, t, hrun, hover⟩
  · obtain ⟨-, hfits, hpos, hne⟩ := (hserves req hreq).wanted
    rw [hserving.files hw hall hreq]
    exact recommend_eq_rank Dot hfits.short hpos hne

local instance serverScore : Score ℤ :=
  instScoreInt

/-- All movies of the shelf, and the one with `ad` in its title. -/
def shelfRequests : List (Request ℤ) :=
  [⟨1, star, 3⟩, ⟨2, [97, 100], 5⟩]

/-- The movies of the shelf, by score and then by title. -/
def shelfOrder : List ℕ :=
  [32, 22, 12, 2, 37, 27, 17, 7, 34, 24, 14, 4, 39, 29, 19, 9, 36, 26, 16, 6, 31, 21, 11, 1, 38, 28,
    18, 8, 33, 23, 13, 3, 30, 20, 10, 0, 35, 25, 15, 5]

/-- Eight workers serve them : they all exit, and leave forty lines and one line. -/
theorem tserver_serves_shelf : ∃ (es : List (Fin 8 × List Half)) (s : TServer 8 ℤ),
    (tserver (· * ·) shelf shelfRequests 8).run es (.boot shelf 8) = some s ∧
    (∀ t, ∃ cur, s.requests.worker t = .exited cur) ∧
    s.files 1 = shelfOrder.map
      (fun n => [if n % 2 = 0 then 97 else 98, 100 - n.toUInt8] ++ key) ∧
    s.files 2 = [[97, 100] ++ key] := by
  have hserves : ∀ req ∈ shelfRequests, req.Serves (· * ·) shelf := by
    intro req hreq
    rcases List.mem_cons.1 hreq with rfl | hreq
    · exact ⟨by decide +kernel, by decide +kernel, by decide +kernel⟩
    · obtain rfl := List.mem_singleton.1 hreq
      exact ⟨by decide +kernel, by decide +kernel, by decide +kernel⟩
  obtain ⟨-, hreach⟩ := @tserver_serves ℤ _ ℤ (· * ·) shelf shelfRequests 8 (by decide)
    hserves (by decide)
  obtain ⟨-, -, ⟨es, s, hrun, hover⟩, -⟩ := hreach _ (.of_init rfl)
  obtain ⟨-, -, -, hfiles⟩ := hreach s ⟨_, es, rfl, hrun⟩
  have hstar : Recommend (· * ·) shelf (⟨1, star, 3⟩ : Request ℤ) = some (shelfOrder.map
      fun n => [if n % 2 = 0 then 97 else 98, 100 - n.toUInt8] ++ key) := by
    decide +kernel
  have had : Recommend (· * ·) shelf (⟨2, [97, 100], 5⟩ : Request ℤ) =
      some [[97, 100] ++ key] := by
    decide +kernel
  refine ⟨es, s, hrun, hover, ?_, ?_⟩
  · exact Option.some.inj ((hfiles hover _ List.mem_cons_self).symm.trans hstar)
  · exact Option.some.inj ((hfiles hover _ (List.mem_cons_of_mem _ List.mem_cons_self)).symm.trans
      had)

end Serving

end SP2022.Recommendation
