import SP2022.BookingFraming
import SP2022.BookingLimits

/-!
# Commands are all or nothing

What the command line of a client does to the whole system (`AllOrNothing`), for three words
of at most seven characters : the file changes in the client's record only, by all three
parameters or not at all, the client gets the answer of the first check that fails, and its
connection, its count and its lock are given back and nothing else. Nothing of this depends
on the counts in the file, but for the limits : from a record whose counts a command has
already taken to the ends of `int` (`limits_exceeded`) the exact sums may wrap around. A
command is all or nothing exactly if they do not (`command_atomic_iff`), and so is every
command of a run that keeps the limits.
-/

namespace SP2022.Booking

open Server

/-! ## One command -/

/-- What a command line should give : the error of the first check that fails, or the new
counts. -/
def bookResult (t : Fin OBJ_NUM → Bytes) (old : Counts) : Except Reply Counts :=
  if ∃ j, convert (t j) = ERROR_NUM then .error .failed
  else limitCheck (fun j => convert (t j)) old

/-- What a connection with the record `k` leaves when it ends : its slot, its count and its
lock are free, and everything else is as it was. -/
structure Closes (s s' : Server) (i : ℕ) (k : ℤ) : Prop where
  closed : s'.isOpen i = false
  slot : (s'.requestP i).conn_fd = -1 ∧ (s'.requestP i).buf_len = 0 ∧ (s'.requestP i).id = 0
  arr : s'.arr k = 0
  locks : ∀ b, sizeofRecord * k ≤ b → b < sizeofRecord * k + sizeofRecord → s'.locks b = none
  others : ∀ j, j ≠ i → s'.isOpen j = s.isOpen j ∧ s'.requestP j = s.requestP j
  counts : ∀ m, m ≠ k → s'.arr m = s.arr m
  bytes : ∀ b, ¬(sizeofRecord * k ≤ b ∧ b < sizeofRecord * k + sizeofRecord) →
    s'.locks b = s.locks b

/-- The client of a write server is the only one with its record, so its end frees it. -/
theorem Table.closes {s : Server} (h : Table .write s) {i : ℕ} {k : ℤ} (hopen : s.isOpen i)
    (hid : (s.requestP i).id = 902001 + k) (h0 : 0 ≤ k) (hk : k < 20) (buf input : Bytes) :
    Closes s (disconnect { s.noteLine i buf with input := input } i true) i k := by
  set s₁ : Server := { s.noteLine i buf with input := input } with hs₁
  have hone : s.arr k = 1 := by
    have hle := h.single rfl k h0 hk
    have hcount := h.arr k h0 hk
    have hpos : 0 < (s.clients k).card := Finset.card_pos.2 ⟨i, mem_clients.2 ⟨hopen, hid⟩⟩
    omega
  have hid₁ : (s₁.requestP i).id = 902001 + k := ((same_noteLine s i buf).id i).trans hid
  have harr := arr_disconnect_true s₁ i hid₁
  have hlocks := locks_disconnect_true s₁ i hid₁
  have hfree : s₁.arr k - 1 = 0 := sub_eq_zero.2 hone
  refine ⟨?_, ?_, ?_, fun b hlo hhi => ?_, fun j hj => ⟨?_, ?_⟩, fun m hm => ?_, fun b hb => ?_⟩
  · rw [isOpen_disconnect]
    simp
  · rw [requestP_disconnect, Function.update_self]
    exact ⟨rfl, rfl, rfl⟩
  · rw [harr, if_pos rfl, hfree]
  · rw [hlocks, if_pos ⟨hone, hlo, hhi⟩]
  · rw [isOpen_disconnect]
    simp only [hj, ne_eq, not_false_eq_true, decide_true, Bool.and_true]
    rfl
  · rw [requestP_disconnect, Function.update_of_ne hj]
    exact Function.update_of_ne hj _ _
  · rw [harr, if_neg hm]
    rfl
  · rw [hlocks, if_neg fun hc => hb hc.2]
    rfl

/-- A line of a client of a write server is a command. -/
theorem handle_command {setlk : Flock → Bool} {file : File} {s : Server} {i : ℕ}
    {chunk : Option Bytes} {buf : Bytes} {o : Outcome} (hid : (s.requestP i).id ≠ 0)
    (hline : handle_read chunk = .line buf)
    (h : handle .write setlk file (.read i chunk) s = some o) :
    o = command file i (s.noteLine i buf) := by
  have hsame := (same_noteLine s i buf).id i
  rw [handle_line hline h, line, if_neg fun hc => hid (hsame.symm.trans hc)]

/-! ## The size of `input` -/

@[simp] theorem input_disconnect (s : Server) (i : ℕ) (lock : Bool) :
    (s.disconnect i lock).input = s.input := by
  cases lock with
  | false => rfl
  | true =>
    show (s.releaseId _).input = s.input
    unfold releaseId
    dsimp only
    split_ifs <;> rfl

theorem input_initializeClient (s : Server) (kind : Kind) (setlk : Flock → Bool) (file : File)
    (i : ℕ) : (s.initializeClient kind setlk file i).1.input = s.input := by
  unfold initializeClient setLock
  dsimp only
  split_ifs <;> simp

/-- `sscanf` does not change the size of `input`. -/
theorem length_scan (buf input : Bytes) : (scan buf input).length = input.length := by
  rw [scan_eq, length_scanFrom]

theorem length_input_line {kind : Kind} {setlk : Flock → Bool} {file : File} {i : ℕ}
    {s t : Server} (ht : (line kind setlk file i s).server = some t) :
    t.input.length = s.input.length := by
  have hlogin : ∀ last, (login kind setlk file i last s).server = some t → t.input = s.input := by
    intro last h
    obtain rfl := Option.some.inj h
    exact input_initializeClient s kind setlk file i
  unfold line at ht
  cases kind with
  | read =>
    simp only at ht
    split_ifs at ht
    · rw [hlogin _ ht]
    · rw [← Option.some.inj ht]
    · rw [← Option.some.inj ht, input_disconnect]
  | write =>
    simp only at ht
    split_ifs at ht
    · rw [hlogin _ ht]
    · have hserver := (@command_eq file i s ((s.requestP i).id - 902001) (by omega)).1
      rw [ht] at hserver
      rw [Option.some.inj hserver, input_disconnect]
      exact length_scan _ _

/-- No event changes the size of `input`. -/
theorem length_input_handle {kind : Kind} {setlk : Flock → Bool} {file : File} {e : Event}
    {s t : Server} {o : Outcome} (h : handle kind setlk file e s = some o)
    (ht : o.server = some t) : t.input.length = s.input.length := by
  unfold handle at h
  cases e with
  | accept fd =>
    simp only at h
    by_cases hfd : fd < s.maxfd ∧ fd ≠ s.listen_fd ∧ s.master_set fd = false
    · rw [if_pos hfd] at h
      obtain rfl := Option.some.inj h
      rw [← Option.some.inj ht]
    · rw [if_neg hfd] at h
      cases h
  | acceptFailed again =>
    obtain rfl := Option.some.inj h
    cases again
    · cases ht
    · rw [← Option.some.inj ht]
  | read i chunk =>
    simp only at h
    split_ifs at h
    cases hread : handle_read chunk with
    | failed =>
      rw [hread] at h
      obtain rfl := Option.some.inj h
      rw [← Option.some.inj ht]
    | eof =>
      rw [hread] at h
      obtain rfl := Option.some.inj h
      rw [← Option.some.inj ht, input_disconnect]
    | exit =>
      rw [hread] at h
      obtain rfl := Option.some.inj h
      cases ht
    | line buf =>
      rw [hread] at h
      obtain rfl := Option.some.inj h
      have hlen := length_input_line ht
      exact hlen

/-! ## In a run of servers -/

section World

variable {ι : Type*} [Fintype ι] [DecidableEq ι] {kind : ι → Kind} {W W' : World ι}

/-- In every reachable world `input` has its size. -/
theorem sized_of_reachable {file : File} (h : (servers kind file).Reachable W) :
    ∀ p s, W.proc p = some s → s.input.length = sizeofInput := by
  refine h.invariant (I := fun W : World ι => ∀ p s, W.proc p = some s →
    s.input.length = sizeofInput) (fun W hW p s hs => ?_) fun e W W' hW hstep p t ht => ?_
  · obtain ⟨listen_fd, maxfd, input, hlen, hp⟩ := hW.1 p
    obtain rfl := Option.some.inj (hp.symm.trans hs)
    exact hlen
  · obtain ⟨s, hs, hmap⟩ := Option.bind_eq_some_iff.1 hstep
    obtain ⟨o, ho, rfl⟩ := Option.map_eq_some_iff.1 hmap
    have ht' : Function.update W.proc e.1 o.server p = some t := ht
    by_cases hp : p = e.1
    · subst hp
      rw [Function.update_self] at ht'
      exact (length_input_handle ho ht').trans (hW _ s hs)
    · rw [Function.update_of_ne hp] at ht'
      exact hW p t ht'

/-- From a file in its limits, the counts of every reachable file are `int`s and not
negative. -/
theorem counts_of_reachable {file : File} (hfile : InLimits file)
    (h : (servers kind file).Reachable W) {k : ℤ} (h0 : 0 ≤ k) (hk : k < 20) (j : Fin OBJ_NUM) :
    IsInt ((W.file k).bookingState j) ∧ 0 ≤ (W.file k).bookingState j := by
  obtain ⟨hpos, hsum⟩ := hfile k h0 hk
  refine (((sums_of_reachable h k).exact fun i => ⟨?_, hpos i⟩) j).2
  have hle := Finset.single_le_sum (fun i _ => hpos i) (Finset.mem_univ i)
  have hi := hpos i
  exact ⟨by omega, by omega⟩

/-- A command line of the client `i` of `p` with the words `t` is all or nothing : the file
changes by all three parameters in the record `k` or not at all, the client is told the
first check that fails, and its connection ends and nothing else changes. -/
structure AllOrNothing (W W' : World ι) (p : ι) (i : ℕ) (k : ℤ) (t : Fin OBJ_NUM → Bytes) :
    Prop where
  file : W'.file = fileAfter W.file k (bookResult t (W.file k).bookingState)
  sent : W'.sent = W.sent ++
    (repliesAfter k (bookResult t (W.file k).bookingState)).map fun r => (p, i, r)
  closes : ∃ s s', W.proc p = some s ∧ W'.proc p = some s' ∧ Closes s s' i k
  others : ∀ q, q ≠ p → W'.proc q = W.proc q

/-- A command line, in a reachable world. -/
theorem World.command_step {file : File} (h : (servers kind file).Reachable W) {p : ι} {i : ℕ}
    {k : ℤ} {chunk : Option Bytes} {buf : Bytes} {t : Fin OBJ_NUM → Bytes}
    (hkind : kind p = .write) (hpast : W.Past p i k) (hline : handle_read chunk = .line buf)
    (hwords : words buf = List.ofFn t) (hshort : ∀ j, (t j).length ≤ 7)
    (hstep : World.step kind (p, .read i chunk) W = some W') :
    (0 ≤ k ∧ k < 20) ∧
      W'.file = fileAfter W.file k (result (ownParams t) (W.file k).bookingState) ∧
      W'.sent = W.sent ++ (repliesAfter k (result (ownParams t) (W.file k).bookingState)).map
        (fun r => (p, i, r)) ∧
      (∃ s s', W.proc p = some s ∧ W'.proc p = some s' ∧ Closes s s' i k) ∧
      ∀ q, q ≠ p → W'.proc q = W.proc q := by
  obtain ⟨s, hs, hopen, hne, hid⟩ := hpast
  have htable := (shared_of_reachable h).table p s hs
  have hrange := (htable.ids i).resolve_left hne
  rw [hkind] at htable
  obtain ⟨s', hs', hmap⟩ := Option.bind_eq_some_iff.1 hstep
  obtain ⟨o, ho, rfl⟩ := Option.map_eq_some_iff.1 hmap
  obtain rfl := Option.some.inj (hs.symm.trans hs')
  rw [show kind (p, Event.read i chunk).1 = .write from hkind] at ho
  obtain rfl := handle_command hne hline ho
  have hreq := requestP_noteLine s i buf
  obtain ⟨hserver, hfile, hreplies⟩ := @command_eq W.file i (s.noteLine i buf) k
    (by rw [hreq]; exact hid)
  have hparams : params (scan ((s.noteLine i buf).requestP i).buf (s.noteLine i buf).input) =
      ownParams t := by
    rw [hreq]
    have htake : (words buf).take OBJ_NUM = List.ofFn t := by rw [hwords]; rfl
    have hscan := params_scan (sized_of_reachable h p s hs) (zero_notMem_line hline) (hshort 2)
      htake
    rwa [overrun_short hshort] at hscan
  rw [hparams] at hfile hreplies
  have hcloses := htable.closes hopen hid (by omega) (by omega) buf
    (scan ((s.noteLine i buf).requestP i).buf (s.noteLine i buf).input)
  refine ⟨⟨by omega, by omega⟩, hfile, ?_, ⟨s, _, hs, ?_, hcloses⟩,
    fun q hq => Function.update_of_ne hq _ _⟩
  · exact congrArg (fun r => W.sent ++ r.map fun r => (p, i, r)) hreplies
  · exact (Function.update_self _ _ _).trans hserver

/-- The checks on three words are as they should : one of them is no number, or nothing that
they add wraps around. -/
def Sound (t : Fin OBJ_NUM → Bytes) (old : Counts) : Prop :=
  (∃ j, convert (t j) = ERROR_NUM) ∨ Unwrapped (fun j => convert (t j)) old

/-- Sound words give what they should. -/
theorem result_of_sound {t : Fin OBJ_NUM → Bytes} {old : Counts} (hold : ∀ j, IsInt (old j))
    (h0 : ∀ j, 0 ≤ old j) (h : Sound t old) : result (ownParams t) old = bookResult t old := by
  unfold bookResult ownParams
  by_cases herr : ∃ j, convert (t j) = ERROR_NUM
  · rw [if_pos herr, if_neg fun hall => herr.elim hall]
    rfl
  · rw [if_neg herr, if_pos fun j hj => herr ⟨j, hj⟩]
    exact check_of_unwrapped (fun j => convert_isInt _) hold h0 (h.resolve_left herr)

/-- Unsound words should be refused for their total, and are not. -/
theorem result_of_unsound {t : Fin OBJ_NUM → Bytes} {old : Counts} (hold : ∀ j, IsInt (old j))
    (h0 : ∀ j, 0 ≤ old j) (h : ¬Sound t old) :
    bookResult t old = .error .exceeds ∧ result (ownParams t) old ≠ .error .exceeds := by
  obtain ⟨herr, hwrap⟩ := not_or.1 h
  unfold bookResult ownParams
  rw [if_neg herr, if_pos fun j hj => herr ⟨j, hj⟩]
  exact check_of_wrapped (fun j => convert_isInt _) hold h0 hwrap

theorem eq_of_repliesAfter {k : ℤ} {r : Except Reply Counts}
    (h : repliesAfter k r = [.exceeds]) : r = .error .exceeds := by
  cases r with
  | error r => exact congrArg _ (List.cons.inj h).1
  | ok new => exact absurd (List.cons.inj h).1 (by simp)

omit [Fintype ι] [DecidableEq ι] in
/-- Small parameters in a record in its limits do not wrap around. -/
theorem sound_of_inLimits {file : File} (h : InLimits file) {k : ℤ} (h0 : 0 ≤ k) (hk : k < 20)
    {t : Fin OBJ_NUM → Bytes} (hshort : ∀ j, (t j).length ≤ 7) :
    Sound t (file k).bookingState := by
  obtain ⟨hpos, hsum⟩ := h k h0 hk
  refine Or.inr (or_iff_not_imp_left.2 fun _ => ⟨fun j => ?_, ?_⟩)
  · have hle := Finset.single_le_sum (fun i _ => hpos i) (Finset.mem_univ j)
    have hbound := (convert_bounds (hshort j)).2
    dsimp only
    omega
  · have hbound := fun j => (convert_bounds (hshort j)).2
    have h0 := hbound 0
    have h1 := hbound 1
    have h2 := hbound 2
    rw [Fin.sum_univ_three] at hsum ⊢
    dsimp only
    omega

/-- In every reachable state of the servers, a command line of three words of at most seven
characters is all or nothing exactly if one of them is no number or nothing that it adds
wraps around. Every such line is, after a run without a command whose total wraps around. -/
theorem command_atomic_iff {file : File} (hfile : InLimits file)
    (h : (servers kind file).Reachable W) {p : ι} {i : ℕ} {k : ℤ} {chunk : Option Bytes}
    {buf : Bytes} {t : Fin OBJ_NUM → Bytes} (hkind : kind p = .write) (hpast : W.Past p i k)
    (hline : handle_read chunk = .line buf) (hwords : words buf = List.ofFn t)
    (hshort : ∀ j, (t j).length ≤ 7) (hstep : World.step kind (p, .read i chunk) W = some W') :
    (AllOrNothing W W' p i k t ↔ Sound t (W.file k).bookingState) ∧
      ∀ W₀ es, (servers kind file).init W₀ → (servers kind file).run es W₀ = some W →
        (servers kind file).EachStep (fun e V => V.Tame kind e) es W₀ →
          AllOrNothing W W' p i k t := by
  obtain ⟨⟨h0, hk⟩, hfile', hsent, hcloses, hothers⟩ :=
    World.command_step h hkind hpast hline hwords hshort hstep
  have hcounts := counts_of_reachable hfile h h0 hk
  have hold := fun j => (hcounts j).1
  have hpos := fun j => (hcounts j).2
  have hiff : AllOrNothing W W' p i k t ↔ Sound t (W.file k).bookingState := by
    refine ⟨fun hall => not_not.1 fun hsound => ?_, fun hsound => ?_⟩
    · obtain ⟨hwant, hgot⟩ := result_of_unsound hold hpos hsound
      have heq := hsent.symm.trans hall.sent
      rw [List.append_cancel_left_eq, hwant] at heq
      have hinj : Function.Injective fun r : Reply => (p, i, r) := fun r r' hr =>
        (Prod.mk.inj (Prod.mk.inj hr).2).2
      exact hgot (eq_of_repliesAfter (List.map_injective_iff.2 hinj heq))
    · rw [result_of_sound hold hpos hsound] at hfile' hsent
      exact ⟨hfile', hsent, hcloses, hothers⟩
  refine ⟨hiff, fun W₀ es h₀ hrun htame => hiff.2 ?_⟩
  exact sound_of_inLimits (inLimits_of_tame hfile h₀ hrun htame) h0 hk hshort

end World

/-- A write server over an empty file. -/
def oneServer : World Unit :=
  ⟨fun _ => some (boot 3 8 (List.replicate 24 0)), emptyFile, [], []⟩

theorem oneServer_init : (servers (fun _ : Unit => .write) emptyFile).init oneServer :=
  ⟨fun _ => ⟨3, 8, List.replicate 24 0, rfl, rfl⟩, rfl, rfl, rfl⟩

/-- A client who logs in and sends `1 2 3` is served all or nothing exactly if that is
sound. -/
theorem command_atomic_one : ∃ W W',
    (servers (fun _ : Unit => .write) emptyFile).run
      [((), .accept 4), ((), .read 4 (some idLine))] oneServer = some W ∧
    World.step (fun _ => .write) ((), .read 4 (some [49, 32, 50, 32, 51, 10])) W = some W' ∧
    (AllOrNothing W W' () 4 2 ![[49], [50], [51]] ↔
      Sound ![[49], [50], [51]] (W.file 2).bookingState) := by
  refine ⟨_, _, (Option.some_get (by decide +kernel)).symm,
    (Option.some_get (by decide +kernel)).symm, ?_⟩
  exact (command_atomic_iff inLimits_emptyFile
    ⟨oneServer, _, oneServer_init, (Option.some_get (by decide +kernel)).symm⟩ rfl
    ⟨_, (Option.some_get (by decide +kernel)).symm, by decide +kernel, by decide +kernel,
      by decide +kernel⟩
    (show handle_read _ = .line [49, 32, 50, 32, 51] by decide +kernel) (by decide +kernel)
    (by decide) (Option.some_get (by decide +kernel)).symm).1

/-- After `0 21474836 47` the counts are `0`, `2147483647` and `47`. A client who then sends
`0 0 1` should be refused for the total, and is booked. -/
theorem command_not_atomic : ∃ W W', (servers (fun _ : Unit => .write) emptyFile).Reachable W ∧
    W.Past () 4 2 ∧
    World.step (fun _ => .write) ((), .read 4 (some [48, 32, 48, 32, 49, 10])) W = some W' ∧
    (∀ j, convert (![[48], [48], [49]] j) ≠ ERROR_NUM) ∧
    15 < ∑ j, (convert (![[48], [48], [49]] j) + (W.file 2).bookingState j) ∧
    (W'.file 2).bookingState ≠ (W.file 2).bookingState := by
  refine ⟨_, _, ⟨oneServer, wrapEvents ++ [((), .accept 4), ((), .read 4 (some idLine))],
      oneServer_init, (Option.some_get (by decide +kernel)).symm⟩,
    ⟨_, (Option.some_get (by decide +kernel)).symm, by decide +kernel, by decide +kernel,
      by decide +kernel⟩, (Option.some_get (by decide +kernel)).symm, by decide +kernel,
    by decide +kernel, by decide +kernel⟩

end SP2022.Booking
