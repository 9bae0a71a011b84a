import Mathlib.Data.Fintype.Basic
import Mathlib.Data.Int.ModEq
import SP2022.BookingCommand
import SP2022.BookingTable

/-!
# Servers that share one file

Any number of servers, each a read server or a write server, share `bookingRecord` and
the record locks : `fcntl` grants a lock unless another live process holds a conflicting
one on one of its bytes (`World.grants`), and a process that exits loses its locks. Any
server handles the next event.

In every reachable world the tables of `BookingTable` hold and no two processes hold
conflicting locks (`Shared`). So the client of a write server is alone with its record
(`Shared.alone`), the record stays as it was shown until that client is disconnected
(`Shared.shown_stays`), and every count is its initial value plus what the successful
commands added (`bookings_isolated`).
-/

namespace SP2022.Booking

open Server

/-- Server processes `ι` and the file. `applied` lists what successful commands added to
which record, `sent` what was written to which connection. -/
structure World (ι : Type*) where
  proc : ι → Option Server
  file : File
  applied : List (ℤ × Counts)
  sent : List (ι × ℕ × Reply)

/-- The connection an event is about. -/
def Event.fd : Event → ℕ
  | .accept fd => fd
  | .acceptFailed _ => 0
  | .read i _ => i

section World

variable {ι : Type*} [Fintype ι] [DecidableEq ι]

/-- The lock a live process holds on a byte. -/
def World.heldBy (W : World ι) (p : ι) (b : ℤ) : Option LockType :=
  (W.proc p).bind fun s => s.locks b

/-- Whether `fcntl` grants a lock to the process `p`. -/
def World.grants (W : World ι) (p : ι) (l : Flock) : Bool :=
  decide (∀ q, q ≠ p → ∀ j < l.l_len.toNat, ∀ t ∈ W.heldBy q (l.l_start + j),
    l.l_type.conflicts t = false)

/-- The server `e.1` handles the event `e.2`. -/
def World.step (kind : ι → Kind) (e : ι × Event) (W : World ι) : Option (World ι) :=
  (W.proc e.1).bind fun s =>
    (handle (kind e.1) (W.grants e.1) W.file e.2 s).map fun o =>
      { proc := Function.update W.proc e.1 o.server
        file := o.file
        applied := W.applied ++ o.applied
        sent := W.sent ++ o.replies.map fun r => (e.1, e.2.fd, r) }

omit [Fintype ι] [DecidableEq ι] in
/-- The record and the parameters of a command line, if its three slots are numbers. -/
def World.command? (kind : ι → Kind) (e : ι × Event) (W : World ι) : Option (ℤ × Counts) :=
  match e.2, W.proc e.1 with
  | .read i chunk, some s =>
    match handle_read chunk with
    | .line buf =>
      if kind e.1 = .write ∧ (s.requestP i).id ≠ 0 then
        (params (scan buf s.input)).map fun param => ((s.requestP i).id - 902000 - 1, param)
      else none
    | _ => none
  | _, _ => none

omit [Fintype ι] [DecidableEq ι] in
/-- The event is a command line of a client of the record `k` that passes the checks with
the parameters `param`, and makes `new` of the counts. -/
structure World.Books (kind : ι → Kind) (e : ι × Event) (k : ℤ) (param new : Counts)
    (W : World ι) : Prop where
  line : W.command? kind e = some (k, param)
  passes : check param (W.file k).bookingState = .ok new

/-- The servers `ι` on the file `file`. -/
def servers (kind : ι → Kind) (file : File) : System (World ι) (ι × Event) where
  init W := (∀ p, ∃ (listen_fd maxfd : ℕ) (input : Bytes), input.length = sizeofInput ∧
      W.proc p = some (boot listen_fd maxfd input)) ∧
    W.file = file ∧ W.applied = [] ∧ W.sent = []
  step := World.step kind

/-- The connection `i` of the process `p` is past `initialize` for the record `k`. -/
def World.Past (W : World ι) (p : ι) (i : ℕ) (k : ℤ) : Prop :=
  ∃ s, W.proc p = some s ∧ s.isOpen i ∧ (s.requestP i).id ≠ 0 ∧ (s.requestP i).id = 902001 + k

/-- The tables of the live servers hold, and locks of different processes do not
conflict. -/
structure Shared (kind : ι → Kind) (W : World ι) : Prop where
  table : ∀ p s, W.proc p = some s → Table (kind p) s
  locks : ∀ p q, p ≠ q → ∀ b a t, W.heldBy p b = some a → W.heldBy q b = some t →
    a.conflicts t = false

variable {kind : ι → Kind} {W W' : World ι}

/-! ## One event -/

/-- A step is one of the things an event can do. -/
theorem World.step_cases (h : Shared kind W) {e : ι × Event}
    (hstep : World.step kind e W = some W') :
    ∃ s o, W.proc e.1 = some s ∧ Handled (kind e.1) (W.grants e.1) W.file s e.2 o ∧
      W'.proc = Function.update W.proc e.1 o.server ∧ W'.file = o.file ∧
      W'.applied = W.applied ++ o.applied ∧
      W'.sent = W.sent ++ o.replies.map fun r => (e.1, e.2.fd, r) := by
  obtain ⟨s, hs, hmap⟩ := Option.bind_eq_some_iff.1 hstep
  obtain ⟨o, ho, rfl⟩ := Option.map_eq_some_iff.1 hmap
  exact ⟨s, o, hs, handle_spec (h.table _ s hs) ho, rfl, rfl, rfl, rfl⟩

/-- `disconnect` takes no lock. -/
theorem locks_disconnect {s : Server} {i : ℕ} {lock : Bool} {b : ℤ} {a : LockType}
    (h : (s.disconnect i lock).locks b = some a) : s.locks b = some a := by
  cases lock with
  | false => exact h
  | true =>
    rw [locks_disconnect_true s i (show (s.requestP i).id = 902001 + ((s.requestP i).id - 902001) by
      omega)] at h
    split_ifs at h
    exact h

/-- A lock held after an event was held before, or has just been granted. -/
theorem Handled.locks {kind : Kind} {setlk : Flock → Bool} {file : File} {s : Server} {e : Event}
    {o : Outcome} (h : Handled kind setlk file s e o) {t : Server} (ht : o.server = some t) {b : ℤ}
    {a : LockType} (hb : t.locks b = some a) :
    s.locks b = some a ∨ ∃ k, setlk (recordLock kind k) ∧ (recordLock kind k).covers b ∧
      a = lockType kind := by
  cases h with
  | opened hnew hopen hid harr hlocks =>
    obtain rfl := Option.some.inj ht
    exact Or.inl (hlocks ▸ hb)
  | kept hsame =>
    obtain rfl := Option.some.inj ht
    exact Or.inl (hsame.locks ▸ hb)
  | exited => simp at ht
  | closed hopen hsame =>
    obtain rfl := Option.some.inj ht
    exact Or.inl (hsame.locks ▸ locks_disconnect hb)
  | @admitted i chunk s' k hopen hsame hid h0 hk hlock hfree =>
    obtain rfl := Option.some.inj ht
    have hb' : (if (recordLock kind k).covers b then some (lockType kind) else s'.locks b) =
        some a := hb
    split_ifs at hb' with hcov
    · exact Or.inr ⟨k, hlock, hcov, (Option.some.inj hb').symm⟩
    · exact Or.inl (hsame.locks ▸ hb')
  | updated hopen hsame =>
    obtain rfl := Option.some.inj ht
    exact Or.inl (hsame.locks ▸ locks_disconnect hb)

theorem conflicts_comm (a t : LockType) : a.conflicts t = t.conflicts a :=
  Bool.or_comm _ _

/-- A granted lock conflicts with no lock of another process. -/
theorem World.of_grants {p q : ι} (hne : q ≠ p) {l : Flock} (h : W.grants p l) {b : ℤ}
    (hb : l.covers b) {t : LockType} (ht : W.heldBy q b = some t) :
    l.l_type.conflicts t = false := by
  simp only [Flock.covers, Bool.and_eq_true, decide_eq_true_eq] at hb
  have hall := of_decide_eq_true h
  refine hall q hne (b - l.l_start).toNat (by omega) t ?_
  rw [show l.l_start + ((b - l.l_start).toNat : ℤ) = b by omega]
  exact ht

theorem Shared.step (h : Shared kind W) {e : ι × Event} (hstep : World.step kind e W = some W') :
    Shared kind W' := by
  obtain ⟨s, o, hs, hh, hproc, -, -, -⟩ := World.step_cases h hstep
  have hnew : ∀ b a, W'.heldBy e.1 b = some a → W.heldBy e.1 b = some a ∨
      ∃ k, W.grants e.1 (recordLock (kind e.1) k) ∧ (recordLock (kind e.1) k).covers b ∧
        a = lockType (kind e.1) := by
    intro b a ha
    obtain ⟨t, ht, hb⟩ := Option.bind_eq_some_iff.1 ha
    rw [hproc, Function.update_self] at ht
    refine (hh.locks ht hb).imp_left fun hold => ?_
    exact Option.bind_eq_some_iff.2 ⟨s, hs, hold⟩
  have hother : ∀ q, q ≠ e.1 → ∀ b, W'.heldBy q b = W.heldBy q b := by
    intro q hq b
    simp only [World.heldBy, hproc, Function.update_of_ne hq]
  -- a lock of the process that moved against one of another process
  have hpair : ∀ q, q ≠ e.1 → ∀ b a t, W'.heldBy e.1 b = some a → W'.heldBy q b = some t →
      a.conflicts t = false := by
    intro q hq b a t ha ht
    rw [hother q hq] at ht
    rcases hnew b a ha with hold | ⟨k, hgrant, hcov, rfl⟩
    · exact h.locks e.1 q (Ne.symm hq) b a t hold ht
    · exact W.of_grants hq hgrant hcov ht
  refine ⟨fun p t ht => ?_, fun p q hne b a t ha ht => ?_⟩
  · rw [hproc] at ht
    by_cases hp : p = e.1
    · subst hp
      rw [Function.update_self] at ht
      exact hh.table (h.table _ s hs) ht
    · rw [Function.update_of_ne hp] at ht
      exact h.table p t ht
  · by_cases hp : p = e.1
    · subst hp
      exact hpair q (Ne.symm hne) b a t ha ht
    by_cases hq : q = e.1
    · subst hq
      rw [conflicts_comm]
      exact hpair p hne b t a ht ha
    · rw [hother p hp] at ha
      rw [hother q hq] at ht
      exact h.locks p q hne b a t ha ht

theorem shared_of_reachable {file : File} (h : (servers kind file).Reachable W) :
    Shared kind W := by
  refine h.invariant (fun W hW => ⟨fun p s hs => ?_, fun p q _ b a t ha => ?_⟩)
    fun e W W' hW hstep => hW.step hstep
  · obtain ⟨listen_fd, maxfd, input, -, hp⟩ := hW.1 p
    obtain rfl := Option.some.inj (hp.symm.trans hs)
    exact table_boot _ listen_fd maxfd input
  · obtain ⟨listen_fd, maxfd, input, -, hp⟩ := hW.1 p
    rw [World.heldBy, hp] at ha
    exact absurd ha (by simp [boot])

/-! ## Exclusion -/

omit [Fintype ι] [DecidableEq ι] in
/-- A client past `initialize` has the lock on its record. -/
theorem Shared.heldBy_of_past (h : Shared kind W) {p : ι} {i : ℕ} {k : ℤ} (hp : W.Past p i k) :
    W.heldBy p (sizeofRecord * k) = some (lockType (kind p)) := by
  obtain ⟨s, hs, hopen, hne, hid⟩ := hp
  have ht := h.table p s hs
  have hrange := (ht.ids i).resolve_left hne
  have hcount := ht.arr k (by omega) (by omega)
  have hpos : 0 < (s.clients k).card := Finset.card_pos.2 ⟨i, mem_clients.2 ⟨hopen, hid⟩⟩
  refine Option.bind_eq_some_iff.2 ⟨s, hs, ?_⟩
  rw [ht.locks k (by omega) (by omega) _ le_rfl (by simp only [sizeofRecord]; omega),
    if_neg (by omega)]

omit [Fintype ι] in
/-- The client of a write server shares its record with no other connection : in its own
process because of `arr`, in others because of the lock. -/
theorem Shared.alone (h : Shared kind W) {p q : ι} {i j : ℕ} {k : ℤ} (hw : kind p = .write)
    (hp : W.Past p i k) (hq : W.Past q j k) : p = q ∧ i = j := by
  by_cases hpq : p = q
  · subst hpq
    refine ⟨rfl, ?_⟩
    obtain ⟨s, hs, hopen, hne, hid⟩ := hp
    obtain ⟨s', hs', hopen', -, hid'⟩ := hq
    obtain rfl := Option.some.inj (hs.symm.trans hs')
    have ht := h.table p s hs
    have hrange := (ht.ids i).resolve_left hne
    have hone := ht.single hw k (by omega) (by omega)
    rw [ht.arr k (by omega) (by omega)] at hone
    exact Finset.card_le_one.1 (by omega) i (mem_clients.2 ⟨hopen, hid⟩) j
      (mem_clients.2 ⟨hopen', hid'⟩)
  · have hconf := h.locks p q hpq _ _ _ (h.heldBy_of_past hp) (h.heldBy_of_past hq)
    rw [hw] at hconf
    simp [LockType.conflicts, lockType] at hconf

/-! ## The record of a client -/

/-- A client past `initialize` after an event was so before, or has just been shown its
record. -/
theorem Handled.past {kind : Kind} {setlk : Flock → Bool} {file : File} {s : Server} {e : Event}
    {o : Outcome} (ht : Table kind s) (h : Handled kind setlk file s e o) {t : Server}
    (hserver : o.server = some t) {j : ℕ} {k : ℤ} (h0 : 0 ≤ k) (hopen : t.isOpen j)
    (hid : (t.requestP j).id = 902001 + k) :
    (s.isOpen j ∧ (s.requestP j).id = 902001 + k) ∨ e.fd = j ∧ o.file = file ∧
      o.replies = bookedLines (file k).bookingState ++ [lastReply kind] := by
  cases h with
  | @opened fd s' replies hnew hopen' hid' =>
    obtain rfl := Option.some.inj hserver
    rw [hid'] at hid
    refine Or.inl ⟨?_, hid⟩
    rw [hopen'] at hopen
    rcases Bool.or_eq_true_iff.1 hopen with hj | hj
    · exact hj
    · have hzero := ht.closed fd hnew
      rw [← of_decide_eq_true hj] at hzero
      omega
  | kept hsame =>
    obtain rfl := Option.some.inj hserver
    exact Or.inl ⟨(hsame.isOpen j).symm.trans hopen, (hsame.id j).symm.trans hid⟩
  | exited => simp at hserver
  | closed hopen' hsame =>
    obtain rfl := Option.some.inj hserver
    rw [isOpen_disconnect, Bool.and_eq_true, hsame.isOpen] at hopen
    rw [id_disconnect, if_neg (of_decide_eq_true hopen.2), hsame.id] at hid
    exact Or.inl ⟨hopen.1, hid⟩
  | @admitted i chunk s' m hopen' hsame =>
    obtain rfl := Option.some.inj hserver
    have hid' : (Function.update s'.requestP i { s'.requestP i with id := 902001 + m } j).id =
        902001 + k := hid
    rw [Function.update_apply] at hid'
    split_ifs at hid' with hj
    · obtain rfl : m = k := by
        simp only at hid'
        omega
      exact Or.inr ⟨hj.symm, rfl, rfl⟩
    · exact Or.inl ⟨(hsame.isOpen j).symm.trans hopen, (hsame.id j).symm.trans hid'⟩
  | updated hopen' hsame =>
    obtain rfl := Option.some.inj hserver
    rw [isOpen_disconnect, Bool.and_eq_true, hsame.isOpen] at hopen
    rw [id_disconnect, if_neg (of_decide_eq_true hopen.2), hsame.id] at hid
    exact Or.inl ⟨hopen.1, hid⟩

/-- `initialize` shows a client its record. -/
theorem World.shown (h : Shared kind W) {e : ι × Event} (hstep : World.step kind e W = some W')
    {p : ι} {i : ℕ} {k : ℤ} (hbefore : ¬W.Past p i k) (hafter : W'.Past p i k) :
    e.1 = p ∧ e.2.fd = i ∧ W'.file = W.file ∧
      W'.sent = W.sent ++ (bookedLines (W.file k).bookingState ++ [lastReply (kind p)]).map
        fun r => (p, i, r) := by
  obtain ⟨s, o, hs, hh, hproc, hfile, -, hsent⟩ := World.step_cases h hstep
  obtain ⟨t, ht, hopen, hne, hid⟩ := hafter
  rw [hproc] at ht
  by_cases hp : p = e.1
  · subst hp
    rw [Function.update_self] at ht
    have hrange := ((hh.table (h.table _ s hs) ht).ids i).resolve_left hne
    rcases hh.past (h.table _ s hs) ht (by omega) hopen hid with
      ⟨hopen', hid'⟩ | ⟨hfd, hof, hreplies⟩
    · exact absurd ⟨s, hs, hopen', by omega, hid'⟩ hbefore
    · refine ⟨rfl, hfd, hfile.trans hof, ?_⟩
      rw [hsent, hreplies, hfd]
  · rw [Function.update_of_ne hp] at ht
    exact absurd ⟨t, ht, hopen, hne, hid⟩ hbefore

omit [Fintype ι] [DecidableEq ι] in
/-- Nobody hears of a success when logging in. -/
theorem updated_notMem_login {kind : Kind} {setlk : Flock → Bool} {file : File} {i : ℕ}
    {last : Reply} {s : Server} (hlast : ∀ id, last ≠ .updated id) (id : ℤ) :
    .updated id ∉ (login kind setlk file i last s).replies := by
  have hlast' := (hlast id).symm
  unfold login initializeClient setLock
  dsimp only
  split_ifs <;> simp_all [bookedLines]

omit [Fintype ι] [DecidableEq ι] in
/-- The event leaves the file as it is, adds nothing, and nobody hears of a success. -/
structure World.Silent (e : ι × Event) (W W' : World ι) : Prop where
  file : W'.file = W.file
  applied : W'.applied = W.applied
  replies : ∃ replies : List Reply, W'.sent = W.sent ++ replies.map (fun r => (e.1, e.2.fd, r)) ∧
    ∀ id, .updated id ∉ replies

/-- An event adds to a record, and a client hears that its bookings are updated, exactly if
it is a command line that passes the checks : it adds the parameters of this line to the
record of its client. -/
theorem World.step_books {e : ι × Event} (hstep : World.step kind e W = some W') :
    (∃ k param new, W.Books kind e k param new ∧
        W'.file = Function.update W.file k { W.file k with bookingState := new } ∧
        W'.applied = W.applied ++ [(k, param)] ∧
        W'.sent = W.sent ++ (.updated (902001 + k) :: bookedLines new).map
          fun r => (e.1, e.2.fd, r)) ∨
      (∀ k param new, ¬W.Books kind e k param new) ∧ World.Silent e W W' := by
  obtain ⟨s, hs, hmap⟩ := Option.bind_eq_some_iff.1 hstep
  obtain ⟨o, ho, rfl⟩ := Option.map_eq_some_iff.1 hmap
  obtain ⟨p, ev⟩ := e
  dsimp only at hs ho ⊢
  have hsilent : o.file = W.file → o.applied = [] → (∀ id, .updated id ∉ o.replies) →
      World.Silent (p, ev) W ⟨Function.update W.proc p o.server, o.file, W.applied ++ o.applied,
        W.sent ++ o.replies.map fun r => (p, ev.fd, r)⟩ :=
    fun hfile happlied hreplies => ⟨hfile, by simp [happlied], o.replies, rfl, hreplies⟩
  have hno : W.command? kind (p, ev) = none → ∀ k param new, ¬W.Books kind (p, ev) k param new :=
    fun hnone k param new hb => absurd (hnone.symm.trans hb.line) (by simp)
  unfold handle at ho
  cases ev with
  | accept fd =>
    dsimp only at ho
    by_cases hfd : fd < s.maxfd ∧ fd ≠ s.listen_fd ∧ s.master_set fd = false
    · rw [if_pos hfd] at ho
      obtain rfl := Option.some.inj ho
      refine Or.inr ⟨hno rfl, hsilent rfl rfl fun id => ?_⟩
      dsimp only
      split_ifs <;> simp
    · rw [if_neg hfd] at ho
      simp at ho
  | acceptFailed again =>
    obtain rfl := Option.some.inj ho
    exact Or.inr ⟨hno rfl, hsilent rfl rfl fun id => List.not_mem_nil⟩
  | read i chunk =>
    dsimp only at ho
    split_ifs at ho with hopen
    have hcmd : W.command? kind (p, .read i chunk) = match handle_read chunk with
        | .line buf =>
          if kind p = .write ∧ (s.requestP i).id ≠ 0 then
            (params (scan buf s.input)).map fun param => ((s.requestP i).id - 902000 - 1, param)
          else none
        | _ => none := by
      simp only [World.command?, hs]
    cases hread : handle_read chunk with
    | failed | eof | exit =>
      rw [hread] at ho hcmd
      obtain rfl := Option.some.inj ho
      exact Or.inr ⟨hno hcmd, hsilent rfl rfl fun id => List.not_mem_nil⟩
    | line buf =>
      rw [hread] at ho hcmd
      have hline : line (kind p) (W.grants p) W.file i (s.noteLine i buf) = o := Option.some.inj ho
      have hid := (same_noteLine s i buf).id i
      unfold line at hline
      cases hkind : kind p with
      | read =>
        rw [hkind] at hline hcmd
        refine Or.inr ⟨hno (by rw [hcmd]; simp), ?_⟩
        simp only [hid] at hline
        split_ifs at hline
        · subst hline
          exact hsilent rfl rfl (updated_notMem_login (by simp))
        · subst hline
          exact hsilent rfl rfl fun id => List.not_mem_nil
        · subst hline
          exact hsilent rfl rfl fun id => List.not_mem_nil
      | write =>
        rw [hkind] at hline hcmd
        simp only [hid] at hline
        split_ifs at hline with h0
        · subst hline
          refine Or.inr ⟨hno (by rw [hcmd]; simp [h0]), hsilent rfl rfl ?_⟩
          exact updated_notMem_login (by simp)
        · -- a command line
          obtain ⟨k, hk⟩ : ∃ k, (s.requestP i).id = 902001 + k :=
            ⟨(s.requestP i).id - 902001, by omega⟩
          have hkidx : 902001 + k - 902000 - 1 = k := by omega
          have hreq := requestP_noteLine s i buf
          have hinput : (s.noteLine i buf).input = s.input := rfl
          have happlied := @command_applied W.file i (s.noteLine i buf) k (hid.trans hk)
          obtain ⟨-, hfile, hreplies⟩ := @command_eq W.file i (s.noteLine i buf) k (hid.trans hk)
          rw [hline, hreq, hinput] at hfile hreplies happlied
          simp only [h0, ne_eq, not_false_eq_true, and_self, if_true] at hcmd
          rw [hk, hkidx] at hcmd
          cases hparam : params (scan buf s.input) with
          | none =>
            rw [hparam] at hfile hreplies happlied hcmd
            refine Or.inr ⟨hno hcmd, hsilent hfile happlied fun id => ?_⟩
            rw [hreplies]
            simp [result, repliesAfter]
          | some param =>
            rw [hparam] at hfile hreplies happlied hcmd
            simp only [result] at hfile hreplies happlied
            cases hcheck : check param (W.file k).bookingState with
            | error r =>
              rw [hcheck] at hfile hreplies happlied
              refine Or.inr ⟨fun m param' new hb => ?_, hsilent hfile happlied fun id => ?_⟩
              · obtain ⟨rfl, rfl⟩ := Prod.mk.inj (Option.some.inj (hcmd.symm.trans hb.line))
                exact absurd (hcheck.symm.trans hb.passes) (by simp)
              · rw [hreplies]
                simpa [repliesAfter] using (check_ne_updated hcheck id).symm
            | ok new =>
              rw [hcheck] at hfile hreplies happlied
              exact Or.inl ⟨k, param, new, ⟨hcmd, hcheck⟩, hfile,
                congrArg (W.applied ++ ·) happlied,
                congrArg (fun rs => W.sent ++ rs.map fun r => (p, i, r)) hreplies⟩

/-- An event leaves the file as it is, or is a successful command : of a client of a write
server, which it disconnects, on this client's record. -/
theorem World.file_step (h : Shared kind W) {e : ι × Event}
    (hstep : World.step kind e W = some W') :
    (W'.file = W.file ∧ W'.applied = W.applied) ∨
      ∃ k param new, kind e.1 = .write ∧ W.Past e.1 e.2.fd k ∧
        (∀ m, ¬W'.Past e.1 e.2.fd m) ∧ (∀ j, IsInt (param j)) ∧ W.Books kind e k param new ∧
        W'.file = Function.update W.file k { W.file k with bookingState := new } ∧
        W'.applied = W.applied ++ [(k, param)] := by
  obtain ⟨s, o, hs, hh, hproc, hfile, happlied, -⟩ := World.step_cases h hstep
  rw [hfile, happlied]
  obtain ⟨p, ev⟩ := e
  dsimp only at hs hh hproc ⊢
  cases hh with
  | opened => exact Or.inl ⟨rfl, List.append_nil _⟩
  | kept => exact Or.inl ⟨rfl, List.append_nil _⟩
  | exited => exact Or.inl ⟨rfl, List.append_nil _⟩
  | closed => exact Or.inl ⟨rfl, List.append_nil _⟩
  | admitted => exact Or.inl ⟨rfl, List.append_nil _⟩
  | @updated i chunk buf s' k param new hopen hsame hkind hline hid h0 hk hparam hcheck =>
    have hne : (s.requestP i).id ≠ 0 := by omega
    have hidx : 902001 + k - 902000 - 1 = k := by omega
    refine Or.inr ⟨k, param, new, hkind, ⟨s, hs, hopen, hne, hid⟩, ?_, params_isInt hparam,
      ⟨?_, hcheck⟩, rfl, rfl⟩
    swap
    · have hne' : 902001 + k ≠ 0 := by omega
      simp [World.command?, hs, hline, hkind, hid, hidx, hne', hparam]
    rintro m ⟨t, ht, hopen', -⟩
    rw [hproc, Function.update_self] at ht
    obtain rfl := Option.some.inj ht
    simp [isOpen_disconnect, Event.fd] at hopen'

/-- The record of a client does not change while the client stays. -/
theorem Shared.shown_stays (h : Shared kind W) {e : ι × Event}
    (hstep : World.step kind e W = some W') {p : ι} {i : ℕ} {k : ℤ} (hp : W.Past p i k)
    (hp' : W'.Past p i k) : W'.file k = W.file k := by
  rcases World.file_step h hstep with ⟨hfile, -⟩ | ⟨m, param, new, hw, hpast, hgone, -, -, hfile, -⟩
  · rw [hfile]
  · have hne : m ≠ k := by
      rintro rfl
      obtain ⟨rfl, rfl⟩ := h.alone hw hpast hp
      exact hgone _ hp'
    rw [hfile, Function.update_of_ne (Ne.symm hne)]

/-- Over a run in which the client stays, its record does not change. -/
theorem Shared.shown_stays_run {file : File} {p : ι} {i : ℕ} {k : ℤ} :
    ∀ (es : List (ι × Event)) {W W' : World ι}, Shared kind W →
      (servers kind file).run es W = some W' →
      (servers kind file).Throughout (fun V => V.Past p i k) es W → W'.file k = W.file k
  | [], W, W', _, hrun, _ => by
    obtain rfl : W = W' := by simpa using hrun
    rfl
  | e :: es, W, W', h, hrun, hpast => by
    obtain ⟨V, hstep, hrest⟩ := System.run_cons _ |>.1 hrun
    obtain ⟨hW, hV⟩ := (System.throughout_cons hstep).1 hpast
    have hfirst := h.shown_stays hstep hW (hV [] es V rfl rfl)
    exact (Shared.shown_stays_run es (h.step hstep) hrest hV).trans hfirst

/-! ## The counts -/

omit [Fintype ι] [DecidableEq ι] in
/-- What successful commands added to a count. -/
def World.added (W : World ι) (k : ℤ) (j : Fin OBJ_NUM) : ℤ :=
  ((W.applied.filter fun a => a.1 = k).map fun a => a.2 j).sum

omit [Fintype ι] [DecidableEq ι] in
theorem World.added_append {param : Counts} {m : ℤ} (h : W'.applied = W.applied ++ [(m, param)])
    (k : ℤ) (j : Fin OBJ_NUM) :
    W'.added k j = W.added k j + if m = k then param j else 0 := by
  rw [World.added, h, List.filter_append, List.map_append, List.sum_append]
  split_ifs with hm <;> simp [World.added, hm]

/-- The counts of the record `k` are the initial ones and what was added, modulo `2 ^ 32`,
and exactly so if they were not negative at first. -/
structure Sums (file : File) (W : World ι) (k : ℤ) : Prop where
  id : (W.file k).id = (file k).id
  congr : ∀ j, (W.file k).bookingState j ≡ (file k).bookingState j + W.added k j [ZMOD 2 ^ 32]
  exact : (∀ j, IsInt ((file k).bookingState j) ∧ 0 ≤ (file k).bookingState j) → ∀ j,
    (W.file k).bookingState j = (file k).bookingState j + W.added k j ∧
      IsInt ((W.file k).bookingState j) ∧ 0 ≤ (W.file k).bookingState j

theorem Sums.step {file : File} {k : ℤ} (hk : Sums file W k) (h : Shared kind W) {e : ι × Event}
    (hstep : World.step kind e W = some W') : Sums file W' k := by
  rcases World.file_step h hstep with
    ⟨hfile, happlied⟩ | ⟨m, param, new, -, -, -, hint, ⟨-, hcheck⟩, hfile, happlied⟩
  · have hadded : W'.added k = W.added k := by
      funext j
      rw [World.added, happlied, World.added]
    refine ⟨?_, ?_, ?_⟩
    · rw [hfile]
      exact hk.id
    · rw [hfile, hadded]
      exact hk.congr
    · rw [hfile, hadded]
      exact hk.exact
  · have hadded := World.added_append happlied k
    obtain ⟨hpos, -, rfl⟩ := check_eq_ok.1 hcheck
    by_cases hm : m = k
    · subst hm
      have hstate : W'.file m = { W.file m with
          bookingState := fun j => int32 (param j + (W.file m).bookingState j) } := by
        rw [hfile, Function.update_self]
      refine ⟨?_, fun j => ?_, fun h0 j => ?_⟩
      · rw [hstate]
        exact hk.id
      · rw [hstate, hadded, if_pos rfl, add_comm (W.added m j), ← add_assoc,
          add_comm _ (param j), add_assoc]
        exact Int.ModEq.trans (int32_emod _) ((hk.congr j).add_left (param j))
      · obtain ⟨hsum, hc, hc0⟩ := hk.exact h0 j
        obtain ⟨hlo, hhi⟩ := (new_count_exact (hint j) hc hc0).1 (hpos j)
        have heq : int32 (param j + (W.file m).bookingState j) =
            param j + (W.file m).bookingState j := int32_eq ⟨by omega, hhi⟩
        rw [hstate, hadded, if_pos rfl]
        simp only [heq]
        exact ⟨by omega, ⟨by omega, hhi⟩, hlo⟩
    · have hstate : W'.file k = W.file k := by
        rw [hfile, Function.update_of_ne (Ne.symm hm)]
      have hadded' : W'.added k = W.added k := by
        funext j
        rw [hadded, if_neg hm, add_zero]
      refine ⟨?_, ?_, ?_⟩
      · rw [hstate]
        exact hk.id
      · rw [hstate, hadded']
        exact hk.congr
      · rw [hstate, hadded']
        exact hk.exact

theorem sums_of_reachable {file : File} (h : (servers kind file).Reachable W) (k : ℤ) :
    Sums file W k := by
  have hboth : Shared kind W ∧ Sums file W k := by
    refine System.Reachable.invariant (I := fun V => Shared kind V ∧ Sums file V k)
      (fun V hV => ⟨shared_of_reachable (.of_init hV), ?_⟩)
      (fun e V V' hV hstep => ⟨hV.1.step hstep, hV.2.step hV.1 hstep⟩) h
    obtain ⟨-, hfile, happlied, -⟩ := hV
    have hadded : ∀ j, V.added k j = 0 := fun j => by simp [World.added, happlied]
    refine ⟨by rw [hfile], fun j => ?_, fun h0 j => ?_⟩
    · rw [hfile, hadded, add_zero]
    · rw [hfile, hadded, add_zero]
      exact ⟨rfl, h0 j⟩
  exact hboth.2

/-- Bookings are isolated. The client of a write server is the only one that is past
`initialize` for its record. A client is shown the record as it is, the record stays so
until the client is disconnected, and only the client's own command, which adds to the
counts it was shown, ends that. No update is lost : an event adds to a record, and its client
is told so, exactly if it is a command line that passes the checks, it then adds the
parameters of this line, and in every record the counts are the initial ones and what was
added. -/
theorem bookings_isolated {file : File} (h : (servers kind file).Reachable W) :
    (∀ p q i j k, kind p = .write → W.Past p i k → W.Past q j k → p = q ∧ i = j) ∧
      (∀ p i k e W₁, World.step kind e W = some W₁ → ¬W.Past p i k → W₁.Past p i k →
        (W₁.file = W.file ∧
          W₁.sent = W.sent ++ (bookedLines (W.file k).bookingState ++ [lastReply (kind p)]).map
            fun r => (p, i, r)) ∧
        ∀ es W₂, (servers kind file).run es W₁ = some W₂ →
          (servers kind file).Throughout (fun V => V.Past p i k) es W₁ →
            W₂.file k = W.file k ∧
            ∀ e' W₃, World.step kind e' W₂ = some W₃ →
              (W₃.file k = W.file k ∧ W₃.added k = W₂.added k) ∨
                e'.1 = p ∧ e'.2.fd = i ∧ kind p = .write ∧
                  ∃ param new, W₂.Books kind e' k param new ∧
                    W₃.applied = W₂.applied ++ [(k, param)] ∧
                    (W₃.file k).bookingState =
                      fun j => int32 (param j + (W.file k).bookingState j)) ∧
      (∀ e W₁, World.step kind e W = some W₁ →
        (∃ k param new, W.Books kind e k param new ∧
          W₁.file = Function.update W.file k { W.file k with bookingState := new } ∧
          W₁.applied = W.applied ++ [(k, param)] ∧
          W₁.sent = W.sent ++ (.updated (902001 + k) :: bookedLines new).map
            fun r => (e.1, e.2.fd, r)) ∨
        (∀ k param new, ¬W.Books kind e k param new) ∧ World.Silent e W W₁) ∧
      ∀ k, (W.file k).id = (file k).id ∧
        (∀ j, (W.file k).bookingState j ≡ (file k).bookingState j + W.added k j [ZMOD 2 ^ 32]) ∧
        ((∀ j, IsInt ((file k).bookingState j) ∧ 0 ≤ (file k).bookingState j) → ∀ j,
          (W.file k).bookingState j = (file k).bookingState j + W.added k j) := by
  have hW := shared_of_reachable h
  refine ⟨fun p q i j k hw => hW.alone hw, ?_, fun e W₁ hstep => World.step_books hstep,
    fun k => ?_⟩
  · intro p i k e W₁ hstep hbefore hafter
    obtain ⟨-, -, hfile, hsent⟩ := World.shown hW hstep hbefore hafter
    refine ⟨⟨hfile, hsent⟩, fun es W₂ hrun hpast => ?_⟩
    have hstay : W₂.file k = W.file k := by
      rw [hW.step hstep |>.shown_stays_run es hrun hpast, hfile]
    have hW₂ : Shared kind W₂ := shared_of_reachable ((h.step hstep).run hrun)
    have hp₂ : W₂.Past p i k := hpast es [] W₂ (List.append_nil es).symm hrun
    refine ⟨hstay, fun e' W₃ hstep' => ?_⟩
    rcases World.file_step hW₂ hstep' with
      ⟨hfile', happlied⟩ | ⟨m, param, new, hw, hown, -, -, hbooks, hfile', happlied⟩
    · refine Or.inl ⟨by rw [hfile', hstay], funext fun j => ?_⟩
      rw [World.added, happlied, World.added]
    by_cases hm : m = k
    · subst hm
      obtain ⟨hp, hi⟩ := hW₂.alone hw hown hp₂
      refine Or.inr ⟨hp, hi, hp ▸ hw, param, new, hbooks, happlied, ?_⟩
      rw [hfile', Function.update_self, (check_eq_ok.1 hbooks.passes).2.2, hstay]
    · refine Or.inl ⟨?_, funext fun j => ?_⟩
      · rw [hfile', Function.update_of_ne (Ne.symm hm), hstay]
      · rw [World.added_append happlied k, if_neg hm, add_zero]
  · have hk := sums_of_reachable h k
    exact ⟨hk.id, hk.congr, fun h0 j => (hk.exact h0 j).1⟩

end World

/-- Two write servers, before their first event. -/
def twoServers (file : File) : World Bool :=
  ⟨fun _ => some (boot 3 8 (List.replicate 24 0)), file, [], []⟩

/-- A client of one server is shown a record that a client of the other is refused. -/
def loginEvents : List (Bool × Event) :=
  [(true, .accept 4), (true, .read 4 (some idLine)), (false, .accept 4),
    (false, .read 4 (some idLine))]

/-- `1 2 3`. -/
def bookingEvent : Bool × Event :=
  (true, .read 4 (some [49, 32, 50, 32, 51, 10]))

/-- The first client books `1 2 3`. -/
def bookingEvents : List (Bool × Event) :=
  loginEvents ++ [bookingEvent]

/-- The booking is told, added and not lost. -/
theorem bookings_isolated_two : ∃ W W₁,
    (servers (fun _ : Bool => .write) fun k => ⟨902001 + k, fun _ => 0⟩).run loginEvents
      (twoServers fun k => ⟨902001 + k, fun _ => 0⟩) = some W ∧
      World.step (fun _ => .write) bookingEvent W = some W₁ ∧
      W₁.applied = W.applied ++ [(2, ![1, 2, 3])] ∧
      W₁.sent = W.sent ++ (.updated 902003 :: bookedLines ![1, 2, 3]).map
        fun r => (true, 4, r) := by
  obtain ⟨W, hrun, hsome, hline, hzero⟩ : ∃ W, (servers (fun _ : Bool => .write)
      fun k => ⟨902001 + k, fun _ => 0⟩).run loginEvents
        (twoServers fun k => ⟨902001 + k, fun _ => 0⟩) = some W ∧
      (World.step (fun _ => .write) bookingEvent W).isSome ∧
      W.command? (fun _ => .write) bookingEvent = some (2, ![1, 2, 3]) ∧
      (W.file 2).bookingState = fun _ => 0 :=
    ⟨_, (Option.some_get (by decide +kernel)).symm, by decide +kernel, by decide +kernel,
      by decide +kernel⟩
  have hcheck : check ![1, 2, 3] (W.file 2).bookingState = .ok ![1, 2, 3] := by
    rw [hzero]
    exact check_eq_ok.2 (by decide)
  obtain ⟨W₁, hstep⟩ := Option.isSome_iff_exists.1 hsome
  have hreach : (servers (fun _ : Bool => .write) fun k => ⟨902001 + k, fun _ => 0⟩).Reachable W :=
    ⟨twoServers _, loginEvents, ⟨fun _ => ⟨3, 8, _, rfl, rfl⟩, rfl, rfl, rfl⟩, hrun⟩
  refine ⟨W, W₁, hrun, hstep, ?_⟩
  rcases (bookings_isolated hreach).2.2.1 bookingEvent W₁ hstep with
    ⟨k, param, new, hbooks, -, happlied, hsent⟩ | ⟨hno, -⟩
  · obtain ⟨rfl, rfl⟩ := Prod.mk.inj (Option.some.inj (hbooks.line.symm.trans hline))
    obtain rfl := Except.ok.inj (hbooks.passes.symm.trans hcheck)
    exact ⟨happlied, hsent⟩
  · exact absurd ⟨hline, hcheck⟩ (hno 2 ![1, 2, 3] ![1, 2, 3])

end SP2022.Booking
