import Mathlib.Data.Finset.Card
import Mathlib.Order.Interval.Finset.Nat
import SP2022.Booking
import SP2022.Runs

/-!
# The lock table of one server

Between two events `arr[k]` counts the open connections with id `902001 + k`, a closed
slot has id `0`, and the process owns the lock on record `k`, of its own type, while
`arr[k]` is positive and not otherwise (`Table`). `disconnect` keeps this if its flag says
whether the slot has an id. `initializeClient` sets the id before it asks for the lock :
a refused attempt resets the slot with the flag off, and one refused by `arr` alone has
taken again a lock that the process had.
-/

namespace SP2022.Booking

open Server

/-- The open connections with id `902001 + k`. -/
def Server.clients (s : Server) (k : ℤ) : Finset ℕ :=
  (Finset.range s.maxfd).filter fun i => s.isOpen i ∧ (s.requestP i).id = 902001 + k

/-- What `arr`, the slots and the process's locks say of each other. -/
structure Table (kind : Kind) (s : Server) : Prop where
  closed : ∀ i, s.isOpen i = false → (s.requestP i).id = 0
  ids : ∀ i, (s.requestP i).id = 0 ∨
    902001 ≤ (s.requestP i).id ∧ (s.requestP i).id ≤ 902020
  arr : ∀ k, 0 ≤ k → k < 20 → s.arr k = (s.clients k).card
  locks : ∀ k, 0 ≤ k → k < 20 → ∀ b, sizeofRecord * k ≤ b → b < sizeofRecord * k + sizeofRecord →
    s.locks b = if s.arr k = 0 then none else some (lockType kind)
  single : kind = .write → ∀ k, 0 ≤ k → k < 20 → s.arr k ≤ 1

section Slots

variable {kind : Kind} {s : Server} {i : ℕ}

theorem mem_clients {k : ℤ} : i ∈ s.clients k ↔ s.isOpen i ∧ (s.requestP i).id = 902001 + k := by
  simp only [clients, Finset.mem_filter, Finset.mem_range, and_iff_right_iff_imp]
  intro h
  have hopen := h.1
  simp only [isOpen, Bool.and_eq_true, decide_eq_true_eq] at hopen
  exact hopen.1.1

theorem releaseId_frame (s : Server) (id : ℤ) :
    (s.releaseId id).listen_fd = s.listen_fd ∧ (s.releaseId id).maxfd = s.maxfd ∧
      (s.releaseId id).requestP = s.requestP ∧ (s.releaseId id).master_set = s.master_set := by
  unfold releaseId
  dsimp only
  split_ifs <;> exact ⟨rfl, rfl, rfl, rfl⟩

theorem requestP_disconnect (s : Server) (i : ℕ) (lock : Bool) :
    (s.disconnect i lock).requestP =
      Function.update s.requestP i (init_request (s.requestP i)) := by
  cases lock
  · rfl
  · simp only [disconnect, closeSlot, if_true, (releaseId_frame s _).2.2.1]

theorem isOpen_disconnect (s : Server) (i : ℕ) (lock : Bool) (j : ℕ) :
    (s.disconnect i lock).isOpen j = (s.isOpen j && decide (j ≠ i)) := by
  have hset : (s.disconnect i lock).isOpen j =
      (decide (j < s.maxfd) && decide (j ≠ s.listen_fd) &&
        Function.update s.master_set i false j) := by
    obtain ⟨hl, hm, -, hs⟩ := releaseId_frame s ((s.requestP i).id - 902000 - 1)
    cases lock
    · rfl
    · simp only [disconnect, closeSlot, isOpen, if_true, hl, hm, hs]
  rw [hset]
  by_cases hj : j = i <;> simp [isOpen, hj]

theorem id_disconnect (s : Server) (i : ℕ) (lock : Bool) (j : ℕ) :
    ((s.disconnect i lock).requestP j).id = if j = i then 0 else (s.requestP j).id := by
  rw [requestP_disconnect, Function.update_apply]
  split_ifs <;> rfl

theorem clients_disconnect (s : Server) (i : ℕ) (lock : Bool) (k : ℤ) :
    (s.disconnect i lock).clients k = (s.clients k).erase i := by
  refine Finset.ext fun j => ?_
  rw [mem_clients, Finset.mem_erase, mem_clients, isOpen_disconnect, id_disconnect]
  by_cases hj : j = i <;> simp [hj]

theorem arr_disconnect_true (s : Server) (i : ℕ) {k : ℤ} (hid : (s.requestP i).id = 902001 + k)
    (m : ℤ) : (s.disconnect i true).arr m = if m = k then s.arr k - 1 else s.arr m := by
  obtain rfl : (s.requestP i).id - 902000 - 1 = k := by omega
  show (s.releaseId _).arr m = _
  unfold releaseId
  dsimp only
  split_ifs with h1 h2 h2 <;> simp [unlock, h2]

theorem locks_disconnect_true (s : Server) (i : ℕ) {k : ℤ}
    (hid : (s.requestP i).id = 902001 + k) (b : ℤ) :
    (s.disconnect i true).locks b =
      if s.arr k = 1 ∧ sizeofRecord * k ≤ b ∧ b < sizeofRecord * k + sizeofRecord then none
      else s.locks b := by
  obtain rfl : (s.requestP i).id - 902000 - 1 = k := by omega
  show (s.releaseId _).locks b = _
  unfold releaseId
  simp only [Function.update_self]
  by_cases h : s.arr ((s.requestP i).id - 902000 - 1) = 1
  · rw [if_pos (by omega)]
    simp [unlock, h]
  · rw [if_neg (by omega), if_neg fun hc => h hc.1]

/-- A slot without an id is reset and nothing else. -/
theorem Table.disconnect_false (h : Table kind s) (hid : (s.requestP i).id = 0) :
    Table kind (s.disconnect i false) := by
  refine ⟨fun j hj => ?_, fun j => ?_, fun k h0 hk => ?_, h.locks, h.single⟩
  · rw [id_disconnect]
    rw [isOpen_disconnect] at hj
    split_ifs with heq
    · rfl
    · exact h.closed j (by simpa [heq] using hj)
  · rw [id_disconnect]
    split_ifs
    · exact Or.inl rfl
    · exact h.ids j
  · have hnot : i ∉ s.clients k := fun hi => by
      have := (mem_clients.1 hi).2
      omega
    rw [clients_disconnect, Finset.erase_eq_of_notMem hnot]
    exact h.arr k h0 hk

/-- A slot with an id gives its count back, and the last one the lock. -/
theorem Table.disconnect_true (h : Table kind s) (hopen : s.isOpen i)
    (hid : (s.requestP i).id ≠ 0) : Table kind (s.disconnect i true) := by
  have hrange := (h.ids i).resolve_left hid
  obtain ⟨k, hk⟩ : ∃ k, (s.requestP i).id = 902001 + k := ⟨(s.requestP i).id - 902001, by omega⟩
  have hmem : i ∈ s.clients k := mem_clients.2 ⟨hopen, hk⟩
  have hpos : 0 < (s.clients k).card := Finset.card_pos.2 ⟨i, hmem⟩
  have hcount := h.arr k (by omega) (by omega)
  refine ⟨fun j hj => ?_, fun j => ?_, fun m h0 hm => ?_, fun m h0 hm b hlo hhi => ?_,
    fun hkind m h0 hm => ?_⟩
  · rw [id_disconnect]
    rw [isOpen_disconnect] at hj
    split_ifs with heq
    · rfl
    · exact h.closed j (by simpa [heq] using hj)
  · rw [id_disconnect]
    split_ifs
    · exact Or.inl rfl
    · exact h.ids j
  · rw [arr_disconnect_true s i hk, clients_disconnect]
    split_ifs with heq
    · subst heq
      rw [Finset.card_erase_of_mem hmem]
      omega
    · have hnot : i ∉ s.clients m := fun hi => by
        have := (mem_clients.1 hi).2
        omega
      rw [Finset.erase_eq_of_notMem hnot]
      exact h.arr m h0 hm
  · have hlock := h.locks m h0 hm b hlo hhi
    rw [locks_disconnect_true s i hk, arr_disconnect_true s i hk]
    by_cases heq : m = k
    · subst heq
      by_cases hone : s.arr m = 1
      · simp [hone, hlo, hhi]
      · have hne : s.arr m ≠ 0 := by omega
        have hne' : s.arr m - 1 ≠ 0 := by omega
        simp [hone, hne', hlock, hne]
    · have hout : ¬(s.arr k = 1 ∧ sizeofRecord * k ≤ b ∧ b < sizeofRecord * k + sizeofRecord) := by
        simp only [sizeofRecord] at hlo hhi ⊢
        omega
      rw [if_neg hout, if_neg heq]
      exact hlock
  · rw [arr_disconnect_true s i hk]
    have h1 := h.single hkind m h0 hm
    have h2 := h.single hkind k (by omega) (by omega)
    split_ifs <;> omega

end Slots

/-! ## `initialize` -/

section Login

variable {kind : Kind} {s : Server} {i : ℕ}

/-- The slot after `initialize` has set its id. -/
def Server.setId (s : Server) (i : ℕ) (id : ℤ) : Server :=
  { s with requestP := Function.update s.requestP i { s.requestP i with id := id } }

/-- The lock that `initialize` asks for. -/
def recordLock (kind : Kind) (k : ℤ) : Flock :=
  ⟨lockType kind, sizeofRecord * k, sizeofRecord⟩

/-- The state after a granted lock on record `k` and its count. -/
def Server.register (s : Server) (kind : Kind) (i : ℕ) (k : ℤ) : Server :=
  { (s.setId i (902001 + k)) with
    locks := fun b => if (recordLock kind k).covers b then some (lockType kind) else s.locks b
    arr := Function.update s.arr k (s.arr k + 1) }

/-- Resetting the slot forgets the id. -/
theorem disconnect_setId (s : Server) (i : ℕ) (id : ℤ) :
    (s.setId i id).disconnect i false = s.disconnect i false := by
  simp [disconnect, closeSlot, setId, init_request]

theorem covers_recordLock {k b : ℤ} : (recordLock kind k).covers b ↔
    sizeofRecord * k ≤ b ∧ b < sizeofRecord * k + sizeofRecord := by
  unfold Flock.covers
  rw [Bool.and_eq_true, decide_eq_true_iff, decide_eq_true_iff]
  rfl

/-- The line of a client for one of the twenty ids. -/
theorem initializeClient_eq {s : Server} {i : ℕ} {k : ℤ} (h0 : 0 ≤ k) (h20 : k < 20)
    (hk : convert (s.requestP i).buf = 902001 + k) (kind : Kind) (setlk : Flock → Bool)
    (file : File) : s.initializeClient kind setlk file i =
      let p := (s.setId i (902001 + k)).setLock setlk (recordLock kind k) (s.preload kind k)
      if p.2 ≠ 0 then (p.1.disconnect i false, [.locked], false)
      else ({ p.1 with arr := Function.update p.1.arr k (p.1.arr k + 1) },
        bookedLines (file k).bookingState, true) := by
  have hr : ¬(convert (s.requestP i).buf < 902001 ∨ 902020 < convert (s.requestP i).buf) := by
    omega
  have hidx : 902001 + k - 902000 - 1 = k := by omega
  unfold initializeClient
  rw [hk] at hr ⊢
  simp only [if_neg hr, hidx]
  rfl

/-- Every other line is refused. -/
theorem initializeClient_refused {s : Server} {i : ℕ}
    (h : ¬∃ k, 0 ≤ k ∧ k < 20 ∧ convert (s.requestP i).buf = 902001 + k) (kind : Kind)
    (setlk : Flock → Bool) (file : File) :
    s.initializeClient kind setlk file i = (s.disconnect i false, [.failed], false) := by
  have hr : convert (s.requestP i).buf < 902001 ∨ 902020 < convert (s.requestP i).buf := by
    by_contra hr
    exact h ⟨convert (s.requestP i).buf - 902001, by omega⟩
  simp [initializeClient, hr]

/-- What `initialize` does : it rejects the id, is refused the lock, or admits the client. A
write server that has a client with the id is refused whatever `fcntl` says. -/
theorem initializeClient_cases (h : Table kind s) (setlk : Flock → Bool) (file : File) :
    (s.initializeClient kind setlk file i = (s.disconnect i false, [.failed], false) ∧
        ¬∃ k, 0 ≤ k ∧ k < 20 ∧ convert (s.requestP i).buf = 902001 + k) ∨
      ∃ k, 0 ≤ k ∧ k < 20 ∧ convert (s.requestP i).buf = 902001 + k ∧
        ((s.initializeClient kind setlk file i = (s.disconnect i false, [.locked], false) ∧
            ¬(setlk (recordLock kind k) ∧ (kind = .write → s.arr k = 0))) ∨
          (s.initializeClient kind setlk file i =
              (s.register kind i k, bookedLines (file k).bookingState, true) ∧
            setlk (recordLock kind k) ∧ (kind = .write → s.arr k = 0))) := by
  by_cases hid : ∃ k, 0 ≤ k ∧ k < 20 ∧ convert (s.requestP i).buf = 902001 + k
  swap
  · exact Or.inl ⟨initializeClient_refused hid kind setlk file, hid⟩
  obtain ⟨k, h0, h20, hk⟩ := hid
  refine Or.inr ⟨k, h0, h20, hk, ?_⟩
  have hrun := initializeClient_eq h0 h20 hk kind setlk file
  have hcount := h.arr k h0 h20
  cases hset : setlk (recordLock kind k) with
  | false =>
    refine Or.inl ⟨?_, fun hc => Bool.false_ne_true hc.1⟩
    rw [hrun]
    simp [setLock, hset, disconnect_setId]
  | true =>
    by_cases hpre : s.preload kind k = 0
    · refine Or.inr ⟨?_, rfl, fun hw => ?_⟩
      · rw [hrun, hpre]
        simp only [setLock, hset, if_true]
        rfl
      · have hone := h.single hw k h0 h20
        have hne : s.arr k ≠ 1 := fun h1 => by simp [preload, hw, h1] at hpre
        omega
    · -- the lock it is granted is one that it has
      have hw : kind = .write := by
        cases kind
        · exact absurd rfl hpre
        · rfl
      have hone : s.arr k = 1 := by
        by_contra hne
        exact hpre (by simp [preload, hw, hne])
      refine Or.inl ⟨?_, fun hc => by simp [hc.2 hw] at hone⟩
      have hlocks : (fun b => if (recordLock kind k).covers b then some (lockType kind)
          else s.locks b) = s.locks := by
        funext b
        split_ifs with hb
        · obtain ⟨hlo, hhi⟩ := covers_recordLock.1 hb
          rw [h.locks k h0 h20 b hlo hhi, if_neg (by omega)]
        · rfl
      have hsame : (s.setId i (902001 + k)).setLock setlk (recordLock kind k) (s.preload kind k) =
          (s.setId i (902001 + k), s.preload kind k) := by
        unfold setLock
        rw [if_pos hset]
        exact congrArg (fun l => ({ s.setId i (902001 + k) with locks := l }, s.preload kind k))
          hlocks
      rw [hrun, hsame]
      simp [hpre, disconnect_setId]

end Login

/-! ## One event -/

/-- The two states agree but for the buffers. -/
structure Same (s s' : Server) : Prop where
  listen_fd : s'.listen_fd = s.listen_fd
  maxfd : s'.maxfd = s.maxfd
  arr : s'.arr = s.arr
  master_set : s'.master_set = s.master_set
  locks : s'.locks = s.locks
  id : ∀ i, (s'.requestP i).id = (s.requestP i).id

/-- What a server writes after the record. -/
def lastReply : Kind → Reply
  | .read => .leave
  | .write => .modify

/-- What one event can do : open a connection, nothing, end the process, close a
connection, register a client to a record, or carry out a command. -/
inductive Handled (kind : Kind) (setlk : Flock → Bool) (file : File) (s : Server) :
    Event → Outcome → Prop
  | opened {fd : ℕ} {s' : Server} {replies : List Reply}
      (hnew : s.isOpen fd = false) (hopen : ∀ j, s'.isOpen j = (s.isOpen j || j = fd))
      (hid : ∀ j, (s'.requestP j).id = (s.requestP j).id) (harr : s'.arr = s.arr)
      (hlocks : s'.locks = s.locks) :
      Handled kind setlk file s (.accept fd) ⟨some s', file, replies, []⟩
  | kept {e : Event} {s' : Server} (hsame : Same s s') :
      Handled kind setlk file s e ⟨some s', file, [], []⟩
  | exited {e : Event} : Handled kind setlk file s e ⟨none, file, [], []⟩
  | closed {i : ℕ} {chunk : Option Bytes} {s' : Server} {replies : List Reply}
      (hopen : s.isOpen i) (hsame : Same s s') :
      Handled kind setlk file s (.read i chunk)
        ⟨some (s'.disconnect i ((s.requestP i).id ≠ 0)), file, replies, []⟩
  | admitted {i : ℕ} {chunk : Option Bytes} {s' : Server} {k : ℤ} (hopen : s.isOpen i)
      (hsame : Same s s') (hid : (s.requestP i).id = 0) (h0 : 0 ≤ k) (hk : k < 20)
      (hlock : setlk (recordLock kind k)) (hfree : kind = .write → s.arr k = 0) :
      Handled kind setlk file s (.read i chunk)
        ⟨some (s'.register kind i k), file,
          bookedLines (file k).bookingState ++ [lastReply kind], []⟩
  | updated {i : ℕ} {chunk : Option Bytes} {buf : Bytes} {s' : Server} {k : ℤ} {param new : Counts}
      (hopen : s.isOpen i) (hsame : Same s s') (hkind : kind = .write)
      (hline : handle_read chunk = .line buf) (hid : (s.requestP i).id = 902001 + k)
      (h0 : 0 ≤ k) (hk : k < 20) (hparam : params (scan buf s.input) = some param)
      (hcheck : check param (file k).bookingState = .ok new) :
      Handled kind setlk file s (.read i chunk)
        ⟨some (s'.disconnect i true),
          Function.update file k { file k with bookingState := new },
          .updated (902001 + k) :: bookedLines new, [(k, param)]⟩

section Event

variable {kind : Kind} {s s' : Server}

theorem Same.isOpen (h : Same s s') (i : ℕ) : s'.isOpen i = s.isOpen i := by
  simp only [Server.isOpen, h.maxfd, h.listen_fd, h.master_set]

theorem Same.table (h : Same s s') (ht : Table kind s) : Table kind s' := by
  have hclients : ∀ k, s'.clients k = s.clients k := by
    intro k
    refine Finset.ext fun i => ?_
    rw [mem_clients, mem_clients, h.isOpen, h.id]
  refine ⟨fun i hi => ?_, fun i => ?_, fun k h0 hk => ?_, ?_, ?_⟩
  · rw [h.id]
    exact ht.closed i (h.isOpen i ▸ hi)
  · rw [h.id]
    exact ht.ids i
  · rw [h.arr, hclients]
    exact ht.arr k h0 hk
  · rw [h.arr, h.locks]
    exact ht.locks
  · rw [h.arr]
    exact ht.single

/-- The state in which a line is handled. -/
def Server.noteLine (s : Server) (i : ℕ) (buf : Bytes) : Server :=
  let r := { s.requestP i with buf := buf, buf_len := buf.length }
  { s with requestP := Function.update s.requestP i r }

theorem same_noteLine (s : Server) (i : ℕ) (buf : Bytes) : Same s (s.noteLine i buf) := by
  refine ⟨rfl, rfl, rfl, rfl, rfl, fun j => ?_⟩
  simp only [Server.noteLine, Function.update_apply]
  split_ifs with hj
  · rw [hj]
  · rfl

theorem requestP_noteLine (s : Server) (i : ℕ) (buf : Bytes) :
    (s.noteLine i buf).requestP i = { s.requestP i with buf := buf, buf_len := buf.length } :=
  Function.update_self _ _ _

/-- A line of a client without an id. -/
theorem login_handled {setlk : Flock → Bool} {file : File} {i : ℕ} {chunk : Option Bytes}
    (h : Table kind s) (hopen : s.isOpen i) (hid : (s.requestP i).id = 0) (hsame : Same s s') :
    Handled kind setlk file s (.read i chunk) (login kind setlk file i (lastReply kind) s') := by
  have hclosed : ∀ replies, Handled kind setlk file s (.read i chunk)
      ⟨some (s'.disconnect i false), file, replies, []⟩ := by
    intro replies
    have := @Handled.closed kind setlk file s i chunk s' replies hopen hsame
    rwa [decide_eq_false (not_not.2 hid)] at this
  rcases initializeClient_cases (hsame.table h) setlk file with
    ⟨heq, -⟩ | ⟨k, h0, hk, -, ⟨heq, -⟩ | ⟨heq, hlock, hfree⟩⟩
  · rw [login, heq]
    exact hclosed _
  · rw [login, heq]
    exact hclosed _
  · rw [login, heq]
    exact .admitted hopen hsame hid h0 hk hlock (hsame.arr ▸ hfree)

/-- A command line. -/
theorem command_handled {setlk : Flock → Bool} {file : File} {i : ℕ} {chunk : Option Bytes}
    {buf : Bytes} (h : Table .write s) (hopen : s.isOpen i) (hid : (s.requestP i).id ≠ 0)
    (hline : handle_read chunk = .line buf) :
    Handled .write setlk file s (.read i chunk) (command file i (s.noteLine i buf)) := by
  have hsame : Same s { s.noteLine i buf with input := scan buf s.input } :=
    { same_noteLine s i buf with }
  have hclosed : ∀ replies, Handled .write setlk file s (.read i chunk)
      ⟨some (Server.disconnect { s.noteLine i buf with input := scan buf s.input } i true), file,
        replies, []⟩ := by
    intro replies
    have := @Handled.closed .write setlk file s i chunk _ replies hopen hsame
    rwa [decide_eq_true hid] at this
  obtain ⟨k, hk⟩ : ∃ k, (s.requestP i).id = 902001 + k := ⟨(s.requestP i).id - 902001, by omega⟩
  have hrange := (h.ids i).resolve_left hid
  have hidx : (s.requestP i).id - 902000 - 1 = k := by omega
  have hreq := requestP_noteLine s i buf
  have hinput : (s.noteLine i buf).input = s.input := rfl
  unfold command
  simp only [hreq, hinput]
  cases hparam : params (scan buf s.input) with
  | none => exact hclosed _
  | some param =>
    simp only [hidx]
    cases hcheck : check param (file k).bookingState with
    | error r => exact hclosed _
    | ok new =>
      simp only [hk]
      exact .updated hopen hsame rfl hline hk (by omega) (by omega) hparam hcheck

/-- Every event does one of the things that `Handled` lists. -/
theorem handle_spec (h : Table kind s) {setlk : Flock → Bool} {file : File} {e : Event}
    {o : Outcome} (hstep : handle kind setlk file e s = some o) :
    Handled kind setlk file s e o := by
  unfold handle at hstep
  cases e with
  | accept fd =>
    simp only at hstep
    by_cases hfd : fd < s.maxfd ∧ fd ≠ s.listen_fd ∧ s.master_set fd = false
    swap
    · rw [if_neg hfd] at hstep
      simp at hstep
    rw [if_pos hfd] at hstep
    obtain ⟨hlt, hlisten, hset⟩ := hfd
    obtain rfl := Option.some.inj hstep
    refine .opened ?_ (fun j => ?_) (fun j => ?_) rfl rfl
    · simp [Server.isOpen, hset]
    · by_cases hj : j = fd <;> simp [Server.isOpen, hj, hlt, hlisten]
    · simp only [Function.update_apply]
      split_ifs with hj
      · rw [hj]
      · rfl
  | acceptFailed again =>
    obtain rfl := Option.some.inj hstep
    cases again
    · exact .exited
    · exact .kept ⟨rfl, rfl, rfl, rfl, rfl, fun _ => rfl⟩
  | read i chunk =>
    simp only at hstep
    split_ifs at hstep with hi
    obtain ⟨hopen, -⟩ := hi
    cases hread : handle_read chunk with
    | failed =>
      rw [hread] at hstep
      obtain rfl := Option.some.inj hstep
      exact .kept ⟨rfl, rfl, rfl, rfl, rfl, fun _ => rfl⟩
    | eof =>
      rw [hread] at hstep
      obtain rfl := Option.some.inj hstep
      exact .closed hopen ⟨rfl, rfl, rfl, rfl, rfl, fun _ => rfl⟩
    | exit =>
      rw [hread] at hstep
      obtain rfl := Option.some.inj hstep
      exact .exited
    | line buf =>
      rw [hread] at hstep
      have hline : line kind setlk file i (s.noteLine i buf) = o := Option.some.inj hstep
      have hsame := same_noteLine s i buf
      have hid := hsame.id i
      unfold line at hline
      cases kind with
      | read =>
        simp only [hid] at hline
        split_ifs at hline with h0 hexit
        · exact hline ▸ login_handled h hopen h0 hsame
        · exact hline ▸ .kept hsame
        · have := @Handled.closed .read setlk file s i chunk _ [] hopen hsame
          rw [decide_eq_true h0] at this
          exact hline ▸ this
      | write =>
        simp only [hid] at hline
        split_ifs at hline with h0
        · exact hline ▸ login_handled h hopen h0 hsame
        · exact hline ▸ command_handled h hopen h0 hread

/-- A client is admitted to a record. -/
theorem Table.register {i : ℕ} {k : ℤ} (h : Table kind s) (hopen : s.isOpen i)
    (hid : (s.requestP i).id = 0) (h0 : 0 ≤ k) (hk : k < 20)
    (hfree : kind = .write → s.arr k = 0) : Table kind (s.register kind i k) := by
  have hreq : ∀ j, ((s.register kind i k).requestP j).id =
      if j = i then 902001 + k else (s.requestP j).id := by
    intro j
    simp only [Server.register, Server.setId, Function.update_apply]
    split_ifs <;> rfl
  have harr : ∀ m, (s.register kind i k).arr m = if m = k then s.arr k + 1 else s.arr m :=
    fun m => Function.update_apply _ _ _ _
  have hclients : ∀ m, 0 ≤ m → (s.register kind i k).clients m =
      if m = k then insert i (s.clients k) else s.clients m := by
    intro m hm
    refine Finset.ext fun j => ?_
    rw [mem_clients, hreq, show (s.register kind i k).isOpen j = s.isOpen j from rfl]
    split_ifs with hj hmk hmk
    · simp [hj, hmk, hopen]
    · rw [mem_clients, hj, hid]
      exact iff_of_false (fun hc => hmk (by omega)) fun hc => by omega
    · simp [hj, hmk, mem_clients]
    · rw [mem_clients]
  have hnot : i ∉ s.clients k := fun hi => by
    have := (mem_clients.1 hi).2
    omega
  refine ⟨fun j hj => ?_, fun j => ?_, fun m hm0 hm => ?_, fun m hm0 hm b hlo hhi => ?_,
    fun hw m hm0 hm => ?_⟩
  · have hj' : s.isOpen j = false := hj
    rw [hreq, if_neg fun hji : j = i => Bool.false_ne_true (hj'.symm.trans (hji ▸ hopen))]
    exact h.closed j hj'
  · rw [hreq]
    split_ifs
    · exact Or.inr ⟨by omega, by omega⟩
    · exact h.ids j
  · rw [harr, hclients m hm0]
    split_ifs
    · rw [Finset.card_insert_of_notMem hnot, h.arr k h0 hk]
      rfl
    · exact h.arr m hm0 hm
  · have hcount := h.arr k h0 hk
    have hlocks : (s.register kind i k).locks b =
        if (recordLock kind k).covers b then some (lockType kind) else s.locks b := rfl
    rw [hlocks, harr]
    by_cases hmk : m = k
    · subst hmk
      rw [if_pos (covers_recordLock.2 ⟨hlo, hhi⟩), if_pos rfl, if_neg (by omega)]
    · have hout : ¬(recordLock kind k).covers b := fun hc => by
        have := covers_recordLock.1 hc
        simp only [sizeofRecord] at this hlo hhi
        omega
      rw [if_neg hout, if_neg hmk]
      exact h.locks m hm0 hm b hlo hhi
  · rw [harr]
    split_ifs
    · rw [hfree hw]
      rfl
    · exact h.single hw m hm0 hm

/-- Every event keeps the table. -/
theorem Handled.table {setlk : Flock → Bool} {file : File} {e : Event} {o : Outcome}
    (h : Table kind s) (hh : Handled kind setlk file s e o) {t : Server}
    (ht : o.server = some t) : Table kind t := by
  cases hh with
  | @opened fd s' replies hnew hopen hid harr hlocks =>
    obtain rfl := Option.some.inj ht
    have hclients : ∀ k, 0 ≤ k → s'.clients k = s.clients k := by
      intro k h0
      refine Finset.ext fun j => ?_
      rw [mem_clients, mem_clients, hopen, hid]
      refine ⟨fun hc => ⟨?_, hc.2⟩, fun hc => ⟨by simp [hc.1], hc.2⟩⟩
      rcases Bool.or_eq_true_iff.1 hc.1 with hj | hj
      · exact hj
      · have hzero := h.closed _ hnew
        rw [← of_decide_eq_true hj] at hzero
        omega
    refine ⟨fun j hj => ?_, fun j => ?_, fun k h0 hk => ?_, ?_, ?_⟩
    · rw [hid]
      rw [hopen] at hj
      exact h.closed j (Bool.or_eq_false_iff.1 hj).1
    · rw [hid]
      exact h.ids j
    · rw [harr, hclients k h0]
      exact h.arr k h0 hk
    · rw [harr, hlocks]
      exact h.locks
    · rw [harr]
      exact h.single
  | kept hsame =>
    obtain rfl := Option.some.inj ht
    exact hsame.table h
  | exited => simp at ht
  | @closed i chunk s' replies hopen hsame =>
    obtain rfl := Option.some.inj ht
    have hopen' : s'.isOpen i := (hsame.isOpen i).trans hopen
    by_cases hid : (s.requestP i).id = 0
    · rw [decide_eq_false (not_not.2 hid)]
      exact (hsame.table h).disconnect_false ((hsame.id _).trans hid)
    · rw [decide_eq_true hid]
      exact (hsame.table h).disconnect_true hopen' fun hc => hid ((hsame.id _).symm.trans hc)
  | admitted hopen hsame hid h0 hk hlock hfree =>
    obtain rfl := Option.some.inj ht
    exact (hsame.table h).register ((hsame.isOpen _).trans hopen) ((hsame.id _).trans hid) h0 hk
      (hsame.arr ▸ hfree)
  | updated hopen hsame hkind hline hid h0 hk hparam hcheck =>
    obtain rfl := Option.some.inj ht
    refine (hsame.table h).disconnect_true ((hsame.isOpen _).trans hopen) ?_
    rw [hsame.id, hid]
    omega

end Event

/-! ## Runs of one server -/

/-- The events of one server, with what the world answers : which locks `fcntl` grants and
what the file holds. -/
structure Input where
  event : Event
  setlk : Flock → Bool
  file : File

/-- A server process on its own. -/
def process (kind : Kind) (listen_fd maxfd : ℕ) : System Server Input where
  init s := ∃ input : Bytes, input.length = sizeofInput ∧ s = boot listen_fd maxfd input
  step e s := (handle kind e.setlk e.file e.event s).bind Outcome.server

theorem table_boot (kind : Kind) (listen_fd maxfd : ℕ) (input : Bytes) :
    Table kind (boot listen_fd maxfd input) := by
  have hclients : ∀ k, 0 ≤ k → (boot listen_fd maxfd input).clients k = ∅ := by
    intro k h0
    refine Finset.eq_empty_of_forall_notMem fun i hi => ?_
    have hid : (0 : ℤ) = 902001 + k := (mem_clients.1 hi).2
    omega
  refine ⟨fun i _ => rfl, fun i => Or.inl rfl, fun k h0 _ => ?_, fun k _ _ b _ _ => rfl,
    fun _ k _ _ => zero_le_one⟩
  rw [hclients k h0]
  rfl

theorem table_of_reachable {kind : Kind} {listen_fd maxfd : ℕ} {s : Server}
    (h : (process kind listen_fd maxfd).Reachable s) : Table kind s := by
  refine h.invariant (fun s hs => ?_) fun e s t hs hstep => ?_
  · obtain ⟨input, -, rfl⟩ := hs
    exact table_boot kind listen_fd maxfd input
  · obtain ⟨o, ho, ht⟩ := Option.bind_eq_some_iff.1 hstep
    exact (handle_spec hs ho).table hs ht

/-- In every state between two events, for any events and any answers of `fcntl` : `arr[k]`
is the number of open connections with id `902001 + k`, a slot that is not open has id `0`,
the process owns the lock on record `k`, for reading in a read server and for writing in a
write server, if `arr[k]` is positive and no lock on it otherwise, and a write server has at
most one connection to a record. -/
theorem lock_table {kind : Kind} {listen_fd maxfd : ℕ} {s : Server}
    (h : (process kind listen_fd maxfd).Reachable s) :
    (∀ k, 0 ≤ k → k < 20 → s.arr k = (s.clients k).card) ∧
      (∀ i, s.isOpen i = false → (s.requestP i).id = 0) ∧
      (∀ k, 0 ≤ k → k < 20 → ∀ b, sizeofRecord * k ≤ b → b < sizeofRecord * k + sizeofRecord →
        (0 < s.arr k → s.locks b = some (lockType kind)) ∧ (¬0 < s.arr k → s.locks b = none)) ∧
      (kind = .write → ∀ k, 0 ≤ k → k < 20 → s.arr k ≤ 1) := by
  have ht := table_of_reachable h
  refine ⟨ht.arr, ht.closed, fun k h0 hk b hlo hhi => ?_, ht.single⟩
  have hcount := ht.arr k h0 hk
  have hlock := ht.locks k h0 hk b hlo hhi
  constructor
  · intro hpos
    rw [hlock, if_neg (by omega)]
  · intro hpos
    rw [hlock, if_pos (by omega)]

/-- `902003`, with the end of its line. -/
def idLine : Bytes :=
  [57, 48, 50, 48, 48, 51, 13, 10]

/-- Two clients ask a write server for one record, and `fcntl` would grant both. -/
def twoClients : List Input :=
  [.accept 4, .read 4 (some idLine), .accept 5, .read 5 (some idLine)].map fun e =>
    ⟨e, fun _ => true, fun k => ⟨902001 + k, fun _ => 0⟩⟩

/-- The second client is refused, and the lock of the first stays. -/
theorem lock_table_refused : ∃ s,
    (process .write 3 8).run twoClients (boot 3 8 (List.replicate 24 0)) = some s ∧
    s.isOpen 4 ∧ s.isOpen 5 = false ∧ s.arr 2 = 1 ∧ s.arr 2 = (s.clients 2).card ∧
      s.locks 40 = some .wrlck := by
  have htable := @lock_table .write 3 8 _
    ⟨_, twoClients, ⟨List.replicate 24 0, rfl, rfl⟩, (Option.some_get (by decide +kernel)).symm⟩
  refine ⟨_, (Option.some_get (by decide +kernel)).symm, by decide +kernel, by decide +kernel,
    by decide +kernel, ?_, ?_⟩
  · exact htable.1 2 (by decide) (by decide)
  · exact (htable.2.2.1 2 (by decide) (by decide) 40 (by decide) (by decide)).1 (by decide +kernel)

end SP2022.Booking
