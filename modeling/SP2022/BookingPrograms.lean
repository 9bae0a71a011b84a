import SP2022.BookingAtomic
import SP2022.BookingCalls

/-!
# What the programs of the servers do

For any answers of the system, the program of an event leaves a server in which the tables of
`BookingTable` hold (`Ready.safe`). It accesses `bookingRecord` only where the process has a
lock, for a `write` a write lock, and it takes or gives back a lock once at most.
-/

namespace SP2022.Booking

open Server Program

/-- A server with the locks that the process holds. -/
def Server.on (s : Server) (h : Held) : Server :=
  { s with locks := h.locks }

/-- The calls that other servers can see. -/
def commits : Call → Bool
  | .setlk _ | .unlock _ _ => true
  | _ => false

/-- A `read` needs a lock, a `write` a write lock. -/
def effects : Effects Call Call.Answer Held where
  Pre
    | .read, h => ∀ b, h.offset ≤ b → b < h.offset + sizeofRecord → h.locks b ≠ none
    | .write data, h => 0 < data.length ∧
      ∀ b, h.offset ≤ b → b < h.offset + data.length → h.locks b = some .wrlck
    | _, _ => True
  next := Held.next

/-- The program is safe from this state of the process, and returns with `Q`. `b` says that it
has committed. -/
def Safe {α : Type} (P : Calls α) (Q : α → Held → Bool → Prop) (h : Held) (b : Bool) : Prop :=
  P.wp (effects.once commits) (fun a x => Q a x.1 x.2) (h, b)

/-- A client that is past `initialize` has the lock on its record. -/
theorem Table.locked {kind : Kind} {s : Server} (h : Table kind s) {j : ℕ} (hopen : s.isOpen j)
    (hid : (s.requestP j).id ≠ 0) : ∃ k, (s.requestP j).id = 902001 + k ∧ 0 ≤ k ∧ k < 20 ∧
      ∀ b, sizeofRecord * k ≤ b → b < sizeofRecord * k + sizeofRecord →
        s.locks b = some (lockType kind) := by
  have hrange := (h.ids j).resolve_left hid
  obtain ⟨k, hk⟩ : ∃ k, (s.requestP j).id = 902001 + k := ⟨(s.requestP j).id - 902001, by omega⟩
  have hcount := h.arr k (by omega) (by omega)
  have hpos : 0 < (s.clients k).card := Finset.card_pos.2 ⟨j, mem_clients.2 ⟨hopen, hk⟩⟩
  refine ⟨k, hk, by omega, by omega, fun b hlo hhi => ?_⟩
  rw [h.locks k (by omega) (by omega) b hlo hhi, if_neg (by omega)]

section Safe

variable {α β : Type} {Q : α → Held → Bool → Prop} {h : Held} {b : Bool} {i : ℕ}

@[simp] theorem safe_ret (a : α) : Safe (.ret a) Q h b ↔ Q a h b :=
  Iff.rfl

@[simp] theorem safe_bind (P : Calls α) (f : α → Calls β) (Q : β → Held → Bool → Prop) :
    Safe (P >>= f) Q h b ↔ Safe P (fun a h b => Safe (f a) Q h b) h b :=
  wp_bind _ _ _ _

theorem Safe.mono {R : α → Held → Bool → Prop} {P : Calls α} (hP : Safe P Q h b)
    (hQ : ∀ a h b, Q a h b → R a h b) : Safe P R h b :=
  wp_mono (fun a x => hQ a x.1 x.2) hP

@[simp] theorem safe_send (i : ℕ) (r : Reply) (Q : Unit → Held → Bool → Prop) :
    Safe (Calls.send i r) Q h b ↔ Q () h b := by
  have hcall : Safe (Calls.send i r) Q h b ↔
      (True ∧ (false → b = false)) ∧ ∀ _ : Unit, Q () h (b || false) := Iff.rfl
  simp [hcall]

@[simp] theorem safe_lseek (offset : ℤ) (Q : Unit → Held → Bool → Prop) :
    Safe (Calls.lseek offset) Q h b ↔ Q () ⟨h.locks, offset⟩ b := by
  have hcall : Safe (Calls.lseek offset) Q h b ↔
      (True ∧ (false → b = false)) ∧ ∀ _ : Unit, Q () ⟨h.locks, offset⟩ (b || false) := Iff.rfl
  simp [hcall]

@[simp] theorem safe_sends (i : ℕ) (rs : List Reply) (Q : Unit → Held → Bool → Prop) :
    Safe (Calls.sends i rs) Q h b ↔ Q () h b := by
  induction rs with
  | nil => rfl
  | cons r rs ih => rw [Calls.sends, safe_bind, safe_send, ih]

@[simp] theorem safe_setlk (l : Flock) (Q : Bool → Held → Bool → Prop) :
    Safe (Calls.setlk l) Q h b ↔
      b = false ∧ ∀ granted : Bool, Q granted (h.lock l granted) true := by
  have hcall : Safe (Calls.setlk l) Q h b ↔ (True ∧ (true → b = false)) ∧
      ∀ granted : Bool, Q granted (h.lock l granted) (b || true) := Iff.rfl
  simp [hcall]

@[simp] theorem safe_unlock (l_start l_len : ℤ) (Q : Unit → Held → Bool → Prop) :
    Safe (Calls.unlock l_start l_len) Q h b ↔
      b = false ∧ Q () (h.unlock l_start l_len) true := by
  have hcall : Safe (Calls.unlock l_start l_len) Q h b ↔ (True ∧ (true → b = false)) ∧
      ∀ _ : Unit, Q () (h.unlock l_start l_len) (b || true) := Iff.rfl
  simp [hcall]

@[simp] theorem safe_read (Q : Bytes → Held → Bool → Prop) :
    Safe Calls.read Q h b ↔
      (∀ b, h.offset ≤ b → b < h.offset + sizeofRecord → h.locks b ≠ none) ∧
      ∀ data, Q data ⟨h.locks, h.offset + sizeofRecord⟩ b := by
  have hcall : Safe Calls.read Q h b ↔
      ((∀ b, h.offset ≤ b → b < h.offset + sizeofRecord → h.locks b ≠ none) ∧
        (false → b = false)) ∧
      ∀ data, Q data ⟨h.locks, h.offset + sizeofRecord⟩ (b || false) := Iff.rfl
  simp [hcall]

@[simp] theorem safe_write (data : Bytes) (Q : Unit → Held → Bool → Prop) :
    Safe (Calls.write data) Q h b ↔
      (0 < data.length ∧
        ∀ b, h.offset ≤ b → b < h.offset + data.length → h.locks b = some .wrlck) ∧
      Q () ⟨h.locks, h.offset + data.length⟩ b := by
  have hcall : Safe (Calls.write data) Q h b ↔
      ((0 < data.length ∧
        ∀ b, h.offset ≤ b → b < h.offset + data.length → h.locks b = some .wrlck) ∧
        (false → b = false)) ∧
      ∀ _ : Unit, Q () ⟨h.locks, h.offset + data.length⟩ (b || false) := Iff.rfl
  simp [hcall]

/-- `disconnect` gives a lock back if it ends the last connection of a record. -/
theorem safe_disconnect {lock : Bool} {s : Server} {Q : Server → Held → Bool → Prop}
    (hb : lock = true → b = false)
    (hQ : ∀ t h' b', t.on h' = (s.on h).disconnect i lock → Q t h' b') :
    Safe (Calls.disconnect i lock s) Q h b := by
  cases lock with
  | false => exact hQ _ _ _ rfl
  | true =>
    simp only [Calls.disconnect, if_true]
    split_ifs with harr
    · simp only [safe_bind, safe_unlock]
      refine ⟨hb rfl, hQ _ _ _ ?_⟩
      simp only [Server.disconnect, releaseId, Server.on, if_true, harr]
      rfl
    · refine hQ _ _ _ ?_
      simp only [Server.disconnect, releaseId, Server.on, if_true, harr]
      rfl

/-- `initialize` asks for a lock once, and reads the record if it gets it. -/
theorem safe_initializeClient {kind : Kind} {s : Server}
    {Q : Server × Bool → Held → Bool → Prop}
    (hQ : ∀ t ok h' b', (∃ granted r replies, (s.on h).initializeClient kind (fun _ => granted)
      (fun _ => r) i = (t.on h', replies, ok)) → Q (t, ok) h' b') :
    Safe (Calls.initializeClient kind i s) Q h false := by
  unfold Calls.initializeClient
  by_cases hid : convert (s.requestP i).buf < 902001 ∨ 902020 < convert (s.requestP i).buf
  · simp only [if_pos hid, safe_bind, safe_send]
    refine safe_disconnect nofun fun t h' b' ht =>
      hQ t false h' b' ⟨false, ⟨0, fun _ => 0⟩, [.failed], ?_⟩
    unfold Server.initializeClient
    rw [ht]
    exact if_pos hid
  · simp only [if_neg hid, safe_bind, safe_setlk]
    refine ⟨trivial, fun granted => ?_⟩
    cases granted with
    | false =>
      simp only [Bool.false_eq_true, if_false]
      rw [if_pos (by decide : (11 : ℤ) ≠ 0)]
      simp only [safe_bind, safe_send]
      refine safe_disconnect nofun fun t h' b' ht =>
        hQ t false h' b' ⟨false, ⟨0, fun _ => 0⟩, [.locked], ?_⟩
      unfold Server.initializeClient
      rw [ht]
      exact if_neg hid
    | true =>
      simp only [if_true]
      split_ifs with herrno
      · simp only [safe_bind, safe_send]
        refine safe_disconnect nofun fun t h' b' ht =>
          hQ t false h' b' ⟨true, ⟨0, fun _ => 0⟩, [.locked], ?_⟩
        unfold Server.initializeClient
        rw [ht]
        exact (if_neg hid).trans (if_pos herrno)
      · simp only [safe_bind, safe_lseek, safe_read, safe_sends]
        refine ⟨fun b hlo hhi => ?_, fun data => ?_⟩
        · have hcov : Flock.covers ⟨lockType kind,
              sizeofRecord * (convert (s.requestP i).buf - 902000 - 1), sizeofRecord⟩ b = true := by
            simp only [Flock.covers, Bool.and_eq_true, decide_eq_true_eq]
            exact ⟨hlo, hhi⟩
          simp [Held.lock, hcov]
        · refine hQ _ true _ _
            ⟨true, Record.decode data, bookedLines (Record.decode data).bookingState, ?_⟩
          unfold Server.initializeClient
          exact (if_neg hid).trans (if_neg herrno)

theorem safe_login {kind : Kind} {last : Reply} {s : Server} {Q : Server → Held → Bool → Prop}
    (hQ : ∀ t h' b', (∃ granted r, (login kind (fun _ => granted) (fun _ => r) i last
      (s.on h)).server = some (t.on h')) → Q t h' b') :
    Safe (Calls.login kind i last s) Q h false := by
  unfold Calls.login
  rw [safe_bind]
  refine safe_initializeClient fun t ok h' b' ⟨granted, r, replies, heq⟩ => ?_
  have ht : Q t h' b' := hQ t h' b' ⟨granted, r, by simp only [login, heq]⟩
  cases ok with
  | false => exact ht
  | true => simpa using ht

/-- A command needs the write lock on the record. -/
theorem safe_command {s : Server} {Q : Server → Held → Bool → Prop} {k : ℤ}
    (hid : (s.requestP i).id = 902001 + k)
    (hlock : ∀ b, sizeofRecord * k ≤ b → b < sizeofRecord * k + sizeofRecord →
      h.locks b = some .wrlck)
    (hQ : ∀ t h' b', (∃ r, (command (fun _ => r) i (s.on h)).server = some (t.on h')) →
      Q t h' b') :
    Safe (Calls.command i s) Q h false := by
  have hidx : (s.requestP i).id - 902000 - 1 = k := by omega
  -- whatever the checks say, the client is disconnected
  have hend : ∀ offset, Safe (Calls.disconnect i true
      { s with input := scan (s.requestP i).buf s.input }) Q ⟨h.locks, offset⟩ false := by
    intro offset
    refine safe_disconnect (fun _ => rfl) fun t h' b' ht => hQ t h' b' ⟨⟨0, fun _ => 0⟩, ?_⟩
    rw [ht]
    exact (command_eq (s := s.on h) hid).1
  unfold Calls.command
  cases hparam : params (scan (s.requestP i).buf s.input) with
  | none =>
    simp only [hparam, safe_bind, safe_send]
    exact hend h.offset
  | some param =>
    simp only [hparam, hidx, safe_bind, safe_lseek, safe_read]
    refine ⟨fun b hlo hhi => by simp [hlock b hlo hhi], fun data => ?_⟩
    cases hcheck : check param (Record.decode data).bookingState with
    | error r =>
      simp only [safe_bind, safe_send]
      exact hend _
    | ok new =>
      simp only [safe_bind, safe_send, safe_sends, safe_lseek, safe_write, length_encode]
      exact ⟨⟨by omega, hlock⟩, hend _⟩

theorem safe_line {kind : Kind} {s : Server} {Q : Server → Held → Bool → Prop}
    (hlock : kind = .write → (s.requestP i).id ≠ 0 → ∃ k, (s.requestP i).id = 902001 + k ∧
      ∀ b, sizeofRecord * k ≤ b → b < sizeofRecord * k + sizeofRecord → h.locks b = some .wrlck)
    (hQ : ∀ t h' b', (∃ granted r, (line kind (fun _ => granted) (fun _ => r) i
      (s.on h)).server = some (t.on h')) → Q t h' b') :
    Safe (Calls.line kind i s) Q h false := by
  have hserver : ∀ t h' b' granted r o, line kind (fun _ => granted) (fun _ => r) i (s.on h) = o →
      o.server = some (t.on h') → Q t h' b' := fun t h' b' granted r o ho ht =>
    hQ t h' b' ⟨granted, r, ho ▸ ht⟩
  unfold Calls.line
  unfold line at hserver
  cases kind with
  | read =>
    simp only at hserver ⊢
    split_ifs with hid hbuf
    · exact safe_login fun t h' b' ⟨granted, r, ht⟩ => hserver _ _ _ _ _ _ (if_pos hid) ht
    · exact hserver s h false false ⟨0, fun _ => 0⟩ _ ((if_neg hid).trans (if_pos hbuf)) rfl
    · refine safe_disconnect (fun _ => rfl) fun t h' b' ht => ?_
      refine hserver t h' b' false ⟨0, fun _ => 0⟩ _ ((if_neg hid).trans (if_neg hbuf)) ?_
      exact congrArg some ht.symm
  | write =>
    simp only at hserver ⊢
    split_ifs with hid
    · exact safe_login fun t h' b' ⟨granted, r, ht⟩ => hserver _ _ _ _ _ _ (if_pos hid) ht
    · obtain ⟨k, hk, hlocks⟩ := hlock rfl hid
      exact safe_command hk hlocks fun t h' b' ⟨r, ht⟩ =>
        hserver t h' b' false r _ (if_neg hid) ht

/-- A descriptor that `handle` can take. A process that exits does so before any call. -/
theorem safe_handler {kind : Kind} {e : Event} {s : Server}
    {Q : Option Server → Held → Bool → Prop} (htable : Table kind (s.on h))
    (hfits : e.Fits s i) (hopen : ∀ j chunk, e = .read j chunk → s.isOpen j)
    (hexit : Calls.handler kind e s = .ret none → Q none h false)
    (hQ : ∀ t h' b', (∃ setlk file o, handle kind setlk file e (s.on h) = some o ∧
      o.server = some (t.on h')) → Q (some t) h' b') :
    Safe (Calls.handler kind e s) Q h false := by
  unfold Calls.handler
  unfold Calls.handler at hexit
  cases e with
  | accept fd =>
    have hcond : fd < s.maxfd ∧ fd ≠ s.listen_fd ∧ s.master_set fd = false := hfits.2
    have hret := hQ { s with
      requestP := Function.update s.requestP fd { s.requestP fd with conn_fd := fd }
      master_set := Function.update s.master_set fd true } h false
      ⟨fun _ => false, fun _ => ⟨0, fun _ => 0⟩, _, if_pos hcond, rfl⟩
    simp only
    split_ifs
    · simpa using hret
    · exact hret
  | acceptFailed again =>
    cases again with
    | false => exact hexit rfl
    | true => exact hQ s h false ⟨fun _ => false, fun _ => ⟨0, fun _ => 0⟩, _, rfl, rfl⟩
  | read j chunk =>
    have hcond : (s.on h).isOpen j ∧ (chunk.getD []).length ≤ 512 :=
      ⟨hopen j chunk rfl, hfits.2.2⟩
    have hhandle : ∀ setlk file, handle kind setlk file (.read j chunk) (s.on h) = _ :=
      fun setlk file => if_pos hcond
    cases hread : handle_read chunk with
    | failed =>
      simp only [hread] at hhandle ⊢
      exact hQ s h false ⟨_, _, _, hhandle (fun _ => false) fun _ => ⟨0, fun _ => 0⟩, rfl⟩
    | eof =>
      simp only [hread, safe_bind] at hhandle ⊢
      refine safe_disconnect (fun _ => rfl) fun t h' b' ht => ?_
      refine hQ t h' b' ⟨_, _, _, hhandle (fun _ => false) fun _ => ⟨0, fun _ => 0⟩, ?_⟩
      exact congrArg some ht.symm
    | exit =>
      simp only [hread] at hexit ⊢
      exact hexit rfl
    | line buf =>
      simp only [hread, safe_bind] at hhandle ⊢
      refine safe_line (fun hkind hid => ?_) fun t h' b' ⟨granted, r, ht⟩ =>
        hQ t h' b' ⟨_, _, _, hhandle (fun _ => granted) fun _ => r, ht⟩
      simp only [Function.update_self] at hid ⊢
      obtain ⟨k, hk, -, -, hlocks⟩ := htable.locked (hopen j chunk rfl) hid
      exact ⟨k, hk, fun b hlo hhi => (hlocks b hlo hhi).trans (hkind ▸ rfl)⟩

end Safe

/-! ## The descriptors that are left -/

/-- The connections other than `i` are as they were. -/
structure Frame (s t : Server) (i : ℕ) : Prop where
  listen_fd : t.listen_fd = s.listen_fd
  maxfd : t.maxfd = s.maxfd
  master_set : ∀ j, j ≠ i → s.master_set j = true → t.master_set j = true

section Frame

variable {kind : Kind} {setlk : Flock → Bool} {file : File} {s t u : Server} {i : ℕ} {e : Event}
  {o : Outcome}

theorem Frame.refl (s : Server) (i : ℕ) : Frame s s i :=
  ⟨rfl, rfl, fun _ _ => id⟩

theorem Frame.of_eq (h : Frame t u i) (hlisten : t.listen_fd = s.listen_fd)
    (hmax : t.maxfd = s.maxfd) (hset : t.master_set = s.master_set) : Frame s u i :=
  ⟨h.listen_fd.trans hlisten, h.maxfd.trans hmax,
    fun j hj hj' => h.master_set j hj (by rw [hset, hj'])⟩

theorem frame_disconnect (s : Server) (i : ℕ) (lock : Bool) :
    Frame s (s.disconnect i lock) i := by
  obtain ⟨hlisten, hmax, -, hset⟩ := releaseId_frame s ((s.requestP i).id - 902000 - 1)
  cases lock with
  | false => exact ⟨rfl, rfl, fun j hj hset => (Function.update_of_ne hj _ _).trans hset⟩
  | true =>
    refine ⟨hlisten, hmax, fun j hj hj' => ?_⟩
    show Function.update (s.releaseId _).master_set i false j = true
    rw [Function.update_of_ne hj, hset, hj']

theorem frame_initializeClient (s : Server) (i : ℕ) :
    Frame s (s.initializeClient kind setlk file i).1 i := by
  unfold Server.initializeClient setLock
  dsimp only
  split_ifs <;>
    first
    | exact frame_disconnect s i false
    | exact ⟨rfl, rfl, fun _ _ => id⟩
    | exact (frame_disconnect _ i false).of_eq rfl rfl rfl

theorem frame_line (h : (line kind setlk file i s).server = some t) : Frame s t i := by
  have hlogin : ∀ last, (login kind setlk file i last s).server = some t → Frame s t i :=
    fun last h => Option.some.inj h ▸ frame_initializeClient s i
  unfold line at h
  cases kind with
  | read =>
    simp only at h
    split_ifs at h
    · exact hlogin _ h
    · exact Option.some.inj h ▸ .refl s i
    · exact Option.some.inj h ▸ frame_disconnect s i true
  | write =>
    simp only at h
    split_ifs at h
    · exact hlogin _ h
    · have hserver := (@command_eq file i s ((s.requestP i).id - 902001) (by omega)).1
      rw [h] at hserver
      rw [Option.some.inj hserver]
      exact (frame_disconnect _ i true).of_eq rfl rfl rfl

/-- What an event does with the other connections. -/
theorem frame_handle (h : handle kind setlk file e s = some o) (ht : o.server = some t)
    (hi : ∀ j chunk, e = .read j chunk → j = i) : Frame s t i := by
  unfold handle at h
  cases e with
  | accept fd =>
    simp only at h
    by_cases hfd : fd < s.maxfd ∧ fd ≠ s.listen_fd ∧ s.master_set fd = false
    · rw [if_pos hfd] at h
      obtain rfl := Option.some.inj h
      obtain rfl := Option.some.inj ht
      refine ⟨rfl, rfl, fun j _ hj => ?_⟩
      by_cases hjfd : j = fd
      · exact hjfd ▸ Function.update_self _ _ _
      · exact (Function.update_of_ne hjfd _ _).trans hj
    · rw [if_neg hfd] at h
      cases h
  | acceptFailed again =>
    obtain rfl := Option.some.inj h
    cases again
    · cases ht
    · exact Option.some.inj ht ▸ .refl s i
  | read j chunk =>
    obtain rfl := hi j chunk rfl
    simp only at h
    split_ifs at h
    cases hread : handle_read chunk with
    | failed =>
      rw [hread] at h
      obtain rfl := Option.some.inj h
      exact Option.some.inj ht ▸ .refl s j
    | eof =>
      rw [hread] at h
      obtain rfl := Option.some.inj h
      exact Option.some.inj ht ▸ frame_disconnect s j _
    | exit =>
      rw [hread] at h
      obtain rfl := Option.some.inj h
      cases ht
    | line buf =>
      rw [hread] at h
      obtain rfl := Option.some.inj h
      exact (frame_line ht).of_eq rfl rfl rfl

end Frame

/-- The process is at the descriptor `i`. Those from `i` on that `select` reported are still
there. -/
structure Ready (kind : Kind) (h : Held) (s : Server) (working_set : ℕ → Bool) (i : ℕ) :
    Prop where
  table : Table kind (s.on h)
  left : ∀ j, i ≤ j → j < s.maxfd → working_set j = true → s.master_set j = true

/-- A program that leaves the process ready for the next descriptor. -/
def Leads (kind : Kind) (working_set : ℕ → Bool) (i : ℕ) (r : Option Server) (h : Held) : Prop :=
  ∃ t, r = some t ∧ Ready kind h t working_set (i + 1)

theorem Ready.read {kind : Kind} {h : Held} {s : Server} {working_set : ℕ → Bool} {i : ℕ}
    {e : Event} (hready : Ready kind h s working_set i) (hi : i < s.maxfd)
    (hset : working_set i = true) (hfits : e.Fits s i) :
    ∀ j chunk, e = .read j chunk → j = i ∧ s.isOpen j := by
  rintro j chunk rfl
  obtain ⟨rfl, hlisten, -⟩ := hfits
  refine ⟨rfl, ?_⟩
  simp [Server.isOpen, hi, hlisten, hready.left j le_rfl hi hset]

/-- The process exits, or the program of the event is safe and leaves it ready. -/
theorem Ready.safe {kind : Kind} {h : Held} {s : Server} {working_set : ℕ → Bool} {i : ℕ}
    {e : Event} (hready : Ready kind h s working_set i) (hi : i < s.maxfd)
    (hset : working_set i = true) (hfits : e.Fits s i) :
    Calls.handler kind e s = .ret none ∨
      Safe (Calls.handler kind e s) (fun r h' _ => Leads kind working_set i r h') h false := by
  have hread := hready.read hi hset hfits
  by_cases hexit : Calls.handler kind e s = .ret none
  · exact .inl hexit
  refine .inr (safe_handler hready.table hfits (fun j chunk he => (hread j chunk he).2)
    (fun h => absurd h hexit) fun t h' b' ⟨setlk, file, o, hhandle, ho⟩ => ⟨t, rfl, ?_⟩)
  have hspec := handle_spec hready.table hhandle
  refine ⟨hspec.table hready.table ho, fun j hj hlt hw => ?_⟩
  obtain ⟨-, hmax, hkeep⟩ := frame_handle hhandle ho fun j chunk he => (hread j chunk he).1
  have hlt' : j < s.maxfd := lt_of_lt_of_eq hlt hmax
  exact hkeep j (by omega) (hready.left j (by omega) hlt' hw)

end SP2022.Booking
