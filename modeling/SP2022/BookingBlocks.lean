import SP2022.BookingPrograms

/-!
# A server that is not interrupted

With no other process in between, the program of an event does what `handle` does : it leaves
the same server, with the same locks, the same records in `bookingRecord`, and the same messages
(`exec_handler`).
-/

namespace SP2022.Booking

open Server Program

/-- What a process has, and `bookingRecord`. -/
structure View where
  held : Held
  content : ℤ → UInt8
  sent : List (ℕ × Reply)

/-- The answer to a call, if no other process comes in between. -/
def View.answer (setlk : Flock → Bool) (x : View) : (c : Call) → c.Answer
  | .setlk l => setlk l
  | .unlock _ _ => ()
  | .lseek _ => ()
  | .read => readAt x.content x.held.offset sizeofRecord.toNat
  | .write _ => ()
  | .send _ _ => ()

/-- What a call leaves. -/
def View.next (c : Call) (a : c.Answer) (x : View) : View where
  held := x.held.next c a
  content := nextContent x.held x.content c
  sent := nextSent x.sent c

/-- A program without interruption. -/
def View.exec {α : Type} (setlk : Flock → Bool) (x : View) (P : Calls α) : α × View :=
  P.exec (fun c x => x.answer setlk c) (fun c a x => x.next c a) x

section Exec

variable {α β : Type} {setlk : Flock → Bool} {x : View} {h : Held} {content : ℤ → UInt8}
  {sent : List (ℕ × Reply)} {i : ℕ}

@[simp] theorem exec_ret' (a : α) : x.exec setlk (.ret a) = (a, x) :=
  rfl

@[simp] theorem exec_bind' (P : Calls α) (f : α → Calls β) :
    x.exec setlk (P >>= f) = (x.exec setlk P).2.exec setlk (f (x.exec setlk P).1) :=
  exec_bind _ _ _

@[simp] theorem exec_send (r : Reply) : View.exec setlk ⟨h, content, sent⟩ (Calls.send i r) =
    ((), ⟨h, content, sent ++ [(i, r)]⟩) :=
  rfl

@[simp] theorem exec_lseek (offset : ℤ) :
    View.exec setlk ⟨h, content, sent⟩ (Calls.lseek offset) =
      ((), ⟨⟨h.locks, offset⟩, content, sent⟩) :=
  rfl

@[simp] theorem exec_setlk (l : Flock) :
    View.exec setlk ⟨h, content, sent⟩ (Calls.setlk l) =
      (setlk l, ⟨h.lock l (setlk l), content, sent⟩) :=
  rfl

@[simp] theorem exec_unlock (l_start l_len : ℤ) :
    View.exec setlk ⟨h, content, sent⟩ (Calls.unlock l_start l_len) =
      ((), ⟨h.unlock l_start l_len, content, sent⟩) :=
  rfl

@[simp] theorem exec_read : View.exec setlk ⟨h, content, sent⟩ Calls.read =
    (readAt content h.offset sizeofRecord.toNat,
      ⟨⟨h.locks, h.offset + sizeofRecord⟩, content, sent⟩) :=
  rfl

@[simp] theorem exec_write (data : Bytes) :
    View.exec setlk ⟨h, content, sent⟩ (Calls.write data) =
      ((), ⟨⟨h.locks, h.offset + data.length⟩, writeAt content h.offset data, sent⟩) :=
  rfl

@[simp] theorem exec_sends (rs : List Reply) :
    View.exec setlk ⟨h, content, sent⟩ (Calls.sends i rs) =
      ((), ⟨h, content, sent ++ rs.map fun r => (i, r)⟩) := by
  induction rs generalizing sent with
  | nil => simp [Calls.sends]
  | cons r rs ih => simp [Calls.sends, ih]

theorem exec_disconnect (setlk : Flock → Bool) (h : Held) (i : ℕ) (lock : Bool) (s : Server) :
    ∃ t h', t.on h' = (s.on h).disconnect i lock ∧ ∀ content sent,
      View.exec setlk ⟨h, content, sent⟩ (Calls.disconnect i lock s) =
        (t, ⟨h', content, sent⟩) := by
  cases lock with
  | false => exact ⟨_, h, rfl, fun _ _ => rfl⟩
  | true =>
    simp only [Calls.disconnect, if_true]
    split_ifs with harr
    · simp only [exec_bind', exec_unlock, pure_eq, exec_ret']
      refine ⟨_, _, ?_, fun _ _ => rfl⟩
      simp only [Server.disconnect, releaseId, Server.on, if_true, harr]
      rfl
    · refine ⟨_, h, ?_, fun _ _ => rfl⟩
      simp only [Server.disconnect, releaseId, Server.on, if_true, harr]
      rfl

theorem exec_initializeClient (setlk : Flock → Bool) (h : Held) (content : ℤ → UInt8)
    (sent : List (ℕ × Reply)) (kind : Kind) (i : ℕ) (s : Server) : ∃ t ok h' replies,
    (s.on h).initializeClient kind setlk (records content) i = (t.on h', replies, ok) ∧
    View.exec setlk ⟨h, content, sent⟩ (Calls.initializeClient kind i s) =
      ((t, ok), ⟨h', content, sent ++ replies.map fun r => (i, r)⟩) := by
  unfold Calls.initializeClient
  by_cases hid : convert (s.requestP i).buf < 902001 ∨ 902020 < convert (s.requestP i).buf
  · obtain ⟨t, h', ht, hexec⟩ := exec_disconnect setlk h i false s
    simp only [if_pos hid, exec_bind', exec_send, hexec, pure_eq, exec_ret']
    refine ⟨t, false, h', [.failed], ?_, rfl⟩
    unfold Server.initializeClient
    rw [ht]
    exact if_pos hid
  · simp only [if_neg hid, exec_bind', exec_setlk]
    set id := convert (s.requestP i).buf - 902000 - 1 with hk
    set s₁ : Server := { s with
      requestP := Function.update s.requestP i
        { s.requestP i with id := convert (s.requestP i).buf } } with hs₁
    set l : Flock := ⟨lockType kind, sizeofRecord * id, sizeofRecord⟩ with hl
    -- the only question to `fcntl`
    have hasks : (s.on h).initializeClient kind setlk (records content) i =
        (s.on h).initializeClient kind (fun _ => setlk l) (records content) i := rfl
    rw [hasks]
    obtain ⟨t, h', ht, hexec⟩ :=
      exec_disconnect setlk (h.lock l (setlk l)) i false s₁
    rcases Bool.eq_false_or_eq_true (setlk l) with hgrant | hgrant
    case inr =>
      simp only [hgrant, Bool.false_eq_true, if_false] at ht hexec ⊢
      rw [if_pos (by decide : (11 : ℤ) ≠ 0)]
      simp only [exec_bind', exec_send, hexec, pure_eq, exec_ret']
      refine ⟨t, false, h', [.locked], ?_, rfl⟩
      unfold Server.initializeClient
      rw [ht]
      exact if_neg hid
    case inl =>
      simp only [hgrant, if_true] at ht hexec ⊢
      by_cases herrno : s₁.preload kind id ≠ 0
      · rw [if_pos herrno]
        simp only [exec_bind', exec_send, hexec, pure_eq, exec_ret']
        refine ⟨t, false, h', [.locked], ?_, rfl⟩
        unfold Server.initializeClient
        rw [ht]
        exact (if_neg hid).trans (if_pos herrno)
      · rw [if_neg herrno]
        simp only [exec_bind', exec_lseek, exec_read, exec_sends, pure_eq, exec_ret']
        refine ⟨_, true, _, bookedLines (records content id).bookingState, ?_, rfl⟩
        unfold Server.initializeClient
        exact (if_neg hid).trans (if_neg herrno)

theorem exec_login (setlk : Flock → Bool) (h : Held) (content : ℤ → UInt8)
    (sent : List (ℕ × Reply)) (kind : Kind) (i : ℕ) (last : Reply) (s : Server) :
    ∃ t h' replies,
      login kind setlk (records content) i last (s.on h) =
        ⟨some (t.on h'), records content, replies, []⟩ ∧
      View.exec setlk ⟨h, content, sent⟩ (Calls.login kind i last s) =
        (t, ⟨h', content, sent ++ replies.map fun r => (i, r)⟩) := by
  obtain ⟨t, ok, h', replies, ht, hexec⟩ := exec_initializeClient setlk h content sent kind i s
  unfold Calls.login login
  simp only [exec_bind', hexec, ht]
  cases ok with
  | false => exact ⟨t, h', replies, rfl, rfl⟩
  | true => exact ⟨t, h', replies ++ [last], rfl, by simp⟩

/-- What a command writes are the records that `command` leaves. -/
theorem exec_command (setlk : Flock → Bool) (h : Held) (content : ℤ → UInt8)
    (sent : List (ℕ × Reply)) (i : ℕ) (s : Server) : ∃ t h' content' replies applied,
      command (records content) i (s.on h) =
        ⟨some (t.on h'), records content', replies, applied⟩ ∧
      View.exec setlk ⟨h, content, sent⟩ (Calls.command i s) =
        (t, ⟨h', content', sent ++ replies.map fun r => (i, r)⟩) := by
  unfold Calls.command command
  set s₁ : Server := { s with input := scan (s.requestP i).buf s.input } with hs₁
  have hinput : { s.on h with input := scan ((s.on h).requestP i).buf (s.on h).input } =
      s₁.on h := rfl
  rw [hinput]
  cases hparam : params s₁.input with
  | none =>
    obtain ⟨t, h', ht, hexec⟩ := exec_disconnect setlk h i true s₁
    have hparam' : params (s₁.on h).input = none := hparam
    simp only [hparam, hparam', exec_bind', exec_send, hexec, ← ht]
    exact ⟨t, h', content, [.failed], [], rfl, rfl⟩
  | some param =>
    have hparam' : params (s₁.on h).input = some param := hparam
    obtain ⟨id, hid⟩ : ∃ id, (s₁.requestP i).id - 902000 - 1 = id := ⟨_, rfl⟩
    have hid' : ((s₁.on h).requestP i).id - 902000 - 1 = id := hid
    have hread : Record.decode (readAt content (sizeofRecord * id) sizeofRecord.toNat) =
        records content id := rfl
    simp only [hparam, hparam', hid, hid', exec_bind', exec_lseek, exec_read, hread]
    cases hcheck : check param (records content id).bookingState with
    | error r =>
      obtain ⟨t, h', ht, hexec⟩ :=
        exec_disconnect setlk ⟨h.locks, sizeofRecord * id + sizeofRecord⟩ i true s₁
      simp only [exec_bind', exec_send, hexec]
      refine ⟨t, h', content, [r], [], ?_, rfl⟩
      rw [ht]
      rfl
    | ok new =>
      obtain ⟨t, h', ht, hexec⟩ := exec_disconnect setlk ⟨h.locks, sizeofRecord * id +
        ({ records content id with bookingState := new } : Record).encode.length⟩ i true s₁
      simp only [exec_bind', exec_send, exec_sends, exec_lseek, exec_write, hexec]
      have hint : Record.IsInt { records content id with bookingState := new } := by
        obtain ⟨-, -, rfl⟩ := check_eq_ok.1 hcheck
        exact (isInt_records id).update fun j => int32_isInt _
      refine ⟨t, h', writeAt content (sizeofRecord * id)
          ({ records content id with bookingState := new } : Record).encode,
        .updated (s₁.requestP i).id :: bookedLines new, [(id, param)], ?_, ?_⟩
      · rw [ht, records_writeAt hint]
        rfl
      · simp only [List.map_cons, List.append_assoc, List.cons_append, List.nil_append]

theorem exec_line (setlk : Flock → Bool) (h : Held) (content : ℤ → UInt8)
    (sent : List (ℕ × Reply)) (kind : Kind) (i : ℕ) (s : Server) :
    ∃ t h' content' replies applied,
      line kind setlk (records content) i (s.on h) =
        ⟨some (t.on h'), records content', replies, applied⟩ ∧
      View.exec setlk ⟨h, content, sent⟩ (Calls.line kind i s) =
        (t, ⟨h', content', sent ++ replies.map fun r => (i, r)⟩) := by
  have hlogin : ∀ last, ∃ t h' content' replies applied,
      login kind setlk (records content) i last (s.on h) =
        ⟨some (t.on h'), records content', replies, applied⟩ ∧
      View.exec setlk ⟨h, content, sent⟩ (Calls.login kind i last s) =
        (t, ⟨h', content', sent ++ replies.map fun r => (i, r)⟩) := fun last => by
    obtain ⟨t, h', replies, ht, hexec⟩ := exec_login setlk h content sent kind i last s
    exact ⟨t, h', content, replies, [], ht, hexec⟩
  have hid : ((s.on h).requestP i) = s.requestP i := rfl
  unfold Calls.line line
  rw [hid]
  cases kind with
  | read =>
    simp only
    split_ifs with h0 hbuf
    · exact hlogin .leave
    · exact ⟨s, h, content, [], [], rfl, by simp⟩
    · obtain ⟨t, h', ht, hexec⟩ := exec_disconnect setlk h i true s
      exact ⟨t, h', content, [], [], by rw [ht], by simp [hexec]⟩
  | write =>
    simp only
    split_ifs with h0
    · exact hlogin .modify
    · exact exec_command setlk h content sent i s

/-- A server that handles an event without interruption does what `handle` says. -/
theorem exec_handler (setlk : Flock → Bool) (x : View) {kind : Kind} {e : Event} {i : ℕ}
    {s : Server} (hfits : e.Fits s i) (hopen : ∀ j chunk, e = .read j chunk → s.isOpen j) :
    ∃ r h' content' replies applied,
      handle kind setlk (records x.content) e (s.on x.held) =
        some ⟨r.map (Server.on · h'), records content', replies, applied⟩ ∧
      x.exec setlk (Calls.handler kind e s) =
        (r, ⟨h', content', x.sent ++ replies.map fun r => (e.fd, r)⟩) := by
  obtain ⟨h, content, sent⟩ := x
  simp only
  unfold Calls.handler
  cases e with
  | accept fd =>
    have hcond : fd < s.maxfd ∧ fd ≠ s.listen_fd ∧ s.master_set fd = false := hfits.2
    simp only
    set s₁ : Server := { s with
      requestP := Function.update s.requestP fd { s.requestP fd with conn_fd := fd }
      master_set := Function.update s.master_set fd true } with hs₁
    have hhandle : handle kind setlk (records content) (.accept fd) (s.on h) =
        some ⟨some (s₁.on h), records content,
          if (s₁.requestP fd).id = 0 then [.prompt] else [], []⟩ := if_pos hcond
    split_ifs at hhandle ⊢ with hid
    · refine ⟨some s₁, h, content, [.prompt], [], hhandle, ?_⟩
      simp only [exec_bind', exec_send, pure_eq, exec_ret']
      rfl
    · exact ⟨some s₁, h, content, [], [], hhandle, by simp⟩
  | acceptFailed again =>
    refine ⟨if again then some s else none, h, content, [], [], ?_, by simp⟩
    cases again <;> rfl
  | read j chunk =>
    have hcond : (s.on h).isOpen j ∧ (chunk.getD []).length ≤ 512 :=
      ⟨hopen j chunk rfl, hfits.2.2⟩
    have hhandle : handle kind setlk (records content) (.read j chunk)
        (s.on h) = _ := if_pos hcond
    rw [hhandle]
    cases hread : handle_read chunk with
    | failed => exact ⟨some s, h, content, [], [], rfl, by simp [hread]⟩
    | eof =>
      obtain ⟨t, h', ht, hexec⟩ :=
        exec_disconnect setlk h j (decide ((s.requestP j).id ≠ 0)) s
      refine ⟨some t, h', content, [], [], ?_, ?_⟩
      · rw [Option.map_some, ht]
        rfl
      simp only [hread, exec_bind', hexec, pure_eq, exec_ret', List.map_nil, List.append_nil]
    | exit => exact ⟨none, h, content, [], [], rfl, by simp [hread]⟩
    | line buf =>
      obtain ⟨t, h', content', replies, applied, ht, hexec⟩ :=
        exec_line setlk h content sent kind j { s with
          requestP := Function.update s.requestP j
            { s.requestP j with buf := buf, buf_len := buf.length } }
      refine ⟨some t, h', content', replies, applied, congrArg some ht, ?_⟩
      simp only [hread, exec_bind', hexec, pure_eq, exec_ret']
      rfl

end Exec

end SP2022.Booking
