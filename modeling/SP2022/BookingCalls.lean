import SP2022.BookingRecord
import SP2022.BookingWorld
import SP2022.Programs

/-!
# The servers, one system call at a time

The functions of `server.c` as programs that make system calls (`Call`), and the loop of `main`
around them : `select`, and then the descriptors that it reported, one after another. Between
two calls of a server any other server can make one of its own.

A `Machine` has the processes, each with the locks that it holds and its offset in
`bookingRecord`, and the bytes of this file.
-/

namespace SP2022.Booking

open Server

/-- `fcntl` to lock and to unlock, `lseek`, `read` and `write` on `bookingRecord`, and `write`
on a connection. -/
inductive Call
  | setlk (l : Flock)
  | unlock (l_start l_len : ℤ)
  | lseek (offset : ℤ)
  | read
  | write (data : Bytes)
  | send (i : ℕ) (r : Reply)

/-- What a call returns : whether the lock was granted, or the bytes that were read. -/
def Call.Answer : Call → Type
  | .setlk _ => Bool
  | .read => Bytes
  | _ => Unit

/-- A program of a server. -/
abbrev Calls :=
  Program Call Call.Answer

namespace Calls

def setlk (l : Flock) : Calls Bool :=
  .call (.setlk l) .ret

def unlock (l_start l_len : ℤ) : Calls Unit :=
  .call (.unlock l_start l_len) .ret

def lseek (offset : ℤ) : Calls Unit :=
  .call (.lseek offset) .ret

def read : Calls Bytes :=
  .call .read .ret

def write (data : Bytes) : Calls Unit :=
  .call (.write data) .ret

def send (i : ℕ) (r : Reply) : Calls Unit :=
  .call (.send i r) .ret

/-- Several messages. -/
def sends (i : ℕ) : List Reply → Calls Unit
  | [] => pure ()
  | r :: rs => do
    send i r
    sends i rs

/-- `disconnect`. -/
def disconnect (i : ℕ) (lock : Bool) (s : Server) : Calls Server := do
  let id := (s.requestP i).id - 902000 - 1
  if lock then
    let s : Server := { s with arr := Function.update s.arr id (s.arr id - 1) }
    if s.arr id = 0 then unlock (sizeofRecord * id) sizeofRecord
    pure (s.closeSlot i)
  else pure (s.closeSlot i)

/-- `initialize`, with whether it returns `0`. -/
def initializeClient (kind : Kind) (i : ℕ) (s : Server) : Calls (Server × Bool) := do
  let id := convert (s.requestP i).buf
  if id < 902001 ∨ 902020 < id then
    send i .failed
    let s ← disconnect i false s
    pure (s, false)
  else
    let s : Server :=
      { s with requestP := Function.update s.requestP i { s.requestP i with id := id } }
    let id := id - 902000 - 1
    let errno := s.preload kind id
    let granted ← setlk ⟨lockType kind, sizeofRecord * id, sizeofRecord⟩
    let errno := if granted then errno else 11
    if errno ≠ 0 then
      send i .locked
      let s ← disconnect i false s
      pure (s, false)
    else
      let s : Server := { s with arr := Function.update s.arr id (s.arr id + 1) }
      lseek (sizeofRecord * id)
      let data ← read
      sends i (bookedLines (Record.decode data).bookingState)
      pure (s, true)

/-- A line of a client that has not been initialized. -/
def login (kind : Kind) (i : ℕ) (last : Reply) (s : Server) : Calls Server := do
  let (s, ok) ← initializeClient kind i s
  if ok then send i last
  pure s

/-- A command line. -/
def command (i : ℕ) (s : Server) : Calls Server := do
  let s : Server := { s with input := scan (s.requestP i).buf s.input }
  match params s.input with
  | none =>
    send i .failed
    disconnect i true s
  | some param =>
    let id := (s.requestP i).id - 902000 - 1
    lseek (sizeofRecord * id)
    let data ← read
    let target := Record.decode data
    match check param target.bookingState with
    | .error r =>
      send i r
      disconnect i true s
    | .ok new =>
      send i (.updated (s.requestP i).id)
      sends i (bookedLines new)
      lseek (sizeofRecord * id)
      write { target with bookingState := new }.encode
      disconnect i true s

/-- A line that `handle_read` has stored in the request's `buf`. -/
def line (kind : Kind) (i : ℕ) (s : Server) : Calls Server :=
  match kind with
  | .read =>
    if (s.requestP i).id = 0 then login .read i .leave s
    else if (s.requestP i).buf ≠ exitLine then pure s
    else disconnect i true s
  | .write =>
    if (s.requestP i).id = 0 then login .write i .modify s
    else command i s

/-- What `main` does with a descriptor that `select` reported, after `accept` or `read`. It
returns the server, `none` if it exits. -/
def handler (kind : Kind) (e : Event) (s : Server) : Calls (Option Server) :=
  match e with
  | .accept fd => do
    let s : Server := { s with
      requestP := Function.update s.requestP fd { s.requestP fd with conn_fd := fd }
      master_set := Function.update s.master_set fd true }
    if (s.requestP fd).id = 0 then send fd .prompt
    pure (some s)
  | .acceptFailed again => pure (if again then some s else none)
  | .read i chunk =>
    match handle_read chunk with
    | .failed => pure (some s)
    | .eof => do
      let s ← disconnect i ((s.requestP i).id ≠ 0) s
      pure (some s)
    | .exit => pure none
    | .line buf => do
      let r := { s.requestP i with buf := buf, buf_len := buf.length }
      let s ← line kind i { s with requestP := Function.update s.requestP i r }
      pure (some s)

end Calls

/-! ## The processes -/

/-- The locks that a process holds, and its offset in `bookingRecord`. -/
structure Held where
  locks : ℤ → Option LockType
  offset : ℤ

/-- `fcntl` to lock, with its answer. -/
def Held.lock (l : Flock) (granted : Bool) (h : Held) : Held :=
  if granted then
    { h with locks := fun b => if l.covers b then some l.l_type else h.locks b }
  else h

/-- `fcntl` to unlock. -/
def Held.unlock (l_start l_len : ℤ) (h : Held) : Held :=
  { h with locks := fun b => if l_start ≤ b ∧ b < l_start + l_len then none else h.locks b }

/-- What a call leaves of them. -/
def Held.next : (c : Call) → c.Answer → Held → Held
  | .setlk l, granted, h => h.lock l granted
  | .unlock l_start l_len, _, h => h.unlock l_start l_len
  | .lseek offset, _, h => { h with offset := offset }
  | .read, _, h => { h with offset := h.offset + sizeofRecord }
  | .write data, _, h => { h with offset := h.offset + data.length }
  | .send _ _, _, h => h

/-- The bytes of the file after a call. -/
def nextContent (h : Held) (content : ℤ → UInt8) : Call → ℤ → UInt8
  | .write data => writeAt content h.offset data
  | _ => content

/-- What has been sent after a call. -/
def nextSent (sent : List (ℕ × Reply)) : Call → List (ℕ × Reply)
  | .send i r => sent ++ [(i, r)]
  | _ => sent

/-- Where a server is : at `select`, at the descriptor `i` with those that `select` reported in
`working_set`, or in the middle of what it does with this descriptor. -/
inductive Control
  | select (s : Server)
  | scan (s : Server) (working_set : ℕ → Bool) (i : ℕ)
  | busy (P : Calls (Option Server)) (working_set : ℕ → Bool) (i : ℕ)
  | exited

/-- A process, with what it has written to its connections. -/
structure Process where
  control : Control
  held : Held
  sent : List (ℕ × Reply)

/-- The servers `ι`, and the bytes of `bookingRecord`. -/
structure Machine (ι : Type*) where
  process : ι → Process
  content : ℤ → UInt8

/-- What a process does next : `select` returns, a descriptor is passed over or is handled, or
a system call is made. -/
inductive Act
  | select (ready : ℕ → Bool)
  | skip
  | event (e : Event)
  | call

/-- `accept` gives a descriptor that is not in use, `read` at most `512` bytes. -/
def Event.Fits (s : Server) (i : ℕ) : Event → Prop
  | .accept fd => i = s.listen_fd ∧ fd < s.maxfd ∧ fd ≠ s.listen_fd ∧ s.master_set fd = false
  | .acceptFailed _ => i = s.listen_fd
  | .read j chunk => j = i ∧ i ≠ s.listen_fd ∧ (chunk.getD []).length ≤ 512

instance (s : Server) (i : ℕ) : (e : Event) → Decidable (e.Fits s i)
  | .accept _ => by unfold Event.Fits; infer_instance
  | .acceptFailed _ => by unfold Event.Fits; infer_instance
  | .read _ _ => by unfold Event.Fits; infer_instance

namespace Process

/-- The process after a call. -/
def next (c : Call) (a : c.Answer) (x : Process) : Process :=
  { x with
    held := x.held.next c a
    sent := nextSent x.sent c }

/-- The process goes on with a program, and when it has returned with the next descriptor. A
process that exits loses its locks. -/
def resume (working_set : ℕ → Bool) (i : ℕ) (x : Process) : Calls (Option Server) → Process
  | .ret (some s) => { x with control := .scan s working_set (i + 1) }
  | .ret none => { x with control := .exited, held := ⟨fun _ => none, x.held.offset⟩ }
  | .call c k => { x with control := .busy (.call c k) working_set i }

/-- The call that a process makes. -/
def call (a : Act) (x : Process) : Option Call :=
  match x.control, a with
  | .busy (.call c _) _ _, .call => some c
  | _, _ => none

/-- The bytes of `bookingRecord` after a step. -/
def contentAfter (a : Act) (content : ℤ → UInt8) (x : Process) : ℤ → UInt8 :=
  match x.call a with
  | some c => nextContent x.held content c
  | none => content

/-- A process takes its next step, with these answers of the system. -/
def step (kind : Kind) (answer : (c : Call) → c.Answer) (a : Act) (x : Process) :
    Option Process :=
  match x.control, a with
  | .select s, .select ready =>
    if ∀ i < s.maxfd, ready i = true → s.master_set i = true then
      some { x with control := .scan s ready 0 }
    else none
  | .scan s working_set i, .skip =>
    if s.maxfd ≤ i then some { x with control := .select s }
    else if working_set i then none
    else some { x with control := .scan s working_set (i + 1) }
  | .scan s working_set i, .event e =>
    if i < s.maxfd ∧ working_set i ∧ e.Fits s i then
      some (x.resume working_set i (Calls.handler kind e s))
    else none
  | .busy (.call c k) working_set i, .call =>
    some ((x.next c (answer c)).resume working_set i (k (answer c)))
  | _, _ => none

end Process

namespace Machine

variable {ι : Type*} [Fintype ι] [DecidableEq ι]

/-- Whether `fcntl` grants a lock to the process `p`. -/
def grants (m : Machine ι) (p : ι) (l : Flock) : Bool :=
  decide (∀ q, q ≠ p → ∀ j < l.l_len.toNat, ∀ t ∈ (m.process q).held.locks (l.l_start + j),
    l.l_type.conflicts t = false)

/-- The answer to a call. -/
def answer (m : Machine ι) (p : ι) : (c : Call) → c.Answer
  | .setlk l => m.grants p l
  | .unlock _ _ => ()
  | .lseek _ => ()
  | .read => readAt m.content (m.process p).held.offset sizeofRecord.toNat
  | .write _ => ()
  | .send _ _ => ()

/-- The process `e.1` takes the step `e.2`. -/
def step (kind : ι → Kind) (e : ι × Act) (m : Machine ι) : Option (Machine ι) :=
  ((m.process e.1).step (kind e.1) (m.answer e.1) e.2).map fun x =>
    { process := Function.update m.process e.1 x
      content := (m.process e.1).contentAfter e.2 m.content }

end Machine

/-- The servers `ι` on a file with these bytes. -/
def machines {ι : Type*} [Fintype ι] [DecidableEq ι] (kind : ι → Kind) (content : ℤ → UInt8) :
    System (Machine ι) (ι × Act) where
  init m := (∀ p, ∃ (listen_fd maxfd : ℕ) (input : Bytes), input.length = sizeofInput ∧
      m.process p = ⟨.select (boot listen_fd maxfd input), ⟨fun _ => none, 0⟩, []⟩) ∧
    m.content = content
  step := Machine.step kind

end SP2022.Booking
