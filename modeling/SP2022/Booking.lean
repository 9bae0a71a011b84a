import Mathlib.Data.Fin.VecNotation
import Mathlib.Data.Fintype.Pi
import Mathlib.Logic.Function.Basic
import SP2022.Libc

/-!
# The booking server

`server.c`, compiled as `read_server` or `write_server` (`Kind`). A server handles one
event at a time : a new connection, or what `read` returns on a connection that `select`
reported. `Server` holds the counters `arr`, the table `requestP`, the set of open
descriptors, the bytes of `input` and the record locks that the process owns.
`handle` runs the loop body of `main` on one event. `bookingRecord` is an argument, with
one entry for each `sizeof(record)` bytes, and so is the answer of `fcntl` to an attempt
to lock (`setlk`); a lock is taken or left byte by byte.

`handle` returns the messages it writes to the client (`Reply`), and for a successful
command the three numbers it added.
-/

namespace SP2022.Booking

/-- `READ_SERVER` or `WRITE_SERVER`. -/
inductive Kind
  | read
  | write
  deriving DecidableEq, Repr

/-- `F_RDLCK` or `F_WRLCK`. -/
inductive LockType
  | rdlck
  | wrlck
  deriving DecidableEq, Repr

/-- A lock conflicts with another process's if one of them is a write lock. -/
def LockType.conflicts (a b : LockType) : Bool :=
  a = .wrlck || b = .wrlck

/-- `struct flock`, from the start of the file. -/
structure Flock where
  l_type : LockType
  l_start : ℤ
  l_len : ℤ
  deriving DecidableEq, Repr

/-- The bytes a lock covers. -/
def Flock.covers (l : Flock) (b : ℤ) : Bool :=
  l.l_start ≤ b && b < l.l_start + l.l_len

/-- `OBJ_NUM`. -/
abbrev OBJ_NUM : ℕ :=
  3

/-- `sizeof(input)`. -/
abbrev sizeofInput : ℕ :=
  OBJ_NUM * 8

/-- `ERROR_NUM`. -/
def ERROR_NUM : ℤ :=
  -100000

/-- The names of the objects. -/
def obj_names : Fin OBJ_NUM → String :=
  !["Food", "Concert", "Electronics"]

/-- The counts of one user, or what a command adds to them. -/
abbrev Counts :=
  Fin OBJ_NUM → ℤ

/-- `record`. -/
structure Record where
  id : ℤ
  bookingState : Counts
  deriving DecidableEq

/-- `sizeof(record)`. -/
def sizeofRecord : ℤ :=
  16

/-- `bookingRecord`, by the number of a record. -/
abbrev File :=
  ℤ → Record

/-- `request`. -/
structure Request where
  conn_fd : ℤ
  buf : Bytes
  buf_len : ℕ
  id : ℤ
  deriving DecidableEq, Repr

/-- A server process. `listen_fd` and `maxfd` do not change. -/
structure Server where
  listen_fd : ℕ
  maxfd : ℕ
  arr : ℤ → ℤ
  requestP : ℕ → Request
  master_set : ℕ → Bool
  input : Bytes
  locks : ℤ → Option LockType

/-! ## Messages -/

/-- What a server writes to a client. -/
inductive Reply
  | prompt
  | failed
  | locked
  | booked (obj : Fin OBJ_NUM) (n : ℤ)
  | leave
  | modify
  | negative
  | exceeds
  | updated (id : ℤ)
  deriving DecidableEq, Repr

/-- The text of a message. -/
def Reply.text : Reply → String
  | .prompt => "Please enter your id (to check your booking state):\n"
  | .failed => "[Error] Operation failed. Please try again.\n"
  | .locked => "Locked.\n"
  | .booked obj n => obj_names obj ++ ": " ++ toString n ++ " booked\n"
  | .leave => "\n(Type Exit to leave...)\n"
  | .modify => "\nPlease input your booking command. (Food, Concert, Electronics. " ++
      "Positive/negative value increases/decreases the booking amount.):\n"
  | .negative => "[Error] Sorry, but you cannot book less than 0 items.\n"
  | .exceeds => "[Error] Sorry, but you cannot book more than 15 items in total.\n"
  | .updated id => "Bookings for user " ++ toString id ++
      " are updated, the new booking state is:\n"

/-- One line for each object. -/
def bookedLines (c : Counts) : List Reply :=
  (List.finRange OBJ_NUM).map fun j => .booked j (c j)

/-! ## Reading a line -/

/-- What `handle_read` does : it returns `1` with the line in `buf`, `0`, or `-1`, or it
ends the process. -/
inductive ReadResult
  | line (s : Bytes)
  | eof
  | failed
  | exit
  deriving DecidableEq, Repr

/-- `handle_read`. The argument is what `read` stores in a buffer of zeros, `none` if it
fails. A buffer that `read` fills to the last byte is taken to end there. -/
def handle_read : Option Bytes → ReadResult
  | none => .failed
  | some [] => .eof
  | some chunk =>
    let buf := cstring chunk
    match strstr [13, 10] buf with
    | some p => .line (buf.take p)
    | none =>
      match strstr [10] buf with
      | some p => .line (buf.take p)
      | none => if buf.take 2 = [255, 244] then .eof else .exit

/-- The loop of `convert`. It gives up at a byte that is no digit. -/
def convertLoop : ℤ → Bytes → Option ℤ
  | res, [] => some res
  | res, c :: s =>
    if c < 48 ∨ 57 < c then none else convertLoop (int32 (int32 (res * 10) + (c.toNat - 48))) s

/-- `convert`. -/
def convert (s : Bytes) : ℤ :=
  let (negative, s) : ℤ × Bytes := match s with
    | 45 :: s => (-1, s)
    | s => (1, s)
  match convertLoop 0 s with
  | none => ERROR_NUM
  | some res => int32 (negative * res)

/-! ## Slots of the request table, and locks -/

namespace Server

variable (s : Server)

/-- `init_request`. -/
def init_request (r : Request) : Request :=
  { r with conn_fd := -1, buf_len := 0, id := 0 }

/-- A server before its first event. `input` is not initialised. -/
def boot (listen_fd maxfd : ℕ) (input : Bytes) : Server where
  listen_fd := listen_fd
  maxfd := maxfd
  arr _ := 0
  requestP _ := init_request ⟨0, [], 0, 0⟩
  master_set i := i = listen_fd
  input := input
  locks _ := none

/-- `fcntl(file_fd, F_SETLK, &lock)` to lock, with `errno` before and after. A lock that is
granted replaces the process's own on these bytes. -/
def setLock (setlk : Flock → Bool) (l : Flock) (errno : ℤ) : Server × ℤ :=
  if setlk l then
    ({ s with locks := fun b => if l.covers b then some l.l_type else s.locks b }, errno)
  else (s, 11)

/-- `fcntl(file_fd, F_SETLK, &lock)` to unlock. -/
def unlock (l_start l_len : ℤ) : Server :=
  { s with locks := fun b => if l_start ≤ b ∧ b < l_start + l_len then none else s.locks b }

/-- The first part of `disconnect` : the count of an id goes down, and with the last
connection the lock is given back. -/
def releaseId (id : ℤ) : Server :=
  let s := { s with arr := Function.update s.arr id (s.arr id - 1) }
  if s.arr id = 0 then s.unlock (sizeofRecord * id) sizeofRecord else s

/-- The rest of `disconnect` : the connection is closed and its slot reset. -/
def closeSlot (i : ℕ) : Server :=
  { s with
    master_set := Function.update s.master_set i false
    requestP := Function.update s.requestP i (init_request (s.requestP i)) }

/-- `disconnect`. -/
def disconnect (i : ℕ) (lock : Bool) : Server :=
  let id := (s.requestP i).id - 902000 - 1
  let s := if lock then s.releaseId id else s
  s.closeSlot i

/-- The type of the lock that `initialize` takes. -/
def lockType : Kind → LockType
  | .read => .rdlck
  | .write => .wrlck

/-- `errno` before `fcntl` is called. A write server that has a client with this id
refuses another whatever `fcntl` says. -/
def preload (kind : Kind) (id : ℤ) : ℤ :=
  match kind with
  | .read => 0
  | .write => if s.arr id = 1 then 1 else 0

/-- `initialize` : the server after it, what it writes, and whether it returns `0`. -/
def initializeClient (kind : Kind) (setlk : Flock → Bool) (file : File) (i : ℕ) :
    Server × List Reply × Bool :=
  let id := convert (s.requestP i).buf
  if id < 902001 ∨ 902020 < id then (s.disconnect i false, [.failed], false)
  else
    let s := { s with requestP := Function.update s.requestP i { s.requestP i with id := id } }
    let id := id - 902000 - 1
    let (s, errno) :=
      s.setLock setlk ⟨lockType kind, sizeofRecord * id, sizeofRecord⟩ (s.preload kind id)
    if errno ≠ 0 then (s.disconnect i false, [.locked], false)
    else
      let s := { s with arr := Function.update s.arr id (s.arr id + 1) }
      (s, bookedLines (file id).bookingState, true)

end Server

/-! ## The command of a write server -/

/-- `sscanf` stores a word and its `NUL` at an address, over what was there. -/
def store (mem : Bytes) (addr : ℕ) (word : Bytes) : Bytes :=
  mem.mapIdx fun i b =>
    if addr ≤ i ∧ i ≤ addr + word.length then (word ++ [0]).getD (i - addr) b else b

/-- `sscanf(buf, "%s %s %s", input[0], input[1], input[2])`, with `input` as the bytes
from `input[0]` on. A slot without a word keeps what it holds. -/
def scan (buf input : Bytes) : Bytes :=
  ((words buf).take OBJ_NUM).zipIdx.foldl (fun mem w => store mem (8 * w.2) w.1) input

/-- The string in `input[j]`. It may go on in the next slots. -/
def slot (input : Bytes) (j : Fin OBJ_NUM) : Bytes :=
  cstring (input.drop (8 * j))

/-- The first loop : the parameters, unless a slot is not a number. -/
def params (input : Bytes) : Option Counts :=
  if ∀ j, convert (slot input j) ≠ ERROR_NUM then some fun j => convert (slot input j) else none

/-- The second loop, over the objects `js` with `sum` so far. -/
def newCounts (param old : Counts) : List (Fin OBJ_NUM) → ℤ → Except Reply ℤ
  | [], sum => .ok sum
  | j :: js, sum =>
    if int32 (param j + old j) < 0 then .error .negative
    else newCounts param old js (int32 (sum + int32 (param j + old j)))

/-- The checks on the new counts. -/
def check (param old : Counts) : Except Reply Counts :=
  match newCounts param old (List.finRange OBJ_NUM) 0 with
  | .error r => .error r
  | .ok sum => if 15 < sum then .error .exceeds else .ok fun j => int32 (param j + old j)

/-! ## The loop body of `main` -/

/-- What handling one event leaves. `server` is `none` if the process has exited, and
`applied` holds the record and the parameters of a command that succeeded. -/
structure Outcome where
  server : Option Server
  file : File
  replies : List Reply
  applied : List (ℤ × Counts)

/-- A command line. -/
def command (file : File) (i : ℕ) (s : Server) : Outcome :=
  let s := { s with input := scan (s.requestP i).buf s.input }
  match params s.input with
  | none => ⟨s.disconnect i true, file, [.failed], []⟩
  | some param =>
    let id := (s.requestP i).id - 902000 - 1
    let target := file id
    match check param target.bookingState with
    | .error r => ⟨s.disconnect i true, file, [r], []⟩
    | .ok new =>
      ⟨s.disconnect i true, Function.update file id { target with bookingState := new },
        .updated (s.requestP i).id :: bookedLines new, [(id, param)]⟩

/-- A line of a client that has not been initialized. `last` is what the server writes
after the record. -/
def login (kind : Kind) (setlk : Flock → Bool) (file : File) (i : ℕ) (last : Reply)
    (s : Server) : Outcome :=
  let (s, replies, ok) := s.initializeClient kind setlk file i
  ⟨s, file, if ok then replies ++ [last] else replies, []⟩

/-- `"Exit"`. -/
def exitLine : Bytes :=
  [69, 120, 105, 116]

/-- A line that `handle_read` has stored in the request's `buf`. -/
def line (kind : Kind) (setlk : Flock → Bool) (file : File) (i : ℕ) (s : Server) : Outcome :=
  match kind with
  | .read =>
    if (s.requestP i).id = 0 then login .read setlk file i .leave s
    else if (s.requestP i).buf ≠ exitLine then ⟨s, file, [], []⟩
    else ⟨s.disconnect i true, file, [], []⟩
  | .write =>
    if (s.requestP i).id = 0 then login .write setlk file i .modify s
    else command file i s

/-- What `select` reports : a new connection with its descriptor, or none because
`accept` fails, which ends the process unless it says to try again; and a connection
with what `read` gives. -/
inductive Event
  | accept (conn_fd : ℕ)
  | acceptFailed (again : Bool)
  | read (i : ℕ) (chunk : Option Bytes)
  deriving DecidableEq, Repr

/-- A connection is open from `accept` to `disconnect`. -/
def Server.isOpen (s : Server) (i : ℕ) : Bool :=
  i < s.maxfd && i ≠ s.listen_fd && s.master_set i

/-- One event. `accept` returns a descriptor that is not in use, `read` at most the 512
bytes it is asked for, and `select` reports open connections only. -/
def handle (kind : Kind) (setlk : Flock → Bool) (file : File) (e : Event) (s : Server) :
    Option Outcome :=
  match e with
  | .accept fd =>
    if fd < s.maxfd ∧ fd ≠ s.listen_fd ∧ s.master_set fd = false then
      let s : Server := { s with
        requestP := Function.update s.requestP fd { s.requestP fd with conn_fd := fd }
        master_set := Function.update s.master_set fd true }
      some ⟨s, file, if (s.requestP fd).id = 0 then [.prompt] else [], []⟩
    else none
  | .acceptFailed again => some ⟨if again then some s else none, file, [], []⟩
  | .read i chunk =>
    if s.isOpen i ∧ (chunk.getD []).length ≤ 512 then
      match handle_read chunk with
      | .failed => some ⟨s, file, [], []⟩
      | .eof => some ⟨s.disconnect i ((s.requestP i).id ≠ 0), file, [], []⟩
      | .exit => some ⟨none, file, [], []⟩
      | .line buf =>
        let r := { s.requestP i with buf := buf, buf_len := buf.length }
        some (line kind setlk file i { s with requestP := Function.update s.requestP i r })
    else none

end SP2022.Booking
