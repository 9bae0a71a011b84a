import SP2022.Libc
import SP2022.Runs
import SP2022.SchedulerInvariant

/-!
# The thread functions, and the running program

`threads.c` keeps all state of a thread behind `RUNNING`. A thread function is read here
as what it does from one resumption to its next `thread_yield`, `async_read` or
`thread_exit` (`Turn`) : `resume` picks the code by the saved environment and works on
the variables of the control block alone. `int` is the rounding of the C `int` type, so
the same text is read exactly (`id`) or with wrap-around.

The program is the scheduler together with the FIFOs and the lines printed (`Machine`).
Its events are a record written to a FIFO, a turn of the running thread with the signal
that its `thread_yield` lets in, if any, and the return of the blocking poll.
-/

namespace SP2022.ThreadLib

/-- Five bytes, as the writer of a FIFO sends them and `async_read(5)` reads them. -/
abbrev Record :=
  Vector UInt8 5

/-- `read(fd, buf, count)` on a non-blocking FIFO : the bytes left in it, and `buf`. An
empty FIFO leaves `buf` as it is. -/
def readFifo (count : ℕ) (fifo buf : List UInt8) : List UInt8 × List UInt8 :=
  (fifo.drop count, fifo.take count ++ buf.drop (fifo.take count).length)

/-- The macro that ends a turn. -/
inductive Jump
  | yield
  | asyncRead
  | exit
  deriving DecidableEq, Repr

/-- A turn : the thread's variables after it, the number it prints beside its id, and
the macro it ends in. -/
structure Turn where
  vars : Vars
  printed : Option ℤ
  jump : Jump
  deriving DecidableEq, Repr

/-- The end of the loop body in all three functions : `thread_exit` if `stop` holds and
`thread_yield` otherwise. -/
def Turn.finish (v : Vars) (printed : ℤ) (stop : Bool) : Turn :=
  if stop then ⟨v, some printed, .exit⟩
  else ⟨{ v with environment := ⟨v.environment.func, .yield⟩ }, some printed, .yield⟩

section Functions

variable (int : ℤ → ℤ)

/-- `fibonacci`. -/
def fibonacci (v : Vars) : Turn :=
  let v := match v.environment.point with
    | .setup => { v with i := 1 }
    | _ => { v with i := int (v.i + 1) }
  let v := if v.i ≤ 2 then { v with x := 1, y := 1 } else { v with y := int (v.x + v.y), x := v.y }
  .finish v v.y (v.i = v.arg)

/-- `collatz`. -/
def collatz (v : Vars) : Turn :=
  let v := match v.environment.point with
    | .setup => { v with i := v.arg }
    | _ => v
  let v :=
    if v.i.tmod 2 = 0 then { v with i := v.i.tdiv 2 }
    else { v with i := int (int (v.i * 3) + 1) }
  .finish v v.i (v.i = 1)

/-- `max_subarray`. From `thread_setup` and `thread_yield` it goes to `async_read(5)`; from
there, with the five bytes in `buf`, to the end of the loop body. -/
def max_subarray (v : Vars) : Turn :=
  match v.environment.point with
  | .setup => ⟨{ v with i := 1, environment := ⟨.max_subarray, .read⟩ }, none, .asyncRead⟩
  | .yield =>
    ⟨{ v with i := int (v.i + 1), environment := ⟨.max_subarray, .read⟩ }, none, .asyncRead⟩
  | .read =>
    let num := int (atoi v.buf)
    let v := { v with y := if num > int (v.y + num) then num else int (v.y + num) }
    let v := { v with x := if v.x > v.y then v.x else v.y }
    .finish v v.x (v.i = v.arg)

/-- The code a saved environment belongs to. -/
def body (v : Vars) : Turn :=
  match v.environment.func with
  | .fibonacci => fibonacci int v
  | .collatz => collatz int v
  | .max_subarray => max_subarray int v

/-- What a thread does when it is resumed, and the FIFO it leaves. A thread resumed in
`async_read` reads first. -/
def resume (fifo : List UInt8) (v : Vars) : Turn × List UInt8 :=
  let input := if v.environment.point = .read then readFifo 5 fifo v.buf else (fifo, v.buf)
  (body int { v with buf := input.2 }, input.1)

end Functions

/-! ## The program -/

/-- The two signals that a `thread_yield` lets in. -/
inductive Signal
  | SIGTSTP
  | SIGALRM
  deriving DecidableEq, Repr

/-- A line of the output. -/
inductive Line
  | thread (id value : ℤ)
  | caught (signo : Signal)
  deriving DecidableEq, Repr

/-- Whether a thread runs, `scheduler` is in its blocking poll, or it has returned. -/
inductive Mode
  | running
  | blocked
  | returned
  deriving DecidableEq, Repr

/-- The running program. `resumed` lists the values of `i`, `x` and `y` at every
resumption of a thread, including the ones after a `thread_yield` with no signal. -/
structure Machine where
  mode : Mode
  sched : Sched
  fifo : Ptr → List UInt8
  delivered : Ptr → ℕ
  out : List Line
  resumed : List (Ptr × ℤ × ℤ × ℤ)

/-- Events of the program. -/
inductive Event
  | deliver (t : Ptr)
  | turn (signo : Option Signal) (rev : ℕ → ℕ)
  | wake (rev : ℕ → ℕ)

namespace Machine

/-- A poll reports `POLLIN` for FIFOs that hold bytes, and for no other. -/
def Readable (rev : ℕ → ℕ) (M : Machine) : Prop :=
  ∀ i < M.sched.nfds, rev i ≠ 0 → M.fifo (i + 1) ≠ []

instance (rev : ℕ → ℕ) (M : Machine) : Decidable (M.Readable rev) :=
  inferInstanceAs (Decidable (∀ i < M.sched.nfds, _))

/-- The mode in which `scheduler` leaves the switch. -/
def modeOf (s : Sched) : Mode :=
  if s.rq_size = 0 then if s.wq_size = 0 then .returned else .blocked else .running

/-- A jump to `sched_buf`. -/
def enter (src : Src) (rev : ℕ → ℕ) (M : Machine) : Option Machine :=
  if PollResult [0, POLLIN] rev M.sched ∧ M.Readable rev then
    some { M with
      mode := modeOf (schedulerSwitch src rev M.sched)
      sched := schedulerSwitch src rev M.sched }
  else none

/-- The next record of a thread is written to its FIFO. -/
def deliver (R : Ptr → ℕ → Record) (t : Ptr) (M : Machine) : Machine :=
  { M with
    fifo := Function.update M.fifo t (M.fifo t ++ (R t (M.delivered t)).toList)
    delivered := Function.update M.delivered t (M.delivered t + 1) }

variable (int : ℤ → ℤ)

/-- The running thread's next turn, up to the macro that ends it. -/
def running (M : Machine) : Turn × List UInt8 :=
  resume int (M.fifo M.sched.RUNNING) (M.sched.tcb M.sched.RUNNING).toVars

/-- The program after the turn's statements and before its macro. -/
def afterTurn (M : Machine) : Machine :=
  let t := M.sched.RUNNING
  let v := M.sched.tcb t
  let turn := M.running int
  { M with
    sched := { M.sched with
      tcb := Function.update M.sched.tcb t { v with toVars := turn.1.vars } }
    fifo := Function.update M.fifo t turn.2
    out := M.out ++ turn.1.printed.toList.map fun x => .thread turn.1.vars.id x
    resumed := M.resumed ++ [(t, v.i, v.x, v.y)] }

/-- A turn with the macro that ends it. A signal that is pending at `thread_yield` is
caught there; with none pending the thread goes on. -/
def turn (signo : Option Signal) (rev : ℕ → ℕ) (M : Machine) : Option Machine :=
  if M.mode = .running then
    let M' := M.afterTurn int
    match (M.running int).1.jump, signo with
    | .yield, none => some M'
    | .yield, some signo => enter .signal rev { M' with out := M'.out ++ [.caught signo] }
    | .asyncRead, _ => enter .asyncRead rev M'
    | .exit, _ => enter .exit rev M'
  else none

/-- The blocking poll returns. -/
def wake (rev : ℕ → ℕ) (M : Machine) : Option Machine :=
  if M.mode = .blocked ∧ BlockingResult [0, POLLIN] rev M.sched ∧ M.Readable rev then
    some { M with mode := .running, sched := pollBlocking rev M.sched }
  else none

/-- One event. -/
def step (R : Ptr → ℕ → Record) (e : Event) (M : Machine) : Option Machine :=
  match e with
  | .deliver t => some (M.deliver R t)
  | .turn signo rev => M.turn int signo rev
  | .wake rev => M.wake rev

/-- The program with the threads `ps`, at its first jump to a thread. -/
def start (mem : Ptr → Tcb) (ps : List Spec) : Machine where
  mode := .running
  sched := schedulerStart (createAll mem ps)
  fifo _ := []
  delivered _ := 0
  out := []
  resumed := []

/-- The lines printed with an id. -/
def lines (id : ℤ) (M : Machine) : List ℤ :=
  M.out.filterMap fun
    | .thread id' x => if id' = id then some x else none
    | .caught _ => none

/-- `i`, `x` and `y` at the resumptions of a thread, in order. -/
def resumptions (t : Ptr) (M : Machine) : List (ℤ × ℤ × ℤ) :=
  M.resumed.filterMap fun r => if r.1 = t then some r.2 else none

end Machine

/-- The program as a transition system. `R` holds the records sent to each thread's
FIFO. -/
def program (int : ℤ → ℤ) (mem : Ptr → Tcb) (ps : List Spec) (R : Ptr → ℕ → Record) :
    System Machine Event where
  init M := M = Machine.start mem ps
  step := Machine.step int R

/-- `init_threads` : the threads that are created for the three arguments. `mem` and `fd`
are what `malloc` and `open` give each of them. -/
def init_threads (mem : Func → Tcb) (fd : Func → ℤ) (fib_arg col_arg sub_arg : ℤ) : List Spec :=
  (if 0 ≤ fib_arg then [⟨.fibonacci, 0, fib_arg, mem .fibonacci, fd .fibonacci⟩] else []) ++
    (if 0 ≤ col_arg then [⟨.collatz, 1, col_arg, mem .collatz, fd .collatz⟩] else []) ++
    (if 0 ≤ sub_arg then [⟨.max_subarray, 2, sub_arg, mem .max_subarray, fd .max_subarray⟩]
      else [])

/-- `init_threads` gives its threads distinct ids. -/
theorem init_threads_nodup (mem : Func → Tcb) (fd : Func → ℤ) (fib_arg col_arg sub_arg : ℤ) :
    ((init_threads mem fd fib_arg col_arg sub_arg).map Spec.id).Nodup := by
  unfold init_threads
  split_ifs <;> simp

end SP2022.ThreadLib
