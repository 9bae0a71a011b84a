import SP2022.ArrayQueue

/-!
# The thread library's scheduler

`scheduler.c` and the macros of `threadtools.h`. A pointer is the number of the
`malloc` call that returned it, `0` is `NULL`, so the thread of the `k`-th
`thread_setup` is `k` and its `fd_index` is `k - 1`. The two queues are arrays
indexed by `int`, with their sizes beside them; a slot past the size keeps its
stale pointer, and `RUNNING` reads slot `rq_current` whatever the size is.

`scheduler` is entered through `sched_buf` with the value the thread jumped with
(`Src`). It polls, moves the woken threads to the ready queue and takes the running
thread off if it waits or has exited (`schedulerSwitch`). Then it jumps to
`RUNNING -> environment`, after a blocking poll if no thread is ready, or returns if no
thread waits either.
-/

namespace SP2022.ThreadLib

/-- `poll` event bits. -/
def POLLIN : ℕ :=
  1

/-- The writing end of the FIFO is closed. -/
def POLLHUP : ℕ :=
  16

/-- A pointer to a `struct tcb`. -/
abbrev Ptr :=
  ℕ

/-- The three thread functions of `threads.c`. -/
inductive Func
  | fibonacci
  | collatz
  | max_subarray
  deriving DecidableEq, Repr

/-- The `sigsetjmp` that saved a thread's environment. -/
inductive Point
  | setup
  | yield
  | read
  deriving DecidableEq, Repr

/-- A saved environment : where in which function the thread goes on. -/
structure Environment where
  func : Func
  point : Point
  deriving DecidableEq, Repr

/-- What a thread reads and writes through `RUNNING` in its own code. -/
structure Vars where
  id : ℤ
  environment : Environment
  arg : ℤ
  buf : List UInt8
  i : ℤ
  x : ℤ
  y : ℤ
  deriving DecidableEq, Repr

/-- `struct tcb`. -/
structure Tcb extends Vars where
  fd : ℤ
  fd_index : ℕ
  deriving DecidableEq, Repr

/-- `struct pollfd`. -/
structure Pollfd where
  fd : ℤ
  events : ℕ
  revents : ℕ
  deriving DecidableEq, Repr

/-- The library's globals and the control blocks they point to. `freed` marks the
blocks given back by `free`. -/
structure Sched where
  tcb : Ptr → Tcb
  freed : Ptr → Bool
  ready_queue : ℤ → Ptr
  rq_size : ℤ
  rq_current : ℤ
  waiting_queue : ℤ → Ptr
  wq_size : ℤ
  fdarray : ℕ → Pollfd
  nfds : ℕ

namespace Sched

/-- `RUNNING`. -/
def RUNNING (s : Sched) : Ptr :=
  s.ready_queue s.rq_current

/-- `ready_queue[0..rq_size)`. -/
def ready (s : Sched) : List Ptr :=
  queue s.ready_queue s.rq_size

/-- `waiting_queue[0..wq_size)`. -/
def waiting (s : Sched) : List Ptr :=
  queue s.waiting_queue s.wq_size

/-- The threads that `thread_setup` has created. -/
def created (s : Sched) : List Ptr :=
  List.range' 1 s.nfds

end Sched

/-! ## Creating threads -/

/-- The arguments of one `thread_create`, with what the system supplies : the memory
`malloc` hands out and the descriptor `open` returns. -/
structure Spec where
  func : Func
  id : ℤ
  arg : ℤ
  mem : Tcb
  fd : ℤ
  deriving DecidableEq, Repr

/-- `thread_setup`. The first call of the thread function returns from it. -/
def thread_setup (p : Spec) (s : Sched) : Sched :=
  let t := s.nfds + 1
  { s with
    tcb := Function.update s.tcb t
      { p.mem with
        id := p.id
        environment := ⟨p.func, .setup⟩
        arg := p.arg
        x := 0
        y := 0
        fd := p.fd
        fd_index := s.nfds }
    freed := Function.update s.freed t false
    ready_queue := Function.update s.ready_queue s.rq_size t
    rq_size := s.rq_size + 1
    fdarray := Function.update s.fdarray s.nfds
      { s.fdarray s.nfds with fd := -1, events := POLLIN }
    nfds := s.nfds + 1 }

/-- The zero-initialised globals. `mem` is what the memory of the heap holds. -/
def globals (mem : Ptr → Tcb) : Sched where
  tcb := mem
  freed _ := false
  ready_queue _ := 0
  rq_size := 0
  rq_current := 0
  waiting_queue _ := 0
  wq_size := 0
  fdarray _ := ⟨0, 0, 0⟩
  nfds := 0

/-- All threads created, in order. -/
def createAll (mem : Ptr → Tcb) (ps : List Spec) : Sched :=
  ps.foldl (fun s p => thread_setup p s) (globals mem)

/-! ## `poll`, `move_queue`, `fill` -/

/-- `poll` stores the events it reports in every entry. -/
def poll (rev : ℕ → ℕ) (s : Sched) : Sched :=
  { s with
    fdarray := fun i =>
      if i < s.nfds then { s.fdarray i with revents := rev i } else s.fdarray i }

/-- The value `poll` returns : the number of entries with an event. -/
def pollCount (rev : ℕ → ℕ) (nfds : ℕ) : ℕ :=
  (List.range nfds).countP fun i => rev i ≠ 0

/-- The search of `move_queue` for the waiting thread of entry `i`, from slot `j` on,
over the `n` slots that are left. The first hit is moved and ends the search. -/
def moveWaiter (i : ℕ) : ℕ → ℤ → Sched → Sched
  | 0, _, s => s
  | n + 1, j, s =>
    if (s.tcb (s.waiting_queue j)).fd_index = i then
      { s with
        ready_queue := Function.update s.ready_queue s.rq_size (s.waiting_queue j)
        rq_size := s.rq_size + 1
        waiting_queue := shiftDown s.waiting_queue j s.wq_size
        wq_size := s.wq_size - 1 }
    else
      moveWaiter i n (j + 1) s

/-- One turn of the outer loop of `move_queue`. -/
def moveEntry (i : ℕ) (s : Sched) : Sched :=
  if (s.fdarray i).revents = POLLIN then
    let s := moveWaiter i s.wq_size.toNat 0 s
    { s with
      fdarray := Function.update s.fdarray i { s.fdarray i with fd := -1, revents := 0 } }
  else
    s

/-- `move_queue`. -/
def move_queue (s : Sched) : Sched :=
  (List.range s.nfds).foldl (fun s i => moveEntry i s) s

/-- `fill` : the last ready thread takes the slot of the running one. -/
def fill (s : Sched) : Sched :=
  let s := { s with
    ready_queue := Function.update s.ready_queue s.rq_current (s.ready_queue (s.rq_size - 1)) }
  let s := { s with rq_size := s.rq_size - 1 }
  { s with rq_current := if s.rq_current = s.rq_size then 0 else s.rq_current }

/-! ## `scheduler` -/

/-- What `sigsetjmp(sched_buf, 1)` returns when it is jumped to : `1` from the signal
handler, `2` from `async_read`, `3` from `thread_exit`. -/
inductive Src
  | signal
  | asyncRead
  | exit
  deriving DecidableEq, Repr

/-- The first poll : `if (poll(fdarray, nfds, 0)) move_queue();`. -/
def pollReady (rev : ℕ → ℕ) (s : Sched) : Sched :=
  if pollCount rev s.nfds ≠ 0 then move_queue (poll rev s) else poll rev s

/-- The running thread goes to the waiting queue and its descriptor to `fdarray`. -/
def park (s : Sched) : Sched :=
  let t := s.RUNNING
  let i := (s.tcb t).fd_index
  { s with
    fdarray := Function.update s.fdarray i { s.fdarray i with fd := (s.tcb t).fd }
    waiting_queue := Function.update s.waiting_queue s.wq_size t
    wq_size := s.wq_size + 1 }

/-- `free(RUNNING)`. -/
def release (s : Sched) : Sched :=
  { s with freed := Function.update s.freed s.RUNNING true }

/-- The branch on `src`. -/
def switch (src : Src) (s : Sched) : Sched :=
  match src with
  | .signal =>
    { s with rq_current := if s.rq_current = s.rq_size - 1 then 0 else s.rq_current + 1 }
  | .asyncRead => fill (park s)
  | .exit => fill (release s)

/-- `poll(fdarray, nfds, -1); move_queue(); rq_current = 0;`. -/
def pollBlocking (rev : ℕ → ℕ) (s : Sched) : Sched :=
  { move_queue (poll rev s) with rq_current := 0 }

/-- How `scheduler` ends : with `siglongjmp(RUNNING -> environment, 1)` or `return`. -/
inductive Outcome
  | dispatch (s : Sched)
  | returned (s : Sched)

/-- `scheduler` before its first jump. -/
def schedulerStart (s : Sched) : Sched :=
  { s with rq_current := 0 }

/-- `scheduler` from a jump to `sched_buf` to the test `rq_size == 0`. `rev` is what the
first poll reports. -/
def schedulerSwitch (src : Src) (rev : ℕ → ℕ) (s : Sched) : Sched :=
  switch src (pollReady rev s)

/-- `scheduler` from a jump to `sched_buf` on. `rev'` is what the blocking poll reports,
if it is reached. -/
def scheduler (src : Src) (rev rev' : ℕ → ℕ) (s : Sched) : Outcome :=
  let s := schedulerSwitch src rev s
  if s.rq_size = 0 then
    if s.wq_size = 0 then .returned s
    else .dispatch (pollBlocking rev' s)
  else .dispatch s

end SP2022.ThreadLib
