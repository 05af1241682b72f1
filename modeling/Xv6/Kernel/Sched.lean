import Xv6.Kernel.File
import Xv6.Lib.Machine

/-!
# `Xv6.Kernel.Sched`: harts, kernel threads and the process table under its locks

`n` harts run the kernel threads of the processes and one scheduler thread each. A thread's
remaining code is a list of instructions, and one step of a hart is the next instruction of
the thread it runs. `acquire` and `release` are steps of their own, except that a `release`
is one step with the statements that stand before it under the same lock. `swtch` moves a
hart from one thread to another and moves no lock.

`yield`, `sleep`, `wakeup`, `kill`, `fork`, `exit` and `wait` are written as the instructions
they perform. What they do to the memory that the locks guard (`Shared`) is `effect`; how
they move locks and threads (`State`) is `perform`.

The users of `sleep` and `wakeup` are `sleeper` and `waker`. Condition `i` is guarded by the
spinlock `lk i`. A sleeper tests it under the lock and calls `sleep` in a loop; a waker makes
it true and calls `wakeup` before it releases the lock. `acquiresleep` is the sleeper that
takes the condition `!locked` back when it leaves the loop, and `releasesleep` the waker.
An interrupt handler is a waker that runs on top of whatever thread the hart runs.

Two fields of `Shared` are history, which no step reads back into the others: `calls` numbers
the calls of `wakeup`, and `since i` is the first number after condition `i` became true.
-/

set_option autoImplicit false

namespace Xv6.Kernel

namespace Sched

/-! ### What the locks guard -/

/-- A spinlock: the `lock` of a process, `wait_lock`, `pid_lock`, or one of the users of
`sleep`. -/
inductive Lock (κ : Type)
  | proc (p : ProcPtr)
  | wait
  | pid
  | user (k : κ)
deriving DecidableEq

/-- What a process sleeps on. `wait` uses the address of a process. -/
inductive Chan (ι : Type)
  | null
  | proc (p : ProcPtr)
  | cond (i : ι)
deriving DecidableEq

/-- The channel `p->parent`. -/
def Chan.ofParent {ι : Type} : Option ProcPtr → Chan ι
  | none => .null
  | some p => .proc p

/-- The part of `struct process` that the scheduler and the process tree use. -/
structure Proc (ι : Type) where
  state : ProcState
  chan : Chan ι
  killed : Bool
  xstate : Int
  pid : Int
  parent : Option ProcPtr
deriving DecidableEq

/-- What `freeproc` leaves. -/
def Proc.free {ι : Type} : Proc ι where
  state := .unused
  chan := .null
  killed := false
  xstate := 0
  pid := 0
  parent := none

/-- The memory that the threads share. `ret` is the last result of `wait` in a process, and
`waited` the pids that calls of `wait` have returned, the last one first. -/
structure Shared (ι : Type) where
  proc : ProcPtr → Proc ι
  nextpid : Int
  cond : ι → Bool
  ret : ProcPtr → Int
  waited : List Int
  calls : Nat
  since : ι → Nat

/-! ### Instructions -/

variable {ι κ : Type}

/-- An instruction of a kernel thread. `p` is the process whose thread it is, where there is
one. -/
inductive Instr (ι κ : Type)
  | acquire (l : Lock κ)
  | release (l : Lock κ)
  /-- `p->state = RUNNABLE; sched();` -/
  | yield (p : ProcPtr)
  /-- `p->chan = chan; p->state = SLEEPING; sched();` -/
  | sleep (p : ProcPtr) (ch : Chan ι)
  /-- `p->chan = 0; release(&p->lock);` -/
  | woken (p : ProcPtr)
  /-- The body of the loop of call `m` of `wakeup`, under `q->lock`, and its release. -/
  | wake (q : ProcPtr) (ch : Chan ι) (m : Nat)
  /-- The body of the loop of `kill` under `q->lock`; `qs` is the rest of the table. -/
  | killAt (pid : Int) (q : ProcPtr) (qs : List ProcPtr)
  /-- The body of the loop of `allocproc` under `q->lock`. -/
  | allocAt (p q : ProcPtr) (qs : List ProcPtr)
  /-- `allocpid` under `pid_lock` with its release, and `q->state = USED`. -/
  | allocPid (p q : ProcPtr)
  /-- The allocations of `allocproc` and `fork`, up to `release(&np->lock)`. -/
  | forkMem (p q : ProcPtr)
  /-- `np->parent = p; release(&wait_lock);` -/
  | setParent (p q : ProcPtr)
  /-- `np->state = RUNNABLE; release(&np->lock);` -/
  | publish (q : ProcPtr)
  /-- The loop of `reparent` over the rest of the table. -/
  | reparent (p : ProcPtr) (cs : List ProcPtr)
  /-- `wakeup(p->parent)`. -/
  | wakeParent (p : ProcPtr)
  /-- `p->xstate = status; p->state = ZOMBIE; release(&wait_lock);` -/
  | zombie (p : ProcPtr) (status : Int)
  /-- The `sched()` of `exit`. -/
  | exitSched (p : ProcPtr)
  /-- `panic("zombie exit")`. -/
  | zombieExit
  /-- The loop of `wait` over the rest of the table. -/
  | waitLoop (p : ProcPtr) (havekids : Bool) (cs : List ProcPtr)
  /-- The body of that loop under `child->lock`. -/
  | waitChild (p child : ProcPtr) (cs : List ProcPtr)
  /-- The body of `killed(parent)` in `wait`, and what follows it. -/
  | waitKilled (p : ProcPtr)
  /-- The loop test of a sleeper of condition `i`, under `lk i`. -/
  | test (p : ProcPtr) (i : ι) (consume : Bool)
  /-- A waker makes condition `i` true, under `lk i`; `me` is `myproc()`. -/
  | signal (me : Option ProcPtr) (i : ι)
  /-- Make condition `i` false under `lk i`, and release it. -/
  | clear (i : ι)
  /-- The loop of `scheduler` over the rest of the table. -/
  | schedLoop (ps : List ProcPtr)
  /-- The test of that loop under `p->lock`. -/
  | schedAt (p : ProcPtr) (ps : List ProcPtr)
  /-- `p->state = RUNNING; c->proc = p; swtch(..);` -/
  | dispatch (p : ProcPtr)
  /-- `c->proc = 0; release(&p->lock);` -/
  | dispatched (p : ProcPtr)
deriving DecidableEq

/-- The process table, in the order of the loops. -/
def table : List ProcPtr := List.finRange NPROC

/-- Call `m` of `wakeup(ch)`, for the processes of the list other than `myproc()`. -/
def wakeup (me : Option ProcPtr) (ch : Chan ι) (m : Nat) : List ProcPtr → List (Instr ι κ)
  | [] => []
  | q :: qs =>
    if me = some q then wakeup me ch m qs
    else .acquire (.proc q) :: .wake q ch m :: wakeup me ch m qs

/-- `sleep(ch, lk)`. -/
def sleep (p : ProcPtr) (ch : Chan ι) (l : Lock κ) : List (Instr ι κ) :=
  [.acquire (.proc p), .release l, .sleep p ch, .woken p, .acquire l]

/-- `yield()`. -/
def yield (p : ProcPtr) : List (Instr ι κ) :=
  [.acquire (.proc p), .yield p, .release (.proc p)]

/-- `kill(pid)`, for the processes of the list. -/
def kill (pid : Int) : List ProcPtr → List (Instr ι κ)
  | [] => []
  | q :: qs => [.acquire (.proc q), .killAt pid q qs]

/-- `fork()`, from the loop of `allocproc` over the list. -/
def fork (p : ProcPtr) : List ProcPtr → List (Instr ι κ)
  | [] => []
  | q :: qs => [.acquire (.proc q), .allocAt p q qs]

/-- `exit(status)`, after the files are closed. -/
def exit (p : ProcPtr) (status : Int) : List (Instr ι κ) :=
  [.acquire .wait, .reparent p table, .wakeParent p,
   .acquire (.proc p), .zombie p status, .exitSched p, .zombieExit]

/-- `wait(addr)`. -/
def wait (p : ProcPtr) : List (Instr ι κ) :=
  [.acquire .wait, .waitLoop p false table]

/-- `forkret()`. -/
def forkret (p : ProcPtr) : List (Instr ι κ) := [.release (.proc p)]

/-! ### What an instruction does to the shared memory -/

/-- What an instruction does to locks and threads. -/
inductive Control (κ : Type)
  | stay
  | acquire (l : Lock κ)
  | release (l : Lock κ)
  /-- `sched()` in the thread of `p`. -/
  | leave (p : ProcPtr)
  /-- The scheduler switches to `p`. -/
  | enter (p : ProcPtr)
  /-- The scheduler is back from `p`. -/
  | back (p : ProcPtr)
  /-- The thread of the new process `q` is ready to start, and `q->lock` is released. -/
  | spawn (q : ProcPtr)

/-- The panics of this layer. -/
inductive Panic
  /-- "re-acquire" -/
  | reacquire
  /-- "re-release" -/
  | rerelease
  /-- "sched p->lock" -/
  | schedLock
  /-- "sched running" -/
  | schedRunning
  /-- "init exiting" -/
  | initExiting
  /-- "zombie exit" -/
  | zombieExit
deriving DecidableEq, Repr

/-- Change a process. -/
def Shared.set (m : Shared ι) (p : ProcPtr) (f : Proc ι → Proc ι) : Shared ι :=
  { m with proc := Function.update m.proc p (f (m.proc p)) }

/-- Make a sleeper runnable. -/
def Proc.wake (t : Proc ι) : Proc ι :=
  if t.state = .sleeping then { t with state := .runnable } else t

/-- Set condition `i`; a waker that finds it false starts a new stretch of `since`. -/
def Shared.signal [DecidableEq ι] (m : Shared ι) (i : ι) : Shared ι :=
  { m with
    cond := Function.update m.cond i true
    since := if m.cond i then m.since else Function.update m.since i m.calls }

def Shared.clear [DecidableEq ι] (m : Shared ι) (i : ι) : Shared ι :=
  { m with cond := Function.update m.cond i false }

/-- Count a call of `wakeup`. -/
def Shared.call (m : Shared ι) : Shared ι := { m with calls := m.calls + 1 }

/-- `wait` returns `r` to `p`. -/
def Shared.result (m : Shared ι) (p : ProcPtr) (r : Int) : Shared ι :=
  { m with ret := Function.update m.ret p r }

/-- `wait` frees the zombie `child` and returns its pid to `p`. -/
def Shared.reap (m : Shared ι) (p child : ProcPtr) : Shared ι :=
  { (m.result p (m.proc child).pid).set child fun _ => .free with
    waited := (m.proc child).pid :: m.waited }

section Machine

variable [DecidableEq ι] [DecidableEq κ] (init : ProcPtr) (lk : ι → κ)

/-- What an instruction does: the memory after it, its effect on locks and threads, and the
instructions that come before the rest of the thread's code. `ok` says whether the
allocations of `fork`, or the `copyout` of `wait`, succeed. -/
def effect (m : Shared ι) (ok : Bool) :
    Instr ι κ → Except Panic (Shared ι × Control κ × List (Instr ι κ))
  | .acquire l => .ok (m, .acquire l, [])
  | .release l => .ok (m, .release l, [])
  | .yield p => .ok (m.set p fun t => { t with state := .runnable }, .leave p, [])
  | .sleep p ch => .ok (m.set p fun t => { t with chan := ch, state := .sleeping }, .leave p, [])
  | .woken p => .ok (m.set p fun t => { t with chan := .null }, .release (.proc p), [])
  | .wake q ch _ =>
    .ok (m.set q fun t => if t.chan = ch then t.wake else t, .release (.proc q), [])
  | .killAt pid q qs =>
    if (m.proc q).pid = pid then
      .ok (m.set q fun t => { t with killed := true }.wake, .release (.proc q), [])
    else
      .ok (m, .release (.proc q), kill pid qs)
  | .allocAt p q qs =>
    if (m.proc q).state = .unused then
      .ok (m, .stay, [.acquire .pid, .allocPid p q, .forkMem p q])
    else
      .ok (m, .release (.proc q), fork p qs)
  | .allocPid _ q =>
    .ok ({ m.set q fun t => { t with pid := m.nextpid, state := .used } with
            nextpid := m.nextpid + 1 }, .release .pid, [])
  | .forkMem p q =>
    if ok then
      .ok (m, .spawn q, [.acquire .wait, .setParent p q, .acquire (.proc q), .publish q])
    else
      .ok (m.set q fun _ => .free, .release (.proc q), [])
  | .setParent p q => .ok (m.set q fun t => { t with parent := some p }, .release .wait, [])
  | .publish q => .ok (m.set q fun t => { t with state := .runnable }, .release (.proc q), [])
  | .reparent _ [] => .ok (m, .stay, [])
  | .reparent p (child :: cs) =>
    if (m.proc child).parent = some p then
      .ok ((m.set child fun t => { t with parent := some init }).call, .stay,
        wakeup (some p) (.proc init) m.calls table ++ [.reparent p cs])
    else
      .ok (m, .stay, [.reparent p cs])
  | .wakeParent p =>
    .ok (m.call, .stay, wakeup (some p) (.ofParent (m.proc p).parent) m.calls table)
  | .zombie p status =>
    .ok (m.set p fun t => { t with xstate := status, state := .zombie }, .release .wait, [])
  | .exitSched p => .ok (m, .leave p, [])
  | .zombieExit => .error .zombieExit
  | .waitLoop p havekids [] =>
    if havekids then
      .ok (m, .stay, [.acquire (.proc p), .waitKilled p])
    else
      .ok (m.result p (-1), .stay, [.release .wait])
  | .waitLoop p havekids (child :: cs) =>
    if (m.proc child).parent = some p then
      .ok (m, .stay, [.acquire (.proc child), .waitChild p child cs])
    else
      .ok (m, .stay, [.waitLoop p havekids cs])
  | .waitChild p child cs =>
    if (m.proc child).state = .zombie then
      if ok then
        .ok (m.reap p child, .release (.proc child), [.release .wait])
      else
        .ok (m.result p (-1), .release (.proc child), [.release .wait])
    else
      .ok (m, .release (.proc child), [.waitLoop p true cs])
  | .waitKilled p =>
    if (m.proc p).killed then
      .ok (m.result p (-1), .release (.proc p), [.release .wait])
    else
      .ok (m, .release (.proc p), sleep p (.proc p) .wait ++ [.waitLoop p false table])
  | .test p i consume =>
    if m.cond i then
      .ok (if consume then m.clear i else m, .release (.user (lk i)), [])
    else
      .ok (m, .stay, sleep p (.cond i) (.user (lk i)) ++ [.test p i consume])
  | .signal me i =>
    .ok ((m.signal i).call, .stay,
      wakeup me (.cond i) m.calls table ++ [.release (.user (lk i))])
  | .clear i => .ok (m.clear i, .release (.user (lk i)), [])
  | .schedLoop [] => .ok (m, .stay, [.schedLoop table])
  | .schedLoop (p :: ps) => .ok (m, .stay, [.acquire (.proc p), .schedAt p ps])
  | .schedAt p ps =>
    if (m.proc p).state = .runnable then
      .ok (m, .stay, [.dispatch p, .dispatched p, .schedLoop ps])
    else
      .ok (m, .release (.proc p), [.schedLoop ps])
  | .dispatch p => .ok (m.set p fun t => { t with state := .running }, .enter p, [])
  | .dispatched p => .ok (m, .back p, [])

/-! ### Harts and threads -/

/-- The harts and the threads: who holds each lock, `nesting` and `proc` of each `struct cpu`,
the code that each process and each scheduler has left, and the process whose thread a hart
runs (none while it runs its scheduler). -/
structure State (n : Nat) (ι κ : Type) where
  mem : Shared ι
  lock : Lock κ → Option (Fin n)
  nesting : Fin n → Nat
  cpu : Fin n → Option ProcPtr
  running : Fin n → Option ProcPtr
  code : ProcPtr → List (Instr ι κ)
  loop : Fin n → List (Instr ι κ)

variable {n : Nat}

/-- The code that hart `c` runs. -/
def State.current (s : State n ι κ) (c : Fin n) : List (Instr ι κ) :=
  match s.running c with
  | some p => s.code p
  | none => s.loop c

/-- The thread that hart `c` runs goes on with `k`. -/
def State.goto (s : State n ι κ) (c : Fin n) (k : List (Instr ι κ)) : State n ι κ :=
  match s.running c with
  | some p => { s with code := Function.update s.code p k }
  | none => { s with loop := Function.update s.loop c k }

def State.take (s : State n ι κ) (c : Fin n) (l : Lock κ) : State n ι κ :=
  { s with
    lock := Function.update s.lock l (some c)
    nesting := Function.update s.nesting c (s.nesting c + 1) }

def State.drop (s : State n ι κ) (c : Fin n) (l : Lock κ) : State n ι κ :=
  { s with
    lock := Function.update s.lock l none
    nesting := Function.update s.nesting c (s.nesting c - 1) }

/-- Perform the effect of an instruction on locks and threads, for hart `c` whose thread goes
on with `k`. A held lock makes `acquire` spin, which is no step. -/
def perform (s : State n ι κ) (c : Fin n) (k : List (Instr ι κ)) :
    Control κ → Option (Except Panic (State n ι κ))
  | .stay => some (.ok (s.goto c k))
  | .acquire l =>
    match s.lock l with
    | none => some (.ok ((s.take c l).goto c k))
    | some c' => if c' = c then some (.error .reacquire) else none
  | .release l =>
    if s.lock l = some c then some (.ok ((s.drop c l).goto c k))
    else some (.error .rerelease)
  | .leave p =>
    if s.lock (.proc p) = some c then
      if (s.mem.proc p).state = .running then some (.error .schedRunning)
      else some (.ok { s.goto c k with running := Function.update s.running c none })
    else some (.error .schedLock)
  | .enter p => some (.ok { s.goto c k with
      cpu := Function.update s.cpu c (some p)
      running := Function.update s.running c (some p) })
  | .back p =>
    if s.lock (.proc p) = some c then
      some (.ok { (s.drop c (.proc p)).goto c k with cpu := Function.update s.cpu c none })
    else some (.error .rerelease)
  | .spawn q =>
    if s.lock (.proc q) = some c then
      some (.ok ({ s.drop c (.proc q) with
        code := Function.update s.code q (forkret q) }.goto c k))
    else some (.error .rerelease)

/-- The next instruction of the thread that hart `c` runs. A thread without code is in user
space. -/
def step (s : State n ι κ) (c : Fin n) (ok : Bool) : Option (Except Panic (State n ι κ)) :=
  match s.current c with
  | [] => none
  | i :: k =>
    match effect init lk s.mem ok i with
    | .error e => some (.error e)
    | .ok (m, ctl, is) => perform { s with mem := m } c (is ++ k) ctl

/-- What a process in user space can make its kernel thread do. A timer interrupt makes it
yield. -/
inductive Call (ι : Type)
  | yield
  | fork
  | exit (status : Int)
  | wait
  | kill (pid : Int)
  /-- A call of `wakeup` that no condition goes with. -/
  | wakeup (ch : Chan ι)
  | sleeper (i : ι) (consume : Bool)
  | waker (i : ι)
  | clear (i : ι)

/-- The code of a waker of condition `i`. -/
def waker (me : Option ProcPtr) (i : ι) : List (Instr ι κ) :=
  [.acquire (.user (lk i)), .signal me i]

/-- The code of a call by process `p`. -/
def Call.code (m : Shared ι) (p : ProcPtr) : Call ι → List (Instr ι κ)
  | .yield => Sched.yield p
  | .fork => Sched.fork p table
  | .exit status => Sched.exit p status
  | .wait => Sched.wait p
  | .kill pid => Sched.kill pid table
  | .wakeup ch => Sched.wakeup (some p) ch m.calls table
  | .sleeper i consume => [.acquire (.user (lk i)), .test p i consume]
  | .waker i => Sched.waker lk (some p) i
  | .clear i => [.acquire (.user (lk i)), .clear i]

/-- Process `p`, in user space on hart `c`, makes a call. -/
def State.call (s : State n ι κ) (c : Fin n) (p : ProcPtr) (f : Call ι) : State n ι κ :=
  match f with
  | .wakeup _ => { s.goto c (f.code lk s.mem p) with mem := s.mem.call }
  | _ => s.goto c (f.code lk s.mem p)

inductive Label (n : Nat) (ι : Type)
  /-- The next instruction of hart `c`. -/
  | step (c : Fin n) (ok : Bool)
  /-- A call from user space on hart `c`. -/
  | call (c : Fin n) (f : Call ι)
  /-- An interrupt on hart `c` whose handler is a waker of condition `i`. -/
  | interrupt (c : Fin n) (i : ι)

/-- The machine. Only `exit` panics before its first instruction, in `initproc`. An interrupt
comes when interrupts are on, which is when `nesting` is zero. -/
def machine : Lib.Machine (State n ι κ) (Label n ι) Panic := fun s a =>
  match a with
  | .step c ok => step init lk s c ok
  | .call c f =>
    match s.running c with
    | none => none
    | some p =>
      if s.code p ≠ [] then none
      else
        match f with
        | .exit _ => if p = init then some (.error .initExiting) else some (.ok (s.call lk c p f))
        | _ => some (.ok (s.call lk c p f))
  | .interrupt c i =>
    if s.nesting c = 0 then some (.ok (s.goto c (waker lk (s.cpu c) i ++ s.current c)))
    else none

end Machine

/-- The process table after `userinit`. -/
def firstEntry (init p : ProcPtr) : Proc ι :=
  if p = init then { Proc.free with state := .runnable, pid := 1 } else .free

/-- The state in which the harts enter `scheduler`: `userinit` has made `initproc` runnable,
and every other slot is free. The conditions are arbitrary. -/
def initial (n : Nat) (init : ProcPtr) (cond : ι → Bool) : State n ι κ where
  mem :=
    { proc := firstEntry init
      nextpid := 2
      cond := cond
      ret := fun _ => 0
      waited := []
      calls := 0
      since := fun _ => 0 }
  lock := fun _ => none
  nesting := fun _ => 0
  cpu := fun _ => none
  running := fun _ => none
  code := fun p => if p = init then forkret p else []
  loop := fun _ => [.schedLoop table]

end Sched

end Xv6.Kernel
