import Xv6.Kernel.File

/-!
# `Xv6.Kernel.Proc`: the process table of `proc.c`

The life of a process and what it owns: its pid, its trapframe, its page table, its open files
and its current directory. `allocproc` and `fork` acquire these in stages, `exit` and `wait`
release them. `kill` marks the slot with a given pid.

Each call is one step. A `wait` that would sleep returns `none`, and the process calls it
again when it is woken. The kernel stack and the context of a process are left out.
-/

set_option autoImplicit false

namespace Xv6.Kernel

open Lib

/-- `sizeof(struct trapframe)`. -/
def TRAPFRAMESIZE : Nat := 288

/-- `allocpid`. -/
def allocpid : SysM Int32 := do
  let pid ← Action.read SysState.nextpid
  Action.modify fun s => { s with nextpid := s.nextpid + 1 }
  pure pid

/-- The size of `p->name`. -/
def NAMESIZE : Nat := 16

/-- `safestrcpy` to an array of `n` characters. -/
def safestrcpy (t : List UInt8) (n : Nat) : List UInt8 := t.take (n - 1)

section
variable (c : SysParam)

/-! ### Slots -/

/-- `proc_pagetable`, with the trapframe page of the process. -/
def procPagetable (trapframe : Nat) : KmemM Nat := do
  let pagetable ← uvmcreate
  if pagetable = 0 then
    pure 0
  else do
    let r ← mappages pagetable TRAMPOLINE c.trampoline PGSIZE PTE_RX
    if r < 0 then do
      uvmfree c.kend pagetable 0
      pure 0
    else do
      let r ← mappages pagetable TRAPFRAME trapframe PGSIZE PTE_RW
      if r < 0 then do
        uvmunmap c.kend pagetable TRAMPOLINE 1 false
        uvmfree c.kend pagetable 0
        pure 0
      else
        pure pagetable

/-- `proc_freepagetable`. -/
def procFreepagetable (pagetable sz : Nat) : KmemM Unit := do
  uvmunmap c.kend pagetable TRAMPOLINE 1 false
  uvmunmap c.kend pagetable TRAPFRAME 1 false
  uvmfree c.kend pagetable sz

/-- `freeproc`. It leaves `p->sz` as it is. -/
def freeproc (p : ProcPtr) : SysM Unit := do
  let q ← process p
  Action.when (q.trapframe ≠ 0) (onMem (kfree c.kend q.trapframe))
  setProcess p fun q => { q with trapframe := 0 }
  Action.when (q.pagetable ≠ 0) (onMem (procFreepagetable c q.pagetable q.sz))
  setProcess p fun q =>
    { q with pagetable := 0, pid := 0, parent := none, name := [], killed := false, xstate := 0,
             state := .unused }

/-- `allocproc`. -/
def allocproc : SysM (Option ProcPtr) := do
  let t ← Action.read SysState.proc
  match (List.finRange NPROC).find? fun p => (t p).state = .unused with
  | none => pure none
  | some p => do
      let pid ← allocpid
      setProcess p fun q => { q with pid := pid, state := .used }
      let tf ← onMem kalloc
      setProcess p fun q => { q with trapframe := tf }
      if tf = 0 then do
        freeproc c p
        pure none
      else do
        let pt ← onMem (procPagetable c tf)
        setProcess p fun q => { q with pagetable := pt }
        if pt = 0 then do
          freeproc c p
          pure none
        else
          pure (some p)

/-! ### `fork`, `exit` and `wait` -/

/-- `idup` of a pointer that may be null. -/
def idupPtr (ip : Option Ino) : SysM Ino :=
  match ip with
  | some ip => onFs (idup ip)
  | none => Action.fail .fault

/-- One descriptor of the loop of `fork`. -/
def forkFile (p np : ProcPtr) (i : Fd) : SysM Unit := do
  let q ← process p
  match q.ofile i with
  | some f => do
      let f ← fileup f
      setOfile np i (some f)
  | none => pure ()

/-- `*(np->trapframe) = *(p->trapframe)`, and `a0`, at offset 112, is cleared. -/
def copyTrapframe (dst src : Nat) : KmemM Unit := do
  memmove dst src TRAPFRAMESIZE
  Action.modify fun s => { s with mem := s.mem.store 8 (dst + 112) 0 }

/-- `fork`. -/
def fork (p : ProcPtr) : SysM Int := do
  let np ← allocproc c
  match np with
  | none => pure (-1)
  | some np => do
      let q ← process p
      let nq ← process np
      let r ← onMem (uvmcopy c.kend q.pagetable nq.pagetable q.sz)
      if r < 0 then do
        freeproc c np
        pure (-1)
      else do
        setProcess np fun n => { n with sz := q.sz }
        onMem (copyTrapframe nq.trapframe q.trapframe)
        Action.forEach (forkFile p np) (List.finRange NOFILE)
        let cwd ← idupPtr q.cwd
        setProcess np fun n => { n with cwd := some cwd }
        setProcess np fun n => { n with name := safestrcpy q.name NAMESIZE }
        setProcess np fun n => { n with parent := some p }
        setProcess np fun n => { n with state := .runnable }
        pure nq.pid.toInt

/-- `reparent`. -/
def reparent (p : ProcPtr) : SysM Unit := Action.modify fun s =>
  { s with proc := fun child =>
      if (s.proc child).parent = some p then { s.proc child with parent := some s.initproc }
      else s.proc child }

/-- One descriptor of the loop of `exit`. -/
def exitFile (p : ProcPtr) (fd : Fd) : SysM Unit := do
  let q ← process p
  match q.ofile fd with
  | some f => do
      fileclose c f
      setOfile p fd none
  | none => pure ()

/-- `exit`. -/
def exit (p : ProcPtr) (status : Int32) : SysM Unit := do
  let init ← Action.read SysState.initproc
  if p = init then
    Action.fail .initExiting
  else do
    Action.forEach (exitFile c p) (List.finRange NOFILE)
    let q ← process p
    iputPtr c q.cwd
    setProcess p fun q => { q with cwd := none }
    reparent p
    setProcess p fun q => { q with xstate := status, state := .zombie }

/-- The four bytes of an `int`. -/
def intBytes (x : Int32) : List UInt8 :=
  (List.range 4).map fun i => UInt8.ofNat (x.toUInt32.toNat / 256 ^ i)

/-- `wait`. -/
def wait (p : ProcPtr) (addr : Nat) : SysM (Option Int) := do
  let t ← Action.read SysState.proc
  match (List.finRange NPROC).find?
      fun child => (t child).parent = some p ∧ (t child).state = .zombie with
  | some child => do
      let r ← (if addr = 0 then pure 0 else
        onMem (copyout (t p).pagetable addr (intBytes (t child).xstate)))
      if r = 0 then do
        freeproc c child
        pure (some (t child).pid.toInt)
      else
        pure (some (-1))
  | none =>
    if (∀ child, (t child).parent ≠ some p) ∨ (t p).killed then
      pure (some (-1))
    else
      pure none

/-- `kill`: the first slot with the pid, whatever its state. -/
def kill (pid : Int32) : SysM Int := do
  let t ← Action.read SysState.proc
  match (List.finRange NPROC).find? fun p => (t p).pid = pid with
  | some p => do
      setProcess p fun q =>
        { q with killed := true, state := if q.state = .sleeping then .runnable else q.state }
      pure 0
  | none => pure (-1)

/-- `growproc`. The sum is a `uint64`. -/
def growproc (p : ProcPtr) (n : Int32) : SysM Int := do
  let q ← process p
  let newsz := ((q.sz : Int) + n.toInt).emod (2 ^ 64) |>.toNat
  if 0 < n then do
    let r ← onMem (uvmalloc c.kend q.pagetable q.sz newsz PTE_W)
    if r = 0 then
      pure (-1)
    else do
      setProcess p fun q => { q with sz := r }
      pure 0
  else if n < 0 then do
    let r ← onMem (uvmdealloc c.kend q.pagetable q.sz newsz)
    setProcess p fun q => { q with sz := r }
    pure 0
  else do
    setProcess p fun q => { q with sz := newsz }
    pure 0

/-- `sys_sbrk`. A `t` of `SBRK_EAGER`, 1, allocates the memory at once. -/
def sysSbrk (p : ProcPtr) (n t : Int32) : SysM Int := do
  let q ← process p
  if t = 1 ∨ n < 0 then do
    let r ← growproc c p n
    if r < 0 then pure (-1) else pure q.sz
  else if (q.sz + n.toInt.toNat) % 2 ^ 64 < q.sz then
    pure (-1)
  else if (q.sz + n.toInt.toNat) % 2 ^ 64 > TRAPFRAME then
    pure (-1)
  else do
    setProcess p fun q => { q with sz := (q.sz + n.toInt.toNat) % 2 ^ 64 }
    pure q.sz

end

end Xv6.Kernel
