import Xv6.Kernel.Fs
import Xv6.Kernel.Vm

/-!
# `Xv6.Kernel.File`: the state of the system calls, and the file table of `file.c`

`SysState` is what the system calls share: the file system, the memory, the file table, the
pipes and the process table. Each call is one step, so the locks do not appear.

A pointer into a table is an index, and a null pointer is `none`. A pipe lives in a page of
its own, and `pipes` gives the pipe in the page at an address. `SysParam` holds what the
linker and the boot code fix.
-/

set_option autoImplicit false

namespace Xv6.Kernel

open Lib

/-- Open files per system. -/
def NFILE : Nat := 100

/-- Open files per process. -/
def NOFILE : Nat := 16

/-- Maximum number of processes. -/
def NPROC : Nat := 64

/-- A pointer into the file table. -/
abbrev FilePtr := Fin NFILE

/-- A pointer into the process table. -/
abbrev ProcPtr := Fin NPROC

/-- A file descriptor. -/
abbrev Fd := Fin NOFILE

/-! ### The state -/

/-- `filetype`. -/
inductive FileType where
  | none
  | pipe
  | inode
  | device
deriving DecidableEq, Repr

/-- `struct file`. -/
structure File where
  type : FileType
  ref : Int
  isReadable : Bool
  isWritable : Bool
  pipe : Nat
  ip : Option Ino
  off : Nat
  major : Int16
deriving DecidableEq

/-- `struct pipe`, without its lock. -/
structure Pipe where
  data : List UInt8
  nread : UInt32
  nwrite : UInt32
  isReadopen : Bool
  isWriteopen : Bool
deriving DecidableEq

/-- `enum procstate`. -/
inductive ProcState where
  | unused
  | used
  | sleeping
  | runnable
  | running
  | zombie
deriving DecidableEq, Repr

/-- `struct process`, without its lock and what only the scheduler uses. The name is the string
without its null character. -/
structure Process where
  state : ProcState
  killed : Bool
  xstate : Int32
  pid : Int32
  parent : Option ProcPtr
  sz : Nat
  pagetable : Nat
  trapframe : Nat
  ofile : Fd → Option FilePtr
  cwd : Option Ino
  name : List UInt8

/-- What the linker and the boot code fix: the end of the kernel, the trampoline page and the
superblock. -/
structure SysParam where
  kend : Nat
  trampoline : Nat
  sb : Superblock

/-- What the system calls share. -/
structure SysState where
  fs : FsState
  kmem : Kmem
  ftable : FilePtr → File
  pipes : Nat → Pipe
  proc : ProcPtr → Process
  nextpid : Int32
  initproc : ProcPtr

/-- A system call, or a function it calls. -/
abbrev SysM := Action SysState Panic

/-! ### Access to the state -/

/-- Run a function of the file system. -/
def onFs {α : Type} (x : FsM α) : SysM α :=
  Action.zoom SysState.fs (fun t s => { s with fs := t }) x

/-- Run a function of the memory. -/
def onMem {α : Type} (x : KmemM α) : SysM α :=
  Action.zoom SysState.kmem (fun t s => { s with kmem := t }) x

/-- The entry of the file table behind a pointer. -/
def file (f : FilePtr) : SysM File := Action.read fun s => s.ftable f

/-- Change an entry of the file table. -/
def setFile (f : FilePtr) (g : File → File) : SysM Unit := Action.modify fun s =>
  { s with ftable := Function.update s.ftable f (g (s.ftable f)) }

/-- Change a pipe. -/
def setPipe (pi : Nat) (g : Pipe → Pipe) : SysM Unit := Action.modify fun s =>
  { s with pipes := Function.update s.pipes pi (g (s.pipes pi)) }

/-- The process behind a pointer. -/
def process (p : ProcPtr) : SysM Process := Action.read fun s => s.proc p

/-- Change a process. -/
def setProcess (p : ProcPtr) (g : Process → Process) : SysM Unit := Action.modify fun s =>
  { s with proc := Function.update s.proc p (g (s.proc p)) }

/-- Store a pointer in `p->ofile[fd]`. -/
def setOfile (p : ProcPtr) (fd : Fd) (v : Option FilePtr) : SysM Unit :=
  setProcess p fun q => { q with ofile := Function.update q.ofile fd v }

/-! ### `file.c` and `pipe.c` -/

/-- `filealloc`. -/
def filealloc : SysM (Option FilePtr) := do
  let t ← Action.read SysState.ftable
  match (List.finRange NFILE).find? fun f => (t f).ref = 0 with
  | some f => do
      setFile f fun n => { n with ref := 1 }
      pure (some f)
  | none => pure none

/-- `fileup`. -/
def fileup (f : FilePtr) : SysM FilePtr := do
  let n ← file f
  if n.ref < 1 then
    Action.fail .fileup
  else do
    setFile f fun n => { n with ref := n.ref + 1 }
    pure f

section
variable (c : SysParam)

/-- `pipeclose`. -/
def pipeclose (pi : Nat) (isWriteable : Bool) : SysM Unit := do
  setPipe pi fun q =>
    if isWriteable then { q with isWriteopen := false } else { q with isReadopen := false }
  let q ← Action.read fun s => s.pipes pi
  Action.when (q.isReadopen = false ∧ q.isWriteopen = false) (onMem (kfree c.kend pi))

/-- `iput` of a pointer that may be null. -/
def iputPtr (ip : Option Ino) : SysM Unit :=
  match ip with
  | some ip => onFs (iput c.sb ip)
  | none => Action.fail .fault

/-- `fileclose`. The type is cleared before it is tested. -/
def fileclose (f : FilePtr) : SysM Unit := do
  let n ← file f
  if n.ref < 1 then
    Action.fail .fileclose
  else do
    setFile f fun n => { n with ref := n.ref - 1 }
    let ff ← file f
    if ff.ref > 0 then
      pure ()
    else do
      setFile f fun n => { n with type := .none }
      let n ← file f
      if n.type = .pipe then
        pipeclose c ff.pipe ff.isWritable
      else if n.type = .inode ∨ n.type = .device then
        iputPtr c ff.ip
      else
        pure ()

/-- The label `bad` of `pipealloc`. -/
def pipeallocBad (f0 f1 : Option FilePtr) (pi : Nat) : SysM Unit := do
  Action.when (pi ≠ 0) (onMem (kfree c.kend pi))
  Action.forEach (fileclose c) f0.toList
  Action.forEach (fileclose c) f1.toList

/-- `pipealloc`: the read end and the write end. -/
def pipealloc : SysM (Option (FilePtr × FilePtr)) := do
  let f0 ← filealloc
  match f0 with
  | none => do
      pipeallocBad c none none 0
      pure none
  | some f0 => do
      let f1 ← filealloc
      match f1 with
      | none => do
          pipeallocBad c (some f0) none 0
          pure none
      | some f1 => do
          let pi ← onMem kalloc
          if pi = 0 then do
            pipeallocBad c (some f0) (some f1) 0
            pure none
          else do
            setPipe pi fun q =>
              { q with isReadopen := true, isWriteopen := true, nwrite := 0, nread := 0 }
            setFile f0 fun n =>
              { n with type := .pipe, isReadable := true, isWritable := false, pipe := pi }
            setFile f1 fun n =>
              { n with type := .pipe, isReadable := false, isWritable := true, pipe := pi }
            pure (some (f0, f1))

end

end Xv6.Kernel
