import Mathlib.Logic.Function.Basic
import Xv6.Kernel.File
import Xv6.Lib.Machine

/-!
# `Xv6.Kernel.Pipe`: the reads and writes of one pipe, `pipe.c`

`pipewrite` and `piperead` run under the lock of the pipe, except while they sleep. Each
function here is a stretch between two sleeps; a call whose result is `none` sleeps, and goes on
with its loop when it has the lock again. `PipeRun` is a pipe with all the calls on it, of any
number of processes, and with its history.

What the page table of the caller holds is a parameter of the call: `copyin i` is the byte at
`addr + i`, if it can be read, and `copyout i` says whether that byte can be written. `killed`
is what `killed(pr)` answers.
-/

set_option autoImplicit false

namespace Xv6.Kernel

open Lib

def PIPESIZE : Nat := 512

namespace Pipe

/-- `nwrite == nread + PIPESIZE`. -/
def isFull (pi : Pipe) : Bool := pi.nwrite == pi.nread + UInt32.ofNat PIPESIZE

/-- `nread == nwrite`. -/
def isEmpty (pi : Pipe) : Bool := pi.nread == pi.nwrite

/-- `data[nwrite++ % PIPESIZE] = ch`. -/
def put (pi : Pipe) (ch : UInt8) : Pipe :=
  { pi with data := pi.data.set (pi.nwrite.toNat % PIPESIZE) ch, nwrite := pi.nwrite + 1 }

/-- `data[nread % PIPESIZE]`. -/
def first (pi : Pipe) : UInt8 := pi.data.getD (pi.nread.toNat % PIPESIZE) 0

/-- `nread++`. -/
def drop (pi : Pipe) : Pipe := { pi with nread := pi.nread + 1 }

end Pipe

/-- The loop of `pipewrite`, `left` bytes before its end, until it sleeps or returns: the pipe,
the count `i` and the result. -/
def pipewriteLoop (copyin : Nat → Option UInt8) (killed : Nat → Bool) :
    Nat → Nat → Pipe → Pipe × Nat × Option Int
  | 0, i, pi => (pi, i, some i)
  | left + 1, i, pi =>
      if pi.isReadopen = false ∨ killed i = true then
        (pi, i, some (-1))
      else if pi.isFull then
        (pi, i, none)
      else
        match copyin i with
        | none => (pi, i, some i)
        | some ch => pipewriteLoop copyin killed left (i + 1) (pi.put ch)

/-- The copying loop of `piperead`, `left` bytes before its end: the pipe and the bytes that it
stored. -/
def pipereadLoop (copyout : Nat → Bool) : Nat → Nat → Pipe → Pipe × List UInt8
  | 0, _, pi => (pi, [])
  | left + 1, i, pi =>
      if pi.isEmpty then
        (pi, [])
      else if copyout i then
        let rest := pipereadLoop copyout left (i + 1) pi.drop
        (rest.1, pi.first :: rest.2)
      else
        (pi.drop, [])

/-- `piperead` with the lock: the pipe, the bytes that it stored and the result. -/
def piperead (n : Int) (copyout : Nat → Bool) (killed : Bool) (pi : Pipe) :
    Pipe × List UInt8 × Option Int :=
  if pi.isEmpty ∧ pi.isWriteopen then
    (pi, [], if killed then some (-1) else none)
  else
    let r := pipereadLoop copyout n.toNat 0 pi
    (r.1, r.2, some r.2.length)

/-- A call of `pipewrite`. -/
structure Write where
  n : Int
  copyin : Nat → Option UInt8
  i : Nat
  result : Option Int

/-- A call of `piperead`. -/
structure Read where
  n : Int
  copyout : Nat → Bool
  result : Option Int

/-- A pipe, the calls on it by their numbers, the bytes accepted with the call that each came
from, and the bytes delivered. -/
structure PipeRun where
  pipe : Pipe
  writes : Nat → Option Write
  reads : Nat → Option Read
  accepted : List (Nat × UInt8)
  delivered : List UInt8

/-- A stretch of a `pipewrite` call. -/
def PipeRun.write (s : PipeRun) (c : Nat) (w : Write) (killed : Nat → Bool) : PipeRun :=
  let r := pipewriteLoop w.copyin killed (w.n.toNat - w.i) w.i s.pipe
  { s with
    pipe := r.1
    writes := Function.update s.writes c (some { w with i := r.2.1, result := r.2.2 })
    accepted := s.accepted ++
      ((List.range' w.i (r.2.1 - w.i)).filterMap w.copyin).map (Prod.mk c) }

/-- A stretch of a `piperead` call. -/
def PipeRun.read (s : PipeRun) (c : Nat) (r : Read) (killed : Bool) : PipeRun :=
  let x := piperead r.n r.copyout killed s.pipe
  { s with
    pipe := x.1
    reads := Function.update s.reads c (some { r with result := x.2.2 })
    delivered := s.delivered ++ x.2.1 }

/-- What can happen to a pipe: a call starts, a call that sleeps goes on, an end is closed. -/
inductive PipeStep
  | write (c : Nat) (n : Int) (copyin : Nat → Option UInt8) (killed : Nat → Bool)
  | writeOn (c : Nat) (killed : Nat → Bool)
  | read (c : Nat) (n : Int) (copyout : Nat → Bool) (killed : Bool)
  | readOn (c : Nat) (killed : Bool)
  | close (isWriteable : Bool)

/-- The runs of a pipe, in any interleaving of the stretches. -/
def pipeSteps : Machine PipeRun PipeStep Empty := fun s a =>
  match a with
  | .write c n copyin killed =>
      match s.writes c with
      | none => some (.ok (s.write c ⟨n, copyin, 0, none⟩ killed))
      | some _ => none
  | .writeOn c killed =>
      match s.writes c with
      | some ⟨n, copyin, i, none⟩ => some (.ok (s.write c ⟨n, copyin, i, none⟩ killed))
      | _ => none
  | .read c n copyout killed =>
      match s.reads c with
      | none => some (.ok (s.read c ⟨n, copyout, none⟩ killed))
      | some _ => none
  | .readOn c killed =>
      match s.reads c with
      | some ⟨n, copyout, none⟩ => some (.ok (s.read c ⟨n, copyout, none⟩ killed))
      | _ => none
  | .close isWriteable =>
      some (.ok { s with pipe := if isWriteable then { s.pipe with isWriteopen := false }
        else { s.pipe with isReadopen := false } })

end Xv6.Kernel
