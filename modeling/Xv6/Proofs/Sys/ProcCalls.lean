import Xv6.Kernel.Proc

/-!
# `Xv6.Proofs.Sys.ProcCalls`: what `fork`, `exit` and `wait` keep

`fork`, `exit` and `wait` are made of steps of a few kinds: they work on the file system or the
memory, they copy or close a file, and they change a slot of the process table. `Kept` says
that every step of these kinds keeps a property, and then so do the calls.

A slot changes in one way only that matters: a free slot is blank (`Blank`). `freeproc` clears
the pid and `killed` when it frees a slot, and every other change leaves a blank slot blank.
-/

set_option autoImplicit false

namespace Xv6.Proofs.Sys

open Lib Lib.Action Kernel

variable {s : SysState} {p np : ProcPtr} {c : SysParam} {P : SysState → Prop}

/-- A free slot has no pid, and nobody has killed it. -/
def Blank (q : Process) : Prop := q.state = .unused → q.pid = 0 ∧ q.killed = false

/-- A property that every step of the calls keeps. -/
structure Kept (c : SysParam) (P : SysState → Prop) : Prop where
  fs : ∀ {s : SysState} (t : FsState), P s → P { s with fs := t }
  mem : ∀ {s : SysState} (k : Kmem), P s → P { s with kmem := k }
  pid : ∀ {s : SysState} (n : Int32), P s → P { s with nextpid := n }
  slot : ∀ {s : SysState} {p : ProcPtr} {q : Process}, (Blank (s.proc p) → Blank q) → P s →
    P { s with proc := Function.update s.proc p q }
  reparent : ∀ p : ProcPtr, Maintains P (Kernel.reparent p)
  close : ∀ f : FilePtr, Maintains P (fileclose c f)
  dup : ∀ f : FilePtr, Maintains P (fileup f)

namespace Kept

variable (h : Kept c P)
include h

theorem onFs {α : Type} (x : FsM α) : Maintains P (Kernel.onFs x) :=
  Maintains.zoom fun _ t hs => h.fs t hs

theorem onMem {α : Type} (x : KmemM α) : Maintains P (Kernel.onMem x) :=
  Maintains.zoom fun _ k hs => h.mem k hs

theorem setProcess {g : Process → Process} (hg : ∀ q, Blank q → Blank (g q)) :
    Maintains P (Kernel.setProcess p g) :=
  Maintains.modify fun _ hs => h.slot (hg _) hs

theorem iputPtr (ip : Option Ino) : Maintains P (Kernel.iputPtr c ip) := by
  cases ip with
  | none => exact Maintains.fail
  | some ip => exact h.onFs _

theorem idupPtr (ip : Option Ino) : Maintains P (Kernel.idupPtr ip) := by
  cases ip with
  | none => exact Maintains.fail
  | some ip => exact h.onFs _

theorem freeproc : Maintains P (Kernel.freeproc c p) := by
  refine Maintains.bind Maintains.read fun _ => Maintains.bind (Maintains.when (h.onMem _)) ?_
  intro _
  refine Maintains.bind (h.setProcess fun _ hq => hq) fun _ => ?_
  refine Maintains.bind (Maintains.when (h.onMem _)) fun _ => ?_
  exact h.setProcess fun _ _ _ => ⟨rfl, rfl⟩

theorem allocpid : Maintains P Kernel.allocpid :=
  Maintains.bind Maintains.read fun _ =>
    Maintains.bind (Maintains.modify fun _ hs => h.pid _ hs) fun _ => Maintains.pure

theorem allocproc : Maintains P (Kernel.allocproc c) := by
  refine Maintains.bind Maintains.read fun t => ?_
  split
  · exact Maintains.pure
  · refine Maintains.bind h.allocpid fun pid => ?_
    refine Maintains.bind (h.setProcess fun _ _ hstate => nomatch hstate) fun _ => ?_
    refine Maintains.bind (h.onMem _) fun tf => ?_
    refine Maintains.bind (h.setProcess fun _ hq => hq) fun _ => Maintains.ite ?_ ?_
    · exact Maintains.bind h.freeproc fun _ => Maintains.pure
    · refine Maintains.bind (h.onMem _) fun pt => ?_
      refine Maintains.bind (h.setProcess fun _ hq => hq) fun _ => Maintains.ite ?_ Maintains.pure
      exact Maintains.bind h.freeproc fun _ => Maintains.pure

theorem forkFile (i : Fd) : Maintains P (Kernel.forkFile p np i) := by
  refine Maintains.bind Maintains.read fun q => ?_
  split
  · exact Maintains.bind (h.dup _) fun _ => h.setProcess fun _ hq => hq
  · exact Maintains.pure

theorem fork : Maintains P (Kernel.fork c p) := by
  refine Maintains.bind h.allocproc fun r => ?_
  cases r with
  | none => exact Maintains.pure
  | some np =>
    refine Maintains.bind Maintains.read fun q => Maintains.bind Maintains.read fun nq => ?_
    refine Maintains.bind (h.onMem _) fun r => Maintains.ite ?_ ?_
    · exact Maintains.bind h.freeproc fun _ => Maintains.pure
    · refine Maintains.bind (h.setProcess fun _ hq => hq) fun _ => ?_
      refine Maintains.bind (h.onMem _) fun _ => ?_
      refine Maintains.bind (Maintains.forEach h.forkFile _) fun _ => ?_
      refine Maintains.bind (h.idupPtr _) fun cwd => ?_
      refine Maintains.bind (h.setProcess fun _ hq => hq) fun _ => ?_
      refine Maintains.bind (h.setProcess fun _ hq => hq) fun _ => ?_
      refine Maintains.bind (h.setProcess fun _ hq => hq) fun _ => ?_
      refine Maintains.bind (h.setProcess fun _ _ hstate => nomatch hstate) fun _ => ?_
      exact Maintains.pure

theorem exitFile (i : Fd) : Maintains P (Kernel.exitFile c p i) := by
  refine Maintains.bind Maintains.read fun q => ?_
  split
  · exact Maintains.bind (h.close _) fun _ => h.setProcess fun _ hq => hq
  · exact Maintains.pure

theorem exit (status : Int32) : Maintains P (Kernel.exit c p status) := by
  refine Maintains.bind Maintains.read fun init => Maintains.ite Maintains.fail ?_
  refine Maintains.bind (Maintains.forEach h.exitFile _) fun _ => ?_
  refine Maintains.bind Maintains.read fun q => Maintains.bind (h.iputPtr _) fun _ => ?_
  refine Maintains.bind (h.setProcess fun _ hq => hq) fun _ => ?_
  refine Maintains.bind (h.reparent p) fun _ => ?_
  exact h.setProcess fun _ _ hstate => nomatch hstate

theorem wait (addr : Nat) : Maintains P (Kernel.wait c p addr) := by
  refine Maintains.bind Maintains.read fun t => ?_
  split
  · refine Maintains.bind (Maintains.ite Maintains.pure (h.onMem _)) fun r => ?_
    exact Maintains.ite (Maintains.bind h.freeproc fun _ => Maintains.pure) Maintains.pure
  · exact Maintains.ite Maintains.pure Maintains.pure

end Kept

end Xv6.Proofs.Sys
