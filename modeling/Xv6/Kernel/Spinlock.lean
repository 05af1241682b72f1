import Mathlib
import Xv6.Lib.Action

/-!
# `Xv6.Kernel.Spinlock`: the spin-locks of one CPU, and its interrupt nesting

`spinlock.c` as one CPU runs it, between two context switches. Its state is the CPU's record,
the interrupt-enable bit of `sstatus`, and the spin-locks; other CPUs change those it does not
hold. `nesting` is an `int` of 32 bits.

`acquire` spins while the lock is taken. The run of a call here is the one where the lock is
free when the call gets to it; a call that finds it taken stops with `spins`.
-/

set_option autoImplicit false

namespace Xv6.Kernel.Spin

open Lib

/-- `struct cpu`, without the context: the process it runs, the depth and the bit that the
outermost `critical_enter` found. -/
structure Cpu where
  proc : Option Nat
  nesting : Int32
  intrIsEnabled : Bool

/-- `struct spinlock`. -/
structure Spinlock where
  locked : Bool
  cpu : Option Nat

/-- What this CPU sees: its number and its record, the interrupt-enable bit and the locks. -/
structure State where
  id : Nat
  mycpu : Cpu
  intr : Bool
  lock : Nat → Spinlock

/-- How a call ends without returning. -/
inductive Stop
  | reAcquire
  | reRelease
  | interruptible
  | unmatched
  /-- `acquire` waits for a lock that is taken. -/
  | spins
deriving DecidableEq

abbrev SpinM (α : Type) := Action State Stop α

def intrGet : SpinM Bool := Action.read (·.intr)

def intrOn : SpinM Unit := Action.modify ({ · with intr := true })

def intrOff : SpinM Unit := Action.modify ({ · with intr := false })

def criticalEnter : SpinM Unit := do
  let enabled ← intrGet
  intrOff
  let c ← Action.read (·.mycpu)
  Action.when (c.nesting = 0)
    (Action.modify fun s => { s with mycpu.intrIsEnabled := enabled })
  Action.modify fun s => { s with mycpu.nesting := s.mycpu.nesting + 1 }

def criticalExit : SpinM Unit := do
  let on ← intrGet
  Action.when (on = true) (Action.fail .interruptible)
  let c ← Action.read (·.mycpu)
  Action.when (c.nesting < 1) (Action.fail .unmatched)
  Action.modify fun s => { s with mycpu.nesting := s.mycpu.nesting - 1 }
  let c ← Action.read (·.mycpu)
  Action.when (c.nesting = 0 ∧ c.intrIsEnabled = true) intrOn

/-- Whether this CPU holds the lock. -/
def holding (lk : Nat) : SpinM Bool :=
  Action.read fun s => (s.lock lk).locked && decide ((s.lock lk).cpu = some s.id)

/-- Change a lock. -/
def setLock (lk : Nat) (v : Spinlock) : SpinM Unit :=
  Action.modify fun s => { s with lock := Function.update s.lock lk v }

def acquire (lk : Nat) : SpinM Unit := do
  criticalEnter
  let mine ← holding lk
  Action.when (mine = true) (Action.fail .reAcquire)
  let l ← Action.read (·.lock lk)
  Action.when (l.locked = true) (Action.fail .spins)
  let id ← Action.read (·.id)
  setLock lk ⟨true, some id⟩

def release (lk : Nat) : SpinM Unit := do
  let mine ← holding lk
  Action.when (mine = false) (Action.fail .reRelease)
  setLock lk ⟨false, none⟩
  criticalExit

def myproc : SpinM (Option Nat) := do
  criticalEnter
  let c ← Action.read (·.mycpu)
  criticalExit
  pure c.proc

/-- Another CPU changes a lock that this one does not hold. -/
def elsewhere (lk : Nat) (v : Spinlock) : SpinM Unit := do
  let mine ← holding lk
  let id ← Action.read (·.id)
  Action.when (mine = false ∧ v.cpu ≠ some id) (setLock lk v)

/-- What happens on the CPU, one call after the other. -/
inductive Call
  | criticalEnter
  | criticalExit
  | acquire (lk : Nat)
  | release (lk : Nat)
  | myproc
  | intrOn
  | intrOff
  | elsewhere (lk : Nat) (v : Spinlock)

def Call.run : Call → SpinM Unit
  | .criticalEnter => Spin.criticalEnter
  | .criticalExit => Spin.criticalExit
  | .acquire lk => Spin.acquire lk
  | .release lk => Spin.release lk
  | .myproc => do
      let _ ← Spin.myproc
      pure ()
  | .intrOn => Spin.intrOn
  | .intrOff => Spin.intrOff
  | .elsewhere lk v => Spin.elsewhere lk v

/-- The calls of a CPU. -/
def calls : Machine State Call Stop := Action.machine Call.run

/-- By how much a call changes the number of open `critical_enter`s. -/
def Call.delta : Call → Int
  | .criticalEnter => 1
  | .acquire _ => 1
  | .criticalExit => -1
  | .release _ => -1
  | _ => 0

/-- The call enters a critical section, if only for itself. -/
def Call.enters : Call → Bool
  | .criticalEnter => true
  | .acquire _ => true
  | .myproc => true
  | _ => false

/-- The call sets the interrupt-enable bit directly. -/
def Call.setsIntr : Call → Bool
  | .intrOn => true
  | .intrOff => true
  | _ => false

/-- Enters minus exits. -/
def depth (cs : List Call) : Int := (cs.map Call.delta).sum

end Xv6.Kernel.Spin
