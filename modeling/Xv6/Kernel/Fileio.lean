import Xv6.Kernel.File

/-!
# `Xv6.Kernel.Fileio`: `fileread` and `filewrite` of `file.c`

The two functions work on one open file: its entry of the file table, the file system below it,
and the counters of the log that `begin_op` looks at. `copied` is what the call has stored in
user memory. As in `readi` and `writei`, the user's pages appear as the pieces that can be
copied.

A pipe and a device have functions of their own, which are parameters here (`Backend`). A call
that does not return has stopped the kernel, sleeps in `begin_op`, or is still in its loop when
the bound on the turns is met.
-/

set_option autoImplicit false

namespace Xv6.Kernel

open Lib

namespace Fileio

/-- What `begin_op` reads of `struct log`. -/
structure LogCount where
  n : Int
  outstanding : Int
  comitting : Bool

/-- One open file. -/
structure State where
  fs : FsState
  file : File
  log : LogCount
  copied : List UInt8

/-- Why a call does not return. -/
inductive Stop where
  | panic (e : Panic)
  /-- "fileread UNDEFINED device" -/
  | filereadUndefined
  /-- "filewrite UNDEFINED device" -/
  | filewriteUndefined
  /-- Asleep in `begin_op`. -/
  | sleeping
  /-- Still in the loop. -/
  | running
deriving DecidableEq, Repr

abbrev IoM := Action State Stop

/-- Run a function of the file system. -/
def onFs {α : Type} (x : FsM α) : IoM α := fun s =>
  match x s.fs with
  | .ok (a, t) => .ok (a, { s with fs := t })
  | .error e => .error (.panic e)

/-- `f->off += r`. The offset is a `uint`. -/
def advance (r : Nat) : IoM Unit := Action.modify fun s =>
  { s with file := { s.file with off := (s.file.off + r) % 2 ^ 32 } }

/-- The functions behind a pipe and behind the devices. -/
structure Backend where
  piperead : Nat → Nat → Int32 → IoM Int
  pipewrite : Nat → Nat → Int32 → IoM Int
  read : Nat → Option (Nat → Int32 → IoM Int)
  write : Nat → Option (Nat → Int32 → IoM Int)

/-- The entry of `devsw` for a major number, if there is one. -/
def device (f : Nat → Option (Nat → Int32 → IoM Int)) (major : Int16) (addr : Nat) (n : Int32) :
    IoM Int :=
  if major.toInt < 0 ∨ major.toInt ≥ NDEV then
    pure (-1)
  else
    match f major.toInt.toNat with
    | none => pure (-1)
    | some g => g addr n

section
variable (b : Backend) (sb : Superblock)

/-- The `F_INODE` case of `fileread`. -/
def readInode (ip : Ino) (dst : Nat → Bool) (n : Int32) : IoM Unit := do
  onFs (ilock sb ip)
  let f ← Action.read State.file
  let r ← onFs (readi sb ip dst f.off n.toUInt32.toNat)
  match r with
  | some bs => do
      Action.modify fun s => { s with copied := bs }
      advance bs.length
  | none => pure ()
  onFs (iunlock ip)

/-- `fileread`. The case `F_INODE` has no `break`. -/
def fileread (dst : Nat → Bool) (addr : Nat) (n : Int32) : IoM Int := do
  let f ← Action.read State.file
  if f.isReadable = false then
    pure (-1)
  else
    match f.type with
    | .pipe => b.piperead f.pipe addr n
    | .device => device b.read f.major addr n
    | .inode =>
      match f.ip with
      | none => Action.fail (.panic .fault)
      | some ip => do
          readInode sb ip dst n
          Action.fail .filereadUndefined
    | .none => Action.fail .filereadUndefined

/-- `begin_op`. -/
def beginOp : IoM Unit := do
  let l ← Action.read State.log
  if l.comitting then
    Action.fail .sleeping
  else if l.n + (l.outstanding + 1) * MAXOPBLOCKS > LOGBLOCKS then
    Action.fail .sleeping
  else
    Action.modify fun s => { s with log := { s.log with outstanding := s.log.outstanding + 1 } }

/-- The bytes of one turn of the loop of `filewrite`. -/
def maxChunk : Int := ((MAXOPBLOCKS - 1 - 1 - 2) / 2 * BSIZE : Nat)

/-- The loop of `filewrite`. Each turn passes all `n` bytes to `writei`; `i` stays as it is, and
the operation is not ended. -/
def filewriteLoop (ip : Ino) (src : CopyIn) (n : Int32) : Nat → Int → IoM Int
  | 0, _ => Action.fail .running
  | fuel + 1, i =>
    if i < n.toInt then do
      let nl := min (n.toInt - i) maxChunk
      beginOp
      onFs (ilock sb ip)
      let f ← Action.read State.file
      let r ← onFs (writei sb ip src f.off n.toUInt32.toNat)
      Action.when (r > 0) (advance r.toNat)
      onFs (iunlock ip)
      if r ≠ nl then
        pure i
      else
        filewriteLoop ip src n fuel i
    else
      pure i

/-- `filewrite`. The case `F_INODE` has no `break`. -/
def filewrite (fuel : Nat) (src : CopyIn) (addr : Nat) (n : Int32) : IoM Int := do
  let f ← Action.read State.file
  if f.isWritable = false then
    pure (-1)
  else
    match f.type with
    | .pipe => b.pipewrite f.pipe addr n
    | .device => device b.write f.major addr n
    | .inode =>
      match f.ip with
      | none => Action.fail (.panic .fault)
      | some ip => do
          let _ ← filewriteLoop sb ip src n fuel 0
          Action.fail .filewriteUndefined
    | .none => Action.fail .filewriteUndefined

end

end Fileio

end Xv6.Kernel
