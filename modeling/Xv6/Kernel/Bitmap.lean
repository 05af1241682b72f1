import Xv6.Kernel.Fs

/-!
# `Xv6.Kernel.Bitmap`: `balloc`, `bfree` and `bzero` with their buffers

The model of the file system reads and writes blocks in one step. Here the three functions are
as in `fs.c`, with their `bread`s and `brelse`s: `held` are the blocks whose buffers the process
has locked, and `pinned` those that the log refers to. The contents of a block are what `bread`
shows of it. There are `NBUF` buffers, so `bread` needs a buffer that nobody refers to unless the
block's own buffer is in use; and a process that reads a block it holds waits for itself.

`balloc` does not release the buffer of a bitmap block in which it finds no free bit.
-/

set_option autoImplicit false

namespace Xv6.Kernel.Bitmap

open Lib

/-- The contents of the blocks and the buffers in use. -/
structure Bufs where
  disk : Disk
  held : List Nat
  pinned : List Nat

inductive Stop
  | noBuffers
  | deadlock
  | tooBig
  | outOfBlocks
  | freeingFreeBlock
deriving DecidableEq

abbrev BufM (α : Type) := Action Bufs Stop α

/-- How many buffers are referred to. -/
def Bufs.referenced (s : Bufs) : Nat := s.held.length + (s.pinned.filter (· ∉ s.held)).length

def bread (b : Nat) : BufM Block := do
  let s ← Action.read id
  Action.when (b ∈ s.held) (Action.fail .deadlock)
  Action.when (b ∉ s.pinned ∧ NBUF ≤ s.referenced) (Action.fail .noBuffers)
  Action.modify fun s => { s with held := b :: s.held }
  pure (s.disk b)

/-- The contents of a held block change, and `log_write` refers to its buffer. -/
def logWrite (b : Nat) (blk : Block) : BufM Unit := do
  let s ← Action.read id
  Action.when (LOGBLOCKS ≤ s.pinned.length) (Action.fail .tooBig)
  Action.modify fun s => { s with
    disk := Function.update s.disk b blk
    pinned := if b ∈ s.pinned then s.pinned else b :: s.pinned }

def brelse (b : Nat) : BufM Unit := Action.modify fun s => { s with held := s.held.erase b }

def bzero (bno : Nat) : BufM Unit := do
  let _ ← bread bno
  logWrite bno (Bytes.zero BSIZE)
  brelse bno

/-- `bp->data[bi / 8] & (1 << (bi % 8))`. -/
def bitIn (bp : Block) (bi : Nat) : Bool := (bp.get (bi / 8)).toNat.testBit (bi % 8)

/-- `bp->data[bi / 8] |= 1 << (bi % 8)`. -/
def orBit (bp : Block) (bi : Nat) : Block :=
  bp.setBytes (bi / 8) [UInt8.ofNat ((bp.get (bi / 8)).toNat ||| 1 <<< (bi % 8))]

/-- The inner loop of `balloc`: the first clear bit, among `bi < BPB` with `b + bi < size`. -/
def firstClear (size b : Nat) (bp : Block) : Option Nat :=
  (List.range (min BPB (size - b))).find? fun bi => !bitIn bp bi

section
variable (sb : Superblock)

/-- The outer loop of `balloc`, from the block number `b` on, with `n` bitmap blocks left. -/
def ballocLoop : Nat → Nat → BufM Nat
  | 0, _ => Action.fail .outOfBlocks
  | n + 1, b => do
      let bp ← bread (BBLOCK sb b)
      match firstClear sb.size b bp with
      | some bi => do
          logWrite (BBLOCK sb b) (orBit bp bi)
          brelse (BBLOCK sb b)
          bzero (b + bi)
          pure (b + bi)
      | none => ballocLoop n (b + BPB)

/-- The loop runs while `b < sb.size`. -/
def balloc : BufM Nat := ballocLoop sb ((sb.size + BPB - 1) / BPB) 0

def bfree (b : Nat) : BufM Unit := do
  let bp ← bread (BBLOCK sb b)
  let bi := b % BPB
  if bitIn bp bi then do
    logWrite (BBLOCK sb b) (clearBit bp b)
    brelse (BBLOCK sb b)
  else
    Action.fail .freeingFreeBlock

end

end Xv6.Kernel.Bitmap
