import Xv6.Kernel.Param
import Xv6.Lib.Crash
import Xv6.Lib.Writes

/-!
# `Xv6.Kernel.Log`: the on-disk log of `log.c`

The volatile state holds what the buffer cache shows (`view`) and the in-memory log header
(`lh`, the entries `log.lh.block[0..log.lh.n)`). The durable state is the disk. A `bwrite`
is one atomic disk write; every other operation touches memory only. A crash loses the
volatile state, and a boot starts from an empty cache, whose reads show the disk.

The buffer locks, the reference counts and the recycling of buffers are the subject of
`Xv6.Kernel.Cache`. They do not show here: `bpin` and `bunpin` keep a logged block in the
cache, and `view` never forgets one.

A transaction (`Txn`) is what `log_write` has collected when `commit` runs: distinct home
blocks with their new contents. `stage` puts it into memory through the absorption loop of
`log_write`.
-/

set_option autoImplicit false

namespace Xv6.Kernel

open Xv6.Lib
open Xv6.Lib.Crash (Prog)
open Xv6.Lib.Crash.Prog (read modify write forRange)

namespace Log

/-- The memory of the log layer: the contents the buffer cache shows for each block, and
`log.lh.block[0..log.lh.n)`. -/
structure Mem where
  view : Disk
  lh : List Nat

/-- The log code: memory is volatile, the disk is durable. -/
abbrev LogM := Prog Mem Disk

/-- Memory after a boot from the disk `d`. -/
def boot (d : Disk) : Mem := ⟨d, []⟩

/-- The contents of block `b`, through the cache. -/
def bread (b : Nat) : LogM Block := do
  let m ← read
  return m.view b

/-- Replace the contents of the buffer of block `b` (`memmove` into `b->data`). -/
def setData (b : Nat) (data : Block) : LogM Unit :=
  modify fun m => { m with view := Function.update m.view b data }

/-- Write the buffer of block `b` to the disk. -/
def bwrite (b : Nat) : LogM Unit :=
  write fun m d => Function.update d b (m.view b)

/-! ### The log header

`struct loghead` is an `int n` followed by `int block[LOGBLOCKS]`, at the start of the
block `logstart`. -/

/-- `lh->n`. -/
def headN (buf : Block) : Int := int32 (buf.getWord 4 0)

/-- `lh->block[0..lh->n)`. A negative `n` gives no entry. -/
def headBlocks (buf : Block) : List Nat :=
  (List.range (headN buf).toNat).map fun i => buf.getWord 4 (4 * (i + 1))

/-- Store `bs` into `hb->block[i..]`. -/
def putBlocks (buf : Block) (i : Nat) (bs : List Nat) : Block :=
  match bs with
  | [] => buf
  | b :: bs => putBlocks (buf.setWord 4 (4 * (i + 1)) b) (i + 1) bs

/-- Store `hb->n` and `hb->block[0..n)`. The entries from `n` on keep what they held. -/
def putHead (buf : Block) (lh : List Nat) : Block :=
  putBlocks (buf.setWord 4 0 lh.length) 0 lh

/-! ### `log.c` -/

/-- The absorption loop of `log_write`: a block already in the header is not added again. -/
def absorb (lh : List Nat) (b : Nat) : List Nat :=
  if b ∈ lh then lh else lh ++ [b]

/-- Copy committed blocks from the log to their home location. -/
def installTrans (sb : Superblock) : LogM Unit := do
  let m ← read
  forRange m.lh.length fun tail => do
    let lbuf ← bread (sb.logstart + tail + 1)
    setData (m.lh.getD tail 0) lbuf
    bwrite (m.lh.getD tail 0)

/-- Read the log header from disk into the in-memory log header. -/
def readHead (sb : Superblock) : LogM Unit := do
  let buf ← bread sb.logstart
  modify fun m => { m with lh := headBlocks buf }

/-- Write the in-memory log header to disk. -/
def writeHead (sb : Superblock) : LogM Unit := do
  let m ← read
  setData sb.logstart (putHead (m.view sb.logstart) m.lh)
  bwrite sb.logstart

/-- Copy modified blocks from the cache to the log. -/
def writeLog (sb : Superblock) : LogM Unit := do
  let m ← read
  forRange m.lh.length fun tail => do
    let data ← bread (m.lh.getD tail 0)
    setData (sb.logstart + tail + 1) data
    bwrite (sb.logstart + tail + 1)

/-- `log.lh.n = 0`. -/
def clearHead : LogM Unit := modify fun m => { m with lh := [] }

def recoverFromLog (sb : Superblock) : LogM Unit := do
  readHead sb
  installTrans sb
  clearHead
  writeHead sb

def commit (sb : Superblock) : LogM Unit := do
  let m ← read
  if 0 < m.lh.length then do
    writeLog sb
    writeHead sb
    installTrans sb
    clearHead
    writeHead sb
  else
    pure ()

/-! ### Transactions -/

/-- The blocks of the log: the header at `logstart` and the log blocks after it. -/
def LogArea (sb : Superblock) (b : Nat) : Prop :=
  sb.logstart ≤ b ∧ b < sb.logstart + sb.nlog

instance (sb : Superblock) (b : Nat) : Decidable (LogArea sb b) :=
  inferInstanceAs (Decidable (_ ∧ _))

/-- A transaction: the home blocks `log_write` collected, with the contents the cache holds
for them. `loghead` is the bound of the array `log.lh.block`, which `log_write` checks. -/
structure Txn (sb : Superblock) where
  writes : List (Nat × Block)
  nodup : (writes.map Prod.fst).Nodup
  home : ∀ w ∈ writes, ¬ LogArea sb w.1
  uint : ∀ w ∈ writes, w.1 < 2 ^ 32
  fits : writes.length + 1 ≤ sb.nlog
  loghead : writes.length ≤ LOGBLOCKS

/-- The operations of a transaction modify their buffers and call `log_write` on them. -/
def stage (ws : List (Nat × Block)) : LogM Unit :=
  modify fun m => ws.foldl
    (fun m w => ⟨Function.update m.view w.1 w.2, absorb m.lh w.1⟩) m

/-- One transaction, from its first `log_write` to the return of `commit`. -/
def runTxn {sb : Superblock} (t : Txn sb) : LogM Unit := do
  stage t.writes
  commit sb

/-- The disks a crash can leave while the transactions run one after the other, each with
the number of transactions whose `commit` had returned. -/
def crashes {sb : Superblock} (txns : List (Txn sb)) (m : Mem) (d : Disk) : List (Nat × Disk) :=
  match txns with
  | [] => [(0, d)]
  | t :: ts =>
    let o := runTxn t m d
    ((runTxn t).crashPoints m d).map (fun c => (0, c))
      ++ (crashes ts o.mem o.disk).map (fun p => (p.1 + 1, p.2))

/-- The transactions applied in full, in order, to a disk without a log. -/
def applyTxns {sb : Superblock} (txns : List (Txn sb)) (d : Disk) : Disk :=
  txns.foldl (fun d t => applyWrites t.writes d) d

/-- Two disks agree outside the log area. -/
def HomeEq (sb : Superblock) (d d' : Disk) : Prop := ∀ b, ¬ LogArea sb b → d b = d' b

/-- The disk after a boot from `d` and a complete `recover_from_log`. -/
def recovered (sb : Superblock) (d : Disk) : Disk := (recoverFromLog sb (boot d) d).disk

end Log

end Xv6.Kernel
