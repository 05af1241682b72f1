import Xv6.Kernel.Param
import Xv6.Lib.Machine

/-!
# `Xv6.Kernel.Cache`: the buffer cache of `bio.c`

The cache holds `NBUF` buffers and the list that links them, `lru`, from `bcache.head.next`
to `bcache.head.prev`. A caller of `bread` is an agent `a : A`; `uses a` says how far it got
with its buffer. One agent uses one buffer at a time, so a process that holds several
buffers is several agents.

Each function below is a stretch that runs under one lock, and the agents may interleave
between any two of them. `bread` is `bget`, then `acquiresleep`, then `fill`; `brelse` is
`releasesleep`, then `unref`. A function is `none` where its agent is not at that point, or
where `acquiresleep` has to wait. The callers' protocol is part of the points: an agent
reaches `brelse` only with data that it has passed to `log_write` or `bwrite`.

The disk is one device: `virtio_disk_rw` addresses it by `b->blockno` alone.
-/

set_option autoImplicit false

namespace Xv6.Kernel

/-- `struct buf`, without the list links. The sleep-lock is the agent that holds it. -/
structure Buf (A : Type) where
  valid : Bool
  dev : Nat
  blockno : Nat
  lock : Option A
  refcnt : Nat
  data : Block

/-- How far an agent got with a buffer. -/
inductive Use
  /-- No buffer. -/
  | idle
  /-- `bget` took a reference; the agent waits in `acquiresleep`. -/
  | waiting (i : Fin NBUF)
  /-- The agent holds the sleep-lock; `bread` has not looked at `valid` yet. -/
  | locked (i : Fin NBUF)
  /-- `bread` returned. `dirty` says that the agent changed the data since, and has not
  passed the buffer to `log_write` or `bwrite` yet. -/
  | held (i : Fin NBUF) (dirty : Bool)
  /-- `brelse` released the sleep-lock; the reference is still counted. -/
  | releasing (i : Fin NBUF)
deriving DecidableEq, Repr

/-- The buffer that a use refers to. -/
def Use.buf : Use → Option (Fin NBUF)
  | .idle => none
  | .waiting i => some i
  | .locked i => some i
  | .held i _ => some i
  | .releasing i => some i

/-- The buffer whose sleep-lock a use holds. -/
def Use.owns : Use → Option (Fin NBUF)
  | .locked i => some i
  | .held i _ => some i
  | _ => none

/-- The buffer cache, with the disk below it and the agents above it. -/
structure Cache (A : Type) where
  bufs : Fin NBUF → Buf A
  lru : List (Fin NBUF)
  disk : Disk
  uses : A → Use

namespace Cache

variable {A : Type} [DecidableEq A]

/-- The cache after `binit`, over the disk `d`. Each buffer went to the front of the list in
turn, so the last one is at `head.next`. -/
def binit (d : Disk) : Cache A where
  bufs := fun _ => ⟨false, 0, 0, none, 0, Lib.Bytes.zero BSIZE⟩
  lru := (List.finRange NBUF).reverse
  disk := d
  uses := fun _ => .idle

/-- Replace buffer `i`. -/
def setBuf (c : Cache A) (i : Fin NBUF) (b : Buf A) : Cache A :=
  { c with bufs := Function.update c.bufs i b }

/-- Move the agent `a` to the point `u`. -/
def setUse (c : Cache A) (a : A) (u : Use) : Cache A :=
  { c with uses := Function.update c.uses a u }

/-- The first buffer of the list that caches `(dev, blockno)`. -/
def find (c : Cache A) (dev blockno : Nat) : Option (Fin NBUF) :=
  c.lru.find? fun i => (c.bufs i).dev = dev ∧ (c.bufs i).blockno = blockno

/-- The last buffer of the list without references. -/
def victim (c : Cache A) : Option (Fin NBUF) :=
  c.lru.reverse.find? fun i => (c.bufs i).refcnt = 0

/-- `bget` up to its `acquiresleep`. `none` is the panic "bget: no buffers". -/
def bget (c : Cache A) (a : A) (dev blockno : Nat) : Option (Cache A) :=
  match c.find dev blockno with
  | some i =>
    some ((c.setBuf i { c.bufs i with refcnt := (c.bufs i).refcnt + 1 }).setUse a (.waiting i))
  | none =>
    match c.victim with
    | some i =>
      some ((c.setBuf i { c.bufs i with
        dev := dev, blockno := blockno, valid := false, refcnt := 1 }).setUse a (.waiting i))
    | none => none

/-- `acquiresleep(&b->lock)` at the end of `bget`. -/
def acquiresleep (c : Cache A) (a : A) : Option (Cache A) :=
  match c.uses a with
  | .waiting i =>
    if (c.bufs i).lock = none then
      some ((c.setBuf i { c.bufs i with lock := some a }).setUse a (.locked i))
    else none
  | _ => none

/-- The rest of `bread`: read the block from the disk unless the buffer is valid. -/
def fill (c : Cache A) (a : A) : Option (Cache A) :=
  match c.uses a with
  | .locked i =>
    if (c.bufs i).valid then
      some (c.setUse a (.held i false))
    else
      some ((c.setBuf i { c.bufs i with
        data := c.disk (c.bufs i).blockno, valid := true }).setUse a (.held i false))
  | _ => none

/-- The agent changes the data of its buffer to `x`. -/
def modify (c : Cache A) (a : A) (x : Block) : Option (Cache A) :=
  match c.uses a with
  | .held i _ => some ((c.setBuf i { c.bufs i with data := x }).setUse a (.held i true))
  | _ => none

/-- Write the buffer to the disk. -/
def bwrite (c : Cache A) (a : A) : Option (Cache A) :=
  match c.uses a with
  | .held i _ =>
    some ({ c with disk := Function.update c.disk (c.bufs i).blockno (c.bufs i).data }.setUse a
      (.held i false))
  | _ => none

/-- `bpin` on the agent's buffer. -/
def bpin (c : Cache A) (a : A) : Option (Cache A) :=
  match c.uses a with
  | .held i _ => some (c.setBuf i { c.bufs i with refcnt := (c.bufs i).refcnt + 1 })
  | _ => none

/-- `bunpin` on the agent's buffer. The list does not change, also at zero references. -/
def bunpin (c : Cache A) (a : A) : Option (Cache A) :=
  match c.uses a with
  | .held i _ => some (c.setBuf i { c.bufs i with refcnt := (c.bufs i).refcnt - 1 })
  | _ => none

/-- `releasesleep(&b->lock)` at the start of `brelse`. -/
def releasesleep (c : Cache A) (a : A) : Option (Cache A) :=
  match c.uses a with
  | .held i false => some ((c.setBuf i { c.bufs i with lock := none }).setUse a (.releasing i))
  | _ => none

/-- The rest of `brelse`: drop the reference. A buffer without references goes to the
front of the list. -/
def unref (c : Cache A) (a : A) : Option (Cache A) :=
  match c.uses a with
  | .releasing i =>
    let c' := (c.setBuf i { c.bufs i with refcnt := (c.bufs i).refcnt - 1 }).setUse a .idle
    if (c.bufs i).refcnt - 1 = 0 then some { c' with lru := i :: c.lru.erase i } else some c'
  | _ => none

/-- The number of agents that refer to buffer `i`. -/
def refs [Fintype A] (c : Cache A) (i : Fin NBUF) : Nat :=
  Lib.countAgents c.uses fun u => u.buf = some i

end Cache

end Xv6.Kernel
