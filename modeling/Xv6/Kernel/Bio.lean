import Xv6.Kernel.Cache
import Xv6.Lib.LinkedList

/-!
# `Xv6.Kernel.Bio`: the links of the buffer list of `bio.c`

`Cache` has the buffers in a list `lru`. Here are the pointers: `bcache.head` and every buffer
have a `next` and a `prev`, `binit` and `brelse` assign them, and the two scans of `bget` follow
them. A scan that is not over after `NBUF` buffers never is; `bget` is then `none`, as it is for
an agent that has a buffer.

`clock` and `released` are the history: the time of the latest `brelse` of each buffer, 0 if it
was never released.
-/

set_option autoImplicit false

namespace Xv6.Kernel

open Lib

variable {A : Type} [DecidableEq A]

/-- The cache with its pointers. The list `lru` of the cache is what they are to stand for, and
no function here looks at it. -/
structure Bcache (A : Type) where
  cache : Cache A
  links : Links (Fin NBUF)
  clock : Nat
  released : Fin NBUF → Nat

/-- The panic "bget: no buffers". -/
inductive BioPanic
  | noBuffers

/-- The links after `binit`, from whatever was there before. -/
def binitLinks (l : Links (Fin NBUF)) : Links (Fin NBUF) :=
  (List.finRange NBUF).foldl Links.insertFront ((l.setPrev none none).setNext none none)

namespace Bcache

def binit (d : Disk) (l : Links (Fin NBUF)) : Bcache A :=
  ⟨Cache.binit d, binitLinks l, 0, fun _ => 0⟩

/-- The scan for a buffer that caches the block. -/
def scanHit (s : Bcache A) (dev blockno : Nat) : Option (Option (Fin NBUF)) :=
  Links.walk s.links.next
    (fun i => (s.cache.bufs i).dev = dev ∧ (s.cache.bufs i).blockno = blockno) (NBUF + 1)
    (s.links.next none)

/-- The scan for a buffer without references, from the other end. -/
def scanUnused (s : Bcache A) : Option (Option (Fin NBUF)) :=
  Links.walk s.links.prev (fun i => (s.cache.bufs i).refcnt = 0) (NBUF + 1) (s.links.prev none)

/-- `bget` up to its `acquiresleep`. -/
def bget (s : Bcache A) (a : A) (dev blockno : Nat) : Option (Except BioPanic (Bcache A)) :=
  if s.cache.uses a ≠ .idle then
    none
  else
    match s.scanHit dev blockno with
    | none => none
    | some (some i) =>
        let b := s.cache.bufs i
        some (.ok { s with
          cache := (s.cache.setBuf i { b with refcnt := b.refcnt + 1 }).setUse a (.waiting i) })
    | some none =>
        match s.scanUnused with
        | none => none
        | some (some i) =>
            some (.ok { s with
              cache := (s.cache.setBuf i { s.cache.bufs i with
                dev := dev, blockno := blockno, valid := false, refcnt := 1 }).setUse a
                (.waiting i) })
        | some none => some (.error .noBuffers)

/-- `brelse` after its `releasesleep`. -/
def unref (s : Bcache A) (a : A) : Option (Except BioPanic (Bcache A)) :=
  match s.cache.uses a, s.cache.unref a with
  | .releasing i, some c =>
      some (.ok {
        cache := c
        links := if (s.cache.bufs i).refcnt - 1 = 0 then s.links.moveFront i else s.links
        clock := s.clock + 1
        released := Function.update s.released i (s.clock + 1) })
  | _, _ => none

end Bcache

/-- The stretches that leave the list alone. -/
inductive LocalCall
  | acquiresleep
  | fill
  | bwrite
  | bpin
  | bunpin
  | releasesleep

def LocalCall.run (f : LocalCall) (c : Cache A) (a : A) : Option (Cache A) :=
  match f with
  | .acquiresleep => c.acquiresleep a
  | .fill => c.fill a
  | .bwrite => c.bwrite a
  | .bpin => c.bpin a
  | .bunpin => c.bunpin a
  | .releasesleep => c.releasesleep a

/-- What an agent can do: `bread` is `bget`, `acquiresleep` and `fill`, and `brelse` is
`releasesleep` and `unref`. -/
inductive BufCall
  | bget (dev blockno : Nat)
  | inPlace (f : LocalCall)
  | unref

/-- The runs of the cache, for any interleaving of the agents. -/
def bufCalls : Machine (Bcache A) (A × BufCall) BioPanic := fun s x =>
  match x.2 with
  | .bget dev blockno => s.bget x.1 dev blockno
  | .inPlace f => (f.run s.cache x.1).map fun c => .ok { s with cache := c }
  | .unref => s.unref x.1

end Xv6.Kernel
