import Xv6.Kernel.Inode
import Xv6.Lib.Memory

/-!
# `Xv6.Kernel.Kalloc`: the physical page allocator of `kalloc.c`

The free pages form a list that is threaded through the pages themselves: the first word of a
free page, its `struct run`, is the address of the next one. The state is the memory and the
head of the list. An address is a number, and null is 0.

`kend` is the symbol `end` of the linker script, the first address after the kernel. The
lock makes each call one step, so it does not appear.
-/

set_option autoImplicit false

namespace Xv6.Kernel

open Lib

/-- Bytes per page. -/
def PGSIZE : Nat := 4096

def KERNBASE : Nat := 0x80000000

/-- End of the RAM that the kernel uses. -/
def PHYSTOP : Nat := KERNBASE + 128 * 1024 * 1024

/-- Round up to a page: the low bits are cleared. -/
def PGROUNDUP (sz : Nat) : Nat := (sz + PGSIZE - 1) / PGSIZE * PGSIZE

/-- The memory, and `kmem.freelist`. -/
structure Kmem where
  mem : Memory
  freelist : Nat

/-- A function of the allocator. -/
abbrev KmemM := Action Kmem Panic

/-- `memset`. -/
def memset (a : Nat) (b : UInt8) (n : Nat) : KmemM Unit := Action.modify fun s =>
  { s with mem := s.mem.fill a n b }

/-- `kalloc`: the address of a page, or 0. -/
def kalloc : KmemM Nat := do
  let r ← Action.read Kmem.freelist
  if r ≠ 0 then do
    Action.modify fun s => { s with freelist := s.mem.load 8 r }
    memset r 5 PGSIZE
    pure r
  else
    pure 0

section
variable (kend : Nat)

/-- `kfree`. -/
def kfree (pa : Nat) : KmemM Unit :=
  if pa % PGSIZE ≠ 0 ∨ pa < kend ∨ PHYSTOP ≤ pa then
    Action.fail .kfree
  else do
    memset pa 1 PGSIZE
    Action.modify fun s => { s with mem := s.mem.store 8 pa s.freelist, freelist := pa }

/-- The loop of `freerange`, from page `p` on. -/
def freerangeLoop (pa_end : Nat) : Nat → Nat → KmemM Unit
  | 0, _ => pure ()
  | fuel + 1, p =>
    if p + PGSIZE ≤ pa_end then do
      kfree kend p
      freerangeLoop pa_end fuel (p + PGSIZE)
    else
      pure ()

/-- `freerange`. Each iteration moves one page on, so the bound is never met. -/
def freerange (pa_start pa_end : Nat) : KmemM Unit :=
  freerangeLoop kend pa_end (pa_end / PGSIZE + 1) (PGROUNDUP pa_start)

/-- `kinit`. -/
def kinit : KmemM Unit := freerange kend kend PHYSTOP

end

end Xv6.Kernel
