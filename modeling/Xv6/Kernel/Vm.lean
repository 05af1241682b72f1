import Xv6.Kernel.Kalloc

/-!
# `Xv6.Kernel.Vm`: the user page tables of `vm.c`

A page table is a page of 512 entries of eight bytes, in the memory of `Kmem`. An address and
an entry are numbers below `2 ^ 64`; a computation that can leave that range is reduced.

A loop over the pages of a range carries their number. `freewalk` recurses once per level, and
its argument bounds the depth: a page table has three levels.
-/

set_option autoImplicit false

namespace Xv6.Kernel

open Lib

/-! ### Entries and addresses -/

/-- The entry is valid. -/
def PTE_V : Nat := 1

def PTE_R : Nat := 2

def PTE_W : Nat := 4

def PTE_X : Nat := 8

/-- User code can access the page. -/
def PTE_U : Nat := 16

def PTE_RW : Nat := PTE_R ||| PTE_W

def PTE_RX : Nat := PTE_R ||| PTE_X

def PTE_RWX : Nat := PTE_R ||| PTE_W ||| PTE_X

/-- One beyond the highest virtual address. -/
def MAXVA : Nat := 2 ^ 38

/-- The page of the trampoline, the highest one. -/
def TRAMPOLINE : Nat := MAXVA - PGSIZE

/-- The page of the trapframe, just below. -/
def TRAPFRAME : Nat := TRAMPOLINE - PGSIZE

/-- Round down to a page. -/
def PGROUNDDOWN (a : Nat) : Nat := a / PGSIZE * PGSIZE

/-- The index of `va` in a page table of the given level. -/
def PX (level va : Nat) : Nat := va / (PGSIZE * 512 ^ level) % 512

/-- The address part of an entry. -/
def PA2PTE (pa : Nat) : Nat := pa / 2 ^ 12 * 2 ^ 10

/-- The page that an entry points to. -/
def PTE2PA (pte : Nat) : Nat := pte / 2 ^ 10 * 2 ^ 12 % 2 ^ 64

def PTE_FLAGS (pte : Nat) : Nat := pte % 1024

/-- A `uint64` assigned to an `int` and used as a `uint64` again. -/
def throughInt (n : Nat) : Nat :=
  if n % 2 ^ 32 < 2 ^ 31 then n % 2 ^ 32 else n % 2 ^ 32 + (2 ^ 64 - 2 ^ 32)

/-- The entry at an address. -/
def readPte (a : Nat) : KmemM Nat := Action.read fun s => s.mem.load 8 a

/-- Store an entry. -/
def writePte (a pte : Nat) : KmemM Unit := Action.modify fun s =>
  { s with mem := s.mem.store 8 a pte }

/-- `memmove`. -/
def memmove (dst src n : Nat) : KmemM Unit := Action.modify fun s =>
  { s with mem := s.mem.copy dst src n }

/-! ### Walking -/

/-- The loop of `walk`, from the page table of a level on. -/
def walkLoop (alloc : Bool) (va : Nat) : Nat → Nat → KmemM (Option Nat)
  | 0, pagetable => pure (some (pagetable + 8 * PX 0 va))
  | level + 1, pagetable => do
      let pte ← readPte (pagetable + 8 * PX (level + 1) va)
      if pte &&& PTE_V ≠ 0 then
        walkLoop alloc va level (PTE2PA pte)
      else if ¬ alloc then
        pure none
      else do
        let pg ← kalloc
        if pg = 0 then
          pure none
        else do
          memset pg 0 PGSIZE
          writePte (pagetable + 8 * PX (level + 1) va) (PA2PTE pg ||| PTE_V)
          walkLoop alloc va level pg

/-- `walk`: the address of the entry for `va`, or null. -/
def walk (pagetable va : Nat) (alloc : Bool) : KmemM (Option Nat) :=
  if va ≥ MAXVA then Action.fail .walk else walkLoop alloc va 2 pagetable

/-- `walkaddr`. -/
def walkaddr (pagetable va : Nat) : KmemM Nat :=
  if va ≥ MAXVA then
    pure 0
  else do
    let r ← walk pagetable va false
    match r with
    | none => pure 0
    | some a => do
        let pte ← readPte a
        if pte &&& PTE_V = 0 then
          pure 0
        else if pte &&& PTE_U = 0 then
          pure 0
        else
          pure (PTE2PA pte)

/-- The loop of `mappages`, with the number of pages left. -/
def mappagesLoop (pagetable perm : Nat) : Nat → Nat → Nat → KmemM Int
  | 0, _, _ => pure 0
  | n + 1, a, pa => do
      let r ← walk pagetable a true
      match r with
      | none => pure (-1)
      | some at_ => do
          let pte ← readPte at_
          if pte &&& PTE_V ≠ 0 then
            Action.fail .mappagesRemap
          else do
            writePte at_ (PA2PTE pa ||| perm ||| PTE_V)
            mappagesLoop pagetable perm n (a + PGSIZE) ((pa + PGSIZE) % 2 ^ 64)

/-- `mappages`. -/
def mappages (pagetable va pa sz perm : Nat) : KmemM Int :=
  if va % PGSIZE ≠ 0 then
    Action.fail .mappagesAlign
  else if sz % PGSIZE ≠ 0 then
    Action.fail .mappagesSizeAlign
  else if sz = 0 then
    Action.fail .mappagesSize
  else
    mappagesLoop pagetable perm (sz / PGSIZE) va pa

/-- `uvmcreate`: an empty page table, or 0. -/
def uvmcreate : KmemM Nat := do
  let pagetable ← kalloc
  if pagetable = 0 then
    pure 0
  else do
    memset pagetable 0 PGSIZE
    pure pagetable

/-- `uvmclear`. -/
def uvmclear (pagetable va : Nat) : KmemM Unit := do
  let r ← walk pagetable va false
  match r with
  | none => Action.fail .uvmclear
  | some a => do
      let pte ← readPte a
      writePte a (pte &&& (2 ^ 64 - 1 - PTE_U))

/-- The loop of `copyout`: `src` is still to be copied. Each iteration copies a byte or
more. -/
def copyoutLoop (pagetable : Nat) : Nat → Nat → List UInt8 → KmemM Int
  | 0, _, _ => pure 0
  | fuel + 1, dstva, src =>
    if src = [] then
      pure 0
    else do
      let va0 := PGROUNDDOWN dstva
      let pa0 ← walkaddr pagetable va0
      if pa0 = 0 then
        pure (-1)
      else do
        let n := min (PGSIZE - (dstva - va0)) src.length
        Action.modify fun s => { s with mem := s.mem.write (pa0 + (dstva - va0)) (src.take n) }
        copyoutLoop pagetable fuel (va0 + PGSIZE) (src.drop n)

/-- `copyout`. -/
def copyout (pagetable dstva : Nat) (src : List UInt8) : KmemM Int :=
  copyoutLoop pagetable src.length dstva src

/-- `n` bytes of memory. -/
def readBytes (a n : Nat) : KmemM (List UInt8) := Action.read fun s =>
  (List.range n).map fun i => s.mem (a + i)

/-- The loop of `copyin`: the result, and the bytes stored at the destination, which is no page
of the user. Each iteration copies a byte or more. -/
def copyinLoop (pagetable : Nat) : Nat → Nat → Nat → KmemM (Int × List UInt8)
  | 0, _, _ => pure (0, [])
  | fuel + 1, srcva, len =>
    if len = 0 then
      pure (0, [])
    else do
      let va0 := PGROUNDDOWN srcva
      let pa0 ← walkaddr pagetable va0
      if pa0 = 0 then
        pure (-1, [])
      else do
        let n := min (PGSIZE - (srcva - va0)) len
        let bytes ← readBytes (pa0 + (srcva - va0)) n
        let (r, rest) ← copyinLoop pagetable fuel (va0 + PGSIZE) (len - n)
        pure (r, bytes ++ rest)

/-- `copyin`. -/
def copyin (pagetable srcva len : Nat) : KmemM (Int × List UInt8) :=
  copyinLoop pagetable len srcva len

/-- The inner loop of `copyinstr`: whether it finds a null byte, and the bytes stored. -/
def copyinstrPage : List UInt8 → Bool × List UInt8
  | [] => (false, [])
  | b :: bytes =>
    if b = 0 then
      (true, [0])
    else
      ((copyinstrPage bytes).1, b :: (copyinstrPage bytes).2)

/-- The loop of `copyinstr`: the result, and the bytes stored at the destination, which is no
page of the user. -/
def copyinstrLoop (pagetable : Nat) : Nat → Nat → Nat → KmemM (Int × List UInt8)
  | 0, _, _ => pure (-1, [])
  | fuel + 1, srcva, max =>
    if max = 0 then
      pure (-1, [])
    else do
      let va0 := PGROUNDDOWN srcva
      let pa0 ← walkaddr pagetable va0
      if pa0 = 0 then
        pure (-1, [])
      else do
        let n := min (PGSIZE - (srcva - va0)) max
        let bytes ← readBytes (pa0 + (srcva - va0)) n
        let (got_null, dst) := copyinstrPage bytes
        if got_null then
          pure (0, dst)
        else do
          let (r, rest) ← copyinstrLoop pagetable fuel (va0 + PGSIZE) (max - n)
          pure (r, dst ++ rest)

/-- `copyinstr`. -/
def copyinstr (pagetable srcva max : Nat) : KmemM (Int × List UInt8) :=
  copyinstrLoop pagetable max srcva max

/-! ### Copying to and from a buffer of the kernel

`copyout`, `copyin` and `copyinstr` again, with the kernel's end of the copy at an address of the
memory. -/

/-- The loop of `copyout` with its source in memory. -/
def copyoutBufLoop (pagetable : Nat) : Nat → Nat → Nat → Nat → KmemM Int
  | 0, _, _, _ => pure 0
  | fuel + 1, dstva, src, len =>
    if len = 0 then
      pure 0
    else do
      let va0 := PGROUNDDOWN dstva
      let pa0 ← walkaddr pagetable va0
      if pa0 = 0 then
        pure (-1)
      else do
        let n := min (PGSIZE - (dstva - va0)) len
        memmove (pa0 + (dstva - va0)) src n
        copyoutBufLoop pagetable fuel ((va0 + PGSIZE) % 2 ^ 64) (src + n) (len - n)

/-- `copyout`. -/
def copyoutBuf (pagetable dstva src len : Nat) : KmemM Int :=
  copyoutBufLoop pagetable len dstva src len

/-- The loop of `copyin` with its destination in memory. -/
def copyinBufLoop (pagetable : Nat) : Nat → Nat → Nat → Nat → KmemM Int
  | 0, _, _, _ => pure 0
  | fuel + 1, dst, srcva, len =>
    if len = 0 then
      pure 0
    else do
      let va0 := PGROUNDDOWN srcva
      let pa0 ← walkaddr pagetable va0
      if pa0 = 0 then
        pure (-1)
      else do
        let n := min (PGSIZE - (srcva - va0)) len
        memmove dst (pa0 + (srcva - va0)) n
        copyinBufLoop pagetable fuel (dst + n) ((va0 + PGSIZE) % 2 ^ 64) (len - n)

/-- `copyin`. -/
def copyinBuf (pagetable dst srcva len : Nat) : KmemM Int :=
  copyinBufLoop pagetable len dst srcva len

/-- The byte at an address. -/
def readByte (a : Nat) : KmemM UInt8 := Action.read fun s => s.mem a

/-- Store a byte. -/
def writeByte (a : Nat) (b : UInt8) : KmemM Unit := Action.modify fun s =>
  { s with mem := s.mem.write a [b] }

/-- The inner loop of `copyinstr`, over `n` bytes: whether it finds a null byte. -/
def copyinstrBufPage : Nat → Nat → Nat → KmemM Bool
  | 0, _, _ => pure false
  | n + 1, p, dst => do
      let b ← readByte p
      if b = 0 then do
        writeByte dst 0
        pure true
      else do
        writeByte dst b
        copyinstrBufPage n (p + 1) (dst + 1)

/-- The loop of `copyinstr` with its destination in memory. -/
def copyinstrBufLoop (pagetable : Nat) : Nat → Nat → Nat → Nat → KmemM Int
  | 0, _, _, _ => pure (-1)
  | fuel + 1, dst, srcva, max =>
    if max = 0 then
      pure (-1)
    else do
      let va0 := PGROUNDDOWN srcva
      let pa0 ← walkaddr pagetable va0
      if pa0 = 0 then
        pure (-1)
      else do
        let n := min (PGSIZE - (srcva - va0)) max
        let got_null ← copyinstrBufPage n (pa0 + (srcva - va0)) dst
        if got_null then
          pure 0
        else
          copyinstrBufLoop pagetable fuel (dst + n) ((va0 + PGSIZE) % 2 ^ 64) (max - n)

/-- `copyinstr`. -/
def copyinstrBuf (pagetable dst srcva max : Nat) : KmemM Int :=
  copyinstrBufLoop pagetable max dst srcva max

section
variable (kend : Nat)

/-! ### Unmapping and freeing -/

/-- The loop of `uvmunmap`, with the number of pages left. -/
def uvmunmapLoop (pagetable : Nat) (do_free : Bool) : Nat → Nat → KmemM Unit
  | 0, _ => pure ()
  | n + 1, a => do
      let r ← walk pagetable a false
      match r with
      | none => Action.fail .uvmunmapWalk
      | some at_ => do
          let pte ← readPte at_
          if pte &&& PTE_V = 0 then
            Action.fail .uvmunmapNotMapped
          else if PTE_FLAGS pte = PTE_V then
            Action.fail .uvmunmapNotLeaf
          else do
            Action.when do_free (kfree kend (PTE2PA pte))
            writePte at_ 0
            uvmunmapLoop pagetable do_free n (a + PGSIZE)

/-- `uvmunmap`. The bound of the loop is a `uint64`. -/
def uvmunmap (pagetable va npages : Nat) (do_free : Bool) : KmemM Unit :=
  if va % PGSIZE ≠ 0 then
    Action.fail .uvmunmapAlign
  else
    uvmunmapLoop kend pagetable do_free (((va + npages * PGSIZE) % 2 ^ 64 - va) / PGSIZE) va

/-- The entries of a page table: there are 2^9. -/
@[irreducible] def entries : List Nat := List.range 512

/-- `freewalk`. -/
def freewalk : Nat → Nat → KmemM Unit
  | 0, _ => Action.fail .fault
  | depth + 1, pagetable => do
      Action.forEach (fun i => do
        let pte ← readPte (pagetable + 8 * i)
        if pte &&& PTE_V ≠ 0 then
          if pte &&& PTE_RWX ≠ 0 then
            Action.fail .freewalkLeaf
          else do
            freewalk depth (PTE2PA pte)
            writePte (pagetable + 8 * i) 0
        else
          pure ()) entries
      kfree kend pagetable

/-- `uvmfree`. -/
def uvmfree (pagetable sz : Nat) : KmemM Unit := do
  Action.when (sz > 0) (uvmunmap kend pagetable 0 (PGROUNDUP sz / PGSIZE) true)
  freewalk kend 3 pagetable

/-- `uvmdealloc`. Its `npages` is a number of bytes. -/
def uvmdealloc (pagetable oldsz newsz : Nat) : KmemM Nat :=
  if newsz ≥ oldsz ∨ PGROUNDUP newsz ≥ PGROUNDUP oldsz then
    pure oldsz
  else do
    let npages := throughInt (PGROUNDUP oldsz - PGROUNDUP newsz)
    uvmunmap kend pagetable (PGROUNDUP newsz) npages true
    pure newsz

/-! ### Growing and copying -/

/-- The loop of `uvmalloc`, with the number of pages left. `oldsz` is where it started. -/
def uvmallocLoop (pagetable oldsz newsz xperm : Nat) : Nat → Nat → KmemM Nat
  | 0, _ => pure newsz
  | n + 1, a => do
      let mem ← kalloc
      if mem = 0 then do
        let _ ← uvmdealloc kend pagetable a oldsz
        pure 0
      else do
        memset mem 0 PGSIZE
        let r ← mappages pagetable a mem PGSIZE (PTE_R ||| PTE_U ||| xperm)
        if r ≠ 0 then do
          kfree kend mem
          let _ ← uvmdealloc kend pagetable a oldsz
          pure 0
        else
          uvmallocLoop pagetable oldsz newsz xperm n (a + PGSIZE)

/-- `uvmalloc`: the new size, or 0. -/
def uvmalloc (pagetable oldsz newsz xperm : Nat) : KmemM Nat :=
  if newsz < oldsz then
    pure oldsz
  else
    let oldsz := PGROUNDUP oldsz
    uvmallocLoop kend pagetable oldsz newsz xperm ((newsz - oldsz + PGSIZE - 1) / PGSIZE) oldsz

/-- The loop of `uvmcopy`, with the number of pages left. -/
def uvmcopyLoop (old new : Nat) : Nat → Nat → KmemM Int
  | 0, _ => pure 0
  | n + 1, i => do
      let r ← walk old i false
      match r with
      | none => Action.fail .uvmcopyPte
      | some at_ => do
          let pte ← readPte at_
          if pte &&& PTE_V = 0 then
            Action.fail .uvmcopyPage
          else do
            let mem ← kalloc
            if mem = 0 then do
              uvmunmap kend new 0 (i / PGSIZE) true
              pure (-1)
            else do
              memmove mem (PTE2PA pte) PGSIZE
              let r ← mappages new i mem PGSIZE (PTE_FLAGS pte)
              if r ≠ 0 then do
                kfree kend mem
                uvmunmap kend new 0 (i / PGSIZE) true
                pure (-1)
              else
                uvmcopyLoop old new n (i + PGSIZE)

/-- `uvmcopy`. -/
def uvmcopy (old new sz : Nat) : KmemM Int :=
  uvmcopyLoop kend old new ((sz + PGSIZE - 1) / PGSIZE) 0

/-- `uvmfirst`. It does not test the result of `kalloc`. -/
def uvmfirst (pagetable : Nat) (src : List UInt8) : KmemM Unit :=
  if src.length ≥ PGSIZE then
    Action.fail .uvmfirst
  else do
    let mem ← kalloc
    if mem = 0 then
      Action.fail .fault
    else do
      memset mem 0 PGSIZE
      let _ ← mappages pagetable 0 mem PGSIZE (PTE_RWX ||| PTE_U)
      Action.modify fun s => { s with mem := s.mem.write mem src }

end

end Xv6.Kernel
