import Xv6.Kernel.Proc

/-!
# `Xv6.Kernel.Exec`: `exec`, and how `sys_exec` fetches its arguments

`exec` builds a new page table from the ELF file, pushes the arguments on the new stack, and
only then gives up the old page table. The label `bad` is `execBad`, with what exists when it
is reached: the page table, the size, and the inode.

A vector of arguments is the list of its pointers before the null pointer, and each points to a
page with a string. The array `argv` of `sys_exec` is a local variable: what it contains before
it is assigned is an argument of the model.
-/

set_option autoImplicit false

namespace Xv6.Kernel

open Lib

/-- Maximum number of arguments. -/
def MAXARG : Nat := 32

def ELF_MAGIC : Nat := 0x464C457F

def ELF_PROG_LOAD : Nat := 1

/-- Subtraction of `uint64`. -/
def sub64 (a b : Nat) : Nat := (a + 2 ^ 64 - b) % 2 ^ 64

/-! ### The file -/

/-- The little-endian word of `w` bytes at an offset of some bytes. -/
def wordAt (w : Nat) (bytes : List UInt8) (off : Nat) : Nat :=
  Memory.load w (fun i => bytes.getD i 0) off

/-- What `exec` uses of `struct elfhdr`. -/
structure Elfhdr where
  magic : Nat
  entry : Nat
  phoff : Nat
  phnum : Nat
deriving DecidableEq

/-- `sizeof(struct elfhdr)`. -/
def ELFHDRSIZE : Nat := 64

def Elfhdr.ofBytes (bytes : List UInt8) : Elfhdr where
  magic := wordAt 4 bytes 0
  entry := wordAt 8 bytes 24
  phoff := wordAt 8 bytes 32
  phnum := wordAt 2 bytes 56

/-- What `exec` uses of `struct proghdr`. -/
structure Proghdr where
  type : Nat
  flags : Nat
  off : Nat
  vaddr : Nat
  filesz : Nat
  memsz : Nat
deriving DecidableEq

/-- `sizeof(struct proghdr)`. -/
def PROGHDRSIZE : Nat := 56

def Proghdr.ofBytes (bytes : List UInt8) : Proghdr where
  type := wordAt 4 bytes 0
  flags := wordAt 4 bytes 4
  off := wordAt 8 bytes 8
  vaddr := wordAt 8 bytes 16
  filesz := wordAt 8 bytes 32
  memsz := wordAt 8 bytes 40

/-- `flags2perm`. -/
def flags2perm (flags : Nat) : Nat :=
  (if flags &&& 1 ≠ 0 then PTE_X else 0) ||| (if flags &&& 2 ≠ 0 then PTE_W else 0)

section
variable (c : SysParam)

/-- Read exactly `n` bytes of a file, or `none`. -/
def readExactly (ip : Ino) (off n : Nat) : FsM (Option (List UInt8)) := do
  let r ← readi c.sb ip (fun _ => true) off n
  pure (r.filter fun bytes => bytes.length = n)

/-- The loop of `loadseg`, with the number of pages left. The offset is a `uint`. A file is much
smaller than `2 ^ 32` bytes, so `readi` fails before `i` can overflow. -/
def loadsegLoop (pagetable va : Nat) (ip : Ino) (offset sz : Nat) : Nat → Nat → SysM Int
  | 0, _ => pure 0
  | n + 1, i => do
      let pa ← onMem (walkaddr pagetable ((va + i) % 2 ^ 64))
      if pa = 0 then
        Action.fail .loadseg
      else do
        let r ← onFs (readi c.sb ip (fun _ => true) ((offset + i) % 2 ^ 32) (min (sz - i) PGSIZE))
        let bytes := r.getD []
        onMem (Action.modify fun s => { s with mem := s.mem.write pa bytes })
        if bytes.length ≠ min (sz - i) PGSIZE then
          pure (-1)
        else
          loadsegLoop pagetable va ip offset sz n (i + PGSIZE)

/-- `loadseg`. The offset and the size are cut to `uint`. -/
def loadseg (pagetable va : Nat) (ip : Ino) (offset sz : Nat) : SysM Int :=
  loadsegLoop c pagetable va ip (offset % 2 ^ 32) (sz % 2 ^ 32)
    ((sz % 2 ^ 32 + PGSIZE - 1) / PGSIZE) 0

/-- The loop of `exec` over the program headers, with the number of headers left. It returns
whether all went well, and the size. -/
def execSegs (pagetable : Nat) (ip : Ino) : Nat → Nat → Nat → SysM (Bool × Nat)
  | 0, _, sz => pure (true, sz)
  | n + 1, off, sz => do
      let r ← onFs (readExactly c ip off PROGHDRSIZE)
      match r with
      | none => pure (false, sz)
      | some bytes =>
        let ph := Proghdr.ofBytes bytes
        if ph.type ≠ ELF_PROG_LOAD then
          execSegs pagetable ip n ((off + PROGHDRSIZE) % 2 ^ 32) sz
        else if ph.memsz < ph.filesz then
          pure (false, sz)
        else if (ph.vaddr + ph.memsz) % 2 ^ 64 < ph.vaddr then
          pure (false, sz)
        else if ph.vaddr % PGSIZE ≠ 0 then
          pure (false, sz)
        else do
          let sz1 ← onMem
            (uvmalloc c.kend pagetable sz (ph.vaddr + ph.memsz) (flags2perm ph.flags))
          if sz1 = 0 then
            pure (false, sz)
          else do
            let r ← loadseg c pagetable ph.vaddr ip ph.off ph.filesz
            if r < 0 then
              pure (false, sz1)
            else
              execSegs pagetable ip n ((off + PROGHDRSIZE) % 2 ^ 32) sz1

/-! ### The stack -/

/-- `strlen` of a string that ends within a page. -/
def strlen (m : Memory) (s : Nat) : Nat :=
  ((List.range PGSIZE).takeWhile fun i => m (s + i) ≠ 0).length

/-- The loop of `exec` over the arguments: the stack pointer, and the words of `ustack`. -/
def pushArgs (pagetable stackbase : Nat) :
    List Nat → Nat → List Nat → KmemM (Option (Nat × List Nat))
  | [], sp, ustack => pure (some (sp, ustack))
  | s :: argv, sp, ustack =>
    if ustack.length ≥ MAXARG then
      pure none
    else do
      let len ← Action.read fun k => strlen k.mem s
      let sp := sub64 sp (len + 1)
      let sp := sp - sp % 16
      if sp < stackbase then
        pure none
      else do
        let bytes ← readBytes s (len + 1)
        let r ← copyout pagetable sp bytes
        if r < 0 then
          pure none
        else
          pushArgs pagetable stackbase argv sp (ustack ++ [sp])

/-- The eight bytes of a `uint64`. -/
def wordBytes (v : Nat) : List UInt8 := (List.range 8).map fun i => UInt8.ofNat (v / 256 ^ i)

/-- The end of the stack: the array of pointers, with a null pointer. The array has `MAXARG`
entries, so that with as many arguments the null pointer is stored behind it. -/
def pushUstack (pagetable stackbase sp : Nat) (ustack : List Nat) : KmemM (Option Nat) :=
  if ustack.length ≥ MAXARG then
    Action.fail .fault
  else
    let sp := sub64 sp ((ustack.length + 1) * 8)
    let sp := sp - sp % 16
    if sp < stackbase then
      pure none
    else do
      let r ← copyout pagetable sp ((ustack ++ [0]).flatMap wordBytes)
      if r < 0 then pure none else pure (some sp)

/-! ### `exec` -/

/-- The label `bad` of `exec`. -/
def execBad (pagetable sz : Nat) (ip : Option Ino) : SysM Int := do
  Action.when (pagetable ≠ 0) (onMem (procFreepagetable c pagetable sz))
  match ip with
  | some ip => onFs (iunlockput c.sb ip)
  | none => pure ()
  pure (-1)

/-- The registers that `exec` sets: `a1`, `epc` and `sp`. -/
def execRegs (trapframe entry sp : Nat) : KmemM Unit := do
  Action.modify fun s => { s with mem := s.mem.store 8 (trapframe + 120) sp }
  Action.modify fun s => { s with mem := s.mem.store 8 (trapframe + 24) entry }
  Action.modify fun s => { s with mem := s.mem.store 8 (trapframe + 48) sp }

/-- The loop of `exec` over a path: what follows its last slash. -/
def lastElem : List UInt8 → List UInt8 → List UInt8
  | last, [] => last
  | last, b :: s => lastElem (if b = slash then s else last) s

/-- `exec`, from the loaded file on. -/
def execStack (p : ProcPtr) (path : List UInt8) (entry pagetable sz : Nat) (argv : List Nat) :
    SysM Int := do
  let q ← process p
  let sz := PGROUNDUP sz
  let sz1 ← onMem (uvmalloc c.kend pagetable sz (sz + 2 * PGSIZE) PTE_W)
  if sz1 = 0 then
    execBad c pagetable sz none
  else do
    onMem (uvmclear pagetable (sz1 - 2 * PGSIZE))
    let stackbase := sz1 - PGSIZE
    let r ← onMem (pushArgs pagetable stackbase argv sz1 [])
    match r with
    | none => execBad c pagetable sz1 none
    | some (sp, ustack) => do
        let r ← onMem (pushUstack pagetable stackbase sp ustack)
        match r with
        | none => execBad c pagetable sz1 none
        | some sp => do
            onMem (execRegs q.trapframe entry sp)
            setProcess p fun q => { q with name := safestrcpy (lastElem path path) NAMESIZE }
            setProcess p fun q => { q with pagetable := pagetable, sz := sz1 }
            onMem (procFreepagetable c q.pagetable q.sz)
            pure ustack.length

/-- `exec`. -/
def exec (p : ProcPtr) (path : List UInt8) (argv : List Nat) : SysM Int := do
  let q ← process p
  let r ← onFs (namei c.sb q.cwd path)
  match r with
  | none => pure (-1)
  | some ip => do
      onFs (ilock c.sb ip)
      let r ← onFs (readExactly c ip 0 ELFHDRSIZE)
      match r with
      | none => execBad c 0 0 (some ip)
      | some bytes =>
        let elf := Elfhdr.ofBytes bytes
        if elf.magic ≠ ELF_MAGIC then
          execBad c 0 0 (some ip)
        else do
          let pagetable ← onMem (procPagetable c q.trapframe)
          if pagetable = 0 then
            execBad c 0 0 (some ip)
          else do
            let (ok, sz) ← execSegs c pagetable ip elf.phnum (elf.phoff % 2 ^ 32) 0
            if ok then do
              onFs (iunlockput c.sb ip)
              execStack c p path elf.entry pagetable sz argv
            else
              execBad c pagetable sz (some ip)

end

/-! ### The arguments of `sys_exec` -/

/-- `fetchaddr`: the word at a user address, or `none` for the result -1. -/
def fetchaddr (pagetable sz addr : Nat) : KmemM (Option Nat) :=
  if addr ≥ sz ∨ (addr + 8) % 2 ^ 64 > sz then
    pure none
  else do
    let (r, bytes) ← copyin pagetable addr 8
    pure (if r < 0 then none else some (wordAt 8 bytes 0))

/-- `fetchstr` into the page at `buf`: whether it succeeds. -/
def fetchstr (pagetable addr buf max : Nat) : KmemM Bool := do
  let (r, bytes) ← copyinstr pagetable addr max
  Action.modify fun s => { s with mem := s.mem.write buf bytes }
  pure (decide (0 ≤ r))

/-- The ways out of the loop of `sys_exec`: the vector has no end, a pointer or a string cannot
be read, there is no page, or the null pointer was found. -/
inductive ArgsExit where
  | tooLong
  | badAddr
  | noPage
  | badStr
  | null
deriving DecidableEq, Repr

/-- The local variables of `sys_exec` after the loop. -/
structure Args where
  exit : ArgsExit
  i : Nat
  argv : Nat → Nat

/-- The loop of `sys_exec`, with the number of entries of `argv` left. It reads the second
pointer of the user in every round. -/
def execArgsLoop (pagetable sz uargv : Nat) : Nat → Nat → (Nat → Nat) → KmemM Args
  | 0, i, argv => pure ⟨.tooLong, i, argv⟩
  | n + 1, i, argv => do
      let r ← fetchaddr pagetable sz ((uargv + 8 * 1) % 2 ^ 64)
      match r with
      | none => pure ⟨.badAddr, i, argv⟩
      | some uarg =>
        if uarg = 0 then
          pure ⟨.null, i, Function.update argv i 0⟩
        else do
          let pg ← kalloc
          if pg = 0 then
            pure ⟨.noPage, i, Function.update argv i pg⟩
          else do
            let ok ← fetchstr pagetable uarg pg PGSIZE
            if ok then
              execArgsLoop pagetable sz uargv n (i + 1) (Function.update argv i pg)
            else
              pure ⟨.badStr, i, Function.update argv i pg⟩

/-- The loop of `sys_exec`, from the contents that `argv` has at its start. -/
def execArgs (pagetable sz uargv : Nat) (argv : Nat → Nat) : KmemM Args :=
  execArgsLoop pagetable sz uargv MAXARG 0 argv

/-- The entries of `argv` before the first null pointer. -/
def argPages (argv : Nat → Nat) : List Nat :=
  ((List.range MAXARG).map argv).takeWhile fun pg => pg ≠ 0

section
variable (c : SysParam)

/-- `sys_exec`. Both cleanup loops free the entries before the first null pointer. -/
def sysExec (p : ProcPtr) (path : Option (List UInt8)) (uargv : Nat) (argv : Nat → Nat) :
    SysM Int :=
  match path with
  | none => pure (-1)
  | some path => do
      let q ← process p
      let args ← onMem (execArgs q.pagetable q.sz uargv argv)
      let ret ← (if args.exit = .null then exec c p path (argPages args.argv) else pure (-1))
      onMem (Action.forEach (kfree c.kend) (argPages args.argv))
      pure ret

end

end Xv6.Kernel
