import Xv6.Kernel.Inode

/-!
# `Xv6.Kernel.Fs`: the functions of `fs.c`

Each function keeps its name and the order of its steps. The functions see the blocks
through `bread`, so the disk of `FsState` is the view through the buffer cache and the log:
`log_write` changes it at once, and `begin_op`, `end_op` and `brelse` leave it alone. One
operation runs at a time.

There is one device. A `bread` of any `dev` reads the same disk, and `dev` is only part of
the key of the inode table.

A null pointer is `none`. A loop over the bytes of a file carries a bound on its iterations,
the number of bytes, since each iteration moves at least one.
-/

set_option autoImplicit false

namespace Xv6.Kernel

open Lib

/-! ### Access to the state -/

/-- The in-memory inode behind a pointer. -/
def inode (ip : Ino) : FsM Inode := Action.read fun s => s.itable ip

/-- Change the in-memory inode behind a pointer. -/
def setInode (ip : Ino) (f : Inode → Inode) : FsM Unit := Action.modify fun s =>
  { s with itable := Function.update s.itable ip (f (s.itable ip)) }

/-- The contents of a block. -/
def bread (b : Nat) : FsM Block := Action.read fun s => s.disk b

/-- Change the contents of a block. -/
def logWrite (b : Nat) (blk : Block) : FsM Unit := Action.modify fun s =>
  { s with disk := Function.update s.disk b blk }

section
variable {s : FsState} {err : Panic → Prop}

@[simp] theorem wp_inode {ip : Ino} {post : Inode → FsState → Prop} :
    Action.wp (inode ip) post err s ↔ post (s.itable ip) s :=
  Iff.rfl

@[simp] theorem wp_setInode {ip : Ino} {f : Inode → Inode} {post : Unit → FsState → Prop} :
    Action.wp (setInode ip f) post err s ↔
      post () { s with itable := Function.update s.itable ip (f (s.itable ip)) } :=
  Iff.rfl

@[simp] theorem wp_bread {b : Nat} {post : Block → FsState → Prop} :
    Action.wp (bread b) post err s ↔ post (s.disk b) s :=
  Iff.rfl

@[simp] theorem wp_logWrite {b : Nat} {blk : Block} {post : Unit → FsState → Prop} :
    Action.wp (logWrite b blk) post err s ↔
      post () { s with disk := Function.update s.disk b blk } :=
  Iff.rfl

end

/-! ### Blocks -/

/-- `readsb`. -/
def readsb : FsM Superblock := do
  let bp ← bread 1
  pure (.ofBlock bp)

/-- `bzero`. -/
def bzero (b : Nat) : FsM Unit := logWrite b (Bytes.zero BSIZE)

section
variable (sb : Superblock)

/-- `balloc`. Its two loops try the block numbers `b + bi` below `sb.size` in order. -/
def balloc : FsM Nat := do
  let d ← Action.read FsState.disk
  match (List.range sb.size).find? fun b => !bitAt sb d b with
  | some b => do
      logWrite (BBLOCK sb b) (setBit (d (BBLOCK sb b)) b)
      bzero b
      pure b
  | none => Action.fail .ballocOutOfBlocks

/-- `bfree`. -/
def bfree (b : Nat) : FsM Unit := do
  let d ← Action.read FsState.disk
  if bitAt sb d b then
    logWrite (BBLOCK sb b) (clearBit (d (BBLOCK sb b)) b)
  else
    Action.fail .freeingFreeBlock

/-- The block number in `ip->addrs[i]`, allocated if there is none: the first half of both
branches of `bmap`. -/
def bmapSlot (ip : Ino) (i : Nat) : FsM Nat := do
  let dip ← inode ip
  if dip.addr i = 0 then do
    let addr ← balloc sb
    if addr = 0 then
      pure 0
    else do
      setInode ip fun n => { n with toDinode := n.setAddr i addr }
      pure addr
  else
    pure (dip.addr i)

/-- `bmap`. -/
def bmap (ip : Ino) (bn : Nat) : FsM Nat :=
  if bn < NDIRECT then
    bmapSlot sb ip bn
  else if bn - NDIRECT < NINDIRECT then do
    let addr ← bmapSlot sb ip NDIRECT
    if addr = 0 then
      pure 0
    else do
      let bp ← bread addr
      let a := bp.getWord 4 (4 * (bn - NDIRECT))
      if a = 0 then do
        let a ← balloc sb
        if a = 0 then
          pure 0
        else do
          let bp ← bread addr
          logWrite addr (bp.setWord 4 (4 * (bn - NDIRECT)) a)
          pure a
      else
        pure a
  else
    Action.fail .bmapOutOfRange

/-! ### Inodes -/

/-- `iget`. -/
def iget (dev inum : Nat) : FsM Ino := do
  let t ← Action.read FsState.itable
  match (List.finRange NINODE).find?
      fun k => 0 < (t k).ref ∧ (t k).dev = dev ∧ (t k).inum = inum with
  | some k => do
      setInode k fun n => { n with ref := n.ref + 1 }
      pure k
  | none =>
    match (List.finRange NINODE).find? fun k => (t k).ref = 0 with
    | some k => do
        setInode k fun n => { n with dev := dev, inum := inum, ref := 1, valid := false }
        pure k
    | none => Action.fail .igetNoInodes

/-- `ialloc`. The inodes are tried in order, from number 1 on. -/
def ialloc (dev : Nat) (type : InodeType) : FsM (Option Ino) := do
  let d ← Action.read FsState.disk
  match (List.range sb.ninodes).find?
      fun inum => 1 ≤ inum ∧ (dinodeAt sb d inum).type = .none with
  | some inum => do
      logWrite (IBLOCK sb inum)
        (writeDinode (d (IBLOCK sb inum)) (inum % IPB) (.fresh type))
      let ip ← iget dev inum
      pure (some ip)
  | none => pure none

/-- `idup`. -/
def idup (ip : Ino) : FsM Ino := do
  setInode ip fun n => { n with ref := n.ref + 1 }
  pure ip

/-- `iupdate`. -/
def iupdate (ip : Ino) : FsM Unit := do
  let dip ← inode ip
  let bp ← bread (IBLOCK sb dip.inum)
  logWrite (IBLOCK sb dip.inum) (writeDinode bp (dip.inum % IPB) dip.toDinode)

/-- `acquiresleep` on the lock of an inode. -/
def acquiresleep (ip : Ino) : FsM Unit := do
  let dip ← inode ip
  if dip.locked then
    Action.fail .deadlock
  else
    setInode ip fun n => { n with locked := true }

/-- `ilock`. -/
def ilock (ip : Ino) : FsM Unit := do
  let dip ← inode ip
  if dip.ref < 1 then
    Action.fail .ilock
  else do
    acquiresleep ip
    if dip.valid then
      pure ()
    else do
      let bp ← bread (IBLOCK sb dip.inum)
      let d := readDinode bp (dip.inum % IPB)
      setInode ip fun n => { n with toDinode := d, valid := true }
      if d.type = .none then
        Action.fail .ilockNoType
      else
        pure ()

/-- `iunlock`. -/
def iunlock (ip : Ino) : FsM Unit := do
  let dip ← inode ip
  if ¬ dip.locked ∨ dip.ref < 1 then
    Action.fail .iunlock
  else
    setInode ip fun n => { n with locked := false }

/-- One direct block of `itrunc`. -/
def itruncDirect (ip : Ino) (i : Nat) : FsM Unit := do
  let dip ← inode ip
  if dip.addr i = 0 then
    pure ()
  else do
    bfree sb (dip.addr i)
    setInode ip fun n => { n with toDinode := n.setAddr i 0 }

/-- The indirect block of `itrunc`: first the blocks it lists, then the block itself. -/
def itruncIndirect (ip : Ino) : FsM Unit := do
  let dip ← inode ip
  if dip.addr NDIRECT = 0 then
    pure ()
  else do
    let bp ← bread (dip.addr NDIRECT)
    Action.forEach (fun j =>
      if bp.getWord 4 (4 * j) = 0 then pure () else bfree sb (bp.getWord 4 (4 * j)))
      (List.range NINDIRECT)
    bfree sb (dip.addr NDIRECT)
    setInode ip fun n => { n with toDinode := n.setAddr NDIRECT 0 }

/-- `itrunc`. -/
def itrunc (ip : Ino) : FsM Unit := do
  Action.forEach (itruncDirect sb ip) (List.range NDIRECT)
  itruncIndirect sb ip
  setInode ip fun n => { n with size := 0 }
  iupdate sb ip

/-- What `iput` does at the last reference to an inode without links. -/
def ifree (ip : Ino) : FsM Unit := do
  acquiresleep ip
  itrunc sb ip
  setInode ip fun n => { n with type := .none }
  iupdate sb ip
  setInode ip fun n => { n with valid := false, locked := false }

/-- `iput`. -/
def iput (ip : Ino) : FsM Unit := do
  let dip ← inode ip
  if dip.ref = 1 ∧ dip.valid ∧ dip.nlink = 0 then do
    ifree sb ip
    setInode ip fun n => { n with ref := n.ref - 1 }
  else
    setInode ip fun n => { n with ref := n.ref - 1 }

/-- `iunlockput`. -/
def iunlockput (ip : Ino) : FsM Unit := do
  iunlock ip
  iput sb ip

/-! ### Contents of a file -/

/-- The loop of `readi`: `left` bytes from `off` on are still to be copied, and `acc` has
been. `copyout` says whether `either_copyout` of the piece at this position succeeds. -/
def readiLoop (ip : Ino) (copyout : Nat → Bool) :
    Nat → Nat → Nat → List UInt8 → FsM (Option (List UInt8))
  | 0, _, _, acc => pure (some acc)
  | fuel + 1, off, left, acc =>
    if left = 0 then
      pure (some acc)
    else do
      let addr ← bmap sb ip (off / BSIZE)
      if addr = 0 then
        pure (some acc)
      else do
        let bp ← bread addr
        let m := min left (BSIZE - off % BSIZE)
        if copyout acc.length then
          readiLoop ip copyout fuel (off + m) (left - m)
            (acc ++ bp.getBytes (off % BSIZE) m)
        else
          pure none

/-- `readi`: the bytes copied, or `none` for the result -1. -/
def readi (ip : Ino) (copyout : Nat → Bool) (off n : Nat) : FsM (Option (List UInt8)) := do
  let dip ← inode ip
  if off > dip.size.toNat ∨ (off + n) % 2 ^ 32 < off then
    pure (some [])
  else do
    let n := if off + n > dip.size.toNat then dip.size.toNat - off else n
    readiLoop sb ip copyout n off n []

/-- The source of a `writei`: the bytes that `either_copyin` moves for the piece of length
`m` at position `tot`, and whether it succeeds. -/
abbrev CopyIn := Nat → Nat → List UInt8 × Bool

/-- A source in kernel memory. -/
def kernelSrc (src : List UInt8) : CopyIn := fun tot m => ((src.drop tot).take m, true)

/-- The loop of `writei`: `left` bytes are still to be written at `off`, and `tot` have been.
It returns the offset and the count it reached. A failed `either_copyin` has moved some
bytes into the buffer. -/
def writeiLoop (ip : Ino) (copyin : CopyIn) : Nat → Nat → Nat → Nat → FsM (Nat × Nat)
  | 0, off, _, tot => pure (off, tot)
  | fuel + 1, off, left, tot =>
    if left = 0 then
      pure (off, tot)
    else do
      let addr ← bmap sb ip (off / BSIZE)
      if addr = 0 then
        pure (off, tot)
      else do
        let bp ← bread addr
        let m := min left (BSIZE - off % BSIZE)
        let bytes := (copyin tot m).1.take m
        logWrite addr (bp.setBytes (off % BSIZE) bytes)
        if (copyin tot m).2 then
          writeiLoop ip copyin fuel (off + m) (left - m) (tot + m)
        else
          pure (off, tot)

/-- `writei`. -/
def writei (ip : Ino) (copyin : CopyIn) (off n : Nat) : FsM Int := do
  let dip ← inode ip
  if off > dip.size.toNat ∨ (off + n) % 2 ^ 32 < off then
    pure (-1)
  else if off + n > MAXFILE * BSIZE then
    pure (-1)
  else do
    let (off, tot) ← writeiLoop sb ip copyin n off n 0
    setInode ip fun i => if off > i.size.toNat then { i with size := UInt32.ofNat off } else i
    iupdate sb ip
    pure tot

/-! ### Directories -/

/-- Read the entry at offset `off` of a directory, or stop with `e` when fewer bytes come. -/
def readDirent (dp : Ino) (off : Nat) (e : Panic) : FsM Dirent := do
  let r ← readi sb dp (fun _ => true) off DIRENTSIZE
  match r with
  | some bs => if bs.length = DIRENTSIZE then pure (Dirent.ofBytes bs) else Action.fail e
  | none => Action.fail e

/-- The offsets of the entries of a directory of `size` bytes. -/
def direntOffs (size : Nat) : List Nat :=
  (List.range ((size + DIRENTSIZE - 1) / DIRENTSIZE)).map (DIRENTSIZE * ·)

/-- `dirlookup`: the inode and the offset of its entry. -/
def dirlookup (dp : Ino) (name : List UInt8) : FsM (Option (Ino × Nat)) := do
  let dip ← inode dp
  if dip.type ≠ .dir then
    Action.fail .dirlookupNotDir
  else
    Action.firstSome (fun off => do
      let de ← readDirent sb dp off .dirlookupDead
      if de.inum = 0 then
        pure none
      else if namecmp name de.name = 0 then do
        let ip ← iget dip.dev de.inum
        pure (some (ip, off))
      else
        pure none) (direntOffs dip.size.toNat)

/-- The second loop of `dirlink`: the offset of the first empty entry, else the end. -/
def dirlinkSlot (dp : Ino) : FsM Nat := do
  let dip ← inode dp
  let r ← Action.firstSome (fun off => do
    let de ← readDirent sb dp off .dirlinkRead
    pure (if de.inum = 0 then some off else none)) (direntOffs dip.size.toNat)
  pure (r.getD (DIRENTSIZE * (direntOffs dip.size.toNat).length))

/-- `dirlink`. -/
def dirlink (dp : Ino) (name : List UInt8) (inum : Nat) : FsM Int := do
  let r ← dirlookup sb dp name
  match r with
  | some (ip, _) => do
      iput sb ip
      pure (-1)
  | none => do
      let off ← dirlinkSlot sb dp
      let w ← writei sb dp (kernelSrc (Dirent.toBytes ⟨inum, name⟩)) off DIRENTSIZE
      pure (if w = DIRENTSIZE then 0 else -1)

/-! ### Paths -/

/-- The byte `/`. -/
def slash : UInt8 := 47

/-- `skipelem`: the next component, cut at `DIRSIZ`, and the rest of the path. -/
def skipelem (path : List UInt8) : Option (List UInt8 × List UInt8) :=
  let path := path.dropWhile (· = slash)
  if path = [] then
    none
  else
    some ((path.takeWhile (· ≠ slash)).take DIRSIZ,
      (path.dropWhile (· ≠ slash)).dropWhile (· = slash))

/-- The `return` by which `namex` leaves: the inode of the whole path, the parent of the
last component, a component that is no directory, a component that is missing, or a parent
asked of a path without components. -/
inductive Exit where
  | found
  | parent
  | notDir
  | missing
  | noComponent
deriving DecidableEq, Repr

/-- What `namex` returns: the `return` it took, the inode, and the last component read. -/
structure NamexResult where
  exit : Exit
  ip : Option Ino
  name : List UInt8

/-- The loop of `namex`, from `ip` on. Each iteration takes one component off the path. -/
def namexLoop (parent : Bool) : Nat → Ino → List UInt8 → List UInt8 → FsM NamexResult
  | 0, ip, _, name => pure ⟨.found, some ip, name⟩
  | fuel + 1, ip, path, name =>
    match skipelem path with
    | none =>
      if parent then do
        iput sb ip
        pure ⟨.noComponent, none, name⟩
      else
        pure ⟨.found, some ip, name⟩
    | some (name, path) => do
        ilock sb ip
        let dip ← inode ip
        if dip.type ≠ .dir then do
          iunlockput sb ip
          pure ⟨.notDir, none, name⟩
        else if parent ∧ path = [] then do
          iunlock ip
          pure ⟨.parent, some ip, name⟩
        else do
          let next ← dirlookup sb ip name
          match next with
          | none => do
              -- The reference to `ip` stays.
              iunlock ip
              pure ⟨.missing, none, name⟩
          | some (next, _) => do
              iunlockput sb ip
              namexLoop parent fuel next path name

/-- The inode a walk starts from: the root, or the current directory of the process. -/
def namexStart (cwd : Option Ino) (path : List UInt8) : FsM Ino :=
  if path.head? = some slash then
    iget ROOTDEV ROOTINO
  else
    match cwd with
    | some cwd => idup cwd
    | none => Action.fail .fault

/-- `namex`, with the current directory of the calling process. -/
def namex (cwd : Option Ino) (path : List UInt8) (parent : Bool) : FsM NamexResult := do
  let ip ← namexStart cwd path
  namexLoop sb parent (path.length + 1) ip path []

/-- `namei`. -/
def namei (cwd : Option Ino) (path : List UInt8) : FsM (Option Ino) := do
  let r ← namex sb cwd path false
  pure r.ip

/-- `nameiparent`: the parent directory and the last component. -/
def nameiparent (cwd : Option Ino) (path : List UInt8) :
    FsM (Option (Ino × List UInt8)) := do
  let r ← namex sb cwd path true
  pure (r.ip.map fun ip => (ip, r.name))

end

end Xv6.Kernel
