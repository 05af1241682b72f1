import Xv6.Kernel.Inode

/-!
# `Xv6.Kernel.Mkfs`: `mkfs.c`, the program that makes the image

`mkfs` runs on the host. Its state is the image file, as sectors with the number of sectors
written so far, and the two counters `freeinode` and `freeblock`. A read past the end of the
image and a failed `assert` end the program without an image.

A host file is given by its argument and by the pieces in which `read` returns its bytes,
each of at most `BSIZE`.
-/

set_option autoImplicit false

namespace Xv6.Kernel.Mkfs

open Lib

/-- The state of `mkfs`. -/
structure State where
  disk : Disk
  sectors : Nat
  freeinode : Nat
  freeblock : Nat

/-- Where `mkfs` gives up. -/
inductive Stop where
  | die
  | assert
deriving DecidableEq, Repr

/-- A function of `mkfs`. -/
abbrev M := Action State Stop

/-- `wsect`. A write past the end makes the image longer. -/
def wsect (sec : Nat) (buf : Block) : M Unit := Action.modify fun s =>
  { s with disk := Function.update s.disk sec buf, sectors := max s.sectors (sec + 1) }

/-- `rsect`. -/
def rsect (sec : Nat) : M Block := do
  let n ← Action.read State.sectors
  if sec < n then Action.read fun s => s.disk sec else Action.fail .die

/-- `winode`. -/
def winode (inum : Nat) (din : Dinode) : M Unit := do
  let buf ← rsect (IBLOCK superblock inum)
  wsect (IBLOCK superblock inum) (writeDinode buf (inum % IPB) din)

/-- `rinode`. -/
def rinode (inum : Nat) : M Dinode := do
  let buf ← rsect (IBLOCK superblock inum)
  pure (readDinode buf (inum % IPB))

/-- `mkfs_ialloc`. -/
def ialloc (type : InodeType) : M Nat := do
  let inum ← Action.read State.freeinode
  Action.modify fun s => { s with freeinode := inum + 1 }
  winode inum { Dinode.fresh type with nlink := 1 }
  pure inum

/-- `freeblock++`. -/
def takeBlock : M Nat := do
  let b ← Action.read State.freeblock
  Action.modify fun s => { s with freeblock := b + 1 }
  pure b

/-- `din.addrs[i]`, with a new block if there is none. -/
def takeAddr (din : Dinode) (i : Nat) : M Dinode :=
  if din.addr i = 0 then do
    let b ← takeBlock
    pure (din.setAddr i b)
  else
    pure din

/-- The block of the loop of `iappend` for block `fbn` of the file, and the dinode with it. -/
def iappendBlock (din : Dinode) (fbn : Nat) : M (Dinode × Nat) :=
  if fbn < NDIRECT then do
    let din ← takeAddr din fbn
    pure (din, din.addr fbn)
  else do
    let din ← takeAddr din NDIRECT
    let indirect ← rsect (din.addr NDIRECT)
    let x := indirect.getWord 4 (4 * (fbn - NDIRECT))
    if x = 0 then do
      let b ← takeBlock
      wsect (din.addr NDIRECT) (indirect.setWord 4 (4 * (fbn - NDIRECT)) b)
      pure (din, b)
    else
      pure (din, x)

/-- The loop of `iappend`: the bytes `p` are still to be stored at `off`. -/
def iappendLoop : Nat → Dinode → Nat → List UInt8 → M (Dinode × Nat)
  | 0, din, off, _ => pure (din, off)
  | fuel + 1, din, off, p =>
    if p = [] then
      pure (din, off)
    else if off / BSIZE < MAXFILE then do
      let (din, x) ← iappendBlock din (off / BSIZE)
      let n1 := min p.length ((off / BSIZE + 1) * BSIZE - off)
      let buf ← rsect x
      wsect x (buf.setBytes (off - off / BSIZE * BSIZE) (p.take n1))
      iappendLoop fuel din (off + n1) (p.drop n1)
    else
      Action.fail .assert

/-- `iappend`. -/
def iappend (inum : Nat) (p : List UInt8) : M Unit := do
  let din ← rinode inum
  let (din, off) ← iappendLoop p.length din din.size.toNat p
  winode inum { din with size := UInt32.ofNat off }

/-- The bitmap block of `balloc(used)`: the first `used` bits are set, one after the other. -/
def usedBits (used : Nat) : Block := (List.range used).foldl setBit (Bytes.zero BSIZE)

/-- `balloc`. -/
def balloc (used : Nat) : M Unit :=
  if used < BSIZE * 8 then wsect superblock.bmapstart (usedBits used) else Action.fail .assert

/-- A host file: its argument, and its bytes as `read` returns them. -/
structure HostFile where
  arg : List UInt8
  reads : List (List UInt8)

/-- `"user/"`. -/
def userDir : List UInt8 := [117, 115, 101, 114, 47]

/-- The name of the file in the image, before the leading `_` is skipped. -/
def baseName (arg : List UInt8) : List UInt8 :=
  if arg.take 5 = userDir then arg.drop 5 else arg

/-- The name of the file in the image. -/
def shortName (arg : List UInt8) : List UInt8 :=
  if (baseName arg).head? = some 95 then (baseName arg).tail else baseName arg

/-- The body of the loop over the host files. -/
def addFile (f : HostFile) : M Unit :=
  if 47 ∈ baseName f.arg then
    Action.fail .assert
  else do
    let inum ← ialloc .file
    iappend ROOTINO (Dirent.toBytes ⟨inum, shortName f.arg⟩)
    Action.forEach (iappend inum) f.reads

/-- The root directory with its first two entries. -/
def makeRoot : M Unit := do
  let rootino ← ialloc .dir
  if rootino = ROOTINO then do
    iappend rootino (Dirent.toBytes ⟨rootino, [46]⟩)
    iappend rootino (Dirent.toBytes ⟨rootino, [46, 46]⟩)
  else
    Action.fail .assert

/-- The size of the root directory is rounded up to whole blocks. -/
def fixRootSize : M Unit := do
  let din ← rinode ROOTINO
  winode ROOTINO { din with size := UInt32.ofNat ((din.size.toNat / BSIZE + 1) * BSIZE) }

/-- The image after all sectors have been written with zeroes. `buf` is the superblock. -/
def start (buf : Block) : State where
  disk := Function.update (fun _ => Bytes.zero BSIZE) 1 buf
  sectors := FSSIZE
  freeinode := 1
  freeblock := nmeta

/-- `main`, from the zeroed image on. -/
def main (files : List HostFile) : M Unit := do
  makeRoot
  Action.forEach addFile files
  fixRootSize
  let used ← Action.read State.freeblock
  balloc used

end Xv6.Kernel.Mkfs
