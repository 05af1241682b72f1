import Xv6.Kernel.Param
import Xv6.Lib.Action
import Mathlib.Data.List.FinRange

/-!
# `Xv6.Kernel.Inode`: the structures of `fs.h` and `file.h`, and their bytes on disk

`struct dinode` is `Dinode`, and `readDinode` and `writeDinode` are its encoding at index
`k` of an inode block. The fields keep the widths of the source: `short` is `Int16` and
`uint` is `UInt32`, so every in-memory inode can be written and read back.

A directory entry is 16 bytes, an inode number and a name of at most `DIRSIZ` bytes. The
free bitmap holds one bit per block.

`FsState` is what the functions of `fs.c` share: the blocks as `bread` returns them, and the
inode table. `Panic` lists where the file system, the file layer and the system calls stop
the kernel, under the texts of the source.
-/

set_option autoImplicit false

namespace Xv6.Kernel

open Lib

/-! ### Constants of `param.h`, `fs.h` and `file.h` -/

/-- Block numbers in an indirect block. -/
def NINDIRECT : Nat := BSIZE / 4

/-- Maximum number of data blocks of a file. -/
def MAXFILE : Nat := NDIRECT + NINDIRECT

/-- Number of slots of the inode table. -/
def NINODE : Nat := 50

/-- Maximum major device number. -/
def NDEV : Nat := 10

def ROOTDEV : Nat := 1

def ROOTINO : Nat := 1

/-- Bytes of a name in a directory entry. -/
def DIRSIZ : Nat := 14

/-- `sizeof(struct dirent)`. -/
def DIRENTSIZE : Nat := 2 + DIRSIZ

/-! ### Inodes -/

/-- `inodetype`. A `short` on disk that is none of the four enumerators stays what it is:
`other k` is the value `k + 4`. -/
inductive InodeType where
  | none
  | dir
  | file
  | device
  | other (k : Fin 65532)
deriving DecidableEq, Repr

namespace InodeType

/-- The value of the enumerator, as the `short` on disk. -/
def toShort : InodeType → Nat
  | none => 0
  | dir => 1
  | file => 2
  | device => 3
  | other k => k.val + 4

/-- The type that a `short` on disk stands for. -/
def ofShort (n : Nat) : InodeType :=
  match n % 65536 with
  | 0 => none
  | 1 => dir
  | 2 => file
  | 3 => device
  | m + 4 => other (Fin.ofNat 65532 m)

end InodeType

/-- `struct dinode`. -/
structure Dinode where
  type : InodeType
  major : Int16
  minor : Int16
  nlink : Int16
  size : UInt32
  addrs : Fin (NDIRECT + 1) → UInt32
deriving DecidableEq

namespace Dinode

/-- Block number `addrs[i]`. -/
def addr (d : Dinode) (i : Nat) : Nat :=
  if h : i < NDIRECT + 1 then (d.addrs ⟨i, h⟩).toNat else 0

/-- Store a block number in `addrs[i]`. -/
def setAddr (d : Dinode) (i b : Nat) : Dinode :=
  { d with addrs := fun j => if j.val = i then UInt32.ofNat b else d.addrs j }

/-- The dinode `ialloc` leaves: zero, but for its type. -/
def fresh (type : InodeType) : Dinode :=
  { type, major := 0, minor := 0, nlink := 0, size := 0, addrs := fun _ => 0 }

end Dinode

/-- A `short` as the two bytes in memory. -/
def shortWord (x : Int16) : Nat := x.toUInt16.toNat

/-- Dinode number `k` of an inode block. -/
def readDinode (b : Block) (k : Nat) : Dinode where
  type := .ofShort (b.getWord 2 (DINODESIZE * k))
  major := Int16.ofNat (b.getWord 2 (DINODESIZE * k + 2))
  minor := Int16.ofNat (b.getWord 2 (DINODESIZE * k + 4))
  nlink := Int16.ofNat (b.getWord 2 (DINODESIZE * k + 6))
  size := UInt32.ofNat (b.getWord 4 (DINODESIZE * k + 8))
  addrs j := UInt32.ofNat (b.getWord 4 (DINODESIZE * k + 12 + 4 * j.val))

/-- Store dinode number `k` of an inode block. -/
def writeDinode (b : Block) (k : Nat) (d : Dinode) : Block :=
  let b := b.setWord 2 (DINODESIZE * k) d.type.toShort
  let b := b.setWord 2 (DINODESIZE * k + 2) (shortWord d.major)
  let b := b.setWord 2 (DINODESIZE * k + 4) (shortWord d.minor)
  let b := b.setWord 2 (DINODESIZE * k + 6) (shortWord d.nlink)
  let b := b.setWord 4 (DINODESIZE * k + 8) d.size.toNat
  b.setWords 4 (DINODESIZE * k + 12) d.addr (NDIRECT + 1)

/-- `struct inode`: the in-memory copy of a dinode. The sleep-lock is its held flag. -/
structure Inode extends Dinode where
  dev : Nat
  inum : Nat
  ref : Int
  locked : Bool
  valid : Bool
deriving DecidableEq

/-- A pointer into the inode table. -/
abbrev Ino := Fin NINODE

/-! ### The free bitmap -/

/-- Block of the free map that holds the bit of block `b`. -/
def BBLOCK (sb : Superblock) (b : Nat) : Nat := b / BPB + sb.bmapstart

/-- Block that holds inode `i`. -/
def IBLOCK (sb : Superblock) (i : Nat) : Nat := i / IPB + sb.inodestart

/-- Whether the bit of block `b` is set. -/
def bitAt (sb : Superblock) (d : Disk) (b : Nat) : Bool :=
  ((d (BBLOCK sb b)).get (b % BPB / 8)).toNat.testBit (b % BPB % 8)

/-- A bitmap block with the bit of block `b` set. -/
def setBit (bp : Block) (b : Nat) : Block :=
  let byte := (bp.get (b % BPB / 8)).toNat
  bp.setBytes (b % BPB / 8) [UInt8.ofNat (byte ||| 1 <<< (b % BPB % 8))]

/-- A bitmap block with the bit of block `b` cleared. -/
def clearBit (bp : Block) (b : Nat) : Block :=
  let byte := (bp.get (b % BPB / 8)).toNat
  bp.setBytes (b % BPB / 8) [UInt8.ofNat (byte &&& (255 ^^^ 1 <<< (b % BPB % 8)))]

/-- Inode `i` on the disk. -/
def dinodeAt (sb : Superblock) (d : Disk) (i : Nat) : Dinode :=
  readDinode (d (IBLOCK sb i)) (i % IPB)

/-! ### Directory entries -/

/-- `struct dirent`, as it lies in memory: the name fills its `DIRSIZ` bytes. -/
structure Dirent where
  inum : Nat
  name : List UInt8
deriving DecidableEq

/-- The entry that 16 bytes hold. -/
def Dirent.ofBytes (bs : List UInt8) : Dirent where
  inum := (bs.getD 0 0).toNat + 256 * (bs.getD 1 0).toNat
  name := bs.drop 2

/-- `strncpy` into a buffer of `n` bytes: cut at `n`, padded with NUL. -/
def strncpy (n : Nat) (t : List UInt8) : List UInt8 :=
  t.take n ++ List.replicate (n - t.length) 0

/-- The 16 bytes of an entry. -/
def Dirent.toBytes (de : Dirent) : List UInt8 :=
  [UInt8.ofNat de.inum, UInt8.ofNat (de.inum / 256)] ++ strncpy DIRSIZ de.name

/-- `strncmp`, on strings that end at a NUL or at the end of the list. -/
def strncmp : Nat → List UInt8 → List UInt8 → Int
  | 0, _, _ => 0
  | n + 1, p, q =>
    let x := p.headD 0
    let y := q.headD 0
    if x ≠ 0 ∧ x = y then strncmp n p.tail q.tail else (x.toNat : Int) - y.toNat

/-- `namecmp`. -/
def namecmp (s t : List UInt8) : Int := strncmp DIRSIZ s t

/-! ### The state and the panics -/

/-- What the functions of `fs.c` share: the blocks as `bread` returns them, and the inode
table. -/
structure FsState where
  disk : Disk
  itable : Ino → Inode

/-- Where the kernel stops. `deadlock` is the sleep of a process on a lock it holds
itself, and `fault` is the use of a null pointer, or of an index outside of an array. -/
inductive Panic where
  | ballocOutOfBlocks
  | freeingFreeBlock
  | bmapOutOfRange
  | igetNoInodes
  | ilock
  | ilockNoType
  | iunlock
  | dirlookupNotDir
  | dirlookupDead
  | dirlinkRead
  | isdiremptyReadi
  | unlinkNlink
  | unlinkWritei
  | fileup
  | fileclose
  | kfree
  | walk
  | mappagesAlign
  | mappagesSizeAlign
  | mappagesSize
  | mappagesRemap
  | uvmunmapAlign
  | uvmunmapWalk
  | uvmunmapNotMapped
  | uvmunmapNotLeaf
  | freewalkLeaf
  | uvmcopyPte
  | uvmcopyPage
  | uvmclear
  | uvmfirst
  | loadseg
  | initExiting
  | deadlock
  | fault
deriving DecidableEq, Repr

/-- A function of the file system. -/
abbrev FsM := Action FsState Panic

end Xv6.Kernel
