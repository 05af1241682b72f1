import Xv6.Lib.Bytes

/-!
# `Xv6.Kernel.Param`: the constants of `param.h` and `fs.h`, and the disk

The disk is a function from block numbers to blocks of `BSIZE` bytes. The superblock keeps
the fields of `struct superblock` in the order of the source.
-/

set_option autoImplicit false

namespace Xv6.Kernel

/-- Block size. -/
def BSIZE : Nat := 1024

/-- Maximum number of blocks any file-system operation writes. -/
def MAXOPBLOCKS : Nat := 10

/-- Maximum number of data blocks in the on-disk log. -/
def LOGBLOCKS : Nat := MAXOPBLOCKS * 3

/-- Size of the disk block cache. -/
def NBUF : Nat := MAXOPBLOCKS * 3

/-- Size of the file system in blocks. -/
def FSSIZE : Nat := 2000

/-- A disk block. -/
abbrev Block := Lib.Bytes BSIZE

/-- The disk, block by block. -/
abbrev Disk := Nat → Block

/-- `struct superblock`. -/
structure Superblock where
  magic : Nat
  size : Nat
  nblocks : Nat
  ninodes : Nat
  nlog : Nat
  logstart : Nat
  inodestart : Nat
  bmapstart : Nat
deriving DecidableEq, Repr

/-- The words of `struct superblock`, in order. -/
def Superblock.word (sb : Superblock) : Nat → Nat
  | 0 => sb.magic
  | 1 => sb.size
  | 2 => sb.nblocks
  | 3 => sb.ninodes
  | 4 => sb.nlog
  | 5 => sb.logstart
  | 6 => sb.inodestart
  | 7 => sb.bmapstart
  | _ => 0

/-- A block that begins with the superblock: `memmove(buf, &sb, sizeof(sb))`. -/
def Superblock.toBlock (sb : Superblock) : Block :=
  (Lib.Bytes.zero BSIZE).setWords 4 0 sb.word 8

/-- The superblock at the begin of a block: `memmove(sb, bp->data, sizeof(*sb))`. -/
def Superblock.ofBlock (b : Block) : Superblock where
  magic := b.getWord 4 0
  size := b.getWord 4 4
  nblocks := b.getWord 4 8
  ninodes := b.getWord 4 12
  nlog := b.getWord 4 16
  logstart := b.getWord 4 20
  inodestart := b.getWord 4 24
  bmapstart := b.getWord 4 28

/-! ### The layout that `mkfs` writes -/

/-- Number of direct block addresses in an inode. -/
def NDIRECT : Nat := 12

/-- `sizeof(struct dinode)`: four `short`s, a `uint` and `NDIRECT + 1` block addresses. -/
def DINODESIZE : Nat := 4 * 2 + 4 + (NDIRECT + 1) * 4

/-- Inodes per block. -/
def IPB : Nat := BSIZE / DINODESIZE

/-- Bitmap bits per block. -/
def BPB : Nat := BSIZE * 8

/-- Number of inodes of an image. -/
def NINODES : Nat := 200

def FSMAGIC : Nat := 0x10203040

namespace Mkfs

def nbitmap : Nat := FSSIZE / BPB + 1

def ninodeblocks : Nat := NINODES / IPB + 1

def nlog : Nat := LOGBLOCKS

/-- Number of metadata blocks: boot, superblock, log, inodes, bitmap. -/
def nmeta : Nat := 2 + nlog + ninodeblocks + nbitmap

/-- The superblock of every image that `mkfs` writes. -/
def superblock : Superblock where
  magic := FSMAGIC
  size := FSSIZE
  nblocks := FSSIZE - nmeta
  ninodes := NINODES
  nlog := nlog
  logstart := 2
  inodestart := 2 + nlog
  bmapstart := 2 + nlog + ninodeblocks

end Mkfs

/-- A 32-bit word read as a C `int`. -/
def int32 (w : Nat) : Int := if w < 2 ^ 31 then (w : Int) else (w : Int) - 2 ^ 32

end Xv6.Kernel
