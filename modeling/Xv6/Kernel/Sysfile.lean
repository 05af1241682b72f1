import Xv6.Kernel.Proc

/-!
# `Xv6.Kernel.Sysfile`: the system calls of `sysfile.c`

A call is made by the process `p`. Its arguments come decoded: a path is `none` when `argstr`
fails. `begin_op` and `end_op` do not appear, since each call is one step.

`create`, and the calls that only work on the file system, are functions of `FsM`.
-/

set_option autoImplicit false

namespace Xv6.Kernel

open Lib

def O_RDONLY : UInt32 := 0x000

def O_WRONLY : UInt32 := 0x001

def O_RDWR : UInt32 := 0x002

def O_CREATE : UInt32 := 0x200

def O_TRUNC : UInt32 := 0x400

/-- The name `.`. -/
def dot : List UInt8 := [46]

/-- The name `..`. -/
def dotdot : List UInt8 := [46, 46]

/-! ### The file system -/

section
variable (sb : Superblock)

/-- `isdirempty`. -/
def isdirempty (dp : Ino) : FsM Bool := do
  let dip ← inode dp
  let r ← Action.firstSome (fun off => do
    let de ← readDirent sb dp off .isdiremptyReadi
    pure (if de.inum ≠ 0 then some () else none)) ((direntOffs dip.size.toNat).drop 2)
  pure r.isNone

/-- The label `fail` of `create`. -/
def createFail (dp ip : Ino) : FsM (Option Ino) := do
  setInode ip fun n => { n with nlink := 0 }
  iupdate sb ip
  iunlockput sb ip
  iunlockput sb dp
  pure none

/-- The two entries that `create` gives to a new directory: whether it succeeds. -/
def createDots (dp ip : Ino) : FsM Bool := do
  let n ← inode ip
  let r ← dirlink sb ip dot n.inum
  if r < 0 then
    pure false
  else do
    let d ← inode dp
    let r ← dirlink sb ip dotdot d.inum
    pure (decide (0 ≤ r))

/-- `create`, from the allocated inode on. -/
def createLinked (dp ip : Ino) (name : List UInt8) (type : InodeType) (major minor : Int16) :
    FsM (Option Ino) := do
  ilock sb ip
  setInode ip fun n => { n with major := major, minor := minor, nlink := 1 }
  iupdate sb ip
  let ok ← (if type = .dir then createDots sb dp ip else pure true)
  if ok then do
    let n ← inode ip
    let r ← dirlink sb dp name n.inum
    if r < 0 then
      createFail sb dp ip
    else do
      Action.when (type = .dir) (do
        setInode dp fun n => { n with nlink := n.nlink + 1 }
        iupdate sb dp)
      iunlockput sb dp
      pure (some ip)
  else
    createFail sb dp ip

/-- `create`: the new inode, or the file that has the name, locked. -/
def create (cwd : Option Ino) (path : List UInt8) (type : InodeType) (major minor : Int16) :
    FsM (Option Ino) := do
  let r ← nameiparent sb cwd path
  match r with
  | none => pure none
  | some (dp, name) => do
      ilock sb dp
      let r ← dirlookup sb dp name
      match r with
      | some (ip, _) => do
          iunlockput sb dp
          ilock sb ip
          let n ← inode ip
          if type = .file ∧ (n.type = .file ∨ n.type = .device) then
            pure (some ip)
          else do
            iunlockput sb ip
            pure none
      | none => do
          let d ← inode dp
          let r ← ialloc sb d.dev type
          match r with
          | none => do
              iunlockput sb dp
              pure none
          | some ip => createLinked sb dp ip name type major minor

/-- The label `bad` of `sys_link`. -/
def linkBad (ip : Ino) : FsM Int := do
  ilock sb ip
  setInode ip fun n => { n with nlink := n.nlink - 1 }
  iupdate sb ip
  iunlockput sb ip
  pure (-1)

/-- `sys_link`. -/
def sysLink (cwd : Option Ino) (old new : Option (List UInt8)) : FsM Int :=
  match old, new with
  | some old, some new => do
      let r ← namei sb cwd old
      match r with
      | none => pure (-1)
      | some ip => do
          ilock sb ip
          let n ← inode ip
          if n.type = .dir then do
            iunlockput sb ip
            pure (-1)
          else do
            setInode ip fun n => { n with nlink := n.nlink + 1 }
            iupdate sb ip
            iunlock ip
            let r ← nameiparent sb cwd new
            match r with
            | none => linkBad sb ip
            | some (dp, name) => do
                ilock sb dp
                let d ← inode dp
                let n ← inode ip
                let r ← (if d.dev ≠ n.dev then pure (-1) else dirlink sb dp name n.inum)
                if r < 0 then do
                  iunlockput sb dp
                  linkBad sb ip
                else do
                  iunlockput sb dp
                  iput sb ip
                  pure 0
  | _, _ => pure (-1)

/-- `sys_unlink`, from the entry found on. -/
def unlinkEntry (dp ip : Ino) (off : Nat) : FsM Int := do
  ilock sb ip
  let n ← inode ip
  if n.nlink < 1 then
    Action.fail .unlinkNlink
  else do
    let full ← (if n.type = .dir then do
        let e ← isdirempty sb ip
        pure (!e)
      else
        pure false)
    if full then do
      iunlockput sb ip
      iunlockput sb dp
      pure (-1)
    else do
      let w ← writei sb dp (kernelSrc (List.replicate DIRENTSIZE 0)) off DIRENTSIZE
      if w ≠ DIRENTSIZE then
        Action.fail .unlinkWritei
      else do
        let n ← inode ip
        Action.when (n.type = .dir) (do
          setInode dp fun n => { n with nlink := n.nlink - 1 }
          iupdate sb dp)
        iunlockput sb dp
        setInode ip fun n => { n with nlink := n.nlink - 1 }
        iupdate sb ip
        iunlockput sb ip
        pure 0

/-- `sys_unlink`. -/
def sysUnlink (cwd : Option Ino) (path : Option (List UInt8)) : FsM Int :=
  match path with
  | none => pure (-1)
  | some path => do
      let r ← nameiparent sb cwd path
      match r with
      | none => pure (-1)
      | some (dp, name) => do
          ilock sb dp
          if namecmp name dot = 0 ∨ namecmp name dotdot = 0 then do
            iunlockput sb dp
            pure (-1)
          else do
            let r ← dirlookup sb dp name
            match r with
            | none => do
                iunlockput sb dp
                pure (-1)
            | some (ip, off) => unlinkEntry sb dp ip off

/-- `sys_mkdir`. -/
def sysMkdir (cwd : Option Ino) (path : Option (List UInt8)) : FsM Int :=
  match path with
  | none => pure (-1)
  | some path => do
      let r ← create sb cwd path .dir 0 0
      match r with
      | none => pure (-1)
      | some ip => do
          iunlockput sb ip
          pure 0

/-- `sys_mknod`. The numbers are cut to `short`. -/
def sysMknod (cwd : Option Ino) (path : Option (List UInt8)) (major minor : Int32) : FsM Int :=
  match path with
  | none => pure (-1)
  | some path => do
      let r ← create sb cwd path .device major.toInt16 minor.toInt16
      match r with
      | none => pure (-1)
      | some ip => do
          iunlockput sb ip
          pure 0

/-- The first half of `sys_open`: the inode of the path, locked. -/
def openInode (cwd : Option Ino) (path : List UInt8) (omode : UInt32) : FsM (Option Ino) := do
  let r ← (if omode &&& O_CREATE ≠ 0 then
      create sb cwd path .file 0 0
    else do
      let r ← namei sb cwd path
      match r with
      | none => pure none
      | some ip => do
          ilock sb ip
          let n ← inode ip
          if n.type = .dir ∧ omode ≠ O_RDONLY then do
            iunlockput sb ip
            pure none
          else
            pure (some ip))
  match r with
  | none => pure none
  | some ip => do
      let n ← inode ip
      if n.type = .device ∧ (n.major.toInt < 0 ∨ n.major.toInt ≥ NDEV) then do
        iunlockput sb ip
        pure none
      else
        pure (some ip)

/-- The end of `sys_open`: the file is cut if the mode says so, and unlocked. -/
def openDone (ip : Ino) (omode : UInt32) : FsM Unit := do
  let n ← inode ip
  Action.when (omode &&& O_TRUNC ≠ 0 ∧ n.type = .file) (itrunc sb ip)
  iunlock ip

end

/-! ### Descriptors -/

/-- `argfd`: the descriptor and its file. -/
def argfd (p : ProcPtr) (fd : Int32) : SysM (Option (Fd × FilePtr)) := do
  let q ← process p
  if h : 0 ≤ fd.toInt ∧ fd.toInt.toNat < NOFILE then
    pure ((q.ofile ⟨fd.toInt.toNat, h.2⟩).map fun f => (⟨fd.toInt.toNat, h.2⟩, f))
  else
    pure none

/-- `fdalloc`. -/
def fdalloc (p : ProcPtr) (f : FilePtr) : SysM (Option Fd) := do
  let q ← process p
  match (List.finRange NOFILE).find? fun fd => q.ofile fd = none with
  | some fd => do
      setOfile p fd (some f)
      pure (some fd)
  | none => pure none

/-- `sys_dup`. It returns 0, not the new descriptor. -/
def sysDup (p : ProcPtr) (fd : Int32) : SysM Int := do
  let r ← argfd p fd
  match r with
  | none => pure (-1)
  | some (_, f) => do
      let fd ← fdalloc p f
      match fd with
      | none => pure (-1)
      | some _ => do
          let _ ← fileup f
          pure 0

section
variable (c : SysParam)

/-- `sys_close`. -/
def sysClose (p : ProcPtr) (fd : Int32) : SysM Int := do
  let r ← argfd p fd
  match r with
  | none => pure (-1)
  | some (fd, f) => do
      setOfile p fd none
      fileclose c f
      pure 0

/-- What `sys_open` stores in a new file. -/
def openFile (n : Inode) (ip : Ino) (omode : UInt32) (f : File) : File :=
  { f with
    type := if n.type = .device then .device else .inode
    major := if n.type = .device then n.major else f.major
    off := if n.type = .device then f.off else 0
    ip := some ip
    isReadable := omode &&& O_WRONLY = 0
    isWritable := omode &&& O_WRONLY ≠ 0 ∨ omode &&& O_RDWR ≠ 0 }

/-- `sys_open`. -/
def sysOpen (p : ProcPtr) (path : Option (List UInt8)) (omode : UInt32) : SysM Int :=
  match path with
  | none => pure (-1)
  | some path => do
      let q ← process p
      let r ← onFs (openInode c.sb q.cwd path omode)
      match r with
      | none => pure (-1)
      | some ip => do
          let f ← filealloc
          match f with
          | none => do
              onFs (iunlockput c.sb ip)
              pure (-1)
          | some f => do
              let fd ← fdalloc p f
              match fd with
              | none => do
                  fileclose c f
                  onFs (iunlockput c.sb ip)
                  pure (-1)
              | some fd => do
                  let n ← onFs (inode ip)
                  setFile f (openFile n ip omode)
                  onFs (openDone c.sb ip omode)
                  pure fd.val

/-- The failing exits of `sys_pipe`: the descriptors taken are cleared, and both ends are
closed. -/
def pipeFail (p : ProcPtr) (rf wf : FilePtr) (fds : List Fd) : SysM Int := do
  Action.forEach (fun fd => setOfile p fd none) fds
  fileclose c rf
  fileclose c wf
  pure (-1)

/-- `sys_pipe`. -/
def sysPipe (p : ProcPtr) (fdarray : Nat) : SysM Int := do
  let r ← pipealloc c
  match r with
  | none => pure (-1)
  | some (rf, wf) => do
      let fd0 ← fdalloc p rf
      match fd0 with
      | none => pipeFail c p rf wf []
      | some fd0 => do
          let fd1 ← fdalloc p wf
          match fd1 with
          | none => pipeFail c p rf wf [fd0]
          | some fd1 => do
              let q ← process p
              let r ← onMem (copyout q.pagetable fdarray (intBytes (Int32.ofNat fd0.val)))
              if r < 0 then
                pipeFail c p rf wf [fd0, fd1]
              else do
                let r ← onMem
                  (copyout q.pagetable ((fdarray + 4) % 2 ^ 64) (intBytes (Int32.ofNat fd1.val)))
                if r < 0 then
                  pipeFail c p rf wf [fd0, fd1]
                else
                  pure 0

/-- `sys_chdir`. -/
def sysChdir (p : ProcPtr) (path : Option (List UInt8)) : SysM Int :=
  match path with
  | none => pure (-1)
  | some path => do
      let q ← process p
      let r ← onFs (namei c.sb q.cwd path)
      match r with
      | none => pure (-1)
      | some ip => do
          onFs (ilock c.sb ip)
          let n ← onFs (inode ip)
          if n.type ≠ .dir then do
            onFs (iunlockput c.sb ip)
            pure (-1)
          else do
            onFs (iunlock ip)
            iputPtr c q.cwd
            setProcess p fun q => { q with cwd := some ip }
            pure 0

end

end Xv6.Kernel
