import Xv6.Proofs.Fs.Footprint

/-!
# `Xv6.Proofs.Sys.Panics`: which panics a layer can raise

`Panic.layer` sorts the panics by the layer whose functions raise them. A function of the file
system stops the kernel with a panic of the file system only (`FsPanic`), and a function of
the memory with a panic of the memory only (`VmPanic`). So a panic of the file table in a
system call comes from the file table.

Each function has one lemma, assembled from those of its callees by the rules of `Throws`.
-/

set_option autoImplicit false

namespace Xv6.Proofs.Sys

open Lib Lib.Action Kernel

/-- The layers of the kernel that panic. `fault` and `deadlock` can stop any of them. -/
inductive Layer where
  | fs
  | file
  | mem
  | proc
  | any
deriving DecidableEq, Repr

end Xv6.Proofs.Sys

namespace Xv6.Kernel

open Proofs.Sys

/-- The layer that raises the panic. -/
def Panic.layer : Panic → Layer
  | ballocOutOfBlocks | freeingFreeBlock | bmapOutOfRange | igetNoInodes | ilock | ilockNoType
  | iunlock | dirlookupNotDir | dirlookupDead | dirlinkRead | isdiremptyReadi | unlinkNlink
  | unlinkWritei => .fs
  | fileup | fileclose => .file
  | kfree | walk | mappagesAlign | mappagesSizeAlign | mappagesSize | mappagesRemap
  | uvmunmapAlign | uvmunmapWalk | uvmunmapNotMapped | uvmunmapNotLeaf | freewalkLeaf
  | uvmcopyPte | uvmcopyPage | uvmclear | uvmfirst | loadseg => .mem
  | initExiting => .proc
  | deadlock | fault => .any

end Xv6.Kernel

namespace Xv6.Proofs.Sys

open Lib Lib.Action Kernel

/-- A panic of the file system. -/
def FsPanic (e : Panic) : Prop := e.layer = .fs ∨ e.layer = .any

/-- A panic of the memory. -/
def VmPanic (e : Panic) : Prop := e.layer = .mem ∨ e.layer = .any

instance (e : Panic) : Decidable (FsPanic e) := inferInstanceAs (Decidable (_ ∨ _))

instance (e : Panic) : Decidable (VmPanic e) := inferInstanceAs (Decidable (_ ∨ _))

/-! ### The file system -/

section Fs
variable (sb : Superblock)

/-- What works on the blocks of one inode stops with a panic about them. -/
theorem throws_of_within {α : Type} {x : FsM α} (h : Moves Fs.Within Fs.BlockPanic x) :
    Throws FsPanic x := by
  refine ⟨fun s => wp_mono (h.run s) (fun _ _ _ => trivial) fun e he => ?_⟩
  unfold Fs.BlockPanic at he
  split at he
  all_goals first
    | exact he.elim
    | exact Or.inl rfl

theorem throws_inode (ip : Ino) : Throws FsPanic (inode ip) := Throws.read

theorem throws_setInode (ip : Ino) (f : Inode → Inode) : Throws FsPanic (setInode ip f) :=
  Throws.modify

theorem throws_bread (b : Nat) : Throws FsPanic (bread b) := Throws.read

theorem throws_logWrite (b : Nat) (blk : Block) : Throws FsPanic (logWrite b blk) :=
  Throws.modify

theorem throws_iget (dev inum : Nat) : Throws FsPanic (iget dev inum) := by
  refine Throws.bind Throws.read ?_
  intro t
  split
  · exact Throws.bind (throws_setInode _ _) fun _ => Throws.pure
  · split
    · exact Throws.bind (throws_setInode _ _) fun _ => Throws.pure
    · exact Throws.fail (by decide)

theorem throws_ialloc (dev : Nat) (type : InodeType) : Throws FsPanic (ialloc sb dev type) := by
  refine Throws.bind Throws.read ?_
  intro d
  split
  · exact Throws.bind (throws_logWrite _ _) fun _ =>
      Throws.bind (throws_iget _ _) fun _ => Throws.pure
  · exact Throws.pure

theorem throws_idup (ip : Ino) : Throws FsPanic (idup ip) :=
  Throws.bind (throws_setInode _ _) fun _ => Throws.pure

theorem throws_iupdate (ip : Ino) : Throws FsPanic (iupdate sb ip) :=
  throws_of_within (Fs.within_iupdate sb ip)

theorem throws_acquiresleep (ip : Ino) : Throws FsPanic (acquiresleep ip) :=
  Throws.bind (throws_inode ip) fun _ =>
    Throws.ite (Throws.fail (by decide)) (throws_setInode _ _)

theorem throws_ilock (ip : Ino) : Throws FsPanic (ilock sb ip) := by
  refine Throws.bind (throws_inode ip) fun dip => Throws.ite (Throws.fail (by decide)) ?_
  refine Throws.bind (throws_acquiresleep ip) fun _ => Throws.ite Throws.pure ?_
  refine Throws.bind (throws_bread _) fun bp => ?_
  exact Throws.bind (throws_setInode _ _) fun _ =>
    Throws.ite (Throws.fail (by decide)) Throws.pure

theorem throws_iunlock (ip : Ino) : Throws FsPanic (iunlock ip) :=
  Throws.bind (throws_inode ip) fun _ =>
    Throws.ite (Throws.fail (by decide)) (throws_setInode _ _)

theorem throws_itrunc (ip : Ino) : Throws FsPanic (itrunc sb ip) :=
  throws_of_within (Fs.within_itrunc sb ip)

theorem throws_ifree (ip : Ino) : Throws FsPanic (ifree sb ip) :=
  Throws.bind (throws_acquiresleep ip) fun _ =>
    Throws.bind (throws_itrunc sb ip) fun _ =>
      Throws.bind (throws_setInode _ _) fun _ =>
        Throws.bind (throws_iupdate sb ip) fun _ => throws_setInode _ _

theorem throws_iput (ip : Ino) : Throws FsPanic (iput sb ip) :=
  Throws.bind (throws_inode ip) fun _ =>
    Throws.ite (Throws.bind (throws_ifree sb ip) fun _ => throws_setInode _ _)
      (throws_setInode _ _)

theorem throws_iunlockput (ip : Ino) : Throws FsPanic (iunlockput sb ip) :=
  Throws.bind (throws_iunlock ip) fun _ => throws_iput sb ip

theorem throws_dirlookup (dp : Ino) (name : List UInt8) :
    Throws FsPanic (dirlookup sb dp name) := by
  refine Throws.bind (throws_inode dp) fun dip => Throws.ite (Throws.fail (by decide)) ?_
  refine Throws.firstSome (fun off => ?_) _
  refine Throws.bind (throws_of_within (Fs.within_readDirent sb dp off trivial)) fun de => ?_
  exact Throws.ite Throws.pure
    (Throws.ite (Throws.bind (throws_iget _ _) fun _ => Throws.pure) Throws.pure)

theorem throws_dirlink (dp : Ino) (name : List UInt8) (inum : Nat) :
    Throws FsPanic (dirlink sb dp name inum) := by
  refine Throws.bind (throws_dirlookup sb dp name) ?_
  intro r
  cases r with
  | none =>
    exact Throws.bind (throws_of_within (Fs.within_dirlinkSlot sb dp)) fun _ =>
      Throws.bind (throws_of_within (Fs.within_writei sb dp _ _ _)) fun _ => Throws.pure
  | some r => exact Throws.bind (throws_iput sb r.1) fun _ => Throws.pure

theorem throws_namexLoop (parent : Bool) (fuel : Nat) (ip : Ino) (path name : List UInt8) :
    Throws FsPanic (namexLoop sb parent fuel ip path name) := by
  induction fuel generalizing ip path name with
  | zero => exact Throws.pure
  | succ fuel ih =>
    rw [namexLoop]
    split
    · exact Throws.ite (Throws.bind (throws_iput sb ip) fun _ => Throws.pure) Throws.pure
    · refine Throws.bind (throws_ilock sb ip) fun _ => ?_
      refine Throws.bind (throws_inode ip) fun dip => Throws.ite ?_ (Throws.ite ?_ ?_)
      · exact Throws.bind (throws_iunlockput sb ip) fun _ => Throws.pure
      · exact Throws.bind (throws_iunlock ip) fun _ => Throws.pure
      · refine Throws.bind (throws_dirlookup sb ip _) ?_
        intro next
        cases next with
        | none => exact Throws.bind (throws_iunlock ip) fun _ => Throws.pure
        | some next => exact Throws.bind (throws_iunlockput sb ip) fun _ => ih _ _ _

theorem throws_namexStart (cwd : Option Ino) (path : List UInt8) :
    Throws FsPanic (namexStart cwd path) := by
  refine Throws.ite (throws_iget _ _) ?_
  cases cwd with
  | none => exact Throws.fail (by decide)
  | some cwd => exact throws_idup cwd

theorem throws_namex (cwd : Option Ino) (path : List UInt8) (parent : Bool) :
    Throws FsPanic (namex sb cwd path parent) :=
  Throws.bind (throws_namexStart cwd path) fun _ => throws_namexLoop sb parent _ _ _ _

theorem throws_namei (cwd : Option Ino) (path : List UInt8) :
    Throws FsPanic (namei sb cwd path) :=
  Throws.bind (throws_namex sb cwd path false) fun _ => Throws.pure

theorem throws_nameiparent (cwd : Option Ino) (path : List UInt8) :
    Throws FsPanic (nameiparent sb cwd path) :=
  Throws.bind (throws_namex sb cwd path true) fun _ => Throws.pure

theorem throws_createFail (dp ip : Ino) : Throws FsPanic (createFail sb dp ip) :=
  Throws.bind (throws_setInode _ _) fun _ =>
    Throws.bind (throws_iupdate sb ip) fun _ =>
      Throws.bind (throws_iunlockput sb ip) fun _ =>
        Throws.bind (throws_iunlockput sb dp) fun _ => Throws.pure

theorem throws_createDots (dp ip : Ino) : Throws FsPanic (createDots sb dp ip) := by
  refine Throws.bind (throws_inode ip) fun n => ?_
  refine Throws.bind (throws_dirlink sb ip _ _) fun r => Throws.ite Throws.pure ?_
  exact Throws.bind (throws_inode dp) fun _ =>
    Throws.bind (throws_dirlink sb ip _ _) fun _ => Throws.pure

theorem throws_createLinked (dp ip : Ino) (name : List UInt8) (type : InodeType)
    (major minor : Int16) : Throws FsPanic (createLinked sb dp ip name type major minor) := by
  refine Throws.bind (throws_ilock sb ip) fun _ => ?_
  refine Throws.bind (throws_setInode _ _) fun _ => ?_
  refine Throws.bind (throws_iupdate sb ip) fun _ => ?_
  refine Throws.bind (Throws.ite (throws_createDots sb dp ip) Throws.pure) fun ok => ?_
  refine Throws.ite ?_ (throws_createFail sb dp ip)
  refine Throws.bind (throws_inode ip) fun n => ?_
  refine Throws.bind (throws_dirlink sb dp name _) fun r => ?_
  refine Throws.ite (throws_createFail sb dp ip) ?_
  refine Throws.bind (Throws.when ?_) fun _ => ?_
  · exact Throws.bind (throws_setInode _ _) fun _ => throws_iupdate sb dp
  · exact Throws.bind (throws_iunlockput sb dp) fun _ => Throws.pure

theorem throws_create (cwd : Option Ino) (path : List UInt8) (type : InodeType)
    (major minor : Int16) : Throws FsPanic (create sb cwd path type major minor) := by
  refine Throws.bind (throws_nameiparent sb cwd path) ?_
  intro r
  cases r with
  | none => exact Throws.pure
  | some r =>
    refine Throws.bind (throws_ilock sb r.1) fun _ => ?_
    refine Throws.bind (throws_dirlookup sb r.1 r.2) ?_
    intro q
    cases q with
    | some q =>
      refine Throws.bind (throws_iunlockput sb r.1) fun _ => ?_
      refine Throws.bind (throws_ilock sb q.1) fun _ => ?_
      refine Throws.bind (throws_inode q.1) fun n => Throws.ite Throws.pure ?_
      exact Throws.bind (throws_iunlockput sb q.1) fun _ => Throws.pure
    | none =>
      refine Throws.bind (throws_inode r.1) fun d => ?_
      refine Throws.bind (throws_ialloc sb _ _) ?_
      intro ip
      cases ip with
      | none => exact Throws.bind (throws_iunlockput sb r.1) fun _ => Throws.pure
      | some ip => exact throws_createLinked sb r.1 ip _ _ _ _

theorem throws_openInode (cwd : Option Ino) (path : List UInt8) (omode : UInt32) :
    Throws FsPanic (openInode sb cwd path omode) := by
  refine Throws.bind (Throws.ite (throws_create sb cwd path _ _ _) ?_) ?_
  · refine Throws.bind (throws_namei sb cwd path) ?_
    intro r
    cases r with
    | none => exact Throws.pure
    | some ip =>
      refine Throws.bind (throws_ilock sb ip) fun _ => ?_
      refine Throws.bind (throws_inode ip) fun n => Throws.ite ?_ Throws.pure
      exact Throws.bind (throws_iunlockput sb ip) fun _ => Throws.pure
  · intro r
    cases r with
    | none => exact Throws.pure
    | some ip =>
      refine Throws.bind (throws_inode ip) fun n => Throws.ite ?_ Throws.pure
      exact Throws.bind (throws_iunlockput sb ip) fun _ => Throws.pure

theorem throws_openDone (ip : Ino) (omode : UInt32) : Throws FsPanic (openDone sb ip omode) :=
  Throws.bind (throws_inode ip) fun _ =>
    Throws.bind (Throws.when (throws_itrunc sb ip)) fun _ => throws_iunlock ip

end Fs

/-! ### The memory -/

section Mem
variable (kend : Nat)

theorem throws_kalloc : Throws VmPanic kalloc :=
  Throws.bind Throws.read fun _ => Throws.ite
    (Throws.bind Throws.modify fun _ => Throws.bind Throws.modify fun _ => Throws.pure)
    Throws.pure

theorem throws_kfree (pa : Nat) : Throws VmPanic (kfree kend pa) :=
  Throws.ite (Throws.fail (by decide)) (Throws.bind Throws.modify fun _ => Throws.modify)

theorem throws_walkLoop (alloc : Bool) (va level pagetable : Nat) :
    Throws VmPanic (walkLoop alloc va level pagetable) := by
  induction level generalizing pagetable with
  | zero => exact Throws.pure
  | succ level ih =>
    refine Throws.bind Throws.read fun pte => Throws.ite (ih _) ?_
    refine Throws.ite Throws.pure ?_
    refine Throws.bind throws_kalloc fun pg => Throws.ite Throws.pure ?_
    exact Throws.bind Throws.modify fun _ => Throws.bind Throws.modify fun _ => ih _

theorem throws_walk (pagetable va : Nat) (alloc : Bool) :
    Throws VmPanic (walk pagetable va alloc) :=
  Throws.ite (Throws.fail (by decide)) (throws_walkLoop alloc va 2 pagetable)

theorem throws_walkaddr (pagetable va : Nat) : Throws VmPanic (walkaddr pagetable va) := by
  refine Throws.ite Throws.pure ?_
  refine Throws.bind (throws_walk pagetable va false) ?_
  intro r
  cases r with
  | none => exact Throws.pure
  | some a =>
    exact Throws.bind Throws.read fun _ =>
      Throws.ite Throws.pure (Throws.ite Throws.pure Throws.pure)

theorem throws_mappagesLoop (pagetable perm n a pa : Nat) :
    Throws VmPanic (mappagesLoop pagetable perm n a pa) := by
  induction n generalizing a pa with
  | zero => exact Throws.pure
  | succ n ih =>
    refine Throws.bind (throws_walk pagetable a true) ?_
    intro r
    cases r with
    | none => exact Throws.pure
    | some at_ =>
      refine Throws.bind Throws.read fun pte => Throws.ite (Throws.fail (by decide)) ?_
      exact Throws.bind Throws.modify fun _ => ih _ _

theorem throws_mappages (pagetable va pa sz perm : Nat) :
    Throws VmPanic (mappages pagetable va pa sz perm) :=
  Throws.ite (Throws.fail (by decide)) (Throws.ite (Throws.fail (by decide))
    (Throws.ite (Throws.fail (by decide)) (throws_mappagesLoop pagetable perm _ _ _)))

theorem throws_uvmcreate : Throws VmPanic uvmcreate :=
  Throws.bind throws_kalloc fun _ =>
    Throws.ite Throws.pure (Throws.bind Throws.modify fun _ => Throws.pure)

theorem throws_copyoutLoop (pagetable fuel dstva : Nat) (src : List UInt8) :
    Throws VmPanic (copyoutLoop pagetable fuel dstva src) := by
  induction fuel generalizing dstva src with
  | zero => exact Throws.pure
  | succ fuel ih =>
    refine Throws.ite Throws.pure ?_
    refine Throws.bind (throws_walkaddr pagetable _) fun pa0 => Throws.ite Throws.pure ?_
    exact Throws.bind Throws.modify fun _ => ih _ _

theorem throws_copyout (pagetable dstva : Nat) (src : List UInt8) :
    Throws VmPanic (copyout pagetable dstva src) :=
  throws_copyoutLoop pagetable _ _ _

theorem throws_uvmunmapLoop (pagetable : Nat) (do_free : Bool) (n a : Nat) :
    Throws VmPanic (uvmunmapLoop kend pagetable do_free n a) := by
  induction n generalizing a with
  | zero => exact Throws.pure
  | succ n ih =>
    refine Throws.bind (throws_walk pagetable a false) ?_
    intro r
    cases r with
    | none => exact Throws.fail (by decide)
    | some at_ =>
      refine Throws.bind Throws.read fun pte => Throws.ite (Throws.fail (by decide)) ?_
      refine Throws.ite (Throws.fail (by decide)) ?_
      refine Throws.bind (Throws.when (throws_kfree kend _)) fun _ => ?_
      exact Throws.bind Throws.modify fun _ => ih _

theorem throws_uvmunmap (pagetable va npages : Nat) (do_free : Bool) :
    Throws VmPanic (uvmunmap kend pagetable va npages do_free) :=
  Throws.ite (Throws.fail (by decide)) (throws_uvmunmapLoop kend pagetable do_free _ _)

theorem throws_freewalk (depth pagetable : Nat) :
    Throws VmPanic (freewalk kend depth pagetable) := by
  induction depth generalizing pagetable with
  | zero => exact Throws.fail (by decide)
  | succ depth ih =>
    rw [freewalk]
    refine Throws.bind (Throws.forEach (fun i => ?_) _) fun _ => throws_kfree kend _
    refine Throws.bind Throws.read fun pte => Throws.ite ?_ Throws.pure
    exact Throws.ite (Throws.fail (by decide))
      (Throws.bind (ih _) fun _ => Throws.modify)

theorem throws_uvmfree (pagetable sz : Nat) : Throws VmPanic (uvmfree kend pagetable sz) := by
  rw [uvmfree]
  exact Throws.bind (Throws.when (throws_uvmunmap kend _ _ _ _)) fun _ =>
    throws_freewalk kend 3 pagetable

theorem throws_uvmcopyLoop (old new n i : Nat) :
    Throws VmPanic (uvmcopyLoop kend old new n i) := by
  induction n generalizing i with
  | zero => exact Throws.pure
  | succ n ih =>
    refine Throws.bind (throws_walk old i false) ?_
    intro r
    cases r with
    | none => exact Throws.fail (by decide)
    | some at_ =>
      refine Throws.bind Throws.read fun pte => Throws.ite (Throws.fail (by decide)) ?_
      refine Throws.bind throws_kalloc fun mem => Throws.ite ?_ ?_
      · exact Throws.bind (throws_uvmunmap kend _ _ _ _) fun _ => Throws.pure
      · refine Throws.bind Throws.modify fun _ => ?_
        refine Throws.bind (throws_mappages _ _ _ _ _) fun r => Throws.ite ?_ (ih _)
        exact Throws.bind (throws_kfree kend mem) fun _ =>
          Throws.bind (throws_uvmunmap kend _ _ _ _) fun _ => Throws.pure

theorem throws_uvmcopy (old new sz : Nat) : Throws VmPanic (uvmcopy kend old new sz) :=
  throws_uvmcopyLoop kend old new _ _

theorem throws_copyTrapframe (dst src : Nat) : Throws VmPanic (copyTrapframe dst src) :=
  Throws.bind Throws.modify fun _ => Throws.modify

theorem throws_procPagetable (c : SysParam) (trapframe : Nat) :
    Throws VmPanic (procPagetable c trapframe) := by
  refine Throws.bind throws_uvmcreate fun pagetable => Throws.ite Throws.pure ?_
  refine Throws.bind (throws_mappages _ _ _ _ _) fun r => Throws.ite ?_ ?_
  · exact Throws.bind (throws_uvmfree _ _ _) fun _ => Throws.pure
  · refine Throws.bind (throws_mappages _ _ _ _ _) fun r => Throws.ite ?_ Throws.pure
    exact Throws.bind (throws_uvmunmap _ _ _ _ _) fun _ =>
      Throws.bind (throws_uvmfree _ _ _) fun _ => Throws.pure

theorem throws_procFreepagetable (c : SysParam) (pagetable sz : Nat) :
    Throws VmPanic (procFreepagetable c pagetable sz) :=
  Throws.bind (throws_uvmunmap _ _ _ _ _) fun _ =>
    Throws.bind (throws_uvmunmap _ _ _ _ _) fun _ => throws_uvmfree _ _ _

end Mem

end Xv6.Proofs.Sys
