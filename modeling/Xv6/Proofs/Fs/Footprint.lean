import Xv6.Kernel.Sysfile

/-!
# `Xv6.Proofs.Fs.Footprint`: what the functions of one inode can change

Most functions of `fs.c` work on the blocks and on the in-memory dinode of one inode. They count
no reference, recycle no slot and take no lock: the two states are `Within` each other. They stop
the kernel only with a panic about blocks or entries (`BlockPanic`).

Each function has one lemma, assembled from those of its callees by the rules of `Moves`.
-/

set_option autoImplicit false

namespace Xv6.Proofs.Fs

open Lib Lib.Action Kernel

/-- Nothing but blocks and in-memory dinodes changed. -/
def Within (s t : FsState) : Prop :=
  ∀ k, t.itable k = { s.itable k with toDinode := (t.itable k).toDinode }

instance : Std.Refl Within where
  refl _ _ := rfl

instance : IsTrans FsState Within where
  trans s t u hst htu k := by
    rw [htu k, hst k]

/-- The panics of the functions that work on the blocks of one inode. -/
def BlockPanic : Panic → Prop
  | .ballocOutOfBlocks | .freeingFreeBlock | .bmapOutOfRange | .dirlookupDead | .dirlinkRead
  | .isdiremptyReadi => True
  | _ => False

attribute [grind =] BlockPanic

theorem within_setInode {ip : Ino} {f : Inode → Inode}
    (hf : ∀ n, f n = { n with toDinode := (f n).toDinode }) :
    Moves Within BlockPanic (setInode ip f) := by
  refine Moves.modify fun s k => ?_
  by_cases hk : k = ip
  · subst hk
    show Function.update s.itable k (f (s.itable k)) k = { s.itable k with
      toDinode := (Function.update s.itable k (f (s.itable k)) k).toDinode }
    rw [Function.update_self]
    exact hf (s.itable k)
  · show Function.update s.itable ip (f (s.itable ip)) k = { s.itable k with
      toDinode := (Function.update s.itable ip (f (s.itable ip)) k).toDinode }
    rw [Function.update_of_ne hk]

@[grind .] theorem within_inode (ip : Ino) : Moves Within BlockPanic (inode ip) := Moves.read

@[grind .] theorem within_bread (b : Nat) : Moves Within BlockPanic (bread b) := Moves.read

@[grind .] theorem within_logWrite (b : Nat) (blk : Block) :
    Moves Within BlockPanic (logWrite b blk) :=
  Moves.modify fun _ _ => rfl

/-! ### The functions -/

section
variable (sb : Superblock)

@[grind .] theorem within_balloc : Moves Within BlockPanic (balloc sb) := by
  unfold balloc bzero
  grind

@[grind .] theorem within_bfree (b : Nat) : Moves Within BlockPanic (bfree sb b) := by
  unfold bfree
  grind

@[grind .] theorem within_bmapSlot (ip : Ino) (i : Nat) :
    Moves Within BlockPanic (bmapSlot sb ip i) := by
  refine Moves.bind (within_inode ip) fun dip => Moves.ite ?_ Moves.pure
  refine Moves.bind (within_balloc sb) fun addr => Moves.ite Moves.pure ?_
  exact Moves.bind (within_setInode fun _ => rfl) fun _ => Moves.pure

@[grind .] theorem within_bmap (ip : Ino) (bn : Nat) :
    Moves Within BlockPanic (bmap sb ip bn) := by
  unfold bmap
  grind

@[grind .] theorem within_iupdate (ip : Ino) : Moves Within BlockPanic (iupdate sb ip) := by
  unfold iupdate
  grind

@[grind .] theorem within_itruncDirect (ip : Ino) (i : Nat) :
    Moves Within BlockPanic (itruncDirect sb ip i) :=
  Moves.bind (within_inode ip) fun _ => Moves.ite Moves.pure
    (Moves.bind (within_bfree sb _) fun _ => within_setInode fun _ => rfl)

@[grind .] theorem within_itruncIndirect (ip : Ino) :
    Moves Within BlockPanic (itruncIndirect sb ip) := by
  refine Moves.bind (within_inode ip) fun dip => Moves.ite Moves.pure ?_
  refine Moves.bind (within_bread _) fun bp => ?_
  refine Moves.bind (Moves.forEach (fun j => ?_) _) fun _ => ?_
  · exact Moves.ite Moves.pure (within_bfree sb _)
  · exact Moves.bind (within_bfree sb _) fun _ => within_setInode fun _ => rfl

@[grind .] theorem within_itrunc (ip : Ino) : Moves Within BlockPanic (itrunc sb ip) :=
  Moves.bind (Moves.forEach (within_itruncDirect sb ip) _) fun _ =>
    Moves.bind (within_itruncIndirect sb ip) fun _ =>
      Moves.bind (within_setInode fun _ => rfl) fun _ => within_iupdate sb ip

@[grind .] theorem within_readiLoop (ip : Ino) (copyout : Nat → Bool) (fuel off left : Nat)
    (acc : List UInt8) :
    Moves Within BlockPanic (readiLoop sb ip copyout fuel off left acc) := by
  induction fuel generalizing off left acc with
  | zero => exact Moves.pure
  | succ fuel ih =>
    unfold readiLoop
    grind

@[grind .] theorem within_readi (ip : Ino) (copyout : Nat → Bool) (off n : Nat) :
    Moves Within BlockPanic (readi sb ip copyout off n) := by
  unfold readi
  grind

@[grind .] theorem within_writeiLoop (ip : Ino) (copyin : CopyIn) (fuel off left tot : Nat) :
    Moves Within BlockPanic (writeiLoop sb ip copyin fuel off left tot) := by
  induction fuel generalizing off left tot with
  | zero => exact Moves.pure
  | succ fuel ih =>
    unfold writeiLoop
    grind

@[grind .] theorem within_writei (ip : Ino) (copyin : CopyIn) (off n : Nat) :
    Moves Within BlockPanic (writei sb ip copyin off n) := by
  refine Moves.bind (within_inode ip) fun dip => Moves.ite Moves.pure ?_
  refine Moves.ite Moves.pure ?_
  refine Moves.bind (within_writeiLoop sb ip copyin _ _ _ _) fun r => ?_
  refine Moves.bind (within_setInode fun n => ?_) fun _ =>
    Moves.bind (within_iupdate sb ip) fun _ => Moves.pure
  split
  · rfl
  · rfl

@[grind .] theorem within_readDirent (dp : Ino) (off : Nat) {e : Panic} (he : BlockPanic e) :
    Moves Within BlockPanic (readDirent sb dp off e) := by
  unfold readDirent
  grind

@[grind .] theorem within_dirlinkSlot (dp : Ino) : Moves Within BlockPanic (dirlinkSlot sb dp) := by
  unfold dirlinkSlot
  grind

end

end Xv6.Proofs.Fs
