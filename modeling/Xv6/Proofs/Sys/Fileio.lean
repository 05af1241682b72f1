import Xv6.Kernel.Fileio
import Xv6.Proofs.Fs.Ownership

/-!
# `Xv6.Proofs.Sys.Fileio`: `fileread` and `filewrite` on an inode do not return

The case `F_INODE` of both functions runs on into the default case, which stops the kernel. So
no call on an inode returns, whatever the file holds.

`filewrite` need not even get there. Its loop does not advance and does not end its operations,
so each turn takes a part of the log for good. At most three turns pass `begin_op`; the next one
sleeps, unless a turn writes less than it should and the loop is left for the panic.
-/

set_option autoImplicit false

namespace Xv6.Proofs.Sys

open Lib Kernel Kernel.Fileio

variable {b : Backend} {sb : Superblock} {s t : Fileio.State}

/-- What stopped a call that did not return. -/
def stopOf {α : Type} : Except Stop α → Option Stop
  | .ok _ => none
  | .error e => some e

/-! ### Reading -/

/-- A call of `fileread` for `n` bytes delivers what the file has from the offset on. -/
structure Delivers (sb : Superblock) (s t : Fileio.State) (ip : Ino) (n : Int32) (r : Int) :
    Prop where
  count : r = min n.toInt (((s.fs.itable ip).size.toNat : Int) - s.file.off)
  bytes : t.copied = (Fs.files sb s.fs (s.fs.itable ip).inum).bytes s.file.off r.toNat
  off : (t.file.off : Int) = s.file.off + r

/-- The calls, each with its address and its size, deliver the file piece by piece. -/
def Streams (b : Backend) (sb : Superblock) (ip : Ino) (s : Fileio.State) :
    List (Nat × Int32) → Prop
  | [] => True
  | (addr, n) :: calls => ∃ r t, fileread b sb (fun _ => true) addr n s = .ok (r, t) ∧
      Delivers sb s t ip n r ∧ Streams b sb ip t calls

theorem fileread_stops (dst : Nat → Bool) (addr : Nat) (n : Int32)
    (htype : s.file.type = .inode) (hreadable : s.file.isReadable = true) (r : Int)
    (t : Fileio.State) : fileread b sb dst addr n s ≠ .ok (r, t) := by
  intro h
  have hwp : Action.wp (fileread b sb dst addr n) (fun _ _ => False) (fun _ => True) s := by
    rw [fileread, Action.wp_bind, Action.wp_read, if_neg (by simp [hreadable]), htype]
    cases s.file.ip with
    | none => trivial
    | some ip =>
      -- Whatever the case itself does, the default case follows.
      show Action.wp (readInode sb ip dst n >>= fun _ => Action.fail .filereadUndefined) _ _ _
      rw [Action.wp_bind]
      exact Action.wp_iff.mpr ⟨fun _ _ _ => trivial, fun _ _ => trivial⟩
  exact Action.wp_ok hwp h

/-- A sequence of calls of `fileread` on a readable inode streams the file exactly if it makes
no call. -/
theorem fileread_streams_iff {ip : Ino} (htype : s.file.type = .inode)
    (hreadable : s.file.isReadable = true) (calls : List (Nat × Int32)) :
    Streams b sb ip s calls ↔ calls = [] := by
  cases calls with
  | nil => simp [Streams]
  | cons c calls =>
    refine ⟨?_, fun h => by cases h⟩
    rintro ⟨r, t, h, -⟩
    exact absurd h (fileread_stops _ _ _ htype hreadable r t)

/-- No pipe and no device. -/
def noDevices : Backend where
  piperead := fun _ _ _ => pure (-1)
  pipewrite := fun _ _ _ => pure (-1)
  read := fun _ => none
  write := fun _ => none

/-- An entry of the file table for the inode in the first slot. -/
def openEntry (writable : Bool) : File where
  type := .inode
  ref := 1
  isReadable := true
  isWritable := writable
  pipe := 0
  ip := some Fs.slot0
  off := 0
  major := 0

/-- The root directory of a fresh file system, open for reading. -/
def openRoot : Fileio.State where
  fs := Fs.bareState
  file := openEntry false
  log := ⟨0, 0, false⟩
  copied := []

/-- The first read of an open directory stops the kernel. -/
theorem fileread_root_stops :
    stopOf (fileread noDevices Mkfs.superblock (fun _ => true) 0 1 openRoot)
      = some .filereadUndefined ∧
    ¬ Streams noDevices Mkfs.superblock Fs.slot0 openRoot [(0, 1)] := by
  have hstop : stopOf (fileread noDevices Mkfs.superblock (fun _ => true) 0 1 openRoot)
      = some .filereadUndefined := by
    decide +kernel
  refine ⟨hstop, ?_⟩
  rintro ⟨r, t, h, -⟩
  rw [h] at hstop
  cases hstop

theorem fileread_streams_openRoot :
    Streams noDevices Mkfs.superblock Fs.slot0 openRoot [] ∧
      ¬ Streams noDevices Mkfs.superblock Fs.slot0 openRoot [(0, 1), (1, 1)] := by
  have hiff := @fileread_streams_iff noDevices Mkfs.superblock openRoot Fs.slot0 rfl rfl
  refine ⟨(hiff []).mpr rfl, fun h => ?_⟩
  cases (hiff _).mp h

/-! ### Writing -/

/-- `filewrite` has stored the bytes `buf` of the user at the offset, and has ended what it
began. -/
structure WroteAll (sb : Superblock) (s t : Fileio.State) (ip : Ino) (buf : List UInt8) :
    Prop where
  off : t.file.off = s.file.off + buf.length
  contents : (Fs.files sb t.fs (s.fs.itable ip).inum).data
    = ((Fs.files sb s.fs (s.fs.itable ip).inum).write s.file.off buf).data
  log : t.log.outstanding = s.log.outstanding

/-- `begin_op` passes only while the log has room for another operation. -/
theorem wp_beginOp {post : Unit → Fileio.State → Prop} {err : Stop → Prop}
    (hsleep : err .sleeping)
    (hpost : s.log.n + (s.log.outstanding + 1) * 10 ≤ 30 → post () { s with
      log := { s.log with outstanding := s.log.outstanding + 1 } }) :
    Action.wp beginOp post err s := by
  rw [beginOp, Action.wp_bind, Action.wp_read]
  split
  · exact hsleep
  · split
    · exact hsleep
    · rename_i hroom
      have hmax : ((MAXOPBLOCKS : Nat) : Int) = 10 := rfl
      have hlog : ((LOGBLOCKS : Nat) : Int) = 30 := rfl
      rw [hmax, hlog] at hroom
      exact hpost (by omega)

/-- A function of the file system leaves the log alone. -/
theorem wp_onFs_log {α : Type} {x : FsM α} {P : LogCount → Prop} {err : Stop → Prop}
    (h : P s.log) (herr : ∀ e, err (.panic e)) :
    Action.wp (Fileio.onFs x) (fun _ t => P t.log) err s := by
  unfold Action.wp Fileio.onFs
  cases x s.fs with
  | ok r => exact h
  | error e => exact herr e

/-- The loop ends within `k` turns when the log has room for fewer than `k` operations. -/
theorem filewriteLoop_ends (ip : Ino) (src : CopyIn) (n : Int32) {fuel k : Nat} (i : Int)
    (hk : 0 < k) (hfuel : k ≤ fuel) (hn : 0 ≤ s.log.n)
    (hroom : (30 : Int) < (s.log.outstanding + k) * 10) :
    Action.wp (filewriteLoop sb ip src n fuel i) (fun _ _ => True) (· ≠ .running) s := by
  induction fuel generalizing s k with
  | zero => omega
  | succ fuel ih =>
    rw [filewriteLoop]
    split
    · rw [Action.wp_bind]
      refine wp_beginOp (by simp) fun hpass => ?_
      -- The operation that has begun is counted from here on.
      let P : LogCount → Prop := fun l =>
        0 ≤ l.n ∧ (30 : Int) < (l.outstanding + (k - 1 : Nat)) * 10
      have hP : P { s.log with outstanding := s.log.outstanding + 1 } := by
        refine ⟨hn, ?_⟩
        show (30 : Int) < (s.log.outstanding + 1 + (k - 1 : Nat)) * 10
        omega
      have hk' : 0 < k - 1 := by omega
      rw [Action.wp_bind]
      refine Action.wp_post (wp_onFs_log (P := P) hP (by simp)) fun _ t ht => ?_
      rw [Action.wp_bind, Action.wp_read, Action.wp_bind]
      refine Action.wp_post (wp_onFs_log (P := P) ht (by simp)) fun r t ht => ?_
      rw [Action.wp_bind]
      have hadvance : Action.wp (Action.when (r > 0) (advance r.toNat)) (fun _ t => P t.log)
          (· ≠ .running) t := by
        rw [Action.wp_when]
        exact ⟨fun _ => ht, fun _ => ht⟩
      refine Action.wp_post hadvance fun _ t ht => ?_
      rw [Action.wp_bind]
      refine Action.wp_post (wp_onFs_log (P := P) ht (by simp)) fun _ t ht => ?_
      split
      · trivial
      · exact ih hk' (by omega) ht.1 ht.2
    · trivial

/-- No call of `filewrite` on a writable inode returns. It stops the kernel, or it sleeps in
`begin_op`: four turns of the loop are enough for that. -/
theorem filewrite_never_completes (htype : s.file.type = .inode)
    (hwritable : s.file.isWritable = true) (src : CopyIn) (addr : Nat) (n : Int32) :
    (¬ ∃ fuel t ip buf, filewrite b sb fuel src addr n s = .ok (n.toInt, t) ∧
      WroteAll sb s t ip buf) ∧
    (∀ fuel r t, filewrite b sb fuel src addr n s ≠ .ok (r, t)) ∧
    ∀ fuel, 4 ≤ fuel → 0 ≤ s.log.n → 0 ≤ s.log.outstanding →
      ∃ e, filewrite b sb fuel src addr n s = .error e ∧ e ≠ .running := by
  have hwp : ∀ fuel, Action.wp (filewrite b sb fuel src addr n) (fun _ _ => False)
      (fun e => 4 ≤ fuel → 0 ≤ s.log.n → 0 ≤ s.log.outstanding → e ≠ .running) s := by
    intro fuel
    rw [filewrite, Action.wp_bind, Action.wp_read, if_neg (by simp [hwritable]), htype]
    cases s.file.ip with
    | none => exact fun _ _ _ => by simp
    | some ip =>
      show Action.wp (filewriteLoop sb ip src n fuel 0 >>= fun _ =>
        Action.fail .filewriteUndefined) _ _ _
      rw [Action.wp_bind, Action.wp_iff]
      refine ⟨fun _ _ _ _ _ _ => by simp, fun e he hfuel hn hout => ?_⟩
      have hends := @filewriteLoop_ends sb s ip src n fuel 4 0 (by decide) hfuel hn (by omega)
      exact Action.wp_error hends he
  refine ⟨fun ⟨fuel, t, _, _, h, _⟩ => Action.wp_ok (hwp fuel) h,
    fun fuel r t h => Action.wp_ok (hwp fuel) h, fun fuel hfuel hn hout => ?_⟩
  cases hrun : filewrite b sb fuel src addr n s with
  | ok r => exact (Action.wp_ok (hwp fuel) hrun).elim
  | error e => exact ⟨e, rfl, Action.wp_error (hwp fuel) hrun hfuel hn hout⟩

/-- The dinode of an empty regular file with one link. -/
def emptyDinode : Dinode := { Dinode.fresh .file with nlink := 1 }

/-- An empty regular file with number 2, open for writing. -/
def openFresh : Fileio.State where
  fs :=
    { disk := Function.update Fs.bareDisk (IBLOCK Mkfs.superblock 2)
        (writeDinode (Fs.bareDisk (IBLOCK Mkfs.superblock 2)) (2 % IPB) emptyDinode)
      itable := Function.update (fun _ => Fs.freeSlot) Fs.slot0
        { emptyDinode with
          dev := ROOTDEV, inum := 2, ref := 1, locked := false, valid := true } }
  file := openEntry true
  log := ⟨0, 0, false⟩
  copied := []

/-- A write of one byte to an empty file stores the byte three times and then sleeps, with the
log reserved for three operations that nobody ends. A write of no byte stops the kernel. -/
theorem filewrite_one_byte_sleeps :
    stopOf (filewrite noDevices Mkfs.superblock 4 (kernelSrc [104]) 0 1 openFresh)
      = some .sleeping ∧
    stopOf (filewrite noDevices Mkfs.superblock 4 (kernelSrc []) 0 0 openFresh)
      = some .filewriteUndefined := by
  constructor
  · decide +kernel
  · decide +kernel

theorem filewrite_openFresh_stops :
    ∃ e, filewrite noDevices Mkfs.superblock 4 (kernelSrc [104]) 0 1 openFresh = .error e ∧
      e ≠ .running :=
  (@filewrite_never_completes noDevices Mkfs.superblock openFresh rfl rfl
    (kernelSrc [104]) 0 1).2.2 4 (by decide) (by decide) (by decide)

end Xv6.Proofs.Sys
