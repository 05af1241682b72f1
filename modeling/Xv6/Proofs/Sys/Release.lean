import Xv6.Proofs.Sys.DescriptorRuns
import Xv6.Proofs.Sys.ProcCalls
import Xv6.Proofs.Fs.Ownership

/-!
# `Xv6.Proofs.Sys.Release`: what the last close releases

`sys_open` gives a file one reference to its inode, and `sys_pipe` opens one end of a pipe for
each of two files. `Released` says that the last close gives this back: it drops the reference,
or it closes the end, and frees the page of the pipe if the other end was closed before.

`fileclose` keeps a copy of the file, clears the type of the file, and then tests that type to
find out what to release. So it takes none of the branches: `fileclose_run` computes the whole
call, and nothing but the entry of the file table changes. The last close of a file with a type
releases nothing, in every reachable state, by `sys_close` and by `exit`.
-/

set_option autoImplicit false

namespace Xv6.Proofs.Sys

open Lib Lib.Action Kernel

variable {s t : SysState} {f : FilePtr} {p : ProcPtr} (c : SysParam)

/-! ### The whole of `fileclose` -/

/-- The file with one reference less, and without a type if it was the last one. -/
def closeFile (s : SysState) (f : FilePtr) : SysState :=
  let n := s.ftable f
  withFile s f { n with ref := n.ref - 1, type := if n.ref = 1 then .none else n.type }

theorem withFile_withFile (n m : File) : withFile (withFile s f n) f m = withFile s f m := by
  unfold withFile
  rw [Function.update_idem]

theorem withFile_file (n : File) : (withFile s f n).ftable f = n := by
  show Function.update s.ftable f n f = n
  rw [Function.update_self]

/-- `fileclose` changes the file only. -/
theorem fileclose_spec (h : 1 ≤ (s.ftable f).ref) :
    wp (fileclose c f) (fun _ t => t = closeFile s f) (fun _ => False) s := by
  rw [fileclose, wp_bind, wp_file, if_neg (by omega), wp_bind, wp_setFile, wp_bind, wp_file,
    withFile_file]
  dsimp only
  by_cases hlast : (s.ftable f).ref = 1
  · rw [if_neg (by omega), wp_bind, wp_setFile, wp_bind, wp_file, withFile_file, withFile_withFile,
      withFile_file]
    -- The type read here is the one just stored.
    have hpipe : ¬ (FileType.none = .pipe) := by decide
    have hinode : ¬ (FileType.none = .inode ∨ FileType.none = .device) := by decide
    rw [if_neg hpipe, if_neg hinode, wp_pure, closeFile, if_pos hlast]
  · rw [if_pos (by omega), wp_pure, closeFile, if_neg hlast]

/-! ### What open files hold -/

/-- The end of a pipe that a file stands for. -/
def Pipe.endOpen (q : Pipe) (isWritable : Bool) : Bool :=
  if isWritable then q.isWriteopen else q.isReadopen

/-- What opening a file acquired is there: an inode, or an open end of a pipe. -/
def Acquired (s : SysState) (n : File) : Prop :=
  match n.type with
  | .none => True
  | .inode => n.ip ≠ none
  | .device => n.ip ≠ none
  | .pipe => Pipe.endOpen (s.pipes n.pipe) n.isWritable = true

/-- Every file has what opening it acquired. -/
def AllAcquired (s : SysState) : Prop := ∀ f, Acquired s (s.ftable f)

theorem maintains_onFs {α : Type} (x : FsM α) : Maintains AllAcquired (onFs x) :=
  Maintains.zoom fun _ _ h => h

theorem maintains_onMem {α : Type} (x : KmemM α) : Maintains AllAcquired (onMem x) :=
  Maintains.zoom fun _ _ h => h

theorem maintains_setProcess (p : ProcPtr) (g : Process → Process) :
    Maintains AllAcquired (setProcess p g) :=
  Maintains.modify fun _ h => h

theorem AllAcquired.withFile (h : AllAcquired s) {n : File} (hn : Acquired s n) :
    AllAcquired (withFile s f n) := by
  intro g
  show Acquired s (Function.update s.ftable f n g)
  by_cases hg : g = f
  · rw [hg, Function.update_self]
    exact hn
  · rw [Function.update_of_ne hg]
    exact h g

/-- A count does not matter. -/
theorem maintains_setRef (r : File → Int) :
    Maintains AllAcquired (setFile f fun n => { n with ref := r n }) :=
  Maintains.modify fun _ h => h.withFile (h f)

theorem AllAcquired.closeFile (h : AllAcquired s) : AllAcquired (closeFile s f) := by
  refine h.withFile ?_
  by_cases hlast : (s.ftable f).ref = 1
  · rw [if_pos hlast]
    trivial
  · rw [if_neg hlast]
    exact h f

theorem maintains_fileclose : Maintains AllAcquired (fileclose c f) := by
  constructor
  intro s hs
  by_cases hpos : (s.ftable f).ref < 1
  · rw [fileclose, wp_bind, wp_file, if_pos hpos]
    trivial
  · refine wp_mono (fileclose_spec c (Int.not_lt.mp hpos)) ?_ fun _ => False.elim
    rintro _ t rfl
    exact hs.closeFile

theorem maintains_filealloc : Maintains AllAcquired filealloc := by
  refine Maintains.bind Maintains.read ?_
  intro t
  split
  · exact Maintains.bind (maintains_setRef _) fun _ => Maintains.pure
  · exact Maintains.pure

theorem maintains_fileup : Maintains AllAcquired (fileup f) :=
  Maintains.bind Maintains.read fun _ => Maintains.ite Maintains.fail
    (Maintains.bind (maintains_setRef _) fun _ => Maintains.pure)

theorem maintains_fdalloc (p : ProcPtr) (f : FilePtr) : Maintains AllAcquired (fdalloc p f) := by
  refine Maintains.bind Maintains.read ?_
  intro q
  split
  · exact Maintains.bind (maintains_setProcess _ _) fun _ => Maintains.pure
  · exact Maintains.pure

/-! ### The calls -/

theorem maintains_argfd (p : ProcPtr) (fd : Int32) : Maintains AllAcquired (argfd p fd) := by
  refine Maintains.bind Maintains.read ?_
  intro q
  split
  · exact Maintains.pure
  · exact Maintains.pure

theorem maintains_sysDup (fd : Int32) : Maintains AllAcquired (sysDup p fd) := by
  refine Maintains.bind (maintains_argfd p fd) ?_
  intro r
  cases r with
  | none => exact Maintains.pure
  | some x =>
    refine Maintains.bind (maintains_fdalloc p x.2) ?_
    intro r
    cases r with
    | none => exact Maintains.pure
    | some fd => exact Maintains.bind maintains_fileup fun _ => Maintains.pure

theorem maintains_sysClose (fd : Int32) : Maintains AllAcquired (sysClose c p fd) := by
  refine Maintains.bind (maintains_argfd p fd) ?_
  intro r
  cases r with
  | none => exact Maintains.pure
  | some x =>
    exact Maintains.bind (maintains_setProcess _ _) fun _ =>
      Maintains.bind (maintains_fileclose c) fun _ => Maintains.pure

/-- An open file has an inode. -/
theorem maintains_openFile (n : Inode) (ip : Ino) (omode : UInt32) :
    Maintains AllAcquired (setFile f (openFile n ip omode)) := by
  refine Maintains.modify fun s h => h.withFile ?_
  by_cases hdev : n.type = .device
  · have hkind : (openFile n ip omode (s.ftable f)).type = .device := if_pos hdev
    unfold Acquired
    rw [hkind]
    exact Option.some_ne_none ip
  · have hkind : (openFile n ip omode (s.ftable f)).type = .inode := if_neg hdev
    unfold Acquired
    rw [hkind]
    exact Option.some_ne_none ip

theorem maintains_sysOpen (path : Option (List UInt8)) (omode : UInt32) :
    Maintains AllAcquired (sysOpen c p path omode) := by
  cases path with
  | none => exact Maintains.pure
  | some path =>
    refine Maintains.bind Maintains.read fun q => ?_
    refine Maintains.bind (maintains_onFs _) ?_
    intro r
    cases r with
    | none => exact Maintains.pure
    | some ip =>
      refine Maintains.bind maintains_filealloc ?_
      intro r
      cases r with
      | none => exact Maintains.bind (maintains_onFs _) fun _ => Maintains.pure
      | some f =>
        refine Maintains.bind (maintains_fdalloc p f) ?_
        intro r
        cases r with
        | none =>
          exact Maintains.bind (maintains_fileclose c) fun _ =>
            Maintains.bind (maintains_onFs _) fun _ => Maintains.pure
        | some fd =>
          exact Maintains.bind (maintains_onFs _) fun n =>
            Maintains.bind (maintains_openFile n ip omode) fun _ =>
              Maintains.bind (maintains_onFs _) fun _ => Maintains.pure

/-- The state with a pipe changed. -/
def withPipe (s : SysState) (pi : Nat) (q : Pipe) : SysState :=
  { s with pipes := Function.update s.pipes pi q }

theorem wp_setPipe {pi : Nat} {g : Pipe → Pipe} {post : Unit → SysState → Prop}
    {err : Panic → Prop} :
    wp (setPipe pi g) post err s ↔ post () (withPipe s pi (g (s.pipes pi))) :=
  Iff.rfl

/-- A pipe whose two ends are open loses nothing. -/
theorem Acquired.openPipe {n : File} (h : Acquired s n) {pi : Nat} {q : Pipe}
    (hr : q.isReadopen = true) (hw : q.isWriteopen = true) : Acquired (withPipe s pi q) n := by
  unfold Acquired at h ⊢
  split at h
  · trivial
  · exact h
  · exact h
  · show Pipe.endOpen (Function.update s.pipes pi q n.pipe) n.isWritable = true
    by_cases hpi : n.pipe = pi
    · rw [hpi, Function.update_self]
      unfold Pipe.endOpen
      split
      · exact hw
      · exact hr
    · rw [Function.update_of_ne hpi]
      exact h

theorem maintains_pipeallocBad (f0 f1 : Option FilePtr) (pi : Nat) :
    Maintains AllAcquired (pipeallocBad c f0 f1 pi) :=
  Maintains.bind (Maintains.when (maintains_onMem _)) fun _ =>
    Maintains.bind (Maintains.forEach (fun _ => maintains_fileclose c) _) fun _ =>
      Maintains.forEach (fun _ => maintains_fileclose c) _

theorem maintains_pipealloc : Maintains AllAcquired (pipealloc c) := by
  refine Maintains.bind maintains_filealloc ?_
  intro r
  cases r with
  | none => exact Maintains.bind (maintains_pipeallocBad c _ _ _) fun _ => Maintains.pure
  | some f0 =>
    refine Maintains.bind maintains_filealloc ?_
    intro r
    cases r with
    | none => exact Maintains.bind (maintains_pipeallocBad c _ _ _) fun _ => Maintains.pure
    | some f1 =>
      refine Maintains.bind (maintains_onMem _) fun pi => Maintains.ite ?_ ?_
      · exact Maintains.bind (maintains_pipeallocBad c _ _ _) fun _ => Maintains.pure
      · -- Both ends are open before the files refer to them.
        constructor
        intro s hs
        rw [wp_bind, wp_setPipe]
        obtain ⟨q, hq⟩ : ∃ q : Pipe, q = ⟨(s.pipes pi).data, 0, 0, true, true⟩ := ⟨_, rfl⟩
        obtain ⟨u, hu⟩ : ∃ u, u = withPipe s pi q := ⟨_, rfl⟩
        have hall : AllAcquired u := by
          rw [hu, hq]
          exact fun f => (hs f).openPipe rfl rfl
        have hopen : u.pipes pi = q := by
          rw [hu]
          exact Function.update_self _ _ _
        rw [← hq]
        rw [← hu, wp_bind, wp_setFile, wp_bind, wp_setFile, wp_pure]
        refine (hall.withFile ?_).withFile ?_
        · show Pipe.endOpen (u.pipes pi) false = true
          rw [hopen, hq]
          rfl
        · show Pipe.endOpen (u.pipes pi) true = true
          rw [hopen, hq]
          rfl

theorem maintains_pipeFail (rf wf : FilePtr) (fds : List Fd) :
    Maintains AllAcquired (pipeFail c p rf wf fds) :=
  Maintains.bind (Maintains.forEach (fun _ => maintains_setProcess _ _) _) fun _ =>
    Maintains.bind (maintains_fileclose c) fun _ =>
      Maintains.bind (maintains_fileclose c) fun _ => Maintains.pure

theorem maintains_sysPipe (fdarray : Nat) : Maintains AllAcquired (sysPipe c p fdarray) := by
  refine Maintains.bind (maintains_pipealloc c) ?_
  intro r
  cases r with
  | none => exact Maintains.pure
  | some ends =>
    refine Maintains.bind (maintains_fdalloc p ends.1) ?_
    intro r
    cases r with
    | none => exact maintains_pipeFail c _ _ _
    | some fd0 =>
      refine Maintains.bind (maintains_fdalloc p ends.2) ?_
      intro r
      cases r with
      | none => exact maintains_pipeFail c _ _ _
      | some fd1 =>
        refine Maintains.bind Maintains.read fun q => ?_
        refine Maintains.bind (maintains_onMem _) fun r => ?_
        refine Maintains.ite (maintains_pipeFail c _ _ _) ?_
        exact Maintains.bind (maintains_onMem _) fun r =>
          Maintains.ite (maintains_pipeFail c _ _ _) Maintains.pure

theorem kept_acquired : Kept c AllAcquired where
  fs _ h := h
  mem _ h := h
  pid _ h := h
  slot _ h := h
  reparent _ := Maintains.modify fun _ h => h
  close _ := maintains_fileclose c
  dup _ := maintains_fileup

theorem maintains_syscall (a : ProcPtr × SysCall) : Maintains AllAcquired (a.2.run c a.1) := by
  obtain ⟨p, call⟩ := a
  cases call with
  | sysOpen path omode =>
    exact Maintains.bind (maintains_sysOpen c path omode) fun _ => Maintains.pure
  | sysPipe fdarray => exact Maintains.bind (maintains_sysPipe c fdarray) fun _ => Maintains.pure
  | sysDup fd => exact Maintains.bind (maintains_sysDup fd) fun _ => Maintains.pure
  | sysClose fd => exact Maintains.bind (maintains_sysClose c fd) fun _ => Maintains.pure
  | fork => exact Maintains.bind (kept_acquired c).fork fun _ => Maintains.pure
  | exit status => exact (kept_acquired c).exit status
  | wait addr => exact Maintains.bind ((kept_acquired c).wait addr) fun _ => Maintains.pure

/-! ### The last close -/

/-- At boot no file is open, and no file has a type. -/
structure Cleared (s : SysState) : Prop extends Booted s where
  types : ∀ f, (s.ftable f).type = .none

theorem acquired_of_reach (hr : Reach (syscalls c) ByLive Cleared s) : AllAcquired s := by
  refine @Reach.invariant _ _ _ _ _ _ AllAcquired ?_ ?_ s hr
  · intro s hs f
    unfold Acquired
    rw [hs.types f]
    trivial
  · intro s a t hs _ hstep
    exact machine_ok ((maintains_syscall c a).run s hs) hstep

theorem books_of_cleared (hr : Reach (syscalls c) ByLive Cleared s) : Books (tableOf s) 0 := by
  refine @Reach.invariant _ _ _ _ _ _ (fun s => Books (tableOf s) 0) ?_ ?_ s hr
  · intro s hs
    exact hs.toBooted.books
  · intro s a t hs ha hstep
    exact machine_ok (syscall_books c hs ha) hstep

/-- The step from `s` to `t` gives back what opening `f` acquired: the inode has one reference
less, or the end of the pipe is closed, and its page is freed if the other end was closed
before. -/
def Released (s : SysState) (f : FilePtr) (t : SysState) : Prop :=
  let n := s.ftable f
  match n.type with
  | .none => True
  | .inode => ∀ ip, n.ip = some ip → (t.fs.itable ip).ref = (s.fs.itable ip).ref - 1
  | .device => ∀ ip, n.ip = some ip → (t.fs.itable ip).ref = (s.fs.itable ip).ref - 1
  | .pipe => Pipe.endOpen (t.pipes n.pipe) n.isWritable = false ∧
      (if Pipe.endOpen (s.pipes n.pipe) (!n.isWritable) then t.kmem = s.kmem
        else kfree c.kend n.pipe s.kmem = .ok ((), t.kmem))

/-- A step that leaves the inodes and the pipes alone releases nothing. -/
theorem released_iff (hacq : Acquired s (s.ftable f)) (hfs : t.fs = s.fs)
    (hpipes : t.pipes = s.pipes) : Released c s f t ↔ (s.ftable f).type = .none := by
  have hinode : (s.ftable f).ip ≠ none →
      ¬ ∀ ip, (s.ftable f).ip = some ip → (t.fs.itable ip).ref = (s.fs.itable ip).ref - 1 := by
    intro hip hall
    obtain ⟨ip, hip⟩ := Option.ne_none_iff_exists'.mp hip
    have := hall ip hip
    rw [hfs] at this
    omega
  unfold Acquired at hacq
  unfold Released
  cases htype : (s.ftable f).type with
  | none => simp only [htype]
  | inode =>
    simp only [htype] at hacq ⊢
    exact iff_of_false (hinode hacq) (by decide)
  | device =>
    simp only [htype] at hacq ⊢
    exact iff_of_false (hinode hacq) (by decide)
  | pipe =>
    simp only [htype] at hacq ⊢
    rw [hpipes, hacq]
    exact iff_of_false (fun h => nomatch h.1) (by decide)

/-- `sys_close` of an open descriptor. -/
theorem sysClose_spec {fd : Int32} {i : Fd} (h : 1 ≤ (s.ftable f).ref)
    (harg : argfd p fd s = .ok (some (i, f), s)) :
    wp (sysClose c p fd) (fun r t => r = 0 ∧ t = closeFile (withOfile s p i none) f)
      (fun _ => False) s := by
  have hopen : wp (argfd p fd) (fun r t => r = some (i, f) ∧ t = s) (fun _ => False) s := by
    unfold wp
    rw [harg]
    exact ⟨rfl, rfl⟩
  rw [sysClose, wp_bind]
  refine wp_post hopen ?_
  rintro r t ⟨rfl, rfl⟩
  show wp (setOfile p i none >>= _) _ _ _
  rw [wp_bind, wp_setOfile, wp_bind]
  refine wp_post (fileclose_spec c h) ?_
  rintro _ u rfl
  rw [wp_pure]
  exact ⟨rfl, rfl⟩

/-- What the descriptors are about to lose: everything outside the file table and the process
table. -/
def resources (s : SysState) : FsState × (Nat → Pipe) × Kmem := (s.fs, s.pipes, s.kmem)

/-- The loop of `exit` closes every descriptor and releases nothing. -/
theorem exitLoop_spec (h : Books (tableOf s) 0) (hp : Live (s.proc p).state) :
    wp (forEach (exitFile c p) (List.finRange NOFILE))
      (fun _ t => resources t = resources s) (fun _ => False) s := by
  have hstart : Exiting (tableOf s) p (List.finRange NOFILE) (tableOf s) :=
    ⟨h, rfl, fun fd hfd => absurd (List.mem_finRange fd) hfd⟩
  refine wp_post (wp_forEach (fun l t => Exiting (tableOf s) p l (tableOf t) ∧
    resources t = resources s) ?_ ⟨hstart, rfl⟩) fun _ t ht => ht.2
  rintro i l t ⟨hexit, hres⟩
  -- The step keeps the books by the earlier lemma, and here it returns with the resources.
  have hrun : wp (exitFile c p i) (fun _ u => resources u = resources t) (fun _ => False) t := by
    rw [exitFile, wp_bind, wp_process]
    cases hslot : (t.proc p).ofile i with
    | none => rfl
    | some f =>
      have hslot : (tableOf t).slot (p, i) = some f := hslot
      have hpos : 1 ≤ (t.ftable f).ref := hexit.books.pos_of_slot hslot
      show wp (fileclose c f >>= _) _ _ _
      rw [wp_bind]
      refine wp_post (fileclose_spec c hpos) ?_
      rintro _ u rfl
      rfl
  refine wp_iff.mpr ⟨?_, ?_⟩
  · intro a u hu
    exact ⟨wp_ok (exitFile_step c hp hexit) hu, (wp_ok hrun hu).trans hres⟩
  · intro e he
    exact wp_error hrun he

/-- In every reachable state, a `sys_close` releases what it has to release exactly if it is not
the last close of a file with a type. The descriptors that `exit` closes are released exactly
if they have no type. -/
theorem last_close_releases_iff (hr : Reach (syscalls c) ByLive Cleared s) :
    (∀ p fd i f, argfd p fd s = .ok (some (i, f), s) → ∃ t, sysClose c p fd s = .ok (0, t) ∧
      (((s.ftable f).ref = 1 → Released c s f t) ↔
        ¬ ((s.ftable f).ref = 1 ∧ (s.ftable f).type ≠ .none))) ∧
    ∀ p, Live (s.proc p).state →
      ∃ t, forEach (exitFile c p) (List.finRange NOFILE) s = .ok ((), t) ∧
        ∀ f, 0 < (s.ftable f).ref → (t.ftable f).ref = 0 →
          (Released c s f t ↔ (s.ftable f).type = .none) := by
  have hacq := acquired_of_reach c hr
  have hbooks := books_of_cleared c hr
  constructor
  · intro p fd i f harg
    have hslot : (tableOf s).slot (p, i) = some f :=
      (wp_ok (argfd_spec (s := s) (p := p) fd) harg).2 (i, f) rfl
    obtain ⟨r, t, hrun, hr, ht⟩ :=
      wp_returns (sysClose_spec c (hbooks.pos_of_slot hslot) harg) fun _ => id
    rw [hr] at hrun
    refine ⟨t, hrun, ?_⟩
    rw [released_iff c (hacq f) (by rw [ht]; rfl) (by rw [ht]; rfl)]
    simp
  · intro p hp
    obtain ⟨_, t, hrun, ht⟩ := wp_returns (exitLoop_spec c hbooks hp) fun _ => id
    refine ⟨t, hrun, ?_⟩
    intro f _ _
    exact released_iff c (hacq f) (congrArg Prod.fst ht) (congrArg (fun x => x.2.1) ht)

/-! ### A reference that stays -/

/-- The first process runs in the root directory of a file system without files. -/
def rootedState : SysState :=
  { firstState with
    fs := Fs.bareState
    proc := fun p => if p = firstProc then
      { blankProcess with state := .running, cwd := some Fs.slot0 } else blankProcess }

/-- The first process opens the root directory, and closes it. The root directory has the
reference that `sys_open` took after the close as before it. -/
theorem closed_root_referenced : ∃ s t,
    exec (syscalls plainParam) rootedState [(firstProc, .sysOpen (some [slash]) 0)]
      = some (.ok s) ∧
    exec (syscalls plainParam) s [(firstProc, .sysClose 0)] = some (.ok t) ∧
    (rootedState.fs.itable Fs.slot0).ref = 1 ∧ (s.fs.itable Fs.slot0).ref = 2 ∧
    (s.ftable ⟨0, by decide⟩).type = .inode ∧ (s.ftable ⟨0, by decide⟩).ref = 1 ∧
    (t.ftable ⟨0, by decide⟩).ref = 0 ∧ (t.fs.itable Fs.slot0).ref = 2 := by
  have hrun : ends (exec (syscalls plainParam) rootedState
      [(firstProc, .sysOpen (some [slash]) 0)]) (fun s =>
        ends (exec (syscalls plainParam) s [(firstProc, .sysClose 0)]) fun t =>
          (rootedState.fs.itable Fs.slot0).ref = 1 ∧ (s.fs.itable Fs.slot0).ref = 2 ∧
          (s.ftable ⟨0, by decide⟩).type = .inode ∧ (s.ftable ⟨0, by decide⟩).ref = 1 ∧
          (t.ftable ⟨0, by decide⟩).ref = 0 ∧ (t.fs.itable Fs.slot0).ref = 2) = true := by
    decide +kernel
  obtain ⟨s, hs, hrest⟩ := ends_iff.mp hrun
  obtain ⟨t, ht, hfacts⟩ := ends_iff.mp hrest
  exact ⟨s, t, hs, ht, of_decide_eq_true hfacts⟩

/-- The open root directory is the last descriptor of its file, and closing it releases
nothing. -/
theorem last_close_releases_root : ∃ s t,
    exec (syscalls plainParam) rootedState [(firstProc, .sysOpen (some [slash]) 0)]
      = some (.ok s) ∧
    sysClose plainParam firstProc 0 s = .ok (0, t) ∧
    ¬ Released plainParam s ⟨0, by decide⟩ t := by
  have hrun : ends (exec (syscalls plainParam) rootedState
      [(firstProc, .sysOpen (some [slash]) 0)]) (fun s =>
        (s.ftable ⟨0, by decide⟩).ref = 1 ∧ (s.ftable ⟨0, by decide⟩).type = .inode ∧
        (s.proc firstProc).ofile ⟨0, by decide⟩ = some ⟨0, by decide⟩) = true := by
    decide +kernel
  obtain ⟨s, hs, hfacts⟩ := ends_iff.mp hrun
  obtain ⟨href, htype, hofile⟩ := of_decide_eq_true hfacts
  have hboot : Cleared rootedState := by
    refine ⟨⟨fun _ => rfl, ?_⟩, fun _ => rfl⟩
    intro p fd
    show (if p = firstProc then _ else _ : Process).ofile fd = none
    split
    · rfl
    · rfl
  have hstep : syscalls plainParam rootedState (firstProc, .sysOpen (some [slash]) 0)
      = some (.ok s) := by
    rw [Lib.exec] at hs
    split at hs
    · rename_i u hu
      rw [hu]
      exact hs
    · exact hs
  have hlive : ByLive rootedState (firstProc, .sysOpen (some [slash]) 0) := Or.inr (Or.inr rfl)
  have hr : Reach (syscalls plainParam) ByLive Cleared s :=
    Reach.step (Reach.start hboot) hlive hstep
  have harg : argfd firstProc 0 s = .ok (some (⟨0, by decide⟩, ⟨0, by decide⟩), s) := by
    show Except.ok (Option.map _ ((s.proc firstProc).ofile ⟨0, by decide⟩), s) = _
    rw [hofile]
    rfl
  obtain ⟨t, ht, hiff⟩ := (last_close_releases_iff plainParam hr).1 firstProc 0 _ _ harg
  refine ⟨s, t, hs, ht, ?_⟩
  intro hrel
  refine hiff.mp (fun _ => hrel) ⟨href, ?_⟩
  rw [htype]
  decide

end Xv6.Proofs.Sys
