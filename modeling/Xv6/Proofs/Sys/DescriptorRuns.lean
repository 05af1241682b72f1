import Xv6.Proofs.Sys.Descriptors
import Xv6.Kernel.Mkfs

/-!
# `Xv6.Proofs.Sys.DescriptorRuns`: descriptors over whole runs

`fork` and `exit` go through all the descriptors of a process. In the loop of `fork` each
descriptor of the parent is counted and then copied, so the books are exact before every
iteration; in the loop of `exit` each one is closed and then cleared. A slot that `allocproc`
or `wait` hands out or takes back changes its state only.

`refs_exact` puts the calls together, over every run of any processes, and with calls that fail
at any step.
-/

set_option autoImplicit false

namespace Xv6.Proofs.Sys

open Lib Lib.Action Kernel

variable {T : FdTable} {s : SysState} {p np : ProcPtr} (c : SysParam)

/-! ### Process slots -/

/-- `freeproc` changes the state of the slot only. -/
theorem freeproc_table :
    wp (freeproc c p) (fun _ t => tableOf t = (tableOf s).setState p .unused) Quiet s := by
  have hmem : ∀ {b : Prop} [Decidable b] {x : KmemM Unit} {u : SysState}, Throws VmPanic x →
      wp (when b (onMem x)) (fun _ t => tableOf t = tableOf u) Quiet u := by
    intro b _ x u hx
    rw [wp_when]
    exact ⟨fun _ => onMem_table hx, fun _ => rfl⟩
  rw [freeproc, wp_bind, wp_process, wp_bind]
  refine wp_post (hmem (throws_kfree _ _)) ?_
  intro _ t ht
  rw [wp_bind]
  refine wp_post (setProcess_table (fun _ => rfl) fun _ => rfl) ?_
  intro _ u hu
  rw [wp_bind]
  refine wp_post (hmem (throws_procFreepagetable c _ _)) ?_
  intro _ v hv
  refine wp_post (setProcess_state (fun _ => rfl) fun _ => rfl) ?_
  intro _ w hw
  rw [hw, hv, hu, ht]

/-- `allocproc` marks a slot that was unused, or leaves the table alone. -/
theorem allocproc_table :
    wp (allocproc c) (fun r t => r = none ∧ tableOf t = tableOf s ∨
      ∃ np, r = some np ∧ (tableOf s).state np = .unused ∧
        tableOf t = (tableOf s).setState np .used) Quiet s := by
  rw [allocproc, wp_bind, wp_read]
  split
  · rw [wp_pure]
    exact Or.inl ⟨rfl, rfl⟩
  · rename_i np hnp
    have hunused : (s.proc np).state = .unused := by simpa using List.find?_some hnp
    have hunused : (tableOf s).state np = .unused := hunused
    -- A slot that is freed again is as it was.
    have hback : ((tableOf s).setState np .used).setState np .unused = tableOf s := by
      rw [FdTable.setState_setState, ← hunused]
      exact FdTable.setState_self
    have hfree : ∀ {u : SysState}, tableOf u = (tableOf s).setState np .used →
        wp (freeproc c np >>= fun _ => (Pure.pure none : SysM (Option ProcPtr)))
          (fun r t => r = none ∧ tableOf t = tableOf s ∨
            ∃ np, r = some np ∧ (tableOf s).state np = .unused ∧
              tableOf t = (tableOf s).setState np .used) Quiet u := by
      intro u hu
      rw [wp_bind]
      refine wp_post (freeproc_table c) ?_
      intro _ t ht
      rw [wp_pure]
      exact Or.inl ⟨rfl, by rw [ht, hu, hback]⟩
    rw [wp_bind, allocpid, wp_bind, wp_read, wp_bind, wp_modify, wp_pure, wp_bind]
    refine wp_post (setProcess_state (fun _ => rfl) fun _ => rfl) ?_
    intro _ r hr
    have hr : tableOf r = (tableOf s).setState np .used := hr
    rw [wp_bind]
    refine wp_post (onMem_table throws_kalloc) ?_
    intro tf t ht
    rw [wp_bind]
    refine wp_post (setProcess_table (fun _ => rfl) fun _ => rfl) ?_
    intro _ u hu
    rw [ht, hr] at hu
    split
    · exact hfree hu
    · rw [wp_bind]
      refine wp_post (onMem_table (throws_procPagetable c tf)) ?_
      intro pt v hv
      rw [wp_bind]
      refine wp_post (setProcess_table (fun _ => rfl) fun _ => rfl) ?_
      intro _ w hw
      rw [hv, hu] at hw
      split
      · exact hfree hw
      · rw [wp_pure]
        exact Or.inr ⟨np, rfl, hunused, hw⟩

/-- The slot of a process that is neither born nor dead. -/
theorem Books.setState (h : Books T 0) {st : ProcState}
    (hst : Live st ∨ ∀ fd, T.slot (p, fd) = none) : Books (T.setState p st) 0 := by
  refine ⟨h.balance, ?_⟩
  intro q hq fd
  have hq : ¬ Live (Function.update T.state p st q) := hq
  show T.slot (q, fd) = none
  by_cases hqp : q = p
  · rw [hqp, Function.update_self] at hq
    rw [hqp]
    exact hst.resolve_left hq fd
  · rw [Function.update_of_ne hqp] at hq
    exact h.closed q hq fd

/-! ### `fork` -/

/-- Before the descriptors `l` are copied: the counts are exact, and the child has none of
them. -/
structure Forking (T₀ : FdTable) (np : ProcPtr) (l : List Fd) (T : FdTable) : Prop where
  balance : Balance T 0
  state : T.state = T₀.state
  others : ∀ q, q ≠ np → ∀ fd, T.slot (q, fd) = T₀.slot (q, fd)
  empty : ∀ fd ∈ l, T.slot (np, fd) = none
  nodup : l.Nodup

theorem forkFile_step {T₀ : FdTable} {i : Fd} {l : List Fd}
    (h : Forking T₀ np (i :: l) (tableOf s)) :
    wp (forkFile p np i) (fun _ t => Forking T₀ np l (tableOf t)) Quiet s := by
  have hnodup := List.nodup_cons.mp h.nodup
  rw [forkFile, wp_bind, wp_process]
  cases hslot : (s.proc p).ofile i with
  | none =>
    exact ⟨h.balance, h.state, h.others, fun fd hfd => h.empty fd (List.mem_cons_of_mem _ hfd),
      hnodup.2⟩
  | some f =>
    have hslot : (tableOf s).slot (p, i) = some f := hslot
    have hpos : 1 ≤ (tableOf s).refs f := by
      have hcount := FdTable.count_pos hslot
      have := h.balance f
      rw [Pi.zero_apply] at this
      omega
    show wp (fileup f >>= _) _ _ _
    rw [wp_bind]
    refine wp_mono (fileup_table hpos) ?_ fun _ => False.elim
    rintro f' t ⟨hf, ht⟩
    rw [hf, wp_setOfile, tableOf_withOfile, ht]
    have hbal := (h.balance.setRef (f := f) 1).fill (x := (np, i)) (f := f)
      (h.empty i List.mem_cons_self)
    rw [more_undo (by decide)] at hbal
    refine ⟨hbal, h.state, ?_, ?_, hnodup.2⟩
    · intro q hq fd
      have hx : (q, fd) ≠ (np, i) := fun he => hq (Prod.mk.inj he).1
      show Function.update (tableOf s).slot (np, i) (some f) (q, fd) = _
      rw [Function.update_of_ne hx]
      exact h.others q hq fd
    · intro fd hfd
      have hx : (np, fd) ≠ (np, i) := by
        intro he
        rw [(Prod.mk.inj he).2] at hfd
        exact hnodup.1 hfd
      show Function.update (tableOf s).slot (np, i) (some f) (np, fd) = none
      rw [Function.update_of_ne hx]
      exact h.empty fd (List.mem_cons_of_mem _ hfd)

theorem fork_books (h : Books (tableOf s) 0) :
    wp (fork c p) (fun _ t => Books (tableOf t) 0) Quiet s := by
  rw [fork, wp_bind]
  refine wp_post (allocproc_table c) ?_
  rintro r t (⟨rfl, ht⟩ | ⟨np, rfl, hunused, ht⟩)
  · show Books (tableOf t) 0
    rw [ht]
    exact h
  · have hempty : ∀ fd, (tableOf s).slot (np, fd) = none := by
      refine h.closed np ?_
      rw [hunused]
      decide
    show wp (process p >>= _) _ _ _
    rw [wp_bind, wp_process, wp_bind, wp_process, wp_bind]
    refine wp_post (onMem_table (throws_uvmcopy _ _ _ _)) ?_
    intro r u hu
    rw [ht] at hu
    split
    · -- The memory of the parent cannot be copied: the slot is freed again.
      rw [wp_bind]
      refine wp_post (freeproc_table c) ?_
      intro _ v hv
      rw [wp_pure, hv, hu, FdTable.setState_setState]
      exact h.setState (Or.inr hempty)
    · rw [wp_bind]
      refine wp_post (setProcess_table (fun _ => rfl) fun _ => rfl) ?_
      intro _ v hv
      rw [wp_bind]
      refine wp_post (onMem_table (throws_copyTrapframe _ _)) ?_
      intro _ w hw
      rw [hv, hu] at hw
      have hstart : Forking ((tableOf s).setState np .used) np (List.finRange NOFILE)
          (tableOf w) := by
        rw [hw]
        exact ⟨h.balance, rfl, fun _ _ _ => rfl, fun fd _ => hempty fd, List.nodup_finRange _⟩
      rw [wp_bind]
      refine wp_post (wp_forEach (fun l t => Forking ((tableOf s).setState np .used) np l (tableOf t))
        (fun i l t => forkFile_step) hstart) ?_
      intro _ x hx
      rw [wp_bind]
      refine wp_post (idupPtr_table _) ?_
      intro cwd y hy
      rw [wp_bind]
      refine wp_post (setProcess_table (fun _ => rfl) fun _ => rfl) ?_
      intro _ z hz
      rw [wp_bind]
      refine wp_post (setProcess_table (fun _ => rfl) fun _ => rfl) ?_
      intro _ z' hz'
      rw [wp_bind]
      refine wp_post (setProcess_table (fun _ => rfl) fun _ => rfl) ?_
      intro _ z'' hz''
      rw [wp_bind]
      refine wp_post (setProcess_state (fun _ => rfl) fun _ => rfl) ?_
      intro _ o ho
      rw [wp_pure, ho, hz'', hz', hz, hy]
      -- Only the child has new slots, and it is alive now.
      refine ⟨hx.balance, ?_⟩
      intro q hq fd
      have hq : ¬ Live (Function.update (tableOf x).state np .runnable q) := hq
      by_cases hqn : q = np
      · rw [hqn, Function.update_self] at hq
        exact absurd (by decide) hq
      · rw [Function.update_of_ne hqn, hx.state] at hq
        have hq : ¬ Live (Function.update (tableOf s).state np .used q) := hq
        rw [Function.update_of_ne hqn] at hq
        show (tableOf x).slot (q, fd) = none
        rw [hx.others q hqn]
        exact h.closed q hq fd

/-! ### `exit` and `wait` -/

/-- Before the descriptors `l` are closed: the other ones of the process are clear. -/
structure Exiting (T₀ : FdTable) (p : ProcPtr) (l : List Fd) (T : FdTable) : Prop where
  books : Books T 0
  state : T.state = T₀.state
  cleared : ∀ fd, fd ∉ l → T.slot (p, fd) = none

theorem exitFile_step {T₀ : FdTable} {i : Fd} {l : List Fd} (hp : Live (T₀.state p))
    (h : Exiting T₀ p (i :: l) (tableOf s)) :
    wp (exitFile c p i) (fun _ t => Exiting T₀ p l (tableOf t)) Quiet s := by
  rw [exitFile, wp_bind, wp_process]
  cases hslot : (s.proc p).ofile i with
  | none =>
    have hslot : (tableOf s).slot (p, i) = none := hslot
    refine ⟨h.books, h.state, ?_⟩
    intro fd hfd
    by_cases hi : fd = i
    · rw [hi]
      exact hslot
    · exact h.cleared fd fun hmem => hfd ((List.mem_cons.mp hmem).resolve_left hi)
  | some f =>
    have hslot : (tableOf s).slot (p, i) = some f := hslot
    show wp (fileclose c f >>= _) _ _ _
    rw [wp_bind]
    -- The file is closed first, while its slot still points to it.
    refine wp_post (fileclose_table c (h.books.pos_of_slot hslot)) ?_
    intro _ t ht
    have hdown : Books (tableOf t) (more 0 f (-1)) := by
      rw [ht]
      exact h.books.setRef (-1)
    have hslot' : (tableOf t).slot (p, i) = some f := by
      rw [ht]
      exact hslot
    have hstate : (tableOf t).state = T₀.state := by
      rw [ht]
      exact h.state
    have hclear := hdown.clear (by rw [hstate]; exact hp) hslot'
    rw [more_undo (by decide)] at hclear
    rw [wp_setOfile, tableOf_withOfile]
    refine ⟨hclear, hstate, ?_⟩
    intro fd hfd
    show Function.update (tableOf t).slot (p, i) none (p, fd) = none
    by_cases hi : fd = i
    · rw [hi, Function.update_self]
    · rw [Function.update_of_ne fun he => hi (Prod.mk.inj he).2, ht]
      exact h.cleared fd fun hmem => hfd ((List.mem_cons.mp hmem).resolve_left hi)

theorem reparent_table :
    wp (reparent p) (fun _ t => tableOf t = tableOf s) Quiet s := by
  rw [reparent, wp_modify]
  ext1
  · rfl
  · funext x
    show (if (s.proc x.1).parent = some p then _ else _ : Process).ofile x.2 = _
    split
    · rfl
    · rfl
  · funext q
    show (if (s.proc q).parent = some p then _ else _ : Process).state = _
    split
    · rfl
    · rfl

theorem exit_books (h : Books (tableOf s) 0) (hp : Live ((tableOf s).state p))
    (status : Int32) : wp (exit c p status) (fun _ t => Books (tableOf t) 0) Quiet s := by
  rw [exit, wp_bind, wp_read]
  split
  · exact (by decide : Panic.layer .initExiting ≠ .file)
  · have hstart : Exiting (tableOf s) p (List.finRange NOFILE) (tableOf s) :=
      ⟨h, rfl, fun fd hfd => absurd (List.mem_finRange fd) hfd⟩
    rw [wp_bind]
    refine wp_post (wp_forEach (fun l t => Exiting (tableOf s) p l (tableOf t))
      (fun i l t => exitFile_step c hp) hstart) ?_
    intro _ t ht
    rw [wp_bind, wp_process, wp_bind]
    refine wp_post (iputPtr_table c _) ?_
    intro _ u hu
    rw [wp_bind]
    refine wp_post (setProcess_table (fun _ => rfl) fun _ => rfl) ?_
    intro _ v hv
    rw [wp_bind]
    refine wp_post reparent_table ?_
    intro _ w hw
    refine wp_post (setProcess_state (fun _ => rfl) fun _ => rfl) ?_
    intro _ x hx
    rw [hx, hw, hv, hu]
    exact ht.books.setState (Or.inr fun fd => ht.cleared fd List.not_mem_nil)

theorem wait_books (h : Books (tableOf s) 0) (addr : Nat) :
    wp (wait c p addr) (fun _ t => Books (tableOf t) 0) Quiet s := by
  rw [wait, wp_bind, wp_read]
  split
  · rename_i child hchild
    have hzombie : (s.proc child).parent = some p ∧ (s.proc child).state = .zombie := by
      simpa using List.find?_some hchild
    have hempty : ∀ fd, (tableOf s).slot (child, fd) = none := by
      refine h.closed child ?_
      show ¬ Live (s.proc child).state
      rw [hzombie.2]
      decide
    rw [wp_bind]
    have hcopy : wp (if addr = 0 then Pure.pure 0 else
        onMem (copyout (s.proc p).pagetable addr (intBytes (s.proc child).xstate)))
        (fun _ t => tableOf t = tableOf s) Quiet s := by
      split
      · rw [wp_pure]
      · exact onMem_table (throws_copyout _ _ _)
    refine wp_post hcopy ?_
    intro r t ht
    split
    · rw [wp_bind]
      refine wp_post (freeproc_table c) ?_
      intro _ u hu
      rw [wp_pure, hu, ht]
      exact h.setState (Or.inr hempty)
    · rw [wp_pure, ht]
      exact h
  · split
    · exact h
    · exact h

/-! ### Runs -/

/-- The calls that open, copy and close descriptors, and `wait`, which frees the slots of the
processes that `exit` leaves behind. -/
inductive SysCall where
  | sysOpen (path : Option (List UInt8)) (omode : UInt32)
  | sysPipe (fdarray : Nat)
  | sysDup (fd : Int32)
  | sysClose (fd : Int32)
  | fork
  | exit (status : Int32)
  | wait (addr : Nat)

/-- The call, made by process `p`. -/
def SysCall.run (p : ProcPtr) : SysCall → SysM Unit
  | .sysOpen path omode => do
      let _ ← Kernel.sysOpen c p path omode
      Pure.pure ()
  | .sysPipe fdarray => do
      let _ ← Kernel.sysPipe c p fdarray
      Pure.pure ()
  | .sysDup fd => do
      let _ ← Kernel.sysDup p fd
      Pure.pure ()
  | .sysClose fd => do
      let _ ← Kernel.sysClose c p fd
      Pure.pure ()
  | .fork => do
      let _ ← Kernel.fork c p
      Pure.pure ()
  | .exit status => Kernel.exit c p status
  | .wait addr => do
      let _ ← Kernel.wait c p addr
      Pure.pure ()

/-- The calls as a machine. -/
def syscalls : Machine SysState (ProcPtr × SysCall) Panic := machine fun a => a.2.run c a.1

/-- A call is made by a live process. -/
def ByLive (s : SysState) (a : ProcPtr × SysCall) : Prop := Live (s.proc a.1).state

/-- At boot no file is open. -/
structure Booted (s : SysState) : Prop where
  refs : ∀ f, (s.ftable f).ref = 0
  ofile : ∀ p fd, (s.proc p).ofile fd = none

theorem Booted.books (h : Booted s) : Books (tableOf s) 0 := by
  refine ⟨?_, fun p _ fd => h.ofile p fd⟩
  intro f
  have hcount : (tableOf s).count f = 0 := by
    refine (countAgents_eq_zero _ _).mpr ?_
    rintro ⟨p, fd⟩ hx
    have hx : (s.proc p).ofile fd = some f := hx
    rw [h.ofile p fd] at hx
    cases hx
  rw [hcount]
  exact h.refs f

/-- Every call keeps the books, and no panic of the file table is raised. -/
theorem syscall_books {a : ProcPtr × SysCall} (h : Books (tableOf s) 0) (ha : ByLive s a) :
    wp (a.2.run c a.1) (fun _ t => Books (tableOf t) 0) Quiet s := by
  obtain ⟨p, call⟩ := a
  cases call with
  | sysOpen path omode =>
    show wp (Kernel.sysOpen c p path omode >>= _) _ _ _
    rw [wp_bind]
    exact sysOpen_books c h ha path omode
  | sysPipe fdarray =>
    show wp (Kernel.sysPipe c p fdarray >>= _) _ _ _
    rw [wp_bind]
    exact sysPipe_books c h ha fdarray
  | sysDup fd =>
    show wp (Kernel.sysDup p fd >>= _) _ _ _
    rw [wp_bind]
    exact sysDup_books h ha fd
  | sysClose fd =>
    show wp (Kernel.sysClose c p fd >>= _) _ _ _
    rw [wp_bind]
    exact sysClose_books c h ha fd
  | fork =>
    show wp (Kernel.fork c p >>= _) _ _ _
    rw [wp_bind]
    exact fork_books c h
  | exit status => exact exit_books c h ha status
  | wait addr =>
    show wp (Kernel.wait c p addr >>= _) _ _ _
    rw [wp_bind]
    exact wait_books c h addr

theorem books_of_reach (hr : Reach (syscalls c) ByLive Booted s) : Books (tableOf s) 0 := by
  refine @Reach.invariant _ _ _ _ _ _ (fun s => Books (tableOf s) 0) ?_ ?_ s hr
  · intro s hs
    exact hs.books
  · intro s a t hs ha hstep
    exact machine_ok (syscall_books c hs ha) hstep

/-- A file that `filealloc` takes is in no slot and not in flight. -/
theorem filealloc_fresh {u t : SysState} {d : FilePtr → Int} {f : FilePtr}
    (h : Books (tableOf u) d) (hd : ∀ g, 0 ≤ d g) (hf : filealloc u = .ok (some f, t)) :
    (∀ x, (tableOf u).slot x ≠ some f) ∧ d f = 0 ∧ Books (tableOf t) (more d f 1) ∧
      (tableOf t).slot = (tableOf u).slot := by
  rcases wp_ok (filealloc_books h hd) hf with ⟨hnone, _⟩ | ⟨g, hg, hslot, hzero, hbooks, hsame, _⟩
  · cases hnone
  · obtain rfl : f = g := Option.some.inj hg
    exact ⟨hslot, hzero, hbooks, hsame⟩

/-- In every state between calls the count of a file is the number of descriptors that point
to it. So no call stops in `fileup` or `fileclose`, and `filealloc`, called once or twice,
finds files that no descriptor points to. -/
theorem refs_exact {s : SysState} (hr : Reach (syscalls c) ByLive Booted s) :
    (∀ f, (s.ftable f).ref
      = (Finset.univ.filter fun x : ProcPtr × Fd => (s.proc x.1).ofile x.2 = some f).card) ∧
    (∀ a e, ByLive s a → syscalls c s a = some (.error e) → e ≠ .fileup ∧ e ≠ .fileclose) ∧
    ∀ u f t, u.ftable = s.ftable → u.proc = s.proc → filealloc u = .ok (some f, t) →
      (∀ p fd, (s.proc p).ofile fd ≠ some f) ∧
      ∀ f' t', filealloc t = .ok (some f', t') →
        f' ≠ f ∧ ∀ p fd, (s.proc p).ofile fd ≠ some f' := by
  have h := books_of_reach c hr
  refine ⟨?_, ?_, ?_⟩
  · intro f
    have hf := h.balance f
    rw [Pi.zero_apply, Int.add_zero] at hf
    exact hf
  · intro a e ha herr
    have hquiet : Quiet e := machine_error (syscall_books c h ha) herr
    constructor
    · intro he
      rw [he] at hquiet
      exact hquiet rfl
    · intro he
      rw [he] at hquiet
      exact hquiet rfl
  · intro u f t hft hproc hf
    have hu : tableOf u = tableOf s := by
      unfold tableOf
      rw [hft, hproc]
    rw [← hu] at h
    obtain ⟨hslot, _, hbooks, hsame⟩ := filealloc_fresh h (fun _ => Int.le_refl _) hf
    have hofile : ∀ p fd, (tableOf u).slot (p, fd) = (s.proc p).ofile fd := by
      intro p fd
      rw [hu]
      rfl
    refine ⟨fun p fd => ?_, ?_⟩
    · rw [← hofile]
      exact hslot (p, fd)
    · intro f' t' hf'
      obtain ⟨hslot', hzero, _⟩ :=
        filealloc_fresh hbooks (more_nonneg fun _ => Int.le_refl _) hf'
      refine ⟨?_, fun p fd => ?_⟩
      · intro he
        rw [he] at hzero
        have := more_pos (d := (0 : FilePtr → Int)) (f := f) (Int.le_refl _)
        omega
      · rw [← hofile, ← hsame]
        exact hslot' (p, fd)

/-- A file that is not open. -/
def closedFile : File where
  type := .none
  ref := 0
  isReadable := false
  isWritable := false
  pipe := 0
  ip := none
  off := 0
  major := 0

/-- A process without resources. -/
def blankProcess : Process where
  state := .unused
  killed := false
  xstate := 0
  pid := 0
  parent := none
  sz := 0
  pagetable := 0
  trapframe := 0
  ofile := fun _ => none
  cwd := none
  name := []

theorem nproc_pos : 0 < NPROC := by decide

/-- The first slot of the process table. -/
def firstProc : ProcPtr := ⟨0, nproc_pos⟩

/-- The kernel at `KERNBASE`, and the superblock of `mkfs`. -/
def plainParam : SysParam := ⟨KERNBASE, 0, Mkfs.superblock⟩

/-- The first process runs, over cleared memory with one free page. -/
def firstState : SysState where
  fs := ⟨fun _ => Bytes.zero BSIZE, fun _ => ⟨.fresh .none, 0, 0, 0, false, false⟩⟩
  kmem := ⟨fun _ => 0, KERNBASE⟩
  ftable := fun _ => closedFile
  pipes := fun _ => ⟨[], 0, 0, false, false⟩
  proc p := if p = firstProc then { blankProcess with state := .running } else blankProcess
  nextpid := 2
  initproc := firstProc

/-- The first process opens a pipe, and the copy of the descriptors fails, since its page table
is empty. -/
theorem refs_exact_pipe : ∃ t,
    syscalls plainParam firstState (firstProc, .sysPipe 0) = some (.ok t) ∧
    ∀ f, (t.ftable f).ref
      = (Finset.univ.filter fun x : ProcPtr × Fd => (t.proc x.1).ofile x.2 = some f).card := by
  have hboot : Booted firstState := by
    refine ⟨fun _ => rfl, ?_⟩
    intro p fd
    show (if p = firstProc then _ else _ : Process).ofile fd = none
    split
    · rfl
    · rfl
  have hlive : ByLive firstState (firstProc, .sysPipe 0) := Or.inr (Or.inr rfl)
  obtain ⟨t, hstep, -⟩ := ends_iff.mp (by decide +kernel :
    ends (syscalls plainParam firstState (firstProc, .sysPipe 0)) (fun _ => true) = true)
  have hr : Reach (syscalls plainParam) ByLive Booted t :=
    Reach.step (Reach.start hboot) hlive hstep
  exact ⟨t, hstep, (refs_exact plainParam hr).1⟩

end Xv6.Proofs.Sys
