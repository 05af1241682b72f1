import Xv6.Proofs.Mem.Copyout
import Xv6.Proofs.Sys.DescriptorRuns

/-!
# `Xv6.Proofs.Sys.NewFds`: how the calls report a new descriptor

`sys_open`, `sys_dup` and `sys_pipe` fill the lowest free slots of the process (`fdalloc_lowest`)
and leave the table alone when they fail: the slots that `sys_pipe` clears on its failing paths
were free before. `sys_open` returns the index and `sys_pipe` stores both indices in user memory.
`sys_dup` fills the right slot too, but returns 0, which is the new descriptor only if the lowest
free slot is slot 0 (`descriptors_reported_iff`).

The memory of `sys_pipe` is read through the page table of the process. `kalloc` and the two
copies write in a free page and in user pages, so the page table translates as it did.
-/

set_option autoImplicit false

namespace Xv6.Proofs.Sys

open Lib Lib.Action Kernel

variable {s t : SysState} {p : ProcPtr} {f : FilePtr} (c : SysParam)

/-! ### Slots -/

/-- The descriptor slots of all processes. -/
def fdSlots (s : SysState) : ProcPtr × Fd → Option FilePtr := (tableOf s).slot

/-- The lowest free slot of a process. -/
structure LowestFree (s : SysState) (p : ProcPtr) (fd : Fd) : Prop where
  free : fdSlots s (p, fd) = none
  below : ∀ e < fd, fdSlots s (p, e) ≠ none

theorem LowestFree.unique {fd fd' : Fd} (h : LowestFree s p fd) (h' : LowestFree s p fd') :
    fd = fd' := by
  rcases Nat.lt_trichotomy fd fd' with hlt | heq | hlt
  · exact absurd h.free (h'.below fd hlt)
  · exact Fin.ext heq
  · exact absurd h'.free (h.below fd' hlt)

/-- The call has filled the lowest free slot, and no other. -/
structure Took (s t : SysState) (p : ProcPtr) (fd : Fd) (f : FilePtr) : Prop where
  lowest : LowestFree s p fd
  slots : fdSlots t = Function.update (fdSlots s) (p, fd) (some f)

theorem fdSlots_withOfile (fd : Fd) (v : Option FilePtr) :
    fdSlots (withOfile s p fd v) = Function.update (fdSlots s) (p, fd) v :=
  congrArg FdTable.slot (tableOf_withOfile fd v)

/-- `fdalloc` fills the lowest free slot. -/
theorem fdalloc_lowest :
    wp (fdalloc p f) (fun r t => r = none ∧ t = s ∨
      ∃ fd, r = some fd ∧ LowestFree s p fd ∧ t = withOfile s p fd (some f))
      (fun _ => False) s := by
  rw [fdalloc, wp_bind, wp_process]
  cases hfind : (List.finRange NOFILE).find? fun fd => (s.proc p).ofile fd = none with
  | none => exact .inl ⟨rfl, rfl⟩
  | some fd =>
    obtain ⟨hfree, i, hi, hget, hbefore⟩ := List.find?_eq_some_iff_getElem.mp hfind
    refine .inr ⟨fd, rfl, ⟨of_decide_eq_true hfree, ?_⟩, rfl⟩
    intro e he hnone
    rw [List.getElem_finRange] at hget
    have hval : i = fd.val := congrArg Fin.val hget
    have hused := hbefore e (by rw [hval]; exact he)
    rw [List.getElem_finRange] at hused
    have hnone : (s.proc p).ofile e = none := hnone
    simp [hnone] at hused

theorem keeps_onFs {α : Type} {x : FsM α} : Keeps fdSlots (onFs x) := fun _ =>
  wp_zoom.mpr (wp_iff.mpr ⟨fun _ _ _ => rfl, fun _ _ => trivial⟩)

theorem keeps_onMem {α : Type} {x : KmemM α} : Keeps fdSlots (onMem x) := fun _ =>
  wp_zoom.mpr (wp_iff.mpr ⟨fun _ _ _ => rfl, fun _ _ => trivial⟩)

theorem keeps_fileclose : Keeps fdSlots (fileclose c f) := by
  have hfile : ∀ g, Keeps fdSlots (setFile f g) := fun g => Keeps.modify fun _ => rfl
  refine Keeps.bind Keeps.read fun _ => Keeps.ite Keeps.fail ?_
  refine Keeps.bind (hfile _) fun _ => Keeps.bind Keeps.read fun _ => Keeps.ite Keeps.pure ?_
  refine Keeps.bind (hfile _) fun _ => Keeps.bind Keeps.read fun _ => Keeps.ite ?_ ?_
  · refine Keeps.bind (Keeps.modify fun _ => rfl) fun _ => Keeps.bind Keeps.read fun _ => ?_
    exact Keeps.when keeps_onMem
  · refine Keeps.ite ?_ Keeps.pure
    unfold iputPtr
    split
    · exact keeps_onFs
    · exact Keeps.fail

/-! ### `sys_open` -/

/-- The call returns -1 and leaves the table, or it returns the descriptor of the new file, which
is open for the inode. -/
def OpenReport (s : SysState) (p : ProcPtr) (path : Option (List UInt8)) (omode : UInt32) (r : Int)
    (t : SysState) : Prop :=
  r = -1 ∧ fdSlots t = fdSlots s ∨
    ∃ fd f path' ip fs', r = fd.val ∧ Took s t p fd f ∧ path = some path' ∧
      openInode c.sb (s.proc p).cwd path' omode s.fs = .ok (some ip, fs') ∧
      (s.ftable f).ref = 0 ∧
      t.ftable f = openFile (fs'.itable ip) ip omode { s.ftable f with ref := 1 }

/-- A call that keeps the slots and then fails. -/
theorem wp_fails {x : SysM Unit} {post : Int → SysState → Prop} (hx : Keeps fdSlots x)
    (hpost : ∀ u, fdSlots u = fdSlots s → post (-1) u) :
    wp (x >>= fun _ => Pure.pure (-1)) post (fun _ => True) s := by
  rw [wp_bind]
  exact wp_post (hx s) fun _ u hu => hpost u hu

theorem sysOpen_report (path : Option (List UInt8)) (omode : UInt32) :
    wp (sysOpen c p path omode) (OpenReport c s p path omode) (fun _ => True) s := by
  cases path with
  | none => exact .inl ⟨rfl, rfl⟩
  | some path =>
    rw [sysOpen, wp_bind, wp_process, wp_bind, onFs, wp_zoom]
    refine wp_iff.mpr ⟨?_, fun _ _ => trivial⟩
    intro r fs' hopen
    cases r with
    | none => exact .inl ⟨rfl, rfl⟩
    | some ip =>
      show wp (filealloc >>= _) _ _ _
      rw [wp_bind, filealloc, wp_bind, wp_read]
      split
      · rename_i f hf
        have hzero : (s.ftable f).ref = 0 := by simpa using List.find?_some hf
        rw [wp_bind, wp_setFile, wp_pure]
        show wp (fdalloc p f >>= _) _ _ _
        rw [wp_bind]
        refine wp_mono fdalloc_lowest ?_ fun _ => False.elim
        rintro r u (⟨rfl, rfl⟩ | ⟨fd, rfl, hlow, rfl⟩)
        · refine wp_bind.mpr (wp_post (keeps_fileclose c _) ?_)
          intro _ u hu
          exact wp_fails keeps_onFs fun v hv => .inl ⟨rfl, hv.trans hu⟩
        · show wp (onFs (inode ip) >>= _) _ _ _
          rw [wp_bind, onFs, wp_zoom]
          show wp (setFile f _ >>= _) _ _ _
          rw [wp_bind, wp_setFile, wp_bind, onFs, wp_zoom]
          refine wp_iff.mpr ⟨?_, fun _ _ => trivial⟩
          intro _ fs'' _
          refine .inr ⟨fd, f, path, ip, fs', rfl, ⟨⟨hlow.free, hlow.below⟩, ?_⟩, rfl, hopen, hzero, ?_⟩
          · exact fdSlots_withOfile _ _
          · show Function.update (Function.update s.ftable f _) f (openFile _ ip omode
              (Function.update s.ftable f { s.ftable f with ref := 1 } f)) f = _
            rw [Function.update_self, Function.update_self]
            rfl
      · exact wp_fails keeps_onFs fun v hv => .inl ⟨rfl, hv⟩

/-! ### `sys_dup` -/

/-- The call returns -1 and leaves the table, or it returns the new descriptor of the file. -/
def DupReport (s : SysState) (p : ProcPtr) (fd : Int32) (r : Int) (t : SysState) : Prop :=
  r = -1 ∧ fdSlots t = fdSlots s ∨
    ∃ old new f, (old : Fd).val = fd.toInt ∧ fdSlots s (p, old) = some f ∧ r = (new : Fd).val ∧
      Took s t p new f

/-- What `sys_dup` does: it is right up to its result. -/
theorem sysDup_spec (fd : Int32) :
    wp (sysDup p fd) (fun r t => r = -1 ∧ fdSlots t = fdSlots s ∨
      r = 0 ∧ ∃ old new f, (old : Fd).val = fd.toInt ∧ fdSlots s (p, old) = some f ∧
        Took s t p new f) (fun _ => True) s := by
  rw [sysDup, wp_bind, argfd, wp_bind, wp_process]
  split
  · rename_i hrange
    rw [wp_pure]
    cases hslot : (s.proc p).ofile ⟨fd.toInt.toNat, hrange.2⟩ with
    | none => exact .inl ⟨rfl, rfl⟩
    | some f =>
      show wp (fdalloc p f >>= _) _ _ _
      rw [wp_bind]
      refine wp_mono fdalloc_lowest ?_ fun _ => False.elim
      rintro r u (⟨rfl, rfl⟩ | ⟨new, rfl, hlow, rfl⟩)
      · exact .inl ⟨rfl, rfl⟩
      · have hup : Keeps fdSlots (fileup f) := Keeps.bind Keeps.read fun _ =>
          Keeps.ite Keeps.fail (Keeps.bind (Keeps.modify fun _ => rfl) fun _ => Keeps.pure)
        refine wp_bind.mpr (wp_post (hup _) ?_)
        intro _ u hu
        refine .inr ⟨rfl, _, new, f, Int.toNat_of_nonneg hrange.1, hslot, hlow, ?_⟩
        rw [hu]
        exact fdSlots_withOfile _ _
  · exact .inl ⟨rfl, rfl⟩

/-- Descriptor 0. -/
def fdZero : Fd := ⟨0, by decide⟩

/-- `sys_dup` reports its descriptor exactly if it is descriptor 0. -/
theorem dupReport_iff {fd : Int32} {r : Int} (hrun : sysDup p fd s = .ok (r, t)) :
    DupReport s p fd r t ↔ (r = 0 → LowestFree s p fdZero) := by
  rcases wp_ok (sysDup_spec fd) hrun with ⟨rfl, hsame⟩ | ⟨rfl, old, new, f, hold, hslot, htook⟩
  · exact iff_of_true (.inl ⟨rfl, hsame⟩) fun h => absurd h (by decide)
  · constructor
    · rintro (⟨hfail, -⟩ | ⟨_, new', _, -, -, hr, htook'⟩) -
      · exact absurd hfail (by decide)
      · obtain rfl : new' = fdZero := Fin.ext (Int.ofNat.inj hr).symm
        exact htook'.lowest
    · intro h
      obtain rfl : new = fdZero := htook.lowest.unique (h rfl)
      exact .inr ⟨old, fdZero, f, hold, hslot, rfl, htook⟩

/-! ### `sys_pipe` -/

/-- The address space is in order, and the next free page is none of its tables. -/
structure PipeSpace (k : Kmem) (pt : Nat) : Prop where
  pages : Mem.UserPages k.mem pt
  free : k.freelist ∉ Mem.tables k.mem pt
  aligned : k.freelist % PGSIZE = 0

/-- The two files are the read end and the write end of one pipe. -/
structure PipeEnds (s : SysState) (rf wf : FilePtr) : Prop where
  readEnd : (s.ftable rf).type = .pipe ∧ (s.ftable rf).isReadable = true ∧
    (s.ftable rf).isWritable = false
  writeEnd : (s.ftable wf).type = .pipe ∧ (s.ftable wf).isReadable = false ∧
    (s.ftable wf).isWritable = true
  pipe : (s.ftable rf).pipe = (s.ftable wf).pipe

/-- The call returns -1 and leaves the table, or it fills the two lowest free slots with the ends
of a pipe and stores their indices in user memory. -/
def PipeReport (s : SysState) (p : ProcPtr) (fdarray : Nat) (r : Int) (t : SysState) : Prop :=
  r = -1 ∧ fdSlots t = fdSlots s ∨
    r = 0 ∧ ∃ fd0 fd1 rf wf, LowestFree s p fd0 ∧ fd0 < fd1 ∧ fdSlots s (p, fd1) = none ∧
      (∀ e < fd1, e ≠ fd0 → fdSlots s (p, e) ≠ none) ∧
      fdSlots t = Function.update (Function.update (fdSlots s) (p, fd0) (some rf)) (p, fd1)
        (some wf) ∧ PipeEnds t rf wf ∧
      ∀ i < 8, Mem.userByte t.kmem.mem (s.proc p).pagetable (fdarray + i)
        = (intBytes (Int32.ofNat fd0.val) ++ intBytes (Int32.ofNat fd1.val))[i]?

theorem keeps_pipeallocBad {f0 f1 : Option FilePtr} {pi : Nat} :
    Keeps fdSlots (pipeallocBad c f0 f1 pi) :=
  Keeps.bind (Keeps.when keeps_onMem) fun _ =>
    Keeps.bind (Keeps.forEach (fun _ => keeps_fileclose c) _) fun _ =>
      Keeps.forEach (fun _ => keeps_fileclose c) _

/-- `pipealloc` makes the two ends, and writes in a free page only. -/
theorem pipealloc_report :
    wp (pipealloc c) (fun r t => r = none ∧ fdSlots t = fdSlots s ∨
      ∃ rf wf, r = some (rf, wf) ∧ t.proc = s.proc ∧ PipeEnds t rf wf ∧
        ∀ a, ¬ (s.kmem.freelist ≤ a ∧ a < s.kmem.freelist + PGSIZE) →
          t.kmem.mem a = s.kmem.mem a) (fun _ => True) s := by
  have hbad : ∀ {f0 f1 : Option FilePtr} {u : SysState}
      {post : Option (FilePtr × FilePtr) → SysState → Prop},
      (∀ v, fdSlots v = fdSlots u → post none v) →
      wp (pipeallocBad c f0 f1 0 >>= fun _ => Pure.pure none) post (fun _ => True) u := by
    intro f0 f1 u post hpost
    rw [wp_bind]
    exact wp_post (keeps_pipeallocBad c u) fun _ v hv => hpost v hv
  rw [pipealloc, wp_bind, filealloc, wp_bind, wp_read]
  split
  · rename_i f0 hf0
    rw [wp_bind, wp_setFile, wp_pure]
    show wp (filealloc >>= _) _ _ _
    rw [wp_bind, filealloc, wp_bind, wp_read]
    split
    · rename_i f1 hf1
      have hne : f0 ≠ f1 := by
        rintro rfl
        have href := List.find?_some hf1
        simp [withFile] at href
      rw [wp_bind, wp_setFile, wp_pure]
      show wp (onMem kalloc >>= _) _ _ _
      rw [wp_bind, onMem, wp_zoom, kalloc, wp_bind, wp_read]
      split
      · rename_i hnonzero
        rw [wp_bind, wp_modify, memset, wp_bind, wp_modify, wp_pure, if_neg hnonzero]
        rw [wp_bind, setPipe, wp_modify, wp_bind, wp_setFile, wp_bind, wp_setFile, wp_pure]
        refine .inr ⟨f0, f1, rfl, rfl, ?_, fun a ha => if_neg ha⟩
        have hne' := hne.symm
        constructor
        · simp [withFile, hne]
        · simp [withFile]
        · simp [withFile, hne]
      · exact hbad fun v hv => .inl ⟨rfl, hv⟩
    · exact hbad fun v hv => .inl ⟨rfl, hv⟩
  · refine wp_pure.mpr ?_
    exact hbad fun v hv => .inl ⟨rfl, hv⟩

/-- The failing exits of `sys_pipe` clear the slots they are given. -/
theorem pipeFail_report {rf wf : FilePtr} {fds : List Fd}
    {post : Int → SysState → Prop}
    (h : ∀ u, fdSlots u = fds.foldl (fun T fd => Function.update T (p, fd) none) (fdSlots s) →
      post (-1) u) : wp (pipeFail c p rf wf fds) post (fun _ => True) s := by
  rw [pipeFail, wp_bind]
  induction fds generalizing s with
  | nil =>
    show wp (fileclose c rf >>= _) _ _ _
    refine wp_bind.mpr (wp_post (keeps_fileclose c s) ?_)
    intro _ t ht
    exact wp_fails (keeps_fileclose c) fun u hu => h u (hu.trans ht)
  | cons fd fds ih =>
    rw [Action.forEach, wp_bind, wp_setOfile]
    refine ih fun u hu => h u ?_
    rw [hu, fdSlots_withOfile]
    rfl

theorem PipeSpace.pages_after {k : Kmem} {pt : Nat} {m : Memory} (h : PipeSpace k pt)
    (hm : ∀ a, ¬ (k.freelist ≤ a ∧ a < k.freelist + PGSIZE) → m a = k.mem a) :
    Mem.UserPages m pt := by
  have hsame : ∀ q ∈ Mem.tables k.mem pt, Mem.SamePage k.mem m q := by
    intro q hq a hlo hhi
    refine hm a fun hin => h.free ?_
    have hq0 := Mem.tables_aligned h.pages.root q hq
    obtain ⟨heq, -⟩ := Mem.aligned_apart (i := a - q) (j := a - k.freelist) hq0 h.aligned
      (by omega) (by omega) (by omega)
    rwa [← heq]
  obtain ⟨htables, -, hptes, -⟩ := Mem.table_same pt hsame
  exact h.pages.congr htables hptes

/-- Two copies one after the other. -/
theorem stored_twice {m m₁ m₂ : Memory} {pt va : Nat} {x y : Int32} (hP : Mem.UserPages m pt)
    (h : Mem.Wrote m pt va (intBytes x) 4 m₁) (h' : Mem.Wrote m₁ pt (va + 4) (intBytes y) 4 m₂) :
    ∀ i < 8, Mem.userByte m₂ pt (va + i) = (intBytes x ++ intBytes y)[i]? := by
  have hlen : ∀ x, (intBytes x).length = 4 := fun x => by simp [intBytes]
  have hfirst : Mem.Wrote m pt va (intBytes x ++ intBytes y) 4 m₁ := by
    refine ⟨h.mapped, fun i hi => ?_, h.frame⟩
    rw [h.bytes i hi, List.getElem?_append_left (by rw [hlen]; exact hi)]
  have hboth : Mem.Wrote m pt va (intBytes x ++ intBytes y) 8 m₂ := by
    have hrest : Mem.Wrote m₁ pt (va + 4) ((intBytes x ++ intBytes y).drop 4) 4 m₂ := by
      rw [← hlen x, List.drop_left, hlen]
      exact h'
    exact hfirst.append hP hrest
  obtain ⟨hP₂, hptes⟩ := hP.of_frame hboth.userFrame
  intro i hi
  have hmapped := (Mem.userMapped_congr hptes).mpr (hboth.mapped i hi)
  rw [hP₂.byte hmapped, ← hboth.bytes i hi]
  unfold Mem.userAddr
  rw [hptes]

/-- The two copies of `sys_pipe`: both indices are in user memory, or the call fails. -/
theorem pipeCopies_report {pt fdarray : Nat} {x y : Int32} {fail : SysM Int}
    {post : Int → SysState → Prop} (hP : Mem.UserPages s.kmem.mem pt)
    (hfail : ∀ k, wp fail post (fun _ => True) { s with kmem := k })
    (hdone : ∀ k : Kmem, (∀ i < 8, Mem.userByte k.mem pt (fdarray + i)
      = (intBytes x ++ intBytes y)[i]?) → post 0 { s with kmem := k }) :
    wp (do
      let r ← onMem (copyout pt fdarray (intBytes x))
      if r < 0 then fail else do
        let r ← onMem (copyout pt ((fdarray + 4) % 2 ^ 64) (intBytes y))
        if r < 0 then fail else Pure.pure 0) post (fun _ => True) s := by
  rw [wp_bind, onMem, wp_zoom]
  refine wp_mono (Mem.copyout_spec hP) ?_ fun _ => False.elim
  rintro r k ⟨-, n, -, hwrote, ⟨rfl, rfl⟩ | ⟨rfl, -⟩⟩
  · rw [if_neg (by decide), wp_bind, onMem, wp_zoom]
    refine wp_mono (Mem.copyout_spec (hP.of_frame hwrote.userFrame).1) ?_ fun _ => False.elim
    rintro r k' ⟨-, n, -, hwrote', ⟨rfl, rfl⟩ | ⟨rfl, -⟩⟩
    · rw [if_neg (by decide), wp_pure]
      -- the first address is mapped, so the second does not wrap
      have hmod : (fdarray + 4) % 2 ^ 64 = fdarray + 4 := by
        have hmax : MAXVA = 274877906944 := rfl
        have hlt := (hwrote.mapped 0 (by simp [intBytes])).1
        omega
      rw [hmod] at hwrote'
      exact hdone k' (stored_twice hP hwrote hwrote')
    · rw [if_pos (by decide)]
      exact hfail k'
  · rw [if_pos (by decide)]
    exact hfail k

/-- A slot that was free is cleared again. -/
theorem update_undo {T : ProcPtr × Fd → Option FilePtr} {x : ProcPtr × Fd} {v : Option FilePtr}
    (hx : T x = none) : Function.update (Function.update T x v) x none = T := by
  rw [Function.update_idem, ← hx, Function.update_eq_self]

theorem sysPipe_report (h : PipeSpace s.kmem (s.proc p).pagetable) (fdarray : Nat) :
    wp (sysPipe c p fdarray) (PipeReport s p fdarray) (fun _ => True) s := by
  rw [sysPipe, wp_bind]
  refine wp_post (pipealloc_report c) ?_
  rintro r u (⟨rfl, hu⟩ | ⟨rf, wf, rfl, hproc, hends, hmem⟩)
  · exact .inl ⟨rfl, hu⟩
  have hslots : fdSlots u = fdSlots s := by
    unfold fdSlots tableOf
    rw [hproc]
  show wp (fdalloc p rf >>= _) _ _ _
  rw [wp_bind]
  refine wp_mono fdalloc_lowest ?_ fun _ => False.elim
  rintro r v (⟨rfl, rfl⟩ | ⟨fd0, rfl, hlow0, rfl⟩)
  · exact pipeFail_report c fun w hw => .inl ⟨rfl, hw.trans hslots⟩
  show wp (fdalloc p wf >>= _) _ _ _
  rw [wp_bind]
  refine wp_mono fdalloc_lowest ?_ fun _ => False.elim
  rintro r v (⟨rfl, rfl⟩ | ⟨fd1, rfl, hlow1, rfl⟩)
  · refine pipeFail_report c fun w hw => .inl ⟨rfl, hw.trans ?_⟩
    rw [fdSlots_withOfile]
    exact (update_undo hlow0.free).trans hslots
  have hT : fdSlots (withOfile (withOfile u p fd0 (some rf)) p fd1 (some wf)) = Function.update
      (Function.update (fdSlots s) (p, fd0) (some rf)) (p, fd1) (some wf) := by
    rw [fdSlots_withOfile, fdSlots_withOfile, hslots]
  have hlow : LowestFree s p fd0 := by
    constructor
    · rw [← hslots]
      exact hlow0.free
    · rw [← hslots]
      exact hlow0.below
  obtain ⟨hfree1, hbelow1⟩ := hlow1
  rw [fdSlots_withOfile, hslots] at hfree1 hbelow1
  have hne : fd1 ≠ fd0 := by
    rintro rfl
    rw [Function.update_self] at hfree1
    cases hfree1
  have hapart : ∀ {e : Fd}, e ≠ fd0 → (p, e) ≠ (p, fd0) := fun he heq => he (Prod.ext_iff.mp heq).2
  rw [Function.update_of_ne (hapart hne)] at hfree1
  have hpt : ((withOfile (withOfile u p fd0 (some rf)) p fd1 (some wf)).proc p).pagetable
      = (s.proc p).pagetable := by
    rw [← hproc]
    simp [withOfile]
  show wp (process p >>= _) _ _ _
  rw [wp_bind, wp_process, hpt]
  refine pipeCopies_report (h.pages_after hmem) ?_ ?_
  · refine fun k => pipeFail_report c fun w hw => .inl ⟨rfl, hw.trans ?_⟩
    show Function.update (Function.update (fdSlots (withOfile _ _ _ _)) (p, fd0) none) (p, fd1)
      none = _
    rw [hT, Function.update_comm (hapart hne), update_undo hlow.free, update_undo hfree1]
  · intro k hbytes
    refine .inr ⟨rfl, fd0, fd1, rf, wf, hlow, ?_, hfree1, ?_, hT, ⟨hends.1, hends.2, hends.3⟩,
      hbytes⟩
    · rcases Nat.lt_trichotomy fd0 fd1 with hlt | heq | hlt
      · exact hlt
      · exact absurd (Fin.ext heq).symm hne
      · exact absurd hfree1 (hlow.below fd1 hlt)
    · intro e he hne'
      have := hbelow1 e he
      rwa [Function.update_of_ne (hapart hne')] at this

/-! ### The calls -/

/-- A call that makes descriptors. -/
inductive FdCall where
  | sysOpen (path : Option (List UInt8)) (omode : UInt32)
  | sysDup (fd : Int32)
  | sysPipe (fdarray : Nat)

/-- The call, made by process `p`. -/
def FdCall.run (p : ProcPtr) : FdCall → SysM Int
  | .sysOpen path omode => Kernel.sysOpen c p path omode
  | .sysDup fd => Kernel.sysDup p fd
  | .sysPipe fdarray => Kernel.sysPipe c p fdarray

/-- What the call owes its caller. -/
def FdCall.Report (s : SysState) (p : ProcPtr) : FdCall → Int → SysState → Prop
  | .sysOpen path omode => OpenReport c s p path omode
  | .sysDup fd => DupReport s p fd
  | .sysPipe fdarray => PipeReport s p fdarray

/-- The first process has file 0 open as descriptor 0. -/
def openedState : SysState :=
  { firstState with
    ftable := fun f => if f = ⟨0, by decide⟩ then { closedFile with ref := 1 } else closedFile
    proc := fun p => if p = firstProc then
      { blankProcess with
        state := .running
        ofile := fun fd => if fd = fdZero then some ⟨0, by decide⟩ else none } else blankProcess }

end Xv6.Proofs.Sys
