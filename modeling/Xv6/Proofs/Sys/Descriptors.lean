import Xv6.Proofs.Sys.Panics
import Mathlib.Data.Fintype.Prod

/-!
# `Xv6.Proofs.Sys.Descriptors`: the reference counts of the file table are exact

`FdTable` is the part of the state that the count is about: the reference count of each file,
the descriptor slots of all processes, and the states of the processes. Each function of the
model moves it in a known way: a function of the file system or of the memory leaves it alone,
`filealloc`, `fileup` and `fileclose` change one count, and `fdalloc` fills one slot.

Inside a call the counts and the slots disagree by the references that the call itself holds.
`Balance T d` says so: `d f` is the number of references to `f` in flight, and it is negative
where a slot is filled first and counted afterwards, as in `sys_dup`. At the end of every call
nothing is in flight, on its failing paths too.

`fork` fills only the slots of the child that are open in the parent, so the slots of a process
that is not alive have to be empty. That is the second half of `Exact`.
-/

set_option autoImplicit false

namespace Xv6.Proofs.Sys

open Lib Lib.Action Kernel

/-! ### Counts and slots -/

/-- The counts of the files, the descriptor slots, and the states of the processes. -/
@[ext] structure FdTable where
  refs : FilePtr → Int
  slot : ProcPtr × Fd → Option FilePtr
  state : ProcPtr → ProcState

/-- The table of a state of the kernel. -/
def tableOf (s : SysState) : FdTable where
  refs f := (s.ftable f).ref
  slot x := (s.proc x.1).ofile x.2
  state p := (s.proc p).state

namespace FdTable

def setRef (T : FdTable) (f : FilePtr) (r : Int) : FdTable :=
  { T with refs := Function.update T.refs f r }

def setSlot (T : FdTable) (x : ProcPtr × Fd) (v : Option FilePtr) : FdTable :=
  { T with slot := Function.update T.slot x v }

def setState (T : FdTable) (p : ProcPtr) (st : ProcState) : FdTable :=
  { T with state := Function.update T.state p st }

/-- The number of slots that point to a file. -/
def count (T : FdTable) (f : FilePtr) : Nat := countAgents T.slot (· = some f)

variable {T : FdTable} {f : FilePtr} {p : ProcPtr} {x : ProcPtr × Fd}

theorem count_pos (h : T.slot x = some f) : 1 ≤ T.count f :=
  (countAgents_pos _ _).mpr ⟨x, h⟩

theorem count_setSlot (T : FdTable) (x : ProcPtr × Fd) (v : Option FilePtr) (g : FilePtr) :
    (T.setSlot x v).count g + (if T.slot x = some g then 1 else 0)
      = T.count g + (if v = some g then 1 else 0) :=
  countAgents_update T.slot (· = some g) x v

@[simp] theorem setState_setState (st st' : ProcState) :
    (T.setState p st).setState p st' = T.setState p st' := by
  simp [setState]

theorem setState_self : T.setState p (T.state p) = T := by
  simp [setState]

end FdTable

/-- The counts are the slots and the references in flight. -/
def Balance (T : FdTable) (d : FilePtr → Int) : Prop := ∀ f, T.refs f = T.count f + d f

/-- One reference more in flight. -/
def more (d : FilePtr → Int) (f : FilePtr) (n : Int) : FilePtr → Int := fun g =>
  if g = f then d g + n else d g

section Balance
variable {T : FdTable} {d : FilePtr → Int} {f : FilePtr} {x : ProcPtr × Fd} {p : ProcPtr}

theorem more_undo {n m : Int} (h : n + m = 0) : more (more d f n) f m = d := by
  funext g
  unfold more
  split
  · omega
  · rfl

theorem more_comm {g : FilePtr} (n m : Int) : more (more d f n) g m = more (more d g m) f n := by
  funext k
  unfold more
  split
  · split
    · omega
    · rfl
  · rfl

theorem more_nonneg (hd : ∀ g, 0 ≤ d g) (g : FilePtr) : 0 ≤ more d f 1 g := by
  have := hd g
  unfold more
  split
  · omega
  · omega

theorem more_pos (hd : 0 ≤ d f) : 1 ≤ more d f 1 f := by
  unfold more
  rw [if_pos rfl]
  omega

theorem Balance.setRef (h : Balance T d) (n : Int) :
    Balance (T.setRef f (T.refs f + n)) (more d f n) := by
  intro g
  show Function.update T.refs f (T.refs f + n) g = T.count g + more d f n g
  unfold more
  by_cases hg : g = f
  · rw [hg, Function.update_self, if_pos rfl, h f]
    omega
  · rw [Function.update_of_ne hg, if_neg hg, h g]

/-- A filled slot takes over a reference. -/
theorem Balance.fill (h : Balance T d) (hx : T.slot x = none) :
    Balance (T.setSlot x (some f)) (more d f (-1)) := by
  intro g
  have hcount := T.count_setSlot x (some f) g
  rw [hx, if_neg (by simp)] at hcount
  show T.refs g = (T.setSlot x (some f)).count g + more d f (-1) g
  rw [h g]
  unfold more
  by_cases hg : g = f
  · rw [hg] at hcount ⊢
    rw [if_pos rfl] at hcount ⊢
    omega
  · rw [if_neg (fun he => hg (Option.some.inj he).symm)] at hcount
    rw [if_neg hg]
    omega

/-- A cleared slot gives its reference to the call. -/
theorem Balance.clear (h : Balance T d) (hx : T.slot x = some f) :
    Balance (T.setSlot x none) (more d f 1) := by
  intro g
  have hcount := T.count_setSlot x none g
  rw [hx, if_neg (by simp : ¬ (none : Option FilePtr) = some g)] at hcount
  show T.refs g = (T.setSlot x none).count g + more d f 1 g
  rw [h g]
  unfold more
  by_cases hg : g = f
  · rw [hg] at hcount ⊢
    rw [if_pos rfl] at hcount ⊢
    omega
  · rw [if_neg (fun he => hg (Option.some.inj he).symm)] at hcount
    rw [if_neg hg]
    omega

end Balance

/-! ### What the functions do to the table -/

/-- The panic is not one of the file table. -/
def Quiet (e : Panic) : Prop := e.layer ≠ .file

theorem FsPanic.quiet {e : Panic} (h : FsPanic e) : Quiet e := by
  unfold Quiet
  rcases h with h | h
  · rw [h]
    decide
  · rw [h]
    decide

theorem VmPanic.quiet {e : Panic} (h : VmPanic e) : Quiet e := by
  unfold Quiet
  rcases h with h | h
  · rw [h]
    decide
  · rw [h]
    decide

section Functions
variable {s : SysState} {f : FilePtr} {p : ProcPtr} {α : Type}

/-- The state with a file changed. -/
def withFile (s : SysState) (f : FilePtr) (n : File) : SysState :=
  { s with ftable := Function.update s.ftable f n }

/-- The state with a process changed. -/
def withProcess (s : SysState) (p : ProcPtr) (q : Process) : SysState :=
  { s with proc := Function.update s.proc p q }

section
variable {err : Panic → Prop}

theorem wp_file {post : File → SysState → Prop} :
    wp (file f) post err s ↔ post (s.ftable f) s :=
  Iff.rfl

theorem wp_setFile {g : File → File} {post : Unit → SysState → Prop} :
    wp (setFile f g) post err s ↔ post () (withFile s f (g (s.ftable f))) :=
  Iff.rfl

theorem wp_process {post : Process → SysState → Prop} :
    wp (process p) post err s ↔ post (s.proc p) s :=
  Iff.rfl

theorem wp_setProcess {g : Process → Process} {post : Unit → SysState → Prop} :
    wp (setProcess p g) post err s ↔ post () (withProcess s p (g (s.proc p))) :=
  Iff.rfl

end

theorem tableOf_withFile (n : File) : tableOf (withFile s f n) = (tableOf s).setRef f n.ref := by
  ext1
  · funext k
    show (Function.update s.ftable f n k).ref = Function.update (tableOf s).refs f n.ref k
    by_cases hk : k = f
    · rw [hk, Function.update_self, Function.update_self]
    · rw [Function.update_of_ne hk, Function.update_of_ne hk]
      rfl
  · rfl
  · rfl

/-- A change of a file that keeps its count. -/
theorem tableOf_withFile_ref {n : File} (hn : n.ref = (s.ftable f).ref) :
    tableOf (withFile s f n) = tableOf s := by
  rw [tableOf_withFile, hn]
  exact congrArg (fun r => ({ tableOf s with refs := r } : FdTable)) (Function.update_eq_self f _)

/-- A change of a process that keeps its slots. -/
theorem tableOf_withProcess {q : Process} (hq : q.ofile = (s.proc p).ofile) :
    tableOf (withProcess s p q) = (tableOf s).setState p q.state := by
  ext1
  · rfl
  · funext x
    show (Function.update s.proc p q x.1).ofile x.2 = (s.proc x.1).ofile x.2
    by_cases hx : x.1 = p
    · rw [hx, Function.update_self, hq]
    · rw [Function.update_of_ne hx]
  · funext r
    show (Function.update s.proc p q r).state = Function.update (tableOf s).state p q.state r
    by_cases hr : r = p
    · rw [hr, Function.update_self, Function.update_self]
    · rw [Function.update_of_ne hr, Function.update_of_ne hr]
      rfl

/-- A change of a process that keeps its slots and its state. -/
theorem tableOf_withProcess_state {q : Process} (hq : q.ofile = (s.proc p).ofile)
    (hst : q.state = (s.proc p).state) : tableOf (withProcess s p q) = tableOf s := by
  rw [tableOf_withProcess hq, hst]
  exact FdTable.setState_self

/-- The state with a descriptor slot changed. -/
def withOfile (s : SysState) (p : ProcPtr) (fd : Fd) (v : Option FilePtr) : SysState :=
  let q := { s.proc p with ofile := Function.update (s.proc p).ofile fd v }
  { s with proc := Function.update s.proc p q }

theorem wp_setOfile {fd : Fd} {v : Option FilePtr} {post : Unit → SysState → Prop}
    {err : Panic → Prop} :
    wp (setOfile p fd v) post err s ↔ post () (withOfile s p fd v) :=
  Iff.rfl

theorem tableOf_withOfile (fd : Fd) (v : Option FilePtr) :
    tableOf (withOfile s p fd v) = (tableOf s).setSlot (p, fd) v := by
  ext1
  · rfl
  · funext x
    show (Function.update s.proc p _ x.1).ofile x.2 = Function.update (tableOf s).slot (p, fd) v x
    by_cases hx : x = (p, fd)
    · rw [hx, Function.update_self, Function.update_self]
      exact Function.update_self _ _ _
    · rw [Function.update_of_ne hx]
      by_cases hp : x.1 = p
      · have hfd : x.2 ≠ fd := fun h => hx (Prod.ext hp h)
        rw [hp, Function.update_self]
        show Function.update (s.proc p).ofile fd v x.2 = (s.proc x.1).ofile x.2
        rw [Function.update_of_ne hfd, hp]
      · rw [Function.update_of_ne hp]
        rfl
  · funext q
    show (Function.update s.proc p _ q).state = (s.proc q).state
    by_cases hq : q = p
    · rw [hq, Function.update_self]
    · rw [Function.update_of_ne hq]

/-- The file system does not touch the table. -/
theorem onFs_table {x : FsM α} (h : Throws FsPanic x) :
    wp (onFs x) (fun _ t => tableOf t = tableOf s) Quiet s := by
  rw [onFs, wp_zoom]
  exact wp_mono (h.run s.fs) (fun _ _ _ => rfl) fun _ he => he.quiet

/-- The memory does not touch the table. -/
theorem onMem_table {x : KmemM α} (h : Throws VmPanic x) :
    wp (onMem x) (fun _ t => tableOf t = tableOf s) Quiet s := by
  rw [onMem, wp_zoom]
  exact wp_mono (h.run s.kmem) (fun _ _ _ => rfl) fun _ he => he.quiet

theorem setFile_table {g : File → File} (hg : ∀ n, (g n).ref = n.ref) :
    wp (setFile f g) (fun _ t => tableOf t = tableOf s) Quiet s := by
  rw [wp_setFile]
  exact tableOf_withFile_ref (hg _)

theorem setPipe_table (pi : Nat) (g : Pipe → Pipe) :
    wp (setPipe pi g) (fun _ t => tableOf t = tableOf s) Quiet s :=
  rfl

theorem setProcess_table {g : Process → Process} (hg : ∀ q, (g q).ofile = q.ofile)
    (hst : ∀ q, (g q).state = q.state) :
    wp (setProcess p g) (fun _ t => tableOf t = tableOf s) Quiet s := by
  rw [wp_setProcess]
  exact tableOf_withProcess_state (hg _) (hst _)

theorem setProcess_state {g : Process → Process} {st : ProcState}
    (hg : ∀ q, (g q).ofile = q.ofile) (hst : ∀ q, (g q).state = st) :
    wp (setProcess p g) (fun _ t => tableOf t = (tableOf s).setState p st) Quiet s := by
  rw [wp_setProcess]
  have htable := tableOf_withProcess (s := s) (p := p) (hg (s.proc p))
  rw [hst] at htable
  exact htable

theorem iputPtr_table (c : SysParam) (ip : Option Ino) :
    wp (iputPtr c ip) (fun _ t => tableOf t = tableOf s) Quiet s := by
  cases ip with
  | none => exact (by decide : Panic.layer .fault ≠ .file)
  | some ip => exact onFs_table (throws_iput c.sb ip)

theorem idupPtr_table (ip : Option Ino) :
    wp (idupPtr ip) (fun _ t => tableOf t = tableOf s) Quiet s := by
  cases ip with
  | none => exact (by decide : Panic.layer .fault ≠ .file)
  | some ip => exact onFs_table (throws_idup ip)

theorem pipeclose_table (c : SysParam) (pi : Nat) (w : Bool) :
    wp (pipeclose c pi w) (fun _ t => tableOf t = tableOf s) Quiet s := by
  rw [pipeclose, wp_bind, setPipe, wp_modify, wp_bind, wp_read, wp_when]
  exact ⟨fun _ => onMem_table (throws_kfree c.kend pi), fun _ => rfl⟩

/-- `filealloc` takes a file without references. -/
theorem filealloc_table :
    wp filealloc (fun r t => r = none ∧ tableOf t = tableOf s ∨
      ∃ f, r = some f ∧ (tableOf s).refs f = 0 ∧ tableOf t = (tableOf s).setRef f 1)
      (fun _ => False) s := by
  rw [filealloc, wp_bind, wp_read]
  split
  · rename_i f hf
    have hzero : (s.ftable f).ref = 0 := by simpa using List.find?_some hf
    rw [wp_bind, wp_setFile, wp_pure]
    exact Or.inr ⟨f, rfl, hzero, tableOf_withFile _⟩
  · rw [wp_pure]
    exact Or.inl ⟨rfl, rfl⟩

/-- `fileup` counts one reference more. -/
theorem fileup_table (h : 1 ≤ (tableOf s).refs f) :
    wp (fileup f) (fun r t => r = f ∧ tableOf t = (tableOf s).setRef f ((tableOf s).refs f + 1))
      (fun _ => False) s := by
  have hpos : ¬ (s.ftable f).ref < 1 := Int.not_lt.mpr h
  rw [fileup, wp_bind, wp_file, if_neg hpos, wp_bind, wp_setFile, wp_pure]
  exact ⟨rfl, tableOf_withFile _⟩

/-- `fileclose` counts one reference less, whatever else it does. -/
theorem fileclose_table (c : SysParam) (h : 1 ≤ (tableOf s).refs f) :
    wp (fileclose c f)
      (fun _ t => tableOf t = (tableOf s).setRef f ((tableOf s).refs f - 1)) Quiet s := by
  have hpos : ¬ (s.ftable f).ref < 1 := Int.not_lt.mpr h
  rw [fileclose, wp_bind, wp_file, if_neg hpos, wp_bind, wp_setFile, wp_bind, wp_file]
  obtain ⟨u, hu⟩ : ∃ u, u = withFile s f { s.ftable f with ref := (s.ftable f).ref - 1 } :=
    ⟨_, rfl⟩
  have htable : tableOf u = (tableOf s).setRef f ((tableOf s).refs f - 1) := by
    rw [hu]
    exact tableOf_withFile _
  rw [← hu, ← htable]
  split
  · rw [wp_pure]
  · rw [wp_bind, wp_setFile, wp_bind, wp_file]
    -- The type is cleared, and the count stays.
    have hsame : tableOf (withFile u f { u.ftable f with type := .none }) = tableOf u :=
      tableOf_withFile_ref rfl
    rw [← hsame]
    split
    · exact pipeclose_table c _ _
    · split
      · exact iputPtr_table c _
      · rw [wp_pure]

theorem argfd_spec (fd : Int32) :
    wp (argfd p fd) (fun r t => t = s ∧ ∀ x, r = some x → (tableOf s).slot (p, x.1) = some x.2)
      (fun _ => False) s := by
  rw [argfd, wp_bind, wp_process]
  split
  · rename_i h
    rw [wp_pure]
    refine ⟨rfl, ?_⟩
    intro x hx
    obtain ⟨g, hg, rfl⟩ := Option.map_eq_some_iff.mp hx
    exact hg
  · rw [wp_pure]
    exact ⟨rfl, fun x hx => nomatch hx⟩

/-- `fdalloc` fills an empty slot of the process. -/
theorem fdalloc_spec :
    wp (fdalloc p f) (fun r t => r = none ∧ t = s ∨
      ∃ fd, r = some fd ∧ (tableOf s).slot (p, fd) = none ∧ t = withOfile s p fd (some f))
      (fun _ => False) s := by
  rw [fdalloc, wp_bind, wp_process]
  split
  · rename_i fd hfd
    have hnone : (s.proc p).ofile fd = none := by simpa using List.find?_some hfd
    rw [wp_bind, wp_setOfile, wp_pure]
    exact Or.inr ⟨fd, rfl, hnone, rfl⟩
  · rw [wp_pure]
    exact Or.inl ⟨rfl, rfl⟩

end Functions

/-! ### The calls -/

/-- The process can make calls. -/
def Live (st : ProcState) : Prop := st = .sleeping ∨ st = .runnable ∨ st = .running

instance (st : ProcState) : Decidable (Live st) := inferInstanceAs (Decidable (_ ∨ _))

/-- The counts are exact up to `d`, and only live processes have descriptors. -/
structure Books (T : FdTable) (d : FilePtr → Int) : Prop where
  balance : Balance T d
  closed : ∀ p, ¬ Live (T.state p) → ∀ fd, T.slot (p, fd) = none

section Calls
variable {T : FdTable} {d : FilePtr → Int} {s : SysState} {f : FilePtr} {p : ProcPtr} {fd : Fd}

theorem Books.setRef (h : Books T d) (n : Int) :
    Books (T.setRef f (T.refs f + n)) (more d f n) :=
  ⟨h.balance.setRef n, h.closed⟩

theorem Books.closed_setSlot (h : Books T d) (hp : Live (T.state p)) (v : Option FilePtr) :
    ∀ q, ¬ Live ((T.setSlot (p, fd) v).state q) → ∀ fd', (T.setSlot (p, fd) v).slot (q, fd') = none := by
  intro q hq fd'
  have hne : (q, fd') ≠ (p, fd) := by
    intro he
    exact hq (by rw [(Prod.mk.inj he).1]; exact hp)
  show Function.update T.slot (p, fd) v (q, fd') = none
  rw [Function.update_of_ne hne]
  exact h.closed q hq fd'

theorem Books.fill (h : Books T d) (hp : Live (T.state p)) (hx : T.slot (p, fd) = none) :
    Books (T.setSlot (p, fd) (some f)) (more d f (-1)) :=
  ⟨h.balance.fill hx, h.closed_setSlot hp _⟩

theorem Books.clear (h : Books T d) (hp : Live (T.state p)) (hx : T.slot (p, fd) = some f) :
    Books (T.setSlot (p, fd) none) (more d f 1) :=
  ⟨h.balance.clear hx, h.closed_setSlot hp _⟩

/-- A file with a reference in flight has a count. -/
theorem Books.pos (h : Books T d) (hd : 1 ≤ d f) : 1 ≤ T.refs f := by
  have := h.balance f
  omega

/-- A file in a slot has a count, when nothing is in flight. -/
theorem Books.pos_of_slot (h : Books T 0) {x : ProcPtr × Fd} (hx : T.slot x = some f) :
    1 ≤ T.refs f := by
  have hcount := FdTable.count_pos hx
  have := h.balance f
  rw [Pi.zero_apply] at this
  omega

/-- A closed file gives its reference back. -/
theorem fileclose_books (c : SysParam) (h : Books (tableOf s) (more d f 1))
    (hpos : 1 ≤ (tableOf s).refs f) :
    wp (fileclose c f) (fun _ t => Books (tableOf t) d ∧ (tableOf t).slot = (tableOf s).slot ∧
      (tableOf t).state = (tableOf s).state) Quiet s := by
  refine wp_post (fileclose_table c hpos) ?_
  intro _ t ht
  have hnext := h.setRef (f := f) (-1)
  rw [more_undo (by decide)] at hnext
  rw [ht]
  exact ⟨hnext, rfl, rfl⟩

theorem sysDup_books (h : Books (tableOf s) 0) (hp : Live ((tableOf s).state p)) (fd : Int32) :
    wp (sysDup p fd) (fun _ t => Books (tableOf t) 0) Quiet s := by
  rw [sysDup, wp_bind]
  refine wp_mono (argfd_spec fd) ?_ fun _ => False.elim
  rintro r t ⟨rfl, hr⟩
  cases r with
  | none => exact h
  | some x =>
    have hslot := hr x rfl
    show wp (fdalloc p x.2 >>= _) _ _ _
    rw [wp_bind]
    refine wp_mono fdalloc_spec ?_ fun _ => False.elim
    rintro r u (⟨rfl, rfl⟩ | ⟨fd', rfl, hfree, rfl⟩)
    · exact h
    · have hfill := h.fill (f := x.2) hp hfree
      rw [← tableOf_withOfile] at hfill
      have hpos : 1 ≤ (tableOf (withOfile t p fd' (some x.2))).refs x.2 := h.pos_of_slot hslot
      show wp (fileup x.2 >>= _) _ _ _
      rw [wp_bind]
      refine wp_mono (fileup_table hpos) ?_ fun _ => False.elim
      rintro _ v ⟨_, hv⟩
      have hnext := hfill.setRef (f := x.2) 1
      rw [more_undo (by decide)] at hnext
      rw [wp_pure, hv]
      exact hnext

theorem sysClose_books (c : SysParam) (h : Books (tableOf s) 0) (hp : Live ((tableOf s).state p))
    (fd : Int32) : wp (sysClose c p fd) (fun _ t => Books (tableOf t) 0) Quiet s := by
  rw [sysClose, wp_bind]
  refine wp_mono (argfd_spec fd) ?_ fun _ => False.elim
  rintro r t ⟨rfl, hr⟩
  cases r with
  | none => exact h
  | some x =>
    have hslot := hr x rfl
    have hclear := h.clear hp hslot
    rw [← tableOf_withOfile] at hclear
    have hpos : 1 ≤ (tableOf (withOfile t p x.1 none)).refs x.2 := h.pos_of_slot hslot
    show wp (setOfile p x.1 none >>= _) _ _ _
    rw [wp_bind, wp_setOfile, wp_bind]
    refine wp_post (fileclose_books c hclear hpos) ?_
    intro _ u hu
    exact hu.1

/-- A new file has one reference in flight, and no slot points to it. -/
theorem filealloc_books (h : Books (tableOf s) d) (hd : ∀ g, 0 ≤ d g) :
    wp filealloc (fun r t => r = none ∧ tableOf t = tableOf s ∨
      ∃ f, r = some f ∧ (∀ x, (tableOf s).slot x ≠ some f) ∧ d f = 0 ∧
        Books (tableOf t) (more d f 1) ∧ (tableOf t).slot = (tableOf s).slot ∧
        (tableOf t).state = (tableOf s).state)
      (fun _ => False) s := by
  refine wp_post filealloc_table ?_
  rintro r t (hnone | ⟨f, hf, hzero, ht⟩)
  · exact Or.inl hnone
  · have hbal := h.balance f
    have hpos := hd f
    have hcount : (tableOf s).count f = 0 := by omega
    have hnext := h.setRef (f := f) 1
    rw [hzero, Int.zero_add, ← ht] at hnext
    refine Or.inr ⟨f, hf, (countAgents_eq_zero _ _).mp hcount, by omega, hnext, ?_, ?_⟩
    · rw [ht]
      rfl
    · rw [ht]
      rfl

theorem sysOpen_books (c : SysParam) (h : Books (tableOf s) 0) (hp : Live ((tableOf s).state p))
    (path : Option (List UInt8)) (omode : UInt32) :
    wp (sysOpen c p path omode) (fun _ t => Books (tableOf t) 0) Quiet s := by
  cases path with
  | none => exact h
  | some path =>
    rw [sysOpen, wp_bind, wp_process, wp_bind]
    refine wp_post (onFs_table (throws_openInode c.sb _ path omode)) ?_
    intro r t ht
    cases r with
    | none =>
      show Books (tableOf t) 0
      rw [ht]
      exact h
    | some ip =>
      rw [← ht] at h hp
      show wp (filealloc >>= _) _ _ _
      rw [wp_bind]
      refine wp_mono (filealloc_books h fun _ => Int.le_refl _) ?_ fun _ => False.elim
      rintro r u (⟨rfl, hu⟩ | ⟨f, rfl, _, _, hbooks, hslot, hstate⟩)
      · show wp (onFs (iunlockput c.sb ip) >>= _) _ _ _
        rw [wp_bind]
        refine wp_post (onFs_table (throws_iunlockput c.sb ip)) ?_
        intro _ v hv
        show Books (tableOf v) 0
        rw [hv, hu]
        exact h
      · rw [← hstate] at hp
        have hpos : 1 ≤ (tableOf u).refs f := hbooks.pos (more_pos (Int.le_refl _))
        show wp (fdalloc p f >>= _) _ _ _
        rw [wp_bind]
        refine wp_mono fdalloc_spec ?_ fun _ => False.elim
        rintro r v (⟨rfl, rfl⟩ | ⟨fd, rfl, hfree, rfl⟩)
        · -- No descriptor is left: the new file is closed again.
          show wp (fileclose c f >>= _) _ _ _
          rw [wp_bind]
          refine wp_post (fileclose_books c hbooks hpos) ?_
          rintro _ w ⟨hw, _⟩
          show wp (onFs (iunlockput c.sb ip) >>= _) _ _ _
          rw [wp_bind]
          refine wp_post (onFs_table (throws_iunlockput c.sb ip)) ?_
          intro _ z hz
          show Books (tableOf z) 0
          rw [hz]
          exact hw
        · have hfill := hbooks.fill (f := f) hp hfree
          rw [more_undo (by decide), ← tableOf_withOfile] at hfill
          show wp (onFs (inode ip) >>= _) _ _ _
          rw [wp_bind]
          refine wp_post (onFs_table (throws_of_within (Fs.within_inode ip))) ?_
          intro n w hw
          rw [wp_bind, wp_setFile, wp_bind]
          refine wp_post (onFs_table (throws_openDone c.sb ip omode)) ?_
          intro _ z hz
          have hsame : tableOf (withFile w f (openFile n ip omode (w.ftable f))) = tableOf w :=
            tableOf_withFile_ref rfl
          rw [wp_pure, hz, hsame, hw]
          exact hfill

/-- The references to the files of a list are in flight as well. -/
def owing (d : FilePtr → Int) (l : List FilePtr) : FilePtr → Int :=
  l.foldr (fun f d => more d f 1) d

theorem owing_nonneg (hd : ∀ g, 0 ≤ d g) (l : List FilePtr) : ∀ g, 0 ≤ owing d l g := by
  induction l with
  | nil => exact hd
  | cons f l ih => exact more_nonneg ih

/-- Closing the files of a list. -/
theorem closeAll_books (c : SysParam) (hd : ∀ g, 0 ≤ d g) (l : List FilePtr)
    (h : Books (tableOf s) (owing d l)) :
    wp (forEach (fileclose c) l) (fun _ t => Books (tableOf t) d) Quiet s := by
  induction l generalizing s with
  | nil => exact h
  | cons f l ih =>
    show wp (fileclose c f >>= _) _ _ _
    rw [wp_bind]
    have hpos : 1 ≤ (tableOf s).refs f := h.pos (more_pos (owing_nonneg hd l f))
    refine wp_post (fileclose_books c h hpos) ?_
    rintro _ t ⟨ht, _⟩
    exact ih ht

theorem pipeallocBad_books (c : SysParam) (f0 f1 : Option FilePtr)
    (h : Books (tableOf s) (owing (owing 0 f1.toList) f0.toList)) :
    wp (pipeallocBad c f0 f1 0) (fun _ t => Books (tableOf t) 0) Quiet s := by
  have hzero : ∀ g, 0 ≤ (0 : FilePtr → Int) g := fun _ => Int.le_refl _
  rw [pipeallocBad, wp_bind, wp_when]
  refine ⟨fun hne => absurd rfl hne, fun _ => ?_⟩
  rw [wp_bind]
  refine wp_post (closeAll_books c (owing_nonneg hzero _) f0.toList h) ?_
  intro _ t ht
  exact closeAll_books c hzero f1.toList ht

/-- The two ends of a new pipe are in flight. A call that fails closes what it took. -/
theorem pipealloc_books (c : SysParam) (h : Books (tableOf s) 0) :
    wp (pipealloc c) (fun r t => match r with
      | none => Books (tableOf t) 0
      | some (rf, wf) => Books (tableOf t) (more (more 0 rf 1) wf 1) ∧
          (tableOf t).state = (tableOf s).state) Quiet s := by
  rw [pipealloc, wp_bind]
  refine wp_mono (filealloc_books h fun _ => Int.le_refl _) ?_ fun _ => False.elim
  rintro r t (⟨rfl, ht⟩ | ⟨f0, rfl, _, _, hbooks, _, hstate⟩)
  · show wp (pipeallocBad c none none 0 >>= _) _ _ _
    rw [wp_bind]
    rw [← ht] at h
    exact pipeallocBad_books c none none h
  · show wp (filealloc >>= _) _ _ _
    rw [wp_bind]
    refine wp_mono (filealloc_books hbooks (more_nonneg fun _ => Int.le_refl _)) ?_
      fun _ => False.elim
    rintro r u (⟨rfl, hu⟩ | ⟨f1, rfl, _, _, hbooks1, _, hstate1⟩)
    · -- The table is full after the first end.
      rw [← hu] at hbooks
      show wp (pipeallocBad c (some f0) none 0 >>= _) _ _ _
      rw [wp_bind]
      exact pipeallocBad_books c (some f0) none hbooks
    · show wp (onMem kalloc >>= _) _ _ _
      rw [wp_bind]
      refine wp_post (onMem_table throws_kalloc) ?_
      intro pi v hv
      rw [← hv] at hbooks1 hstate1
      by_cases hpi : pi = 0
      · -- There is no page for the pipe.
        rw [more_comm] at hbooks1
        rw [if_pos hpi, wp_bind]
        exact pipeallocBad_books c (some f0) (some f1) hbooks1
      · rw [if_neg hpi, wp_bind]
        refine wp_post (setPipe_table pi _) ?_
        intro _ w hw
        rw [wp_bind]
        refine wp_post (setFile_table fun _ => rfl) ?_
        intro _ x hx
        rw [wp_bind]
        refine wp_post (setFile_table fun _ => rfl) ?_
        intro _ y hy
        rw [wp_pure]
        dsimp only
        rw [hy, hx, hw]
        exact ⟨hbooks1, hstate1.trans hstate⟩

/-- The failing exits of `sys_pipe`, when clearing the slots leaves both ends in flight. -/
theorem pipeFail_books (c : SysParam) {rf wf : FilePtr} (fds : List Fd)
    (h : wp (forEach (fun fd => setOfile p fd none) fds)
      (fun _ t => Books (tableOf t) (owing 0 [rf, wf])) Quiet s) :
    wp (pipeFail c p rf wf fds) (fun _ t => Books (tableOf t) 0) Quiet s := by
  have hzero : ∀ g, 0 ≤ (0 : FilePtr → Int) g := fun _ => Int.le_refl _
  rw [pipeFail, wp_bind]
  refine wp_post h ?_
  intro _ t ht
  rw [wp_bind]
  refine wp_post (fileclose_books c ht (ht.pos (more_pos (owing_nonneg hzero [wf] rf)))) ?_
  rintro _ u ⟨hu, _⟩
  rw [wp_bind]
  refine wp_post (fileclose_books c hu (hu.pos (more_pos (Int.le_refl _)))) ?_
  rintro _ v ⟨hv, _⟩
  exact hv

theorem sysPipe_books (c : SysParam) (h : Books (tableOf s) 0) (hp : Live ((tableOf s).state p))
    (fdarray : Nat) : wp (sysPipe c p fdarray) (fun _ t => Books (tableOf t) 0) Quiet s := by
  rw [sysPipe, wp_bind]
  refine wp_post (pipealloc_books c h) ?_
  intro r t ht
  cases r with
  | none => exact ht
  | some ends =>
    obtain ⟨rf, wf⟩ := ends
    obtain ⟨hbooks, hstate⟩ := ht
    rw [← hstate] at hp
    rw [more_comm] at hbooks
    show wp (fdalloc p rf >>= _) _ _ _
    rw [wp_bind]
    refine wp_mono fdalloc_spec ?_ fun _ => False.elim
    rintro r u (⟨rfl, rfl⟩ | ⟨fd0, rfl, hfree0, rfl⟩)
    · exact pipeFail_books c [] hbooks
    · have hfill := hbooks.fill (f := rf) hp hfree0
      rw [more_undo (by decide), ← tableOf_withOfile] at hfill
      have hslot0 : (tableOf (withOfile t p fd0 (some rf))).slot (p, fd0) = some rf := by
        rw [tableOf_withOfile]
        exact Function.update_self _ _ _
      obtain ⟨u, hu⟩ : ∃ u, u = withOfile t p fd0 (some rf) := ⟨_, rfl⟩
      have hpu : Live ((tableOf u).state p) := by
        rw [hu, tableOf_withOfile]
        exact hp
      rw [← hu] at hfill hslot0 ⊢
      show wp (fdalloc p wf >>= _) _ _ _
      rw [wp_bind]
      refine wp_mono fdalloc_spec ?_ fun _ => False.elim
      rintro r v (⟨rfl, rfl⟩ | ⟨fd1, rfl, hfree1, rfl⟩)
      · refine pipeFail_books c [fd0] ?_
        show wp (setOfile p fd0 none >>= _) _ _ _
        rw [wp_bind, wp_setOfile]
        show Books (tableOf (withOfile v p fd0 none)) _
        rw [tableOf_withOfile]
        exact hfill.clear hpu hslot0
      · have hfill1 := hfill.fill (f := wf) hpu hfree1
        rw [more_undo (by decide), ← tableOf_withOfile] at hfill1
        have hne : (p, fd0) ≠ (p, fd1) := by
          intro he
          rw [← he, hslot0] at hfree1
          cases hfree1
        have hslot0' : (tableOf (withOfile u p fd1 (some wf))).slot (p, fd0) = some rf := by
          rw [tableOf_withOfile]
          show Function.update (tableOf u).slot (p, fd1) (some wf) (p, fd0) = some rf
          rw [Function.update_of_ne hne]
          exact hslot0
        have hslot1 : (tableOf (withOfile u p fd1 (some wf))).slot (p, fd1) = some wf := by
          rw [tableOf_withOfile]
          exact Function.update_self _ _ _
        -- Whatever the copies to the user do, the table is this one.
        have hfail : ∀ {v : SysState}, tableOf v = tableOf (withOfile u p fd1 (some wf)) →
            wp (pipeFail c p rf wf [fd0, fd1]) (fun _ t => Books (tableOf t) 0) Quiet v := by
          intro v hv
          rw [← hv] at hfill1 hslot0' hslot1
          have hpv : Live ((tableOf v).state p) := by
            rw [hv, tableOf_withOfile]
            exact hpu
          have hclear1 : ((tableOf v).setSlot (p, fd0) none).slot (p, fd1) = some wf := by
            show Function.update (tableOf v).slot (p, fd0) none (p, fd1) = some wf
            rw [Function.update_of_ne hne.symm]
            exact hslot1
          refine pipeFail_books c [fd0, fd1] ?_
          show wp (setOfile p fd0 none >>= _) _ _ _
          rw [wp_bind, wp_setOfile]
          show wp (setOfile p fd1 none >>= _) _ _ _
          rw [wp_bind, wp_setOfile]
          show Books (tableOf (withOfile _ p fd1 none)) _
          rw [tableOf_withOfile, tableOf_withOfile]
          show Books _ (more (more 0 wf 1) rf 1)
          rw [more_comm]
          exact (hfill1.clear hpv hslot0').clear hpv hclear1
        show wp (process p >>= _) _ _ _
        rw [wp_bind, wp_process, wp_bind]
        refine wp_post (onMem_table (throws_copyout _ _ _)) ?_
        intro r w hw
        split
        · exact hfail hw
        · rw [wp_bind]
          refine wp_post (onMem_table (throws_copyout _ _ _)) ?_
          intro r z hz
          rw [← hz] at hw
          split
          · exact hfail hw
          · rw [wp_pure, hw]
            exact hfill1

end Calls

end Xv6.Proofs.Sys
