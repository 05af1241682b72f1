import Xv6.Proofs.Mem.Lifetime
import Xv6.Proofs.Sys.DescriptorRuns
import Xv6.Proofs.Sys.ProcCalls

/-!
# `Xv6.Proofs.Sys.Kill`: whom `kill` reaches

`kill` looks for a pid and does not look at the state of the slot that it finds. A free slot has
pid 0, so `kill(0)` finds a free slot and marks it, and `allocproc` does not clear the mark: the
process that gets the slot next is killed at birth.

Free slots are blank as long as no call of `kill` has the argument 0 (`blank_of_reach`). A slot
that `kill` finds is then in use, and a slot that `allocproc` hands out, which keeps its mark
(`allocproc_killed`), has not been killed.
-/

set_option autoImplicit false

namespace Xv6.Proofs.Sys

open Lib Lib.Action Kernel

variable {s t : SysState} {p : ProcPtr} {pid : Int32} (c : SysParam)

/-! ### One call -/

/-- Every free slot is blank. -/
def AllBlank (s : SysState) : Prop := ∀ p, Blank (s.proc p)

theorem AllBlank.slot {q : Process} (h : AllBlank s) (hq : Blank (s.proc p) → Blank q) :
    AllBlank { s with proc := Function.update s.proc p q } := by
  intro r
  show Blank (Function.update s.proc p q r)
  by_cases hr : r = p
  · rw [hr, Function.update_self]
    exact hq (h p)
  · rw [Function.update_of_ne hr]
    exact h r

theorem maintains_blank_setFile (f : FilePtr) (g : File → File) :
    Maintains AllBlank (setFile f g) := Maintains.modify fun _ h => h

theorem maintains_blank_fileclose (f : FilePtr) : Maintains AllBlank (fileclose c f) := by
  refine Maintains.bind Maintains.read fun _ => Maintains.ite Maintains.fail ?_
  refine Maintains.bind (maintains_blank_setFile _ _) fun _ => Maintains.bind Maintains.read ?_
  refine fun ff => Maintains.ite Maintains.pure ?_
  refine Maintains.bind (maintains_blank_setFile _ _) fun _ => Maintains.bind Maintains.read ?_
  refine fun n => Maintains.ite ?_ (Maintains.ite ?_ Maintains.pure)
  · refine Maintains.bind (Maintains.modify fun _ h => h) fun _ => Maintains.bind Maintains.read ?_
    exact fun _ => Maintains.when (Maintains.zoom fun _ _ h => h)
  · unfold iputPtr
    split
    · exact Maintains.zoom fun _ _ h => h
    · exact Maintains.fail

theorem kept_blank : Kept c AllBlank where
  fs _ h := h
  mem _ h := h
  pid _ h := h
  slot hq h := h.slot hq
  reparent p := by
    refine Maintains.modify fun s h r => ?_
    show Blank (if (s.proc r).parent = some p then _ else s.proc r)
    split
    · exact h r
    · exact h r
  close := maintains_blank_fileclose c
  dup f := Maintains.bind Maintains.read fun _ => Maintains.ite Maintains.fail
    (Maintains.bind (maintains_blank_setFile _ _) fun _ => Maintains.pure)

/-- The process is in use and has the pid. -/
def Named (s : SysState) (pid : Int32) (p : ProcPtr) : Prop :=
  (s.proc p).state ≠ .unused ∧ (s.proc p).pid = pid

/-- What `kill` leaves of a process. -/
def markKilled (q : Process) : Process :=
  { q with killed := true, state := if q.state = .sleeping then .runnable else q.state }

/-- `kill` returns 0 exactly if a process in use has the pid, and changes only such a process. -/
def KillExact (s : SysState) (pid : Int32) : Prop :=
  ∃ r t, kill pid s = .ok (r, t) ∧ (r = 0 ↔ ∃ p, Named s pid p) ∧ (r ≠ 0 → r = -1) ∧
    ∀ p, t.proc p = s.proc p ∨ Named s pid p ∧ t.proc p = markKilled (s.proc p)

/-- `kill` is exact if it finds a slot in use, or none. -/
theorem kill_exact (huse : ∀ p, (s.proc p).pid = pid → (s.proc p).state ≠ .unused) :
    KillExact s pid := by
  have hread : (Action.read SysState.proc : SysM (ProcPtr → Process)) s = .ok (s.proc, s) := rfl
  unfold KillExact kill
  rw [bind_ok hread]
  cases hfind : (List.finRange NPROC).find? fun p => (s.proc p).pid = pid with
  | none =>
    refine ⟨-1, s, rfl, iff_of_false (by decide) ?_, fun _ => rfl, fun _ => .inl rfl⟩
    rintro ⟨p, -, hp⟩
    exact absurd hp (by simpa using List.find?_eq_none.mp hfind p (List.mem_finRange p))
  | some p =>
    have hpid : (s.proc p).pid = pid := by simpa using List.find?_some hfind
    refine ⟨0, { s with proc := Function.update s.proc p (markKilled (s.proc p)) }, rfl,
      iff_of_true rfl ⟨p, huse p hpid, hpid⟩, fun h => absurd rfl h, fun q => ?_⟩
    by_cases hq : q = p
    · rw [hq]
      exact .inr ⟨⟨huse p hpid, hpid⟩, Function.update_self _ _ _⟩
    · exact .inl (Function.update_of_ne hq _ _)

theorem AllBlank.killExact (h : AllBlank s) (hpid : pid ≠ 0) : KillExact s pid :=
  kill_exact fun p hp hfree => hpid (hp ▸ (h p hfree).1)

theorem AllBlank.kill (h : AllBlank s) (hpid : pid ≠ 0) {r : Int}
    (hrun : Kernel.kill pid s = .ok (r, t)) : AllBlank t := by
  obtain ⟨r', t', hrun', -, -, hslots⟩ := h.killExact hpid
  rw [hrun] at hrun'
  obtain ⟨rfl, rfl⟩ : r = r' ∧ t = t' := by simpa using hrun'
  intro p
  rcases hslots p with hp | ⟨⟨huse, -⟩, hp⟩
  · rw [hp]
    exact h p
  · rw [hp]
    intro hfree
    have hfree : (if (s.proc p).state = .sleeping then ProcState.runnable else (s.proc p).state)
        = .unused := hfree
    split at hfree
    · cases hfree
    · exact absurd hfree huse

/-- `allocproc` hands out a free slot, and leaves its mark. -/
theorem allocproc_killed :
    wp (allocproc c) (fun r t => ∀ p, r = some p → (s.proc p).state = .unused ∧
      (t.proc p).killed = (s.proc p).killed) (fun _ => True) s := by
  have hany : ∀ {α : Type} {x : SysM α} {post : α → SysState → Prop} {u},
      (∀ a t, post a t) → wp x post (fun _ => True) u :=
    fun h => wp_iff.mpr ⟨fun a t _ => h a t, fun _ _ => trivial⟩
  have hmem : ∀ {α : Type} {x : KmemM α} {post : α → SysState → Prop} {u},
      (∀ a k, post a { u with kmem := k }) → wp (onMem x) post (fun _ => True) u :=
    fun h => wp_zoom.mpr (wp_iff.mpr ⟨fun a k _ => h a k, fun _ _ => trivial⟩)
  rw [allocproc, wp_bind, wp_read]
  cases hfind : (List.finRange NPROC).find? fun p => (s.proc p).state = .unused with
  | none => exact fun p hp => by cases hp
  | some q =>
    have hfree : (s.proc q).state = .unused := by simpa using List.find?_some hfind
    rw [wp_bind, allocpid, wp_bind, wp_read, wp_bind, wp_modify, wp_pure, wp_bind, setProcess,
      wp_modify, wp_bind]
    refine hmem fun tf k => ?_
    rw [wp_bind, setProcess, wp_modify]
    split
    · rw [wp_bind]
      exact hany fun _ _ p hp => by cases hp
    · rw [wp_bind]
      refine hmem fun pt k => ?_
      rw [wp_bind, setProcess, wp_modify]
      split
      · rw [wp_bind]
        exact hany fun _ _ p hp => by cases hp
      · intro p hp
        obtain rfl : q = p := Option.some.inj hp
        refine ⟨hfree, ?_⟩
        simp only [Function.update_self]

/-! ### Runs -/

/-- A call that changes the process table. -/
inductive ProcCall where
  | fork
  | exit (status : Int32)
  | wait (addr : Nat)
  | kill (pid : Int32)

/-- The call, made by process `p`. -/
def ProcCall.run (p : ProcPtr) : ProcCall → SysM Unit
  | .fork => do
      let _ ← Kernel.fork c p
      Pure.pure ()
  | .exit status => Kernel.exit c p status
  | .wait addr => do
      let _ ← Kernel.wait c p addr
      Pure.pure ()
  | .kill pid => do
      let _ ← Kernel.kill pid
      Pure.pure ()

/-- The calls as a machine. -/
def procCalls : Machine SysState (ProcPtr × ProcCall) Panic := machine fun a => a.2.run c a.1

/-- No call of `kill` has the argument 0. -/
def NonzeroPid (_ : SysState) (a : ProcPtr × ProcCall) : Prop := ∀ pid, a.2 = .kill pid → pid ≠ 0

/-- The first process is in use and not killed, and `procinit` has cleared the other slots. -/
def FirstOnly (s : SysState) : Prop :=
  ∀ p, if p = s.initproc then (s.proc p).state ≠ .unused ∧ (s.proc p).killed = false
    else (s.proc p).state = .unused ∧ (s.proc p).pid = 0 ∧ (s.proc p).killed = false

theorem FirstOnly.blank (h : FirstOnly s) : AllBlank s := by
  intro p hfree
  have hp := h p
  split at hp
  · exact absurd hfree hp.1
  · exact hp.2

theorem maintains_blank_run (p : ProcPtr) {a : ProcCall} (ha : ∀ pid, a = .kill pid → pid ≠ 0) :
    Maintains AllBlank (a.run c p) := by
  cases a with
  | fork => exact Maintains.bind (kept_blank c).fork fun _ => Maintains.pure
  | exit status => exact (kept_blank c).exit status
  | wait addr => exact Maintains.bind ((kept_blank c).wait addr) fun _ => Maintains.pure
  | kill pid =>
    refine Maintains.bind ?_ fun _ => Maintains.pure
    refine ⟨fun s hs => ?_⟩
    exact wp_iff.mpr ⟨fun _ _ hrun => hs.kill (ha pid rfl) hrun, fun _ _ => trivial⟩

theorem blank_of_reach (h : Reach (procCalls c) NonzeroPid FirstOnly s) : AllBlank s :=
  h.invariant (fun _ => FirstOnly.blank) fun _ a _ hs ha hm =>
    machine_ok ((maintains_blank_run c a.1 ha).run _ hs) hm

/-- As long as no call of `kill` has the argument 0, `kill` with any other pid reaches exactly
the processes in use, and a process starts unkilled. -/
theorem kill_reaches_live (h : Reach (procCalls c) NonzeroPid FirstOnly s) :
    (∀ pid ≠ 0, KillExact s pid) ∧
    ∀ p t, allocproc c s = .ok (some p, t) → (t.proc p).killed = false := by
  have hblank := blank_of_reach c h
  refine ⟨fun pid hpid => hblank.killExact hpid, ?_⟩
  intro p t hrun
  obtain ⟨hfree, hkilled⟩ := wp_ok (allocproc_killed c) hrun p rfl
  rw [hkilled]
  exact (hblank p hfree).2

/-- The first process, with pid 1. -/
def initProcs (p : ProcPtr) : Process :=
  if p = firstProc then { blankProcess with state := .running, pid := 1 } else blankProcess

/-- The first process over the given memory. -/
def initState (k : Kmem) : SysState := { firstState with kmem := k, proc := initProcs }

theorem initState_firstOnly (k : Kmem) : FirstOnly (initState k) := by
  intro p
  show if p = firstProc then (initProcs p).state ≠ .unused ∧ (initProcs p).killed = false
    else (initProcs p).state = .unused ∧ (initProcs p).pid = 0 ∧ (initProcs p).killed = false
  revert p
  decide

/-- `kill` of pid 1 at boot. -/
theorem kill_reaches_first : ∃ k, KillExact (initState k) 1 :=
  ⟨⟨fun _ => 0, 0⟩,
    (kill_reaches_live plainParam (.start (initState_firstOnly _))).1 1 (by decide)⟩

/-- `allocproc` hands out the first free slot, if the memory lasts. -/
theorem allocproc_some {tf pt : Nat} {k₁ k₂ : Kmem}
    (hfind : (List.finRange NPROC).find? (fun p => (s.proc p).state = .unused) = some p)
    (hkalloc : kalloc s.kmem = .ok (tf, k₁)) (htf : tf ≠ 0)
    (hpt : procPagetable c tf k₁ = .ok (pt, k₂)) (hpt0 : pt ≠ 0) :
    ∃ t, allocproc c s = .ok (some p, t) := by
  have hmem : ∀ {x : KmemM Nat} {post : Nat → SysState → Prop} {u : SysState} {a k},
      x u.kmem = .ok (a, k) → post a { u with kmem := k } →
      wp (onMem x) post (fun _ => False) u := by
    intro x post u a k hx h
    rw [onMem, wp_zoom]
    unfold wp
    rw [hx]
    exact h
  have hruns : wp (allocproc c) (fun r _ => r = some p) (fun _ => False) s := by
    rw [allocproc, wp_bind, wp_read, hfind]
    rw [wp_bind, allocpid, wp_bind, wp_read, wp_bind, wp_modify, wp_pure, wp_bind, setProcess,
      wp_modify, wp_bind]
    refine hmem hkalloc ?_
    rw [wp_bind, setProcess, wp_modify, if_neg htf, wp_bind]
    refine hmem hpt ?_
    rw [wp_bind, setProcess, wp_modify, if_neg hpt0, wp_pure]
  obtain ⟨_, t, ht, rfl⟩ := wp_returns hruns fun _ => id
  exact ⟨t, ht⟩

theorem one_lt_nproc : 1 < NPROC := by decide

/-- The second slot. -/
def nextProc : ProcPtr := ⟨1, one_lt_nproc⟩

/-- `kill(0)` at boot returns 0, though no process has pid 0, and the next process is killed at
birth. -/
theorem kill_zero_marks_next : ∃ s t u p, FirstOnly s ∧ kill 0 s = .ok (0, t) ∧
    (∀ q, ¬ Named s 0 q) ∧ allocproc plainParam t = .ok (some p, u) ∧
    (u.proc p).killed = true := by
  have hc : Mem.Linked plainParam := ⟨Nat.le_refl _, by decide, by decide⟩
  obtain ⟨k, f, -, hS⟩ := Mem.kinit_returns (by decide : 0 < KERNBASE) fun _ => 0
  have hlen := Mem.pool_length hS
  obtain ⟨tf, k₁, htf, hpost⟩ := wp_returns (Mem.kalloc_page hS) fun _ => id
  rcases hpost with ⟨hnil, -⟩ | ⟨rest, hf, hne, hS₁, -⟩
  · rw [hnil] at hlen
    exact absurd hlen (by simp)
  rw [hf, List.length_cons] at hlen
  obtain ⟨pt, k₂, hpt, hpost⟩ := wp_returns
    (Mem.procPagetable_spec hc hS₁ (List.mem_cons_self : tf ∈ [tf])) fun _ => id
  rcases hpost with ⟨-, hfew, -⟩ | ⟨hpt0, -⟩
  · exact absurd hfew (by omega)
  -- `kill(0)` marks the second slot, which `allocproc` finds
  have hkill : (List.finRange NPROC).find? (fun p => (initProcs p).pid = 0) = some nextProc := by
    decide
  have hfind : (List.finRange NPROC).find? (fun p => (Function.update initProcs nextProc
      (markKilled (initProcs nextProc)) p).state = .unused) = some nextProc := by
    decide
  have hrun : kill 0 (initState k) = .ok (0, { initState k with
      proc := Function.update initProcs nextProc (markKilled (initProcs nextProc)) }) := by
    have hread : (Action.read SysState.proc : SysM (ProcPtr → Process)) (initState k)
        = .ok (initProcs, initState k) := rfl
    unfold kill
    rw [bind_ok hread]
    simp only [hkill]
    rfl
  obtain ⟨u, hu⟩ := allocproc_some plainParam (s := { initState k with
    proc := Function.update initProcs nextProc (markKilled (initProcs nextProc)) })
    hfind htf hne hpt hpt0
  refine ⟨_, _, u, nextProc, initState_firstOnly k, hrun, ?_, hu, ?_⟩
  · have hnone : ∀ q, ¬ ((initProcs q).state ≠ .unused ∧ (initProcs q).pid = 0) := by decide
    exact hnone
  · obtain ⟨-, hkilled⟩ := wp_ok (allocproc_killed plainParam) hu nextProc rfl
    rw [hkilled]
    rfl

end Xv6.Proofs.Sys
