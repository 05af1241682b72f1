import Xv6.Kernel.Sched

/-!
# `Xv6.Proofs.Sched.Control`: which locks a thread's code needs

The locks that a hart holds are a function of the code it has left: `Needs k l` says that
code `k` is to be run with `l` held. It is computed from the back: a `release` needs its lock
and an `acquire` does not. `Fits me k` says that `k` is code that the thread of `me` can have,
in every tail of it.

`Effect` lists the branches of the instructions, and every later case analysis is over it.
`effect_shape` says what each kind of `Control` does to `Needs`, and that the code after an
instruction fits again; `effect_move` what happens to a process; `effect_claim` what happens
to the slot that `fork` works on.
-/

set_option autoImplicit false

namespace Xv6.Proofs.Sched

open Xv6.Kernel Xv6.Kernel.Sched

variable {ι κ : Type} (lk : ι → κ)

/-- The locks that an instruction and what it continues with release. -/
def Gives : Instr ι κ → Lock κ → Prop
  | .release m, l => l = m
  | .woken p, l => l = .proc p
  | .wake q _ _, l => l = .proc q
  | .killAt _ q _, l => l = .proc q
  | .allocAt _ q _, l => l = .proc q
  | .allocPid _ _, l => l = .pid
  | .forkMem _ q, l => l = .proc q
  | .setParent _ _, l => l = .wait
  | .publish q, l => l = .proc q
  | .zombie _ _, l => l = .wait
  | .waitLoop _ _ _, l => l = .wait
  | .waitChild _ child _, l => l = .wait ∨ l = .proc child
  | .waitKilled p, l => l = .wait ∨ l = .proc p
  | .test _ i _, l => l = .user (lk i)
  | .signal _ i, l => l = .user (lk i)
  | .clear i, l => l = .user (lk i)
  | .schedAt p _, l => l = .proc p
  | .dispatched p, l => l = .proc p
  | _, _ => False

/-- The locks that code needs. A thread calls `sched` with only its own lock. -/
def Needs : List (Instr ι κ) → Lock κ → Prop
  | [], _ => False
  | .acquire m :: k, l => Needs k l ∧ l ≠ m
  | .yield p :: _, l => l = .proc p
  | .sleep p _ :: _, l => l = .proc p
  | .exitSched p :: _, l => l = .proc p
  | i :: k, l => Needs k l ∨ Gives lk i l

/-- How far `fork` is with the slot of the child, or the scheduler with its choice. -/
inductive Stage
  /-- Found `RUNNABLE` by the scheduler, under its lock. -/
  | chosen
  /-- Found `UNUSED`, under its lock. -/
  | fresh
  /-- `USED`, under its lock. -/
  | made
  /-- `USED`, and its lock is free. -/
  | spawned
  /-- Its parent is set. -/
  | ready
deriving DecidableEq

/-- The slot that an instruction relies on. -/
def claim : Instr ι κ → Option (ProcPtr × Stage)
  | .allocPid _ q => some (q, .fresh)
  | .forkMem _ q => some (q, .made)
  | .setParent _ q => some (q, .spawned)
  | .publish q => some (q, .ready)
  | .dispatch q => some (q, .chosen)
  | _ => none

/-- The slot that a thread's code claims. -/
def claimOf : List (Instr ι κ) → Option (ProcPtr × Stage)
  | [] => none
  | i :: k => (claim i).or (claimOf k)

/-- The code does not rely on holding the lock of a slot that it claims. -/
def Calm (k : List (Instr ι κ)) : Prop :=
  ∀ q st, claimOf k = some (q, st) → st = .spawned ∨ st = .ready

/-- The lock that a sleeper passes to `sleep` with its channel. -/
def chanLock : Chan ι → Lock κ
  | .cond i => .user (lk i)
  | _ => .wait

/-- The code is not inside `sleep`, before its `sched`. -/
def Wakeful (k : List (Instr ι κ)) : Prop := ∀ p ch, Instr.sleep p ch ∉ k

/-- What an instruction asks of the code behind it, in the thread of `me`. A call leaves
nothing behind it; only `wakeup` runs on top of other code. -/
def Before (me : Option ProcPtr) : Instr ι κ → List (Instr ι κ) → Prop
  | .acquire m, k => Needs lk k m ∧ (m = .pid ∨ Calm k) ∧
      (Wakeful k ∨ ∃ p ch k', m = .proc p ∧ k = .release (chanLock lk ch) :: .sleep p ch :: k')
  | .release m, k => ¬ Needs lk k m ∧ Calm k ∧
      (Wakeful k ∨ ∃ p ch k', m = chanLock lk ch ∧ k = .sleep p ch :: k')
  | .yield p, k => me = some p ∧ k = [.release (.proc p)]
  | .sleep p ch, k => me = some p ∧
      ((∃ i b, ch = .cond i ∧ k = [.woken p, .acquire (.user (lk i)), .test p i b]) ∨
        k = [.woken p, .acquire .wait, .waitLoop p false table] ∧ ch = .proc p)
  | .woken p, k => me = some p ∧ ¬ Needs lk k (.proc p) ∧ Calm k ∧ Wakeful k
  | .wake q _ _, k => me ≠ some q ∧ ¬ Needs lk k (.proc q) ∧ Calm k ∧ Wakeful k
  | .killAt _ _ _, k => k = []
  | .allocAt p _ _, k => me = some p ∧ k = []
  | .allocPid p q, k => me = some p ∧ k = [.forkMem p q]
  | .forkMem p _, k => me = some p ∧ k = []
  | .setParent p q, k => me = some p ∧ k = [.acquire (.proc q), .publish q]
  | .publish _, k => me ≠ none ∧ k = []
  | .reparent p _, k => me = some p ∧
      ∃ st, k = [.wakeParent p, .acquire (.proc p), .zombie p st, .exitSched p, .zombieExit]
  | .wakeParent p, k => me = some p ∧
      ∃ st, k = [.acquire (.proc p), .zombie p st, .exitSched p, .zombieExit]
  | .zombie p _, k => me = some p ∧ k = [.exitSched p, .zombieExit]
  | .exitSched p, k => me = some p ∧ k = [.zombieExit]
  | .zombieExit, k => k = []
  | .waitLoop p _ _, k => me = some p ∧ k = []
  | .waitChild p _ _, k => me = some p ∧ k = []
  | .waitKilled p, k => me = some p ∧ k = []
  | .test p _ _, k => me = some p ∧ k = []
  | .signal m _, k => m = me ∧ (∀ l, ¬ Needs lk k l) ∧ Calm k ∧ Wakeful k
  | .clear _, k => k = []
  | .schedLoop _, k => me = none ∧ k = []
  | .schedAt _ _, k => me = none ∧ k = []
  | .dispatch p, k => me = none ∧ ∃ ps, k = [.dispatched p, .schedLoop ps]
  | .dispatched _, k => me = none ∧ ∃ ps, k = [.schedLoop ps]

/-- Code that the thread of `me` can have left. -/
def Fits (me : Option ProcPtr) : List (Instr ι κ) → Prop
  | [] => True
  | i :: k => Before lk me i k ∧ Fits me k

variable {lk}

@[simp]
theorem calm_nil : Calm ([] : List (Instr ι κ)) := by
  intro q st h
  cases h

@[simp]
theorem calm_cons (i : Instr ι κ) (k : List (Instr ι κ)) :
    Calm (i :: k) ↔
      match claim i with
      | none => Calm k
      | some (_, st) => st = .spawned ∨ st = .ready := by
  unfold Calm
  rw [claimOf]
  split
  · rename_i h
    simp [h]
  · rename_i h
    simp [h]

@[simp]
theorem wakeful_nil : Wakeful ([] : List (Instr ι κ)) := by
  intro p ch h
  cases h

@[simp]
theorem wakeful_cons (i : Instr ι κ) (k : List (Instr ι κ)) :
    Wakeful (i :: k) ↔ (∀ p ch, i ≠ .sleep p ch) ∧ Wakeful k := by
  constructor
  · intro h
    exact ⟨fun p ch e => h p ch (e ▸ List.mem_cons_self), fun p ch hk =>
      h p ch (List.mem_cons_of_mem i hk)⟩
  · intro h p ch hk
    rcases List.mem_cons.1 hk with e | hk
    · exact h.1 p ch e.symm
    · exact h.2 p ch hk

variable {k : List (Instr ι κ)} {q : ProcPtr} {st : Stage}

theorem Calm.not_claim (h : Calm k) (hst : st ≠ .spawned ∧ st ≠ .ready) :
    claimOf k ≠ some (q, st) := by
  intro hc
  rcases h q st hc with rfl | rfl
  · exact hst.1 rfl
  · exact hst.2 rfl

variable {me : Option ProcPtr} {i : Instr ι κ}

/-- Only the `acquire` of `pid_lock` stands before a claim under the slot's lock. -/
theorem acquire_of_claim (hfits : Fits lk me (i :: k)) (hi : claim i = none)
    (hc : claimOf k = some (q, st)) (hst : st ≠ .spawned ∧ st ≠ .ready) :
    i = .acquire .pid := by
  obtain ⟨hb, -⟩ := hfits
  cases i with
  | acquire m =>
    obtain ⟨-, rfl | hcalm, -⟩ := hb
    · rfl
    · exact absurd hc (hcalm.not_claim hst)
  | release m => exact absurd hc (hb.2.1.not_claim hst)
  | woken p => exact absurd hc (hb.2.2.1.not_claim hst)
  | wake q ch m => exact absurd hc (hb.2.2.1.not_claim hst)
  | signal me i => exact absurd hc (hb.2.2.1.not_claim hst)
  | allocPid p q' => cases hi
  | forkMem p q' => cases hi
  | setParent p q' => cases hi
  | publish q' => cases hi
  | dispatch p => cases hi
  | sleep p ch =>
    obtain ⟨rfl, ⟨i, b, -, rfl⟩ | ⟨rfl, -⟩⟩ := hb
    · cases hc
    · cases hc
  | reparent p cs =>
    obtain ⟨rfl, st', rfl⟩ := hb
    cases hc
  | wakeParent p =>
    obtain ⟨rfl, st', rfl⟩ := hb
    cases hc
  | dispatched p =>
    obtain ⟨rfl, ps, rfl⟩ := hb
    cases hc
  | zombieExit =>
    obtain rfl : k = [] := hb
    cases hc
  | killAt pid q qs =>
    obtain rfl : k = [] := hb
    cases hc
  | clear i =>
    obtain rfl : k = [] := hb
    cases hc
  -- Behind the other instructions the code is fixed, and it claims nothing.
  | _ =>
    obtain ⟨rfl, rfl⟩ := hb
    cases hc

/-- A claim under the slot's lock needs the lock. -/
theorem needs_of_claim (hk : Fits lk me k) (hc : claimOf k = some (q, st))
    (hst : st ≠ .spawned ∧ st ≠ .ready) :
    Needs lk k (.proc q) := by
  induction k with
  | nil => cases hc
  | cons i k ih =>
    cases hi : claim i with
    | none =>
      rw [claimOf, hi] at hc
      obtain rfl := acquire_of_claim hk hi hc hst
      exact ⟨ih hk.2 hc, by simp⟩
    | some x =>
      rw [claimOf, hi] at hc
      obtain rfl : x = (q, st) := Option.some.inj hc
      obtain ⟨hb, -⟩ := hk
      cases i with
      | allocPid p q' =>
        cases hi
        obtain ⟨rfl, rfl⟩ := hb
        exact .inl (.inr rfl)
      | forkMem p q' =>
        cases hi
        exact .inr rfl
      | setParent p q' =>
        cases hi
        exact absurd rfl hst.1
      | publish q' =>
        cases hi
        exact absurd rfl hst.2
      | dispatch q' =>
        cases hi
        obtain ⟨rfl, ps, rfl⟩ := hb
        exact .inl (.inr rfl)
      | _ => cases hi

variable {p : ProcPtr}

/-- Nothing runs on top of a scheduler that has made its choice. -/
theorem eq_of_chosen (hk : Fits lk me k) (hc : claimOf k = some (p, .chosen)) :
    ∃ ps, k = [.dispatch p, .dispatched p, .schedLoop ps] := by
  induction k with
  | nil => cases hc
  | cons i k ih =>
    cases hi : claim i with
    | none =>
      rw [claimOf, hi] at hc
      obtain rfl := acquire_of_claim hk hi hc (by simp)
      obtain ⟨ps, rfl⟩ := ih hk.2 hc
      have hpid := hk.1.1
      simp [Needs, Gives] at hpid
    | some x =>
      rw [claimOf, hi] at hc
      obtain rfl : x = (p, .chosen) := Option.some.inj hc
      obtain ⟨hb, -⟩ := hk
      cases i <;> cases hi
      obtain ⟨rfl, ps, rfl⟩ := hb
      exact ⟨ps, rfl⟩

/-- The places inside `sleep` before its `sched`. -/
inductive Dozing (lk : ι → κ) (p : ProcPtr) (ch : Chan ι) : List (Instr ι κ) → Prop
  | enters (k : List (Instr ι κ)) :
      Dozing lk p ch (.acquire (.proc p) :: .release (chanLock lk ch) :: .sleep p ch :: k)
  | holds (k : List (Instr ι κ)) :
      Dozing lk p ch (.release (chanLock lk ch) :: .sleep p ch :: k)
  | sleeps (k : List (Instr ι κ)) : Dozing lk p ch (.sleep p ch :: k)

variable {ch : Chan ι}

/-- Behind the `sched` of `sleep` there is no other one. -/
theorem eq_of_mem_sleep {p' : ProcPtr} {ch' : Chan ι} (hk : Fits lk me (.sleep p' ch' :: k))
    (h : .sleep p ch ∈ Instr.sleep (κ := κ) p' ch' :: k) : p = p' ∧ ch = ch' := by
  obtain ⟨-, ⟨i, b, -, rfl⟩ | ⟨rfl, -⟩⟩ := hk.1
  · simpa using h
  · simpa using h

/-- Nothing runs on top of `sleep` before its `sched`. -/
theorem dozing_of_mem (hk : Fits lk me k) (h : .sleep p ch ∈ k) : Dozing lk p ch k := by
  cases k with
  | nil => cases h
  | cons i k =>
    have hfits := hk
    obtain ⟨hb, hk⟩ := hk
    cases i with
    | sleep p' ch' =>
      obtain ⟨rfl, rfl⟩ := eq_of_mem_sleep hfits h
      exact .sleeps k
    | acquire m =>
      have h : .sleep p ch ∈ k := by simpa using h
      obtain ⟨-, -, hw | ⟨p', ch', k', rfl, rfl⟩⟩ := hb
      · exact absurd h (hw p ch)
      · obtain ⟨rfl, rfl⟩ := eq_of_mem_sleep hk.2 (by simpa using h)
        exact .enters k'
    | release m =>
      have h : .sleep p ch ∈ k := by simpa using h
      obtain ⟨-, -, hw | ⟨p', ch', k', rfl, rfl⟩⟩ := hb
      · exact absurd h (hw p ch)
      · obtain ⟨rfl, rfl⟩ := eq_of_mem_sleep hk (by simpa using h)
        exact .holds k'
    | woken p' => exact absurd (by simpa using h) (hb.2.2.2 p ch)
    | wake q ch' m => exact absurd (by simpa using h) (hb.2.2.2 p ch)
    | signal me' i => exact absurd (by simpa using h) (hb.2.2.2 p ch)
    | reparent p' cs =>
      obtain ⟨rfl, st, rfl⟩ := hb
      simp at h
    | wakeParent p' =>
      obtain ⟨rfl, st, rfl⟩ := hb
      simp at h
    | dispatch p' =>
      obtain ⟨rfl, ps, rfl⟩ := hb
      simp at h
    | dispatched p' =>
      obtain ⟨rfl, ps, rfl⟩ := hb
      simp at h
    | zombieExit =>
      obtain rfl : k = [] := hb
      simp at h
    | killAt pid q qs =>
      obtain rfl : k = [] := hb
      simp at h
    | clear i =>
      obtain rfl : k = [] := hb
      simp at h
    -- Behind the other instructions the code is fixed, and it does not sleep.
    | _ =>
      obtain ⟨-, rfl⟩ := hb
      simp at h

/-! ### `wakeup` on top of other code -/

theorem claimOf_wakeup (me : Option ProcPtr) (ch : Chan ι) (m : Nat) (qs : List ProcPtr)
    (k : List (Instr ι κ)) : claimOf (wakeup me ch m qs ++ k) = claimOf k := by
  induction qs with
  | nil => rfl
  | cons q qs ih =>
    rw [wakeup]
    split
    · exact ih
    · exact ih

variable {m : Nat} {qs : List ProcPtr}

theorem needs_wakeup (h : ∀ q, ¬ Needs lk k (.proc q)) (l : Lock κ) :
    Needs lk (wakeup me ch m qs ++ k) l ↔ Needs lk k l := by
  induction qs with
  | nil => rfl
  | cons q qs ih =>
    rw [wakeup]
    split
    · exact ih
    · show (Needs lk (wakeup me ch m qs ++ k) l ∨ l = .proc q) ∧ l ≠ .proc q ↔ _
      rw [ih]
      have hq := h q
      constructor
      · rintro ⟨hl | hl, hne⟩
        · exact hl
        · exact absurd hl hne
      · intro hl
        exact ⟨.inl hl, fun e => hq (e ▸ hl)⟩

theorem wakeful_wakeup (hk : Wakeful k) : Wakeful (wakeup me ch m qs ++ k) := by
  induction qs with
  | nil => exact hk
  | cons q qs ih =>
    rw [wakeup]
    split
    · exact ih
    · simpa using ih

theorem fits_wakeup (h : ∀ q, ¬ Needs lk k (.proc q)) (hk : Fits lk me k) (hcalm : Calm k)
    (hw : Wakeful k) : Fits lk me (wakeup me ch m qs ++ k) := by
  induction qs with
  | nil => exact hk
  | cons q qs ih =>
    rw [wakeup]
    split
    · exact ih
    · rename_i hne
      have hrest : ¬ Needs lk (wakeup me ch m qs ++ k) (.proc q) := by
        rw [needs_wakeup h]
        exact h q
      have hcalm' : Calm (wakeup me ch m qs ++ k) := by
        intro q st
        rw [claimOf_wakeup]
        exact hcalm q st
      have hw' : Wakeful (wakeup me ch m qs ++ k) := wakeful_wakeup hw
      exact ⟨⟨.inr rfl, .inr hcalm', .inl (by simpa using hw')⟩, ⟨hne, hrest, hcalm', hw'⟩, ih⟩

/-! ### The code of the calls -/

/-- Code to be run without a lock, by the thread of `me`. -/
structure Idle (lk : ι → κ) (me : Option ProcPtr) (k : List (Instr ι κ)) : Prop where
  fits : Fits lk me k
  needs : ∀ l, ¬ Needs lk k l

/-- No claim under a lock is behind idle code. -/
theorem Idle.calm (h : Idle lk me k) : Calm k := by
  intro q st hc
  by_contra hst
  exact h.needs _ (needs_of_claim h.fits hc (not_or.1 hst))

/-- Idle code is not inside `sleep`. -/
theorem Idle.wakeful (h : Idle lk me k) :
    Wakeful k := by
  intro p ch hmem
  cases dozing_of_mem h.fits hmem with
  | enters k =>
    refine h.needs (chanLock lk ch) ⟨.inr rfl, ?_⟩
    cases ch <;> simp [chanLock]
  | holds k => exact h.needs (chanLock lk ch) (.inr rfl)
  | sleeps k => exact h.needs (.proc p) rfl

theorem idle_nil (me : Option ProcPtr) : Idle (ι := ι) lk me [] := ⟨trivial, fun _ h => h⟩

theorem idle_kill (me : Option ProcPtr) (pid : Int) (qs : List ProcPtr) :
    Idle (ι := ι) lk me (Sched.kill pid qs) := by
  cases qs with
  | nil => exact idle_nil me
  | cons q qs =>
    constructor
    · simp [Sched.kill, Fits, Before, Needs, Gives, claim]
    · simp [Sched.kill, Needs, Gives]

theorem idle_fork (p : ProcPtr) (qs : List ProcPtr) :
    Idle (ι := ι) lk (some p) (fork p qs) := by
  cases qs with
  | nil => exact idle_nil _
  | cons q qs =>
    constructor
    · simp [Sched.fork, Fits, Before, Needs, Gives, claim]
    · simp [Sched.fork, Needs, Gives]

theorem idle_exit (p : ProcPtr) (status : Int) : Idle (ι := ι) lk (some p) (exit p status) := by
  constructor
  · simp [Sched.exit, Fits, Before, Needs, Gives, claim]
  · intro l
    simp only [Sched.exit, Needs, Gives]
    tauto

theorem idle_waker {i : ι} (hk : Idle lk me k) :
    Idle lk me (waker lk me i ++ k) := by
  constructor
  · exact ⟨⟨.inr rfl, .inr hk.calm, .inl (by simpa using hk.wakeful)⟩,
      ⟨rfl, hk.needs, hk.calm, hk.wakeful⟩, hk.fits⟩
  · rintro l ⟨hl | hl, hne⟩
    · exact hk.needs l hl
    · exact hne hl

/-- Every call starts without a lock. -/
theorem idle_call (m : Shared ι) (p : ProcPtr) (f : Call ι) :
    Idle lk (some p) (f.code lk m p) := by
  cases f with
  | yield =>
    constructor
    · simp [Call.code, yield, Fits, Before, Needs, claim]
    · simp [Call.code, yield, Needs]
  | fork => exact idle_fork p table
  | exit status => exact idle_exit p status
  | wait =>
    constructor
    · simp [Call.code, Sched.wait, Fits, Before, Needs, Gives, claim]
    · simp [Call.code, Sched.wait, Needs, Gives]
  | kill pid => exact idle_kill _ pid table
  | wakeup ch =>
    have hfree : ∀ q, ¬ Needs (ι := ι) lk [] (.proc q) := fun _ h => h
    rw [Call.code, ← List.append_nil (wakeup _ _ _ _)]
    exact ⟨fits_wakeup hfree trivial calm_nil wakeful_nil, fun l h => (needs_wakeup hfree l).1 h⟩
  | sleeper i consume =>
    constructor
    · simp [Call.code, Fits, Before, Needs, Gives, claim]
    · simp [Call.code, Needs, Gives]
  | waker i => exact idle_waker (idle_nil _)
  | clear i =>
    constructor
    · simp [Call.code, Fits, Before, Needs, Gives, claim]
    · simp [Call.code, Needs, Gives]

/-! ### What a kind of control asks for -/

/-- What a kind of control asks of the locks `N` that the hart holds before the instruction
and of the code `k` that it goes on with. -/
def Shape (lk : ι → κ) (me : Option ProcPtr) (N : Lock κ → Prop) (k : List (Instr ι κ)) :
    Control κ → Prop
  | .stay => Fits lk me k ∧ ∀ l, Needs lk k l ↔ N l
  | .acquire a => Fits lk me k ∧ ¬ N a ∧ ∀ l, Needs lk k l ↔ N l ∨ l = a
  | .release a => Fits lk me k ∧ N a ∧ ∀ l, Needs lk k l ↔ N l ∧ l ≠ a
  | .leave p => me = some p ∧ (∀ l, N l ↔ l = .proc p) ∧
      (k = [.zombieExit] ∨ Fits lk me k ∧ ∀ l, Needs lk k l ↔ l = .proc p)
  | .enter p => me = none ∧ (∀ l, N l ↔ l = .proc p) ∧ ∃ ps, k = [.dispatched p, .schedLoop ps]
  | .back p => me = none ∧ (∀ l, N l ↔ l = .proc p) ∧ ∃ ps, k = [.schedLoop ps]
  | .spawn q => Fits lk me k ∧ N (.proc q) ∧ ∀ l, Needs lk k l ↔ N l ∧ l ≠ .proc q

theorem shape_release {N : Lock κ → Prop} {a : Lock κ} (hk : Fits lk me k)
    (hN : ∀ l, N l ↔ Needs lk k l ∨ l = a) (ha : ¬ Needs lk k a) :
    Shape lk me N k (.release a) := by
  refine ⟨hk, (hN a).2 (.inr rfl), fun l => ?_⟩
  rw [hN]
  constructor
  · intro hl
    exact ⟨.inl hl, fun e => ha (e ▸ hl)⟩
  · rintro ⟨hl | hl, hne⟩
    · exact hl
    · exact absurd hl hne

/-- An instruction that ends with the release of the only lock it needs, with idle code
behind it. -/
theorem shape_idle {N : Lock κ → Prop} {a : Lock κ} (hk : Idle lk me k) (hN : ∀ l, N l ↔ l = a) :
    Shape lk me N k (.release a) :=
  shape_release hk.fits
    (fun l => ⟨fun h => .inr ((hN l).1 h), fun h => (hN l).2 (h.resolve_left (hk.needs l))⟩)
    (hk.needs a)

/-! ### The branches of the instructions -/

variable [DecidableEq ι]

/-- What `effect` returns, one case for each branch of the source. -/
inductive Effect (init : ProcPtr) (lk : ι → κ) (m : Shared ι) (ok : Bool) :
    Instr ι κ → Shared ι → Control κ → List (Instr ι κ) → Prop
  | acquire (l : Lock κ) : Effect init lk m ok (.acquire l) m (.acquire l) []
  | release (l : Lock κ) : Effect init lk m ok (.release l) m (.release l) []
  | yield (p : ProcPtr) : Effect init lk m ok (.yield p)
      (m.set p fun t => { t with state := .runnable }) (.leave p) []
  | sleep (p : ProcPtr) (ch : Chan ι) : Effect init lk m ok (.sleep p ch)
      (m.set p fun t => { t with chan := ch, state := .sleeping }) (.leave p) []
  | woken (p : ProcPtr) : Effect init lk m ok (.woken p)
      (m.set p fun t => { t with chan := .null }) (.release (.proc p)) []
  | wake (q : ProcPtr) (ch : Chan ι) (r : Nat) : Effect init lk m ok (.wake q ch r)
      (m.set q fun t => if t.chan = ch then t.wake else t) (.release (.proc q)) []
  | kill (pid : Int) (q : ProcPtr) (qs : List ProcPtr) (h : (m.proc q).pid = pid) :
      Effect init lk m ok (.killAt pid q qs)
        (m.set q fun t => { t with killed := true }.wake) (.release (.proc q)) []
  | killNext (pid : Int) (q : ProcPtr) (qs : List ProcPtr) (h : (m.proc q).pid ≠ pid) :
      Effect init lk m ok (.killAt pid q qs) m (.release (.proc q)) (kill pid qs)
  | alloc (p q : ProcPtr) (qs : List ProcPtr) (h : (m.proc q).state = .unused) :
      Effect init lk m ok (.allocAt p q qs) m .stay
        [.acquire .pid, .allocPid p q, .forkMem p q]
  | allocNext (p q : ProcPtr) (qs : List ProcPtr) (h : (m.proc q).state ≠ .unused) :
      Effect init lk m ok (.allocAt p q qs) m (.release (.proc q)) (fork p qs)
  | allocPid (p q : ProcPtr) : Effect init lk m ok (.allocPid p q)
      { m.set q fun t => { t with pid := m.nextpid, state := .used } with
        nextpid := m.nextpid + 1 } (.release .pid) []
  | spawn (p q : ProcPtr) (h : ok = true) : Effect init lk m ok (.forkMem p q) m (.spawn q)
      [.acquire .wait, .setParent p q, .acquire (.proc q), .publish q]
  | forkFail (p q : ProcPtr) (h : ok = false) : Effect init lk m ok (.forkMem p q)
      (m.set q fun _ => .free) (.release (.proc q)) []
  | setParent (p q : ProcPtr) : Effect init lk m ok (.setParent p q)
      (m.set q fun t => { t with parent := some p }) (.release .wait) []
  | publish (q : ProcPtr) : Effect init lk m ok (.publish q)
      (m.set q fun t => { t with state := .runnable }) (.release (.proc q)) []
  | reparentEnd (p : ProcPtr) : Effect init lk m ok (.reparent p []) m .stay []
  | reparent (p child : ProcPtr) (cs : List ProcPtr) (h : (m.proc child).parent = some p) :
      Effect init lk m ok (.reparent p (child :: cs))
        (m.set child fun t => { t with parent := some init }).call .stay
        (wakeup (some p) (.proc init) m.calls table ++ [.reparent p cs])
  | reparentNext (p child : ProcPtr) (cs : List ProcPtr) (h : (m.proc child).parent ≠ some p) :
      Effect init lk m ok (.reparent p (child :: cs)) m .stay [.reparent p cs]
  | wakeParent (p : ProcPtr) : Effect init lk m ok (.wakeParent p) m.call .stay
      (wakeup (some p) (.ofParent (m.proc p).parent) m.calls table)
  | zombie (p : ProcPtr) (status : Int) : Effect init lk m ok (.zombie p status)
      (m.set p fun t => { t with xstate := status, state := .zombie }) (.release .wait) []
  | exitSched (p : ProcPtr) : Effect init lk m ok (.exitSched p) m (.leave p) []
  | waitKids (p : ProcPtr) : Effect init lk m ok (.waitLoop p true []) m .stay
      [.acquire (.proc p), .waitKilled p]
  | waitNoKids (p : ProcPtr) : Effect init lk m ok (.waitLoop p false []) (m.result p (-1)) .stay
      [.release .wait]
  | waitLook (p : ProcPtr) (b : Bool) (child : ProcPtr) (cs : List ProcPtr)
      (h : (m.proc child).parent = some p) :
      Effect init lk m ok (.waitLoop p b (child :: cs)) m .stay
        [.acquire (.proc child), .waitChild p child cs]
  | waitNext (p : ProcPtr) (b : Bool) (child : ProcPtr) (cs : List ProcPtr)
      (h : (m.proc child).parent ≠ some p) :
      Effect init lk m ok (.waitLoop p b (child :: cs)) m .stay [.waitLoop p b cs]
  | reap (p child : ProcPtr) (cs : List ProcPtr) (h : (m.proc child).state = .zombie)
      (hok : ok = true) : Effect init lk m ok (.waitChild p child cs) (m.reap p child)
        (.release (.proc child)) [.release .wait]
  | copyFail (p child : ProcPtr) (cs : List ProcPtr) (h : (m.proc child).state = .zombie)
      (hok : ok = false) : Effect init lk m ok (.waitChild p child cs) (m.result p (-1))
        (.release (.proc child)) [.release .wait]
  | waitAlive (p child : ProcPtr) (cs : List ProcPtr) (h : (m.proc child).state ≠ .zombie) :
      Effect init lk m ok (.waitChild p child cs) m (.release (.proc child)) [.waitLoop p true cs]
  | waitKilled (p : ProcPtr) (h : (m.proc p).killed = true) : Effect init lk m ok (.waitKilled p)
      (m.result p (-1)) (.release (.proc p)) [.release .wait]
  | waitSleep (p : ProcPtr) (h : (m.proc p).killed = false) : Effect init lk m ok (.waitKilled p)
      m (.release (.proc p)) (Sched.sleep p (.proc p) .wait ++ [.waitLoop p false table])
  | pass (p : ProcPtr) (j : ι) (consume : Bool) (h : m.cond j = true) :
      Effect init lk m ok (.test p j consume) (if consume then m.clear j else m)
        (.release (.user (lk j))) []
  | doze (p : ProcPtr) (j : ι) (consume : Bool) (h : m.cond j = false) :
      Effect init lk m ok (.test p j consume) m .stay
        (Sched.sleep p (.cond j) (.user (lk j)) ++ [.test p j consume])
  | signal (me : Option ProcPtr) (j : ι) : Effect init lk m ok (.signal me j)
      (m.signal j).call .stay (wakeup me (.cond j) m.calls table ++ [.release (.user (lk j))])
  | clear (j : ι) : Effect init lk m ok (.clear j) (m.clear j) (.release (.user (lk j))) []
  | schedEnd : Effect init lk m ok (.schedLoop []) m .stay [.schedLoop table]
  | schedNext (p : ProcPtr) (ps : List ProcPtr) : Effect init lk m ok (.schedLoop (p :: ps)) m
      .stay [.acquire (.proc p), .schedAt p ps]
  | choose (p : ProcPtr) (ps : List ProcPtr) (h : (m.proc p).state = .runnable) :
      Effect init lk m ok (.schedAt p ps) m .stay [.dispatch p, .dispatched p, .schedLoop ps]
  | skip (p : ProcPtr) (ps : List ProcPtr) (h : (m.proc p).state ≠ .runnable) :
      Effect init lk m ok (.schedAt p ps) m (.release (.proc p)) [.schedLoop ps]
  | dispatch (p : ProcPtr) : Effect init lk m ok (.dispatch p)
      (m.set p fun t => { t with state := .running }) (.enter p) []
  | dispatched (p : ProcPtr) : Effect init lk m ok (.dispatched p) m (.back p) []

variable {init : ProcPtr} {m m' : Shared ι} {ok : Bool} {is : List (Instr ι κ)} {ctl : Control κ}

theorem effect_inv (h : effect init lk m ok i = .ok (m', ctl, is)) :
    Effect init lk m ok i m' ctl is := by
  cases i with
  | killAt pid q qs =>
    rw [effect] at h
    split at h
    · rename_i hpid
      cases h
      exact .kill pid q qs hpid
    · rename_i hpid
      cases h
      exact .killNext pid q qs hpid
  | allocAt p q qs =>
    rw [effect] at h
    split at h
    · rename_i hq
      cases h
      exact .alloc p q qs hq
    · rename_i hq
      cases h
      exact .allocNext p q qs hq
  | forkMem p q =>
    cases ok with
    | true =>
      cases h
      exact .spawn p q rfl
    | false =>
      cases h
      exact .forkFail p q rfl
  | reparent p cs =>
    cases cs with
    | nil =>
      cases h
      exact .reparentEnd p
    | cons child cs =>
      rw [effect] at h
      split at h
      · rename_i hp
        cases h
        exact .reparent p child cs hp
      · rename_i hp
        cases h
        exact .reparentNext p child cs hp
  | waitLoop p havekids cs =>
    cases cs with
    | nil =>
      cases havekids with
      | true =>
        cases h
        exact .waitKids p
      | false =>
        cases h
        exact .waitNoKids p
    | cons child cs =>
      rw [effect] at h
      split at h
      · rename_i hp
        cases h
        exact .waitLook p havekids child cs hp
      · rename_i hp
        cases h
        exact .waitNext p havekids child cs hp
  | waitChild p child cs =>
    rw [effect] at h
    split at h
    · rename_i hz
      cases ok with
      | true =>
        cases h
        exact .reap p child cs hz rfl
      | false =>
        cases h
        exact .copyFail p child cs hz rfl
    · rename_i hz
      cases h
      exact .waitAlive p child cs hz
  | waitKilled p =>
    rw [effect] at h
    split at h
    · rename_i hk
      cases h
      exact .waitKilled p hk
    · rename_i hk
      cases h
      exact .waitSleep p (by simpa using hk)
  | test p j consume =>
    rw [effect] at h
    split at h
    · rename_i hj
      cases h
      exact .pass p j consume hj
    · rename_i hj
      cases h
      exact .doze p j consume (by simpa using hj)
  | schedLoop ps =>
    cases ps with
    | nil =>
      cases h
      exact .schedEnd
    | cons p ps =>
      cases h
      exact .schedNext p ps
  | schedAt p ps =>
    rw [effect] at h
    split at h
    · rename_i hp
      cases h
      exact .choose p ps hp
    · rename_i hp
      cases h
      exact .skip p ps hp
  | zombieExit => cases h
  -- The other instructions have one branch.
  | _ =>
    cases h
    constructor

theorem effect_shape (hfits : Fits lk me (i :: k)) (h : effect init lk m ok i = .ok (m', ctl, is)) :
    Shape lk me (Needs lk (i :: k)) (is ++ k) ctl := by
  obtain ⟨hb, hk⟩ := hfits
  cases effect_inv h with
  | acquire l =>
    have hl : Needs lk k l := hb.1
    refine ⟨hk, fun h => h.2 rfl, fun a => ?_⟩
    show Needs lk k a ↔ (Needs lk k a ∧ a ≠ l) ∨ a = l
    by_cases ha : a = l
    · simp [ha, hl]
    · simp [ha]
  | release l => exact shape_release hk (fun _ => Iff.rfl) hb.1
  | yield p =>
    obtain ⟨rfl, rfl⟩ := hb
    exact ⟨rfl, fun _ => Iff.rfl, .inr ⟨hk, by simp [Needs, Gives]⟩⟩
  | sleep p ch =>
    obtain ⟨rfl, ⟨i, b, -, rfl⟩ | ⟨rfl, -⟩⟩ := hb
    · exact ⟨rfl, fun _ => Iff.rfl, .inr ⟨hk, by simp [Needs, Gives]⟩⟩
    · exact ⟨rfl, fun _ => Iff.rfl, .inr ⟨hk, by simp [Needs, Gives]⟩⟩
  | woken p => exact shape_release hk (fun _ => Iff.rfl) hb.2.1
  | wake q ch r => exact shape_release hk (fun _ => Iff.rfl) hb.2.1
  | kill pid q qs hpid =>
    obtain rfl : k = [] := hb
    exact shape_idle (idle_nil me) (by simp [Needs, Gives])
  | killNext pid q qs hpid =>
    obtain rfl : k = [] := hb
    rw [List.append_nil]
    exact shape_idle (idle_kill me pid qs) (by simp [Needs, Gives])
  | alloc p q qs hq =>
    obtain ⟨rfl, rfl⟩ := hb
    refine ⟨by simp [Fits, Before, Needs, Gives, claim], fun l => ?_⟩
    -- The test keeps `q->lock`; `pid_lock` comes and goes.
    show ((False ∨ l = .proc q) ∨ l = .pid) ∧ l ≠ .pid ↔ False ∨ l = .proc q
    by_cases hl : l = .pid
    · simp [hl]
    · simp [hl]
  | allocNext p q qs hq =>
    obtain ⟨rfl, rfl⟩ := hb
    rw [List.append_nil]
    exact shape_idle (idle_fork p qs) (by simp [Needs, Gives])
  | allocPid p q =>
    obtain ⟨rfl, rfl⟩ := hb
    exact shape_release hk (fun _ => Iff.rfl) (by simp [Needs, Gives])
  | spawn p q hok =>
    obtain ⟨rfl, rfl⟩ := hb
    refine ⟨by simp [Fits, Before, Needs, Gives, claim], by simp [Needs, Gives], fun l => ?_⟩
    simp only [List.append_nil, Needs, Gives]
    tauto
  | forkFail p q hok =>
    obtain ⟨rfl, rfl⟩ := hb
    exact shape_idle (idle_nil _) (by simp [Needs, Gives])
  | setParent p q =>
    obtain ⟨rfl, rfl⟩ := hb
    exact shape_release hk (fun _ => Iff.rfl) (by simp [Needs, Gives])
  | publish q =>
    obtain ⟨-, rfl⟩ := hb
    exact shape_idle (idle_nil _) (by simp [Needs, Gives])
  | reparentEnd p => exact ⟨hk, fun l => (iff_of_eq (or_false _)).symm⟩
  | reparent p child cs hparent =>
    obtain ⟨rfl, st, rfl⟩ := hb
    have hwait : ∀ q, ¬ Needs lk (.reparent p cs ::
        [.wakeParent p, .acquire (.proc p), .zombie p st, .exitSched p, .zombieExit])
        (.proc q) := by
      simp [Needs, Gives]
    rw [List.append_assoc]
    exact ⟨fits_wakeup hwait ⟨⟨rfl, st, rfl⟩, hk⟩ (by simp [claim]) (by simp),
      fun l => needs_wakeup hwait l⟩
  | reparentNext p child cs hparent =>
    obtain ⟨rfl, st, rfl⟩ := hb
    exact ⟨⟨⟨rfl, st, rfl⟩, hk⟩, fun _ => Iff.rfl⟩
  | wakeParent p =>
    obtain ⟨rfl, st, rfl⟩ := hb
    have hwait : ∀ q, ¬ Needs lk
        [.acquire (.proc p), .zombie p st, .exitSched p, .zombieExit] (.proc q) := by
      simp [Needs, Gives]
    refine ⟨fits_wakeup hwait hk (by simp [claim]) (by simp), fun l => ?_⟩
    rw [needs_wakeup hwait]
    exact (iff_of_eq (or_false _)).symm
  | zombie p status =>
    obtain ⟨rfl, rfl⟩ := hb
    exact shape_release hk (fun _ => Iff.rfl) (by simp [Needs])
  | exitSched p =>
    obtain ⟨rfl, rfl⟩ := hb
    exact ⟨rfl, fun _ => Iff.rfl, .inl rfl⟩
  | waitKids p =>
    obtain ⟨rfl, rfl⟩ := hb
    refine ⟨by simp [Fits, Before, Needs, Gives, claim], fun l => ?_⟩
    simp only [List.append_nil, Needs, Gives]
    by_cases hl : l = .proc p
    · simp [hl]
    · simp [hl]
  | waitNoKids p =>
    obtain ⟨rfl, rfl⟩ := hb
    exact ⟨by simp [Fits, Before, Needs], fun _ => Iff.rfl⟩
  | waitLook p b child cs hparent =>
    obtain ⟨rfl, rfl⟩ := hb
    refine ⟨by simp [Fits, Before, Needs, Gives, claim], fun l => ?_⟩
    simp only [List.append_nil, Needs, Gives]
    by_cases hl : l = .proc child
    · simp [hl]
    · simp [hl]
  | waitNext p b child cs hparent =>
    obtain ⟨rfl, rfl⟩ := hb
    exact ⟨⟨⟨rfl, rfl⟩, trivial⟩, fun _ => Iff.rfl⟩
  | waitSleep p hkilled =>
    obtain ⟨rfl, rfl⟩ := hb
    refine shape_release (by simp [sleep, Fits, Before, Needs, Gives, claim, chanLock])
      (fun l => ?_) ?_
    · simp only [sleep, List.append_nil, List.cons_append, List.nil_append, Needs, Gives]
      by_cases hl : l = .proc p
      · simp [hl]
      · simp [hl]
    · simp [sleep, Needs]
  | pass p j consume hj =>
    obtain ⟨rfl, rfl⟩ := hb
    exact shape_idle (idle_nil _) (by simp [Needs, Gives])
  | doze p j consume hj =>
    obtain ⟨rfl, rfl⟩ := hb
    refine ⟨by simp [sleep, Fits, Before, Needs, Gives, claim, chanLock], fun l => ?_⟩
    simp only [sleep, List.append_nil, List.cons_append, List.nil_append, Needs, Gives]
    by_cases hl : l = .proc p
    · simp [hl]
    · simp [hl]
  | signal me' j =>
    obtain ⟨rfl, hfree, hcalm, hw⟩ := hb
    have hlock : ∀ q, ¬ Needs lk (.release (.user (lk j)) :: k) (.proc q) := by
      rintro q (hq | hq)
      · exact hfree _ hq
      · cases hq
    rw [List.append_assoc]
    exact ⟨fits_wakeup hlock ⟨⟨hfree _, hcalm, .inl hw⟩, hk⟩ hcalm (by simpa using hw),
      fun l => needs_wakeup hlock l⟩
  | clear j =>
    obtain rfl : k = [] := hb
    exact shape_idle (idle_nil _) (by simp [Needs, Gives])
  | schedEnd =>
    obtain ⟨rfl, rfl⟩ := hb
    exact ⟨⟨⟨rfl, rfl⟩, trivial⟩, fun _ => Iff.rfl⟩
  | schedNext p ps =>
    obtain ⟨rfl, rfl⟩ := hb
    exact ⟨by simp [Fits, Before, Needs, Gives, claim], by simp [Needs, Gives]⟩
  | choose p ps hp =>
    obtain ⟨rfl, rfl⟩ := hb
    exact ⟨by simp [Fits, Before], by simp [Needs, Gives]⟩
  | dispatch p =>
    obtain ⟨rfl, ps, rfl⟩ := hb
    exact ⟨rfl, by simp [Needs, Gives], ps, rfl⟩
  | dispatched p =>
    obtain ⟨rfl, ps, rfl⟩ := hb
    exact ⟨rfl, by simp [Needs, Gives], ps, rfl⟩
  -- What is left of `wait` and of the scheduler's test releases a lock and goes on.
  | _ =>
    obtain ⟨rfl, rfl⟩ := hb
    exact shape_release (by simp [Fits, Before, Needs]) (by simp [Needs, Gives])
      (by simp [Needs, Gives])

/-! ### What an instruction does to a process -/

/-- Instruction `i` changes process `q` of `m` to the given record. -/
inductive Move (init : ProcPtr) (m : Shared ι) (ok : Bool) (q : ProcPtr) :
    Instr ι κ → Proc ι → Prop
  | yield : Move init m ok q (.yield q) { m.proc q with state := .runnable }
  | sleep (ch : Chan ι) :
      Move init m ok q (.sleep q ch) { m.proc q with chan := ch, state := .sleeping }
  | woken : Move init m ok q (.woken q) { m.proc q with chan := .null }
  | wake (ch : Chan ι) (c : Nat) (hch : (m.proc q).chan = ch) :
      Move init m ok q (.wake q ch c) (m.proc q).wake
  | kill (pid : Int) (qs : List ProcPtr) :
      Move init m ok q (.killAt pid q qs) { m.proc q with killed := true }.wake
  | allocPid (p : ProcPtr) :
      Move init m ok q (.allocPid p q) { m.proc q with pid := m.nextpid, state := .used }
  | forkFail (p : ProcPtr) (hok : ok = false) : Move init m ok q (.forkMem p q) .free
  | setParent (p : ProcPtr) :
      Move init m ok q (.setParent p q) { m.proc q with parent := some p }
  | publish : Move init m ok q (.publish q) { m.proc q with state := .runnable }
  | reparent (p : ProcPtr) (cs : List ProcPtr) (hparent : (m.proc q).parent = some p) :
      Move init m ok q (.reparent p (q :: cs)) { m.proc q with parent := some init }
  | zombie (status : Int) :
      Move init m ok q (.zombie q status) { m.proc q with xstate := status, state := .zombie }
  | reap (p : ProcPtr) (cs : List ProcPtr) (hzombie : (m.proc q).state = .zombie)
      (hok : ok = true) : Move init m ok q (.waitChild p q cs) .free
  | dispatch : Move init m ok q (.dispatch q) { m.proc q with state := .running }

omit [DecidableEq ι] in
@[simp]
theorem set_proc (m : Shared ι) (p : ProcPtr) (f : Proc ι → Proc ι) (q : ProcPtr) :
    (m.set p f).proc q = if q = p then f (m.proc q) else m.proc q := by
  by_cases h : q = p
  · subst h
    simp [Shared.set]
  · simp [Shared.set, h]

omit [DecidableEq ι] in
/-- A change of one process is the only move. -/
theorem move_set {f : Proc ι → Proc ι} (hm : m'.proc = (m.set p f).proc)
    (h : f (m.proc p) = m.proc p ∨ Move init m ok p i (f (m.proc p))) (q : ProcPtr) :
    m'.proc q = m.proc q ∨ Move init m ok q i (m'.proc q) := by
  rw [hm, set_proc]
  split
  · rename_i hq
    rw [hq]
    exact h
  · exact .inl rfl

theorem effect_move (h : effect init lk m ok i = .ok (m', ctl, is)) (q : ProcPtr) :
    m'.proc q = m.proc q ∨ Move init m ok q i (m'.proc q) := by
  cases effect_inv h with
  | yield p => exact move_set rfl (.inr .yield) q
  | sleep p ch => exact move_set rfl (.inr (.sleep ch)) q
  | woken p => exact move_set rfl (.inr .woken) q
  | wake p ch r =>
    refine move_set rfl ?_ q
    by_cases hch : (m.proc p).chan = ch
    · rw [if_pos hch]
      exact .inr (.wake ch r hch)
    · exact .inl (if_neg hch)
  | kill pid p qs hpid => exact move_set rfl (.inr (.kill pid qs)) q
  | allocPid p q' =>
    exact move_set (f := fun t => { t with pid := m.nextpid, state := .used }) rfl
      (.inr (.allocPid p)) q
  | forkFail p q' hok => exact move_set rfl (.inr (.forkFail p hok)) q
  | setParent p q' => exact move_set rfl (.inr (.setParent p)) q
  | publish p => exact move_set rfl (.inr .publish) q
  | reparent p child cs hparent =>
    exact move_set (f := fun t => { t with parent := some init }) rfl
      (.inr (.reparent p cs hparent)) q
  | zombie p status => exact move_set rfl (.inr (.zombie status)) q
  | reap p child cs hz hok => exact move_set (f := fun _ => .free) rfl (.inr (.reap p cs hz hok)) q
  | dispatch p => exact move_set rfl (.inr .dispatch) q
  | pass p j consume hj => cases consume <;> exact .inl rfl
  | _ => exact .inl rfl

omit [DecidableEq ι] in
/-- A process changes under its lock, except for its parent, which changes under
`wait_lock`. -/
theorem move_locked {t : Proc ι} (hfits : Fits lk me (i :: k)) (h : Move init m ok q i t) :
    Needs lk (i :: k) (.proc q) ∨
      Needs lk (i :: k) .wait ∧ ∃ x, t = { m.proc q with parent := x } := by
  obtain ⟨hb, -⟩ := hfits
  cases h with
  | yield => exact .inl rfl
  | sleep ch => exact .inl rfl
  | woken => exact .inl (.inr rfl)
  | wake ch c hch => exact .inl (.inr rfl)
  | kill pid qs => exact .inl (.inr rfl)
  | allocPid p =>
    obtain ⟨rfl, rfl⟩ := hb
    exact .inl (.inl (.inr rfl))
  | forkFail p hok => exact .inl (.inr rfl)
  | setParent p => exact .inr ⟨.inr rfl, some p, rfl⟩
  | publish => exact .inl (.inr rfl)
  | reparent p cs hparent =>
    obtain ⟨rfl, st, rfl⟩ := hb
    exact .inr ⟨by simp [Needs, Gives], some init, rfl⟩
  | zombie status =>
    obtain ⟨rfl, rfl⟩ := hb
    exact .inl (.inl rfl)
  | reap p cs hzombie hok => exact .inl (.inr (.inr rfl))
  | dispatch =>
    obtain ⟨rfl, ps, rfl⟩ := hb
    exact .inl (.inl (.inr rfl))

/-! ### The instructions that switch -/

/-- Which instructions leave a thread or enter one, and what they change. -/
theorem effect_control (h : effect init lk m ok i = .ok (m', ctl, is)) :
    match ctl with
    | .leave p => is = [] ∧
        (i = .yield p ∧ m' = m.set p (fun t => { t with state := .runnable }) ∨
          (∃ ch, i = .sleep p ch ∧
            m' = m.set p fun t => { t with chan := ch, state := .sleeping }) ∨
          i = .exitSched p ∧ m' = m)
    | .enter p => is = [] ∧ i = .dispatch p ∧
        m' = m.set p fun t => { t with state := .running }
    | .back p => i = .dispatched p
    | .spawn q => ∃ p, i = .forkMem p q
    | _ => True := by
  cases effect_inv h with
  | yield p => exact ⟨rfl, .inl ⟨rfl, rfl⟩⟩
  | sleep p ch => exact ⟨rfl, .inr (.inl ⟨ch, rfl, rfl⟩)⟩
  | exitSched p => exact ⟨rfl, .inr (.inr ⟨rfl, rfl⟩)⟩
  | dispatch p => exact ⟨rfl, rfl, rfl⟩
  | dispatched p => exact rfl
  | spawn p q hok => exact ⟨p, rfl⟩
  | _ => trivial

/-! ### What an instruction does to the claims -/

/-- The claim after an instruction is the one before it, or it went on by a stage. -/
theorem effect_claim (hfits : Fits lk me (i :: k)) (h : effect init lk m ok i = .ok (m', ctl, is))
    (hc : claimOf (is ++ k) = some (q, st)) :
    claim i = none ∧ claimOf (i :: k) = some (q, st) ∨
    (∃ ps, i = .schedAt q ps ∧ (m.proc q).state = .runnable ∧ st = .chosen) ∨
    (∃ p qs, i = .allocAt p q qs ∧ (m.proc q).state = .unused ∧ st = .fresh) ∨
    (∃ p, i = .allocPid p q ∧ st = .made) ∨
    (∃ p, i = .forkMem p q ∧ ctl = .spawn q ∧ st = .spawned) ∨
    ∃ p, i = .setParent p q ∧ st = .ready := by
  obtain ⟨hb, -⟩ := hfits
  cases effect_inv h with
  | alloc p q' qs hunused =>
    obtain ⟨rfl, rfl⟩ := hb
    cases hc
    exact .inr (.inr (.inl ⟨p, qs, rfl, hunused, rfl⟩))
  | allocNext p q' qs hq =>
    obtain ⟨rfl, rfl⟩ := hb
    cases qs <;> cases hc
  | allocPid p q' =>
    obtain ⟨rfl, rfl⟩ := hb
    cases hc
    exact .inr (.inr (.inr (.inl ⟨p, rfl, rfl⟩)))
  | spawn p q' hok =>
    obtain ⟨rfl, rfl⟩ := hb
    cases hc
    exact .inr (.inr (.inr (.inr (.inl ⟨p, rfl, rfl, rfl⟩))))
  | setParent p q' =>
    obtain ⟨rfl, rfl⟩ := hb
    cases hc
    exact .inr (.inr (.inr (.inr (.inr ⟨p, rfl, rfl⟩))))
  | choose p ps hp =>
    obtain ⟨rfl, rfl⟩ := hb
    cases hc
    exact .inr (.inl ⟨ps, rfl, hp, rfl⟩)
  | dispatch p =>
    obtain ⟨rfl, ps, rfl⟩ := hb
    cases hc
  | signal me' j =>
    rw [List.append_assoc, claimOf_wakeup] at hc
    exact .inl ⟨rfl, hc⟩
  | reparent p child cs hparent =>
    obtain ⟨rfl, st', rfl⟩ := hb
    rw [List.append_assoc, claimOf_wakeup] at hc
    cases hc
  | reparentNext p child cs hparent =>
    obtain ⟨rfl, st', rfl⟩ := hb
    cases hc
  | wakeParent p =>
    obtain ⟨rfl, st', rfl⟩ := hb
    rw [claimOf_wakeup] at hc
    cases hc
  | killNext pid q' qs hpid =>
    obtain rfl : k = [] := hb
    cases qs <;> cases hc
  -- These push no code and work on no slot.
  | acquire l => exact .inl ⟨rfl, hc⟩
  | release l => exact .inl ⟨rfl, hc⟩
  | yield p => exact .inl ⟨rfl, hc⟩
  | sleep p ch => exact .inl ⟨rfl, hc⟩
  | woken p => exact .inl ⟨rfl, hc⟩
  | wake p ch r => exact .inl ⟨rfl, hc⟩
  | kill pid p qs hpid => exact .inl ⟨rfl, hc⟩
  | reparentEnd p => exact .inl ⟨rfl, hc⟩
  | zombie p status => exact .inl ⟨rfl, hc⟩
  | exitSched p => exact .inl ⟨rfl, hc⟩
  | clear j => exact .inl ⟨rfl, hc⟩
  | dispatched p => exact .inl ⟨rfl, hc⟩
  -- Behind the other branches the code is fixed, and claims nothing.
  | _ =>
    obtain ⟨-, rfl⟩ := hb
    cases hc

end Xv6.Proofs.Sched
