import Xv6.Proofs.Sched.Placement

/-!
# `Xv6.Proofs.Sched.Dispatch`: a process runs on at most one hart

Every step of the machine keeps `Inv`: an instruction by the lemma for its kind of control, a
call and an interrupt because they put idle code on top of what the hart runs. Where `Inv`
holds, a process is the `c->proc` of at most one hart, a `RUNNING` process whose lock is free
is the `c->proc` of exactly one, and a scheduler that is about to dispatch holds the lock of a
`RUNNABLE` process. No step panics over a lock.
-/

set_option autoImplicit false

namespace Xv6.Proofs.Sched

open Xv6.Kernel Xv6.Kernel.Sched Xv6.Lib

variable {n : Nat} {ι κ : Type} {init : ProcPtr} {lk : ι → κ} {s t : State n ι κ}

/-! ### The steps -/

theorem inv_of_enter [DecidableEq ι] [DecidableEq κ] {c : Fin n} {i : Instr ι κ}
    {k is : List (Instr ι κ)} {m : Shared ι} {ok : Bool} {p : ProcPtr} (hI : Inv lk s)
    (hcur : s.current c = i :: k)
    (h : effect init lk s.mem ok i = .ok (m, .enter p, is))
    (ht : perform { s with mem := m } c (is ++ k) (.enter p) = some (.ok t)) : Inv lk t := by
  obtain ⟨hr, -, ps, hk⟩ := effect_shape (fits_current hI hcur) h
  obtain ⟨rfl, rfl, rfl⟩ := effect_control h
  have hloop : s.loop c = [.dispatch p, .dispatched p, .schedLoop ps] := by
    rw [← current_of_idle hr, hcur]
    exact congrArg _ hk
  cases ht
  refine hI.enter hr hloop (goto_lock _ _ _) (goto_nesting _ _ _) ?_ ?_ ?_ ?_ ?_
  · funext q
    simp [goto_code, hr]
  · intro q
    simp only [goto_mem, set_proc]
    split <;> rfl
  · intro c'
    simp [Function.update_apply]
  · intro c'
    simp [Function.update_apply]
  · intro c'
    simp only [goto_loop, hr, and_true]
    rw [hk]

theorem inv_of_step [DecidableEq ι] [DecidableEq κ] {c : Fin n} {ok : Bool} (hI : Inv lk s)
    (ht : step init lk s c ok = some (.ok t)) : Inv lk t := by
  unfold step at ht
  split at ht
  · cases ht
  · rename_i i k hcur
    split at ht
    · cases ht
    · rename_i m ctl is heff
      cases ctl with
      | leave p => exact inv_of_leave hI hcur heff ht
      | enter p => exact inv_of_enter hI hcur heff ht
      | spawn q => exact inv_of_spawn hI hcur heff ht
      | _ => exact inv_of_perform hI hcur heff (by simp) (by simp) ht

/-- No call claims a slot before it has looked at one. -/
theorem claimOf_call (m : Shared ι) (p : ProcPtr) (f : Call ι) :
    claimOf (f.code lk m p) = none := by
  cases f with
  | wakeup ch =>
    rw [Call.code, ← List.append_nil (wakeup _ _ _ _), claimOf_wakeup]
    rfl
  | _ => rfl

/-- Idle code on top of code that needs no lock keeps the invariant. -/
theorem inv_of_push {c : Fin n} {k : List (Instr ι κ)} {m : Shared ι} (hI : Inv lk s)
    (hidle : ∀ l, ¬ Needs lk (s.current c) l) (hk : Idle lk (s.running c) k)
    (hm : m.proc = s.mem.proc)
    (hclaim : ∀ x, claimOf k = some x → claimOf (s.current c) = some x) :
    Inv lk (State.goto { s with mem := m } c k) := by
  have hcpu : s.running c = none → s.cpu c = none := by
    intro hr
    refine cpu_of_idle hI rfl hr fun p ps hcur => ?_
    exact hidle (.proc p) (by rw [hcur]; exact .inr rfl)
  have hstays : ∀ p, s.current c ≠ [.exitSched p, .zombieExit] := by
    intro p hcur
    exact hidle (.proc p) (by rw [hcur]; rfl)
  refine hI.local (local_goto hstays hcpu ⟨rfl, rfl, rfl, rfl⟩ hk.fits (fun l => ?_)
    (fun _ _ _ => Iff.rfl) hI.nest) ⟨fun q => .inl ?_, fun p hr q st hc => ?_, ?_⟩
  · exact ⟨fun h => absurd ((hI.held c l).1 h) (hidle l), fun h => absurd h (hk.needs l)⟩
  · rw [goto_mem, hm]
  · have hc' : claimOf (s.code p) = some (q, st) := by
      rw [← current_of_running hr]
      exact hclaim _ hc
    refine ⟨?_, .inl ⟨st, hc'⟩, hI.born p q st hc'⟩
    rw [goto_mem, hm]
    exact (hI.claim p q st hc').1
  · rintro - p k' rfl
    -- A dispatch holds a lock, so it is not behind idle code.
    exact absurd (needs_of_claim (q := p) hk.fits rfl (by simp)) (hk.needs _)

theorem call_eq (lk : ι → κ) (s : State n ι κ) (c : Fin n) (p : ProcPtr) (f : Call ι) :
    ∃ m : Shared ι, m.proc = s.mem.proc ∧
      s.call lk c p f = State.goto { s with mem := m } c (f.code lk s.mem p) := by
  cases f with
  | wakeup ch =>
    refine ⟨s.mem.call, rfl, ?_⟩
    unfold State.call State.goto
    cases s.running c <;> rfl
  | _ => exact ⟨s.mem, rfl, rfl⟩

theorem inv_of_call {c : Fin n} {p : ProcPtr} (hI : Inv lk s)
    (hr : s.running c = some p) (hcode : s.code p = []) (f : Call ι) :
    Inv lk (s.call lk c p f) := by
  obtain ⟨m, hm, heq⟩ := call_eq lk s c p f
  rw [heq]
  have hcur : s.current c = [] := by rw [current_of_running hr, hcode]
  refine inv_of_push hI ?_ ?_ hm fun x hx => ?_
  · rw [hcur]
    exact fun _ h => h
  · rw [hr]
    exact idle_call s.mem p f
  · rw [claimOf_call] at hx
    cases hx

/-- A hart with interrupts on holds no lock. -/
theorem idle_of_nesting {c : Fin n} (hI : Inv lk s) (hnest : s.nesting c = 0) :
    Idle lk (s.running c) (s.current c) := by
  refine ⟨hI.fits c, fun l hl => ?_⟩
  obtain ⟨L, -, hmem, hlen⟩ := hI.nest c
  rw [hnest, List.length_eq_zero_iff] at hlen
  rw [← hI.held, hmem, hlen] at hl
  cases hl

/-- Without a lock, `myproc()` is the process that the hart runs. -/
theorem cpu_of_idle_code {c : Fin n} (hI : Inv lk s)
    (hidle : Idle lk (s.running c) (s.current c)) : s.cpu c = s.running c := by
  cases hr : s.running c with
  | some p => exact hI.cpu c p hr
  | none =>
    refine cpu_of_idle hI rfl hr fun p ps hcur => ?_
    exact hidle.needs (.proc p) (by rw [hcur]; exact .inr rfl)

theorem inv_of_interrupt {c : Fin n} (hI : Inv lk s) (hnest : s.nesting c = 0) (i : ι) :
    Inv lk (s.goto c (waker lk (s.cpu c) i ++ s.current c)) := by
  have hidle := idle_of_nesting hI hnest
  rw [cpu_of_idle_code hI hidle]
  exact inv_of_push (m := s.mem) hI hidle.needs (idle_waker hidle) rfl fun _ hx => hx

theorem inv_of_machine [DecidableEq ι] [DecidableEq κ] {a : Label n ι} (hI : Inv lk s)
    (ht : machine init lk s a = some (.ok t)) : Inv lk t := by
  cases a with
  | step c ok => exact inv_of_step hI ht
  | call c f =>
    simp only [machine] at ht
    split at ht
    · cases ht
    · rename_i p hr
      split at ht
      · cases ht
      · rename_i hcode
        have hInv := inv_of_call hI hr (not_not.1 hcode) f
        split at ht
        · split at ht
          · cases ht
          · cases ht
            exact hInv
        · cases ht
          exact hInv
  | interrupt c i =>
    simp only [machine] at ht
    split at ht
    · rename_i hnest
      cases ht
      exact inv_of_interrupt hI hnest i
    · cases ht

/-! ### The runs -/

theorem inv_initial (cond : ι → Bool) : Inv lk (initial n init cond : State n ι κ) := by
  have hcode : ∀ p, claimOf ((initial n init cond : State n ι κ).code p) = none := by
    intro p
    show claimOf (if p = init then forkret p else []) = none
    split <;> rfl
  have hstate : ∀ p, p ≠ init → (firstEntry init p : Proc ι).state = .unused := by
    intro p hp
    rw [firstEntry, if_neg hp]
    rfl
  exact
    { held := fun c l => by simp [initial, State.current, Needs, Gives]
      fits := fun c => by simp [initial, State.current, Fits, Before]
      nest := fun c => ⟨[], List.nodup_nil, by simp [initial], rfl⟩
      cpu := fun c p h => by cases h
      away := fun c p h => by cases h
      single := fun c c' p h => by cases h
      onHart := fun c p h => by cases h
      placed := fun p hp => by
        by_cases h : p = init
        · simp [initial, firstEntry, h] at hp
        · simp [initial, hstate p h] at hp
      parked := fun p _ hp => by
        by_cases h : p = init
        · have hp' : (initial n init cond : State n ι κ).code p = forkret p := if_pos h
          rw [hp']
          exact fits_forkret lk p
        · simp [initial, hstate p h] at hp
      chosen := fun c p k _ h => by cases h
      claim := fun p q st h => by
        rw [hcode] at h
        cases h
      owner := fun p p' q st st' h => by
        rw [hcode] at h
        cases h
      born := fun p q st h => by
        rw [hcode] at h
        cases h }

/-- The states of the runs from the start of the schedulers, whatever the conditions are
then. -/
def Run [DecidableEq ι] [DecidableEq κ] (init : ProcPtr) (lk : ι → κ) : State n ι κ → Prop :=
  Reach (machine init lk) (fun _ _ => True) fun s => ∃ cond, s = initial n init cond

theorem inv_of_run [DecidableEq ι] [DecidableEq κ] (h : Run init lk s) : Inv lk s := by
  refine Reach.invariant ?_ (fun s a t hI _ ht => inv_of_machine hI ht) h
  rintro s ⟨cond, rfl⟩
  exact inv_initial cond

/-! ### One hart for each process -/

theorem Inv.cpu_inj (h : Inv lk s) {c c' : Fin n} {p : ProcPtr} (hc : s.cpu c = some p)
    (hc' : s.cpu c' = some p) : c = c' := by
  -- A hart with `p` in `c->proc` runs it, or holds its lock on the way back from it.
  have hcases : ∀ {c}, s.cpu c = some p → s.running c = some p ∨ s.lock (.proc p) = some c := by
    intro c hc
    cases hr : s.running c with
    | none => exact .inr (h.held_away hc hr)
    | some q =>
      have hq := h.cpu c q hr
      rw [hc] at hq
      exact .inl hq.symm
  rcases hcases hc with hr | hl
  · exact h.single c c' p hr hc'
  · rcases hcases hc' with hr' | hl'
    · exact (h.single c' c p hr' hc).symm
    · rw [hl] at hl'
      exact Option.some.inj hl'

/-- In every state of every run, on any number of harts: a process is the `c->proc` of at most
one hart; a `RUNNING` process whose lock is free is the `c->proc` of exactly one; and a hart
whose next instruction is a dispatch dispatches a `RUNNABLE` process. -/
theorem process_on_one_hart [DecidableEq ι] [DecidableEq κ] (h : Run init lk s) :
    (∀ p c c', s.cpu c = some p → s.cpu c' = some p → c = c') ∧
    (∀ p, (s.mem.proc p).state = .running → s.lock (.proc p) = none →
      ∃! c, s.cpu c = some p) ∧
    ∀ c p k, s.current c = .dispatch p :: k → (s.mem.proc p).state = .runnable := by
  have hI := inv_of_run h
  refine ⟨fun p c c' hc hc' => hI.cpu_inj hc hc', fun p hp _ => ?_, fun c p k hcur => ?_⟩
  · obtain ⟨c, hr⟩ := hI.placed p hp
    have hc := hI.cpu c p hr
    exact ⟨c, hc, fun c' hc' => hI.cpu_inj hc' hc⟩
  · have hr : s.running c = none := (fits_current hI hcur).1.1
    rw [current_of_idle hr] at hcur
    exact hI.chosen c p k hr hcur

/-- Two harts, and the slot of `initproc`. -/
def slot0 : ProcPtr := ⟨0, by decide⟩

/-- Hart 1 dispatches `initproc`, which releases its lock in `forkret`. -/
theorem process_on_one_hart_init :
    ∃ s : State 2 Unit Unit, Run slot0 id s ∧ (s.mem.proc slot0).state = .running ∧
      s.lock (.proc slot0) = none ∧ ∃! c, s.cpu c = some slot0 := by
  have hrun : ends (exec (machine slot0 id) (initial 2 slot0 fun _ : Unit => false)
      (List.replicate 5 (.step 1 true))) (fun s =>
        (s.mem.proc slot0).state = .running ∧ s.lock (.proc slot0) = none) = true := by
    decide +kernel
  obtain ⟨s, hs, hend⟩ := ends_iff.1 hrun
  simp only [decide_eq_true_eq] at hend
  have hreach : Run slot0 id s :=
    reach_of_exec (.start ⟨_, rfl⟩) (fun _ _ _ => trivial) hs
  exact ⟨s, hreach, hend.1, hend.2, (process_on_one_hart hreach).2.1 _ hend.1 hend.2⟩

/-! ### Locks -/

/-- Each instruction finds its locks as it expects them. -/
theorem step_error [DecidableEq ι] [DecidableEq κ] {c : Fin n} {ok : Bool} {e : Sched.Panic}
    (hI : Inv lk s) (h : step init lk s c ok = some (.error e)) :
    e = .schedRunning ∨ e = .zombieExit := by
  unfold step at h
  split at h
  · cases h
  rename_i i k hcur
  have hheld := held_current hI hcur
  split at h
  · rename_i heff
    cases h
    unfold effect at heff
    split at heff <;> (repeat' split at heff) <;> cases heff
    exact .inr rfl
  · rename_i m ctl is heff
    have hshape := effect_shape (fits_current hI hcur) heff
    cases ctl with
    | stay | enter => cases h
    | acquire l =>
      have hfree : s.lock l ≠ some c := fun hl => hshape.2.1 ((hheld l).1 hl)
      cases hl : s.lock l <;> simp_all [perform]
    | leave p =>
      rw [perform, if_pos ((hheld _).2 ((hshape.2.1 _).2 rfl))] at h
      split at h <;> cases h
      exact .inl rfl
    | back p => simp [perform, (hheld _).2 ((hshape.2.1 _).2 rfl)] at h
    | release l | spawn q => simp [perform, (hheld _).2 hshape.2.1] at h

end Xv6.Proofs.Sched
