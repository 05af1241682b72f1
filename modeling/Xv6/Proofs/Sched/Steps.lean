import Xv6.Proofs.Sched.Dispatch

/-!
# `Xv6.Proofs.Sched.Steps`: what one step of the machine does

A step is an instruction (`Fires`), or new code on top of what a hart runs (`Pushes`). The
invariants about sleepers and about the process tree are proved from these two, and no longer
from `machine`.
-/

set_option autoImplicit false

namespace Xv6.Proofs.Sched

open Xv6.Kernel Xv6.Kernel.Sched Xv6.Lib

variable {n : Nat} {ι κ : Type} {init : ProcPtr} {lk : ι → κ} {s t : State n ι κ}

/-- The process that a hart runs after a control, when it ran `r` before. -/
def runs (r : Option ProcPtr) : Control κ → Option ProcPtr
  | .leave _ => none
  | .enter p => some p
  | _ => r

/-- Hart `c` performs instruction `i`, with `k` behind it. -/
structure Fires [DecidableEq ι] (init : ProcPtr) (lk : ι → κ) (s t : State n ι κ) (c : Fin n)
    (i : Instr ι κ) (k : List (Instr ι κ)) (ok : Bool) (ctl : Control κ)
    (is : List (Instr ι κ)) : Prop where
  current : s.current c = i :: k
  effect : effect init lk s.mem ok i = .ok (t.mem, ctl, is)
  runningSelf : t.running c = runs (s.running c) ctl
  runningOther : ∀ c', c' ≠ c → t.running c' = s.running c'
  codeSelf : ∀ p, s.running c = some p → t.code p = is ++ k
  codeOther : ∀ p, s.running c ≠ some p →
    t.code p = s.code p ∨ ctl = .spawn p ∧ t.code p = forkret p
  loop : ∀ c', t.loop c' = if c' = c ∧ s.running c = none then is ++ k else s.loop c'

/-- Hart `c` puts `k` in the place of the code it runs; the memory keeps all but the number of
calls. -/
structure Pushes (s t : State n ι κ) (c : Fin n) (k : List (Instr ι κ)) : Prop where
  mem : t.mem = s.mem ∨ t.mem = s.mem.call
  running : t.running = s.running
  code : ∀ p, t.code p = if s.running c = some p then k else s.code p
  loop : ∀ c', t.loop c' = if c' = c ∧ s.running c = none then k else s.loop c'

theorem pushes_goto (s : State n ι κ) (c : Fin n) (k : List (Instr ι κ)) :
    Pushes s (s.goto c k) c k where
  mem := .inl (goto_mem _ _ _)
  running := goto_running _ _ _
  code := goto_code s c k
  loop := goto_loop s c k

theorem pushes_call (lk : ι → κ) (s : State n ι κ) (c : Fin n) (p : ProcPtr) (f : Call ι) :
    Pushes s (s.call lk c p f) c (f.code lk s.mem p) := by
  cases f with
  | wakeup ch =>
    have h := pushes_goto s c (Call.code lk s.mem p (.wakeup ch))
    exact ⟨.inr rfl, h.running, h.code, h.loop⟩
  | _ => exact pushes_goto s c _

theorem fires_of_step [DecidableEq ι] [DecidableEq κ] {c : Fin n} {ok : Bool}
    (ht : step init lk s c ok = some (.ok t)) :
    ∃ i k ctl is, Fires init lk s t c i k ok ctl is := by
  unfold step at ht
  split at ht
  · cases ht
  rename_i i k hcur
  split at ht
  · cases ht
  rename_i m ctl is heff
  refine ⟨i, k, ctl, is, ?_⟩
  -- What a step in one thread leaves to show, for the state `u` after its effect on the locks.
  have hgoto : ∀ u : State n ι κ, u.mem = m → u.running = s.running → u.code = s.code →
      u.loop = s.loop → runs (s.running c) ctl = s.running c →
      Fires init lk s (u.goto c (is ++ k)) c i k ok ctl is := by
    intro u hmem hrun hcode hloop hctl
    exact
      { current := hcur
        effect := by rw [goto_mem, hmem, heff]
        runningSelf := by rw [hctl, goto_running, hrun]
        runningOther := fun c' _ => by rw [goto_running, hrun]
        codeSelf := fun p hp => by rw [goto_code, hrun, if_pos hp]
        codeOther := fun p hp => .inl (by rw [goto_code, hrun, if_neg hp, hcode])
        loop := fun c' => by rw [goto_loop, hrun, hloop] }
  -- The same for a step that also changes what the hart runs.
  have hswitch : ∀ r cpu, runs (s.running c) ctl = r →
      Fires init lk s { State.goto { s with mem := m } c (is ++ k) with
        cpu := cpu
        running := Function.update s.running c r } c i k ok ctl is := by
    intro r cpu hr
    exact
      { current := hcur
        effect := by simpa using heff
        runningSelf := by simp [hr]
        runningOther := fun c' hc => by simp [hc]
        codeSelf := fun q hq => by simp [goto_code, hq]
        codeOther := fun q hq => .inl (by simp [goto_code, hq])
        loop := fun c' => by simp [goto_loop] }
  cases ctl with
  | stay =>
    cases ht
    exact hgoto _ rfl rfl rfl rfl rfl
  | acquire l =>
    rw [perform] at ht
    split at ht
    · cases ht
      exact hgoto _ rfl rfl rfl rfl rfl
    · split at ht <;> cases ht
  | release l =>
    rw [perform] at ht
    split at ht
    · cases ht
      exact hgoto _ rfl rfl rfl rfl rfl
    · cases ht
  | leave p =>
    rw [perform] at ht
    split at ht
    · split at ht
      · cases ht
      · cases ht
        exact hswitch none _ rfl
    · cases ht
  | enter p =>
    cases ht
    exact hswitch (some p) _ rfl
  | back p =>
    rw [perform] at ht
    split at ht
    · cases ht
      have h := hgoto (State.drop { s with mem := m } c (.proc p)) rfl rfl rfl rfl rfl
      exact ⟨h.current, h.effect, h.runningSelf, h.runningOther, h.codeSelf, h.codeOther,
        h.loop⟩
    · cases ht
  | spawn q =>
    rw [perform] at ht
    split at ht
    · cases ht
      exact
        { current := hcur
          effect := by simpa [State.drop] using heff
          runningSelf := by simp [State.drop, runs]
          runningOther := fun c' _ => by simp [State.drop]
          codeSelf := fun p hp => by simp [goto_code, State.drop, hp]
          codeOther := fun p hp => by
            by_cases hpq : p = q
            · exact .inr ⟨by rw [hpq], by simp [goto_code, State.drop, hpq ▸ hp, hpq]⟩
            · exact .inl (by simp [goto_code, State.drop, hp, hpq])
          loop := fun c' => by simp [goto_loop, State.drop] }
    · cases ht

/-- The three kinds of steps. -/
theorem machine_cases [DecidableEq ι] [DecidableEq κ] {a : Label n ι} (hI : Inv lk s)
    (ht : machine init lk s a = some (.ok t)) :
    (∃ c ok i k ctl is, a = .step c ok ∧ Fires init lk s t c i k ok ctl is) ∨
    (∃ c p f, a = .call c f ∧ s.running c = some p ∧ s.code p = [] ∧
      (∀ st, f = .exit st → p ≠ init) ∧ Pushes s t c (f.code lk s.mem p)) ∨
    ∃ c i, a = .interrupt c i ∧ Idle lk (s.running c) (s.current c) ∧
      Pushes s t c (waker lk (s.running c) i ++ s.current c) := by
  cases a with
  | step c ok =>
    obtain ⟨i, k, ctl, is, h⟩ := fires_of_step ht
    exact .inl ⟨c, ok, i, k, ctl, is, rfl, h⟩
  | call c f =>
    refine .inr (.inl ?_)
    simp only [machine] at ht
    split at ht
    · cases ht
    rename_i p hr
    split at ht
    · cases ht
    rename_i hcode
    refine ⟨c, p, f, rfl, hr, not_not.1 hcode, ?_⟩
    split at ht
    · split at ht
      · cases ht
      · rename_i hp
        cases ht
        exact ⟨fun _ _ => hp, pushes_call lk s c p _⟩
    · rename_i hf
      cases ht
      exact ⟨fun st he => absurd he (hf st), pushes_call lk s c p f⟩
  | interrupt c i =>
    refine .inr (.inr ⟨c, i, rfl, ?_⟩)
    simp only [machine] at ht
    split at ht
    · rename_i hnest
      cases ht
      have hidle := idle_of_nesting hI hnest
      rw [cpu_of_idle_code hI hidle]
      exact ⟨hidle, pushes_goto s c _⟩
    · cases ht

/-! ### The code after a step -/

namespace Fires

variable [DecidableEq ι] {c : Fin n} {i : Instr ι κ} {k is : List (Instr ι κ)} {ok : Bool}
  {ctl : Control κ}

theorem fits (h : Fires init lk s t c i k ok ctl is) (hI : Inv lk s) :
    Fits lk (s.running c) (i :: k) :=
  fits_current hI h.current

theorem held (h : Fires init lk s t c i k ok ctl is) (hI : Inv lk s) (l : Lock κ) :
    s.lock l = some c ↔ Needs lk (i :: k) l :=
  held_current hI h.current l

theorem code_eq (h : Fires init lk s t c i k ok ctl is) {p : ProcPtr}
    (hr : s.running c = some p) : s.code p = i :: k :=
  code_of_current h.current hr

/-- A new thread is not running. -/
theorem not_spawn (h : Fires init lk s t c i k ok ctl is) (hI : Inv lk s) {c' : Fin n}
    {p : ProcPtr} (hr : s.running c' = some p) : ctl ≠ .spawn p := by
  rintro rfl
  obtain ⟨p', rfl⟩ : ∃ p', i = .forkMem p' p := effect_control h.effect
  have hme : s.running c = some p' := (h.fits hI).1.1
  have hclaim : claimOf (s.code p') = some (p, .made) := by
    rw [h.code_eq hme]
    rfl
  exact hI.not_running_of_claim hclaim c' hr

/-- The code of a process that another hart runs stays. -/
theorem code_running (h : Fires init lk s t c i k ok ctl is) (hI : Inv lk s) {c' : Fin n}
    (hne : c' ≠ c) {p : ProcPtr} (hr : s.running c' = some p) : t.code p = s.code p := by
  rcases h.codeOther p (hI.code_ne hne hr) with hc | ⟨hc, -⟩
  · exact hc
  · exact absurd hc (h.not_spawn hI hr)

theorem current_other (h : Fires init lk s t c i k ok ctl is) (hI : Inv lk s) {c' : Fin n}
    (hne : c' ≠ c) : t.current c' = s.current c' := by
  have hrun := h.runningOther c' hne
  cases hr : s.running c' with
  | none =>
    rw [current_of_idle hr, current_of_idle (by rw [hrun, hr]), h.loop]
    simp [hne]
  | some p =>
    rw [current_of_running hr, current_of_running (by rw [hrun, hr]), h.code_running hI hne hr]

/-- A hart that stays in its thread runs what the instruction left. -/
theorem current_self (h : Fires init lk s t c i k ok ctl is)
    (hstay : runs (s.running c) ctl = s.running c) : t.current c = is ++ k := by
  have hrun := h.runningSelf.trans hstay
  cases hr : s.running c with
  | none =>
    rw [current_of_idle (by rw [hrun, hr]), h.loop]
    simp [hr]
  | some p => rw [current_of_running (by rw [hrun, hr]), h.codeSelf p hr]

end Fires

namespace Pushes

variable {c : Fin n} {k : List (Instr ι κ)}

theorem current_self (h : Pushes s t c k) : t.current c = k := by
  cases hr : s.running c with
  | none =>
    rw [current_of_idle (by rw [h.running, hr]), h.loop]
    simp [hr]
  | some p =>
    rw [current_of_running (by rw [h.running, hr]), h.code]
    simp [hr]

theorem current_other (h : Pushes s t c k) (hI : Inv lk s) {c' : Fin n} (hne : c' ≠ c) :
    t.current c' = s.current c' := by
  cases hr : s.running c' with
  | none =>
    rw [current_of_idle hr, current_of_idle (by rw [h.running, hr]), h.loop]
    simp [hne]
  | some p =>
    rw [current_of_running hr, current_of_running (by rw [h.running, hr]), h.code,
      if_neg (hI.code_ne hne hr)]

theorem proc (h : Pushes s t c k) : t.mem.proc = s.mem.proc := by
  rcases h.mem with hm | hm
  · rw [hm]
  · rw [hm]
    rfl

end Pushes

end Xv6.Proofs.Sched
