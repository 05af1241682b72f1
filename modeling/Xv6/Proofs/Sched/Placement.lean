import Xv6.Proofs.Sched.Control

/-!
# `Xv6.Proofs.Sched.Placement`: where each process runs

`Inv` ties together who holds which lock, which code every thread has left, and which hart
runs which process. A hart holds exactly the locks that its code needs, so two threads never
work on the same process at once, and the lock of a process travels with it through `swtch`:
the code of a process that does not run needs exactly its own lock, and so does the code of a
scheduler that waits for a process to come back.

`fork` makes a slot `RUNNABLE` in a second critical section. Between the two the slot is
protected by its state alone: no other thread touches a `USED` slot (`claim`, `owner`).

Steps that stay in one thread are handled once (`Inv.local`); the two switches, `sched` and
the dispatch, have their own lemmas.
-/

set_option autoImplicit false

namespace Xv6.Proofs.Sched

open Xv6.Kernel Xv6.Kernel.Sched Xv6.Lib

variable {n : Nat} {ι κ : Type}

/-! ### Moving through the code of one thread -/

section Goto

variable (s : State n ι κ) (c : Fin n) (k : List (Instr ι κ))

@[simp] theorem goto_mem : (s.goto c k).mem = s.mem := by
  unfold State.goto
  split <;> rfl

@[simp] theorem goto_lock : (s.goto c k).lock = s.lock := by
  unfold State.goto
  split <;> rfl

@[simp] theorem goto_nesting : (s.goto c k).nesting = s.nesting := by
  unfold State.goto
  split <;> rfl

@[simp] theorem goto_cpu : (s.goto c k).cpu = s.cpu := by
  unfold State.goto
  split <;> rfl

@[simp] theorem goto_running : (s.goto c k).running = s.running := by
  unfold State.goto
  split <;> rfl

theorem goto_code (p : ProcPtr) :
    (s.goto c k).code p = if s.running c = some p then k else s.code p := by
  unfold State.goto
  split
  · rename_i q hq
    rw [hq]
    by_cases h : p = q
    · simp [h]
    · simp [h, Ne.symm h]
  · rename_i hq
    simp [hq]

theorem goto_loop (c' : Fin n) :
    (s.goto c k).loop c' = if c' = c ∧ s.running c = none then k else s.loop c' := by
  unfold State.goto
  split
  · rename_i q hq
    simp [hq]
  · rename_i hq
    by_cases h : c' = c
    · simp [h, hq]
    · simp [h]

end Goto

theorem current_of_running {s : State n ι κ} {c : Fin n} {p : ProcPtr}
    (h : s.running c = some p) : s.current c = s.code p := by
  simp [State.current, h]

theorem current_of_idle {s : State n ι κ} {c : Fin n} (h : s.running c = none) :
    s.current c = s.loop c := by
  simp [State.current, h]

/-! ### The invariant -/

/-- The state of a slot at a stage. -/
def Stage.state : Stage → ProcState
  | .chosen => .runnable
  | .fresh => .unused
  | _ => .used

/-- Locks, code and placement fit together. -/
structure Inv (lk : ι → κ) (s : State n ι κ) : Prop where
  /-- A hart holds the locks that its code needs. -/
  held : ∀ c l, s.lock l = some c ↔ Needs lk (s.current c) l
  fits : ∀ c, Fits lk (s.running c) (s.current c)
  /-- `nesting` counts the locks that a hart holds. -/
  nest : ∀ c, ∃ L : List (Lock κ), L.Nodup ∧ (∀ l, s.lock l = some c ↔ l ∈ L) ∧
    L.length = s.nesting c
  cpu : ∀ c p, s.running c = some p → s.cpu c = some p
  /-- While `c->proc` is set, the scheduler of `c` is behind the switch to it. -/
  away : ∀ c p, s.cpu c = some p → ∃ ps, s.loop c = [.dispatched p, .schedLoop ps]
  single : ∀ c c' p, s.running c = some p → s.cpu c' = some p → c = c'
  /-- A process that runs is `RUNNING`, or about to leave for the last time. -/
  onHart : ∀ c p, s.running c = some p → (s.mem.proc p).state = .running ∨
    (s.mem.proc p).state = .zombie ∧ s.code p = [.exitSched p, .zombieExit]
  placed : ∀ p, (s.mem.proc p).state = .running → ∃ c, s.running c = some p
  /-- The code of a process that waits to be scheduled starts under its lock. -/
  parked : ∀ p, (∀ c, s.running c ≠ some p) →
    ((s.mem.proc p).state = .runnable ∨ (s.mem.proc p).state = .sleeping) →
    Fits lk (some p) (s.code p) ∧ ∀ l, Needs lk (s.code p) l ↔ l = .proc p
  chosen : ∀ c p k, s.running c = none → s.loop c = .dispatch p :: k →
    (s.mem.proc p).state = .runnable
  claim : ∀ p q st, claimOf (s.code p) = some (q, st) →
    (s.mem.proc q).state = st.state ∧ ∃ c, s.running c = some p
  owner : ∀ p p' q st st', claimOf (s.code p) = some (q, st) →
    claimOf (s.code p') = some (q, st') → p = p'
  /-- The thread of a spawned child waits in `forkret`. -/
  born : ∀ p q st, claimOf (s.code p) = some (q, st) → st = .spawned ∨ st = .ready →
    s.code q = forkret q

namespace Inv

variable {lk : ι → κ} {s : State n ι κ}

theorem running_inj (h : Inv lk s) {c c' : Fin n} {p : ProcPtr} (hc : s.running c = some p)
    (hc' : s.running c' = some p) : c = c' :=
  h.single c c' p hc (h.cpu c' p hc')

/-- A hart that waits for the scheduler to clear `c->proc` holds the lock of the process. -/
theorem held_away (h : Inv lk s) {c : Fin n} {p : ProcPtr} (hc : s.cpu c = some p)
    (hr : s.running c = none) : s.lock (.proc p) = some c := by
  obtain ⟨ps, hloop⟩ := h.away c p hc
  rw [h.held, current_of_idle hr, hloop]
  exact .inr rfl

/-- A scheduler holds the lock of the process it is about to dispatch. -/
theorem held_choice (h : Inv lk s) {c : Fin n} {p : ProcPtr} {k : List (Instr ι κ)}
    (hr : s.running c = none) (hloop : s.loop c = .dispatch p :: k) :
    s.lock (.proc p) = some c := by
  have hfits := h.fits c
  rw [current_of_idle hr, hloop] at hfits
  rw [h.held, current_of_idle hr, hloop]
  exact needs_of_claim hfits rfl (by simp)

/-- A slot that `fork` claims does not run. -/
theorem not_running_of_claim (h : Inv lk s) {p q : ProcPtr} {st : Stage}
    (hc : claimOf (s.code p) = some (q, st)) (c : Fin n) : s.running c ≠ some q := by
  intro hr
  have hstate := (h.claim p q st hc).1
  rcases h.onHart c q hr with hq | ⟨hq, -⟩
  · rw [hq] at hstate
    cases st <;> cases hstate
  · rw [hq] at hstate
    cases st <;> cases hstate

/-- Only a scheduler chooses. -/
theorem not_chosen (h : Inv lk s) (p q : ProcPtr) : claimOf (s.code p) ≠ some (q, .chosen) := by
  intro hc
  obtain ⟨-, c, hr⟩ := h.claim p q _ hc
  have hfits := h.fits c
  rw [current_of_running hr] at hfits
  obtain ⟨ps, hcode⟩ := eq_of_chosen hfits hc
  rw [hcode, hr] at hfits
  cases hfits.1.1

/-- The code of another hart is not touched by a step of `c` in its thread. -/
theorem code_ne (h : Inv lk s) {c c' : Fin n} (hne : c' ≠ c) {p : ProcPtr}
    (hr : s.running c' = some p) : s.running c ≠ some p :=
  fun hc => hne (h.running_inj hr hc)

end Inv

/-! ### Steps in one thread -/

/-- Hart `c` stays in its thread, which goes on with `k`. -/
structure Local (lk : ι → κ) (s t : State n ι κ) (c : Fin n) (k : List (Instr ι κ)) :
    Prop where
  /-- It is not the last `sched` of a process. -/
  stays : ∀ p, s.current c ≠ [.exitSched p, .zombieExit]
  running : t.running = s.running
  cpu : ∀ c', c' ≠ c ∨ s.running c ≠ none → t.cpu c' = s.cpu c'
  cpuIdle : s.running c = none → t.cpu c = none
  code : ∀ p, t.code p = if s.running c = some p then k else s.code p
  loop : ∀ c', t.loop c' = if c' = c ∧ s.running c = none then k else s.loop c'
  fits : Fits lk (s.running c) k
  held : ∀ l, t.lock l = some c ↔ Needs lk k l
  other : ∀ c', c' ≠ c → ∀ l, t.lock l = some c' ↔ s.lock l = some c'
  nest : ∀ c', ∃ L : List (Lock κ), L.Nodup ∧ (∀ l, t.lock l = some c' ↔ l ∈ L) ∧
    L.length = t.nesting c'

/-- How the state of process `q` changes when hart `c` stays in its thread. -/
inductive Turn (s t : State n ι κ) (c : Fin n) (k : List (Instr ι κ)) (q : ProcPtr) : Prop
  | wake : (s.mem.proc q).state = .sleeping → (t.mem.proc q).state = .runnable → Turn s t c k q
  | used (p : ProcPtr) : s.running c = some p → claimOf (s.code p) = some (q, .fresh) →
      (t.mem.proc q).state = .used → Turn s t c k q
  | fail (p : ProcPtr) : s.running c = some p → claimOf (s.code p) = some (q, .made) →
      (t.mem.proc q).state = .unused → Turn s t c k q
  | publish (p : ProcPtr) : s.running c = some p → claimOf (s.code p) = some (q, .ready) →
      (t.mem.proc q).state = .runnable → Turn s t c k q
  | zombie : s.running c = some q → (t.mem.proc q).state = .zombie →
      k = [.exitSched q, .zombieExit] → Turn s t c k q
  | reap : (s.mem.proc q).state = .zombie → (t.mem.proc q).state = .unused → Turn s t c k q

/-- What happens to the states and the claims when hart `c` stays in its thread. -/
structure Turns (s t : State n ι κ) (c : Fin n) (k : List (Instr ι κ)) : Prop where
  state : ∀ q, (t.mem.proc q).state = (s.mem.proc q).state ∨
    s.lock (.proc q) = some c ∧ Turn s t c k q
  claim : ∀ p, s.running c = some p → ∀ q st, claimOf k = some (q, st) →
    (t.mem.proc q).state = st.state ∧
    ((∃ st', claimOf (s.code p) = some (q, st')) ∨
      ∀ p' st', claimOf (s.code p') ≠ some (q, st')) ∧
    (st = .spawned ∨ st = .ready → s.code q = forkret q)
  chosen : s.running c = none → ∀ p k', k = .dispatch p :: k' →
    (t.mem.proc p).state = .runnable

section LocalSteps

variable {lk : ι → κ} {s t : State n ι κ} {c : Fin n} {k : List (Instr ι κ)}

theorem Local.current_self (hl : Local lk s t c k) : t.current c = k := by
  cases hr : s.running c with
  | none => rw [current_of_idle (by rw [hl.running, hr]), hl.loop]; simp [hr]
  | some p => rw [current_of_running (by rw [hl.running, hr]), hl.code]; simp [hr]

theorem Local.current_ne (hl : Local lk s t c k) (hI : Inv lk s) {c' : Fin n} (hne : c' ≠ c) :
    t.current c' = s.current c' := by
  cases hr : s.running c' with
  | none =>
    rw [current_of_idle (by rw [hl.running, hr]), current_of_idle hr, hl.loop]
    simp [hne]
  | some p =>
    rw [current_of_running (by rw [hl.running, hr]), current_of_running hr, hl.code,
      if_neg (hI.code_ne hne hr)]

/-- No change of state in one thread leads to `RUNNING`. -/
theorem Turns.running_of (ht : Turns s t c k) {q : ProcPtr}
    (hq : (t.mem.proc q).state = .running) : (s.mem.proc q).state = .running := by
  rcases ht.state q with h | ⟨-, h⟩
  · rw [← h, hq]
  · cases h <;> simp_all

/-- The slot that another thread claims keeps its state. -/
theorem Turns.state_of_claim (hI : Inv lk s) (ht : Turns s t c k) {p q : ProcPtr} {st : Stage}
    (hc : claimOf (s.code p) = some (q, st)) (hp : s.running c ≠ some p) :
    (t.mem.proc q).state = (s.mem.proc q).state := by
  have hstate := (hI.claim p q st hc).1
  rcases ht.state q with h | ⟨-, h⟩
  · exact h
  · cases h with
    | wake h _ =>
      rw [h] at hstate
      cases st <;> cases hstate
    | used p' hp' hc' _ => exact absurd (hI.owner p p' q _ _ hc hc' ▸ hp') hp
    | fail p' hp' hc' _ => exact absurd (hI.owner p p' q _ _ hc hc' ▸ hp') hp
    | publish p' hp' hc' _ => exact absurd (hI.owner p p' q _ _ hc hc' ▸ hp') hp
    | zombie h _ _ => exact absurd h (hI.not_running_of_claim hc c)
    | reap h _ =>
      rw [h] at hstate
      cases st <;> cases hstate

theorem Turns.onHart (hI : Inv lk s) (hl : Local lk s t c k) (ht : Turns s t c k) {c' : Fin n}
    {p : ProcPtr} (hr : s.running c' = some p) : (t.mem.proc p).state = .running ∨
      (t.mem.proc p).state = .zombie ∧ t.code p = [.exitSched p, .zombieExit] := by
  have hstate := hI.onHart c' p hr
  -- A zombie on a hart holds its lock and is at its last `sched`, so `c` does not run it.
  have hlast : (s.mem.proc p).state = .zombie → s.lock (.proc p) ≠ some c := by
    intro hz hlock
    have hcode := (hstate.resolve_left (by simp [hz])).2
    have hcur : s.current c' = [.exitSched p, .zombieExit] := by
      rw [current_of_running hr, hcode]
    have hlock' : s.lock (.proc p) = some c' := by
      rw [hI.held, hcur]
      rfl
    have hcc : c = c' := by simpa [hlock] using hlock'
    exact hl.stays p (hcc ▸ hcur)
  rcases ht.state p with h | ⟨hlock, h⟩
  · rw [h]
    refine hstate.imp_right fun hz => ⟨hz.1, ?_⟩
    have hc : s.running c ≠ some p := by
      intro hc
      exact hl.stays p (by rw [current_of_running hc, hz.2])
    rw [hl.code, if_neg hc]
    exact hz.2
  · cases h with
    | wake h _ => simp [h] at hstate
    | used p' _ hc' _ => exact absurd hr (hI.not_running_of_claim hc' c')
    | fail p' _ hc' _ => exact absurd hr (hI.not_running_of_claim hc' c')
    | publish p' _ hc' _ => exact absurd hr (hI.not_running_of_claim hc' c')
    | zombie hc hz hk =>
      refine .inr ⟨hz, ?_⟩
      rw [hl.code, if_pos hc, hk]
    | reap hz _ => exact absurd hlock (hlast hz)

theorem fits_forkret (lk : ι → κ) (q : ProcPtr) :
    Fits lk (some q) (forkret q) ∧ ∀ l, Needs lk (forkret q) l ↔ l = .proc q := by
  simp [forkret, Fits, Before, Needs, Gives]

theorem Turns.parked (hI : Inv lk s) (hl : Local lk s t c k) (ht : Turns s t c k) {p : ProcPtr}
    (hr : ∀ c', s.running c' ≠ some p)
    (hp : (t.mem.proc p).state = .runnable ∨ (t.mem.proc p).state = .sleeping) :
    Fits lk (some p) (t.code p) ∧ ∀ l, Needs lk (t.code p) l ↔ l = .proc p := by
  rw [hl.code, if_neg (hr c)]
  rcases ht.state p with h | ⟨-, h⟩
  · rw [h] at hp
    exact hI.parked p hr hp
  · cases h with
    | wake h _ => exact hI.parked p hr (.inr h)
    | used p' _ _ h => simp [h] at hp
    | fail p' _ _ h => simp [h] at hp
    | publish p' _ hc _ =>
      rw [hI.born p' p _ hc (.inr rfl)]
      exact fits_forkret lk p
    | zombie h _ _ => exact absurd h (hr c)
    | reap _ h => simp [h] at hp

theorem Turns.chosen_of (hI : Inv lk s) (hl : Local lk s t c k) (ht : Turns s t c k)
    {c' : Fin n} {p : ProcPtr} {k' : List (Instr ι κ)} (hr : s.running c' = none)
    (hloop : t.loop c' = .dispatch p :: k') : (t.mem.proc p).state = .runnable := by
  rw [hl.loop] at hloop
  split at hloop
  · rename_i hc
    exact ht.chosen hc.2 p k' hloop
  · rename_i hc
    have hne : c' ≠ c := fun e => hc ⟨e, e ▸ hr⟩
    have hlock := hI.held_choice hr hloop
    rcases ht.state p with h | ⟨h, -⟩
    · rw [h]
      exact hI.chosen c' p k' hr hloop
    · exact absurd (by simpa [hlock] using h) hne

theorem Turns.claim_of (hI : Inv lk s) (hl : Local lk s t c k) (ht : Turns s t c k)
    {p q : ProcPtr} {st : Stage} (hc : claimOf (t.code p) = some (q, st)) :
    (t.mem.proc q).state = st.state ∧ (∃ c, t.running c = some p) ∧
      ((∃ st', claimOf (s.code p) = some (q, st')) ∨
        s.running c = some p ∧ ∀ p' st', claimOf (s.code p') ≠ some (q, st')) ∧
      (st = .spawned ∨ st = .ready → t.code q = forkret q) := by
  rw [hl.code] at hc
  split at hc
  · rename_i hr
    obtain ⟨hstate, howner, hborn⟩ := ht.claim p hr q st hc
    have hq : s.running c ≠ some q := by
      intro hq
      have hrun := Turns.onHart hI hl ht hq
      rw [hstate] at hrun
      cases st <;> simp [Stage.state] at hrun
    refine ⟨hstate, ⟨c, by rw [hl.running, hr]⟩, howner.imp_right fun h => ⟨hr, h⟩, fun hst => ?_⟩
    rw [hl.code, if_neg hq]
    exact hborn hst
  · rename_i hr
    obtain ⟨hstate, c', hc'⟩ := hI.claim p q st hc
    refine ⟨?_, ⟨c', by rw [hl.running, hc']⟩, .inl ⟨st, hc⟩, fun hst => ?_⟩
    · rw [ht.state_of_claim hI hc hr, hstate]
    · rw [hl.code, if_neg (hI.not_running_of_claim hc c)]
      exact hI.born p q st hc hst

/-- A step in one thread keeps the invariant. -/
theorem Inv.local (hI : Inv lk s) (hl : Local lk s t c k) (ht : Turns s t c k) : Inv lk t where
  held c' l := by
    by_cases hc : c' = c
    · rw [hc, hl.current_self]
      exact hl.held l
    · rw [hl.other c' hc, hl.current_ne hI hc]
      exact hI.held c' l
  fits c' := by
    rw [hl.running]
    by_cases hc : c' = c
    · rw [hc, hl.current_self]
      exact hl.fits
    · rw [hl.current_ne hI hc]
      exact hI.fits c'
  nest := hl.nest
  cpu c' p hr := by
    rw [hl.running] at hr
    rw [hl.cpu c' (by by_cases hc : c' = c <;> simp_all)]
    exact hI.cpu c' p hr
  away c' p hc' := by
    by_cases hc : c' = c ∧ s.running c = none
    · rw [hc.1, hl.cpuIdle hc.2] at hc'
      cases hc'
    · rw [hl.loop, if_neg hc]
      rw [hl.cpu c' (by tauto)] at hc'
      exact hI.away c' p hc'
  single c₁ c₂ p hr hc := by
    rw [hl.running] at hr
    by_cases hc₂ : c₂ = c ∧ s.running c = none
    · rw [hc₂.1, hl.cpuIdle hc₂.2] at hc
      cases hc
    · rw [hl.cpu c₂ (by tauto)] at hc
      exact hI.single c₁ c₂ p hr hc
  onHart c' p hr := ht.onHart hI hl (by rw [← hl.running]; exact hr)
  placed p hp := by
    rw [hl.running]
    exact hI.placed p (ht.running_of hp)
  parked p hr hp := ht.parked hI hl (by rw [← hl.running]; exact hr) hp
  chosen c' p k' hr hloop := ht.chosen_of hI hl (by rw [← hl.running]; exact hr) hloop
  claim p q st hc := by
    obtain ⟨hstate, hrun, -⟩ := ht.claim_of hI hl hc
    exact ⟨hstate, hrun⟩
  owner p p' q st st' hc hc' := by
    obtain ⟨-, -, h, -⟩ := ht.claim_of hI hl hc
    obtain ⟨-, -, h', -⟩ := ht.claim_of hI hl hc'
    rcases h with ⟨st₁, h⟩ | ⟨hr, h⟩
    · rcases h' with ⟨st₂, h'⟩ | ⟨-, h'⟩
      · exact hI.owner p p' q _ _ h h'
      · exact absurd h (h' p st₁)
    · rcases h' with ⟨st₂, h'⟩ | ⟨hr', -⟩
      · exact absurd h' (h p' st₂)
      · rw [hr] at hr'
        exact Option.some.inj hr'
  born p q st hc hst := by
    obtain ⟨-, -, -, h⟩ := ht.claim_of hI hl hc
    exact h hst

end LocalSteps

/-! ### The instructions that stay in one thread -/

section Effects

variable {lk : ι → κ} {s : State n ι κ} {c : Fin n} {i : Instr ι κ} {k : List (Instr ι κ)}

/-- The thread of a hart that runs a process has the code of the process. -/
theorem code_of_current {p : ProcPtr} (hcur : s.current c = k) (hr : s.running c = some p) :
    s.code p = k := by
  rw [← current_of_running hr, hcur]

theorem fits_current (hI : Inv lk s) (hcur : s.current c = k) : Fits lk (s.running c) k :=
  hcur ▸ hI.fits c

theorem held_current (hI : Inv lk s) (hcur : s.current c = k) (l : Lock κ) :
    s.lock l = some c ↔ Needs lk k l := by
  rw [hI.held, hcur]

/-- While a scheduler thread is at any other instruction, `c->proc` is null. -/
theorem cpu_of_idle (hI : Inv lk s) (hcur : s.current c = k) (hr : s.running c = none)
    (hk : ∀ p ps, k ≠ [.dispatched p, .schedLoop ps]) : s.cpu c = none := by
  cases hcpu : s.cpu c with
  | none => rfl
  | some p =>
    obtain ⟨ps, hloop⟩ := hI.away c p hcpu
    rw [current_of_idle hr, hloop] at hcur
    exact absurd hcur.symm (hk p ps)

variable [DecidableEq κ]

theorem nest_take (hI : Inv lk s) {l : Lock κ} (hl : s.lock l = none) (c' : Fin n) :
    ∃ L : List (Lock κ), L.Nodup ∧ (∀ a, (s.take c l).lock a = some c' ↔ a ∈ L) ∧
      L.length = (s.take c l).nesting c' := by
  obtain ⟨L, hnodup, hmem, hlen⟩ := hI.nest c'
  by_cases hc : c' = c
  · subst hc
    have hlL : l ∉ L := by
      rw [← hmem, hl]
      simp
    refine ⟨l :: L, List.nodup_cons.2 ⟨hlL, hnodup⟩, fun a => ?_, by simp [State.take, hlen]⟩
    by_cases ha : a = l
    · simp [State.take, ha]
    · simp [State.take, ha, hmem]
  · refine ⟨L, hnodup, fun a => ?_, by simp [State.take, hc, hlen]⟩
    rw [← hmem]
    by_cases ha : a = l
    · simp [State.take, ha, hl, Ne.symm hc]
    · simp [State.take, ha]

theorem nest_drop (hI : Inv lk s) {l : Lock κ} (hl : s.lock l = some c) (c' : Fin n) :
    ∃ L : List (Lock κ), L.Nodup ∧ (∀ a, (s.drop c l).lock a = some c' ↔ a ∈ L) ∧
      L.length = (s.drop c l).nesting c' := by
  obtain ⟨L, hnodup, hmem, hlen⟩ := hI.nest c'
  by_cases hc : c' = c
  · subst hc
    have hlL : l ∈ L := (hmem l).1 hl
    refine ⟨L.erase l, hnodup.erase l, fun a => ?_, ?_⟩
    · rw [hnodup.mem_erase_iff, ← hmem]
      by_cases ha : a = l
      · simp [State.drop, ha]
      · simp [State.drop, ha]
    · simp [State.drop, List.length_erase_of_mem hlL, hlen]
  · refine ⟨L, hnodup, fun a => ?_, by simp [State.drop, hc, hlen]⟩
    rw [← hmem]
    by_cases ha : a = l
    · simp [State.drop, ha, hl, Ne.symm hc]
    · simp [State.drop, ha]

variable [DecidableEq ι] {init : ProcPtr} {m : Shared ι} {ok : Bool} {is : List (Instr ι κ)}
  {ctl : Control κ}

omit [DecidableEq ι] in
/-- `wake` changes the state only from `SLEEPING` to `RUNNABLE`. -/
theorem state_wake (x : Proc ι) :
    x.wake.state = x.state ∨ x.state = .sleeping ∧ x.wake.state = .runnable := by
  unfold Proc.wake
  split
  · rename_i h
    exact .inr ⟨h, rfl⟩
  · exact .inl rfl

omit [DecidableEq κ] in
/-- A change of one process by an instruction that does not switch. -/
theorem turn_of_move (hI : Inv lk s) (hcur : s.current c = i :: k)
    (h : effect init lk s.mem ok i = .ok (m, ctl, is))
    (hstay : (∀ p, ctl ≠ .leave p) ∧ ∀ p, ctl ≠ .enter p) {t : State n ι κ} {q : ProcPtr}
    (hmove : Move init s.mem ok q i (t.mem.proc q)) :
    (t.mem.proc q).state = (s.mem.proc q).state ∨
      s.lock (.proc q) = some c ∧ Turn s t c (is ++ k) q := by
  have hfits := fits_current hI hcur
  have hlock : (t.mem.proc q).state = (s.mem.proc q).state ∨ s.lock (.proc q) = some c := by
    rcases move_locked hfits hmove with hneeds | ⟨-, x, hx⟩
    · exact .inr ((held_current hI hcur _).2 hneeds)
    · rw [hx]
      exact .inl rfl
  have hturn : (t.mem.proc q).state = (s.mem.proc q).state ∨ Turn s t c (is ++ k) q := by
    -- The thread of the hart has the code that the instruction stands in.
    have hcode : ∀ p, s.running c = some p → claimOf (s.code p) = claimOf (i :: k) :=
      fun p hr => by rw [code_of_current hcur hr]
    obtain ⟨hb, -⟩ := hfits
    generalize hx : t.mem.proc q = x at hmove
    cases hmove with
    | yield =>
      cases h
      exact absurd rfl (hstay.1 q)
    | sleep ch =>
      cases h
      exact absurd rfl (hstay.1 q)
    | dispatch =>
      cases h
      exact absurd rfl (hstay.2 q)
    | woken => exact .inl rfl
    | setParent p => exact .inl rfl
    | reparent p cs hparent => exact .inl rfl
    | wake ch m hch =>
      exact (state_wake _).imp_right fun hw => .wake hw.1 (by rw [hx, hw.2])
    | kill pid qs =>
      exact (state_wake _).imp_right fun hw => .wake hw.1 (by rw [hx, hw.2])
    | allocPid p => exact .inr (.used p hb.1 (hcode p hb.1) (by rw [hx]))
    | forkFail p hok => exact .inr (.fail p hb.1 (hcode p hb.1) (by rw [hx]; rfl))
    | publish =>
      obtain ⟨p, hp⟩ := Option.ne_none_iff_exists'.1 hb.1
      exact .inr (.publish p hp (hcode p hp) (by rw [hx]))
    | zombie status =>
      cases h
      exact .inr (.zombie hb.1 (by rw [hx]) hb.2)
    | reap p cs hzombie hok => exact .inr (.reap hzombie (by rw [hx]; rfl))
  rcases hlock with hsame | hlock
  · exact .inl hsame
  · exact hturn.imp_right fun hturn => ⟨hlock, hturn⟩

omit [DecidableEq κ] [DecidableEq ι] in
/-- A slot found `UNUSED` under its lock is claimed by no thread. -/
theorem unclaimed_of_unused (hI : Inv lk s) (hcur : s.current c = k) {q : ProcPtr}
    (hk : claimOf k = none) (hlock : s.lock (.proc q) = some c)
    (hunused : (s.mem.proc q).state = .unused) (p : ProcPtr) (st : Stage) :
    claimOf (s.code p) ≠ some (q, st) := by
  intro hc
  obtain ⟨hstate, c', hr⟩ := hI.claim p q st hc
  rw [hunused] at hstate
  cases st with
  | fresh =>
    -- The other claim is under the lock too, so it is a claim of the same hart.
    have hneeds := needs_of_claim (fits_current hI (current_of_running hr)) hc (by simp)
    have hlock' := (held_current hI (current_of_running hr) _).2 hneeds
    obtain rfl : c = c' := by simpa [hlock] using hlock'
    rw [code_of_current hcur hr, hk] at hc
    cases hc
  | _ => cases hstate

omit [DecidableEq κ] [DecidableEq ι] in
/-- The instructions that `fork` runs beside its own do not change the state of its slot. -/
theorem state_of_claim_behind (hI : Inv lk s) (hcur : s.current c = i :: k) {p q : ProcPtr}
    {st : Stage} (hr : s.running c = some p) (hi : claim i = none)
    (hc : claimOf (i :: k) = some (q, st)) {x : Proc ι} (hmove : Move init s.mem ok q i x) :
    x.state = (s.mem.proc q).state := by
  have hcode : claimOf (s.code p) = some (q, st) := by rw [code_of_current hcur hr, hc]
  have hstate := (hI.claim p q st hcode).1
  have hrun := hI.not_running_of_claim hcode c
  have hb := (fits_current hI hcur).1
  have hwake : ∀ y : Proc ι, y.state = (s.mem.proc q).state → y.wake.state = y.state := by
    intro y hy
    rcases state_wake y with h | ⟨h, -⟩
    · exact h
    · rw [← hy, h] at hstate
      cases st <;> cases hstate
  cases hmove with
  | yield => exact absurd hb.1 hrun
  | sleep ch => exact absurd hb.1 hrun
  | woken => rfl
  | wake ch m hch => exact hwake _ rfl
  | kill pid qs => exact hwake { s.mem.proc q with killed := true } rfl
  | allocPid p => cases hi
  | forkFail p hok => cases hi
  | setParent p => rfl
  | publish => cases hi
  | reparent p cs hparent => rfl
  | zombie status => exact absurd hb.1 hrun
  | reap p cs hzombie hok =>
    rw [hzombie] at hstate
    cases st <;> cases hstate
  | dispatch => cases hi

omit [DecidableEq κ] in
/-- The slot that `fork` claims after an instruction that does not switch. -/
theorem claim_of_effect (hI : Inv lk s) (hcur : s.current c = i :: k)
    (h : effect init lk s.mem ok i = .ok (m, ctl, is))
    (hspawn : ∀ q, ctl = .spawn q → s.code q = forkret q) {p q : ProcPtr} {st : Stage}
    (hr : s.running c = some p) (hc : claimOf (is ++ k) = some (q, st)) :
    (m.proc q).state = st.state ∧
    ((∃ st', claimOf (s.code p) = some (q, st')) ∨
      ∀ p' st', claimOf (s.code p') ≠ some (q, st')) ∧
    (st = .spawned ∨ st = .ready → s.code q = forkret q) := by
  have hfits := fits_current hI hcur
  have hcode := code_of_current hcur hr
  have hold : ∀ st', claimOf (i :: k) = some (q, st') → claimOf (s.code p) = some (q, st') :=
    fun st' hc' => by rw [hcode, hc']
  rcases effect_claim hfits h hc with ⟨hi, hc'⟩ | ⟨ps, rfl, -, rfl⟩ |
    ⟨p', qs, rfl, hunused, rfl⟩ | ⟨p', rfl, rfl⟩ | ⟨p', rfl, rfl, rfl⟩ | ⟨p', rfl, rfl⟩
  · refine ⟨?_, .inl ⟨st, hold st hc'⟩, hI.born p q st (hold st hc')⟩
    rw [← (hI.claim p q st (hold st hc')).1]
    rcases effect_move h q with hsame | hmove
    · rw [hsame]
    · exact state_of_claim_behind hI hcur hr hi hc' hmove
  · -- A process thread has no instruction of the scheduler.
    exact absurd hfits.1.1 (by simp [hr])
  · have hk : k = [] := hfits.1.2
    have hlock : s.lock (.proc q) = some c := (held_current hI hcur _).2 (.inr rfl)
    rcases effect_move h q with hsame | hmove
    · rw [hsame]
      exact ⟨hunused, .inr (unclaimed_of_unused hI hcur (by rw [hk]; rfl) hlock hunused), by simp⟩
    · cases hmove
  · cases h
    exact ⟨by simp [Stage.state], .inl ⟨.fresh, hold _ rfl⟩, by simp⟩
  · have hmade := hold .made rfl
    have hm : m = s.mem := by
      rw [effect] at h
      split at h
      · cases h
        rfl
      · cases h
    rw [hm]
    exact ⟨(hI.claim p q _ hmade).1, .inl ⟨_, hmade⟩, fun _ => hspawn q rfl⟩
  · cases h
    have hspawned := hold .spawned rfl
    exact ⟨by simpa [Stage.state] using (hI.claim p q _ hspawned).1, .inl ⟨_, hspawned⟩,
      fun _ => hI.born p q _ hspawned (.inl rfl)⟩

omit [DecidableEq κ] in
/-- The states and the claims after an instruction that does not switch. -/
theorem turns_of_effect (hI : Inv lk s) (hcur : s.current c = i :: k)
    (h : effect init lk s.mem ok i = .ok (m, ctl, is))
    (hstay : (∀ p, ctl ≠ .leave p) ∧ ∀ p, ctl ≠ .enter p)
    (hspawn : ∀ q, ctl = .spawn q → s.code q = forkret q) {t : State n ι κ} (ht : t.mem = m) :
    Turns s t c (is ++ k) := by
  subst ht
  have hfits := fits_current hI hcur
  refine ⟨?_, fun p hr q st hc => claim_of_effect hI hcur h hspawn hr hc, ?_⟩
  · intro q
    rcases effect_move h q with hsame | hmove
    · rw [hsame]
      exact .inl rfl
    · exact turn_of_move hI hcur h hstay hmove
  · intro hr p k' hk
    -- The scheduler has just found the process `RUNNABLE`.
    have hc : claimOf (is ++ k) = some (p, .chosen) := by
      rw [hk]
      rfl
    rcases effect_claim hfits h hc with ⟨hi, hc'⟩ | ⟨ps, rfl, hrunnable, -⟩ |
      ⟨p', qs, rfl, -, hst⟩ | ⟨p', rfl, hst⟩ | ⟨p', rfl, -, hst⟩ | ⟨p', rfl, hst⟩
    · obtain ⟨ps, heq⟩ := eq_of_chosen hfits hc'
      rw [(List.cons.inj heq).1] at hi
      cases hi
    · rcases effect_move h p with hsame | hmove
      · rw [hsame, hrunnable]
      · cases hmove
    all_goals cases hst

omit [DecidableEq κ] in
theorem stays_of_effect (hcur : s.current c = i :: k)
    (h : effect init lk s.mem ok i = .ok (m, ctl, is)) (hstay : ∀ p, ctl ≠ .leave p)
    (p : ProcPtr) : s.current c ≠ [.exitSched p, .zombieExit] := by
  rw [hcur]
  intro he
  cases he
  cases h
  exact hstay p rfl

omit [DecidableEq κ] in
theorem cpu_of_effect (hI : Inv lk s) (hcur : s.current c = i :: k)
    (h : effect init lk s.mem ok i = .ok (m, ctl, is)) (hback : ∀ p, ctl ≠ .back p)
    (hr : s.running c = none) : s.cpu c = none := by
  refine cpu_of_idle hI hcur hr fun p ps he => ?_
  cases he
  cases h
  exact hback p rfl

omit [DecidableEq κ] [DecidableEq ι] in
/-- What is left to show of a step that moves on in the code of one thread. -/
theorem local_goto {t : State n ι κ} {k' : List (Instr ι κ)}
    (hstays : ∀ p, s.current c ≠ [.exitSched p, .zombieExit])
    (hcpu : s.running c = none → s.cpu c = none)
    (hsame : t.running = s.running ∧ t.cpu = s.cpu ∧ t.code = s.code ∧ t.loop = s.loop)
    (hfits : Fits lk (s.running c) k') (hheld : ∀ l, t.lock l = some c ↔ Needs lk k' l)
    (hother : ∀ c', c' ≠ c → ∀ l, t.lock l = some c' ↔ s.lock l = some c')
    (hnest : ∀ c', ∃ L : List (Lock κ), L.Nodup ∧ (∀ l, t.lock l = some c' ↔ l ∈ L) ∧
      L.length = t.nesting c') :
    Local lk s (t.goto c k') c k' := by
  obtain ⟨hrun, hcpu', hcode, hloop⟩ := hsame
  exact
    { stays := hstays
      running := by rw [goto_running, hrun]
      cpu := fun c' _ => by rw [goto_cpu, hcpu']
      cpuIdle := fun hr => by rw [goto_cpu, hcpu', hcpu hr]
      code := fun p => by rw [goto_code, hrun, hcode]
      loop := fun c' => by rw [goto_loop, hrun, hloop]
      fits := hfits
      held := by simpa using hheld
      other := by simpa using hother
      nest := by simpa using hnest }

omit [DecidableEq ι] in
theorem take_other {l : Lock κ} (hl : s.lock l = none) {c' : Fin n} (hc : c' ≠ c)
    (a : Lock κ) : (s.take c l).lock a = some c' ↔ s.lock a = some c' := by
  by_cases ha : a = l
  · simp [State.take, ha, hl, Ne.symm hc]
  · simp [State.take, ha]

omit [DecidableEq ι] in
theorem drop_other {l : Lock κ} (hl : s.lock l = some c) {c' : Fin n} (hc : c' ≠ c)
    (a : Lock κ) : (s.drop c l).lock a = some c' ↔ s.lock a = some c' := by
  by_cases ha : a = l
  · simp [State.drop, ha, hl, Ne.symm hc]
  · simp [State.drop, ha]

omit [DecidableEq ι] in
theorem take_self {l : Lock κ} (a : Lock κ) :
    (s.take c l).lock a = some c ↔ s.lock a = some c ∨ a = l := by
  by_cases ha : a = l
  · simp [State.take, ha]
  · simp [State.take, ha]

omit [DecidableEq ι] in
theorem drop_self {l : Lock κ} (a : Lock κ) :
    (s.drop c l).lock a = some c ↔ s.lock a = some c ∧ a ≠ l := by
  by_cases ha : a = l
  · simp [State.drop, ha]
  · simp [State.drop, ha]

/-- A step that stays in one thread, takes or drops a lock, or ends a dispatch. -/
theorem inv_of_perform {t : State n ι κ} (hI : Inv lk s) (hcur : s.current c = i :: k)
    (h : effect init lk s.mem ok i = .ok (m, ctl, is))
    (hstay : (∀ p, ctl ≠ .leave p) ∧ ∀ p, ctl ≠ .enter p) (hspawn : ∀ q, ctl ≠ .spawn q)
    (ht : perform { s with mem := m } c (is ++ k) ctl = some (.ok t)) : Inv lk t := by
  have hshape := effect_shape (fits_current hI hcur) h
  have hheld := held_current hI hcur
  have hstays := stays_of_effect hcur h hstay.1
  have hturns : ∀ {t : State n ι κ}, t.mem = m → Turns s t c (is ++ k) :=
    fun ht => turns_of_effect hI hcur h hstay (fun q hq => absurd hq (hspawn q)) ht
  cases ctl with
  | stay =>
    obtain ⟨hfits, hneeds⟩ := hshape
    cases ht
    refine hI.local (local_goto hstays (cpu_of_effect hI hcur h (by simp))
      ⟨rfl, rfl, rfl, rfl⟩ hfits (fun l => ?_) (fun c' hc' l => Iff.rfl) hI.nest)
      (hturns (goto_mem _ _ _))
    rw [hneeds]
    exact hheld l
  | acquire l =>
    obtain ⟨hfits, -, hneeds⟩ := hshape
    rw [perform] at ht
    split at ht
    · rename_i hl
      cases ht
      refine hI.local (local_goto hstays (cpu_of_effect hI hcur h (by simp))
        ⟨rfl, rfl, rfl, rfl⟩ hfits (fun a => ?_) (fun c' hc' a => take_other hl hc' a)
        (nest_take hI hl)) (hturns (goto_mem _ _ _))
      rw [hneeds, ← hheld]
      exact take_self (s := s) a
    · split at ht <;> cases ht
  | release l =>
    obtain ⟨hfits, -, hneeds⟩ := hshape
    rw [perform] at ht
    split at ht
    · rename_i hl
      cases ht
      refine hI.local (local_goto hstays (cpu_of_effect hI hcur h (by simp))
        ⟨rfl, rfl, rfl, rfl⟩ hfits (fun a => ?_) (fun c' hc' a => drop_other hl hc' a)
        (nest_drop hI hl)) (hturns (goto_mem _ _ _))
      rw [hneeds, ← hheld]
      exact drop_self (s := s) a
    · cases ht
  | leave p => exact absurd rfl (hstay.1 p)
  | enter p => exact absurd rfl (hstay.2 p)
  | back p =>
    obtain ⟨hr, hneeds, ps, hk⟩ := hshape
    rw [perform] at ht
    split at ht
    · rename_i hl
      cases ht
      refine hI.local (c := c) (k := is ++ k) ?_ (hturns (goto_mem _ _ _))
      exact
        { stays := hstays
          running := goto_running _ _ _
          cpu := fun c' hc' => Function.update_of_ne (hc'.resolve_right (by simp [hr])) _ _
          cpuIdle := fun _ => Function.update_self _ _ _
          code := fun q => goto_code _ _ _ q
          loop := fun c' => goto_loop _ _ _ c'
          fits := by
            rw [hk, hr]
            simp [Fits, Before]
          held := fun a => by
            have hnone : ¬ Needs lk [.schedLoop ps] a := by simp [Needs, Gives]
            rw [hk, iff_false_right hnone]
            simp only [goto_lock]
            rw [drop_self (s := { s with mem := m })]
            rintro ⟨ha, hne⟩
            exact hne ((hneeds a).1 ((hheld a).1 ha))
          other := by simpa using fun c' hc' a => drop_other hl hc' a
          nest := by
            simp only [goto_lock, goto_nesting]
            exact nest_drop hI hl }
    · cases ht
  | spawn q => exact absurd rfl (hspawn q)

/-! ### The thread of a new process -/

/-- The state in which the thread of `q` waits in `forkret`. -/
def withForkret (s : State n ι κ) (q : ProcPtr) : State n ι κ :=
  { s with code := Function.update s.code q (forkret q) }

omit [DecidableEq κ] [DecidableEq ι] in
theorem withForkret_code {p q : ProcPtr} (hp : p ≠ q) : (withForkret s q).code p = s.code p :=
  Function.update_of_ne hp _ _

omit [DecidableEq κ] [DecidableEq ι] in
theorem withForkret_self (q : ProcPtr) : (withForkret s q).code q = forkret q :=
  Function.update_self _ _ _

omit [DecidableEq κ] [DecidableEq ι] in
theorem withForkret_current {q : ProcPtr} (hq : ∀ c, s.running c ≠ some q) (c : Fin n) :
    (withForkret s q).current c = s.current c := by
  cases hr : s.running c with
  | none => rw [current_of_idle hr, current_of_idle (s := withForkret s q) hr]; rfl
  | some p =>
    rw [current_of_running hr, current_of_running (s := withForkret s q) hr]
    exact withForkret_code fun e => hq c (e ▸ hr)

omit [DecidableEq κ] [DecidableEq ι] in
/-- Giving a claimed slot its first code changes nothing that runs. -/
theorem inv_withForkret (hI : Inv lk s) {p q : ProcPtr} {st : Stage}
    (hc : claimOf (s.code p) = some (q, st)) : Inv lk (withForkret s q) := by
  have hst : st ≠ .chosen := fun e => hI.not_chosen p q (e ▸ hc)
  have hq := hI.not_running_of_claim hc
  have hcur := withForkret_current hq
  have hne : ∀ {c : Fin n} {p : ProcPtr}, s.running c = some p → p ≠ q :=
    fun hr e => hq _ (e ▸ hr)
  have hclaim : ∀ {p : ProcPtr} {x : ProcPtr × Stage},
      claimOf ((withForkret s q).code p) = some x → claimOf (s.code p) = some x := by
    intro p x h
    by_cases hp : p = q
    · rw [hp, withForkret_self] at h
      cases h
    · rwa [withForkret_code hp] at h
  have hstate := (hI.claim p q st hc).1
  exact
    { held := fun c l => by rw [hcur]; exact hI.held c l
      fits := fun c => by rw [hcur]; exact hI.fits c
      nest := hI.nest
      cpu := hI.cpu
      away := hI.away
      single := hI.single
      onHart := fun c p hr => by
        rw [withForkret_code (hne hr)]
        exact hI.onHart c p hr
      placed := hI.placed
      parked := fun p hr hp => by
        have hpq : p ≠ q := by
          rintro rfl
          replace hp : (s.mem.proc p).state = .runnable ∨ (s.mem.proc p).state = .sleeping := hp
          rw [hstate] at hp
          cases st <;> simp [Stage.state] at hp hst
        rw [withForkret_code hpq]
        exact hI.parked p hr hp
      chosen := hI.chosen
      claim := fun p q st h => hI.claim p q st (hclaim h)
      owner := fun p p' q st st' h h' => hI.owner p p' q st st' (hclaim h) (hclaim h')
      born := fun p' q' st' h hst' => by
        by_cases hq' : q' = q
        · rw [hq', withForkret_self]
        · rw [withForkret_code hq']
          exact hI.born p' q' st' (hclaim h) hst' }

/-- `fork` lets the thread of the new process wait in `forkret`, and releases its lock. -/
theorem inv_of_spawn {t : State n ι κ} {q : ProcPtr} (hI : Inv lk s)
    (hcur : s.current c = i :: k) (h : effect init lk s.mem ok i = .ok (m, .spawn q, is))
    (ht : perform { s with mem := m } c (is ++ k) (.spawn q) = some (.ok t)) : Inv lk t := by
  obtain ⟨p, rfl⟩ : ∃ p, i = .forkMem p q := effect_control h
  have hme : s.running c = some p := (fits_current hI hcur).1.1
  have hclaim : claimOf (s.code p) = some (q, .made) := by
    rw [code_of_current hcur hme]
    rfl
  have hI' := inv_withForkret hI hclaim
  have hcur' := (withForkret_current (hI.not_running_of_claim hclaim) c).trans hcur
  obtain ⟨hfits, -, hneeds⟩ := effect_shape (fits_current hI hcur) h
  rw [perform] at ht
  split at ht
  · rename_i hl
    cases ht
    refine hI'.local (local_goto (stays_of_effect hcur' h (by simp))
      (cpu_of_effect hI' hcur' h (by simp)) ⟨rfl, rfl, rfl, rfl⟩ hfits (fun a => ?_)
      (fun c' hc' a => drop_other hl hc' a) (nest_drop hI hl))
      (turns_of_effect hI' hcur' h (by simp) ?_ (goto_mem _ _ _))
    · rw [hneeds, ← held_current hI hcur]
      exact drop_self (s := s) a
    · intro q' hq'
      cases hq'
      exact withForkret_self q
  · cases ht

/-! ### `sched` -/

omit [DecidableEq κ] in
/-- What `sched` in the thread of `p` changes: the state of `p`, which is not `RUNNING` any
more, and the code it has left. -/
theorem leave_spec {p : ProcPtr} (hI : Inv lk s) (hcur : s.current c = i :: k)
    (h : effect init lk s.mem ok i = .ok (m, .leave p, is)) :
    is = [] ∧ s.running c = some p ∧ (∀ q, q ≠ p → m.proc q = s.mem.proc q) ∧
      claimOf k = none ∧
      ((m.proc p).state = .runnable ∨ (m.proc p).state = .sleeping →
        Fits lk (some p) k ∧ ∀ l, Needs lk k l ↔ l = .proc p) := by
  obtain ⟨rfl, hi⟩ := effect_control h
  have hfits := fits_current hI hcur
  have hr : s.running c = some p := (effect_shape hfits h).1
  obtain ⟨hb, hk⟩ := hfits
  rw [hr] at hk
  refine ⟨rfl, hr, ?_⟩
  rcases hi with ⟨rfl, rfl⟩ | ⟨ch, rfl, rfl⟩ | ⟨rfl, rfl⟩
  · obtain ⟨-, rfl⟩ := hb
    exact ⟨fun q hq => by simp [hq], rfl, fun _ => ⟨hk, by simp [Needs, Gives]⟩⟩
  · refine ⟨fun q hq => by simp [hq], ?_, fun _ => ⟨hk, ?_⟩⟩
    all_goals obtain ⟨-, ⟨i, b, -, rfl⟩ | ⟨rfl, -⟩⟩ := hb
    · rfl
    · rfl
    · simp [Needs, Gives]
    · simp [Needs, Gives]
  · obtain ⟨-, rfl⟩ := hb
    refine ⟨fun q hq => rfl, rfl, fun hp => ?_⟩
    rcases hI.onHart c p hr with hz | ⟨hz, -⟩
    · rw [hz] at hp
      simp at hp
    · rw [hz] at hp
      simp at hp

/-- Hart `c` leaves the thread of `p`, which has `k` left, for its scheduler. -/
structure Leaves (s t : State n ι κ) (m : Shared ι) (c : Fin n) (p : ProcPtr)
    (k : List (Instr ι κ)) : Prop where
  mem : t.mem = m
  lock : t.lock = s.lock
  nesting : t.nesting = s.nesting
  cpu : t.cpu = s.cpu
  loop : t.loop = s.loop
  code : ∀ q, t.code q = if q = p then k else s.code q
  running : ∀ c', t.running c' = if c' = c then none else s.running c'
  state : (m.proc p).state ≠ .running

omit [DecidableEq ι] in
theorem leaves_of_perform {t : State n ι κ} {p : ProcPtr} (hr : s.running c = some p)
    (ht : perform { s with mem := m } c k (.leave p) = some (.ok t)) : Leaves s t m c p k := by
  rw [perform] at ht
  split at ht
  · split at ht
    · cases ht
    · rename_i hstate
      cases ht
      exact
        { mem := goto_mem _ _ _
          lock := goto_lock _ _ _
          nesting := goto_nesting _ _ _
          cpu := goto_cpu _ _ _
          loop := funext fun c' => by simp [goto_loop, hr]
          code := fun q => by simp [goto_code, hr, eq_comm]
          running := fun c' => by simp [Function.update_apply]
          state := hstate }
  · cases ht

omit [DecidableEq κ] [DecidableEq ι] in
/-- `sched` keeps the invariant: the lock of the process stays with the hart. -/
theorem Inv.leave {t : State n ι κ} {p : ProcPtr} (hI : Inv lk s) (hr : s.running c = some p)
    (ht : Leaves s t m c p k) (hmem : ∀ q, q ≠ p → m.proc q = s.mem.proc q)
    (hheld : ∀ l, s.lock l = some c ↔ l = .proc p) (hclaim : claimOf k = none)
    (hparked : (m.proc p).state = .runnable ∨ (m.proc p).state = .sleeping →
      Fits lk (some p) k ∧ ∀ l, Needs lk k l ↔ l = .proc p) : Inv lk t := by
  have hproc : ∀ q, q ≠ p → t.mem.proc q = s.mem.proc q := by
    rw [ht.mem]
    exact hmem
  have hrun : ∀ {c' q}, t.running c' = some q → c' ≠ c ∧ s.running c' = some q := by
    intro c' q h
    rw [ht.running] at h
    split at h
    · cases h
    · rename_i hc
      exact ⟨hc, h⟩
  have hne : ∀ {c' q}, t.running c' = some q → q ≠ p := by
    rintro c' q h rfl
    obtain ⟨hc, h⟩ := hrun h
    exact hc (hI.running_inj h hr)
  have hcode : ∀ {q}, q ≠ p → t.code q = s.code q := fun hq => by rw [ht.code, if_neg hq]
  have hcodep : t.code p = k := by rw [ht.code, if_pos rfl]
  obtain ⟨ps, hloop⟩ := hI.away c p (hI.cpu c p hr)
  have hself : t.current c = [.dispatched p, .schedLoop ps] := by
    rw [current_of_idle (by rw [ht.running, if_pos rfl]), ht.loop, hloop]
  have hother : ∀ c', c' ≠ c → t.current c' = s.current c' ∧ t.running c' = s.running c' := by
    intro c' hc
    have hrc : t.running c' = s.running c' := by rw [ht.running, if_neg hc]
    refine ⟨?_, hrc⟩
    cases hq : s.running c' with
    | none => rw [current_of_idle hq, current_of_idle (by rw [hrc, hq]), ht.loop]
    | some q =>
      rw [current_of_running hq, current_of_running (by rw [hrc, hq]),
        hcode (hne (by rw [hrc, hq]))]
  have hclaim' : ∀ {q x}, claimOf (t.code q) = some x → q ≠ p ∧ claimOf (s.code q) = some x := by
    intro q x h
    by_cases hq : q = p
    · rw [hq, hcodep, hclaim] at h
      cases h
    · exact ⟨hq, by rwa [hcode hq] at h⟩
  have hclaimed : ∀ {p' q st}, claimOf (s.code p') = some (q, st) → q ≠ p := by
    rintro p' q st h rfl
    exact hI.not_running_of_claim h c hr
  exact
    { held := fun c' l => by
        rw [ht.lock]
        by_cases hc : c' = c
        · rw [hc, hself, hheld]
          simp [Needs, Gives]
        · rw [(hother c' hc).1]
          exact hI.held c' l
      fits := fun c' => by
        by_cases hc : c' = c
        · rw [hc, hself, ht.running, if_pos rfl]
          simp [Fits, Before]
        · rw [(hother c' hc).1, (hother c' hc).2]
          exact hI.fits c'
      nest := by
        rw [ht.lock, ht.nesting]
        exact hI.nest
      cpu := fun c' q h => by
        rw [ht.cpu]
        exact hI.cpu c' q (hrun h).2
      away := by
        rw [ht.cpu, ht.loop]
        exact hI.away
      single := fun c₁ c₂ q h h' => by
        rw [ht.cpu] at h'
        exact hI.single c₁ c₂ q (hrun h).2 h'
      onHart := fun c' q h => by
        rw [hproc q (hne h), hcode (hne h)]
        exact hI.onHart c' q (hrun h).2
      placed := fun q hq => by
        have hqp : q ≠ p := by
          rintro rfl
          rw [ht.mem] at hq
          exact ht.state hq
        rw [hproc q hqp] at hq
        obtain ⟨c', hc'⟩ := hI.placed q hq
        have hc : c' ≠ c := by
          rintro rfl
          rw [hr] at hc'
          exact hqp (Option.some.inj hc').symm
        exact ⟨c', by rw [(hother c' hc).2, hc']⟩
      parked := fun q hq hstate => by
        by_cases hqp : q = p
        · rw [hqp, ht.mem] at hstate
          rw [hqp, hcodep]
          exact hparked hstate
        · rw [hproc q hqp] at hstate
          rw [hcode hqp]
          refine hI.parked q (fun c' hc' => ?_) hstate
          by_cases hc : c' = c
          · rw [hc, hr] at hc'
            exact hqp (Option.some.inj hc').symm
          · exact hq c' (by rw [(hother c' hc).2, hc'])
      chosen := fun c' q k' hq hloop' => by
        rw [ht.loop] at hloop'
        have hc : c' ≠ c := by
          rintro rfl
          rw [hloop] at hloop'
          cases hloop'
        rw [(hother c' hc).2] at hq
        have hlock := hI.held_choice hq hloop'
        have hqp : q ≠ p := by
          rintro rfl
          rw [(hheld (.proc q)).2 rfl] at hlock
          exact hc (Option.some.inj hlock).symm
        rw [hproc q hqp]
        exact hI.chosen c' q k' hq hloop'
      claim := fun p' q st h => by
        obtain ⟨hp', h⟩ := hclaim' h
        obtain ⟨hstate, c', hc'⟩ := hI.claim p' q st h
        have hc : c' ≠ c := by
          rintro rfl
          rw [hr] at hc'
          exact hp' (Option.some.inj hc').symm
        rw [hproc q (hclaimed h)]
        exact ⟨hstate, c', by rw [(hother c' hc).2, hc']⟩
      owner := fun p' p'' q st st' h h' =>
        hI.owner p' p'' q st st' (hclaim' h).2 (hclaim' h').2
      born := fun p' q st h hst => by
        obtain ⟨-, h⟩ := hclaim' h
        rw [hcode (hclaimed h)]
        exact hI.born p' q st h hst }

theorem inv_of_leave {t : State n ι κ} {p : ProcPtr} (hI : Inv lk s)
    (hcur : s.current c = i :: k) (h : effect init lk s.mem ok i = .ok (m, .leave p, is))
    (ht : perform { s with mem := m } c (is ++ k) (.leave p) = some (.ok t)) : Inv lk t := by
  obtain ⟨rfl, hr, hmem, hclaim, hparked⟩ := leave_spec hI hcur h
  refine hI.leave hr (leaves_of_perform hr ht) hmem (fun l => ?_) hclaim hparked
  rw [held_current hI hcur]
  exact (effect_shape (fits_current hI hcur) h).2.1 l

/-! ### The dispatch -/

omit [DecidableEq κ] [DecidableEq ι] in
/-- The scheduler of hart `c` switches to a process it found `RUNNABLE`: the lock of the
process is the only one the hart holds, and the only one the code of the process needs. -/
theorem Inv.enter {t : State n ι κ} {p : ProcPtr} {ps : List ProcPtr} (hI : Inv lk s)
    (hr : s.running c = none) (hloop : s.loop c = [.dispatch p, .dispatched p, .schedLoop ps])
    (hlock : t.lock = s.lock) (hnest : t.nesting = s.nesting) (hcode : t.code = s.code)
    (hmem : ∀ q, (t.mem.proc q).state = if q = p then .running else (s.mem.proc q).state)
    (hcpu : ∀ c', t.cpu c' = if c' = c then some p else s.cpu c')
    (hrun : ∀ c', t.running c' = if c' = c then some p else s.running c')
    (hloop' : ∀ c', t.loop c' = if c' = c then [.dispatched p, .schedLoop ps] else s.loop c') :
    Inv lk t := by
  have hrunnable := hI.chosen c p _ hr hloop
  -- No hart runs `p` or has it in `c->proc`.
  have hnot : ∀ c', s.running c' ≠ some p := by
    intro c' hc'
    rcases hI.onHart c' p hc' with h | ⟨h, -⟩
    · simp [hrunnable] at h
    · simp [hrunnable] at h
  have hheld : ∀ l, s.lock l = some c ↔ l = .proc p := by
    intro l
    rw [hI.held, current_of_idle hr, hloop]
    simp [Needs, Gives]
  have hfree : ∀ c', c' ≠ c → s.cpu c' ≠ some p := by
    intro c' hc hc'
    cases hq : s.running c' with
    | some q =>
      have hcq := hI.cpu c' q hq
      rw [hc'] at hcq
      exact hnot c' (hcq ▸ hq)
    | none =>
      have hl := hI.held_away hc' hq
      rw [(hheld _).2 rfl] at hl
      exact hc (Option.some.inj hl).symm
  obtain ⟨hfits, hneeds⟩ := hI.parked p hnot (.inl hrunnable)
  have hself : t.running c = some p ∧ t.current c = s.code p := by
    have hrc : t.running c = some p := by rw [hrun, if_pos rfl]
    exact ⟨hrc, by rw [current_of_running hrc, hcode]⟩
  have hother : ∀ c', c' ≠ c → t.running c' = s.running c' ∧ t.current c' = s.current c' := by
    intro c' hc
    have hrc : t.running c' = s.running c' := by rw [hrun, if_neg hc]
    refine ⟨hrc, ?_⟩
    cases hq : s.running c' with
    | none => rw [current_of_idle hq, current_of_idle (by rw [hrc, hq]), hloop', if_neg hc]
    | some q => rw [current_of_running hq, current_of_running (by rw [hrc, hq]), hcode]
  have hstate : ∀ {q}, q ≠ p → (t.mem.proc q).state = (s.mem.proc q).state :=
    fun hq => by rw [hmem, if_neg hq]
  have hne : ∀ {c' q}, c' ≠ c → t.running c' = some q → q ≠ p := by
    rintro c' q hc h rfl
    rw [(hother c' hc).1] at h
    exact hnot c' h
  have hclaimed : ∀ {p' q st}, claimOf (s.code p') = some (q, st) → q ≠ p := by
    rintro p' q st h rfl
    have h' := (hI.claim p' q st h).1
    rw [hrunnable] at h'
    cases st with
    | chosen => exact hI.not_chosen p' q h
    | _ => cases h'
  exact
    { held := fun c' l => by
        rw [hlock]
        by_cases hc : c' = c
        · rw [hc, hself.2, hneeds, hheld]
        · rw [(hother c' hc).2]
          exact hI.held c' l
      fits := fun c' => by
        by_cases hc : c' = c
        · rw [hc, hself.1, hself.2]
          exact hfits
        · rw [(hother c' hc).1, (hother c' hc).2]
          exact hI.fits c'
      nest := by
        rw [hlock, hnest]
        exact hI.nest
      cpu := fun c' q h => by
        by_cases hc : c' = c
        · rw [hcpu, if_pos hc]
          rwa [hc, hself.1] at h
        · rw [hcpu, if_neg hc]
          rw [(hother c' hc).1] at h
          exact hI.cpu c' q h
      away := fun c' q h => by
        rw [hcpu] at h
        rw [hloop']
        split at h
        · rename_i hc
          cases h
          exact ⟨ps, by rw [if_pos hc]⟩
        · rename_i hc
          rw [if_neg hc]
          exact hI.away c' q h
      single := fun c₁ c₂ q h h' => by
        rw [hcpu] at h'
        by_cases hc₁ : c₁ = c
        · rw [hc₁, hself.1] at h
          obtain rfl := Option.some.inj h
          split at h'
          · rename_i hc₂
            rw [hc₁, hc₂]
          · rename_i hc₂
            exact absurd h' (hfree c₂ hc₂)
        · have hq := hne hc₁ h
          rw [(hother c₁ hc₁).1] at h
          split at h'
          · exact absurd (Option.some.inj h').symm hq
          · exact hI.single c₁ c₂ q h h'
      onHart := fun c' q h => by
        by_cases hc : c' = c
        · rw [hc, hself.1] at h
          obtain rfl := Option.some.inj h
          exact .inl (by rw [hmem, if_pos rfl])
        · rw [hstate (hne hc h), hcode]
          rw [(hother c' hc).1] at h
          exact hI.onHart c' q h
      placed := fun q hq => by
        by_cases hqp : q = p
        · exact ⟨c, by rw [hqp, hself.1]⟩
        · rw [hstate hqp] at hq
          obtain ⟨c', hc'⟩ := hI.placed q hq
          have hc : c' ≠ c := by
            rintro rfl
            rw [hr] at hc'
            cases hc'
          exact ⟨c', by rw [(hother c' hc).1, hc']⟩
      parked := fun q hq hst => by
        have hqp : q ≠ p := by
          rintro rfl
          exact hq c hself.1
        rw [hstate hqp] at hst
        rw [hcode]
        refine hI.parked q (fun c' hc' => ?_) hst
        by_cases hc : c' = c
        · rw [hc, hr] at hc'
          cases hc'
        · exact hq c' (by rw [(hother c' hc).1, hc'])
      chosen := fun c' q k' hq hl => by
        have hc : c' ≠ c := by
          rintro rfl
          rw [hself.1] at hq
          cases hq
        rw [hloop', if_neg hc] at hl
        rw [(hother c' hc).1] at hq
        have hlock' := hI.held_choice hq hl
        have hqp : q ≠ p := by
          rintro rfl
          rw [(hheld (.proc q)).2 rfl] at hlock'
          exact hc (Option.some.inj hlock').symm
        rw [hstate hqp]
        exact hI.chosen c' q k' hq hl
      claim := fun p' q st h => by
        rw [hcode] at h
        obtain ⟨hst, c', hc'⟩ := hI.claim p' q st h
        have hc : c' ≠ c := by
          rintro rfl
          rw [hr] at hc'
          cases hc'
        rw [hstate (hclaimed h)]
        exact ⟨hst, c', by rw [(hother c' hc).1, hc']⟩
      owner := by
        rw [hcode]
        exact hI.owner
      born := by
        rw [hcode]
        exact hI.born }

end Effects

end Xv6.Proofs.Sched
