import Xv6.Proofs.Sched.Tree

/-!
# `Xv6.Proofs.Sched.Reap`: who reaps a zombie, and how often

A `ZOMBIE` changes only when a `wait` of its parent frees it (`Fires.zombie_step`). `Pids` says
that this happens once for a pid: pids are handed out in order, and a pid that `wait` has
returned is in use by no process.

A `wait` whose `copyout` fails changes no process. `reaped_later` is the rest of the story: the
parent alone, with the locks of the process table free, can go on to reap the zombie. Its scan
finds a zombie child (`scan_reaps`), perhaps another one; the induction is on the number of
zombies.
-/

set_option autoImplicit false

namespace Xv6.Proofs.Sched

open Xv6.Kernel Xv6.Kernel.Sched Xv6.Lib

variable {n : Nat} {ι κ : Type} {init : ProcPtr} {lk : ι → κ} {s t : State n ι κ}

/-! ### Pids -/

/-- Pids are handed out in order, and a returned pid is in use by no process. -/
structure Pids (s : State n ι κ) : Prop where
  bound : ∀ p, (s.mem.proc p).state ≠ .unused → (s.mem.proc p).pid < s.mem.nextpid
  distinct : ∀ p q, (s.mem.proc p).state ≠ .unused → (s.mem.proc q).state ≠ .unused →
    (s.mem.proc p).pid = (s.mem.proc q).pid → p = q
  past : ∀ x ∈ s.mem.waited, x < s.mem.nextpid
  gone : ∀ p, (s.mem.proc p).state ≠ .unused → (s.mem.proc p).pid ∉ s.mem.waited
  once : s.mem.waited.Nodup

theorem wake_unused {x : Proc ι} : x.wake.state = .unused ↔ x.state = .unused := by
  unfold Proc.wake
  split
  · rename_i h
    simp [h]
  · rfl

theorem wake_pid (x : Proc ι) : x.wake.pid = x.pid := by
  unfold Proc.wake
  split <;> rfl

section Instruction

variable [DecidableEq ι] {c : Fin n} {i : Instr ι κ} {k is : List (Instr ι κ)} {ok : Bool}
  {ctl : Control κ}

/-- What an instruction does to the pids that were handed out and returned. -/
theorem effect_pids {m m' : Shared ι} (h : effect init lk m ok i = .ok (m', ctl, is)) :
    (m'.nextpid = m.nextpid ∧ m'.waited = m.waited ∧ ∀ p q, i ≠ .allocPid p q) ∨
    (∃ p q, i = .allocPid p q ∧ m'.nextpid = m.nextpid + 1 ∧ m'.waited = m.waited ∧
      (m'.proc q).pid = m.nextpid) ∨
    ∃ p q cs, i = .waitChild p q cs ∧ ok = true ∧ (m.proc q).state = .zombie ∧
      m' = m.reap p q ∧ is = [.release .wait] := by
  cases effect_inv h with
  | allocPid p q =>
    have hpid : ((m.set q fun t => { t with pid := m.nextpid, state := .used }).proc q).pid =
        m.nextpid := by simp
    exact .inr (.inl ⟨p, q, rfl, rfl, rfl, hpid⟩)
  | reap p q cs hz hok => exact .inr (.inr ⟨p, q, cs, rfl, hok, hz, rfl, rfl⟩)
  | pass p j b hj => cases b <;> exact .inl ⟨rfl, rfl, by simp⟩
  | _ => exact .inl ⟨rfl, rfl, by simp⟩

/-- A process in use was so before, with the same pid, or `allocproc` has just chosen its
slot. -/
theorem Fires.present_back (h : Fires init lk s t c i k ok ctl is) (hI : Inv lk s)
    {b : ProcPtr} (hb : (t.mem.proc b).state ≠ .unused) :
    ((s.mem.proc b).state ≠ .unused ∧ (t.mem.proc b).pid = (s.mem.proc b).pid) ∨
      ∃ p, i = .allocPid p b := by
  have hself : ∀ {p}, s.running c = some p → (∀ q, i ≠ .exitSched q) →
      (s.mem.proc p).state ≠ .unused := fun hr hi => by
    rw [h.alive_self hI hr hi]
    simp
  rcases effect_move h.effect b with hsame | hmove
  · rw [hsame] at hb ⊢
    exact .inl ⟨hb, rfl⟩
  · have hbefore := (h.fits hI).1
    generalize t.mem.proc b = x at hmove hb
    cases hmove with
    | yield => exact .inl ⟨hself hbefore.1 (by simp), rfl⟩
    | sleep ch => exact .inl ⟨hself hbefore.1 (by simp), rfl⟩
    | woken => exact .inl ⟨hb, rfl⟩
    | wake ch m hch => exact .inl ⟨fun hs => hb (wake_unused.2 hs), wake_pid _⟩
    | kill pid qs => exact .inl ⟨fun hs => hb (wake_unused.2 hs), wake_pid _⟩
    | allocPid p => exact .inr ⟨p, rfl⟩
    | forkFail p hok => exact absurd rfl hb
    | setParent p => exact .inl ⟨hb, rfl⟩
    | publish =>
      obtain ⟨p, hr⟩ := Option.ne_none_iff_exists'.1 hbefore.1
      refine .inl ⟨?_, rfl⟩
      rw [(h.claimed hI hr rfl).1]
      simp [Stage.state]
    | reparent p cs hparent => exact .inl ⟨hb, rfl⟩
    | zombie status => exact .inl ⟨hself hbefore.1 (by simp), rfl⟩
    | reap p cs hz hok => exact absurd rfl hb
    | dispatch =>
      have hr := hbefore.1
      have hcur := h.current
      rw [current_of_idle hr] at hcur
      refine .inl ⟨?_, rfl⟩
      rw [hI.chosen c b k hr hcur]
      simp

theorem Fires.pids (h : Fires init lk s t c i k ok ctl is) (hI : Inv lk s) (hP : Pids s) :
    Pids t := by
  rcases effect_pids h.effect with ⟨hnext, hwaited, hi⟩ |
    ⟨p, q, rfl, hnext, hwaited, hpid⟩ | ⟨p, q, cs, rfl, -, hz, hmem, -⟩
  · -- No pid is handed out or returned.
    have hback : ∀ {b}, (t.mem.proc b).state ≠ .unused →
        (s.mem.proc b).state ≠ .unused ∧ (t.mem.proc b).pid = (s.mem.proc b).pid :=
      fun hb => (h.present_back hI hb).resolve_right fun ⟨p, hp⟩ => hi p _ hp
    refine ⟨fun b hb => ?_, fun b b' hb hb' he => ?_, ?_, fun b hb => ?_, ?_⟩
    · rw [(hback hb).2, hnext]
      exact hP.bound b (hback hb).1
    · rw [(hback hb).2, (hback hb').2] at he
      exact hP.distinct b b' (hback hb).1 (hback hb').1 he
    · rw [hwaited, hnext]
      exact hP.past
    · rw [(hback hb).2, hwaited]
      exact hP.gone b (hback hb).1
    · rw [hwaited]
      exact hP.once
  · -- `allocproc` takes a pid above all others.
    have hback : ∀ {b}, (t.mem.proc b).state ≠ .unused →
        ((s.mem.proc b).state ≠ .unused ∧ (t.mem.proc b).pid = (s.mem.proc b).pid) ∨
          b = q := by
      intro b hb
      rcases h.present_back hI hb with hb | ⟨p', hp⟩
      · exact .inl hb
      · cases hp
        exact .inr rfl
    have hlt : ∀ {b}, (t.mem.proc b).state ≠ .unused → b ≠ q →
        (t.mem.proc b).pid < s.mem.nextpid := by
      intro b hb hne
      obtain ⟨hs, he⟩ := (hback hb).resolve_right hne
      rw [he]
      exact hP.bound b hs
    refine ⟨fun b hb => ?_, fun b b' hb hb' he => ?_, fun x hx => ?_, fun b hb => ?_, ?_⟩
    · rw [hnext]
      by_cases hq : b = q
      · rw [hq, hpid]
        omega
      · have := hlt hb hq
        omega
    · by_cases hq : b = q <;> by_cases hq' : b' = q
      · rw [hq, hq']
      · have := hlt hb' hq'
        rw [hq, hpid] at he
        omega
      · have := hlt hb hq
        rw [hq', hpid] at he
        omega
      · obtain ⟨hs, e⟩ := (hback hb).resolve_right hq
        obtain ⟨hs', e'⟩ := (hback hb').resolve_right hq'
        rw [e, e'] at he
        exact hP.distinct b b' hs hs' he
    · rw [hwaited] at hx
      rw [hnext]
      have := hP.past x hx
      omega
    · rw [hwaited]
      by_cases hq : b = q
      · intro hx
        have := hP.past _ hx
        rw [hq, hpid] at this
        omega
      · obtain ⟨hs, he⟩ := (hback hb).resolve_right hq
        rw [he]
        exact hP.gone b hs
    · rw [hwaited]
      exact hP.once
  · -- `wait` returns the pid of the zombie that it frees.
    have hused : (s.mem.proc q).state ≠ .unused := by
      rw [hz]
      simp
    have hwaited : t.mem.waited = (s.mem.proc q).pid :: s.mem.waited := by
      rw [hmem]
      rfl
    have hnext : t.mem.nextpid = s.mem.nextpid := by
      rw [hmem]
      rfl
    have hback : ∀ {b}, (t.mem.proc b).state ≠ .unused →
        (s.mem.proc b).state ≠ .unused ∧ (t.mem.proc b).pid = (s.mem.proc b).pid :=
      fun hb => (h.present_back hI hb).resolve_right fun ⟨p, hp⟩ => by cases hp
    have hfreed : (t.mem.proc q).state = .unused := by
      rw [hmem]
      show (((s.mem.result p _).set q fun _ => .free).proc q).state = .unused
      simp [Proc.free]
    refine ⟨fun b hb => ?_, fun b b' hb hb' he => ?_, fun x hx => ?_, fun b hb => ?_, ?_⟩
    · rw [(hback hb).2, hnext]
      exact hP.bound b (hback hb).1
    · rw [(hback hb).2, (hback hb').2] at he
      exact hP.distinct b b' (hback hb).1 (hback hb').1 he
    · rw [hwaited] at hx
      rw [hnext]
      rcases List.mem_cons.1 hx with rfl | hx
      · exact hP.bound q hused
      · exact hP.past x hx
    · rw [(hback hb).2, hwaited, List.mem_cons, not_or]
      refine ⟨fun he => hb ?_, hP.gone b (hback hb).1⟩
      rw [hP.distinct b q (hback hb).1 hused he]
      exact hfreed
    · rw [hwaited, List.nodup_cons]
      exact ⟨hP.gone q hused, hP.once⟩

end Instruction

theorem Pushes.pids {c : Fin n} {k : List (Instr ι κ)} (h : Pushes s t c k) (hP : Pids s) :
    Pids t := by
  have hnext : t.mem.nextpid = s.mem.nextpid := by
    rcases h.mem with hm | hm <;> simp [hm, Shared.call]
  have hwaited : t.mem.waited = s.mem.waited := by
    rcases h.mem with hm | hm <;> simp [hm, Shared.call]
  have hproc := h.proc
  refine ⟨?_, ?_, ?_, ?_, ?_⟩ <;> simp only [hnext, hwaited, hproc]
  · exact hP.bound
  · exact hP.distinct
  · exact hP.past
  · exact hP.gone
  · exact hP.once

theorem pids_initial (cond : ι → Bool) : Pids (initial n init cond : State n ι κ) := by
  have hused : ∀ {p}, ((initial n init cond : State n ι κ).mem.proc p).state ≠ .unused →
      p = init := by
    intro p hp
    by_contra hne
    refine hp ?_
    show (firstEntry init p).state = .unused
    simp [firstEntry, hne, Proc.free]
  refine ⟨fun p hp => ?_, fun p q hp hq _ => ?_, ?_, fun p _ => ?_, ?_⟩
  · rw [hused hp]
    show (firstEntry (ι := ι) init init).pid < 2
    simp [firstEntry]
  · rw [hused hp, hused hq]
  · intro x hx
    cases hx
  · exact List.not_mem_nil
  · exact List.nodup_nil

theorem pids_of_run [DecidableEq ι] [DecidableEq κ] (h : Run init lk s) : Pids s := by
  refine (@Reach.invariant _ _ _ _ _ _ (fun s => Inv lk s ∧ Pids s) ?_ ?_ s h).2
  · rintro s ⟨cond, rfl⟩
    exact ⟨inv_initial cond, pids_initial cond⟩
  · rintro s a t ⟨hI, hP⟩ - ht
    refine ⟨inv_of_machine hI ht, ?_⟩
    rcases machine_cases hI ht with ⟨c, ok, i, k, ctl, is, -, h⟩ | ⟨c, p, f, -, -, -, -, h⟩ |
      ⟨c, i, -, -, h⟩
    · exact h.pids hI hP
    · exact h.pids hP
    · exact h.pids hP

/-! ### What happens to a zombie -/

/-- `q` is still a zombie, with its exit status and its pid. -/
structure Kept (s t : State n ι κ) (q : ProcPtr) : Prop where
  state : (t.mem.proc q).state = .zombie
  xstate : (t.mem.proc q).xstate = (s.mem.proc q).xstate
  pid : (t.mem.proc q).pid = (s.mem.proc q).pid

/-- Hart `c`, in a `wait` of `p` that looks at its child `q`, frees `q` and is about to return
the pid. -/
structure Reaps (s t : State n ι κ) (c : Fin n) (p q : ProcPtr) : Prop where
  running : s.running c = some p
  current : ∃ cs, s.current c = [.waitChild p q cs]
  parent : (s.mem.proc q).parent = some p
  freed : t.mem.proc q = .free
  others : ∀ b, b ≠ q → t.mem.proc b = s.mem.proc b
  ret : t.mem.ret p = (s.mem.proc q).pid
  waited : t.mem.waited = (s.mem.proc q).pid :: s.mem.waited
  left : t.current c = [.release .wait]

theorem reap_proc (m : Shared ι) (p q b : ProcPtr) :
    (m.reap p q).proc b = if b = q then .free else m.proc b :=
  set_proc (m.result p (m.proc q).pid) q (fun _ => .free) b

section Instruction

variable [DecidableEq ι] {c : Fin n} {i : Instr ι κ} {k is : List (Instr ι κ)} {ok : Bool}
  {ctl : Control κ}

/-- `wait` looks at a zombie. -/
theorem effect_waitChild {m : Shared ι} {p q : ProcPtr} {cs : List ProcPtr}
    (hz : (m.proc q).state = .zombie) :
    effect init lk m ok (.waitChild p q cs : Instr ι κ) =
      .ok (if ok then m.reap p q else m.result p (-1), .release (.proc q),
        [.release .wait]) := by
  cases ok <;> simp [effect, hz]

theorem Fires.reaps {p q : ProcPtr} {cs : List ProcPtr}
    (h : Fires init lk s t c (.waitChild p q cs) k true ctl is) (hI : Inv lk s)
    (hT : Tree init s) (hz : (s.mem.proc q).state = .zombie) : Reaps s t c p q := by
  obtain ⟨hr, rfl⟩ := (h.fits hI).1
  have heff := h.effect
  rw [effect_waitChild hz] at heff
  obtain ⟨hmem, rfl, rfl⟩ : s.mem.reap p q = t.mem ∧ .release (.proc q) = ctl ∧
      [.release .wait] = is := by simpa using heff
  refine ⟨hr, ⟨cs, h.current⟩, hT.watching p q cs (by rw [h.code_eq hr]; simp), ?_,
    fun b hb => ?_, ?_, ?_, ?_⟩
  · rw [← hmem, reap_proc, if_pos rfl]
  · rw [← hmem, reap_proc, if_neg hb]
  · rw [← hmem]
    exact Function.update_self ..
  · rw [← hmem]
    rfl
  · exact h.current_self rfl

/-- A zombie stays one until a `wait` of its parent frees it. -/
theorem Fires.zombie_step (h : Fires init lk s t c i k ok ctl is) (hI : Inv lk s)
    (hT : Tree init s) {q : ProcPtr} (hq : (s.mem.proc q).state = .zombie) :
    Kept s t q ∨ ok = true ∧ ∃ p, Reaps s t c p q := by
  have hself : ∀ {p}, s.running c = some p → (∀ x, i ≠ .exitSched x) → p ≠ q := by
    rintro p hr hi rfl
    rw [h.alive_self hI hr hi] at hq
    cases hq
  have hasleep : ¬ Alive (s.mem.proc q).state := by
    rw [hq]
    simp [Alive]
  rcases effect_move h.effect q with hsame | hmove
  · exact .inl ⟨by rw [hsame, hq], by rw [hsame], by rw [hsame]⟩
  · have hbefore := (h.fits hI).1
    generalize hx : t.mem.proc q = x at hmove
    cases hmove with
    | yield => exact absurd rfl (hself hbefore.1 (by simp))
    | sleep ch => exact absurd rfl (hself hbefore.1 (by simp))
    | woken => exact absurd rfl (hself hbefore.1 (by simp))
    | wake ch m hch =>
      rw [wake_of_not_alive hasleep] at hx
      exact .inl ⟨by rw [hx, hq], by rw [hx], by rw [hx]⟩
    | kill pid qs =>
      rw [wake_of_not_alive (x := { s.mem.proc q with killed := true }) hasleep] at hx
      exact .inl ⟨by rw [hx]; exact hq, by rw [hx], by rw [hx]⟩
    | allocPid p => exact absurd hq (h.claimed hI hbefore.1 rfl).2.2
    | forkFail p hok => exact absurd hq (h.claimed hI hbefore.1 rfl).2.2
    | setParent p => exact .inl ⟨by rw [hx]; exact hq, by rw [hx], by rw [hx]⟩
    | publish =>
      obtain ⟨p, hr⟩ := Option.ne_none_iff_exists'.1 hbefore.1
      exact absurd hq (h.claimed hI hr rfl).2.2
    | reparent p cs hparent => exact .inl ⟨by rw [hx]; exact hq, by rw [hx], by rw [hx]⟩
    | zombie status => exact absurd rfl (hself hbefore.1 (by simp))
    | reap p cs hz hok =>
      subst hok
      exact .inr ⟨rfl, p, h.reaps hI hT hz⟩
    | dispatch =>
      have hr := hbefore.1
      have hcur := h.current
      rw [current_of_idle hr] at hcur
      rw [hI.chosen c q k hr hcur] at hq
      cases hq

end Instruction

theorem Pushes.kept {c : Fin n} {k : List (Instr ι κ)} (h : Pushes s t c k) {q : ProcPtr}
    (hq : (s.mem.proc q).state = .zombie) : Kept s t q := by
  have hproc := h.proc
  exact ⟨by rw [hproc, hq], by rw [hproc], by rw [hproc]⟩

section Machine

variable [DecidableEq ι] [DecidableEq κ]

theorem zombie_step (hI : Inv lk s) (hT : Tree init s) {q : ProcPtr} {a : Label n ι}
    (hq : (s.mem.proc q).state = .zombie) (ht : machine init lk s a = some (.ok t)) :
    Kept s t q ∨ ∃ c p, a = .step c true ∧ Reaps s t c p q := by
  rcases machine_cases hI ht with ⟨c, ok, i, k, ctl, is, rfl, h⟩ | ⟨c, p, f, -, -, -, -, h⟩ |
    ⟨c, i, -, -, h⟩
  · rcases h.zombie_step hI hT hq with hkept | ⟨rfl, p, hp⟩
    · exact .inl hkept
    · exact .inr ⟨c, p, rfl, hp⟩
  · exact .inl (h.kept hq)
  · exact .inl (h.kept hq)

/-! ### One thread alone -/

/-- The states that follow `s` in a run. -/
def Later (init : ProcPtr) (lk : ι → κ) (s : State n ι κ) : State n ι κ → Prop :=
  Reach (machine init lk) (fun _ _ => True) fun s' => s' = s

theorem Later.refl (s : State n ι κ) : Later init lk s s := .start rfl

theorem Later.head {a : Label n ι} {u : State n ι κ}
    (ht : machine init lk s a = some (.ok t)) (h : Later init lk t u) : Later init lk s u := by
  induction h with
  | start h => exact .step (.start rfl) trivial (h ▸ ht)
  | step _ _ hm ih => exact .step ih trivial hm

theorem Later.trans {u : State n ι κ} (h : Later init lk s t) (h' : Later init lk t u) :
    Later init lk s u := by
  induction h' with
  | start h' => exact h' ▸ h
  | step _ _ hm ih => exact .step ih trivial hm

/-- Hart `c` runs `k` for process `p`; `w` holds `wait_lock`, and the locks of the processes
are free. -/
structure Alone (s : State n ι κ) (c : Fin n) (p : ProcPtr) (w : Option (Fin n))
    (k : List (Instr ι κ)) : Prop where
  running : s.running c = some p
  code : s.code p = k
  wait : s.lock .wait = w
  free : ∀ q, s.lock (.proc q) = none

variable {c : Fin n} {p : ProcPtr} {w : Option (Fin n)} {i : Instr ι κ}
  {k is : List (Instr ι κ)} {ok : Bool} {m : Shared ι}

theorem step_perform {ctl : Control κ} (hr : s.running c = some p) (hcode : s.code p = i :: k)
    (he : effect init lk s.mem ok i = .ok (m, ctl, is)) :
    machine init lk s (.step c ok) = perform { s with mem := m } c (is ++ k) ctl := by
  show step init lk s c ok = _
  rw [step, current_of_running hr, hcode]
  simp only [he]

theorem stay_step (hr : s.running c = some p) (hcode : s.code p = i :: k)
    (he : effect init lk s.mem ok i = .ok (m, .stay, is)) :
    ∃ t, machine init lk s (.step c ok) = some (.ok t) ∧ t.mem = m ∧ t.running = s.running ∧
      t.code p = is ++ k ∧ t.lock = s.lock := by
  refine ⟨_, step_perform hr hcode he, goto_mem _ _ _, goto_running _ _ _, ?_, goto_lock _ _ _⟩
  rw [goto_code]
  exact if_pos hr

theorem acquire_step {l : Lock κ} (hr : s.running c = some p)
    (hcode : s.code p = .acquire l :: k) (hl : s.lock l = none) :
    ∃ t, machine init lk s (.step c true) = some (.ok t) ∧ t.mem = s.mem ∧
      t.running = s.running ∧ t.code p = k ∧ t.lock = Function.update s.lock l (some c) := by
  have ht : machine init lk s (.step c true) = some (.ok ((s.take c l).goto c k)) := by
    rw [step_perform hr hcode rfl, perform]
    simp only [hl]
    rfl
  refine ⟨_, ht, goto_mem _ _ _, goto_running _ _ _, ?_, goto_lock _ _ _⟩
  rw [goto_code]
  exact if_pos hr

theorem release_step {l : Lock κ} (hr : s.running c = some p) (hcode : s.code p = i :: k)
    (he : effect init lk s.mem ok i = .ok (m, .release l, is)) (hl : s.lock l = some c) :
    ∃ t, machine init lk s (.step c ok) = some (.ok t) ∧ t.mem = m ∧
      t.running = s.running ∧ t.code p = is ++ k ∧ t.lock = Function.update s.lock l none := by
  have ht : machine init lk s (.step c ok) =
      some (.ok ((({ s with mem := m } : State n ι κ).drop c l).goto c (is ++ k))) := by
    rw [step_perform hr hcode he, perform]
    exact if_pos hl
  refine ⟨_, ht, goto_mem _ _ _, goto_running _ _ _, ?_, goto_lock _ _ _⟩
  rw [goto_code]
  exact if_pos hr

theorem Alone.stay (h : Alone s c p w (i :: k))
    (he : effect init lk s.mem true i = .ok (m, .stay, is)) :
    ∃ t, Later init lk s t ∧ t.mem = m ∧ Alone t c p w (is ++ k) := by
  obtain ⟨t, ht, hmem, hr, hcode, hlock⟩ := stay_step h.running h.code he
  refine ⟨t, .head ht (.refl t), hmem, ?_, hcode, ?_, ?_⟩
  · rw [hr, h.running]
  · rw [hlock, h.wait]
  · rw [hlock]
    exact h.free

variable (init lk) in
theorem Alone.acquireWait (h : Alone s c p none (.acquire .wait :: k)) :
    ∃ t, Later init lk s t ∧ t.mem = s.mem ∧ Alone t c p (some c) k := by
  obtain ⟨t, ht, hmem, hr, hcode, hlock⟩ := acquire_step h.running h.code h.wait
  refine ⟨t, .head ht (.refl t), hmem, ?_, hcode, ?_, fun q => ?_⟩
  · rw [hr, h.running]
  · rw [hlock, Function.update_self]
  · rw [hlock, Function.update_of_ne (by simp)]
    exact h.free q

variable (init lk) in
theorem Alone.releaseWait (h : Alone s c p (some c) (.release .wait :: k)) :
    ∃ t, Later init lk s t ∧ t.mem = s.mem ∧ Alone t c p none k := by
  obtain ⟨t, ht, hmem, hr, hcode, hlock⟩ :=
    @release_step _ _ _ init lk s _ _ c p _ k [] true s.mem _ h.running h.code rfl h.wait
  refine ⟨t, .head ht (.refl t), hmem, ?_, hcode, ?_, fun q => ?_⟩
  · rw [hr, h.running]
  · rw [hlock, Function.update_self]
  · rw [hlock, Function.update_of_ne (by simp)]
    exact h.free q

/-- The scan of `wait` visits a child under the lock of the child. -/
theorem Alone.visit {q : ProcPtr} (h : Alone s c p w (.acquire (.proc q) :: i :: k))
    (he : effect init lk s.mem true i = .ok (m, .release (.proc q), is)) :
    ∃ t, Later init lk s t ∧ t.mem = m ∧ Alone t c p w (is ++ k) := by
  obtain ⟨u, hu, humem, hur, hucode, hulock⟩ := acquire_step h.running h.code (h.free q)
  have hheld : u.lock (.proc q) = some c := by rw [hulock, Function.update_self]
  obtain ⟨t, ht, hmem, hr, hcode, hlock⟩ :=
    release_step (by rw [hur, h.running]) hucode (by rw [humem]; exact he) hheld
  have hback : t.lock = s.lock := by
    rw [hlock, hulock, Function.update_idem, ← h.free q, Function.update_eq_self]
  refine ⟨t, .head hu (.head ht (.refl t)), hmem, ?_, hcode, ?_, ?_⟩
  · rw [hr, hur, h.running]
  · rw [hback, h.wait]
  · rw [hback]
    exact h.free

variable (init lk) in
/-- A scan that has a zombie child ahead reaps one. -/
theorem scan_reaps {b : Bool} {cs : List ProcPtr}
    (h : Alone s c p (some c) [.waitLoop p b cs])
    (hchild : ∃ q ∈ cs, (s.mem.proc q).state = .zombie ∧ (s.mem.proc q).parent = some p) :
    ∃ t q, Later init lk s t ∧ Alone t c p none [] ∧ (s.mem.proc q).state = .zombie ∧
      t.mem = s.mem.reap p q := by
  induction cs generalizing s b with
  | nil =>
    obtain ⟨q, hq, -⟩ := hchild
    cases hq
  | cons child cs ih =>
    by_cases hparent : (s.mem.proc child).parent = some p
    · obtain ⟨u, hu, humem, hA⟩ := h.stay
        (show effect init lk s.mem true (.waitLoop p b (child :: cs)) =
          .ok (s.mem, .stay, [.acquire (.proc child), .waitChild p child cs]) by
            simp [effect, hparent])
      by_cases hz : (s.mem.proc child).state = .zombie
      · obtain ⟨v, hv, hvmem, hA⟩ := hA.visit
          (show effect init lk u.mem true (.waitChild p child cs) =
            .ok (s.mem.reap p child, .release (.proc child), [.release .wait]) by
              rw [humem]
              exact effect_waitChild hz)
        obtain ⟨t, ht, hmem, hA⟩ := hA.releaseWait init lk
        exact ⟨t, child, hu.trans (hv.trans ht), hA, hz, hmem.trans hvmem⟩
      · -- A living child is left alone, and the zombie is further on.
        obtain ⟨v, hv, hvmem, hA⟩ := hA.visit
          (show effect init lk u.mem true (.waitChild p child cs) =
            .ok (s.mem, .release (.proc child), [.waitLoop p true cs]) by
              simp [effect, humem, hz])
        obtain ⟨q, hq, hqz, hqp⟩ := hchild
        have hq : q ∈ cs := by
          rcases List.mem_cons.1 hq with rfl | hq
          · exact absurd hqz hz
          · exact hq
        obtain ⟨t, q', ht, hA, hz', hmem⟩ := ih hA (by rw [hvmem]; exact ⟨q, hq, hqz, hqp⟩)
        rw [hvmem] at hz' hmem
        exact ⟨t, q', hu.trans (hv.trans ht), hA, hz', hmem⟩
    · obtain ⟨u, hu, humem, hA⟩ := h.stay
        (show effect init lk s.mem true (.waitLoop p b (child :: cs)) =
          .ok (s.mem, .stay, [.waitLoop p b cs]) by simp [effect, hparent])
      obtain ⟨q, hq, hqz, hqp⟩ := hchild
      have hq : q ∈ cs := by
        rcases List.mem_cons.1 hq with rfl | hq
        · exact absurd hqp hparent
        · exact hq
      obtain ⟨t, q', ht, hA, hz', hmem⟩ := ih hA (by rw [humem]; exact ⟨q, hq, hqz, hqp⟩)
      rw [humem] at hz' hmem
      exact ⟨t, q', hu.trans ht, hA, hz', hmem⟩

variable (init lk) in
/-- A `wait` of a process with a zombie child reaps one. -/
theorem wait_reaps (h : Alone s c p none []) {q : ProcPtr}
    (hq : (s.mem.proc q).state = .zombie) (hparent : (s.mem.proc q).parent = some p) :
    ∃ t q', Later init lk s t ∧ Alone t c p none [] ∧ (s.mem.proc q').state = .zombie ∧
      t.mem = s.mem.reap p q' := by
  have hcall : machine init lk s (.call c .wait) = some (.ok (s.goto c (wait p))) := by
    simp [machine, h.running, h.code, State.call, Call.code]
  have hA : Alone (s.goto c (wait p)) c p none (wait p) := by
    refine ⟨by simp [h.running], ?_, by simp [h.wait], by simp [h.free]⟩
    rw [goto_code]
    exact if_pos h.running
  obtain ⟨u, hu, humem, hA⟩ := hA.acquireWait init lk
  rw [goto_mem] at humem
  obtain ⟨t, q', ht, hA, hz, hmem⟩ := scan_reaps init lk hA
    ⟨q, List.mem_finRange q, by rw [humem]; exact hq, by rw [humem]; exact hparent⟩
  rw [humem] at hz hmem
  exact ⟨t, q', (Later.head hcall hu).trans ht, hA, hz, hmem⟩

/-- The number of zombies. -/
def zombies (m : Shared ι) : Nat :=
  (Finset.univ.filter fun q => (m.proc q).state = .zombie).card

omit [DecidableEq ι] in
theorem zombies_reap {q : ProcPtr} (hq : (m.proc q).state = .zombie) :
    zombies (m.reap p q) < zombies m := by
  refine Finset.card_lt_card (Finset.ssubset_iff_of_subset ?_ |>.2 ⟨q, ?_, ?_⟩)
  · intro b hb
    rw [Finset.mem_filter_univ, reap_proc] at hb
    split at hb
    · cases hb
    · simpa using hb
  · simpa using hq
  · simp [reap_proc, Proc.free]

variable (init lk) in
/-- A process that waits as often as it takes reaps each of its zombie children. -/
theorem reaped_later (h : Alone s c p none []) {q : ProcPtr}
    (hq : (s.mem.proc q).state = .zombie) (hparent : (s.mem.proc q).parent = some p) :
    ∃ t, Later init lk s t ∧ t.mem.proc q = .free ∧ (s.mem.proc q).pid ∈ t.mem.waited := by
  generalize hN : zombies s.mem = N
  induction N using Nat.strong_induction_on generalizing s with
  | _ N ih =>
    obtain ⟨u, q', hu, hA, hz, hmem⟩ := wait_reaps init lk h hq hparent
    by_cases he : q = q'
    · subst he
      refine ⟨u, hu, ?_, ?_⟩
      · rw [hmem, reap_proc, if_pos rfl]
      · rw [hmem]
        exact List.mem_cons_self
    · have hsame : u.mem.proc q = s.mem.proc q := by rw [hmem, reap_proc, if_neg he]
      have hlt : zombies u.mem < N := by
        rw [← hN, hmem]
        exact zombies_reap hz
      obtain ⟨t, ht, hfree, hwaited⟩ :=
        ih _ hlt hA (by rw [hsame, hq]) (by rw [hsame, hparent]) rfl
      exact ⟨t, hu.trans ht, hfree, hsame ▸ hwaited⟩

/-! ### The process tree in every run -/

/-- Whatever `copyout` does, `wait` gets past a zombie that it looks at. -/
theorem waitChild_step (hI : Inv lk s) {q : ProcPtr} {cs : List ProcPtr}
    (hcur : s.current c = [.waitChild p q cs]) (hq : (s.mem.proc q).state = .zombie)
    (ok : Bool) : ∃ t, machine init lk s (.step c ok) = some (.ok t) ∧
      t.mem = (if ok then s.mem.reap p q else s.mem.result p (-1)) ∧
      t.current c = [.release .wait] := by
  have hfits := hI.fits c
  rw [hcur] at hfits
  have hr : s.running c = some p := hfits.1.1
  have hheld : s.lock (.proc q) = some c := by
    rw [hI.held, hcur]
    simp [Needs, Gives]
  rw [current_of_running hr] at hcur
  obtain ⟨t, ht, hmem, htr, hcode, -⟩ :=
    release_step hr hcur (@effect_waitChild _ _ init lk _ ok _ p q cs hq) hheld
  refine ⟨t, ht, hmem, ?_⟩
  rw [current_of_running (by rw [htr, hr]), hcode]
  rfl

/-- The slot of the first child. -/
def slot1 : ProcPtr := ⟨1, by decide⟩

/-- `initproc` forks a child. -/
def forkOnce : List (Label 1 Unit) :=
  List.replicate 5 (.step 0 true) ++ [.call 0 .fork] ++ List.replicate 11 (.step 0 true)

end Machine

end Xv6.Proofs.Sched
