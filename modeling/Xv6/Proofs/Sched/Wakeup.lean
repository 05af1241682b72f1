import Xv6.Proofs.Sched.Steps

/-!
# `Xv6.Proofs.Sched.Wakeup`: no wakeup is lost

A sleeper of condition `i` finds it false under `lk i`, takes its own lock, releases `lk i`
and only then becomes `SLEEPING`. A waker makes the condition true under `lk i` and then visits
the processes one by one. So when the condition becomes true, a sleeper that has released
`lk i` holds its own lock until it is asleep, and the visit to it comes after that; a sleeper
that has not released `lk i` keeps the waker out.

The invariant is `Watched`: a process that sleeps on condition `i`, or is about to with `lk i`
released, while the condition is true, is still to be visited by a call of `wakeup` that was
issued after the condition became true.
-/

set_option autoImplicit false

namespace Xv6.Proofs.Sched

open Xv6.Kernel Xv6.Kernel.Sched Xv6.Lib

variable {n : Nat} {ι κ : Type} {init : ProcPtr} {lk : ι → κ} {s t : State n ι κ}

/-! ### Conditions and visits -/

/-- Nobody is left `SLEEPING` by a visit. -/
theorem wake_state_ne (x : Proc ι) : x.wake.state ≠ .sleeping := by
  unfold Proc.wake
  split
  · simp
  · assumption

variable {m m' : Shared ι} {ok : Bool} {i : Instr ι κ} {is : List (Instr ι κ)} {ctl : Control κ}

/-- A condition becomes true by a waker, and changes only under its lock. -/
theorem effect_cond [DecidableEq ι] (h : effect init lk m ok i = .ok (m', ctl, is)) (j : ι) :
    m'.cond j = m.cond j ∧ m'.since j = m.since j ∨
      (∃ me, i = .signal me j) ∨ m'.cond j = false := by
  cases effect_inv h with
  | signal me j' =>
    by_cases hj : j = j'
    · exact .inr (.inl ⟨me, by rw [hj]⟩)
    · refine .inl ⟨Function.update_of_ne hj _ _, ?_⟩
      show (if m.cond j' then m.since else _) j = _
      split
      · rfl
      · exact Function.update_of_ne hj _ _
  | clear j' =>
    by_cases hj : j = j'
    · exact .inr (.inr (by rw [hj]; exact Function.update_self _ _ _))
    · exact .inl ⟨Function.update_of_ne hj _ _, rfl⟩
  | pass p j' consume hj' =>
    cases consume with
    | false => exact .inl ⟨rfl, rfl⟩
    | true =>
      by_cases hj : j = j'
      · exact .inr (.inr (by rw [hj]; exact Function.update_self _ _ _))
      · exact .inl ⟨Function.update_of_ne hj _ _, rfl⟩
  | _ => exact .inl ⟨rfl, rfl⟩

variable {me : Option ProcPtr} {j : ι}

theorem effect_signal [DecidableEq ι] (h : effect init lk m ok (.signal me j) = .ok (m', ctl, is)) :
    m' = (m.signal j).call ∧ ctl = .stay ∧
      is = wakeup me (.cond j) m.calls table ++ [.release (.user (lk j))] := by
  cases h
  exact ⟨rfl, rfl, rfl⟩

/-- The calls of `wakeup` are counted up. -/
theorem effect_calls [DecidableEq ι] (h : effect init lk m ok i = .ok (m', ctl, is)) :
    m.calls ≤ m'.calls := by
  cases effect_inv h with
  | reparent p child cs hparent => exact Nat.le_succ _
  | wakeParent p => exact Nat.le_succ _
  | signal me j => exact Nat.le_succ _
  | pass p j consume hj => cases consume <;> exact le_rfl
  | _ => exact le_rfl

theorem effect_acquire [DecidableEq ι] {l : Lock κ}
    (h : effect init lk m ok (.acquire l) = .ok (m', ctl, is)) : m' = m ∧ is = [] := by
  cases h
  exact ⟨rfl, rfl⟩

theorem effect_release [DecidableEq ι] {l : Lock κ}
    (h : effect init lk m ok (.release l) = .ok (m', ctl, is)) : m' = m ∧ is = [] := by
  cases h
  exact ⟨rfl, rfl⟩

variable {q : ProcPtr} {ch : Chan ι}

/-- A visit leaves nobody asleep on its channel. -/
theorem effect_wake [DecidableEq ι] {r : Nat}
    (h : effect init lk m ok (.wake q ch r) = .ok (m', ctl, is)) (hchan : (m'.proc q).chan = ch) :
    (m'.proc q).state ≠ .sleeping := by
  cases h
  rw [set_proc, if_pos rfl] at hchan ⊢
  by_cases hch : (m.proc q).chan = ch
  · rw [if_pos hch]
    exact wake_state_ne _
  · rw [if_neg hch] at hchan
    exact absurd hchan hch

variable {p : ProcPtr}

/-- A thread starts to sleep on a condition right after it found it false. -/
theorem effect_sleep [DecidableEq ι] (h : effect init lk m ok i = .ok (m', ctl, is))
    (hmem : .sleep p (.cond j) ∈ is) :
    m.cond j = false ∧ m' = m := by
  have hwakeup : ∀ (me : Option ProcPtr) (ch : Chan ι) (r : Nat) (k : List (Instr ι κ)),
      Wakeful k → .sleep p (.cond j) ∉ wakeup me ch r table ++ k :=
    fun me ch r k hk => wakeful_wakeup hk p (.cond j)
  cases effect_inv h with
  | doze p' j' consume hj =>
    obtain ⟨-, rfl⟩ : p = p' ∧ j = j' := by simpa [sleep] using hmem
    exact ⟨hj, rfl⟩
  | waitSleep p' hkilled => simp [sleep] at hmem
  | reparent p' child cs hparent => exact absurd hmem (hwakeup _ _ _ _ (by simp))
  | signal me' j' => exact absurd hmem (hwakeup _ _ _ _ (by simp))
  | wakeParent p' =>
    rw [← List.append_nil (wakeup _ _ _ _)] at hmem
    exact absurd hmem (hwakeup _ _ _ _ wakeful_nil)
  | killNext pid q qs hpid => cases qs <;> simp [Sched.kill] at hmem
  | allocNext p' q qs hq => cases qs <;> simp [Sched.fork] at hmem
  | _ => simp at hmem

/-- `wakeup` visits every process but the caller's. -/
theorem mem_wakeup {m : Nat} {qs : List ProcPtr} (hq : q ∈ qs) (hme : me ≠ some q) :
    .wake q ch m ∈ (wakeup me ch m qs : List (Instr ι κ)) := by
  induction qs with
  | nil => cases hq
  | cons q' qs ih =>
    rw [wakeup]
    rcases List.mem_cons.1 hq with rfl | hq
    · rw [if_neg hme]
      simp
    · split
      · exact ih hq
      · simp [ih hq]

theorem mem_table (p : ProcPtr) : p ∈ table := List.mem_finRange p

variable {c : Fin n}

/-- A visit that is still to come stays to come until it is made. -/
theorem Fires.wake_kept [DecidableEq ι] {k : List (Instr ι κ)}
    (h : Fires init lk s t c i k ok ctl is) (hI : Inv lk s) {c' : Fin n} {m : Nat}
    (hmem : .wake q ch m ∈ s.current c') :
    .wake q ch m ∈ t.current c' ∨ c' = c ∧ i = .wake q ch m := by
  by_cases hc : c' = c
  · rw [hc, h.current] at hmem
    have hb := (h.fits hI).1
    rcases List.mem_cons.1 hmem with rfl | hk
    · exact .inr ⟨hc, rfl⟩
    · have hcontrol := effect_control h.effect
      -- No visit is behind a switch.
      cases ctl with
      | leave p =>
        obtain ⟨-, ⟨rfl, -⟩ | ⟨ch', rfl, -⟩ | ⟨rfl, -⟩⟩ := hcontrol
        · rw [hb.2] at hk
          simp at hk
        · obtain ⟨-, ⟨i, b, -, rfl⟩ | ⟨rfl, -⟩⟩ := hb
          · simp at hk
          · simp at hk
        · rw [hb.2] at hk
          simp at hk
      | enter p =>
        obtain ⟨-, rfl, -⟩ := hcontrol
        obtain ⟨-, ps, rfl⟩ := hb
        simp at hk
      | _ =>
        rw [hc, h.current_self rfl]
        exact .inl (List.mem_append_right _ hk)
  · rw [h.current_other hI hc]
    exact .inl hmem

/-! ### The invariant -/

/-- A call of `wakeup` issued since condition `i` became true is still to visit `p`. -/
def Pending (s : State n ι κ) (p : ProcPtr) (i : ι) : Prop :=
  ∃ c m, s.mem.since i ≤ m ∧ m < s.mem.calls ∧ .wake p (.cond i) m ∈ s.current c

/-- `p` sleeps on condition `i`, or is about to and has released `lk i`. -/
def Waits (s : State n ι κ) (p : ProcPtr) (i : ι) : Prop :=
  (s.mem.proc p).state = .sleeping ∧ (s.mem.proc p).chan = .cond i ∨
    ∃ k, s.code p = .sleep p (.cond i) :: k

/-- `p` has found condition `i` false and holds `lk i` on its way into `sleep`. -/
def Tested (lk : ι → κ) (s : State n ι κ) (p : ProcPtr) (i : ι) : Prop :=
  ∃ k, s.code p = .acquire (.proc p) :: .release (.user (lk i)) :: .sleep p (.cond i) :: k ∨
    s.code p = .release (.user (lk i)) :: .sleep p (.cond i) :: k

structure Watched (lk : ι → κ) (s : State n ι κ) : Prop where
  /-- A thread inside `sleep` runs until its `sched`. -/
  awake : ∀ p p' ch, .sleep p' ch ∈ s.code p → ∃ c, s.running c = some p
  tested : ∀ p i, Tested lk s p i → s.mem.cond i = false
  waits : ∀ p i, Waits s p i → s.mem.cond i = true → Pending s p i

theorem Tested.mem {i : ι} (h : Tested lk s p i) :
    .sleep p (.cond i) ∈ s.code p := by
  obtain ⟨k, hk | hk⟩ := h
  · simp [hk]
  · simp [hk]

/-- A process on its way into `sleep` holds the lock of the condition. -/
theorem Tested.held (hI : Inv lk s) {i : ι} (h : Tested lk s p i) (hr : s.running c = some p) :
    s.lock (.user (lk i)) = some c := by
  rw [hI.held, current_of_running hr]
  obtain ⟨k, hk | hk⟩ := h
  · rw [hk]
    exact ⟨.inr rfl, by simp⟩
  · rw [hk]
    exact .inr rfl

/-! ### An instruction keeps it -/

section Instruction

variable [DecidableEq ι] {c : Fin n} {i : Instr ι κ} {k is : List (Instr ι κ)} {ok : Bool}
  {ctl : Control κ}

/-- A condition that is true after an instruction was true before it, since the same call, or
a waker has just made it true. -/
theorem Fires.cond_true (h : Fires init lk s t c i k ok ctl is) (hj : t.mem.cond j = true) :
    s.mem.cond j = true ∧ t.mem.since j = s.mem.since j ∨
      s.mem.cond j = false ∧ ∃ me, i = .signal me j ∧ t.mem.since j = s.mem.calls := by
  rcases effect_cond h.effect j with ⟨hcond, hsince⟩ | ⟨me, rfl⟩ | hfalse
  · exact .inl ⟨by rw [← hcond, hj], hsince⟩
  · have hm := (effect_signal h.effect).1
    cases hc : s.mem.cond j with
    | true => exact .inl ⟨rfl, by rw [hm]; simp [Shared.call, Shared.signal, hc]⟩
    | false => exact .inr ⟨rfl, me, rfl, by rw [hm]; simp [Shared.call, Shared.signal, hc]⟩
  · rw [hj] at hfalse
    cases hfalse

/-- The waker that makes a condition true is to visit every process but its own. -/
theorem Fires.pending_signal (h : Fires init lk s t c i k ok ctl is) (hI : Inv lk s)
    (hi : i = .signal me j) (hsince : t.mem.since j = s.mem.calls) (hp : s.running c ≠ some p) :
    Pending t p j := by
  subst hi
  obtain ⟨rfl, -⟩ : me = s.running c ∧ _ := (h.fits hI).1
  obtain ⟨hm, rfl, rfl⟩ := effect_signal h.effect
  refine ⟨c, s.mem.calls, hsince.le, by rw [hm]; exact Nat.lt_succ_self _, ?_⟩
  rw [h.current_self rfl]
  exact List.mem_append_left _ (List.mem_append_left _ (mem_wakeup (mem_table p) hp))

theorem Fires.pending_kept (h : Fires init lk s t c i k ok ctl is) (hI : Inv lk s)
    (hsince : t.mem.since j = s.mem.since j) (hne : ∀ m, i ≠ .wake p (.cond j) m)
    (hp : Pending s p j) : Pending t p j := by
  obtain ⟨c', m, hm, hcalls, hmem⟩ := hp
  rcases h.wake_kept hI hmem with hmem' | ⟨-, hi⟩
  · exact ⟨c', m, by rw [hsince]; exact hm, hcalls.trans_le (effect_calls h.effect), hmem'⟩
  · exact absurd hi (hne m)

/-- Who sleeps after an instruction slept before it, or was about to. -/
theorem Fires.sleeping_back (h : Fires init lk s t c i k ok ctl is) (hI : Inv lk s)
    (hstate : (t.mem.proc p).state = .sleeping) (hchan : (t.mem.proc p).chan = .cond j) :
    Waits s p j ∧ (∀ m, i ≠ .wake p (.cond j) m) ∧
      ∀ me, i = .signal me j → s.running c ≠ some p := by
  refine ⟨?_, ?_, ?_⟩
  · have hb := (h.fits hI).1
    rcases effect_move h.effect p with hsame | hmove
    · rw [hsame] at hstate hchan
      exact .inl ⟨hstate, hchan⟩
    · generalize hx : t.mem.proc p = x at hmove hstate hchan
      cases hmove with
      | sleep ch =>
        cases hchan
        exact .inr ⟨k, h.code_eq hb.1⟩
      | setParent p' => exact .inl ⟨hstate, hchan⟩
      | reparent p' cs hparent => exact .inl ⟨hstate, hchan⟩
      | woken => cases hchan
      | wake ch m hch => exact absurd hstate (wake_state_ne _)
      | kill pid qs => exact absurd hstate (wake_state_ne _)
      | _ => cases hstate
  · rintro m rfl
    exact effect_wake h.effect hchan hstate
  · rintro me rfl hr
    rw [(effect_signal h.effect).1] at hstate
    rcases hI.onHart c p hr with hrun | ⟨hz, -⟩
    · exact absurd (hstate.symm.trans hrun) (by simp)
    · exact absurd (hstate.symm.trans hz) (by simp)

/-- The `sched` of `sleep` stands behind the `acquire` of the own lock and the `release` of
the condition's. -/
theorem Fires.sleep_behind (h : Fires init lk s t c i k ok ctl is) (hI : Inv lk s)
    (hmem : .sleep p ch ∈ k) :
    (t.mem = s.mem ∧ is = []) ∧
      ((i = .acquire (.proc p) ∧ ∃ k₀, k = .release (chanLock lk ch) :: .sleep p ch :: k₀) ∨
        i = .release (chanLock lk ch) ∧ ∃ k₀, k = .sleep p ch :: k₀) := by
  have hfits := h.fits hI
  have hdozing := dozing_of_mem hfits (List.mem_cons_of_mem i hmem)
  generalize hik : i :: k = l at hdozing
  cases hdozing with
  | enters k₀ =>
    obtain ⟨rfl, rfl⟩ := List.cons.inj hik
    exact ⟨effect_acquire h.effect, .inl ⟨rfl, k₀, rfl⟩⟩
  | holds k₀ =>
    obtain ⟨rfl, rfl⟩ := List.cons.inj hik
    exact ⟨effect_release h.effect, .inr ⟨rfl, k₀, rfl⟩⟩
  | sleeps k₀ =>
    obtain ⟨rfl, rfl⟩ := List.cons.inj hik
    obtain ⟨-, ⟨j, b, -, rfl⟩ | ⟨rfl, -⟩⟩ := hfits.1
    · simp at hmem
    · simp at hmem

/-- A thread comes to the `sched` of `sleep` from the release of the condition's lock, which
it held since it found the condition false. -/
theorem Fires.dozing_back (h : Fires init lk s t c i k ok ctl is) (hI : Inv lk s)
    (hW : Watched lk s) {k' : List (Instr ι κ)} (hcode : t.code p = .sleep p (.cond j) :: k')
    (hj : t.mem.cond j = true) :
    Waits s p j ∧ (∀ m, i ≠ .wake p (.cond j) m) ∧
      ∀ me, i = .signal me j → s.running c ≠ some p := by
  by_cases hr : s.running c = some p
  · -- The condition is false when its own thread gets there.
    exfalso
    rw [h.codeSelf p hr] at hcode
    have hmem : .sleep p (.cond j) ∈ is ++ k := by rw [hcode]; simp
    rcases List.mem_append.1 hmem with his | hk
    · obtain ⟨hfalse, hm⟩ := effect_sleep h.effect his
      rw [hm, hfalse] at hj
      cases hj
    · obtain ⟨⟨hm, rfl⟩, ⟨rfl, k₀, rfl⟩ | ⟨rfl, k₀, rfl⟩⟩ := h.sleep_behind hI hk
      · cases hcode
      · rw [hm, hW.tested p j ⟨k₀, .inr (h.code_eq hr)⟩] at hj
        cases hj
  · rcases h.codeOther p hr with hsame | ⟨-, hfork⟩
    · rw [hsame] at hcode
      refine ⟨.inr ⟨k', hcode⟩, ?_, fun _ _ => hr⟩
      -- A visit would need the lock that the sleeper holds.
      rintro m rfl
      obtain ⟨c', hc'⟩ := hW.awake p p (.cond j) (by rw [hcode]; simp)
      have hlock : s.lock (.proc p) = some c := (h.held hI _).2 (.inr rfl)
      have hlock' : s.lock (.proc p) = some c' := by
        rw [hI.held, current_of_running hc', hcode]
        rfl
      obtain rfl : c = c' := by simpa [hlock] using hlock'
      exact hr hc'
    · rw [hfork] at hcode
      cases hcode

theorem Fires.awake (h : Fires init lk s t c i k ok ctl is) (hI : Inv lk s) (hW : Watched lk s)
    {p' : ProcPtr} (hmem : .sleep p' ch ∈ t.code p) :
    ∃ c, t.running c = some p := by
  by_cases hr : s.running c = some p
  · rw [h.codeSelf p hr] at hmem
    have hcontrol := effect_control h.effect
    cases ctl with
    | leave q =>
      obtain ⟨rfl, hi⟩ := hcontrol
      obtain ⟨-, ⟨rfl, -⟩ | ⟨rfl, -⟩⟩ := h.sleep_behind hI hmem
      · simp at hi
      · simp at hi
    | enter q =>
      have hnone := (effect_shape (h.fits hI) h.effect).1
      rw [hr] at hnone
      cases hnone
    | _ => exact ⟨c, h.runningSelf.trans hr⟩
  · rcases h.codeOther p hr with hsame | ⟨-, hfork⟩
    · rw [hsame] at hmem
      obtain ⟨c', hc'⟩ := hW.awake p p' ch hmem
      have hne : c' ≠ c := fun e => hr (e ▸ hc')
      exact ⟨c', by rw [h.runningOther c' hne, hc']⟩
    · rw [hfork] at hmem
      simp [forkret] at hmem

theorem Fires.tested (h : Fires init lk s t c i k ok ctl is) (hI : Inv lk s) (hW : Watched lk s)
    (htest : Tested lk t p j) :
    t.mem.cond j = false := by
  by_cases hr : s.running c = some p
  · have hmem := htest.mem
    rw [h.codeSelf p hr] at hmem
    rcases List.mem_append.1 hmem with his | hk
    · obtain ⟨hfalse, hm⟩ := effect_sleep h.effect his
      rw [hm, hfalse]
    · obtain ⟨⟨hm, rfl⟩, ⟨rfl, k₀, rfl⟩ | ⟨rfl, k₀, rfl⟩⟩ := h.sleep_behind hI hk
      · rw [hm]
        exact hW.tested p j ⟨k₀, .inl (h.code_eq hr)⟩
      · rw [hm]
        exact hW.tested p j ⟨k₀, .inr (h.code_eq hr)⟩
  · rcases h.codeOther p hr with hsame | ⟨-, hfork⟩
    · have htest' : Tested lk s p j := by
        obtain ⟨k₀, hk⟩ := htest
        exact ⟨k₀, by rwa [hsame] at hk⟩
      have hfalse := hW.tested p j htest'
      by_contra hj
      rcases h.cond_true (by simpa using hj) with ⟨htrue, -⟩ | ⟨-, me, rfl, -⟩
      · rw [hfalse] at htrue
        cases htrue
      · -- The waker would hold the lock that the sleeper holds.
        obtain ⟨c', hc'⟩ := hW.awake p p _ htest'.mem
        have hlock : s.lock (.user (lk j)) = some c := (h.held hI _).2 (.inr rfl)
        rw [htest'.held hI hc'] at hlock
        exact hr (Option.some.inj hlock ▸ hc')
    · have hmem := htest.mem
      rw [hfork] at hmem
      simp [forkret] at hmem

theorem Fires.watched (h : Fires init lk s t c i k ok ctl is) (hI : Inv lk s)
    (hW : Watched lk s) : Watched lk t where
  awake _ _ _ hmem := h.awake hI hW hmem
  tested _ _ htest := h.tested hI hW htest
  waits p j hwaits hj := by
    have hback : Waits s p j ∧ (∀ m, i ≠ .wake p (.cond j) m) ∧
        ∀ me, i = .signal me j → s.running c ≠ some p := by
      rcases hwaits with ⟨hstate, hchan⟩ | ⟨k', hcode⟩
      · exact h.sleeping_back hI hstate hchan
      · exact h.dozing_back hI hW hcode hj
    obtain ⟨hwaits, hne, hsignal⟩ := hback
    rcases h.cond_true hj with ⟨htrue, hsince⟩ | ⟨-, me, hi, hsince⟩
    · exact h.pending_kept hI hsince hne (hW.waits p j hwaits htrue)
    · exact h.pending_signal hI hi hsince (hsignal me hi)

end Instruction

/-! ### The other steps, and the runs -/

theorem Pushes.watched {k : List (Instr ι κ)} (h : Pushes s t c k) (hI : Inv lk s)
    (hidle : Idle lk (s.running c) k) (hkeep : ∀ i ∈ s.current c, i ∈ k) (hW : Watched lk s) :
    Watched lk t := by
  have hmem : t.mem.cond = s.mem.cond ∧ t.mem.since = s.mem.since ∧
      s.mem.calls ≤ t.mem.calls := by
    rcases h.mem with hm | hm
    · rw [hm]
      exact ⟨rfl, rfl, le_rfl⟩
    · rw [hm]
      exact ⟨rfl, rfl, Nat.le_succ _⟩
  -- Idle code is not inside `sleep`.
  have hcode : ∀ {p p' ch}, .sleep p' ch ∈ t.code p → t.code p = s.code p := by
    intro p p' ch hsleep
    rw [h.code] at hsleep ⊢
    split at hsleep
    · exact absurd hsleep (hidle.wakeful p' ch)
    · rename_i hr
      rw [if_neg hr]
  refine ⟨fun p p' ch hsleep => ?_, fun p i htest => ?_, fun p i hwaits hi => ?_⟩
  · rw [h.running]
    exact hW.awake p p' ch (by rwa [hcode hsleep] at hsleep)
  · rw [hmem.1]
    obtain ⟨k', hk'⟩ := htest
    exact hW.tested p i ⟨k', by rwa [hcode (Tested.mem ⟨k', hk'⟩)] at hk'⟩
  · rw [hmem.1] at hi
    have hwaits' : Waits s p i := by
      rcases hwaits with hsleep | ⟨k', hk'⟩
      · rw [h.proc] at hsleep
        exact .inl hsleep
      · have hsleep : .sleep p (.cond i) ∈ t.code p := by rw [hk']; simp
        exact .inr ⟨k', by rwa [hcode hsleep] at hk'⟩
    obtain ⟨c', m, hm, hcalls, hwake⟩ := hW.waits p i hwaits' hi
    refine ⟨c', m, by rw [hmem.2.1]; exact hm, hcalls.trans_le hmem.2.2, ?_⟩
    by_cases hc : c' = c
    · rw [hc, h.current_self]
      exact hkeep _ (hc ▸ hwake)
    · rw [h.current_other hI hc]
      exact hwake

theorem watched_initial (cond : ι → Bool) :
    Watched lk (initial n init cond : State n ι κ) := by
  have hcode : ∀ p, (initial n init cond : State n ι κ).code p = forkret p ∨
      (initial n init cond : State n ι κ).code p = [] := by
    intro p
    by_cases hp : p = init
    · exact .inl (if_pos hp)
    · exact .inr (if_neg hp)
  have hsleep : ∀ {p p' ch}, .sleep p' ch ∉ (initial n init cond : State n ι κ).code p := by
    intro p p' ch hmem
    rcases hcode p with h | h
    · rw [h] at hmem
      simp [forkret] at hmem
    · rw [h] at hmem
      simp at hmem
  refine ⟨fun p p' ch hmem => absurd hmem hsleep, fun p i htest => absurd htest.mem hsleep,
    fun p i hwaits _ => ?_⟩
  rcases hwaits with ⟨hstate, -⟩ | ⟨k, hk⟩
  · exfalso
    by_cases hp : p = init
    · simp [initial, firstEntry, hp] at hstate
    · simp [initial, firstEntry, hp, Proc.free] at hstate
  · exact absurd (by rw [hk]; simp) (@hsleep p p (.cond i))

theorem watched_of_run [DecidableEq ι] [DecidableEq κ] (h : Run init lk s) : Watched lk s := by
  refine (@Reach.invariant _ _ _ _ _ _ (fun s => Inv lk s ∧ Watched lk s) ?_ ?_ s h).2
  · rintro s ⟨cond, rfl⟩
    exact ⟨inv_initial cond, watched_initial cond⟩
  · rintro s a t ⟨hI, hW⟩ - ht
    refine ⟨inv_of_machine hI ht, ?_⟩
    rcases machine_cases hI ht with ⟨c, ok, i, k, ctl, is, -, h⟩ | ⟨c, p, f, -, hr, hcode, -, h⟩ |
      ⟨c, i, -, hidle, h⟩
    · exact h.watched hI hW
    · refine h.watched hI (by rw [hr]; exact idle_call s.mem p f) ?_ hW
      rw [current_of_running hr, hcode]
      exact fun _ hi => absurd hi List.not_mem_nil
    · exact h.watched hI (idle_waker hidle) (fun _ hi => List.mem_append_right _ hi) hW

/-- Call `m` of `wakeup(ch)` has finished its scan: no thread is still to make a visit. -/
def Finished (s : State n ι κ) (ch : Chan ι) (m : Nat) : Prop :=
  ∀ c q, .wake q ch m ∉ s.current c

/-- No run comes to a state in which a process is `SLEEPING` on the channel of a condition that
is true, and every call of `wakeup` on it that was issued since the condition became true has
finished. -/
theorem no_lost_wakeup [DecidableEq ι] [DecidableEq κ] (h : Run init lk s) :
    ¬ ∃ p i, (s.mem.proc p).state = .sleeping ∧ (s.mem.proc p).chan = .cond i ∧
      s.mem.cond i = true ∧
      ∀ m, s.mem.since i ≤ m → m < s.mem.calls → Finished s (.cond i) m := by
  rintro ⟨p, i, hstate, hchan, hi, hfinished⟩
  obtain ⟨c, m, hm, hcalls, hwake⟩ :=
    (watched_of_run h).waits p i (.inl ⟨hstate, hchan⟩) hi
  exact hfinished m hm hcalls c p hwake

/-- The hart of a machine with one hart. -/
def onlyHart : Fin 1 := ⟨0, Nat.one_pos⟩

/-- `initproc` falls asleep on a condition, and an interrupt then makes it true. -/
def sleepThenSignal : List (Label 1 Unit) :=
  List.replicate 5 (.step onlyHart true) ++ [.call onlyHart (.sleeper () false)] ++
    List.replicate 6 (.step onlyHart true) ++ [.interrupt onlyHart ()] ++
    List.replicate 2 (.step onlyHart true)

/-- In between, the process sleeps while the condition is true: the call is on its way. -/
theorem no_lost_wakeup_init :
    ∃ s : State 1 Unit Unit, Run slot0 id s ∧ (s.mem.proc slot0).state = .sleeping ∧
      (s.mem.proc slot0).chan = .cond () ∧ s.mem.cond () = true ∧
      ∃ m, s.mem.since () ≤ m ∧ m < s.mem.calls ∧ ¬ Finished s (.cond ()) m := by
  have hrun : ends (exec (machine slot0 id) (initial 1 slot0 fun _ : Unit => false)
      sleepThenSignal) (fun s => (s.mem.proc slot0).state = .sleeping ∧
        (s.mem.proc slot0).chan = .cond () ∧ s.mem.cond () = true) = true := by
    decide +kernel
  obtain ⟨s, hs, hend⟩ := ends_iff.1 hrun
  obtain ⟨hstate, hchan, hcond⟩ := of_decide_eq_true hend
  have hreach : Run slot0 id s := reach_of_exec (.start ⟨_, rfl⟩) (fun _ _ _ => trivial) hs
  refine ⟨s, hreach, hstate, hchan, hcond, ?_⟩
  by_contra hnone
  refine no_lost_wakeup hreach ⟨slot0, (), hstate, hchan, hcond, fun m hm hcalls => ?_⟩
  by_contra hfinished
  exact hnone ⟨m, hm, hcalls, hfinished⟩

end Xv6.Proofs.Sched
