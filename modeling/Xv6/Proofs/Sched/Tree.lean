import Xv6.Proofs.Sched.Steps

/-!
# `Xv6.Proofs.Sched.Tree`: the process tree, and who reaps a zombie

`Tree` says that a parent pointer always leads to a living process. `exit` makes it true of
its own children before it becomes a `ZOMBIE`: the loop of `reparent` leaves no child behind it
(`exiting`), and only the exiting process itself could make a new one. `fork` sets the parent
of its child while the child is `USED`, before it is published (`unset`, `set`).
-/

set_option autoImplicit false

namespace Xv6.Proofs.Sched

open Xv6.Kernel Xv6.Kernel.Sched Xv6.Lib

variable {n : Nat} {ι κ : Type} {init : ProcPtr} {lk : ι → κ} {s t : State n ι κ}

/-! ### Changes of a process -/

/-- The process can run, now or later. -/
def Alive (st : ProcState) : Prop := st = .sleeping ∨ st = .runnable ∨ st = .running

theorem alive_wake {x : Proc ι} : Alive x.wake.state ↔ Alive x.state := by
  unfold Proc.wake
  split
  · rename_i h
    simp [Alive, h]
  · rfl

theorem wake_of_not_alive {x : Proc ι} (h : ¬ Alive x.state) : x.wake = x := by
  unfold Proc.wake
  split
  · rename_i hx
    exact absurd (.inl hx) h
  · rfl

variable {st : Stage}

/-- A stage of `fork` is no state of a living process or a zombie. -/
theorem not_alive_of_stage (h : st ≠ .chosen) :
    ¬ Alive st.state ∧ st.state ≠ .zombie := by
  cases st <;> simp_all [Alive, Stage.state]

variable {p q child : ProcPtr} {qs cs : List ProcPtr} {j : Instr ι κ}

section Instruction

variable [DecidableEq ι] {c : Fin n} {i : Instr ι κ} {k is : List (Instr ι κ)} {ok : Bool}
  {ctl : Control κ}

/-- The slot that the thread of an instruction claims is neither alive nor a zombie. -/
theorem Fires.claimed (h : Fires init lk s t c i k ok ctl is) (hI : Inv lk s)
    (hr : s.running c = some p) (hc : claimOf (i :: k) = some (q, st)) :
    (s.mem.proc q).state = st.state ∧ ¬ Alive (s.mem.proc q).state ∧
      (s.mem.proc q).state ≠ .zombie := by
  rw [← h.code_eq hr] at hc
  have hst : st ≠ .chosen := fun e => hI.not_chosen p q (e ▸ hc)
  have hstate := (hI.claim p q st hc).1
  rw [hstate]
  exact ⟨rfl, not_alive_of_stage hst⟩

/-- The state of a process that performs an instruction of its own. -/
theorem Fires.alive_self (h : Fires init lk s t c i k ok ctl is) (hI : Inv lk s)
    (hr : s.running c = some p) (hi : ∀ q, i ≠ .exitSched q) :
    (s.mem.proc p).state = .running := by
  rcases hI.onHart c p hr with hp | ⟨-, hcode⟩
  · exact hp
  · rw [h.code_eq hr] at hcode
    exact absurd (List.cons.inj hcode).1 (hi p)

/-- Only `exit` ends the life of a process. -/
theorem Fires.alive_kept (h : Fires init lk s t c i k ok ctl is) (hI : Inv lk s) {b : ProcPtr}
    (hb : Alive (s.mem.proc b).state) :
    Alive (t.mem.proc b).state ∨ ∃ st, i = .zombie b st := by
  rcases effect_move h.effect b with hsame | hmove
  · rw [hsame]
    exact .inl hb
  · have hbefore := (h.fits hI).1
    generalize t.mem.proc b = x at hmove
    cases hmove with
    | yield => exact .inl (.inr (.inl rfl))
    | sleep ch => exact .inl (.inl rfl)
    | woken => exact .inl hb
    | wake ch m hch => exact .inl (alive_wake.2 hb)
    | kill pid qs => exact .inl (alive_wake.2 hb)
    | allocPid p => exact absurd hb (h.claimed hI hbefore.1 rfl).2.1
    | forkFail p hok => exact absurd hb (h.claimed hI hbefore.1 rfl).2.1
    | setParent p => exact .inl hb
    | publish => exact .inl (.inr (.inl rfl))
    | reparent p cs hparent => exact .inl hb
    | zombie status => exact .inr ⟨status, rfl⟩
    | reap p cs hz hok =>
      rw [hz] at hb
      simp [Alive] at hb
    | dispatch => exact .inl (.inr (.inr rfl))

/-- A process that is alive or a zombie was so before, or `fork` has just published it. -/
theorem Fires.alive_back (h : Fires init lk s t c i k ok ctl is) (hI : Inv lk s) {b : ProcPtr}
    (hb : Alive (t.mem.proc b).state ∨ (t.mem.proc b).state = .zombie) :
    (Alive (s.mem.proc b).state ∨ (s.mem.proc b).state = .zombie) ∨ i = .publish b := by
  rcases effect_move h.effect b with hsame | hmove
  · rw [hsame] at hb
    exact .inl hb
  · have hbefore := (h.fits hI).1
    generalize t.mem.proc b = x at hmove hb
    cases hmove with
    | yield => exact .inl (.inl (.inr (.inr (h.alive_self hI hbefore.1 (by simp)))))
    | sleep ch => exact .inl (.inl (.inr (.inr (h.alive_self hI hbefore.1 (by simp)))))
    | woken => exact .inl hb
    | wake ch m hch =>
      by_cases ha : Alive (s.mem.proc b).state
      · exact .inl (.inl ha)
      · rw [wake_of_not_alive ha] at hb
        exact .inl hb
    | kill pid qs =>
      by_cases ha : Alive (s.mem.proc b).state
      · exact .inl (.inl ha)
      · rw [wake_of_not_alive (x := { s.mem.proc b with killed := true }) ha] at hb
        exact .inl hb
    | allocPid p => simp [Alive] at hb
    | forkFail p hok => simp [Alive, Proc.free] at hb
    | setParent p => exact .inl hb
    | publish => exact .inr rfl
    | reparent p cs hparent => exact .inl hb
    | zombie status => exact .inl (.inl (.inr (.inr (h.alive_self hI hbefore.1 (by simp)))))
    | reap p cs hz hok => exact .inl (.inr hz)
    | dispatch =>
      have hr := hbefore.1
      have hcur := h.current
      rw [current_of_idle hr] at hcur
      exact .inl (.inl (.inr (.inl (hI.chosen c b k hr hcur))))

/-- Who becomes the parent of a process. -/
theorem Fires.parent_back (h : Fires init lk s t c i k ok ctl is) {x : ProcPtr}
    (hq : (t.mem.proc q).parent = some x) :
    (s.mem.proc q).parent = some x ∨ i = .setParent x q ∨
      x = init ∧ ∃ p cs, i = .reparent p (q :: cs) ∧ (s.mem.proc q).parent = some p := by
  rcases effect_move h.effect q with hsame | hmove
  · rw [hsame] at hq
    exact .inl hq
  · generalize t.mem.proc q = y at hmove hq
    cases hmove with
    | wake ch m hch => exact .inl (by unfold Proc.wake at hq; split at hq <;> exact hq)
    | kill pid qs => exact .inl (by unfold Proc.wake at hq; split at hq <;> exact hq)
    | setParent p =>
      cases hq
      exact .inr (.inl rfl)
    | reparent p cs hparent =>
      cases hq
      exact .inr (.inr ⟨rfl, p, cs, rfl, hparent⟩)
    | forkFail p hok => cases hq
    | reap p cs hz hok => cases hq
    | _ => exact .inl hq

/-- Who loses a parent. -/
theorem Fires.parent_kept (h : Fires init lk s t c i k ok ctl is) {x : ProcPtr}
    (hq : (s.mem.proc q).parent = some x) :
    (t.mem.proc q).parent = some x ∨ (∃ p, i = .setParent p q) ∨
      (∃ cs, i = .reparent x (q :: cs)) ∨ (∃ p, i = .forkMem p q) ∨
      ∃ p cs, i = .waitChild p q cs := by
  rcases effect_move h.effect q with hsame | hmove
  · rw [hsame]
    exact .inl hq
  · generalize t.mem.proc q = y at hmove
    cases hmove with
    | wake ch m hch => exact .inl (by unfold Proc.wake; split <;> exact hq)
    | kill pid qs => exact .inl (by unfold Proc.wake; split <;> exact hq)
    | setParent p => exact .inr (.inl ⟨p, rfl⟩)
    | reparent p cs hparent =>
      rw [hq] at hparent
      cases hparent
      exact .inr (.inr (.inl ⟨cs, rfl⟩))
    | forkFail p hok => exact .inr (.inr (.inr (.inl ⟨p, rfl⟩)))
    | reap p cs hz hok => exact .inr (.inr (.inr (.inr ⟨p, cs, rfl⟩)))
    | _ => exact .inl hq

/-! ### New code -/

omit [DecidableEq ι] in
theorem not_mem_wakeup {me : Option ProcPtr} {ch : Chan ι} {m : Nat}
    (hacq : ∀ q, j ≠ .acquire (.proc q)) (hwake : ∀ q, j ≠ .wake q ch m) :
    j ∉ (wakeup me ch m qs : List (Instr ι κ)) := by
  induction qs with
  | nil => exact List.not_mem_nil
  | cons q qs ih =>
    rw [wakeup]
    split
    · exact ih
    · simp [hacq q, hwake q, ih]

variable {m m' : Shared ι}

/-- Only a call of `exit` brings the instruction that makes a zombie. -/
theorem zombie_not_new (h : effect init lk m ok i = .ok (m', ctl, is)) (p : ProcPtr) (st : Int) :
    .zombie p st ∉ is := by
  have hw : ∀ {me ch r}, .zombie p st ∉ (wakeup me ch r table : List (Instr ι κ)) :=
    not_mem_wakeup (by simp) (by simp)
  cases effect_inv h with
  | reparent p' child cs hparent => simp [hw]
  | wakeParent p' => exact hw
  | signal me j => simp [hw]
  | killNext pid q qs hpid => cases qs <;> simp [Sched.kill]
  | allocNext p' q qs hq => cases qs <;> simp [Sched.fork]
  | waitSleep p' hk => simp [sleep]
  | doze p' j b hj => simp [sleep]
  | _ => simp

theorem effect_setParent (h : effect init lk m ok (.setParent p q) = .ok (m', ctl, is)) :
    m' = m.set q fun t => { t with parent := some p } := by
  cases h
  rfl

/-- The loop of `reparent` goes on behind a process that is no child any more. -/
theorem effect_reparent (h : effect init lk m ok (.reparent p (child :: cs)) = .ok (m', ctl, is)) :
    .reparent p cs ∈ is ∧ (p ≠ init → (m'.proc child).parent ≠ some p) := by
  cases effect_inv h with
  | reparent p child cs hparent =>
    exact ⟨by simp, fun hp => by simpa [Shared.call] using Ne.symm hp⟩
  | reparentNext p child cs hparent => exact ⟨by simp, fun _ => hparent⟩

/-- `wait` looks at a process right after it has found it to be a child. -/
theorem waitChild_new (h : effect init lk m ok i = .ok (m', ctl, is))
    (hmem : .waitChild p child cs ∈ is) :
    (m.proc child).parent = some p ∧ m' = m := by
  have hw : ∀ {me ch r}, .waitChild p child cs ∉ (wakeup me ch r table : List (Instr ι κ)) :=
    not_mem_wakeup (by simp) (by simp)
  cases effect_inv h with
  | waitLook p' b child' cs' hparent =>
    obtain ⟨rfl, rfl, rfl⟩ : p = p' ∧ child = child' ∧ cs = cs' := by simpa using hmem
    exact ⟨hparent, rfl⟩
  | reparent p' child' cs' hparent => simp [hw] at hmem
  | wakeParent p' => exact absurd hmem hw
  | signal me j => simp [hw] at hmem
  | killNext pid q qs hpid => cases qs <;> simp [Sched.kill] at hmem
  | allocNext p' q qs hq => cases qs <;> simp [Sched.fork] at hmem
  | waitSleep p' hk => simp [sleep] at hmem
  | doze p' j b hj => simp [sleep] at hmem
  | _ => simp at hmem

end Instruction

/-! ### The invariant -/

/-- The process tree. -/
structure Tree (init : ProcPtr) (s : State n ι κ) : Prop where
  root : Alive (s.mem.proc init).state
  /-- A parent pointer leads to a living process. -/
  parents : ∀ p q, (s.mem.proc p).parent = some q → Alive (s.mem.proc q).state
  rooted : ∀ p, p ≠ init → Alive (s.mem.proc p).state ∨ (s.mem.proc p).state = .zombie →
    (s.mem.proc p).parent ≠ none
  vacant : ∀ p, (s.mem.proc p).state = .unused → (s.mem.proc p).parent = none
  /-- The child of a `fork` has no parent before `fork` sets it. -/
  unset : ∀ p q st, claimOf (s.code p) = some (q, st) → st ≠ .ready →
    (s.mem.proc q).parent = none
  set : ∀ p q, claimOf (s.code p) = some (q, .ready) → (s.mem.proc q).parent = some p
  /-- The loop of `reparent` leaves no child behind it. -/
  exiting : ∀ p st, .zombie p st ∈ s.code p → p ≠ init ∧
    ((∃ cs, .reparent p cs ∈ s.code p ∧ ∀ q, q ∉ cs → (s.mem.proc q).parent ≠ some p) ∨
      ∀ q, (s.mem.proc q).parent ≠ some p)
  /-- `wait` looks at a child of the caller. -/
  watching : ∀ p child cs, .waitChild p child cs ∈ s.code p →
    (s.mem.proc child).parent = some p

section Instruction

variable [DecidableEq ι] {c : Fin n} {i : Instr ι κ} {k is : List (Instr ι κ)} {ok : Bool}
  {ctl : Control κ}

/-- A process without a parent gets one only from the `fork` that made it. -/
theorem Fires.parent_none (h : Fires init lk s t c i k ok ctl is)
    (hq : (s.mem.proc q).parent = none) (hi : ∀ p, i ≠ .setParent p q) :
    (t.mem.proc q).parent = none := by
  cases hx : (t.mem.proc q).parent with
  | none => rfl
  | some x =>
    rcases h.parent_back hx with h' | h' | ⟨-, p, cs, -, h'⟩
    · rw [hq] at h'
      cases h'
    · exact absurd h' (hi x)
    · rw [hq] at h'
      cases h'

theorem Fires.tree_root (h : Fires init lk s t c i k ok ctl is) (hI : Inv lk s)
    (hT : Tree init s) : Alive (t.mem.proc init).state := by
  rcases h.alive_kept hI hT.root with ha | ⟨st, rfl⟩
  · exact ha
  · have hr := (h.fits hI).1.1
    exact absurd rfl (hT.exiting init st (by rw [h.code_eq hr]; simp)).1

theorem Fires.tree_parents (h : Fires init lk s t c i k ok ctl is) (hI : Inv lk s)
    (hT : Tree init s) (hp : (t.mem.proc p).parent = some q) :
    Alive (t.mem.proc q).state := by
  have hkept : Alive (s.mem.proc q).state → (∀ st, i ≠ .zombie q st) →
      Alive (t.mem.proc q).state := fun ha hi =>
    (h.alive_kept hI ha).resolve_right fun ⟨st, he⟩ => hi st he
  rcases h.parent_back hp with hp' | rfl | ⟨rfl, -⟩
  · refine hkept (hT.parents p q hp') ?_
    -- When `exit` gets to `ZOMBIE`, no process has it as parent.
    rintro st rfl
    obtain ⟨hr, rfl⟩ := (h.fits hI).1
    have hcode := h.code_eq hr
    rcases (hT.exiting q st (by rw [hcode]; simp)).2 with ⟨cs, hmem, -⟩ | hnone
    · rw [hcode] at hmem
      simp at hmem
    · exact hnone p hp'
  · have hr := (h.fits hI).1.1
    exact hkept (.inr (.inr (h.alive_self hI hr (by simp)))) (by simp)
  · exact h.tree_root hI hT

theorem Fires.tree_rooted (h : Fires init lk s t c i k ok ctl is) (hI : Inv lk s)
    (hT : Tree init s) (hp : p ≠ init)
    (hstate : Alive (t.mem.proc p).state ∨ (t.mem.proc p).state = .zombie) :
    (t.mem.proc p).parent ≠ none := by
  have hold : (s.mem.proc p).parent ≠ none := by
    rcases h.alive_back hI hstate with hs | rfl
    · exact hT.rooted p hp hs
    · obtain ⟨p', hr⟩ := Option.ne_none_iff_exists'.1 (h.fits hI).1.1
      rw [hT.set p' p (by rw [h.code_eq hr]; rfl)]
      simp
  obtain ⟨x, hx⟩ := Option.ne_none_iff_exists'.1 hold
  rcases effect_move h.effect p with hsame | hmove
  · rwa [hsame]
  · generalize t.mem.proc p = y at hmove hstate
    cases hmove with
    | wake ch m hch => unfold Proc.wake; split <;> exact hold
    | kill pid qs => unfold Proc.wake; split <;> exact hold
    | setParent p' => simp
    | reparent p' cs hparent => simp
    | forkFail p' hok => simp [Alive, Proc.free] at hstate
    | reap p' cs hz hok => simp [Alive, Proc.free] at hstate
    | _ => exact hold

theorem Fires.tree_vacant (h : Fires init lk s t c i k ok ctl is) (hI : Inv lk s)
    (hT : Tree init s) (hp : (t.mem.proc p).state = .unused) :
    (t.mem.proc p).parent = none := by
  have hb := (h.fits hI).1
  rcases effect_move h.effect p with hsame | hmove
  · rw [hsame] at hp ⊢
    exact hT.vacant p hp
  · generalize t.mem.proc p = y at hmove hp
    cases hmove with
    | woken => exact hT.vacant p hp
    | wake ch m hch =>
      unfold Proc.wake at hp ⊢
      split at hp
      · cases hp
      · rename_i hs
        rw [if_neg hs]
        exact hT.vacant p hp
    | kill pid qs =>
      unfold Proc.wake at hp ⊢
      split at hp
      · cases hp
      · rename_i hs
        rw [if_neg hs]
        exact hT.vacant p hp
    | forkFail p' hok => rfl
    | reap p' cs hz hok => rfl
    | setParent p' =>
      have hused := (h.claimed hI hb.1 rfl).1
      exact absurd (hused.symm.trans hp) (by simp [Stage.state])
    | reparent p' cs hparent =>
      rw [hT.vacant p hp] at hparent
      cases hparent
    | _ => cases hp

/-- The claim of a thread other than the hart's stays. -/
theorem Fires.claim_other (h : Fires init lk s t c i k ok ctl is) (hr : s.running c ≠ some p)
    {x : ProcPtr × Stage} (hc : claimOf (t.code p) = some x) :
    claimOf (s.code p) = some x := by
  rcases h.codeOther p hr with hsame | ⟨-, hfork⟩
  · rwa [hsame] at hc
  · rw [hfork] at hc
    cases hc

/-- The slot that another thread claims is not claimed by the hart's thread. -/
theorem Fires.claim_ne (h : Fires init lk s t c i k ok ctl is) (hI : Inv lk s) {st' : Stage}
    (hr : s.running c ≠ some p) (hc : claimOf (s.code p) = some (q, st))
    (hme : s.running c ≠ none) : claim i ≠ some (q, st') := by
  intro hi
  obtain ⟨p', hp'⟩ := Option.ne_none_iff_exists'.1 hme
  have hc' : claimOf (s.code p') = some (q, st') := by
    rw [h.code_eq hp', claimOf, hi]
    rfl
  exact hr (hI.owner p p' q st st' hc hc' ▸ hp')

theorem Fires.tree_unset (h : Fires init lk s t c i k ok ctl is) (hI : Inv lk s)
    (hT : Tree init s) (hc : claimOf (t.code p) = some (q, st)) (hst : st ≠ .ready) :
    (t.mem.proc q).parent = none := by
  by_cases hr : s.running c = some p
  · rw [h.codeSelf p hr] at hc
    have hcode := h.code_eq hr
    rcases effect_claim (h.fits hI) h.effect hc with ⟨hi, hc'⟩ | ⟨ps, rfl, -, rfl⟩ |
      ⟨p', qs, rfl, hunused, rfl⟩ | ⟨p', rfl, rfl⟩ | ⟨p', rfl, -, rfl⟩ | ⟨p', rfl, rfl⟩
    · refine h.parent_none (hT.unset p q st (by rw [hcode, hc']) hst) ?_
      rintro p' rfl
      cases hi
    · exact absurd (h.fits hI).1.1 (by simp [hr])
    · exact h.parent_none (hT.vacant q hunused) (by simp)
    · exact h.parent_none (hT.unset p q .fresh (by rw [hcode]; rfl) (by simp)) (by simp)
    · exact h.parent_none (hT.unset p q .made (by rw [hcode]; rfl) (by simp)) (by simp)
    · exact absurd rfl hst
  · have hc' := h.claim_other hr hc
    refine h.parent_none (hT.unset p q st hc' hst) ?_
    rintro p' rfl
    have hme := (h.fits hI).1.1
    exact h.claim_ne hI hr hc' (by simp [hme]) rfl

theorem Fires.tree_set (h : Fires init lk s t c i k ok ctl is) (hI : Inv lk s) (hT : Tree init s)
    (hc : claimOf (t.code p) = some (q, .ready)) :
    (t.mem.proc q).parent = some p := by
  have hb := (h.fits hI).1
  by_cases hr : s.running c = some p
  · rw [h.codeSelf p hr] at hc
    have hcode := h.code_eq hr
    rcases effect_claim (h.fits hI) h.effect hc with ⟨hi, hc'⟩ | ⟨ps, -, -, hst⟩ |
      ⟨p', qs, -, -, hst⟩ | ⟨p', -, hst⟩ | ⟨p', -, -, hst⟩ | ⟨p', rfl, -⟩
    · rcases h.parent_kept (hT.set p q (by rw [hcode, hc'])) with hkept | ⟨p', rfl⟩ |
        ⟨cs, rfl⟩ | ⟨p', rfl⟩ | ⟨p', cs, rfl⟩
      · exact hkept
      · cases hi
      · obtain ⟨-, st, rfl⟩ := hb
        cases hc'
      · cases hi
      · obtain ⟨-, rfl⟩ := hb
        cases hc'
    · cases hst
    · cases hst
    · cases hst
    · cases hst
    · obtain rfl : p' = p := by
        have hme := hb.1
        rw [hr] at hme
        exact (Option.some.inj hme).symm
      have hm := effect_setParent h.effect
      rw [hm, set_proc, if_pos rfl]
  · have hc' := h.claim_other hr hc
    rcases h.parent_kept (hT.set p q hc') with hkept | ⟨p', rfl⟩ | ⟨cs, rfl⟩ | ⟨p', rfl⟩ |
      ⟨p', cs, rfl⟩
    · exact hkept
    · exact absurd rfl (h.claim_ne hI hr hc' (by simp [hb.1]))
    · exact absurd hb.1 hr
    · exact absurd rfl (h.claim_ne hI hr hc' (by simp [hb.1]))
    · -- A `wait` that looks at the child would be its parent's.
      have hp' := hT.watching p' q cs (by rw [h.code_eq hb.1]; simp)
      rw [hT.set p q hc'] at hp'
      cases hp'
      exact absurd hb.1 hr

theorem Fires.mem_code (h : Fires init lk s t c i k ok ctl is) (hj : j ∈ t.code p)
    (hfork : j ∉ (forkret p : List (Instr ι κ))) :
    s.running c = some p ∧ (j ∈ is ∨ j ∈ k) ∨
      s.running c ≠ some p ∧ j ∈ s.code p ∧ t.code p = s.code p := by
  by_cases hr : s.running c = some p
  · rw [h.codeSelf p hr] at hj
    exact .inl ⟨hr, List.mem_append.1 hj⟩
  · rcases h.codeOther p hr with hsame | ⟨-, hf⟩
    · exact .inr ⟨hr, by rwa [hsame] at hj, hsame⟩
    · rw [hf] at hj
      exact absurd hj hfork

theorem Fires.tree_exiting (h : Fires init lk s t c i k ok ctl is) (hI : Inv lk s)
    (hT : Tree init s) {st : Int} (hz : .zombie p st ∈ t.code p) :
    p ≠ init ∧
      ((∃ cs, .reparent p cs ∈ t.code p ∧ ∀ q, q ∉ cs → (t.mem.proc q).parent ≠ some p) ∨
        ∀ q, (t.mem.proc q).parent ≠ some p) := by
  have hb := (h.fits hI).1
  -- Nobody becomes a child of an exiting process.
  have hnew : p ≠ init → (∀ q, i ≠ .setParent p q) → ∀ q, (s.mem.proc q).parent ≠ some p →
      (t.mem.proc q).parent ≠ some p := by
    intro hp hi q hq hq'
    rcases h.parent_back hq' with h' | h' | ⟨h', -⟩
    · exact hq h'
    · exact hi q h'
    · exact hp h'
  rcases h.mem_code hz (by simp [forkret]) with ⟨hr, hz' | hz'⟩ | ⟨hr, hz', hcode⟩
  · exact absurd hz' (zombie_not_new h.effect p st)
  · have hcode := h.code_eq hr
    obtain ⟨hp, hleft⟩ := hT.exiting p st (by rw [hcode]; exact List.mem_cons_of_mem i hz')
    have hset : ∀ q, i ≠ .setParent p q := by
      rintro q rfl
      obtain ⟨-, rfl⟩ := hb
      simp at hz'
    refine ⟨hp, ?_⟩
    rw [h.codeSelf p hr]
    rcases hleft with ⟨cs, hmem, hleft⟩ | hnone
    · rw [hcode] at hmem
      rcases List.mem_cons.1 hmem with rfl | hmem
      · cases cs with
        | nil => exact .inr fun q => hnew hp hset q (hleft q List.not_mem_nil)
        | cons child cs =>
          obtain ⟨his, hchild⟩ := effect_reparent h.effect
          refine .inl ⟨cs, List.mem_append_left _ his, fun q hq => ?_⟩
          by_cases hqc : q = child
          · rw [hqc]
            exact hchild hp
          · exact hnew hp hset q (hleft q (by simp [hqc, hq]))
      · exact .inl ⟨cs, List.mem_append_right _ hmem, fun q hq => hnew hp hset q (hleft q hq)⟩
    · exact .inr fun q => hnew hp hset q (hnone q)
  · obtain ⟨hp, hleft⟩ := hT.exiting p st hz'
    have hset : ∀ q, i ≠ .setParent p q := by
      rintro q rfl
      exact hr hb.1
    refine ⟨hp, ?_⟩
    rw [hcode]
    rcases hleft with ⟨cs, hmem, hleft⟩ | hnone
    · exact .inl ⟨cs, hmem, fun q hq => hnew hp hset q (hleft q hq)⟩
    · exact .inr fun q => hnew hp hset q (hnone q)

theorem Fires.tree_watching (h : Fires init lk s t c i k ok ctl is) (hI : Inv lk s)
    (hT : Tree init s) (hw : .waitChild p child cs ∈ t.code p) :
    (t.mem.proc child).parent = some p := by
  have hb := (h.fits hI).1
  rcases h.mem_code hw (by simp [forkret]) with ⟨hr, hw' | hw'⟩ | ⟨hr, hw', -⟩
  · obtain ⟨hparent, hm⟩ := waitChild_new h.effect hw'
    rwa [hm]
  · have hold := hT.watching p child cs (by
      rw [h.code_eq hr]
      exact List.mem_cons_of_mem i hw')
    -- Nothing that takes the parent away has a `wait` behind it.
    rcases h.parent_kept hold with hkept | ⟨p', rfl⟩ | ⟨cs', rfl⟩ | ⟨p', rfl⟩ | ⟨p', cs', rfl⟩
    · exact hkept
    · obtain ⟨-, rfl⟩ := hb
      simp at hw'
    · obtain ⟨-, st, rfl⟩ := hb
      simp at hw'
    · obtain ⟨-, rfl⟩ := hb
      simp at hw'
    · obtain ⟨-, rfl⟩ := hb
      simp at hw'
  · have hold := hT.watching p child cs hw'
    rcases h.parent_kept hold with hkept | ⟨p', rfl⟩ | ⟨cs', rfl⟩ | ⟨p', rfl⟩ | ⟨p', cs', rfl⟩
    · exact hkept
    · have hnone := hT.unset p' child .spawned (by rw [h.code_eq hb.1]; rfl) (by simp)
      rw [hold] at hnone
      cases hnone
    · exact absurd hb.1 hr
    · have hnone := hT.unset p' child .made (by rw [h.code_eq hb.1]; rfl) (by simp)
      rw [hold] at hnone
      cases hnone
    · have hp' := hT.watching p' child cs' (by rw [h.code_eq hb.1]; simp)
      rw [hold] at hp'
      cases hp'
      exact absurd hb.1 hr

theorem Fires.tree (h : Fires init lk s t c i k ok ctl is) (hI : Inv lk s) (hT : Tree init s) :
    Tree init t where
  root := h.tree_root hI hT
  parents _ _ := h.tree_parents hI hT
  rooted _ := h.tree_rooted hI hT
  vacant _ := h.tree_vacant hI hT
  unset _ _ _ := h.tree_unset hI hT
  set _ _ := h.tree_set hI hT
  exiting _ _ := h.tree_exiting hI hT
  watching _ _ _ := h.tree_watching hI hT

end Instruction

/-! ### The other steps -/

variable {c : Fin n}

theorem Pushes.tree {c : Fin n} {k : List (Instr ι κ)} (h : Pushes s t c k) (hT : Tree init s)
    (hclaim : ∀ x, claimOf k = some x → claimOf (s.current c) = some x)
    (hexit : ∀ p st, s.running c = some p → .zombie p st ∈ k → p ≠ init ∧
      ((∃ cs, .reparent p cs ∈ k ∧ ∀ q, q ∉ cs → (s.mem.proc q).parent ≠ some p) ∨
        ∀ q, (s.mem.proc q).parent ≠ some p))
    (hwait : ∀ p child cs, .waitChild p child cs ∈ k → .waitChild p child cs ∈ s.current c) :
    Tree init t := by
  have hcode : ∀ {p x}, claimOf (t.code p) = some x → claimOf (s.code p) = some x := by
    intro p x hx
    rw [h.code] at hx
    split at hx
    · rename_i hr
      rw [← current_of_running hr]
      exact hclaim x hx
    · exact hx
  refine ⟨?_, ?_, ?_, ?_, ?_, ?_, ?_, ?_⟩ <;> rw [h.proc]
  · exact hT.root
  · exact hT.parents
  · exact hT.rooted
  · exact hT.vacant
  · exact fun p q st hc hst => hT.unset p q st (hcode hc) hst
  · exact fun p q hc => hT.set p q (hcode hc)
  · intro p st hz
    rw [h.code] at hz ⊢
    split at hz
    · rename_i hr
      rw [if_pos hr]
      exact hexit p st hr hz
    · rename_i hr
      rw [if_neg hr]
      exact hT.exiting p st hz
  · intro p child cs hw
    rw [h.code] at hw
    split at hw
    · rename_i hr
      refine hT.watching p child cs ?_
      rw [← current_of_running hr]
      exact hwait p child cs hw
    · exact hT.watching p child cs hw

theorem mem_fork (h : j ∈ fork p qs) :
    ∃ q, j = .acquire (.proc q) ∨ ∃ qs, j = .allocAt p q qs := by
  cases qs with
  | nil => cases h
  | cons q qs =>
    rcases List.mem_pair.1 h with hj | hj
    · exact ⟨q, .inl hj⟩
    · exact ⟨q, .inr ⟨qs, hj⟩⟩

theorem mem_kill {pid : Int} (h : j ∈ Sched.kill pid qs) :
    ∃ q, j = .acquire (.proc q) ∨ ∃ qs, j = .killAt pid q qs := by
  cases qs with
  | nil => cases h
  | cons q qs =>
    rcases List.mem_pair.1 h with hj | hj
    · exact ⟨q, .inl hj⟩
    · exact ⟨q, .inr ⟨qs, hj⟩⟩

theorem tree_of_call {f : Call ι} (h : Pushes s t c (f.code lk s.mem p)) (hT : Tree init s)
    (hr : s.running c = some p) (hf : ∀ st, f = .exit st → p ≠ init) : Tree init t := by
  have hw : ∀ {j : Instr ι κ} {ch : Chan ι}, (∀ q, j ≠ .acquire (.proc q)) →
      (∀ q, j ≠ .wake q ch s.mem.calls) → j ∉ wakeup (some p) ch s.mem.calls table :=
    fun hacq hwake => not_mem_wakeup hacq hwake
  refine h.tree hT (fun x hx => ?_) (fun p' st hr' hz => ?_) fun p' child cs hmem => ?_
  · rw [claimOf_call] at hx
    cases hx
  · obtain rfl : p = p' := by
      rw [hr] at hr'
      exact Option.some.inj hr'
    cases f with
    | exit status =>
      -- The whole table is still to be looked at.
      refine ⟨hf status rfl, .inl ⟨table, by simp [Call.code, Sched.exit], fun q hq => ?_⟩⟩
      exact absurd (List.mem_finRange q) hq
    | wakeup ch => exact absurd hz (hw (by simp) (by simp))
    | fork =>
      have hz : .zombie p st ∈ fork p table := hz
      simpa using mem_fork hz
    | kill pid =>
      have hz : .zombie p st ∈ Sched.kill pid table := hz
      simpa using mem_kill hz
    | _ => simp [Call.code, yield, Sched.wait, waker] at hz
  · cases f with
    | wakeup ch => exact absurd hmem (hw (by simp) (by simp))
    | fork =>
      have hmem : .waitChild p' child cs ∈ fork p table := hmem
      simpa using mem_fork hmem
    | kill pid =>
      have hmem : .waitChild p' child cs ∈ Sched.kill pid table := hmem
      simpa using mem_kill hmem
    | _ => simp [Call.code, yield, Sched.exit, Sched.wait, waker] at hmem

theorem tree_of_interrupt {j : ι} (h : Pushes s t c (waker lk (s.running c) j ++ s.current c))
    (hT : Tree init s) :
    Tree init t := by
  refine h.tree hT (fun x hx => hx) (fun p st hr hz => ?_) fun p child cs hmem => ?_
  · have hz' : .zombie p st ∈ s.code p := by
      rw [← current_of_running hr]
      simpa [waker] using hz
    obtain ⟨hp, hleft⟩ := hT.exiting p st hz'
    refine ⟨hp, hleft.imp_left fun ⟨cs, hmem, hcs⟩ => ⟨cs, ?_, hcs⟩⟩
    rw [current_of_running hr]
    exact List.mem_append_right _ hmem
  · simpa [waker] using hmem

theorem tree_initial (cond : ι → Bool) : Tree init (initial n init cond : State n ι κ) := by
  have hparent : ∀ p, ((initial n init cond : State n ι κ).mem.proc p).parent = none := by
    intro p
    show (firstEntry init p).parent = none
    unfold firstEntry
    split <;> rfl
  have hcode : ∀ p, (initial n init cond : State n ι κ).code p = forkret p ∨
      (initial n init cond : State n ι κ).code p = [] := by
    intro p
    by_cases hp : p = init
    · exact .inl (if_pos hp)
    · exact .inr (if_neg hp)
  refine ⟨?_, ?_, ?_, ?_, ?_, ?_, ?_, ?_⟩
  · show Alive (firstEntry init init).state
    simp [firstEntry, Alive]
  · intro p q hq
    rw [hparent] at hq
    cases hq
  · intro p hp hstate
    replace hstate : Alive (firstEntry (ι := ι) init p).state ∨
      (firstEntry (ι := ι) init p).state = .zombie := hstate
    simp [firstEntry, hp, Proc.free, Alive] at hstate
  · exact fun p _ => hparent p
  · exact fun p q st _ _ => hparent q
  · intro p q hc
    rcases hcode p with h | h <;> (rw [h] at hc; cases hc)
  · intro p st hz
    rcases hcode p with h | h <;> simp [h, forkret] at hz
  · intro p child cs hw
    rcases hcode p with h | h <;> simp [h, forkret] at hw

/-- Every run keeps the tree. -/
theorem tree_of_run [DecidableEq ι] [DecidableEq κ] (h : Run init lk s) : Tree init s := by
  refine (@Reach.invariant _ _ _ _ _ _ (fun s => Inv lk s ∧ Tree init s) ?_ ?_ s h).2
  · rintro s ⟨cond, rfl⟩
    exact ⟨inv_initial cond, tree_initial cond⟩
  · rintro s a t ⟨hI, hT⟩ - ht
    refine ⟨inv_of_machine hI ht, ?_⟩
    rcases machine_cases hI ht with ⟨c, ok, i, k, ctl, is, -, h⟩ |
      ⟨c, p, f, -, hr, -, hf, h⟩ | ⟨c, i, -, -, h⟩
    · exact h.tree hI hT
    · exact tree_of_call h hT hr hf
    · exact tree_of_interrupt h hT

end Xv6.Proofs.Sched
