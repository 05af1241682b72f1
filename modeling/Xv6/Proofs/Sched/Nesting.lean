import Xv6.Kernel.Spinlock

/-!
# `Xv6.Proofs.Sched.Nesting`: the interrupt nesting of one CPU is exact

`At s d b` says where a CPU stands: `d` critical sections are open, and `b` is the
interrupt-enable bit as the outermost `critical_enter` found it. With none open that is the bit
itself; with some open the bit is off and `intr_is_enabled` has `b`. A call moves `d` by its
`delta` and keeps `b`, unless it sets the bit directly (`call_at`). Over a run the depth is then
the number of enters minus that of exits (`run_at`), in whatever order the locks are released.

`nesting` is an `int`. A run that opens `2 ^ 31` sections makes it negative, and the next
`critical_exit` panics (`nesting_overflows`).
-/

set_option autoImplicit false

namespace Xv6.Kernel.Spin

open Lib Lib.Action

variable {s t : State} {d : Int} {b : Bool} {c : Call} {cs p q : List Call}

/-- Started with `d` open sections, the calls never exit more than they entered, and set the
interrupt-enable bit only where none is open. -/
structure Disciplined (d : Int) (cs : List Call) : Prop where
  balanced : ∀ p, p <+: cs → 0 ≤ d + depth p
  intr : ∀ p c, p ++ [c] <+: cs → c.setsIntr = true → d + depth p = 0

/-- Started with `d` open sections, the calls never open `2 ^ 31`. -/
def Shallow (d : Int) (cs : List Call) : Prop :=
  ∀ p c, p ++ [c] <+: cs → c.enters = true → d + depth p + 1 < 2 ^ 31

/-- `d` sections are open, and `b` is the bit that the outermost one found. -/
structure At (s : State) (d : Int) (b : Bool) : Prop where
  nesting : s.mycpu.nesting.toInt = d
  bit : if d = 0 then s.intr = b else s.intr = false ∧ s.mycpu.intrIsEnabled = b

theorem depth_cons : depth (c :: cs) = c.delta + depth cs := rfl

theorem depth_one : depth [c] = c.delta := Int.add_zero _

theorem depth_append : depth (p ++ q) = depth p + depth q := by
  rw [depth, List.map_append, List.sum_append]
  rfl

theorem Disciplined.drop (h : Disciplined d (p ++ q)) : Disciplined (d + depth p) q := by
  constructor
  · intro r hr
    rw [Int.add_assoc, ← depth_append]
    exact h.balanced (p ++ r) ((List.prefix_append_right_inj p).mpr hr)
  · intro r c hr hset
    rw [Int.add_assoc, ← depth_append]
    refine h.intr (p ++ r) c ?_ hset
    rw [List.append_assoc]
    exact (List.prefix_append_right_inj p).mpr hr

theorem Disciplined.of_prefix (h : Disciplined d cs) (hp : p <+: cs) : Disciplined d p :=
  ⟨fun _ hq => h.balanced _ (hq.trans hp), fun _ _ hq => h.intr _ _ (hq.trans hp)⟩

theorem Shallow.drop (h : Shallow d (p ++ q)) : Shallow (d + depth p) q := by
  intro r c hr henter
  rw [Int.add_assoc d, ← depth_append]
  refine h (p ++ r) c ?_ henter
  rw [List.append_assoc]
  exact (List.prefix_append_right_inj p).mpr hr

theorem Shallow.of_prefix (h : Shallow d cs) (hp : p <+: cs) : Shallow d p :=
  fun _ _ hq => h _ _ (hq.trans hp)

/-! ### One call -/

theorem succ_toInt {n : Int32} (hlo : 0 ≤ n.toInt) (hhi : n.toInt + 1 < 2 ^ 31) :
    (n + 1).toInt = n.toInt + 1 := by
  rw [Int32.toInt_add, Int32.toInt_one]
  exact Int.bmod_eq_of_le (by omega) (by omega)

theorem pred_toInt {n : Int32} (hlo : 0 < n.toInt) : (n - 1).toInt = n.toInt - 1 := by
  have hhi := Int32.toInt_lt n
  rw [Int32.toInt_sub, Int32.toInt_one]
  exact Int.bmod_eq_of_le (by omega) (by omega)

theorem zero_iff {n : Int32} : n = 0 ↔ n.toInt = 0 := by
  rw [← Int32.toInt_inj, Int32.toInt_zero]

/-- A critical section is opened. -/
theorem criticalEnter_at {err : Stop → Prop} (h : At s d b) (hd : 0 ≤ d) (hbound : d + 1 < 2 ^ 31) :
    wp criticalEnter (fun _ t => At t (d + 1) b) err s := by
  have hn := h.nesting
  have hsucc := succ_toInt (by rw [hn]; exact hd) (by rw [hn]; exact hbound)
  have hbit := h.bit
  simp only [criticalEnter, intrGet, intrOff, wp_bind, wp_read, wp_modify, wp_when, zero_iff, hn]
  -- Only the outermost section saves the bit.
  constructor
  · intro hzero
    rw [if_pos hzero] at hbit
    exact ⟨by rw [hsucc, hn], by rw [if_neg (by omega)]; exact ⟨rfl, hbit⟩⟩
  · intro hopen
    rw [if_neg hopen] at hbit
    exact ⟨by rw [hsucc, hn], by rw [if_neg (by omega)]; exact ⟨rfl, hbit.2⟩⟩

/-- A critical section is closed; neither check of `critical_exit` fails. -/
theorem criticalExit_at {err : Stop → Prop} (h : At s d b) (hd : 0 < d) :
    wp criticalExit (fun _ t => At t (d - 1) b) err s := by
  have hn := h.nesting
  have hpred := pred_toInt (by rw [hn]; exact hd)
  have hbit := h.bit
  rw [if_neg (by omega)] at hbit
  have hone : ¬ s.mycpu.nesting < 1 := by
    rw [Int32.lt_iff_toInt_lt, Int32.toInt_one, hn]
    omega
  simp only [criticalExit, intrGet, intrOn, wp_bind, wp_read, wp_modify, wp_when, wp_fail, hbit.1,
    hbit.2, hone, Bool.false_eq_true, false_implies, not_false_eq_true, true_implies, true_and,
    zero_iff, hpred, hn]
  -- Only the last exit restores the bit.
  constructor
  · rintro ⟨hlast, hb⟩
    exact ⟨by rw [hpred, hn], by rw [if_pos hlast, hb]⟩
  · intro hmore
    refine ⟨by rw [hpred, hn], ?_⟩
    split
    · rename_i hlast
      cases b with
      | false => rfl
      | true => exact absurd ⟨hlast, rfl⟩ hmore
    · exact ⟨rfl, rfl⟩

/-- The locks play no part in where the CPU stands. -/
theorem At.setLock (h : At s d b) {lk : Nat} {v : Spinlock} :
    At { s with lock := Function.update s.lock lk v } d b := ⟨h.nesting, h.bit⟩

theorem At.add_zero (h : At s d b) : At s (d + 0) b := by
  rwa [Int.add_zero]

/-- The call ends in no panic of `critical_exit`. -/
def NotInExit (e : Stop) : Prop := e ≠ .interruptible ∧ e ≠ .unmatched

theorem call_at (h : At s d b) (hd : 0 ≤ d) (hbal : 0 ≤ d + c.delta)
    (hset : c.setsIntr = true → d = 0) (hbound : c.enters = true → d + 1 < 2 ^ 31) :
    wp c.run (fun _ t => ∃ b', At t (d + c.delta) b' ∧ (c.setsIntr = false → b' = b))
      NotInExit s := by
  cases c with
  | criticalEnter =>
    exact wp_post (criticalEnter_at h hd (hbound rfl)) fun _ _ ht => ⟨b, ht, fun _ => rfl⟩
  | criticalExit =>
    have hpos : 0 < d := by
      have : 0 ≤ d + -1 := hbal
      omega
    exact wp_post (criticalExit_at h hpos) fun _ _ ht => ⟨b, ht, fun _ => rfl⟩
  | acquire lk =>
    refine wp_bind.mpr (wp_post (criticalEnter_at h hd (hbound rfl)) fun _ t ht => ?_)
    simp only [holding, wp_bind, wp_read, wp_when, wp_fail, Spin.setLock, wp_modify]
    refine ⟨fun _ => by simp [NotInExit], fun _ => ⟨fun _ => by simp [NotInExit], fun _ => ?_⟩⟩
    exact ⟨b, ht.setLock, fun _ => rfl⟩
  | release lk =>
    have hpos : 0 < d := by
      have : 0 ≤ d + -1 := hbal
      omega
    simp only [Call.run, release, holding, wp_bind, wp_read, wp_when, wp_fail, Spin.setLock,
      wp_modify]
    refine ⟨fun _ => by simp [NotInExit], fun _ => ?_⟩
    exact wp_post (criticalExit_at h.setLock hpos) fun _ _ ht => ⟨b, ht, fun _ => rfl⟩
  | myproc =>
    simp only [Call.run, myproc, wp_bind, wp_pure]
    refine wp_post (criticalEnter_at h hd (hbound rfl)) fun _ t ht => ?_
    rw [wp_read]
    refine wp_post (criticalExit_at ht (by omega)) fun _ u hu => ⟨b, ?_, fun _ => rfl⟩
    rw [Int.add_sub_cancel] at hu
    exact hu.add_zero
  | intrOn =>
    exact ⟨true, At.add_zero ⟨h.nesting, by rw [if_pos (hset rfl)]⟩, fun hn => by cases hn⟩
  | intrOff =>
    exact ⟨false, At.add_zero ⟨h.nesting, by rw [if_pos (hset rfl)]⟩, fun hn => by cases hn⟩
  | elsewhere lk v =>
    simp only [Call.run, elsewhere, holding, wp_bind, wp_read, wp_when, Spin.setLock, wp_modify]
    exact ⟨fun _ => ⟨b, h.setLock.add_zero, fun _ => rfl⟩, fun _ => ⟨b, h.add_zero, fun _ => rfl⟩⟩

/-! ### A run -/

/-- What one call does to where the CPU stands, the list of calls does. -/
theorem run_at (h : At s d b) (hc : Disciplined d cs) (hb : Shallow d cs) :
    (∀ t, Lib.exec calls s cs = some (.ok t) →
      ∃ b', At t (d + depth cs) b' ∧ ((∀ c ∈ cs, c.setsIntr = false) → b' = b)) ∧
    ∀ e, Lib.exec calls s cs = some (.error e) → NotInExit e := by
  induction cs generalizing s d b with
  | nil =>
    constructor
    · intro t ht
      obtain rfl : s = t := by simpa [Lib.exec] using ht
      exact ⟨b, h.add_zero, fun _ => rfl⟩
    · intro e he
      simp [Lib.exec] at he
  | cons c cs ih =>
    have hpre : [] ++ [c] <+: c :: cs := List.prefix_append [c] cs
    have hd : 0 ≤ d := by simpa [depth] using hc.balanced [] List.nil_prefix
    have hstep := call_at h hd (by simpa [depth] using hc.balanced [c] hpre)
      (fun hs => by simpa [depth] using hc.intr [] c hpre hs)
      (fun hs => by simpa [depth] using hb [] c hpre hs)
    rw [Lib.exec]
    cases hm : calls s c with
    | none => simp [calls, machine] at hm
    | some r =>
      cases r with
      | error e' =>
        constructor
        · intro t ht
          simp at ht
        · intro e he
          obtain rfl : e' = e := by simpa using he
          exact machine_error hstep hm
      | ok u =>
        obtain ⟨b₁, hu, hkeep⟩ := machine_ok hstep hm
        rw [← @depth_one c] at hu
        obtain ⟨hret, herr⟩ := ih hu hc.drop hb.drop
        refine ⟨fun t ht => ?_, herr⟩
        obtain ⟨b₂, hat, hkeep₂⟩ := hret t ht
        rw [Int.add_assoc, depth_one, ← depth_cons] at hat
        refine ⟨b₂, hat, fun hall => ?_⟩
        rw [hkeep₂ fun c' hc' => hall c' (List.mem_cons_of_mem c hc'),
          hkeep (hall c List.mem_cons_self)]

/-- In every run of calls that never exit more than they entered, of any order and with fewer
than `2 ^ 31` sections open: no check of `critical_exit` fails, `nesting` is the number of open
sections, interrupts are off while there is one, and from a point with none open to a later one
the interrupt-enable bit is as it was, unless it was set directly in between. -/
theorem nesting_exact (s : State) (cs : List Call) (hstart : s.mycpu.nesting = 0)
    (hc : Disciplined 0 cs) (hb : Shallow 0 cs) :
    (∀ e, Lib.exec calls s cs = some (.error e) → e ≠ .interruptible ∧ e ≠ .unmatched) ∧
    ∀ p, p <+: cs → ∀ t, Lib.exec calls s p = some (.ok t) →
      t.mycpu.nesting.toInt = depth p ∧ (0 < t.mycpu.nesting → t.intr = false) ∧
      ∀ q mid u, p = q ++ mid → Lib.exec calls s q = some (.ok u) → u.mycpu.nesting = 0 →
        t.mycpu.nesting = 0 → (∀ c ∈ mid, c.setsIntr = false) → t.intr = u.intr := by
  have hat : At s 0 s.intr := ⟨zero_iff.mp hstart, rfl⟩
  constructor
  · intro e he
    exact (run_at hat hc hb).2 e he
  · intro p hp t ht
    have hdisc := hc.of_prefix hp
    have hshallow := hb.of_prefix hp
    obtain ⟨b, hb', -⟩ := (run_at hat hdisc hshallow).1 t ht
    rw [Int.zero_add] at hb'
    refine ⟨hb'.nesting, fun hpos => ?_, ?_⟩
    · have hopen : depth p ≠ 0 := by
        rw [← hb'.nesting]
        exact Int.ne_of_gt (Int32.lt_iff_toInt_lt.mp hpos)
      have hbit := hb'.bit
      rw [if_neg hopen] at hbit
      exact hbit.1
    · rintro q mid u rfl hu hqz htz hmid
      -- The rest of the run starts where no section is open, so it keeps the bit it found.
      obtain ⟨bq, hq, -⟩ := (run_at hat (hdisc.of_prefix (List.prefix_append q mid))
        (hshallow.of_prefix (List.prefix_append q mid))).1 u hu
      have hsec : At u (0 + depth q) u.intr := by
        have hzero : 0 + depth q = 0 := by rw [← hq.nesting, zero_iff.mp hqz]
        rw [hzero]
        exact ⟨zero_iff.mp hqz, rfl⟩
      rw [exec_append hu] at ht
      obtain ⟨bt, hbt, hkeep⟩ := (run_at hsec hdisc.drop hshallow.drop).1 t ht
      have hbit := hbt.bit
      rw [if_pos (by rw [← hbt.nesting, zero_iff.mp htz]), hkeep hmid] at hbit
      exact hbit

/-- A CPU that holds nothing. -/
def fresh (on : Bool) : State := ⟨0, ⟨none, 0, false⟩, on, fun _ => ⟨false, none⟩⟩

/-- Two locks, released in the order they were taken. -/
def crossed : List Call := [.acquire 0, .acquire 1, .release 0, .release 1]

theorem nesting_exact_crossed :
    ∃ t, Lib.exec calls (fresh true) crossed = some (.ok t) ∧ t.mycpu.nesting.toInt = 0 ∧
      t.intr = true := by
  obtain ⟨t, ht, hclosed⟩ := ends_iff.mp (by decide :
    ends (Lib.exec calls (fresh true) crossed) (fun t => decide (t.mycpu.nesting = 0)) = true)
  have hinits : ∀ p, p <+: crossed → 0 ≤ 0 + depth p ∧ 0 + depth p + 1 < 2 ^ 31 := by
    intro p hp
    have hall : ∀ p ∈ crossed.inits, 0 ≤ 0 + depth p ∧ 0 + depth p + 1 < 2 ^ 31 := by decide
    exact hall p (List.mem_inits p crossed |>.mpr hp)
  have hset : ∀ c ∈ crossed, c.setsIntr = false := by decide
  have hrun := (nesting_exact (fresh true) crossed rfl
    ⟨fun p hp => (hinits p hp).1, fun p c hp hc => by
      rw [hset c (hp.subset (List.mem_append_right p List.mem_cons_self))] at hc
      cases hc⟩
    fun p c hp _ => (hinits p ((List.prefix_append p [c]).trans hp)).2).2 crossed
    (List.prefix_rfl) t ht
  exact ⟨t, ht, hrun.1,
    hrun.2.2 [] crossed (fresh true) rfl rfl rfl (of_decide_eq_true hclosed) hset⟩

/-! ### The depth that does not fit -/

theorem depth_replicate (n : Nat) : depth (List.replicate n .criticalEnter) = n := by
  induction n with
  | zero => rfl
  | succ n ih =>
    rw [List.replicate_succ, depth_cons, ih, Call.delta]
    omega

/-- `critical_enter` always returns. -/
theorem criticalEnter_returns (s : State) :
    ∃ t, calls s .criticalEnter = some (.ok t) ∧ t.mycpu.nesting = s.mycpu.nesting + 1 ∧
      t.intr = false := by
  have hwp : wp criticalEnter (fun _ t => t.mycpu.nesting = s.mycpu.nesting + 1 ∧ t.intr = false)
      (fun _ => False) s := by
    simp [criticalEnter, intrGet, intrOff]
  obtain ⟨u, t, ht, hpost⟩ := wp_returns hwp fun _ h => h
  exact ⟨t, by rw [calls, machine, Call.run, ht], hpost⟩

theorem exec_enters (n : Nat) (s : State) (hs : s.intr = false) :
    ∃ t, Lib.exec calls s (List.replicate n .criticalEnter) = some (.ok t) ∧
      t.mycpu.nesting = s.mycpu.nesting + Int32.ofNat n ∧ t.intr = false := by
  induction n generalizing s with
  | zero => exact ⟨s, rfl, by simp, hs⟩
  | succ n ih =>
    obtain ⟨u, hu, hun, hui⟩ := criticalEnter_returns s
    obtain ⟨t, ht, htn, hti⟩ := ih u hui
    refine ⟨t, by rw [List.replicate_succ, Lib.exec, hu]; exact ht, ?_, hti⟩
    rw [htn, hun, Int32.ofNat_add, Int32.add_assoc, Int32.add_comm 1]
    rfl

/-- `2 ^ 31` enters and one exit are balanced, but the exit panics: `nesting` is negative. -/
theorem nesting_overflows :
    Disciplined 0 (List.replicate (2 ^ 31) .criticalEnter ++ [.criticalExit]) ∧
      Lib.exec calls (fresh false) (List.replicate (2 ^ 31) .criticalEnter ++ [.criticalExit])
        = some (.error .unmatched) := by
  generalize hn : 2 ^ 31 = n
  constructor
  · constructor
    · intro p hp
      rcases List.prefix_concat_iff.mp hp with hall | hsome
      · rw [hall, depth_append, depth_replicate, depth_one, Call.delta]
        omega
      · rw [(List.prefix_replicate_iff.mp hsome).2, depth_replicate]
        omega
    · intro p c hp hset
      have hmem : c ∈ List.replicate n Call.criticalEnter ++ [.criticalExit] :=
        hp.subset (List.mem_append_right p List.mem_cons_self)
      rcases List.mem_append.mp hmem with henter | hexit
      · rw [List.eq_of_mem_replicate henter] at hset
        cases hset
      · rw [List.mem_singleton.mp hexit] at hset
        cases hset
  · obtain ⟨t, ht, htn, hti⟩ := exec_enters n (fresh false) rfl
    have hneg : t.mycpu.nesting < 1 := by
      rw [htn, ← hn]
      decide
    have hwp : wp criticalExit (fun _ _ => False) (· = .unmatched) t := by
      simp [criticalExit, intrGet, hti, hneg]
    rw [exec_append ht, Lib.exec, calls, machine, Call.run]
    cases hx : criticalExit t with
    | ok r => exact (wp_ok hwp hx).elim
    | error e => rw [wp_error hwp hx]

end Xv6.Kernel.Spin
