import Xv6.Proofs.LogSys.Steps

/-!
# `Xv6.Proofs.LogSys.Protocol`: commits are isolated from operations

`commit` runs without `log.lock`. What keeps the operations away from it is the pair
`log.outstanding` and `log.comitting` alone. The invariant `Protocol` says what the two
count: the processes inside an operation, and the process in `commit`. It also says that a
commit excludes operations.

The buffer functions and the instructions of `commit` leave the log protocol alone
(`SameLog`), so each case of the invariant is about one critical section of `begin_op` or
`end_op`. `commit_isolation` is the result.
-/

set_option autoImplicit false

namespace Xv6.Proofs.LogSys

open Xv6.Lib
open Xv6.Kernel
open Xv6.Kernel.LogSys

variable {P K : Type}

/-! ### Steps that leave the protocol alone -/

/-- The two states agree on everything but the cache and the flat store. -/
structure SameLog (s s' : State P K) : Prop where
  outstanding : s'.outstanding = s.outstanding
  comitting : s'.comitting = s.comitting
  lh : s'.lh = s.lh
  phase : s'.phase = s.phase
  logged : s'.logged = s.logged

theorem sameLog_setCache (s : State P K) (c : Cache (Agent P K)) : SameLog s (s.setCache c) :=
  ⟨rfl, rfl, rfl, rfl, rfl⟩

variable {dev : Nat} {s s' : State P K}

/-- An instruction of `commit` leaves the protocol alone. -/
theorem execInstr_sameLog [DecidableEq P] [DecidableEq K] {ins : Instr}
    (h : execInstr dev s ins = some (.ok s')) : SameLog s s' := by
  -- Most instructions map the new cache into the old state.
  have hmap : ∀ r : Option (Cache (Agent P K)),
      (r.map fun c => (Except.ok (s.setCache c) : Except LogSys.Panic (State P K))) = some (.ok s') →
      SameLog s s' := by
    intro r hr
    obtain ⟨c, -, hc⟩ := Option.map_eq_some_iff.mp hr
    cases hc
    exact sameLog_setCache s c
  cases ins with
  | get j b =>
    simp only [execInstr] at h
    split at h
    · split at h
      · cases h
        exact sameLog_setCache s _
      · cases h
    · cases h
  | move dst src =>
    obtain ⟨i, -, hi⟩ := Option.bind_eq_some_iff.mp h
    exact hmap _ hi
  | putHead j =>
    obtain ⟨i, -, hi⟩ := Option.bind_eq_some_iff.mp h
    exact hmap _ hi
  | write j =>
    obtain ⟨i, -, hi⟩ := Option.bind_eq_some_iff.mp h
    obtain ⟨c, -, hc⟩ := Option.map_eq_some_iff.mp hi
    cases hc
    exact ⟨rfl, rfl, rfl, rfl, rfl⟩
  | lock j => exact hmap _ h
  | fill j => exact hmap _ h
  | writeHome j => exact hmap _ h
  | unpin j => exact hmap _ h
  | unlock j => exact hmap _ h
  | unref j => exact hmap _ h

/-! ### The invariant -/

/-- The process is in `commit`: it set `log.comitting` and has not cleared it yet. -/
def InCommit : Phase → Prop
  | .committing _ => True
  | _ => False

instance : DecidablePred InCommit
  | .outside => .isFalse id
  | .beginning => .isFalse id
  | .sleeping => .isFalse id
  | .inOp => .isFalse id
  | .committing _ => .isTrue trivial

variable {ph : Phase}

theorem inCommit_iff : InCommit ph ↔ ∃ pc, ph = .committing pc := by
  cases ph <;> simp [InCommit]

/-- `wakeup` moves no process into or out of `commit`. -/
theorem wakeup_committing (s : State P K) (q : P) (pc' : Pc) :
    s.wakeup.phase q = .committing pc' ↔ s.phase q = .committing pc' := by
  show (if s.phase q = .sleeping then .beginning else s.phase q) = .committing pc' ↔ _
  split
  · rename_i hq
    simp [hq]
  · rfl

variable {p : P}

theorem quiet_setPhase [DecidableEq P] {pc' : Pc} {q : Prop}
    (hnone : ∀ r, ¬ InCommit ((s.setPhase p (.committing pc')).phase r)) : q := by
  have hself := hnone p
  simp only [State.setPhase, Function.update_self] at hself
  exact absurd trivial hself

section Count
variable [Fintype P]

/-- What `log.outstanding` and `log.comitting` count. -/
structure Protocol (s : State P K) : Prop where
  outstanding : s.outstanding = countAgents s.phase (· = .inOp)
  committers : countAgents s.phase InCommit = if s.comitting then 1 else 0
  exclusive : s.comitting = true → s.outstanding = 0

/-- The invariant depends on the counters and the phases only. -/
theorem Protocol.congr (h : Protocol s) (hout : s'.outstanding = s.outstanding)
    (hcom : s'.comitting = s.comitting) (hphase : s'.phase = s.phase) : Protocol s' := by
  refine ⟨?_, ?_, ?_⟩
  · rw [hout, hphase]
    exact h.outstanding
  · rw [hphase, hcom]
    exact h.committers
  · rw [hcom, hout]
    exact h.exclusive

theorem Protocol.sameLog (h : Protocol s) (hs : SameLog s s') : Protocol s' :=
  h.congr hs.outstanding hs.comitting hs.phase

theorem protocol_initial (d : Disk) : Protocol (initial d : State P K) := by
  refine ⟨?_, ?_, fun h => by cases h⟩
  · have hzero : countAgents (initial d : State P K).phase (· = .inOp) = 0 :=
      (countAgents_eq_zero _ _).mpr fun p => by simp [initial]
    rw [hzero]
    rfl
  · exact (countAgents_eq_zero _ _).mpr fun p => by simp [initial, InCommit]

/-- `wakeup` turns sleepers into processes at the start of `begin_op`, which neither counter
counts. -/
theorem countAgents_wakeup (s : State P K) (p : Phase → Prop) [DecidablePred p]
    (hp : p .sleeping ↔ p .beginning) : countAgents s.wakeup.phase p = countAgents s.phase p := by
  apply countAgents_congr
  intro q
  show p (if s.phase q = .sleeping then .beginning else s.phase q) ↔ p (s.phase q)
  split
  · rename_i hq
    rw [hq, hp]
  · rfl

/-! ### What follows from the invariant -/

theorem Protocol.one_le_outstanding (h : Protocol s) (hp : s.phase p = .inOp) :
    1 ≤ s.outstanding := by
  have hpos : 0 < countAgents s.phase (· = .inOp) := (countAgents_pos _ _).mpr ⟨p, hp⟩
  rw [h.outstanding]
  exact_mod_cast hpos

/-- While a process is inside an operation nothing commits. -/
theorem Protocol.not_comitting (h : Protocol s) (hp : s.phase p = .inOp) : s.comitting = false := by
  have hone := h.one_le_outstanding hp
  cases hcom : s.comitting with
  | false => rfl
  | true =>
    have hzero := h.exclusive hcom
    omega

/-- Outside of commits no process is in `commit`. -/
theorem Protocol.no_committer (h : Protocol s) (hcom : s.comitting = false) (q : P) :
    ¬ InCommit (s.phase q) := by
  have hzero : countAgents s.phase InCommit = 0 := by
    rw [h.committers, hcom]
    rfl
  exact (countAgents_eq_zero _ _).mp hzero q

/-- A process in `commit` is the only one. -/
theorem Protocol.committer_unique (h : Protocol s) {q : P} (hp : InCommit (s.phase p))
    (hq : InCommit (s.phase q)) : q = p := by
  have hle : countAgents s.phase InCommit ≤ 1 := by
    rw [h.committers]
    split <;> omega
  exact Finset.card_le_one.mp hle q (by simpa using hq) p (by simpa using hp)

/-- While a process is in `commit`, none is inside an operation. -/
theorem Protocol.no_operation (h : Protocol s) (hp : InCommit (s.phase p)) (q : P) :
    s.phase q ≠ .inOp := by
  intro hq
  exact h.no_committer (h.not_comitting hq) p hp

theorem Protocol.exists_committer (h : Protocol s) (hcom : s.comitting = true) :
    ∃ p, InCommit (s.phase p) := by
  apply (countAgents_pos _ _).mp
  rw [h.committers, hcom]
  exact Nat.one_pos

/-! ### The steps -/

variable [DecidableEq P]

/-- The counts after one process moves from phase `ph` to `ph'`. -/
theorem countAgents_setPhase (s : State P K) (p : P) (ph' : Phase) (hp : s.phase p = ph)
    (q : Phase → Prop) [DecidablePred q] :
    countAgents (s.setPhase p ph').phase q + (if q ph then 1 else 0)
      = countAgents s.phase q + (if q ph' then 1 else 0) := by
  have h := countAgents_update s.phase q p ph'
  rw [hp] at h
  exact h

/-- A move between phases that neither counter counts. -/
theorem Protocol.move (h : Protocol s) {ph' : Phase} (hp : s.phase p = ph)
    (hop : ph = .inOp ↔ ph' = .inOp) (hcom : InCommit ph ↔ InCommit ph') :
    Protocol (s.setPhase p ph') := by
  have h₁ := countAgents_setPhase s p ph' hp (· = .inOp)
  have h₂ := countAgents_setPhase s p ph' hp InCommit
  simp only [hop] at h₁
  simp only [hcom] at h₂
  refine ⟨?_, ?_, h.exclusive⟩
  · show s.outstanding = _
    rw [h.outstanding]
    omega
  · show _ = if s.comitting then 1 else 0
    rw [← h.committers]
    omega

/-- The phases after the process in `commit` moved to `pc'`. -/
theorem point_setPhase {pc' : Pc} (hprot : Protocol s)
    (hp : InCommit (s.phase p) ∨ ∀ q, ¬ InCommit (s.phase q)) (q : P) (pc'' : Pc)
    (hq : (s.setPhase p (.committing pc')).phase q = .committing pc'') : pc'' = pc' := by
  by_cases hqp : q = p
  · rw [hqp] at hq
    simp only [State.setPhase, Function.update_self] at hq
    cases hq
    rfl
  · simp only [State.setPhase, Function.update_of_ne hqp] at hq
    have hin : InCommit (s.phase q) := by rw [hq]; trivial
    rcases hp with hp | hnone
    · exact absurd (hprot.committer_unique hp hin) hqp
    · exact absurd hin (hnone q)

variable [DecidableEq K]

variable {sb : Superblock}

/-- Every step keeps the protocol. -/
theorem protocol_step {act : Action P K} (h : Protocol s) (hs : Steps sb dev s act s') :
    Protocol s' := by
  cases hs with
  | callBegin hp => exact h.move hp (by simp) (by simp [InCommit])
  | sleep hp => exact h.move hp (by simp) (by simp [InCommit])
  | wake hp => exact h.move hp (by simp) (by simp [InCommit])
  | @reserve p hp hcom _ =>
    -- One more process is inside an operation, and `outstanding` counts it.
    have h₁ := countAgents_setPhase s p .inOp hp (· = .inOp)
    have h₂ := countAgents_setPhase s p .inOp hp InCommit
    have hout := h.outstanding
    simp [InCommit] at h₁ h₂
    refine ⟨?_, ?_, ?_⟩
    · show s.outstanding + 1 = ((countAgents (s.setPhase p .inOp).phase _ : Nat) : Int)
      omega
    · show countAgents (s.setPhase p .inOp).phase InCommit = _
      rw [h₂]
      exact h.committers
    · intro hc
      rw [show s.comitting = true from hc] at hcom
      cases hcom
  | absorb => exact h.congr rfl rfl rfl
  | pin => exact h.congr rfl rfl rfl
  | @endLast p hp hcom hzero =>
    -- The last process inside an operation becomes the one in `commit`.
    have h₁ := countAgents_setPhase s p (.committing .start) hp (· = .inOp)
    have h₂ := countAgents_setPhase s p (.committing .start) hp InCommit
    have hout := h.outstanding
    have hnone := h.committers
    simp only [hcom, Bool.false_eq_true, if_false] at hnone
    simp [InCommit] at h₁ h₂
    refine ⟨?_, ?_, fun _ => hzero⟩
    · show s.outstanding - 1
        = ((countAgents (s.setPhase p (.committing .start)).phase _ : Nat) : Int)
      omega
    · show countAgents (s.setPhase p (.committing .start)).phase InCommit = 1
      omega
  | @endOther p hp hcom hne =>
    have hmove := countAgents_setPhase s p .outside hp (· = .inOp)
    have hmove' := countAgents_setPhase s p .outside hp InCommit
    have hout := h.outstanding
    simp [InCommit] at hmove hmove'
    refine ⟨?_, ?_, ?_⟩
    · rw [countAgents_wakeup _ _ (by simp)]
      show s.outstanding - 1 = ((countAgents (s.setPhase p .outside).phase _ : Nat) : Int)
      omega
    · rw [countAgents_wakeup _ _ (by simp [InCommit])]
      show countAgents (s.setPhase p .outside).phase InCommit = _
      rw [hmove']
      exact h.committers
    · intro hc
      rw [show s.comitting = true from hc] at hcom
      cases hcom
  | instr hp _ ht =>
    have hsame := execInstr_sameLog ht
    exact (h.sameLog hsame).move (hsame.phase ▸ hp) (by simp) (by simp [InCommit])
  | jump hp _ => exact h.move hp (by simp) (by simp [InCommit])
  | clear hp _ =>
    have hmove : Protocol (s.setPhase _ (.committing (.clearHead 0))) :=
      h.move hp (by simp) (by simp [InCommit])
    exact hmove.congr rfl rfl rfl
  | @finish p hp =>
    -- The only process in `commit` leaves it and clears the flag.
    have h₁ := countAgents_setPhase s p .outside hp (· = .inOp)
    have h₂ := countAgents_setPhase s p .outside hp InCommit
    have hone := h.committers
    simp [InCommit] at h₁ h₂
    refine ⟨?_, ?_, fun hc => by cases hc⟩
    · show s.outstanding = ((countAgents (s.setPhase p .outside).wakeup.phase _ : Nat) : Int)
      rw [countAgents_wakeup _ _ (by simp), h₁]
      exact h.outstanding
    · show countAgents (s.setPhase p .outside).wakeup.phase InCommit = 0
      rw [countAgents_wakeup _ _ (by simp [InCommit])]
      split at hone <;> omega
  | bget => exact h.congr rfl rfl rfl
  | acquiresleep => exact h.congr rfl rfl rfl
  | fill => exact h.congr rfl rfl rfl
  | modify => exact h.congr rfl rfl rfl
  | bwrite => exact h.congr rfl rfl rfl
  | releasesleep => exact h.congr rfl rfl rfl
  | unref => exact h.congr rfl rfl rfl

/-- The protocol holds in every reachable state, whatever the callers do. -/
theorem protocol_reach {allowed : State P K → Action P K → Prop}
    (h : Reach (step sb dev) allowed (fun s => ∃ d, s = initial d) s) :
    Protocol s := by
  refine Reach.invariant ?_ ?_ h
  · rintro s ⟨d, rfl⟩
    exact protocol_initial d
  · intro s act s' hinv _ hs
    exact protocol_step hinv (steps_of_step hs)

/-- Isolation of `commit`, for any number of processes and every interleaving. In every
reachable state `outstanding` counts the processes inside an operation; a set flag means
that none is, and that exactly one process is in `commit`; a `log_write` takes effect only
while no process is in `commit`; and the panics "log.comitting" and "log_write outside of
trans" do not happen. -/
theorem commit_isolation
    (h : Reach (step sb dev) (fun _ _ => True) (fun s => ∃ d, s = initial d) s) :
    s.outstanding = countAgents s.phase (· = .inOp) ∧
    (s.comitting = true → s.outstanding = 0 ∧ ∃! p, InCommit (s.phase p)) ∧
    (∀ p k s', step sb dev s (.logWrite p k) = some (.ok s') →
      s.comitting = false ∧ ∀ q, ¬ InCommit (s.phase q)) ∧
    (∀ act, step sb dev s act ≠ some (.error .comitting) ∧
      step sb dev s act ≠ some (.error .outsideTrans)) := by
  have hinv : Protocol s := protocol_reach h
  refine ⟨hinv.outstanding, ?_, ?_, ?_⟩
  · intro hcom
    obtain ⟨p, hp⟩ := hinv.exists_committer hcom
    exact ⟨hinv.exclusive hcom, p, hp, fun q hq => hinv.committer_unique hp hq⟩
  · intro p k s' hs
    have hp : s.phase p = .inOp := by
      cases steps_of_step hs with
      | absorb hp => exact hp
      | pin hp => exact hp
    have hcom := hinv.not_comitting hp
    exact ⟨hcom, hinv.no_committer hcom⟩
  · intro act
    constructor
    · intro herr
      rcases step_error herr with ⟨p, k, -, -, he, -⟩ | ⟨p, k, -, -, he, -⟩ | ⟨p, -, hp, -, hcom⟩ |
        ⟨p, k, dv, b, -, he⟩ | ⟨p, pc, ins, -, -, he, -⟩
      · cases he
      · cases he
      · -- `end_op` runs inside an operation, so no commit is under way.
        rw [hinv.not_comitting hp] at hcom
        cases hcom
      · cases he
      · cases he
    · intro herr
      rcases step_error herr with ⟨p, k, -, -, he, -⟩ | ⟨p, k, -, hp, -, hout⟩ | ⟨p, -, -, he, -⟩ |
        ⟨p, k, dv, b, -, he⟩ | ⟨p, pc, ins, -, -, he, -⟩
      · cases he
      · have hone := hinv.one_le_outstanding hp
        omega
      · cases he
      · cases he
      · cases he

end Count

/-- A disk of zeros. -/
def zeros : Disk := fun _ => Bytes.zero BSIZE

/-- Two overlapping operations; the second one to end starts the commit. -/
def twoOps : List (LogSys.Action (Fin 2) Unit) :=
  let p : Fin 2 := ⟨0, Nat.two_pos⟩
  let q : Fin 2 := ⟨1, Nat.one_lt_two⟩
  [.callBegin p, .beginOp p, .callBegin q, .beginOp q, .endOp p, .endOp q]

/-- After two overlapping operations the flag is set, and one process is in `commit`. -/
theorem commit_isolation_twoOps : ∃ s : State (Fin 2) Unit,
    exec (step Mkfs.superblock 1) (initial zeros) twoOps = some (.ok s) ∧
      s.comitting = true ∧ s.outstanding = 0 ∧ ∃! p, InCommit (s.phase p) := by
  obtain ⟨s, hs, hcom⟩ : ∃ s : State (Fin 2) Unit,
      exec (step Mkfs.superblock 1) (initial zeros) twoOps = some (.ok s) ∧
        s.comitting = true := ⟨_, rfl, rfl⟩
  exact ⟨s, hs, hcom, (commit_isolation (reach_of_exec (.start ⟨_, rfl⟩) (fun _ _ _ => trivial) hs)).2.1 hcom⟩

end Xv6.Proofs.LogSys
