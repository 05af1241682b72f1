import Xv6.Proofs.LogSys.Refine

/-!
# `Xv6.Proofs.LogSys.Budget`: the reservation of `begin_op`

Operations that bracket their work and log at most `MAXOPBLOCKS` distinct blocks each
(`Bracketed`) keep the log within its limits: the blocks in the header and the blocks that
the running operations may still log fit into `LOGBLOCKS` together (`Budget.room`). The
admission test of `begin_op` establishes it, and a `log_write` of a new block uses up one
block of the operation's own reservation.

The same operations hold no buffer outside of their brackets, so during a commit nobody but
`commit` uses the cache (`Budget.busy`).
-/

set_option autoImplicit false

namespace Xv6.Proofs.LogSys

open Xv6.Lib
open Xv6.Kernel
open Xv6.Kernel.LogSys
open Xv6.Proofs.Cache

variable {P K : Type}

/-- Operations that bracket their work: buffers of the log's device are used inside an
operation only and given back before `end_op`, and each operation logs at most `MAXOPBLOCKS`
distinct blocks, none of them in the log area. -/
def Bracketed (sb : Superblock) (dev : Nat) (s : State P K) : Action P K → Prop
  | .bget p _ dv _ => s.phase p = .inOp ∧ dv = dev
  | .logWrite p k => ∀ i d, s.cache.uses (.inl (p, k)) = .held i d →
      ¬ Log.LogArea sb (s.cache.bufs i).blockno ∧
        (Log.absorb (s.logged p) (s.cache.bufs i).blockno).length ≤ MAXOPBLOCKS
  | .endOp p => ∀ k, s.cache.uses (.inl (p, k)) = .idle
  | _ => True

instance [Fintype K] (sb : Superblock) (dev : Nat) (s : State P K) (act : Action P K) :
    Decidable (Bracketed sb dev s act) :=
  match act with
  | .bget p _ dv _ => inferInstanceAs (Decidable (s.phase p = .inOp ∧ dv = dev))
  | .logWrite p k => inferInstanceAs (Decidable (∀ i d, s.cache.uses (.inl (p, k)) = .held i d →
      ¬ Log.LogArea sb (s.cache.bufs i).blockno ∧
        (Log.absorb (s.logged p) (s.cache.bufs i).blockno).length ≤ MAXOPBLOCKS))
  | .endOp p => inferInstanceAs (Decidable (∀ k, s.cache.uses (.inl (p, k)) = .idle))
  | .callBegin _ => .isTrue trivial
  | .beginOp _ => .isTrue trivial
  | .wake _ => .isTrue trivial
  | .commit _ => .isTrue trivial
  | .finish _ => .isTrue trivial
  | .acquiresleep _ _ => .isTrue trivial
  | .fill _ _ => .isTrue trivial
  | .modify _ _ _ => .isTrue trivial
  | .bwrite _ _ => .isTrue trivial
  | .releasesleep _ _ => .isTrue trivial
  | .unref _ _ => .isTrue trivial

/-- The blocks that a process may still log. -/
def unused (ph : Phase) (logged : List Nat) : Nat :=
  if ph = .inOp then MAXOPBLOCKS - logged.length else 0

/-- The log keeps to the reservations. -/
structure Budget [Fintype P] (s : State P K) : Prop where
  busy : ∀ p k, s.cache.uses (.inl (p, k)) ≠ .idle → s.phase p = .inOp
  logged : ∀ p, s.phase p = .inOp → ∀ b ∈ s.logged p, b ∈ s.lh
  room : s.lh.length + ∑ p, unused (s.phase p) (s.logged p) ≤ LOGBLOCKS
  cleared : ∀ p k, s.phase p = .committing (.clearHead k) → s.lh = []

section Steps

variable [Fintype P] {s s' : State P K}

theorem Budget.length_le (h : Budget s) : s.lh.length ≤ LOGBLOCKS :=
  Nat.le_trans (Nat.le_add_right _ _) h.room

theorem budget_initial (d : Disk) : Budget (initial d : State P K) := by
  refine ⟨?_, ?_, ?_, ?_⟩
  · intro p k hne
    exact absurd rfl hne
  · intro p hp
    cases hp
  · have hzero : ∀ p, unused ((initial d : State P K).phase p) ((initial d : State P K).logged p)
        = 0 := fun p => if_neg (by simp [initial])
    rw [Finset.sum_eq_zero fun p _ => hzero p]
    exact Nat.zero_le _
  · intro p k hp
    cases hp

/-- The budget after a step on the cache, by `commit` or by a process inside an operation. -/
theorem Budget.cache (h : Budget s) {t : State P K} (hlh : t.lh = s.lh)
    (hphase : t.phase = s.phase) (hlogged : t.logged = s.logged)
    (huses : ∀ p k, t.cache.uses (.inl (p, k)) ≠ .idle →
      s.cache.uses (.inl (p, k)) ≠ .idle ∨ s.phase p = .inOp) : Budget t := by
  refine ⟨?_, ?_, ?_, ?_⟩
  · intro p k hne
    rw [hphase]
    rcases huses p k hne with hold | hp
    · exact h.busy p k hold
    · exact hp
  · rw [hphase, hlogged, hlh]
    exact h.logged
  · rw [hphase, hlogged, hlh]
    exact h.room
  · rw [hphase, hlh]
    exact h.cleared

/-- A step of the agent `(p, k)` that had a buffer already. -/
theorem Budget.client (h : Budget s) {c : Cache (Agent P K)} {store : Disk} {p : P} {k : K}
    (hkeep : Keeps s.cache c (.inl (p, k))) (hp : s.phase p = .inOp) :
    Budget { s with cache := c, store := store } := by
  refine h.cache rfl rfl rfl ?_
  intro p' k' hne
  by_cases hsame : (p', k') = (p, k)
  · cases hsame
    exact Or.inr hp
  · left
    rw [← hkeep.others (.inl (p', k')) (by simpa using hsame)]
    exact hne

theorem Budget.wakeup (h : Budget s) : Budget s.wakeup := by
  -- Sleepers have no reservation, before and after.
  have hin : ∀ q, s.wakeup.phase q = .inOp ↔ s.phase q = .inOp := fun q => by
    show (if s.phase q = .sleeping then .beginning else s.phase q) = .inOp ↔ _
    split
    · rename_i hq
      simp [hq]
    · rfl
  refine ⟨fun q k hne => (hin q).mpr (h.busy q k hne), fun q hq => h.logged q ((hin q).mp hq), ?_,
    fun q k hq => h.cleared q k ((wakeup_committing s q _).mp hq)⟩
  have hsum : ∀ q, unused (s.wakeup.phase q) (s.wakeup.logged q)
      = unused (s.phase q) (s.logged q) := fun q => by
    simp only [unused, hin q]
    rfl
  rw [Finset.sum_congr rfl fun q _ => hsum q]
  exact h.room

/-- Bracketed operations are polite: they write to the disk while nothing is in flight. -/
theorem Budget.polite {sb : Superblock} {dev : Nat} {act : Action P K} (hprot : Protocol s) (h : Budget s)
    (hall : Bracketed sb dev s act) : Polite sb dev s act := by
  cases act with
  | bget p k dv b => exact hall.2
  | logWrite p k => exact fun i d hu => (hall i d hu).1
  | bwrite p k =>
    rintro i d hu ⟨q, pc, t, hq, -⟩
    have hp := h.busy p k (by rw [hu]; simp)
    exact hprot.no_committer (hprot.not_comitting hp) q (by rw [hq]; trivial)
  | _ => trivial

variable [DecidableEq P]

/-- A process moves to a phase outside of an operation. An operation that ends has given its
buffers back. -/
theorem Budget.move (h : Budget s) {t : State P K} {p : P} {ph ph' : Phase}
    (hp : s.phase p = ph) (hidle : ph = .inOp → ∀ k, s.cache.uses (.inl (p, k)) = .idle)
    (hph' : ph' ≠ .inOp) (hclear : ∀ k, ph' = .committing (.clearHead k) → s.lh = [])
    (hcache : t.cache = s.cache) (hlh : t.lh = s.lh) (hlogged : t.logged = s.logged)
    (hphase : t.phase = (s.setPhase p ph').phase) : Budget t := by
  have hself : t.phase p = ph' := by
    rw [hphase]
    exact Function.update_self ..
  have hof : ∀ q, q ≠ p → t.phase q = s.phase q := fun q hq => by
    rw [hphase]
    exact Function.update_of_ne hq _ _
  refine ⟨?_, ?_, ?_, ?_⟩
  · intro q k hne
    rw [hcache] at hne
    have hq := h.busy q k hne
    have hqp : q ≠ p := by
      rintro rfl
      exact hne (hidle (hp.symm.trans hq) k)
    rw [hof q hqp]
    exact hq
  · intro q hq
    have hqp : q ≠ p := by
      rintro rfl
      exact hph' (hself.symm.trans hq)
    rw [hof q hqp] at hq
    rw [hlogged, hlh]
    exact h.logged q hq
  · -- `p` has no reservation now.
    have hsum : ∀ q, unused (t.phase q) (t.logged q) ≤ unused (s.phase q) (s.logged q) := by
      intro q
      by_cases hqp : q = p
      · rw [hqp, hself, unused, if_neg hph']
        exact Nat.zero_le _
      · rw [hof q hqp, hlogged]
    have hle := Finset.sum_le_sum fun q (_ : q ∈ Finset.univ) => hsum q
    have hroom := h.room
    rw [hlh]
    omega
  · intro q k hq
    rw [hlh]
    by_cases hqp : q = p
    · rw [hqp] at hq
      exact hclear k (hself.symm.trans hq)
    · rw [hof q hqp] at hq
      exact h.cleared q k hq

/-- The admission test of `begin_op` makes room for a whole reservation. -/
theorem Budget.reserve (hprot : Protocol s) (h : Budget s) {p : P}
    (hp : s.phase p = .beginning)
    (hroom : (s.lh.length : Int) + (s.outstanding + 1) * MAXOPBLOCKS ≤ LOGBLOCKS) :
    Budget { s.setPhase p .inOp with
      outstanding := s.outstanding + 1, logged := Function.update s.logged p [] } := by
  have hof : ∀ q, q ≠ p → (s.setPhase p .inOp).phase q = s.phase q := fun q hq =>
    Function.update_of_ne hq _ _
  have hself : (s.setPhase p .inOp).phase p = .inOp := Function.update_self ..
  refine ⟨?_, ?_, ?_, ?_⟩
  · intro q k hne
    show (s.setPhase p .inOp).phase q = .inOp
    by_cases hqp : q = p
    · rw [hqp]
      exact hself
    · rw [hof q hqp]
      exact h.busy q k hne
  · intro q hq b hb
    by_cases hqp : q = p
    · simp [hqp] at hb
    · simp only [Function.update_of_ne hqp] at hb
      exact h.logged q ((hof q hqp).symm.trans hq) b hb
  · -- Every operation has at most a whole reservation, and `outstanding` counts them.
    have hle : ∑ q, unused ((s.setPhase p .inOp).phase q) (Function.update s.logged p [] q)
        ≤ countAgents (s.setPhase p .inOp).phase (· = .inOp) * MAXOPBLOCKS := by
      apply sum_le_countAgents
      intro q
      unfold unused
      split
      · exact Nat.sub_le _ _
      · exact Nat.le_refl _
    have hcount := countAgents_setPhase s p .inOp hp (· = .inOp)
    simp only [reduceCtorEq, if_false, if_true] at hcount
    have hout := hprot.outstanding
    have hint : ((s.lh.length
        + countAgents (s.setPhase p .inOp).phase (· = .inOp) * MAXOPBLOCKS : Nat) : Int)
        ≤ (LOGBLOCKS : Nat) := by
      push_cast
      rw [show ((countAgents (s.setPhase p .inOp).phase (· = .inOp) : Nat) : Int)
        = s.outstanding + 1 by omega]
      exact hroom
    show s.lh.length
      + ∑ q, unused ((s.setPhase p .inOp).phase q) (Function.update s.logged p [] q) ≤ LOGBLOCKS
    omega
  · intro q k hq
    by_cases hqp : q = p
    · rw [hqp, show ({ s.setPhase p .inOp with
          outstanding := s.outstanding + 1, logged := Function.update s.logged p [] } :
            State P K).phase p = .inOp from hself] at hq
      cases hq
    · exact h.cleared q k ((hof q hqp).symm.trans hq)

/-- A `log_write` takes a new block of the log from the reservation of its operation. -/
theorem Budget.record (hprot : Protocol s) (h : Budget s) {t : State P K} {p : P} {b : Nat}
    (hp : s.phase p = .inOp) (hbound : (Log.absorb (s.logged p) b).length ≤ MAXOPBLOCKS)
    (huses : ∀ q k, t.cache.uses (.inl (q, k)) ≠ .idle →
      s.cache.uses (.inl (q, k)) ≠ .idle ∨ s.phase q = .inOp)
    (hlh : t.lh = Log.absorb s.lh b) (hphase : t.phase = s.phase)
    (hlogged : t.logged = Function.update s.logged p (Log.absorb (s.logged p) b)) :
    Budget t := by
  have hmono : ∀ x ∈ s.lh, x ∈ t.lh := fun x hx => by
    rw [hlh, Log.absorb]
    split
    · exact hx
    · exact List.mem_append.mpr (Or.inl hx)
  have hb : b ∈ t.lh := by
    rw [hlh, Log.absorb]
    split
    · assumption
    · simp
  refine ⟨?_, ?_, ?_, ?_⟩
  · intro q k hne
    rw [hphase]
    rcases huses q k hne with hold | hq
    · exact h.busy q k hold
    · exact hq
  · intro q hq x hx
    rw [hphase] at hq
    rw [hlogged] at hx
    by_cases hqp : q = p
    · subst hqp
      rw [Function.update_self, Log.absorb] at hx
      split at hx
      · exact hmono x (h.logged q hq x hx)
      · rcases List.mem_append.mp hx with hx | hx
        · exact hmono x (h.logged q hq x hx)
        · rw [List.mem_singleton.mp hx]
          exact hb
    · rw [Function.update_of_ne hqp] at hx
      exact hmono x (h.logged q hq x hx)
  · have hsum := sum_of_eq_off (f := fun q => unused (s.phase q) (s.logged q))
      (g := fun q => unused (t.phase q) (t.logged q)) (a := p)
      fun q hq => by simp only [hphase, hlogged, Function.update_of_ne hq]
    have hold : unused (s.phase p) (s.logged p) = MAXOPBLOCKS - (s.logged p).length := if_pos hp
    have hnew : unused (t.phase p) (t.logged p)
        = MAXOPBLOCKS - (Log.absorb (s.logged p) b).length := by
      rw [hphase, hlogged, Function.update_self]
      exact if_pos hp
    simp only [hold, hnew] at hsum
    have hroom := h.room
    rw [hlh]
    by_cases hmem : b ∈ s.lh
    · have hlen : (s.logged p).length ≤ (Log.absorb (s.logged p) b).length := by
        rw [Log.absorb]
        split <;> simp
      rw [Log.absorb, if_pos hmem]
      omega
    · -- A block that is not in the header is new to the operation too.
      have hnot : b ∉ s.logged p := fun hx => hmem (h.logged p hp b hx)
      rw [Log.absorb, if_neg hnot, List.length_append, List.length_singleton] at hbound hsum
      rw [Log.absorb, if_neg hmem, List.length_append, List.length_singleton]
      omega
  · intro q k hq
    rw [hphase] at hq
    have hin : InCommit (s.phase q) := by rw [hq]; trivial
    exact absurd hin (hprot.no_committer (hprot.not_comitting hp) q)

/-- `log.lh.n = 0` after `install_trans`; no operation is running. -/
theorem Budget.clear (hprot : Protocol s) (h : Budget s) {p : P}
    (hp : InCommit (s.phase p)) :
    Budget { s.setPhase p (.committing (.clearHead 0)) with lh := [] } := by
  have hnone := hprot.no_operation hp
  have hnone' : ∀ q, (s.setPhase p (.committing (.clearHead 0))).phase q ≠ .inOp := fun q hq => by
    by_cases hqp : q = p
    · rw [hqp] at hq
      simp [State.setPhase] at hq
    · simp only [State.setPhase, Function.update_of_ne hqp] at hq
      exact hnone q hq
  refine ⟨fun q k hne => absurd (h.busy q k hne) (hnone q), fun q hq => absurd hq (hnone' q), ?_,
    fun _ _ _ => rfl⟩
  have hzero : ∀ q, unused ((s.setPhase p (.committing (.clearHead 0))).phase q) (s.logged q) = 0 :=
    fun q => if_neg (hnone' q)
  show 0 + ∑ q, unused ((s.setPhase p (.committing (.clearHead 0))).phase q) (s.logged q) ≤ _
  rw [Finset.sum_eq_zero fun q _ => hzero q]
  exact Nat.zero_le _

variable [DecidableEq K] {sb : Superblock} {dev : Nat}

/-- Every bracketed step keeps the budget. -/
theorem budget_step [Fintype K] {act : Action P K} {pc : Pc} (hprot : Protocol s)
    (href : Refines sb dev s pc) (h : Budget s) (hall : Bracketed sb dev s act)
    (hs : Steps sb dev s act s') : Budget s' := by
  -- A process that uses a buffer is inside an operation.
  have hin : ∀ {p k u}, s.cache.uses (.inl (p, k)) = u → u ≠ .idle → s.phase p = .inOp :=
    fun hu hne => h.busy _ _ (by rw [hu]; exact hne)
  cases hs with
  | callBegin hp => exact h.move hp (by simp) (by simp) (by simp) rfl rfl rfl rfl
  | sleep hp => exact h.move hp (by simp) (by simp) (by simp) rfl rfl rfl rfl
  | wake hp => exact h.move hp (by simp) (by simp) (by simp) rfl rfl rfl rfl
  | reserve hp _ hroom => exact h.reserve hprot hp hroom
  | @absorb p k i d hp hu _ _ _ =>
    refine h.record hprot hp (hall i d hu).2 ?_ rfl rfl rfl
    intro q k' hne
    by_cases hsame : (q, k') = (p, k)
    · cases hsame
      exact Or.inr hp
    · left
      have hkeep : Keeps s.cache (s.cache.setUse (.inl (p, k)) (.held i false)) (.inl (p, k)) :=
        (setUse_touch (i := i)).keeps (Or.inl rfl)
      rw [← hkeep.others (.inl (q, k')) (by simpa using hsame)]
      exact hne
  | @pin p k i d c hp hu _ _ _ hc =>
    refine h.record hprot hp (hall i d hu).2 ?_ rfl rfl rfl
    intro q k' hne
    by_cases hsame : (q, k') = (p, k)
    · cases hsame
      exact Or.inr hp
    · left
      obtain ⟨-, t⟩ := bpin_touch hc
      have hkeep : Keeps s.cache c (.inl (p, k)) := t.keeps (Or.inl rfl)
      rw [← hkeep.others (.inl (q, k')) (by simpa using hsame)]
      exact hne
  | endLast hp _ _ => exact h.move hp (fun _ => hall) (by simp) (by simp) rfl rfl rfl rfl
  | @endOther p hp _ _ =>
    have hleave : Budget ({ s with outstanding := s.outstanding - 1 }.setPhase p .outside) :=
      h.move hp (fun _ => hall) (by simp) (by simp) rfl rfl rfl rfl
    exact hleave.wakeup
  | @instr p pc' ins t hp hins ht =>
    have hsame := execInstr_sameLog ht
    have ht' : Budget t := h.cache hsame.lh hsame.phase hsame.logged fun q k hne =>
      Or.inl (by rw [← execInstr_uses ht (q, k)]; exact hne)
    refine ht'.move (hsame.phase ▸ hp) (by simp) (by simp) ?_ rfl rfl rfl rfl
    intro k hk
    -- Only a point of the second `write_head` leads to the next one.
    cases pc' with
    | clearHead k' =>
      rw [hsame.lh]
      exact h.cleared p k' hp
    | start => cases hk
    | writeLog tail k' => cases hk
    | writeHead k' => cases hk
    | install tail k' => cases hk
    | done => cases hk
  | jump hp hj =>
    refine h.move hp (by simp) (by simp) ?_ rfl rfl rfl rfl
    intro k hk
    cases hk
    cases hj
  | clear hp _ => exact h.clear hprot (by rw [hp]; trivial)
  | @finish p hp =>
    have hmove : Budget (s.setPhase p .outside) :=
      h.move hp (by simp) (by simp) (by simp) rfl rfl rfl rfl
    have hwake := hmove.wakeup
    exact ⟨hwake.busy, hwake.logged, hwake.room, hwake.cleared⟩
  | bget _ _ hc => exact h.client (bget_keeps hc) hall.1
  | acquiresleep _ hc =>
    obtain ⟨i, hu, -, -, t⟩ := acquiresleep_touch hc
    exact h.client (t.keeps (Or.inl rfl)) (hin hu (by simp))
  | fill _ hc =>
    obtain ⟨i, b, hu, -, t, -⟩ := fill_touch hc
    have hlock := (href.coherent.locks i _).mpr (by rw [hu]; rfl)
    exact h.client (t.keeps (Or.inr hlock)) (hin hu (by simp))
  | modify _ hc =>
    obtain ⟨i, d, hu, -, t⟩ := modify_touch hc
    have hlock := (href.coherent.locks i _).mpr (by rw [hu]; rfl)
    exact h.client (t.keeps (Or.inr hlock)) (hin hu (by simp))
  | bwrite _ hu hc =>
    obtain ⟨i, d, -, -, t⟩ := bwrite_touch hc
    exact h.client (t.keeps (Or.inl rfl)) (hin hu (by simp))
  | releasesleep _ hc =>
    obtain ⟨i, hu, -, t⟩ := releasesleep_touch hc
    exact h.client (t.keeps (Or.inl rfl)) (hin hu (by simp))
  | unref _ hc =>
    obtain ⟨i, hu, -, t⟩ := unref_touch hc
    exact h.client (t.keeps (Or.inl rfl)) (hin hu (by simp))

/-- The invariant of bracketed operations. -/
structure Reserved [Fintype K] (sb : Superblock) (dev : Nat) (s : State P K) : Prop where
  protocol : Protocol s
  refines : ∃ pc, Refines sb dev s pc
  budget : Budget s

theorem Reserved.next [Fintype K] {act : Action P K} (h : Reserved sb dev s)
    (hall : Bracketed sb dev s act) (hnlog : NBUF ≤ sb.nlog)
    (hs : step sb dev s act = some (.ok s')) : Reserved sb dev s' := by
  obtain ⟨pc, href⟩ := h.refines
  have hsteps := steps_of_step hs
  exact ⟨protocol_step h.protocol hsteps,
    refines_step h.protocol href (h.budget.polite h.protocol hall) hnlog hsteps,
    budget_step h.protocol href h.budget hall hsteps⟩

/-- The invariant holds in every state that bracketed operations reach. -/
theorem reserved_reach [Fintype K] (hdev : dev ≠ 0) (hnlog : NBUF ≤ sb.nlog)
    (hr : Reach (step sb dev) (Bracketed sb dev) (fun s => ∃ d, s = initial d) s) :
    Reserved sb dev s := by
  refine Reach.invariant ?_ ?_ hr
  · rintro s ⟨d, rfl⟩
    exact ⟨protocol_initial d, ⟨.done, refines_initial hdev d⟩, budget_initial d⟩
  · intro s act s' h hall hs
    exact h.next hall hnlog hs

end Steps

end Xv6.Proofs.LogSys
