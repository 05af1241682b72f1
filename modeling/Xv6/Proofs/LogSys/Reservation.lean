import Xv6.Proofs.LogSys.Budget

/-!
# `Xv6.Proofs.LogSys.Reservation`: where the reservation of the log is not enough

The five limits of the log layer meet when three operations fill their reservations. The
header then has `LOGBLOCKS` entries, which is also `NBUF`: every buffer is pinned, the next
`log_write` panics even when it would be absorbed, and the commit finds no buffer for its
first log block. `reservation_exact` says that this is the only way to fail: for bracketed
operations the header never has more than `LOGBLOCKS` entries, and with fewer of them no
`log_write` panics and every commit runs to its end.

A commit is never stuck (`Reserved.commit_enabled`): the program point determines the stages
of its two slots, and in those stages the next instruction can run (`absEnabled_next`). It
ends because each step lowers `remaining`.
-/

set_option autoImplicit false

namespace Xv6.Proofs.LogSys

open Xv6.Lib
open Xv6.Kernel
open Xv6.Kernel.LogSys
open Xv6.Proofs.Cache

/-! ### The instructions of `commit` can run -/

/-- The slot holds a buffer that `bread` returned. -/
def Stage.isHeld : Stage → Bool
  | .held _ _ => true
  | _ => false

/-- The stages in which an instruction can run. -/
def absEnabled (st : Bool → Stage) : Instr → Bool
  | .get j _ => decide (st j = .idle)
  | .lock j => match st j with
    | .waiting _ => true
    | _ => false
  | .fill j => match st j with
    | .locked _ => true
    | _ => false
  | .move dst src => (st dst).isHeld && (st src).isHeld
  | .putHead j => (st j).isHeld
  | .write j => (st j).isHeld
  | .writeHome j => (st j).isHeld
  | .unpin j => (st j).isHeld
  | .unlock j => match st j with
    | .held _ false => true
    | _ => false
  | .unref j => match st j with
    | .releasing _ => true
    | _ => false

/-- At every program point the next instruction can run. -/
theorem absEnabled_next {sb : Superblock} {lh : List Nat} {pc : Pc} {ins : Instr}
    (h : nextInstr sb lh pc = some ins) : absEnabled (slotsAt sb lh pc) ins = true := by
  cases pc with
  | start => simp [nextInstr, code] at h
  | done => simp [nextInstr, code] at h
  | writeLog tail k =>
    obtain ⟨hlt, hk, hins⟩ := nextInstr_writeLog h
    rw [slotsAt_writeLog hlt]
    interval_cases k <;> (cases hins; rfl)
  | writeHead k =>
    have hk : k < 7 := writeHeadBody_lt h
    interval_cases k <;> (cases h; rfl)
  | install tail k =>
    obtain ⟨hlt, hk, hins⟩ := nextInstr_install h
    rw [slotsAt_install hlt]
    interval_cases k <;> (cases hins; rfl)
  | clearHead k =>
    have hk : k < 7 := writeHeadBody_lt h
    interval_cases k <;> (cases h; rfl)

section Enabled

variable {P K : Type} {dev : Nat} {s : State P K}

theorem exists_held_of_isHeld {j : Bool} (h : (stages s j).isHeld = true) :
    ∃ i d, s.cache.uses (.inr j) = .held i d := by
  unfold stages at h
  cases hu : s.cache.uses (.inr j) with
  | held i d => exact ⟨i, d, rfl⟩
  | _ => rw [hu] at h; cases h

variable [DecidableEq P] [DecidableEq K]

/-- An instruction whose slots are in the right stages runs, if `acquiresleep` finds its lock
free. -/
theorem execInstr_ne_none {ins : Instr} (h : absEnabled (stages s) ins = true)
    (hlock : ∀ j i, ins = .lock j → s.cache.uses (.inr j) = .waiting i →
      (s.cache.bufs i).lock = none) : execInstr dev s ins ≠ none := by
  cases ins with
  | get j b =>
    have hidle : s.cache.uses (.inr j) = .idle := stageOf_eq_idle (of_decide_eq_true h)
    simp only [execInstr, if_pos hidle]
    split <;> simp
  | lock j =>
    simp only [absEnabled, stages] at h
    cases hu : s.cache.uses (.inr j) with
    | waiting i => simp [execInstr, Cache.acquiresleep, hu, hlock j i rfl hu]
    | _ => rw [hu] at h; cases h
  | fill j =>
    simp only [absEnabled, stages] at h
    cases hu : s.cache.uses (.inr j) with
    | locked i =>
      simp only [execInstr, Cache.fill, hu]
      split <;> simp
    | _ => rw [hu] at h; cases h
  | move dst src =>
    obtain ⟨hd, hs⟩ := Bool.and_eq_true_iff.mp h
    obtain ⟨i, d, hi⟩ := exists_held_of_isHeld hd
    obtain ⟨i', d', hi'⟩ := exists_held_of_isHeld hs
    simp [execInstr, State.holds, Cache.modify, hi, hi']
  | putHead j =>
    obtain ⟨i, d, hi⟩ := exists_held_of_isHeld h
    simp [execInstr, State.holds, Cache.modify, hi]
  | write j =>
    obtain ⟨i, d, hi⟩ := exists_held_of_isHeld h
    simp [execInstr, State.holds, Cache.bwrite, hi]
  | writeHome j =>
    obtain ⟨i, d, hi⟩ := exists_held_of_isHeld h
    simp [execInstr, Cache.bwrite, hi]
  | unpin j =>
    obtain ⟨i, d, hi⟩ := exists_held_of_isHeld h
    simp [execInstr, Cache.bunpin, hi]
  | unlock j =>
    simp only [absEnabled, stages] at h
    cases hu : s.cache.uses (.inr j) with
    | held i d =>
      cases d with
      | false => simp [execInstr, Cache.releasesleep, hu]
      | true => rw [hu] at h; cases h
    | _ => rw [hu] at h; cases h
  | unref j =>
    simp only [absEnabled, stages] at h
    cases hu : s.cache.uses (.inr j) with
    | releasing i =>
      simp only [execInstr, Cache.unref, hu]
      split <;> simp
    | _ => rw [hu] at h; cases h

end Enabled

/-- Where `commit` waits for a lock, its other slot has none, or that of a log block. It calls
`bget` for a logged block that is still pinned, or with both slots idle. -/
theorem nextInstr_acquire {sb : Superblock} {lh : List Nat} {pc : Pc} {ins : Instr}
    (h : nextInstr sb lh pc = some ins) : match ins with
    | .lock j => slotsAt sb lh pc (!j) = .idle ∨ ∃ tail, tail < lh.length ∧ Past pc ∧
        slotsAt sb lh pc (!j) = .held (sb.logstart + tail + 1) false ∧
        slotsAt sb lh pc j = .waiting (lh.getD tail 0)
    | .get _ b => (∃ tail, tail < lh.length ∧ unpinned pc ≤ tail ∧ b = lh.getD tail 0) ∨
        (slotsAt sb lh pc = (fun _ => .idle) ∧
          (Past pc ∨ pc = .writeLog 0 0 ∨ pc = .clearHead 0))
    | _ => True := by
  cases pc with
  | start => simp [nextInstr, code] at h
  | done => simp [nextInstr, code] at h
  | writeLog tail k =>
    obtain ⟨hlt, hk, hins⟩ := nextInstr_writeLog h
    have hpoint : Past (.writeLog tail 0) ∨ Pc.writeLog tail 0 = .writeLog 0 0 ∨
        Pc.writeLog tail 0 = .clearHead 0 := by
      rcases Nat.eq_zero_or_pos tail with rfl | htail
      · exact Or.inr (Or.inl rfl)
      · exact Or.inl (Or.inl htail)
    rw [slotsAt_writeLog hlt]
    interval_cases k <;> cases hins <;> first
      | trivial
      | exact Or.inr ⟨rfl, hpoint⟩
      | exact Or.inl ⟨tail, hlt, Nat.zero_le _, rfl⟩
      | exact Or.inl rfl
      | exact Or.inr ⟨tail, hlt, Or.inr (by decide), rfl, rfl⟩
  | writeHead k =>
    have hk : k < 7 := writeHeadBody_lt h
    interval_cases k <;> cases h <;> first
      | trivial
      | exact Or.inl rfl
      | exact Or.inr ⟨slotsAt_zero rfl, Or.inl trivial⟩
  | install tail k =>
    obtain ⟨hlt, hk, hins⟩ := nextInstr_install h
    rw [slotsAt_install hlt]
    interval_cases k <;> cases hins <;> first
      | trivial
      | exact Or.inr ⟨rfl, Or.inl trivial⟩
      | exact Or.inl ⟨tail, hlt, Nat.le_refl _, rfl⟩
      | exact Or.inl rfl
      | exact Or.inr ⟨tail, hlt, trivial, rfl, rfl⟩
  | clearHead k =>
    have hk : k < 7 := writeHeadBody_lt h
    interval_cases k <;> cases h <;> first
      | trivial
      | exact Or.inl rfl
      | exact Or.inr ⟨slotsAt_zero rfl, Or.inr (Or.inr rfl)⟩

/-! ### A commit is not stuck -/

section Commit

variable {P K : Type} {sb : Superblock} {dev : Nat} {s s' : State P K} {p : P} {pc : Pc}

/-- During a commit the processes use no buffers. -/
theorem Budget.idle [Fintype P] (hprot : Protocol s) (h : Budget s) (hp : InCommit (s.phase p))
    (q : P) (k : K) : s.cache.uses (.inl (q, k)) = .idle := by
  by_contra hne
  exact hprot.no_operation hp q (h.busy q k hne)

theorem Reserved.refines_at [Fintype P] [Fintype K] (h : Reserved sb dev s)
    (hp : s.phase p = .committing pc) : Refines sb dev s pc := by
  obtain ⟨pc', href⟩ := h.refines
  rw [href.point p pc hp]
  exact href

/-- The lock that `commit` waits for is free. -/
theorem Reserved.lock_free [Fintype P] [Fintype K] (h : Reserved sb dev s) (hp : s.phase p = .committing pc)
    (hnlog : NBUF ≤ sb.nlog) {j : Bool} {i : Fin NBUF} (hins : nextInstr sb s.lh pc = some (.lock j))
    (hu : s.cache.uses (.inr j) = .waiting i) : (s.cache.bufs i).lock = none := by
  have href := h.refines_at hp
  cases hlock : (s.cache.bufs i).lock with
  | none => rfl
  | some a =>
    have howns := (href.coherent.locks i a).mp hlock
    cases a with
    | inl q =>
      rw [h.budget.idle h.protocol (by rw [hp]; trivial)] at howns
      cases howns
    | inr j' =>
      by_cases hj : j' = j
      · rw [hj, hu] at howns
        cases howns
      · -- The other slot holds a log block, and this one waits for a logged block.
        obtain rfl : j' = !j := by
          cases j <;> cases j' <;> simp_all
        have hother : stages s (!j) = slotsAt sb s.lh pc (!j) := congrFun href.slots _
        have hself : stages s j = slotsAt sb s.lh pc j := congrFun href.slots _
        rcases nextInstr_acquire hins with hidle | ⟨tail, hlt, hpast, hheld, hwait⟩
        · rw [hidle] at hother
          rw [stageOf_eq_idle hother] at howns
          cases howns
        · rw [hheld] at hother
          rw [hwait] at hself
          obtain ⟨i₁, hu₁, hb₁⟩ := stageOf_eq_held hother
          obtain ⟨i₂, hu₂, hb₂⟩ := stageOf_eq_waiting hself
          rw [hu₁] at howns
          cases howns
          rw [hu] at hu₂
          cases hu₂
          have hmem := getD_mem_of_lt hlt
          rw [← hb₂, hb₁] at hmem
          exact absurd (href.logArea hnlog hpast hlt) (href.home _ hmem)

variable [DecidableEq P] [DecidableEq K]

/-- The commit moves on when it has no instruction left, or when the next one can run. -/
theorem commit_ne_none (hp : s.phase p = .committing pc) (hpc : pc ≠ .done)
    (h : ∀ ins, nextInstr sb s.lh pc = some ins → execInstr dev s ins ≠ none) :
    step sb dev s (.commit p) ≠ none := by
  have hbody : ∀ body k here next, (∀ ins, body[k]? = some ins → execInstr dev s ins ≠ none) →
      runBody dev s p body k here next ≠ none := by
    intro body k here next hins
    unfold runBody
    split
    · rename_i ins hk
      simpa using hins ins hk
    · simp
  simp only [step, hp]
  cases pc with
  | start => simp [commitStep]
  | writeLog tail k =>
    simp only [commitStep]
    split
    · rename_i hlt
      refine hbody _ _ _ _ fun ins hk => h ins ?_
      rw [nextInstr, code, if_pos hlt]
      exact hk
    · simp
  | writeHead k => exact hbody _ _ _ _ h
  | install tail k =>
    simp only [commitStep]
    split
    · rename_i hlt
      refine hbody _ _ _ _ fun ins hk => h ins ?_
      rw [nextInstr, code, if_pos hlt]
      exact hk
    · simp
  | clearHead k => exact hbody _ _ _ _ h
  | done => exact absurd rfl hpc

/-! ### Progress -/

/-- An upper bound for the steps of `commit` from `pc` on, with `n` blocks in the header. -/
def remaining (n : Nat) : Pc → Nat
  | .start => n * 13 + (n * 14 + 19)
  | .writeLog tail k => (n - tail) * 13 - min k 12 + (n * 14 + 18)
  | .writeHead k => 8 - min k 7 + (n * 14 + 9)
  | .install tail k => (n - tail) * 14 - min k 13 + 9
  | .clearHead k => 8 - min k 7
  | .done => 0

theorem remaining_bump {lh : List Nat} {ins : Instr} (h : nextInstr sb lh pc = some ins) :
    remaining lh.length (Pc.bump pc) < remaining lh.length pc := by
  cases pc with
  | start => simp [nextInstr, code] at h
  | done => simp [nextInstr, code] at h
  | writeLog tail k =>
    obtain ⟨hlt, hk, -⟩ := nextInstr_writeLog h
    simp only [Pc.bump, remaining]
    omega
  | writeHead k =>
    have hk : k < 7 := writeHeadBody_lt h
    simp only [Pc.bump, remaining]
    omega
  | install tail k =>
    obtain ⟨hlt, hk, -⟩ := nextInstr_install h
    simp only [Pc.bump, remaining]
    omega
  | clearHead k =>
    have hk : k < 7 := writeHeadBody_lt h
    simp only [Pc.bump, remaining]
    omega

theorem remaining_jump {lh : List Nat} {pc' : Pc} (h : Jump lh pc pc') :
    remaining lh.length pc' < remaining lh.length pc := by
  cases h with
  | enter hpos => simp only [remaining]; omega
  | skip hzero => simp only [remaining]; omega
  | nextLog hlt hk => simp only [remaining]; omega
  | logEnd hge => simp only [remaining]; omega
  | headEnd hk => simp only [remaining]; omega
  | nextInstall hlt hk => simp only [remaining]; omega
  | clearEnd hk => simp only [remaining]; omega

/-- A step of `commit` moves its process forward. -/
theorem commit_progress (hp : s.phase p = .committing pc)
    (hs : step sb dev s (.commit p) = some (.ok s')) :
    s'.lh.length ≤ s.lh.length ∧ ∃ pc', s'.phase p = .committing pc' ∧
      remaining s'.lh.length pc' < remaining s.lh.length pc := by
  cases steps_of_step hs with
  | @instr _ pc' ins t hp' hins ht =>
    rw [hp] at hp'
    cases hp'
    have hlh : (t.setPhase p (.committing (Pc.bump pc))).lh = s.lh := (execInstr_sameLog ht).lh
    rw [hlh]
    exact ⟨Nat.le_refl _, Pc.bump pc, Function.update_self .., remaining_bump hins⟩
  | @jump _ _ pc' hp' hj =>
    rw [hp] at hp'
    cases hp'
    exact ⟨Nat.le_refl _, pc', Function.update_self .., remaining_jump hj⟩
  | @clear _ tail k hp' hge =>
    rw [hp] at hp'
    cases hp'
    refine ⟨Nat.zero_le _, .clearHead 0, Function.update_self .., ?_⟩
    simp only [remaining]
    omega

variable [Fintype P] [Fintype K]

theorem Reserved.commit_enabled (h : Reserved sb dev s) (hp : s.phase p = .committing pc)
    (hpc : pc ≠ .done) (hnlog : NBUF ≤ sb.nlog) : step sb dev s (.commit p) ≠ none := by
  have href := h.refines_at hp
  apply commit_ne_none hp hpc
  intro ins hins
  apply execInstr_ne_none
  · rw [href.slots]
    exact absEnabled_next hins
  · rintro j i rfl hu
    exact h.lock_free hp hnlog hins hu

/-! ### The panics of a commit -/

/-- A `bget` of `commit` fails only at its very first one, with a full header. -/
theorem Reserved.commit_error (h : Reserved sb dev s) {e : LogSys.Panic}
    (herr : step sb dev s (.commit p) = some (.error e)) :
    s.phase p = .committing (.writeLog 0 0) ∧ s.lh.length = LOGBLOCKS := by
  rcases step_error herr with ⟨_, _, ha, -⟩ | ⟨_, _, ha, -⟩ | ⟨_, ha, -⟩ | ⟨_, _, _, _, ha, -⟩ |
    ⟨q, pc, ins, ha, hp, -, hins, hexec⟩
  · cases ha
  · cases ha
  · cases ha
  · cases ha
  cases ha
  obtain ⟨-, j, b, rfl, hnone⟩ := execInstr_error hexec
  have href := h.refines_at hp
  have hfull := bget_eq_none hnone
  rcases nextInstr_acquire hins with ⟨tail, hlt, hle, rfl⟩ | ⟨hidle, hpoint⟩
  · -- A pinned block is cached.
    have hmem : s.lh.getD tail 0 ∈ s.lh.drop (unpinned pc) := by
      have hd : (s.lh.drop tail).Sublist (s.lh.drop (unpinned pc)) := by
        rw [show tail = unpinned pc + (tail - unpinned pc) by omega, ← List.drop_drop]
        exact List.drop_sublist _ _
      apply hd.subset
      rw [drop_eq_getD_cons hlt]
      exact List.mem_cons_self
    obtain ⟨i, hd, hb, -⟩ := href.coherent.cached _ hmem
    exact absurd ⟨hd, hb⟩ (hfull i (href.coherent.listed i)).1
  · -- Nobody uses a buffer, so all of them are pinned.
    have hall : ∀ a, s.cache.uses a = .idle := by
      intro a
      cases a with
      | inl q => exact h.budget.idle h.protocol (by rw [hp]; trivial) q.1 q.2
      | inr j' =>
        apply stageOf_eq_idle
        show stages s j' = .idle
        rw [href.slots, hidle]
    have hle := href.coherent.le_pinned hall fun i => (hfull i (href.coherent.listed i)).2
    have hdrop : NBUF ≤ s.lh.length := hle.trans (by rw [List.length_drop]; exact Nat.sub_le _ _)
    rcases hpoint with hpast | rfl | rfl
    · exact absurd (href.fits hpast) (Nat.not_lt.mpr hdrop)
    · exact ⟨hp, Nat.le_antisymm h.budget.length_le hdrop⟩
    · rw [h.budget.cleared _ 0 hp] at hdrop
      exact absurd hdrop (by decide)

/-- With a full header the first `bget` of `commit` does fail. -/
theorem Reserved.commit_full (h : Reserved sb dev s) (hp : s.phase p = .committing (.writeLog 0 0))
    (hlen : s.lh.length = LOGBLOCKS) (hnlog : NBUF ≤ sb.nlog) :
    step sb dev s (.commit p) = some (.error .noBuffers) := by
  have href := h.refines_at hp
  have hpos : 0 < s.lh.length := by
    rw [hlen]
    decide
  have hcoh : Coherent s.cache dev s.lh s.lh s.store := href.coherent
  have hall := hcoh.all_pinned href.nodup (by rw [hlen]; decide)
  have hnone : s.cache.bget (.inr false) dev (sb.logstart + 0 + 1) = none := by
    refine bget_none_of fun i => ⟨?_, hcoh.refcnt_pos_of_pinned (hall i).1 (hall i).2⟩
    rintro ⟨-, hb⟩
    -- The log block is in the log area, and the logged blocks are not.
    refine href.home _ (hall i).2 (hb ▸ ⟨by omega, ?_⟩)
    have : (1 : Nat) < NBUF := by decide
    omega
  have hidle : s.cache.uses (.inr false) = .idle := by
    apply stageOf_eq_idle
    show stages s false = .idle
    rw [href.slots, slotsAt_zero rfl]
  simp only [step, hp, commitStep, if_pos hpos, runBody, writeLogBody, List.getElem?_cons_zero,
    execInstr, hidle, if_true, hnone]
  rfl

/-- A commit with room in the header runs to its end, if it is left alone. -/
theorem Reserved.commit_completes (h : Reserved sb dev s) (hp : s.phase p = .committing pc)
    (hlen : s.lh.length < LOGBLOCKS) (hnlog : NBUF ≤ sb.nlog) :
    ∃ n s', exec (step sb dev) s (List.replicate n (.commit p)) = some (.ok s') ∧
      s'.phase p = .committing .done := by
  -- Induction on the steps that are left.
  induction hm : remaining s.lh.length pc using Nat.strong_induction_on generalizing s pc with
  | _ m ih =>
    by_cases hdone : pc = .done
    · exact ⟨0, s, rfl, hdone ▸ hp⟩
    · cases hs : step sb dev s (.commit p) with
      | none => exact absurd hs (h.commit_enabled hp hdone hnlog)
      | some r =>
        cases r with
        | error e =>
          have hfull := (h.commit_error hs).2
          omega
        | ok t =>
          obtain ⟨hle, pc', hp', hlt⟩ := commit_progress hp hs
          have ht : Reserved sb dev t := by
            have hall : Bracketed sb dev s (.commit p) := trivial
            exact h.next hall hnlog hs
          obtain ⟨n, s', hexec, hend⟩ :=
            ih _ (hm ▸ hlt) ht hp' (Nat.lt_of_le_of_lt hle hlen) rfl
          refine ⟨n + 1, s', ?_, hend⟩
          rw [List.replicate_succ, Lib.exec, hs]
          exact hexec

/-! ### The result -/

/-- A `log_write` inside an operation fails with a full header, and only then. -/
theorem Reserved.logWrite_error_iff (h : Reserved Mkfs.superblock dev s) (k : K) :
    (∃ e, step Mkfs.superblock dev s (.logWrite p k) = some (.error e)) ↔
      s.phase p = .inOp ∧ (s.holds (.inl (p, k))).isSome = true ∧ s.lh.length = LOGBLOCKS := by
  have hle := h.budget.length_le
  constructor
  · rintro ⟨e, herr⟩
    have hholds : (s.holds (.inl (p, k))).isSome = true := by
      simp only [step] at herr
      split at herr
      · split at herr
        · rename_i i hi
          rw [hi]
          rfl
        · cases herr
      · cases herr
    rcases step_error herr with ⟨_, _, ha, hp, -, hfull⟩ | ⟨_, _, ha, hp, -, hout⟩ | ⟨_, ha, -⟩ |
      ⟨_, _, _, _, ha, -⟩ | ⟨_, _, _, ha, -⟩
    · cases ha
      refine ⟨hp, hholds, Nat.le_antisymm hle ?_⟩
      rcases hfull with hfull | hfull
      · exact hfull
      · -- The other limit of `log_write` is far away: `log.size` is `sb->nblocks`.
        have hsize : (Mkfs.superblock.nblocks : Int) = 1954 := by decide
        have hlog : LOGBLOCKS = 30 := rfl
        omega
    · cases ha
      have hone := h.protocol.one_le_outstanding hp
      omega
    · cases ha
    · cases ha
    · cases ha
  · rintro ⟨hp, hholds, hlen⟩
    obtain ⟨i, hi⟩ := Option.isSome_iff_exists.mp hholds
    refine ⟨.tooBig, ?_⟩
    simp only [step, hp, hi, if_true, LogSys.logWrite]
    rw [if_pos (Or.inl (Nat.le_of_eq hlen.symm))]

/-- `write_log` stores to the log area only. -/
theorem Reserved.writeLog_stores (h : Reserved sb dev s) (hnlog : NBUF ≤ sb.nlog) {tail k : Nat}
    (hp : s.phase p = .committing (.writeLog tail k))
    (hs : step sb dev s (.commit p) = some (.ok s')) (b : Nat)
    (hb : s'.cache.disk b ≠ s.cache.disk b) : Log.LogArea sb b := by
  have href := h.refines_at hp
  cases steps_of_step hs with
  | @instr _ pc' ins t hp' hins ht =>
    rw [hp] at hp'
    cases hp'
    by_cases hw : ∃ j, ins = .write j
    · obtain ⟨j, rfl⟩ := hw
      obtain ⟨rfl, ⟨tail₁, hpc, hlt⟩ | hpc | hpc⟩ := nextInstr_at hins
      · cases hpc
        obtain ⟨i, hi, hib⟩ := href.writeLog_slot hlt
        obtain ⟨c, hc, rfl⟩ := execInstr_write hi ht
        obtain ⟨i', d', hi', hdisk, -⟩ := bwrite_touch hc
        rw [hi] at hi'
        cases hi'
        have hbi : b = sb.logstart + tail + 1 := by
          by_contra hne
          apply hb
          show c.disk b = s.cache.disk b
          rw [hdisk, hib, Function.update_of_ne hne]
        rw [hbi]
        exact href.logArea hnlog (Or.inr (by decide)) hlt
      · cases hpc
      · cases hpc
    · by_cases hh : ∃ j, ins = .writeHome j
      · obtain ⟨j, rfl⟩ := hh
        obtain ⟨-, tail₁, hpc, -⟩ := nextInstr_at hins
        cases hpc
      · push Not at hw hh
        exact absurd (congrFun (execInstr_disk ht hw hh) b) hb
  | jump _ _ => exact absurd rfl hb
  | clear hp' _ =>
    rw [hp] at hp'
    cases hp'

/-- The reservation of the log, exactly. In every state that bracketed operations reach on
the layout of `mkfs`, the header has at most `LOGBLOCKS` entries; a `log_write` panics
exactly when it finds `LOGBLOCKS` of them; the commit panics exactly when it starts with
`LOGBLOCKS` of them; with fewer it runs to its end; and `write_log` stores to the log area
only. -/
theorem reservation_exact (hdev : dev ≠ 0)
    (hr : Reach (step Mkfs.superblock dev) (Bracketed Mkfs.superblock dev)
      (fun s => ∃ d, s = initial d) s) :
    s.lh.length ≤ LOGBLOCKS ∧
    (∀ p k, (∃ e, step Mkfs.superblock dev s (.logWrite p k) = some (.error e)) ↔
      s.phase p = .inOp ∧ (s.holds (.inl (p, k))).isSome = true ∧ s.lh.length = LOGBLOCKS) ∧
    (∀ p, (∃ e, step Mkfs.superblock dev s (.commit p) = some (.error e)) ↔
      s.phase p = .committing (.writeLog 0 0) ∧ s.lh.length = LOGBLOCKS) ∧
    (∀ p pc, s.phase p = .committing pc → s.lh.length < LOGBLOCKS →
      ∃ n s', exec (step Mkfs.superblock dev) s (List.replicate n (.commit p)) = some (.ok s') ∧
        s'.phase p = .committing .done) ∧
    (∀ p tail k s', s.phase p = .committing (.writeLog tail k) →
      step Mkfs.superblock dev s (.commit p) = some (.ok s') →
      ∀ b, s'.cache.disk b ≠ s.cache.disk b → Log.LogArea Mkfs.superblock b) := by
  have hnlog : NBUF ≤ Mkfs.superblock.nlog := by decide
  have h : Reserved Mkfs.superblock dev s := reserved_reach hdev hnlog hr
  refine ⟨h.budget.length_le, fun p k => h.logWrite_error_iff k, ?_, ?_, ?_⟩
  · intro p
    constructor
    · rintro ⟨e, herr⟩
      exact h.commit_error herr
    · rintro ⟨hp, hlen⟩
      exact ⟨.noBuffers, h.commit_full hp hlen hnlog⟩
  · intro p pc hp hlen
    exact h.commit_completes hp hlen hnlog
  · intro p tail k s' hp hs
    exact h.writeLog_stores hnlog hp hs

end Commit

/-! ### The boundary -/

/-- Process `p` logs block `b`. -/
def logOne (p : Fin 3) (b : Nat) : List (LogSys.Action (Fin 3) Unit) :=
  [.bget p () 1 b, .acquiresleep p (), .fill p (), .logWrite p (), .releasesleep p (), .unref p ()]

/-- Three operations fill their reservations: process `t / 10` logs block `100 + t`. -/
def fillLog : List (LogSys.Action (Fin 3) Unit) :=
  [.callBegin 0, .beginOp 0, .callBegin 1, .beginOp 1, .callBegin 2, .beginOp 2] ++
    (List.range LOGBLOCKS).flatMap fun t => logOne (Fin.ofNat 3 (t / MAXOPBLOCKS)) (100 + t)

/-- A single operation reaches its commit, which ends. -/
theorem reservation_exact_oneOp : ∃ s : State (Fin 3) Unit,
    exec (guarded (step Mkfs.superblock 1) (Bracketed Mkfs.superblock 1)) (initial zeros)
      ([.callBegin 0, .beginOp 0] ++ logOne 0 100 ++ [.endOp 0]) = some (.ok s) ∧
    s.phase 0 = .committing .start ∧ s.lh = [100] ∧
    ∃ n s', exec (step Mkfs.superblock 1) s (List.replicate n (.commit 0)) = some (.ok s') ∧
      s'.phase 0 = .committing .done := by
  obtain ⟨s, hs, hphase, hlh⟩ : ∃ s : State (Fin 3) Unit,
      exec (guarded (step Mkfs.superblock 1) (Bracketed Mkfs.superblock 1)) (initial zeros)
        ([.callBegin 0, .beginOp 0] ++ logOne 0 100 ++ [.endOp 0]) = some (.ok s) ∧
      s.phase 0 = .committing .start ∧ s.lh = [100] := by
    obtain ⟨s, hs, hq⟩ := ends_iff.mp (show ends (exec (guarded (step Mkfs.superblock 1)
        (Bracketed Mkfs.superblock 1)) (initial zeros : State (Fin 3) Unit)
        ([.callBegin 0, .beginOp 0] ++ logOne 0 100 ++ [.endOp 0]))
        (fun s => decide (s.phase 0 = .committing .start ∧ s.lh = [100])) = true by decide +kernel)
    exact ⟨s, hs, of_decide_eq_true hq⟩
  refine ⟨s, hs, hphase, hlh, ?_⟩
  have hr : Reach (step Mkfs.superblock 1) (Bracketed Mkfs.superblock 1)
      (fun s => ∃ d, s = initial d) s := reach_of_guarded (.start ⟨zeros, rfl⟩) hs
  exact (reservation_exact (by decide) hr).2.2.2.1 0 .start hphase (by rw [hlh]; decide)

/-- Three operations that keep to their reservations, and the log is full: writing block 100
once more panics, although it is logged already; and if all three end instead, the commit
panics for want of a buffer. -/
theorem reservation_fails :
    (∃ s : State (Fin 3) Unit, Reach (step Mkfs.superblock 1) (Bracketed Mkfs.superblock 1)
        (fun s => ∃ d, s = initial d) s ∧
      Bracketed Mkfs.superblock 1 s (.logWrite 0 ()) ∧
      step Mkfs.superblock 1 s (.logWrite 0 ()) = some (.error .tooBig)) ∧
    (∃ s : State (Fin 3) Unit, Reach (step Mkfs.superblock 1) (Bracketed Mkfs.superblock 1)
        (fun s => ∃ d, s = initial d) s ∧
      step Mkfs.superblock 1 s (.commit 2) = some (.error .noBuffers)) := by
  constructor
  · obtain ⟨s, hs, hq⟩ := ends_iff.mp (show ends (exec (guarded (step Mkfs.superblock 1)
        (Bracketed Mkfs.superblock 1)) (initial zeros : State (Fin 3) Unit)
        (fillLog ++ [.bget 0 () 1 100, .acquiresleep 0 (), .fill 0 ()]))
        (fun s => decide (Bracketed Mkfs.superblock 1 s (.logWrite 0 ()) ∧
          panicOf (step Mkfs.superblock 1 s (.logWrite 0 ())) = some .tooBig)) = true by
      decide +kernel)
    obtain ⟨hall, hpanic⟩ := of_decide_eq_true hq
    exact ⟨s, reach_of_guarded (.start ⟨zeros, rfl⟩) hs, hall, panicOf_eq_some.mp hpanic⟩
  · obtain ⟨s, hs, hq⟩ := ends_iff.mp (show ends (exec (guarded (step Mkfs.superblock 1)
        (Bracketed Mkfs.superblock 1)) (initial zeros : State (Fin 3) Unit)
        (fillLog ++ [.endOp 0, .endOp 1, .endOp 2, .commit 2]))
        (fun s => decide (panicOf (step Mkfs.superblock 1 s (.commit 2)) = some .noBuffers))
          = true by
      decide +kernel)
    exact ⟨s, reach_of_guarded (.start ⟨zeros, rfl⟩) hs, panicOf_eq_some.mp (of_decide_eq_true hq)⟩

end Xv6.Proofs.LogSys
