import Xv6.Kernel.LogSys

/-!
# `Xv6.Proofs.LogSys.Steps`: what one step of the machine can do

`Steps sb dev s act s'` lists the steps of the machine, one constructor for each branch of
the source, with the tests that lead to the branch and the state it leaves.
`steps_of_step` derives it from `step` once. The invariants over runs are proved by cases on
it and never unfold `step`.

The code of `commit` is treated uniformly: `code` is the body at a program counter,
`nextInstr` its next instruction, `Pc.bump` counts it as done, and `Jump` lists the moves
between the loops. `step_error` says where a panic can come from.
-/

set_option autoImplicit false

namespace Xv6.Proofs.LogSys

open Xv6.Lib
open Xv6.Kernel
open Xv6.Kernel.LogSys

variable {P K : Type}

/-! ### The code of `commit` -/

/-- The body that `pc` is in, for the logged blocks `lh`. -/
def code (sb : Superblock) (lh : List Nat) : Pc → List Instr
  | .writeLog tail _ => if tail < lh.length then writeLogBody sb lh tail else []
  | .writeHead _ => writeHeadBody sb
  | .install tail _ => if tail < lh.length then installBody sb lh tail else []
  | .clearHead _ => writeHeadBody sb
  | _ => []

/-- How many instructions of the body are done. -/
def Pc.count : Pc → Nat
  | .writeLog _ k => k
  | .writeHead k => k
  | .install _ k => k
  | .clearHead k => k
  | _ => 0

/-- The instruction at `pc`. -/
def nextInstr (sb : Superblock) (lh : List Nat) (pc : Pc) : Option Instr :=
  (code sb lh pc)[Pc.count pc]?

/-- One more instruction of the current body is done. -/
def Pc.bump : Pc → Pc
  | .writeLog tail k => .writeLog tail (k + 1)
  | .writeHead k => .writeHead (k + 1)
  | .install tail k => .install tail (k + 1)
  | .clearHead k => .clearHead (k + 1)
  | pc => pc

/-- The moves of `commit` that touch the program counter alone. -/
inductive Jump (lh : List Nat) : Pc → Pc → Prop
  | enter : 0 < lh.length → Jump lh .start (.writeLog 0 0)
  | skip : lh.length = 0 → Jump lh .start .done
  | nextLog {tail k : Nat} : tail < lh.length → 12 ≤ k →
      Jump lh (.writeLog tail k) (.writeLog (tail + 1) 0)
  | logEnd {tail k : Nat} : lh.length ≤ tail → Jump lh (.writeLog tail k) (.writeHead 0)
  | headEnd {k : Nat} : 7 ≤ k → Jump lh (.writeHead k) (.install 0 0)
  | nextInstall {tail k : Nat} : tail < lh.length → 13 ≤ k →
      Jump lh (.install tail k) (.install (tail + 1) 0)
  | clearEnd {k : Nat} : 7 ≤ k → Jump lh (.clearHead k) .done

/-- The state after a `log_write` on buffer `i`, up to the pin. -/
def recorded [DecidableEq P] [DecidableEq K] (s : State P K) (p : P) (k : K) (i : Fin NBUF) :
    State P K :=
  let b := (s.cache.bufs i).blockno
  { s.publish i with
    lh := Log.absorb s.lh b
    logged := Function.update s.logged p (Log.absorb (s.logged p) b)
    cache := s.cache.setUse (.inl (p, k)) (.held i false) }

/-- The steps of the machine, one constructor for each branch of the source. -/
inductive Steps [DecidableEq P] [DecidableEq K] (sb : Superblock) (dev : Nat) (s : State P K) :
    Action P K → State P K → Prop
  | callBegin {p : P} : s.phase p = .outside →
      Steps sb dev s (.callBegin p) (s.setPhase p .beginning)
  | sleep {p : P} : s.phase p = .beginning →
      Steps sb dev s (.beginOp p) (s.setPhase p .sleeping)
  | reserve {p : P} : s.phase p = .beginning → s.comitting = false →
      (s.lh.length : Int) + (s.outstanding + 1) * MAXOPBLOCKS ≤ LOGBLOCKS →
      Steps sb dev s (.beginOp p) { s.setPhase p .inOp with
        outstanding := s.outstanding + 1, logged := Function.update s.logged p [] }
  | wake {p : P} : s.phase p = .sleeping →
      Steps sb dev s (.wake p) (s.setPhase p .beginning)
  | absorb {p : P} {k : K} {i : Fin NBUF} {d : Bool} : s.phase p = .inOp →
      s.cache.uses (.inl (p, k)) = .held i d → s.lh.length < LOGBLOCKS → 1 ≤ s.outstanding →
      (s.cache.bufs i).blockno ∈ s.lh →
      Steps sb dev s (.logWrite p k) (recorded s p k i)
  | pin {p : P} {k : K} {i : Fin NBUF} {d : Bool} {c : Cache (Agent P K)} : s.phase p = .inOp →
      s.cache.uses (.inl (p, k)) = .held i d → s.lh.length < LOGBLOCKS → 1 ≤ s.outstanding →
      (s.cache.bufs i).blockno ∉ s.lh →
      (s.cache.setUse (.inl (p, k)) (.held i false)).bpin (.inl (p, k)) = some c →
      Steps sb dev s (.logWrite p k) ((recorded s p k i).setCache c)
  | endLast {p : P} : s.phase p = .inOp → s.comitting = false → s.outstanding - 1 = 0 →
      Steps sb dev s (.endOp p) { s.setPhase p (.committing .start) with
        outstanding := s.outstanding - 1, comitting := true }
  | endOther {p : P} : s.phase p = .inOp → s.comitting = false → s.outstanding - 1 ≠ 0 →
      Steps sb dev s (.endOp p)
        ({ s with outstanding := s.outstanding - 1 }.setPhase p .outside).wakeup
  | instr {p : P} {pc : Pc} {ins : Instr} {t : State P K} : s.phase p = .committing pc →
      nextInstr sb s.lh pc = some ins → execInstr dev s ins = some (.ok t) →
      Steps sb dev s (.commit p) (t.setPhase p (.committing (Pc.bump pc)))
  | jump {p : P} {pc pc' : Pc} : s.phase p = .committing pc → Jump s.lh pc pc' →
      Steps sb dev s (.commit p) (s.setPhase p (.committing pc'))
  | clear {p : P} {tail k : Nat} : s.phase p = .committing (.install tail k) →
      s.lh.length ≤ tail →
      Steps sb dev s (.commit p) { s.setPhase p (.committing (.clearHead 0)) with lh := [] }
  | finish {p : P} : s.phase p = .committing .done →
      Steps sb dev s (.finish p) (finish s p)
  | bget {p : P} {k : K} {dv b : Nat} {c : Cache (Agent P K)} : s.running p →
      s.cache.uses (.inl (p, k)) = .idle → s.cache.bget (.inl (p, k)) dv b = some c →
      Steps sb dev s (.bget p k dv b) (s.setCache c)
  | acquiresleep {p : P} {k : K} {c : Cache (Agent P K)} : s.running p →
      s.cache.acquiresleep (.inl (p, k)) = some c →
      Steps sb dev s (.acquiresleep p k) (s.setCache c)
  | fill {p : P} {k : K} {c : Cache (Agent P K)} : s.running p →
      s.cache.fill (.inl (p, k)) = some c →
      Steps sb dev s (.fill p k) (s.setCache c)
  | modify {p : P} {k : K} {x : Block} {c : Cache (Agent P K)} : s.running p →
      s.cache.modify (.inl (p, k)) x = some c →
      Steps sb dev s (.modify p k x) (s.setCache c)
  | bwrite {p : P} {k : K} {i : Fin NBUF} {d : Bool} {c : Cache (Agent P K)} : s.running p →
      s.cache.uses (.inl (p, k)) = .held i d → s.cache.bwrite (.inl (p, k)) = some c →
      Steps sb dev s (.bwrite p k) ((s.publish i).setCache c)
  | releasesleep {p : P} {k : K} {c : Cache (Agent P K)} : s.running p →
      s.cache.releasesleep (.inl (p, k)) = some c →
      Steps sb dev s (.releasesleep p k) (s.setCache c)
  | unref {p : P} {k : K} {c : Cache (Agent P K)} : s.running p →
      s.cache.unref (.inl (p, k)) = some c →
      Steps sb dev s (.unref p k) (s.setCache c)

/-! ### The inversion -/

variable {s s' : State P K} {p : P}

/-- A buffer function replaces the cache. -/
theorem client_ok {r : Option (Cache (Agent P K))} (h : client s p r = some (.ok s')) :
    s.running p ∧ ∃ c, r = some c ∧ s' = s.setCache c := by
  unfold client at h
  split at h
  · rename_i hrun
    cases r with
    | none => simp at h
    | some c => exact ⟨hrun, c, rfl, by simpa using h.symm⟩
  · simp at h

variable {e : LogSys.Panic}

/-- A buffer function does not panic, `bget` apart. -/
theorem client_error {r : Option (Cache (Agent P K))} :
    client s p r ≠ some (.error e) := by
  unfold client
  split
  · cases r <;> simp
  · simp

theorem holds_eq_some {a : Agent P K} {i : Fin NBUF} :
    s.holds a = some i ↔ ∃ d, s.cache.uses a = .held i d := by
  unfold State.holds
  cases h : s.cache.uses a <;> simp

variable [DecidableEq P] [DecidableEq K]

variable {dev : Nat}

/-- A step inside a body: either its next instruction, or the jump at its end. -/
theorem runBody_ok {body : List Instr} {k : Nat} {here : Nat → Pc} {next : Pc}
    (h : runBody dev s p body k here next = some (.ok s')) :
    (∃ ins t, body[k]? = some ins ∧ execInstr dev s ins = some (.ok t) ∧
      s' = t.setPhase p (.committing (here (k + 1)))) ∨
    (body.length ≤ k ∧ s' = s.setPhase p (.committing next)) := by
  unfold runBody at h
  split at h
  · rename_i ins hk
    obtain ⟨r, hr, hs'⟩ := Option.map_eq_some_iff.mp h
    cases r with
    | error e => cases hs'
    | ok t => exact Or.inl ⟨ins, t, hk, hr, by cases hs'; rfl⟩
  · rename_i hk
    exact Or.inr ⟨List.getElem?_eq_none_iff.mp hk, by cases h; rfl⟩

variable {sb : Superblock}

/-- A step of `commit`. -/
theorem steps_of_commitStep {pc : Pc} (hp : s.phase p = .committing pc)
    (h : commitStep sb dev s p pc = some (.ok s')) :
    Steps sb dev s (.commit p) s' := by
  cases pc with
  | start =>
    simp only [commitStep] at h
    split at h
    · rename_i hpos
      cases h
      exact .jump hp (.enter hpos)
    · rename_i hzero
      cases h
      exact .jump hp (.skip (by omega))
  | writeLog tail k =>
    simp only [commitStep] at h
    split at h
    · rename_i hlt
      rcases runBody_ok h with ⟨ins, t, hk, ht, rfl⟩ | ⟨hk, rfl⟩
      · exact .instr hp (by rw [nextInstr, code, if_pos hlt]; exact hk) ht
      · exact .jump hp (.nextLog hlt hk)
    · cases h
      exact .jump hp (.logEnd (by omega))
  | writeHead k =>
    rcases runBody_ok h with ⟨ins, t, hk, ht, rfl⟩ | ⟨hk, rfl⟩
    · exact .instr hp hk ht
    · exact .jump hp (.headEnd hk)
  | install tail k =>
    simp only [commitStep] at h
    split at h
    · rename_i hlt
      rcases runBody_ok h with ⟨ins, t, hk, ht, rfl⟩ | ⟨hk, rfl⟩
      · exact .instr hp (by rw [nextInstr, code, if_pos hlt]; exact hk) ht
      · exact .jump hp (.nextInstall hlt hk)
    · cases h
      exact .clear hp (by omega)
  | clearHead k =>
    rcases runBody_ok h with ⟨ins, t, hk, ht, rfl⟩ | ⟨hk, rfl⟩
    · exact .instr hp hk ht
    · exact .jump hp (.clearEnd hk)
  | done => cases h

/-- A `log_write` that does not panic. -/
theorem steps_of_logWrite {k : K} {i : Fin NBUF} {d : Bool} (hp : s.phase p = .inOp)
    (hi : s.cache.uses (.inl (p, k)) = .held i d) (h : logWrite sb s p k i = some (.ok s')) :
    Steps sb dev s (.logWrite p k) s' := by
  simp only [LogSys.logWrite] at h
  split at h
  · cases h
  rename_i hroom
  push Not at hroom
  split at h
  · cases h
  rename_i hout
  push Not at hout
  split at h
  · rename_i hmem
    cases h
    exact .absorb hp hi hroom.1 (by omega) hmem
  · rename_i hmem
    obtain ⟨c, hc, rfl⟩ : ∃ c, (s.cache.setUse (.inl (p, k)) (.held i false)).bpin (.inl (p, k))
        = some c ∧ s' = (recorded s p k i).setCache c := by
      obtain ⟨c, hc, hs'⟩ := Option.map_eq_some_iff.mp h
      cases hs'
      exact ⟨c, hc, rfl⟩
    exact .pin hp hi hroom.1 (by omega) hmem hc

/-- Every step of the machine is one of the listed ones. -/
theorem steps_of_step {act : Action P K} (h : step sb dev s act = some (.ok s')) :
    Steps sb dev s act s' := by
  cases act with
  | callBegin p =>
    obtain ⟨hp, rfl⟩ : s.phase p = .outside ∧ s' = s.setPhase p .beginning := by
      simpa [step, eq_comm] using h
    exact .callBegin hp
  | beginOp p =>
    obtain ⟨hp, rfl⟩ : s.phase p = .beginning ∧ s' = beginOp s p := by
      simpa [step, eq_comm] using h
    unfold beginOp
    split
    · exact .sleep hp
    · rename_i hcom
      split
      · exact .sleep hp
      · rename_i hroom
        exact .reserve hp (by simpa using hcom) (by omega)
  | wake p =>
    obtain ⟨hp, rfl⟩ : s.phase p = .sleeping ∧ s' = s.setPhase p .beginning := by
      simpa [step, eq_comm] using h
    exact .wake hp
  | logWrite p k =>
    simp only [step] at h
    split at h
    · rename_i hp
      split at h
      · rename_i i hi
        obtain ⟨d, hd⟩ := holds_eq_some.mp hi
        exact steps_of_logWrite hp hd h
      · cases h
    · cases h
  | endOp p =>
    obtain ⟨hp, hend⟩ : s.phase p = .inOp ∧ endOp s p = .ok s' := by
      simpa [step] using h
    simp only [endOp] at hend
    split at hend
    · cases hend
    rename_i hcom
    have hcom : s.comitting = false := by simpa using hcom
    split at hend
    · rename_i hzero
      cases hend
      exact .endLast hp hcom hzero
    · rename_i hne
      cases hend
      exact .endOther hp hcom hne
  | commit p =>
    simp only [step] at h
    split at h
    · rename_i pc hp
      exact steps_of_commitStep hp h
    · cases h
  | finish p =>
    obtain ⟨hp, rfl⟩ : s.phase p = .committing .done ∧ s' = finish s p := by
      simpa [step, eq_comm] using h
    exact .finish hp
  | bget p k dv b =>
    simp only [step] at h
    split at h
    · rename_i hrun
      split at h
      · rename_i c hc
        cases h
        exact .bget hrun.1 hrun.2 hc
      · cases h
    · cases h
  | acquiresleep p k =>
    obtain ⟨hrun, c, hc, rfl⟩ := client_ok h
    exact .acquiresleep hrun hc
  | fill p k =>
    obtain ⟨hrun, c, hc, rfl⟩ := client_ok h
    exact .fill hrun hc
  | modify p k x =>
    obtain ⟨hrun, c, hc, rfl⟩ := client_ok h
    exact .modify hrun hc
  | bwrite p k =>
    simp only [step] at h
    split at h
    · rename_i i hi
      obtain ⟨d, hd⟩ := holds_eq_some.mp hi
      obtain ⟨hrun, c, hc, rfl⟩ := client_ok h
      exact .bwrite hrun hd hc
    · cases h
  | releasesleep p k =>
    obtain ⟨hrun, c, hc, rfl⟩ := client_ok h
    exact .releasesleep hrun hc
  | unref p k =>
    obtain ⟨hrun, c, hc, rfl⟩ := client_ok h
    exact .unref hrun hc

/-! ### Panics -/

/-- An instruction of `commit` panics in `bget` only. -/
theorem execInstr_error {ins : Instr} (h : execInstr dev s ins = some (.error e)) :
    e = .noBuffers ∧ ∃ j b, ins = .get j b ∧ s.cache.bget (.inr j) dev b = none := by
  -- Each other instruction maps a cache to `.ok`.
  have hmap : ∀ (r : Option (Cache (Agent P K))) (f : Cache (Agent P K) → State P K),
      (r.map fun c => (Except.ok (f c) : Except LogSys.Panic (State P K))) ≠ some (.error e) := by
    intro r f
    cases r <;> simp
  cases ins with
  | get j b =>
    simp only [execInstr] at h
    split at h
    · split at h
      · cases h
      · rename_i hnone
        cases h
        exact ⟨rfl, j, b, rfl, hnone⟩
    · cases h
  | move dst src =>
    obtain ⟨i, -, hi⟩ := Option.bind_eq_some_iff.mp h
    exact absurd hi (hmap _ _)
  | putHead j =>
    obtain ⟨i, -, hi⟩ := Option.bind_eq_some_iff.mp h
    exact absurd hi (hmap _ _)
  | write j =>
    obtain ⟨i, -, hi⟩ := Option.bind_eq_some_iff.mp h
    exact absurd hi (hmap _ _)
  | lock j => exact absurd h (hmap _ _)
  | fill j => exact absurd h (hmap _ _)
  | writeHome j => exact absurd h (hmap _ _)
  | unpin j => exact absurd h (hmap _ _)
  | unlock j => exact absurd h (hmap _ _)
  | unref j => exact absurd h (hmap _ _)

theorem runBody_error {body : List Instr} {k : Nat} {here : Nat → Pc} {next : Pc}
    (h : runBody dev s p body k here next = some (.error e)) :
    ∃ ins, body[k]? = some ins ∧ execInstr dev s ins = some (.error e) := by
  unfold runBody at h
  split at h
  · rename_i ins hk
    obtain ⟨r, hr, hs'⟩ := Option.map_eq_some_iff.mp h
    cases r with
    | error e' =>
      have he : e' = e := by simpa [Except.map] using hs'
      exact ⟨ins, hk, he ▸ hr⟩
    | ok t => cases hs'
  · cases h

/-- A panic of `commit` comes from its next instruction. -/
theorem commitStep_error {pc : Pc} (h : commitStep sb dev s p pc = some (.error e)) :
    ∃ ins, nextInstr sb s.lh pc = some ins ∧ execInstr dev s ins = some (.error e) := by
  cases pc with
  | start => cases h
  | writeLog tail k =>
    simp only [commitStep] at h
    split at h
    · rename_i hlt
      obtain ⟨ins, hk, hins⟩ := runBody_error h
      exact ⟨ins, by rw [nextInstr, code, if_pos hlt]; exact hk, hins⟩
    · cases h
  | writeHead k => exact runBody_error h
  | install tail k =>
    simp only [commitStep] at h
    split at h
    · rename_i hlt
      obtain ⟨ins, hk, hins⟩ := runBody_error h
      exact ⟨ins, by rw [nextInstr, code, if_pos hlt]; exact hk, hins⟩
    · cases h
  | clearHead k => exact runBody_error h
  | done => cases h

/-- Where a panic comes from: a full log, a `log_write` outside of a transaction, an `end_op`
during a commit, or a `bget` without a free buffer. -/
theorem step_error {act : Action P K} (h : step sb dev s act = some (.error e)) :
    (∃ p k, act = .logWrite p k ∧ s.phase p = .inOp ∧ e = .tooBig ∧
      (LOGBLOCKS ≤ s.lh.length ∨ (sb.nblocks : Int) - 1 ≤ s.lh.length)) ∨
    (∃ p k, act = .logWrite p k ∧ s.phase p = .inOp ∧ e = .outsideTrans ∧ s.outstanding < 1) ∨
    (∃ p, act = .endOp p ∧ s.phase p = .inOp ∧ e = .comitting ∧ s.comitting = true) ∨
    (∃ p k dv b, act = .bget p k dv b ∧ e = .noBuffers) ∨
    (∃ p pc ins, act = .commit p ∧ s.phase p = .committing pc ∧ e = .noBuffers ∧
      nextInstr sb s.lh pc = some ins ∧ execInstr dev s ins = some (.error e)) := by
  cases act with
  | callBegin p => simp [step] at h
  | beginOp p => simp [step] at h
  | wake p => simp [step] at h
  | finish p => simp [step] at h
  | logWrite p k =>
    simp only [step] at h
    split at h
    · rename_i hp
      split at h
      · rename_i i hi
        simp only [LogSys.logWrite] at h
        split at h
        · rename_i hfull
          cases h
          exact Or.inl ⟨p, k, rfl, hp, rfl, hfull⟩
        split at h
        · rename_i hout
          cases h
          exact Or.inr (Or.inl ⟨p, k, rfl, hp, rfl, hout⟩)
        split at h
        · cases h
        · obtain ⟨c, -, hc⟩ := Option.map_eq_some_iff.mp h
          cases hc
      · cases h
    · cases h
  | endOp p =>
    obtain ⟨hp, hend⟩ : s.phase p = .inOp ∧ endOp s p = .error e := by
      simpa [step] using h
    simp only [endOp] at hend
    split at hend
    · rename_i hcom
      cases hend
      exact Or.inr (Or.inr (Or.inl ⟨p, rfl, hp, rfl, hcom⟩))
    · split at hend <;> cases hend
  | commit p =>
    simp only [step] at h
    split at h
    · rename_i pc hp
      obtain ⟨ins, hins, herr⟩ := commitStep_error h
      obtain ⟨rfl, -⟩ := execInstr_error herr
      exact Or.inr (Or.inr (Or.inr (Or.inr ⟨p, pc, ins, rfl, hp, rfl, hins, herr⟩)))
    · cases h
  | bget p k dv b =>
    simp only [step] at h
    split at h
    · split at h
      · cases h
      · cases h
        exact Or.inr (Or.inr (Or.inr (Or.inl ⟨p, k, dv, b, rfl, rfl⟩)))
    · cases h
  | bwrite p k =>
    simp only [step] at h
    split at h
    · exact absurd h client_error
    · cases h
  | acquiresleep p k => exact absurd h client_error
  | fill p k => exact absurd h client_error
  | modify p k x => exact absurd h client_error
  | releasesleep p k => exact absurd h client_error
  | unref p k => exact absurd h client_error

end Xv6.Proofs.LogSys
