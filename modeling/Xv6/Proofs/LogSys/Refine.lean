import Xv6.Proofs.LogSys.Protocol
import Xv6.Proofs.LogSys.Slots

/-!
# `Xv6.Proofs.LogSys.Refine`: the invariant of cache and log

`Refines sb dev s pc` is the invariant of the whole machine, where `pc` is the program point
of the process in `commit` (`done` when there is none). The cache shows the flat store
(`Coherent`), with the logged blocks pinned up to the point where `install_trans` unpins
them, and pending up to the point where it writes them home. Between the copy of `write_log`
and the copy back of `install_trans`, a block and its log block have the same contents
(`copies`).

The step lemmas follow the machine: steps of the callers, `log_write`, the instructions of
`commit`, and the moves between its loops. `refines_step` puts them together. The callers
must keep to `Polite`, which says what they owe the log.
-/

set_option autoImplicit false

namespace Xv6.Proofs.LogSys

open Xv6.Lib
open Xv6.Kernel
open Xv6.Kernel.LogSys
open Xv6.Proofs.Cache

/-! ### Progress of `commit` -/

/-- How many logged blocks `install_trans` has unpinned. -/
def unpinned : Pc → Nat
  | .install tail k => tail + if 9 ≤ k then 1 else 0
  | _ => 0

/-- How many logged blocks `install_trans` has written home. -/
def installed : Pc → Nat
  | .install tail k => tail + if 8 ≤ k then 1 else 0
  | _ => 0

/-- How many logged blocks `write_log` has copied to the log. -/
def copied (lh : List Nat) : Pc → Nat
  | .writeLog tail k => min lh.length (tail + if 8 ≤ k then 1 else 0)
  | .writeHead _ => lh.length
  | .install _ _ => lh.length
  | _ => 0

/-- `write_log` has its first buffer. -/
def Past : Pc → Prop
  | .writeLog tail k => 0 < tail ∨ 0 < k
  | .writeHead _ => True
  | .install _ _ => True
  | _ => False

/-- A loop body has just copied one buffer into the other. -/
def Moved : Pc → Prop
  | .writeLog _ k => k = 7
  | .install _ k => k = 7
  | _ => False

variable {sb : Superblock} {lh : List Nat} {pc : Pc} {ins : Instr}

theorem unpinned_bump (h : nextInstr sb lh pc = some ins) (hins : ∀ j, ins ≠ .unpin j) :
    unpinned (Pc.bump pc) = unpinned pc := by
  cases pc with
  | install tail k =>
    obtain ⟨-, -, hk⟩ := nextInstr_install h
    have hne : k ≠ 8 := by
      rintro rfl
      exact hins true (by simpa [installBody] using hk.symm)
    simp only [Pc.bump, unpinned]
    split <;> split <;> omega
  | start => rfl
  | writeLog tail k => rfl
  | writeHead k => rfl
  | clearHead k => rfl
  | done => rfl

theorem installed_bump (h : nextInstr sb lh pc = some ins) (hins : ∀ j, ins ≠ .writeHome j) :
    installed (Pc.bump pc) = installed pc := by
  cases pc with
  | install tail k =>
    obtain ⟨-, -, hk⟩ := nextInstr_install h
    have hne : k ≠ 7 := by
      rintro rfl
      exact hins true (by simpa [installBody] using hk.symm)
    simp only [Pc.bump, installed]
    split <;> split <;> omega
  | start => rfl
  | writeLog tail k => rfl
  | writeHead k => rfl
  | clearHead k => rfl
  | done => rfl

theorem copied_bump (h : nextInstr sb lh pc = some ins) (hins : ∀ tail, pc ≠ .writeLog tail 7) :
    copied lh (Pc.bump pc) = copied lh pc := by
  cases pc with
  | writeLog tail k =>
    have hne : k ≠ 7 := by
      rintro rfl
      exact hins tail rfl
    simp only [Pc.bump, copied]
    split <;> split <;> omega
  | start => rfl
  | install tail k => rfl
  | writeHead k => rfl
  | clearHead k => rfl
  | done => rfl

/-- Only a copy leads to a point right after a copy. -/
theorem moved_bump (h : nextInstr sb lh pc = some ins) (hm : Moved (Pc.bump pc)) :
    ∃ j, ins = .move j (!j) := by
  cases pc with
  | writeLog tail k =>
    obtain ⟨-, -, hk⟩ := nextInstr_writeLog h
    obtain rfl : k = 6 := by simpa [Moved, Pc.bump] using hm
    exact ⟨false, by simpa [writeLogBody] using hk.symm⟩
  | install tail k =>
    obtain ⟨-, -, hk⟩ := nextInstr_install h
    obtain rfl : k = 6 := by simpa [Moved, Pc.bump] using hm
    exact ⟨true, by simpa [installBody] using hk.symm⟩
  | start => exact hm.elim
  | writeHead k => exact hm.elim
  | clearHead k => exact hm.elim
  | done => exact hm.elim

theorem past_bump (h : Past (Pc.bump pc)) : Past pc ∨ pc = .writeLog 0 0 := by
  cases pc with
  | writeLog tail k =>
    rcases Nat.eq_zero_or_pos tail with rfl | htail
    · rcases Nat.eq_zero_or_pos k with rfl | hk
      · exact Or.inr rfl
      · exact Or.inl (Or.inr hk)
    · exact Or.inl (Or.inl htail)
  | start => exact h.elim
  | writeHead k => exact Or.inl trivial
  | install tail k => exact Or.inl trivial
  | clearHead k => exact h.elim
  | done => exact h.elim

theorem copied_le (lh : List Nat) (pc : Pc) : copied lh pc ≤ lh.length := by
  cases pc with
  | writeLog tail k => exact Nat.min_le_left _ _
  | writeHead k => exact Nat.le_refl _
  | install tail k => exact Nat.le_refl _
  | start => exact Nat.zero_le _
  | clearHead k => exact Nat.zero_le _
  | done => exact Nat.zero_le _

variable {t : Nat}

theorem getD_mem_of_lt (h : t < lh.length) : lh.getD t 0 ∈ lh := by
  rw [List.getD, List.getElem?_eq_getElem h]
  exact List.getElem_mem h

/-- The remaining blocks are the next one and the ones after it. -/
theorem drop_eq_getD_cons (h : t < lh.length) :
    lh.drop t = lh.getD t 0 :: lh.drop (t + 1) := by
  rw [List.drop_eq_getElem_cons h, List.getD, List.getElem?_eq_getElem h]
  rfl

theorem getD_notMem_drop (hn : lh.Nodup) (h : t < lh.length) :
    lh.getD t 0 ∉ lh.drop (t + 1) := by
  have hd : (lh.drop t).Nodup := hn.sublist (List.drop_sublist t lh)
  rw [drop_eq_getD_cons h] at hd
  exact (List.nodup_cons.mp hd).1

/-! ### The invariant -/

variable {P K : Type} [Fintype P] [Fintype K]

/-- The invariant of the machine, with `commit` at `pc`. -/
structure Refines (sb : Superblock) (dev : Nat) (s : State P K) (pc : Pc) : Prop where
  point : ∀ p pc', s.phase p = .committing pc' → pc' = pc
  quiet : (∀ p, ¬ InCommit (s.phase p)) → pc = .done
  coherent : Coherent s.cache dev (s.lh.drop (unpinned pc)) (s.lh.drop (installed pc)) s.store
  slots : stages s = slotsAt sb s.lh pc
  nodup : s.lh.Nodup
  home : ∀ b ∈ s.lh, ¬ Log.LogArea sb b
  fits : Past pc → s.lh.length < NBUF
  copies : ∀ t, installed pc ≤ t → t < copied s.lh pc →
    s.store (sb.logstart + t + 1) = s.store (s.lh.getD t 0)
  moved : Moved pc → ∀ i i' d d', s.cache.uses (.inr false) = .held i d →
    s.cache.uses (.inr true) = .held i' d' → (s.cache.bufs i).data = (s.cache.bufs i').data

/-- A block in flight: `write_log` has copied it, `install_trans` has not copied it back. Its
log block is in flight with it. -/
def InFlight (sb : Superblock) (s : State P K) (b : Nat) : Prop :=
  ∃ p pc t, s.phase p = .committing pc ∧ installed pc ≤ t ∧ t < copied s.lh pc ∧
    (b = s.lh.getD t 0 ∨ b = sb.logstart + t + 1)

/-- What the callers owe the log: they use its device, they do not log blocks of the log
area, and they do not write to the disk what is in flight. -/
def Polite (sb : Superblock) (dev : Nat) (s : State P K) : Action P K → Prop
  | .bget _ _ dv _ => dv = dev
  | .logWrite p k => ∀ i d, s.cache.uses (.inl (p, k)) = .held i d →
      ¬ Log.LogArea sb (s.cache.bufs i).blockno
  | .bwrite p k => ∀ i d, s.cache.uses (.inl (p, k)) = .held i d →
      ¬ InFlight sb s (s.cache.bufs i).blockno
  | _ => True

section Steps

variable {sb : Superblock} {dev : Nat} {s s' : State P K} {pc : Pc}

theorem refines_initial (hdev : dev ≠ 0) (d : Disk) :
    Refines sb dev (initial d : State P K) .done := by
  refine ⟨?_, fun _ => rfl, coherent_binit hdev d, ?_, List.nodup_nil, ?_, fun h => h.elim, ?_,
    fun h => h.elim⟩
  · intro p pc' hp
    cases hp
  · funext j
    rfl
  · intro b hb
    cases hb
  · intro t _ ht
    exact absurd ht (Nat.not_lt_zero t)

/-- Unless `commit` is done, some process is at its point. -/
theorem Refines.exists_point (h : Refines sb dev s pc) (hpc : pc ≠ .done) :
    ∃ q, s.phase q = .committing pc := by
  by_contra hnone
  apply hpc
  apply h.quiet
  intro q hq
  obtain ⟨pc', hphase⟩ := inCommit_iff.mp hq
  rw [h.point q pc' hphase] at hphase
  exact hnone ⟨q, hphase⟩

/-- A process that is not in `commit` does not matter to the invariant. -/
theorem Refines.rephase (h : Refines sb dev s pc) (hcache : s'.cache = s.cache)
    (hlh : s'.lh = s.lh) (hstore : s'.store = s.store)
    (hpoint : ∀ p pc', s'.phase p = .committing pc' → pc' = pc)
    (hquiet : (∀ p, ¬ InCommit (s'.phase p)) → pc = .done) : Refines sb dev s' pc := by
  refine ⟨hpoint, hquiet, ?_, ?_, ?_, ?_, ?_, ?_, ?_⟩
  · rw [hcache, hlh, hstore]
    exact h.coherent
  · unfold stages
    rw [hcache, hlh]
    exact h.slots
  · rw [hlh]
    exact h.nodup
  · rw [hlh]
    exact h.home
  · rw [hlh]
    exact h.fits
  · rw [hlh, hstore]
    exact h.copies
  · rw [hcache]
    exact h.moved

variable {c : Cache (Agent P K)}

/-- A step of a caller on the cache. The store may change outside of what is in flight. -/
theorem Refines.client {c : Cache (Agent P K)} {store : Disk} {a : P × K}
    (h : Refines sb dev s pc) (hk : Keeps s.cache c (.inl a))
    (hc : Coherent c dev (s.lh.drop (unpinned pc)) (s.lh.drop (installed pc)) store)
    (hflight : ∀ t, installed pc ≤ t → t < copied s.lh pc →
      store (sb.logstart + t + 1) = s.store (sb.logstart + t + 1) ∧
        store (s.lh.getD t 0) = s.store (s.lh.getD t 0)) :
    Refines sb dev { s with cache := c, store := store } pc := by
  refine ⟨h.point, h.quiet, hc, ?_, h.nodup, h.home, h.fits, ?_, ?_⟩
  · rw [show ({ s with cache := c, store := store } : State P K).lh = s.lh from rfl, ← h.slots]
    funext j
    exact stages_keeps h.coherent hk (by simp)
  · intro t ht ht'
    obtain ⟨h₁, h₂⟩ := hflight t ht ht'
    show store (sb.logstart + t + 1) = store (s.lh.getD t 0)
    rw [h₁, h₂]
    exact h.copies t ht ht'
  · intro hm i i' d d' hi hi'
    -- `commit` holds the locks of both buffers, so their contents stay.
    have hi : s.cache.uses (.inr false) = .held i d := by
      rw [← hk.others (.inr false) (by simp)]
      exact hi
    have hi' : s.cache.uses (.inr true) = .held i' d' := by
      rw [← hk.others (.inr true) (by simp)]
      exact hi'
    have hl := (h.coherent.locks i (.inr false)).mpr (by rw [hi]; rfl)
    have hl' := (h.coherent.locks i' (.inr true)).mpr (by rw [hi']; rfl)
    show (c.bufs i).data = (c.bufs i').data
    rw [hk.data i _ (by simp) hl, hk.data i' _ (by simp) hl']
    exact h.moved hm i i' d d' hi hi'

/-- A step of a caller on the cache that leaves the store alone. -/
theorem Refines.client_same {a : P × K} (h : Refines sb dev s pc) (hk : Keeps s.cache c (.inl a))
    (hc : Coherent c dev (s.lh.drop (unpinned pc)) (s.lh.drop (installed pc)) s.store) :
    Refines sb dev (s.setCache c) pc :=
  h.client hk hc fun _ _ _ => ⟨rfl, rfl⟩

/-- A block of the log area that `write_log` uses. -/
theorem Refines.logArea (h : Refines sb dev s pc) (hnlog : NBUF ≤ sb.nlog) (hpast : Past pc)
    {n : Nat} (hn : n < s.lh.length) : Log.LogArea sb (sb.logstart + n + 1) := by
  have hfits := h.fits hpast
  exact ⟨by omega, by omega⟩

variable {tail : Nat}

/-- The buffer that `write_log` writes. -/
theorem Refines.writeLog_slot (h : Refines sb dev s (.writeLog tail 7)) (hlt : tail < s.lh.length) :
    ∃ i, s.cache.uses (.inr false) = .held i true ∧
      (s.cache.bufs i).blockno = sb.logstart + tail + 1 := by
  apply stageOf_eq_held
  show stages s false = _
  rw [h.slots, slotsAt_writeLog hlt]
  rfl

/-- The buffer that `write_head` writes. -/
theorem Refines.writeHead_slot (h : Refines sb dev s pc)
    (hpc : pc = .writeHead 4 ∨ pc = .clearHead 4) :
    ∃ i, s.cache.uses (.inr false) = .held i true ∧ (s.cache.bufs i).blockno = sb.logstart := by
  apply stageOf_eq_held
  show stages s false = _
  rw [h.slots]
  rcases hpc with rfl | rfl <;> rfl

/-- The slots of `install_trans` between its copy and its unpin: `lbuf` is clean, and `dbuf`
holds the block to install. -/
theorem Refines.install_slots {k : Nat} (h : Refines sb dev s (.install tail k))
    (hlt : tail < s.lh.length) (hk : k = 7 ∨ k = 8) :
    (∃ i, s.cache.uses (.inr false) = .held i false ∧
      (s.cache.bufs i).blockno = sb.logstart + tail + 1) ∧
    (∃ i, s.cache.uses (.inr true) = .held i (decide (k = 7)) ∧
      (s.cache.bufs i).blockno = s.lh.getD tail 0) := by
  constructor
  · apply stageOf_eq_held
    show stages s false = _
    rw [h.slots, slotsAt_install hlt]
    rcases hk with rfl | rfl <;> rfl
  · apply stageOf_eq_held
    show stages s true = _
    rw [h.slots, slotsAt_install hlt]
    rcases hk with rfl | rfl <;> rfl

/-! ### Moves of the processes -/

theorem Refines.wakeup (h : Refines sb dev s pc) : Refines sb dev s.wakeup pc := by
  refine h.rephase rfl rfl rfl ?_ ?_
  · intro q pc' hq
    exact h.point q pc' ((wakeup_committing s q pc').mp hq)
  · intro hnone
    apply h.quiet
    intro q hq
    obtain ⟨pc', hpc'⟩ := inCommit_iff.mp hq
    exact hnone q (inCommit_iff.mpr ⟨pc', (wakeup_committing s q pc').mpr hpc'⟩)

variable [DecidableEq P]

variable {p : P}

/-- A jump inside `commit`. -/
theorem Refines.jump {pc' : Pc} (hprot : Protocol s) (h : Refines sb dev s pc)
    (hp : s.phase p = .committing pc) (hj : Jump s.lh pc pc') :
    Refines sb dev (s.setPhase p (.committing pc')) pc' := by
  obtain ⟨hidle, hidle'⟩ : slotsAt sb s.lh pc = (fun _ => .idle) ∧
      slotsAt sb s.lh pc' = fun _ => .idle := slotsAt_jump hj
  have hun : unpinned pc' = unpinned pc := by
    cases hj with
    | nextInstall hlt hk => simp only [unpinned]; split <;> split <;> omega
    | _ => rfl
  have hin : installed pc' = installed pc := by
    cases hj with
    | nextInstall hlt hk => simp only [installed]; split <;> split <;> omega
    | _ => rfl
  have hco : copied s.lh pc' ≤ copied s.lh pc := by
    cases hj with
    | enter _ => simp [copied]
    | skip _ => exact Nat.le_refl _
    | nextLog hlt hk => simp only [copied]; split <;> split <;> omega
    | logEnd hge => simp only [copied]; split <;> omega
    | headEnd _ => exact Nat.le_refl _
    | nextInstall _ _ => exact Nat.le_refl _
    | clearEnd _ => exact Nat.le_refl _
  refine ⟨point_setPhase hprot (Or.inl (by rw [hp]; trivial)), quiet_setPhase, ?_, ?_, h.nodup,
    h.home, ?_, ?_, ?_⟩
  · rw [hun, hin]
    exact h.coherent
  · show stages s = slotsAt sb s.lh pc'
    rw [h.slots, hidle, hidle']
  · intro hpast
    show s.lh.length < NBUF
    cases hj with
    | enter _ => rcases hpast with hp | hp <;> exact absurd hp (Nat.lt_irrefl 0)
    | skip _ => exact hpast.elim
    | nextLog hlt hk => exact h.fits (Or.inr (by omega))
    | @logEnd tail k hge =>
      -- Without a logged block there is nothing to fit.
      rcases Nat.eq_zero_or_pos tail with rfl | htail
      · have : 0 < NBUF := by decide
        omega
      · exact h.fits (Or.inl htail)
    | headEnd _ => exact h.fits trivial
    | nextInstall _ _ => exact h.fits trivial
    | clearEnd _ => exact hpast.elim
  · intro n hn hn'
    rw [hin] at hn
    exact h.copies n hn (Nat.lt_of_lt_of_le hn' hco)
  · intro hm
    cases hj with
    | enter _ => cases hm
    | nextLog _ _ => cases hm
    | nextInstall _ _ => cases hm
    | headEnd _ => cases hm
    | skip _ => exact hm.elim
    | logEnd _ => exact hm.elim
    | clearEnd _ => exact hm.elim

/-- `log.lh.n = 0` after `install_trans`. -/
theorem Refines.clear {k : Nat} (hprot : Protocol s) (h : Refines sb dev s (.install tail k))
    (hp : s.phase p = .committing (.install tail k)) (hge : s.lh.length ≤ tail) :
    Refines sb dev { s.setPhase p (.committing (.clearHead 0)) with lh := [] } (.clearHead 0) := by
  have hslots : stages s = fun _ => .idle := by
    rw [h.slots]
    apply slotsAt_of_count_le
    rw [code, if_neg (Nat.not_lt.mpr hge)]
    exact Nat.zero_le _
  have hcoh : Coherent s.cache dev [] [] s.store := by
    have hold := h.coherent
    rw [List.drop_eq_nil_of_le (by simp only [unpinned]; omega),
      List.drop_eq_nil_of_le (by simp only [installed]; omega)] at hold
    exact hold
  exact ⟨point_setPhase hprot (Or.inl (by rw [hp]; trivial)), quiet_setPhase, hcoh, hslots,
    List.nodup_nil, (fun b hb => by cases hb), fun hpast => hpast.elim,
    fun n _ hn => absurd hn (Nat.not_lt_zero n), fun hm => hm.elim⟩

variable {t : State P K}

/-- `end_op` of the last operation starts `commit`. -/
theorem Refines.start (hprot : Protocol s) (h : Refines sb dev s .done)
    (hnone : ∀ q, ¬ InCommit (s.phase q)) (hcache : t.cache = s.cache) (hlh : t.lh = s.lh)
    (hstore : t.store = s.store) (hphase : t.phase = (s.setPhase p (.committing .start)).phase) :
    Refines sb dev t .start := by
  have hstart : Refines sb dev (s.setPhase p (.committing .start)) .start :=
    ⟨point_setPhase hprot (Or.inr hnone), quiet_setPhase, h.coherent, h.slots, h.nodup, h.home,
      fun hpast => hpast.elim, fun n _ hn => absurd hn (Nat.not_lt_zero n), fun hm => hm.elim⟩
  refine hstart.rephase hcache hlh hstore ?_ ?_
  · rw [hphase]
    exact hstart.point
  · rw [hphase]
    exact hstart.quiet

/-- A move of a process that is not in `commit`, before and after. -/
theorem Refines.move {ph ph' : Phase} (h : Refines sb dev s pc) (hp : s.phase p = ph)
    (hph : ¬ InCommit ph) (hph' : ¬ InCommit ph') (hcache : t.cache = s.cache) (hlh : t.lh = s.lh)
    (hstore : t.store = s.store) (hphase : t.phase = (s.setPhase p ph').phase) :
    Refines sb dev t pc := by
  have hof : ∀ q, q ≠ p → t.phase q = s.phase q := fun q hq => by
    rw [hphase]
    exact Function.update_of_ne hq _ _
  have hself : t.phase p = ph' := by
    rw [hphase]
    exact Function.update_self ..
  refine h.rephase hcache hlh hstore ?_ ?_
  · intro q pc' hq
    by_cases hqp : q = p
    · rw [hqp, hself] at hq
      exact absurd (by rw [hq]; trivial) hph'
    · rw [hof q hqp] at hq
      exact h.point q pc' hq
  · intro hnone
    apply h.quiet
    intro q hq
    by_cases hqp : q = p
    · rw [hqp, hp] at hq
      exact hph hq
    · exact hnone q (by rw [hof q hqp]; exact hq)

/-- `end_op` after `commit` returned. -/
theorem Refines.finish (h : Refines sb dev s pc) (hp : s.phase p = .committing .done) :
    Refines sb dev (finish s p) .done := by
  obtain rfl := h.point p .done hp
  have hmove : Refines sb dev (s.setPhase p .outside) .done := by
    refine h.rephase rfl rfl rfl ?_ fun _ => rfl
    intro q pc' hq
    by_cases hqp : q = p
    · rw [hqp] at hq
      simp only [State.setPhase, Function.update_self] at hq
      cases hq
    · simp only [State.setPhase, Function.update_of_ne hqp] at hq
      exact h.point q pc' hq
  exact hmove.wakeup.rephase rfl rfl rfl hmove.wakeup.point hmove.wakeup.quiet

/-! ### Writes of the callers -/

variable [DecidableEq K]

variable {k : K} {i : Fin NBUF} {d : Bool}

/-- The write of a caller to the disk, of a block that is not in flight. -/
theorem Refines.client_bwrite (h : Refines sb dev s pc)
    (hu : s.cache.uses (.inl (p, k)) = .held i d) (hc : s.cache.bwrite (.inl (p, k)) = some c)
    (hpolite : ¬ InFlight sb s (s.cache.bufs i).blockno) :
    Refines sb dev ((s.publish i).setCache c) pc := by
  obtain ⟨i', d', -, -, t⟩ := bwrite_touch hc
  refine h.client (t.keeps (Or.inl rfl))
    (h.coherent.bwrite hu hc (fun _ _ => Iff.rfl) fun _ hx => hx) ?_
  intro t ht ht'
  -- Something is in flight, so some process is in `commit`, at `pc`.
  obtain ⟨q, hq⟩ : ∃ q, s.phase q = .committing pc := by
    apply h.exists_point
    rintro rfl
    exact absurd ht' (Nat.not_lt_zero t)
  constructor
  · exact Function.update_of_ne (fun he => hpolite ⟨q, pc, t, hq, ht, ht', Or.inr he.symm⟩) _ _
  · exact Function.update_of_ne (fun he => hpolite ⟨q, pc, t, hq, ht, ht', Or.inl he.symm⟩) _ _

/-- `log_write` on a block outside of the log area, while nothing commits. -/
theorem Refines.recorded (h : Refines sb dev s .done)
    (hu : s.cache.uses (.inl (p, k)) = .held i d) (hmem : (s.cache.bufs i).blockno ∈ s.lh) :
    Refines sb dev (recorded s p k i) .done := by
  have hcoh : Coherent s.cache dev s.lh s.lh s.store := h.coherent
  have habsorb : Log.absorb s.lh (s.cache.bufs i).blockno = s.lh := by
    rw [Log.absorb, if_pos hmem]
  have hclient : Refines sb dev { s with
      cache := s.cache.setUse (.inl (p, k)) (.held i false)
      store := Function.update s.store (s.cache.bufs i).blockno (s.cache.bufs i).data } .done :=
    h.client ((setUse_touch (i := i)).keeps (Or.inl rfl)) (hcoh.absorb hu hmem)
      fun t _ ht => absurd ht (Nat.not_lt_zero t)
  refine hclient.rephase rfl ?_ rfl h.point h.quiet
  exact habsorb

/-- `log_write` on a new block outside of the log area, while nothing commits. -/
theorem Refines.recorded_pin (h : Refines sb dev s .done)
    (hu : s.cache.uses (.inl (p, k)) = .held i d) (hnew : (s.cache.bufs i).blockno ∉ s.lh)
    (hc : (s.cache.setUse (.inl (p, k)) (.held i false)).bpin (.inl (p, k)) = some c)
    (hhome : ¬ Log.LogArea sb (s.cache.bufs i).blockno) :
    Refines sb dev ((LogSys.recorded s p k i).setCache c) .done := by
  have hcoh : Coherent s.cache dev s.lh s.lh s.store := h.coherent
  have habsorb : Log.absorb s.lh (s.cache.bufs i).blockno
      = s.lh ++ [(s.cache.bufs i).blockno] := by
    rw [Log.absorb, if_neg hnew]
  have hlh : ((LogSys.recorded s p k i).setCache c).lh = s.lh ++ [(s.cache.bufs i).blockno] :=
    habsorb
  obtain ⟨-, t⟩ := bpin_touch hc
  refine ⟨h.point, h.quiet, ?_, ?_, ?_, ?_, fun hp => hp.elim, ?_, fun hm => hm.elim⟩
  · rw [hlh]
    exact hcoh.pin hu hnew hc
  · have hkeep : stages ((LogSys.recorded s p k i).setCache c) = stages s := by
      funext j
      exact stages_keeps hcoh (t.keeps (Or.inl rfl)) (by simp)
    rw [hkeep, h.slots]
    rfl
  · rw [hlh]
    exact List.Nodup.append h.nodup (List.nodup_singleton _) (by simpa using hnew)
  · rw [hlh]
    intro b hb
    rcases List.mem_append.mp hb with hb | hb
    · exact h.home b hb
    · rw [List.mem_singleton.mp hb]
      exact hhome
  · intro t _ ht
    exact absurd ht (Nat.not_lt_zero t)

/-! ### The instructions of `commit` -/

/-- An instruction that neither writes nor unpins keeps the cache coherent, and the store as
it is. -/
theorem Refines.execInstr_plain (h : Refines sb dev s pc)
    (ht : execInstr dev s ins = some (.ok t)) (hwrite : ∀ j, ins ≠ .write j)
    (hhome : ∀ j, ins ≠ .writeHome j) (hunpin : ∀ j, ins ≠ .unpin j) :
    t.store = s.store ∧
      Coherent t.cache dev (s.lh.drop (unpinned pc)) (s.lh.drop (installed pc)) s.store := by
  cases ins with
  | get j b =>
    simp only [execInstr] at ht
    split at ht
    · rename_i hidle
      split at ht
      · rename_i c hget
        cases ht
        exact ⟨rfl, h.coherent.bget hidle hget⟩
      · cases ht
    · cases ht
  | lock j =>
    obtain ⟨c, hc, hs⟩ := Option.map_eq_some_iff.mp ht
    cases hs
    exact ⟨rfl, h.coherent.acquiresleep hc⟩
  | fill j =>
    obtain ⟨c, hc, hs⟩ := Option.map_eq_some_iff.mp ht
    cases hs
    exact ⟨rfl, h.coherent.fill hc⟩
  | move dst src =>
    obtain ⟨i, -, hi⟩ := Option.bind_eq_some_iff.mp ht
    obtain ⟨c, hc, hs⟩ := Option.map_eq_some_iff.mp hi
    cases hs
    exact ⟨rfl, h.coherent.modify hc⟩
  | putHead j =>
    obtain ⟨i, -, hi⟩ := Option.bind_eq_some_iff.mp ht
    obtain ⟨c, hc, hs⟩ := Option.map_eq_some_iff.mp hi
    cases hs
    exact ⟨rfl, h.coherent.modify hc⟩
  | write j => exact absurd rfl (hwrite j)
  | writeHome j => exact absurd rfl (hhome j)
  | unpin j => exact absurd rfl (hunpin j)
  | unlock j =>
    obtain ⟨c, hc, hs⟩ := Option.map_eq_some_iff.mp ht
    cases hs
    exact ⟨rfl, h.coherent.releasesleep hc⟩
  | unref j =>
    obtain ⟨c, hc, hs⟩ := Option.map_eq_some_iff.mp ht
    cases hs
    exact ⟨rfl, h.coherent.unref hc⟩

/-- The invariant after an instruction, from the parts that the instruction can change. -/
theorem Refines.bump {p : P} {ins : Instr} {t : State P K} (hprot : Protocol s)
    (h : Refines sb dev s pc) (hp : s.phase p = .committing pc)
    (hins : nextInstr sb s.lh pc = some ins) (ht : execInstr dev s ins = some (.ok t))
    (hcoh : Coherent t.cache dev (s.lh.drop (unpinned (Pc.bump pc)))
      (s.lh.drop (installed (Pc.bump pc))) t.store)
    (hcopies : ∀ n, installed (Pc.bump pc) ≤ n → n < copied s.lh (Pc.bump pc) →
      t.store (sb.logstart + n + 1) = t.store (s.lh.getD n 0))
    (hnlog : NBUF ≤ sb.nlog) :
    Refines sb dev (t.setPhase p (.committing (Pc.bump pc))) (Pc.bump pc) := by
  have hsame := execInstr_sameLog ht
  have hlh : (t.setPhase p (.committing (Pc.bump pc))).lh = s.lh := hsame.lh
  have hstages : stages t = slotsAt sb s.lh (Pc.bump pc) := by
    rw [slotsAt_bump hins, ← h.slots]
    exact execInstr_stages h.coherent ht
  refine ⟨?_, ?_, ?_, ?_, ?_, ?_, ?_, ?_, ?_⟩
  · intro q pc' hq
    by_cases hqp : q = p
    · rw [hqp] at hq
      simp only [State.setPhase, Function.update_self] at hq
      cases hq
      rfl
    · -- No other process is in `commit`.
      simp only [State.setPhase, Function.update_of_ne hqp] at hq
      rw [hsame.phase] at hq
      exact absurd (hprot.committer_unique (by rw [hp]; trivial) (by rw [hq]; trivial)) hqp
  · intro hnone
    have hself := hnone p
    simp only [State.setPhase, Function.update_self] at hself
    exact absurd trivial hself
  · rw [hlh]
    exact hcoh
  · rw [hlh]
    exact hstages
  · rw [hlh]
    exact h.nodup
  · rw [hlh]
    exact h.home
  · rw [hlh]
    intro hpast
    rcases past_bump hpast with hpast | rfl
    · exact h.fits hpast
    · -- The first buffer of `write_log` is for a block of the log area, which is not logged.
      obtain ⟨hlt, -, -⟩ := nextInstr_writeLog hins
      have hstage : stages t false = .waiting (sb.logstart + 1) := by
        rw [hstages]
        show slotsAt sb s.lh (.writeLog 0 1) false = _
        rw [slotsAt_writeLog hlt]
        rfl
      obtain ⟨i, -, hi⟩ := stageOf_eq_waiting hstage
      have hcoh' : Coherent t.cache dev s.lh s.lh t.store := hcoh
      apply hcoh'.pinned_lt h.nodup (i := i)
      rw [hi]
      intro hmem
      refine h.home _ hmem ⟨by omega, ?_⟩
      have : (1 : Nat) < NBUF := by decide
      omega
  · intro n hn hn'
    rw [hlh] at hn' ⊢
    exact hcopies n hn hn'
  · intro hm i i' d d' hi hi'
    obtain ⟨j, rfl⟩ := moved_bump hins hm
    cases j with
    | false => exact execInstr_moved ht hi hi'
    | true => exact (execInstr_moved ht hi' hi).symm

/-- The write of `write_log`: the log block gets the contents of the logged block. -/
theorem Refines.write_log (hprot : Protocol s) (h : Refines sb dev s (.writeLog tail 7))
    (hp : s.phase p = .committing (.writeLog tail 7))
    (hins : nextInstr sb s.lh (.writeLog tail 7) = some (.write false))
    (ht : execInstr dev s (.write false) = some (.ok t)) (hnlog : NBUF ≤ sb.nlog) :
    Refines sb dev (t.setPhase p (.committing (Pc.bump (.writeLog tail 7))))
      (Pc.bump (.writeLog tail 7)) := by
  obtain ⟨hlt, -, -⟩ := nextInstr_writeLog hins
  have hpast : Past (.writeLog tail 7) := Or.inr (by decide)
  -- `to` holds the log block, `from` the logged one.
  obtain ⟨i, hi, hib⟩ := h.writeLog_slot hlt
  obtain ⟨i', hi', hib'⟩ : ∃ i', s.cache.uses (.inr true) = .held i' false ∧
      (s.cache.bufs i').blockno = s.lh.getD tail 0 := by
    apply stageOf_eq_held
    show stages s true = _
    rw [h.slots, slotsAt_writeLog hlt]
    rfl
  have hdata : (s.cache.bufs i).data = s.store (s.lh.getD tail 0) := by
    rw [h.moved rfl i i' true false hi hi', h.coherent.held_clean hi', hib']
  obtain ⟨c, hc, rfl⟩ := execInstr_write hi ht
  have hcoh := h.coherent.bwrite hi hc (fun _ _ => Iff.rfl) fun _ hx => hx
  refine h.bump hprot hp hins ht hcoh ?_ hnlog
  intro n _ hn
  have hn : n < tail + 1 := Nat.lt_of_lt_of_le hn (Nat.min_le_right _ _)
  -- The log block written here is none of the logged blocks.
  have hother : ∀ m, m < s.lh.length → s.lh.getD m 0 ≠ sb.logstart + tail + 1 := fun m hm he =>
    h.home _ (getD_mem_of_lt hm) (he ▸ h.logArea hnlog hpast hlt)
  show Function.update s.store (s.cache.bufs i).blockno (s.cache.bufs i).data _
    = Function.update s.store (s.cache.bufs i).blockno (s.cache.bufs i).data _
  rw [hib, Function.update_of_ne (hother n (by omega))]
  by_cases hnt : n = tail
  · rw [hnt, Function.update_self, hdata]
  · rw [Function.update_of_ne (by omega)]
    refine h.copies n (Nat.zero_le _) ?_
    show n < min s.lh.length (tail + 0)
    omega

/-- The write of `write_head`: no copy is involved. -/
theorem Refines.write_head (hprot : Protocol s) (h : Refines sb dev s pc)
    (hpc : pc = .writeHead 4 ∨ pc = .clearHead 4) (hp : s.phase p = .committing pc)
    (hins : nextInstr sb s.lh pc = some (.write false))
    (ht : execInstr dev s (.write false) = some (.ok t)) (hnlog : NBUF ≤ sb.nlog) :
    Refines sb dev (t.setPhase p (.committing (Pc.bump pc))) (Pc.bump pc) := by
  obtain ⟨i, hi, hib⟩ := h.writeHead_slot hpc
  obtain ⟨c, hc, rfl⟩ := execInstr_write hi ht
  have hun := unpinned_bump hins (by simp)
  have hin := installed_bump hins (by simp)
  have hco : copied s.lh (Pc.bump pc) = copied s.lh pc :=
    copied_bump hins (by rcases hpc with rfl | rfl <;> simp)
  refine h.bump hprot hp hins ht ?_ ?_ hnlog
  · rw [hun, hin]
    exact h.coherent.bwrite hi hc (fun _ _ => Iff.rfl) fun _ hx => hx
  · intro n hn hn'
    rw [hin] at hn
    rw [hco] at hn'
    have hlt : n < s.lh.length := Nat.lt_of_lt_of_le hn' (copied_le _ _)
    have hpos : 0 < NBUF := by decide
    have hother : s.lh.getD n 0 ≠ sb.logstart := fun he =>
      h.home _ (getD_mem_of_lt hlt) (he ▸ ⟨Nat.le_refl _, by omega⟩)
    show Function.update s.store (s.cache.bufs i).blockno (s.cache.bufs i).data _
      = Function.update s.store (s.cache.bufs i).blockno (s.cache.bufs i).data _
    rw [hib, Function.update_of_ne (by omega), Function.update_of_ne hother]
    exact h.copies n hn hn'

/-- The write of `install_trans`: the block comes home with the latest contents. -/
theorem Refines.write_home (hprot : Protocol s) (h : Refines sb dev s (.install tail 7))
    (hp : s.phase p = .committing (.install tail 7))
    (hins : nextInstr sb s.lh (.install tail 7) = some (.writeHome true))
    (ht : execInstr dev s (.writeHome true) = some (.ok t)) (hnlog : NBUF ≤ sb.nlog) :
    Refines sb dev (t.setPhase p (.committing (Pc.bump (.install tail 7))))
      (Pc.bump (.install tail 7)) := by
  obtain ⟨hlt, -, -⟩ := nextInstr_install hins
  obtain ⟨⟨i, hi, hib⟩, i', hi', hib'⟩ := h.install_slots hlt (Or.inl rfl)
  -- What is written is what the log block holds, and that is the latest contents.
  have hdata : (s.cache.bufs i').data = s.store (s.lh.getD tail 0) := by
    rw [← h.moved rfl i i' _ _ hi hi', h.coherent.held_clean hi, hib]
    exact h.copies tail (Nat.le_refl _) hlt
  obtain ⟨c, hc, hs⟩ := Option.map_eq_some_iff.mp ht
  cases hs
  have hcoh : Coherent c dev (s.lh.drop tail) (s.lh.drop (tail + 1))
      (Function.update s.store (s.cache.bufs i').blockno (s.cache.bufs i').data) :=
    h.coherent.bwrite hi' hc ?_ ?_
  · rw [hib', hdata, Function.update_eq_self] at hcoh
    refine h.bump hprot hp hins ht hcoh ?_ hnlog
    intro n hn hn'
    exact h.copies n (Nat.le_trans (Nat.le_succ tail) hn) hn'
  · intro x hx
    show x ∈ s.lh.drop (tail + 1) ↔ x ∈ s.lh.drop tail
    rw [drop_eq_getD_cons hlt, ← hib', List.mem_cons]
    simp [hx]
  · intro x hx
    show x ∈ s.lh.drop tail
    rw [drop_eq_getD_cons hlt]
    exact List.mem_cons_of_mem _ hx

/-- The unpin of `install_trans`. -/
theorem Refines.unpin (hprot : Protocol s) (h : Refines sb dev s (.install tail 8))
    (hp : s.phase p = .committing (.install tail 8))
    (hins : nextInstr sb s.lh (.install tail 8) = some (.unpin true))
    (ht : execInstr dev s (.unpin true) = some (.ok t)) (hnlog : NBUF ≤ sb.nlog) :
    Refines sb dev (t.setPhase p (.committing (Pc.bump (.install tail 8))))
      (Pc.bump (.install tail 8)) := by
  obtain ⟨hlt, -, -⟩ := nextInstr_install hins
  obtain ⟨-, i', hi', hib'⟩ := h.install_slots hlt (Or.inr rfl)
  obtain ⟨c, hc, hs⟩ := Option.map_eq_some_iff.mp ht
  cases hs
  have hold : Coherent s.cache dev (s.lh.getD tail 0 :: s.lh.drop (tail + 1))
      (s.lh.drop (tail + 1)) s.store := by
    rw [← drop_eq_getD_cons hlt]
    exact h.coherent
  have hnot := getD_notMem_drop h.nodup hlt
  exact h.bump hprot hp hins ht (hold.bunpin hi' hib' hnot hnot hc) h.copies hnlog

/-- Every instruction of `commit` keeps the invariant. -/
theorem Refines.instr (hprot : Protocol s) (h : Refines sb dev s pc)
    (hp : s.phase p = .committing pc) (hins : nextInstr sb s.lh pc = some ins)
    (ht : execInstr dev s ins = some (.ok t)) (hnlog : NBUF ≤ sb.nlog) :
    Refines sb dev (t.setPhase p (.committing (Pc.bump pc))) (Pc.bump pc) := by
  -- An instruction that touches neither the store nor the pins.
  have hplain : (∀ j, ins ≠ .write j) → (∀ j, ins ≠ .writeHome j) → (∀ j, ins ≠ .unpin j) →
      Refines sb dev (t.setPhase p (.committing (Pc.bump pc))) (Pc.bump pc) := by
    intro hw hh hu
    obtain ⟨hstore, hcoh⟩ := h.execInstr_plain ht hw hh hu
    have hnot : ∀ tail, pc ≠ .writeLog tail 7 := by
      rintro tail rfl
      obtain ⟨-, -, hk⟩ := nextInstr_writeLog hins
      exact hw false (by simpa [writeLogBody] using hk.symm)
    refine h.bump hprot hp hins ht ?_ ?_ hnlog
    · rw [unpinned_bump hins hu, installed_bump hins hh, hstore]
      exact hcoh
    · rw [installed_bump hins hh, copied_bump hins hnot, hstore]
      exact h.copies
  cases ins with
  | write j =>
    obtain ⟨rfl, ⟨tail, rfl, -⟩ | hhead⟩ := nextInstr_at hins
    · exact h.write_log hprot hp hins ht hnlog
    · exact h.write_head hprot hhead hp hins ht hnlog
  | writeHome j =>
    obtain ⟨rfl, tail, rfl, -⟩ := nextInstr_at hins
    exact h.write_home hprot hp hins ht hnlog
  | unpin j =>
    obtain ⟨rfl, tail, rfl, -⟩ := nextInstr_at hins
    exact h.unpin hprot hp hins ht hnlog
  | get j b => exact hplain (by simp) (by simp) (by simp)
  | lock j => exact hplain (by simp) (by simp) (by simp)
  | fill j => exact hplain (by simp) (by simp) (by simp)
  | move dst src => exact hplain (by simp) (by simp) (by simp)
  | putHead j => exact hplain (by simp) (by simp) (by simp)
  | unlock j => exact hplain (by simp) (by simp) (by simp)
  | unref j => exact hplain (by simp) (by simp) (by simp)

/-! ### The step and the run -/

/-- Every polite step keeps the invariant. -/
theorem refines_step {act : Action P K} (hprot : Protocol s) (h : Refines sb dev s pc)
    (hpolite : Polite sb dev s act) (hnlog : NBUF ≤ sb.nlog) (hs : Steps sb dev s act s') :
    ∃ pc', Refines sb dev s' pc' := by
  -- Inside an operation nothing commits.
  have hdone : ∀ {p}, s.phase p = .inOp → pc = .done := fun hp =>
    h.quiet (hprot.no_committer (hprot.not_comitting hp))
  cases hs with
  | callBegin hp => exact ⟨pc, h.move hp (by simp [InCommit]) (by simp [InCommit]) rfl rfl rfl rfl⟩
  | sleep hp => exact ⟨pc, h.move hp (by simp [InCommit]) (by simp [InCommit]) rfl rfl rfl rfl⟩
  | reserve hp _ _ =>
    exact ⟨pc, h.move hp (by simp [InCommit]) (by simp [InCommit]) rfl rfl rfl rfl⟩
  | wake hp => exact ⟨pc, h.move hp (by simp [InCommit]) (by simp [InCommit]) rfl rfl rfl rfl⟩
  | absorb hp hu _ _ hmem =>
    obtain rfl := hdone hp
    exact ⟨.done, h.recorded hu hmem⟩
  | pin hp hu _ _ hnew hc =>
    obtain rfl := hdone hp
    exact ⟨.done, h.recorded_pin hu hnew hc (hpolite _ _ hu)⟩
  | endLast hp hcom _ =>
    obtain rfl := hdone hp
    exact ⟨.start, h.start hprot (hprot.no_committer hcom) rfl rfl rfl rfl⟩
  | @endOther p hp _ _ =>
    have hmove : Refines sb dev
        ({ s with outstanding := s.outstanding - 1 }.setPhase p .outside) pc :=
      h.move hp (by simp [InCommit]) (by simp [InCommit]) rfl rfl rfl rfl
    exact ⟨pc, hmove.wakeup⟩
  | @instr p pc' ins t hp hins ht =>
    obtain rfl := h.point _ _ hp
    exact ⟨Pc.bump pc', h.instr hprot hp hins ht hnlog⟩
  | @jump p pc₁ pc₂ hp hj =>
    obtain rfl := h.point _ _ hp
    exact ⟨pc₂, h.jump hprot hp hj⟩
  | clear hp hge =>
    obtain rfl := h.point _ _ hp
    exact ⟨.clearHead 0, h.clear hprot hp hge⟩
  | finish hp => exact ⟨.done, h.finish hp⟩
  | bget _ hidle hc =>
    obtain rfl := hpolite
    exact ⟨pc, h.client_same (bget_keeps hc) (h.coherent.bget hidle hc)⟩
  | acquiresleep _ hc =>
    obtain ⟨i, -, -, -, t⟩ := acquiresleep_touch hc
    exact ⟨pc, h.client_same (t.keeps (Or.inl rfl)) (h.coherent.acquiresleep hc)⟩
  | fill _ hc =>
    obtain ⟨i, b, hu, -, t, -⟩ := fill_touch hc
    have hlock := (h.coherent.locks i _).mpr (by rw [hu]; rfl)
    exact ⟨pc, h.client_same (t.keeps (Or.inr hlock)) (h.coherent.fill hc)⟩
  | modify _ hc =>
    obtain ⟨i, d, hu, -, t⟩ := modify_touch hc
    have hlock := (h.coherent.locks i _).mpr (by rw [hu]; rfl)
    exact ⟨pc, h.client_same (t.keeps (Or.inr hlock)) (h.coherent.modify hc)⟩
  | bwrite _ hu hc => exact ⟨pc, h.client_bwrite hu hc (hpolite _ _ hu)⟩
  | releasesleep _ hc =>
    obtain ⟨i, -, -, t⟩ := releasesleep_touch hc
    exact ⟨pc, h.client_same (t.keeps (Or.inl rfl)) (h.coherent.releasesleep hc)⟩
  | unref _ hc =>
    obtain ⟨i, -, -, t⟩ := unref_touch hc
    exact ⟨pc, h.client_same (t.keeps (Or.inl rfl)) (h.coherent.unref hc)⟩

/-- In every state that polite callers reach, the invariant holds. -/
theorem refines_reach {allowed : State P K → Action P K → Prop}
    (hallowed : ∀ s act, allowed s act → Polite sb dev s act) (hdev : dev ≠ 0)
    (hnlog : NBUF ≤ sb.nlog)
    (h : Reach (step sb dev) allowed (fun s => ∃ d, s = initial d) s) :
    Protocol s ∧ ∃ pc, Refines sb dev s pc := by
  refine @Reach.invariant _ _ _ _ _ _ (fun s => Protocol s ∧ ∃ pc, Refines sb dev s pc) ?_ ?_ s h
  · rintro s ⟨d, rfl⟩
    exact ⟨protocol_initial d, .done, refines_initial hdev d⟩
  · rintro s act s' ⟨hprot, pc, hinv⟩ hall hs
    have hsteps := steps_of_step hs
    exact ⟨protocol_step hprot hsteps, refines_step hprot hinv (hallowed _ _ hall) hnlog hsteps⟩

end Steps

end Xv6.Proofs.LogSys
