import Xv6.Proofs.Log.CrashAtomic
import Xv6.Proofs.LogSys.FlatStore

/-!
# `Xv6.Proofs.LogSys.CrashSafe`: a crash in any interleaving shows the last commit

`Xv6.Proofs.Log.CrashAtomic` runs one transaction after the other. Here any number of processes
run operations, and the machine may crash in every state that they reach.

`tracked` keeps beside the machine the flat store at the last commit point, the write of
`write_head` that counts the logged blocks. Before it, the home blocks on the disk are those of
the last commit. From there until the header is cleared, the entries of the header cover what is
not installed yet, and their log blocks hold the committed contents (`Redo`).
-/

set_option autoImplicit false

namespace Xv6.Proofs.LogSys

open Xv6.Lib Xv6.Kernel Xv6.Kernel.LogSys Xv6.Proofs.Cache
open Xv6.Lib.Crash (Recovers)
open Xv6.Kernel.Log (HomeEq LogArea headN headBlocks putHead recovered recoverFromLog boot)
open Xv6.Proofs.Log (EntriesOk Replays)

variable {P K : Type} {sb : Superblock} {dev : Nat} {s s' t : State P K} {pc pc' : Pc}

/-- Callers that reach the disk through the log: only `log.c` calls `bwrite`. A block number is a
`uint`. -/
def Logs (sb : Superblock) (dev : Nat) (s : State P K) : LogSys.Action P K → Prop
  | .bget _ _ dv _ => dv = dev
  | .logWrite p k => ∀ i d, s.cache.uses (.inl (p, k)) = .held i d →
      ¬ LogArea sb (s.cache.bufs i).blockno ∧ (s.cache.bufs i).blockno < 2 ^ 32
  | .bwrite _ _ => False
  | _ => True

/-- The step is a commit point. -/
def commits (s : State P K) : LogSys.Action P K → Bool
  | .commit p => decide (s.phase p = .committing (.writeHead 4))
  | _ => false

section Tracked

variable [DecidableEq P] [DecidableEq K]

/-- The machine, with the flat store at the last commit point beside it. -/
def tracked (sb : Superblock) (dev : Nat) :
    Machine (State P K × Disk) (LogSys.Action P K) LogSys.Panic := fun s act =>
  (step sb dev s.1 act).map fun r => r.map fun s' =>
    (s', if commits s.1 act then s.1.store else s.2)

/-- The states that operations reach from a boot with an empty log. -/
def TrackedRun (sb : Superblock) (dev : Nat) : State P K × Disk → Prop :=
  Reach (tracked sb dev) (fun u => Logs sb dev u.1)
    fun u => u.1 = initial u.2 ∧ headN (u.2 sb.logstart) = 0

end Tracked

/-! ### The invariant -/

/-- The header on the disk counts the logged blocks. -/
def Written : Pc → Prop
  | .writeHead k => 5 ≤ k
  | .install _ _ => True
  | .clearHead k => k ≤ 4
  | _ => False

/-- `write_head` has filled in its buffer and not yet written it. -/
def Headed (pc : Pc) : Prop := pc = .writeHead 4 ∨ pc = .clearHead 4

def Clearing (pc : Pc) : Prop := ∃ k, pc = .clearHead k

variable {d d' store store' H : Disk} {lh : List Nat} {buf buf' : Option Block}

/-- The entries `es` of the header cover the logged blocks, and their log blocks hold the
committed contents `H`. -/
structure Redo (sb : Superblock) (store : Disk) (lh : List Nat) (H : Disk) (es : List Nat) :
    Prop where
  entries : EntriesOk sb es
  listed : ∀ b ∈ lh, b ∈ es
  copies : ∀ t < es.length, store (sb.logstart + t + 1) = store (es.getD t 0)
  home : HomeEq sb store H

/-- How the disk `d` stands to the last commit `H`, with `commit` at `pc`. `buf` is its first
buffer. -/
structure Safe (sb : Superblock) (d store : Disk) (lh : List Nat) (buf : Option Block) (H : Disk)
    (pc : Pc) : Prop where
  before : ¬ Written pc → headN (d sb.logstart) = 0 ∧ HomeEq sb d H
  redo : Written pc → Redo sb store lh H (headBlocks (d sb.logstart))
  head : Headed pc → ∀ x ∈ buf, ∃ y, x = putHead y lh
  empty : Clearing pc → lh = []
  uint : ∀ b ∈ lh, b < 2 ^ 32

/-- A step that writes no header. -/
theorem Safe.keep (h : Safe sb d store lh buf H pc) (hw : Written pc' ↔ Written pc)
    (hclear : Clearing pc' → Clearing pc) (hhead : Headed pc' → ∀ x ∈ buf', ∃ y, x = putHead y lh)
    (hlog : d' sb.logstart = d sb.logstart) (hdisk : ¬ Written pc → HomeEq sb d' d)
    (hstore : Written pc → store' = store) : Safe sb d' store' lh buf' H pc' where
  before hn := by
    rw [hw] at hn
    rw [hlog]
    exact ⟨(h.before hn).1, fun b hb => (hdisk hn b hb).trans ((h.before hn).2 b hb)⟩
  redo hy := by
    rw [hw] at hy
    rw [hlog, hstore hy]
    exact h.redo hy
  head := hhead
  empty hc := h.empty (hclear hc)
  uint := h.uint

theorem written_jump (hj : Jump lh pc pc') :
    (Written pc' ↔ Written pc) ∧ ¬ Headed pc' ∧ ¬ Clearing pc' ∧ pc ≠ .writeHead 4 := by
  cases hj <;> simp [Written, Headed, Clearing] <;> omega

theorem written_bump (h : ¬ Headed pc) : Written (Pc.bump pc) ↔ Written pc := by
  cases pc <;> simp [Written, Headed, Pc.bump] at h ⊢ <;> omega

theorem clearing_bump (h : Clearing (Pc.bump pc)) : Clearing pc := by
  cases pc <;> simp [Clearing, Pc.bump] at h ⊢

theorem ne_logstart (hnlog : NBUF ≤ sb.nlog) {b : Nat} (hb : ¬ LogArea sb b) :
    b ≠ sb.logstart := by
  have hpos : 0 < NBUF := by decide
  rintro rfl
  exact hb ⟨Nat.le_refl _, by omega⟩

/-- The contents of the first buffer of `commit`. -/
def headBuf (c : Cache (Agent P K)) : Option Block :=
  match c.uses (.inr false) with
  | .held i _ => some (c.bufs i).data
  | _ => none

theorem headBuf_held {c : Cache (Agent P K)} {i : Fin NBUF} {b : Bool}
    (h : c.uses (.inr false) = .held i b) : headBuf c = some (c.bufs i).data := by
  rw [headBuf, h]

/-- What a `bwrite` puts on the disk. -/
theorem bwrite_disk {A : Type} [DecidableEq A] {c c' : Cache A} {a : A} {i : Fin NBUF} {b : Bool}
    (hu : c.uses a = .held i b) (hc : c.bwrite a = some c') :
    c'.disk = Function.update c.disk (c.bufs i).blockno (c.bufs i).data := by
  obtain ⟨i', d', hu', hdisk, -⟩ := bwrite_touch hc
  rw [hu] at hu'
  cases hu'
  exact hdisk

def SafeAt (sb : Superblock) (s : State P K) (H : Disk) (pc : Pc) : Prop :=
  Safe sb s.cache.disk s.store s.lh (headBuf s.cache) H pc

section Steps

variable [Fintype P] [Fintype K]

/-- A recovery shows the last commit. -/
theorem SafeAt.replays (h : SafeAt sb s H pc) (hR : Refines sb dev s pc) (hnlog : NBUF ≤ sb.nlog) :
    Replays sb H s.cache.disk := by
  by_cases hw : Written pc
  · obtain ⟨hent, hlist, hcopy, hhome⟩ := h.redo hw
    have hpend : ∀ b, b ∉ s.lh → s.cache.disk b = s.store b := fun b hb =>
      hR.coherent.durable b fun hmem => hb (List.mem_of_mem_drop hmem)
    refine ⟨hent, fun b hb => applyWrites_of_agree (fun w hw => ?_) fun hnot => ?_⟩
    · -- A log block is not logged itself, so the disk has what `write_log` put there.
      obtain ⟨t, ht, rfl⟩ := List.mem_map.mp hw
      have ht := List.mem_range.mp ht
      show s.cache.disk (sb.logstart + t + 1) = H _
      rw [hpend _ fun hmem => hR.home _ hmem (hent.logArea ht), hcopy t ht]
      exact hhome _ (hent.home_getD ht)
    · refine (hpend b fun hmem => hnot ?_).trans (hhome b hb)
      obtain ⟨t, ht, rfl⟩ := List.mem_iff_getElem.mp (hlist b hmem)
      exact List.mem_map.mpr ⟨_, List.mem_map_of_mem (List.mem_range.mpr ht), by simp [ht]⟩
  · exact Log.replays_of_headN (Nat.lt_of_lt_of_le (by decide) hnlog) (h.before hw).1
      (h.before hw).2

variable [DecidableEq P] [DecidableEq K] {p : P} {ins : Instr}

/-- The instructions of `commit` other than the writes of the header. -/
theorem SafeAt.plain (h : SafeAt sb s H pc) (hR : Refines sb dev s pc) (hnlog : NBUF ≤ sb.nlog)
    (hpc : ¬ Headed pc) (hins : nextInstr sb s.lh pc = some ins)
    (ht : execInstr dev s ins = some (.ok t)) : SafeAt sb t H (Pc.bump pc) := by
  have hkeep : t.cache.disk sb.logstart = s.cache.disk sb.logstart →
      (¬ Written pc → HomeEq sb t.cache.disk s.cache.disk) → (Written pc → t.store = s.store) →
      SafeAt sb t H (Pc.bump pc) := by
    unfold SafeAt
    rw [(execInstr_sameLog ht).lh]
    refine Safe.keep h (written_bump hpc) clearing_bump fun hhead x hx => ?_
    -- The instruction before is `putHead`.
    obtain rfl : ins = .putHead false := by
      cases pc <;> simp [Headed, Pc.bump] at hhead <;> subst hhead <;> cases hins <;> rfl
    obtain ⟨i₀, -, hbind⟩ := Option.bind_eq_some_iff.mp ht
    obtain ⟨c, hc, hs⟩ := Option.map_eq_some_iff.mp hbind
    cases hs
    obtain ⟨i, b, -, -, tch⟩ := modify_touch hc
    have huse : c.uses (.inr false) = .held i true := by rw [tch.uses, Function.update_self]
    have hx : x ∈ headBuf c := hx
    rw [headBuf_held huse, tch.bufs, Function.update_self] at hx
    exact ⟨(s.cache.bufs i₀).data, (Option.mem_some.mp hx).symm⟩
  have hplain : (∀ j, ins ≠ .write j) → (∀ j, ins ≠ .writeHome j) → t.store = s.store →
      SafeAt sb t H (Pc.bump pc) := by
    intro hw hh hstore
    have hd := execInstr_disk ht hw hh
    exact hkeep (congrFun hd _) (fun _ b _ => congrFun hd b) fun _ => hstore
  cases ins with
  | write j =>
    -- The only other write to the log area is that of `write_log`.
    obtain ⟨rfl, ⟨tail, rfl, hlt⟩ | hpc'⟩ := nextInstr_at hins
    · obtain ⟨i, hi, hib⟩ := hR.writeLog_slot hlt
      have harea := hR.logArea hnlog (Or.inr (by decide)) hlt
      obtain ⟨c, hc, rfl⟩ := execInstr_write hi ht
      have hd : ∀ b, b ≠ sb.logstart + tail + 1 → c.disk b = s.cache.disk b := fun b hb => by
        rw [bwrite_disk hi hc, hib, Function.update_of_ne hb]
      exact hkeep (hd _ (by omega)) (fun _ b hb => hd b fun he => hb (he ▸ harea)) fun hw => hw.elim
    · exact absurd hpc' hpc
  | writeHome j =>
    obtain ⟨rfl, tail, rfl, hlt⟩ := nextInstr_at hins
    obtain ⟨-, i, hi, hib⟩ := hR.install_slots hlt (Or.inl rfl)
    obtain ⟨c, hc, hs⟩ := Option.map_eq_some_iff.mp ht
    cases hs
    refine hkeep ?_ (fun hn => absurd trivial hn) fun _ => rfl
    show c.disk _ = _
    rw [bwrite_disk hi hc, hib, Function.update_of_ne]
    exact (ne_logstart hnlog (hR.home _ (getD_mem_of_lt hlt))).symm
  | unpin j =>
    obtain ⟨c, -, hs⟩ := Option.map_eq_some_iff.mp ht
    cases hs
    exact hplain (by simp) (by simp) rfl
  | _ =>
    exact hplain (by simp) (by simp) (hR.execInstr_plain ht (by simp) (by simp) (by simp)).1

/-- The two writes of the header: the commit point, and the end of the transaction. -/
theorem SafeAt.header (h : SafeAt sb s H pc) (hR : Refines sb dev s pc)
    (hR' : Refines sb dev (t.setPhase p (.committing (Pc.bump pc))) (Pc.bump pc))
    (hnlog : NBUF ≤ sb.nlog) (hpc : Headed pc) (hins : nextInstr sb s.lh pc = some ins)
    (ht : execInstr dev s ins = some (.ok t)) :
    SafeAt sb t (if pc = .writeHead 4 then s.store else H) (Pc.bump pc) := by
  have hstore := hR.execInstr_store hnlog hins ht
  obtain rfl : ins = .write false := by rcases hpc with rfl | rfl <;> cases hins <;> rfl
  obtain ⟨i, hi, hib⟩ := hR.writeHead_slot hpc
  obtain ⟨x, hx⟩ := h.head hpc _ (headBuf_held hi)
  obtain ⟨c, hc, rfl⟩ := execInstr_write hi ht
  have hd := bwrite_disk hi hc
  rw [hib, hx] at hd
  have hhead : c.disk sb.logstart = putHead x s.lh := by rw [hd, Function.update_self]
  rcases hpc with rfl | rfl
  · have hfits := hR.fits trivial
    refine ⟨fun hn => absurd (Nat.le_refl 5) hn, fun _ => ?_, by simp [Headed, Pc.bump],
      by simp [Clearing, Pc.bump], h.uint⟩
    show Redo sb _ s.lh _ (headBlocks (c.disk sb.logstart))
    rw [hhead, Log.headBlocks_putHead x _ (Nat.le_of_lt hfits) h.uint]
    exact ⟨⟨hR.home, by omega⟩, fun _ hb => hb, fun n hn => hR'.copies n (Nat.zero_le _) hn, hstore⟩
  · -- Everything is installed, so the home blocks are those of the flat store.
    have hnil := h.empty ⟨4, rfl⟩
    refine ⟨fun _ => ⟨?_, fun b hb => ?_⟩, fun hw => by simp [Written, Pc.bump] at hw,
      by simp [Headed, Pc.bump], fun _ => hnil, h.uint⟩
    · show headN (c.disk sb.logstart) = 0
      rw [hhead, hnil]
      exact Log.headN_putHead x [] (Nat.zero_le _)
    · have hdisk : s.cache.disk b = s.store b := hR.coherent.durable b (by simp [hnil])
      show c.disk b = H b
      rw [hd, Function.update_of_ne (ne_logstart hnlog hb), hdisk]
      exact (h.redo (Nat.le_refl 4)).home b hb

/-- Every step keeps the disk safe. -/
theorem SafeAt.step {act : LogSys.Action P K} (h : SafeAt sb s H pc) (hprot : Protocol s)
    (hR : Refines sb dev s pc) (hlogs : Logs sb dev s act) (hnlog : NBUF ≤ sb.nlog)
    (hs : Steps sb dev s act s') :
    ∃ pc', Refines sb dev s' pc' ∧ SafeAt sb s' (if commits s act then s.store else H) pc' := by
  have hdone : ∀ {p}, s.phase p = .inOp → pc = .done := fun hp =>
    hR.quiet (hprot.no_committer (hprot.not_comitting hp))
  have hlock : ∀ {a i u}, s.cache.uses a = u → u.owns = some i →
      (s.cache.bufs i).lock = some a := fun hu ho => (hR.coherent.locks _ _).mpr (hu ▸ ho)
  -- Steps of callers on the cache. `commit` holds the lock of its buffer.
  have hclient : ∀ {c : Cache (Agent P K)} {a : P × K}, Keeps s.cache c (.inl a) →
      Coherent c dev (s.lh.drop (unpinned pc)) (s.lh.drop (installed pc)) s.store →
      c.disk = s.cache.disk →
      ∃ pc', Refines sb dev (s.setCache c) pc' ∧ SafeAt sb (s.setCache c) H pc' := by
    intro c a hk hc hd
    have hbuf : headBuf c = headBuf s.cache := by
      have huse := hk.others (.inr false) (by simp)
      unfold headBuf
      rw [huse]
      split
      · rename_i i b hi
        rw [hk.data i (.inr false) (by simp) (hlock hi rfl)]
      · rfl
    refine ⟨pc, hR.client_same hk hc, ?_⟩
    show Safe sb c.disk s.store s.lh (headBuf c) H pc
    rw [hd, hbuf]
    exact h
  have hlogged : ∀ {p k i b}, s.cache.uses (.inl (p, k)) = .held i b → pc = .done →
      s'.cache.disk = s.cache.disk → s'.lh = Log.absorb s.lh (s.cache.bufs i).blockno →
      Logs sb dev s (.logWrite p k) → SafeAt sb s' H .done := by
    rintro p k i b hu rfl hd hlh hl
    refine ⟨fun hn => by rw [hd]; exact h.before hn, fun hw => hw.elim, by simp [Headed],
      by simp [Clearing], fun x hb => ?_⟩
    rw [hlh, Log.absorb] at hb
    split at hb
    · exact h.uint x hb
    · rcases List.mem_append.mp hb with hb | hb
      · exact h.uint x hb
      · rw [List.mem_singleton.mp hb]
        exact (hl i b hu).2
  cases hs with
  | callBegin hp | sleep hp | reserve hp _ _ | wake hp =>
    exact ⟨pc, hR.move hp id id rfl rfl rfl rfl, h⟩
  | @endOther p hp _ _ =>
    have hmove : Refines sb dev
        ({ s with outstanding := s.outstanding - 1 }.setPhase p .outside) pc :=
      hR.move hp id id rfl rfl rfl rfl
    exact ⟨pc, hmove.wakeup, h⟩
  | absorb hp hu _ _ hmem =>
    obtain rfl := hdone hp
    exact ⟨.done, hR.recorded hu hmem, hlogged hu rfl rfl rfl hlogs⟩
  | pin hp hu _ _ hnew hc =>
    obtain rfl := hdone hp
    exact ⟨.done, hR.recorded_pin hu hnew hc (hlogs _ _ hu).1,
      hlogged hu rfl (bpin_touch hc).1 rfl hlogs⟩
  | endLast hp hcom _ =>
    obtain rfl := hdone hp
    exact ⟨.start, hR.start hprot (hprot.no_committer hcom) rfl rfl rfl rfl,
      h.before, fun hw => hw.elim, by simp [Headed], by simp [Clearing], h.uint⟩
  | @instr p pc₀ ins t hp hins ht =>
    obtain rfl := hR.point p pc₀ hp
    have hR' := hR.instr hprot hp hins ht hnlog
    refine ⟨Pc.bump pc₀, hR', ?_⟩
    simp only [commits, hp, Phase.committing.injEq, decide_eq_true_eq]
    by_cases hpc : Headed pc₀
    · show SafeAt sb t _ _
      exact h.header hR hR' hnlog hpc hins ht
    · rw [if_neg fun he => hpc (.inl he)]
      show SafeAt sb t _ _
      exact h.plain hR hnlog hpc hins ht
  | @jump p pc₁ pc₂ hp hj =>
    obtain rfl := hR.point p pc₁ hp
    obtain ⟨hw, hhead, hclear, hne⟩ := written_jump hj
    simp only [commits, hp, Phase.committing.injEq, decide_eq_true_eq, if_neg hne]
    exact ⟨pc₂, hR.jump hprot hp hj, Safe.keep h hw (fun hc => absurd hc hclear)
      (fun hc => absurd hc hhead) rfl (fun _ _ _ => rfl) fun _ => rfl⟩
  | @clear p tail k hp hge =>
    obtain rfl := hR.point p _ hp
    obtain ⟨hent, -, hcopy, hhome⟩ := h.redo trivial
    simp only [commits, hp]
    exact ⟨_, hR.clear hprot hp hge, fun hn => absurd (Nat.zero_le 4) hn,
      fun _ => ⟨hent, by simp, hcopy, hhome⟩, by simp [Headed], fun _ => rfl, by simp⟩
  | finish hp =>
    obtain rfl := hR.point _ _ hp
    exact ⟨.done, hR.finish hp, h⟩
  | bget _ hidle hc =>
    obtain rfl := hlogs
    refine hclient (bget_keeps hc) (hR.coherent.bget hidle hc) ?_
    rcases bget_touch hc with ⟨_, _, _, hd, _⟩ | ⟨_, r⟩
    · exact hd
    · exact r.disk
  | acquiresleep _ hc =>
    obtain ⟨i, -, -, hd, t⟩ := acquiresleep_touch hc
    exact hclient (t.keeps (Or.inl rfl)) (hR.coherent.acquiresleep hc) hd
  | fill _ hc =>
    obtain ⟨i, b, hu, hd, t, -⟩ := fill_touch hc
    exact hclient (t.keeps (Or.inr (hlock hu rfl))) (hR.coherent.fill hc) hd
  | modify _ hc =>
    obtain ⟨i, b, hu, hd, t⟩ := modify_touch hc
    exact hclient (t.keeps (Or.inr (hlock hu rfl))) (hR.coherent.modify hc) hd
  | bwrite _ _ _ => exact hlogs.elim
  | releasesleep _ hc =>
    obtain ⟨i, -, hd, t⟩ := releasesleep_touch hc
    exact hclient (t.keeps (Or.inl rfl)) (hR.coherent.releasesleep hc) hd
  | unref _ hc =>
    obtain ⟨i, -, hd, t⟩ := unref_touch hc
    exact hclient (t.keeps (Or.inl rfl)) (hR.coherent.unref hc) hd

theorem safe_of_reach {u : State P K × Disk} (hdev : dev ≠ 0) (hnlog : NBUF ≤ sb.nlog)
    (hr : TrackedRun sb dev u) :
    Protocol u.1 ∧ ∃ pc, Refines sb dev u.1 pc ∧ SafeAt sb u.1 u.2 pc := by
  induction hr with
  | @start u hinit =>
    obtain ⟨_, H⟩ := u
    obtain ⟨rfl, hzero⟩ : _ = initial H ∧ _ := hinit
    exact ⟨protocol_initial H, .done, refines_initial hdev H, fun _ => ⟨hzero, fun _ _ => rfl⟩,
      fun hw => hw.elim, by simp [Headed], by simp [Clearing], by simp [initial]⟩
  | step _ hlogs ht ih =>
    obtain ⟨hprot, pc, hR, h⟩ := ih
    obtain ⟨r, hstep, hr⟩ := Option.map_eq_some_iff.mp ht
    cases r with
    | error e => cases hr
    | ok s₁ =>
      cases hr
      have hs := steps_of_step hstep
      exact ⟨protocol_step hprot hs, h.step hprot hR hlogs hnlog hs⟩

/-- Any number of processes run operations, in every interleaving and with every pattern of
evictions. The machine crashes in any state, any number of recoveries are interrupted, and the next
one completes. Then every home block is that of the flat store at the last commit point. No
operation is in progress there, so each of them is seen in full or not at all, and once the log is
empty nothing is missing. -/
theorem crash_shows_last_commit (hdev : dev ≠ 0) (hnlog : NBUF ≤ sb.nlog)
    (hr : TrackedRun sb dev (s, H)) {c : Disk}
    (hrec : Recovers (recoverFromLog sb) boot s.cache.disk c) :
    HomeEq sb (recovered sb c) H ∧ headN (recovered sb c sb.logstart) = 0 ∧
    (s.lh = [] → HomeEq sb H s.store) ∧
    ∀ act, commits s act = true → s.outstanding = 0 ∧ ∀ q, s.phase q ≠ .inOp := by
  obtain ⟨hprot, pc, hR, h⟩ := safe_of_reach hdev hnlog hr
  obtain ⟨⟨hhome, hhead⟩, -⟩ :=
    Log.recoverFromLog_triple ((h.replays hR hnlog).recovers hrec) _ _ ⟨rfl, rfl⟩
  refine ⟨hhome, hhead, fun hnil b hb => ?_, fun act hact => ?_⟩
  · by_cases hw : Written pc
    · exact ((h.redo hw).home b hb).symm
    · exact ((h.before hw).2 b hb).symm.trans (hR.coherent.durable b (by simp [hnil]))
  · cases act with
    | commit p =>
      have hp : InCommit (s.phase p) := by
        rw [of_decide_eq_true hact]
        trivial
      have hnone := hprot.no_operation hp
      exact ⟨by rw [hprot.outstanding, (countAgents_eq_zero _ _).mpr hnone]; rfl, hnone⟩
    | _ => cases hact

end Steps

instance (sb : Superblock) (dev : Nat) (s : State P K) (act : LogSys.Action P K) :
    Decidable (Logs sb dev s act) := by
  unfold Logs
  split <;> infer_instance

/-- A crash right after the commit point: block 100 on the disk is still the old one, and the
recovery brings the new one. -/
theorem crash_shows_last_commit_logged : ∃ u : State (Fin 2) Unit × Disk,
    TrackedRun Mkfs.superblock 1 u ∧ u.1.cache.disk 100 ⟨0, by decide⟩ = 0 ∧
    recovered Mkfs.superblock u.1.cache.disk 100 ⟨0, by decide⟩ = 1 := by
  obtain ⟨u, hu, hq⟩ := ends_iff.mp (by decide +kernel : ends
    (exec (guarded (tracked Mkfs.superblock 1) fun u => Logs Mkfs.superblock 1 u.1)
      (initial zeros, zeros) (operation [(100, 1)] ++ List.replicate 20 (.commit (0 : Fin 2))))
    (fun u => decide (u.1.cache.disk 100 ⟨0, by decide⟩ = 0 ∧ u.2 100 ⟨0, by decide⟩ = 1)) = true)
  obtain ⟨hdisk, hlast⟩ := of_decide_eq_true hq
  have hr : TrackedRun Mkfs.superblock 1 u :=
    reach_of_guarded (.start ⟨rfl, by decide +kernel⟩) hu
  refine ⟨u, hr, hdisk, ?_⟩
  rw [(crash_shows_last_commit (by decide) (by decide) hr .refl).1 100 (by decide)]
  exact hlast

end Xv6.Proofs.LogSys
