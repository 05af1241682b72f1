import Xv6.Proofs.LogSys.Refine

/-!
# `Xv6.Proofs.LogSys.FlatStore`: cache and log refine a flat block store

The callers of the buffer cache and the log should see one array of blocks. `FlatStep` says
what that means for each step of the machine: `bread` returns the contents of the array,
`log_write` and `bwrite` replace one entry of it, and nothing else changes it, except that a
commit uses the log area. `flat_store_refined` proves it for polite callers, together with
what the pins guarantee.

`flat_store_needs_polite` shows that each part of `Polite` is needed, and where the log's
reference ends.
-/

set_option autoImplicit false

namespace Xv6.Proofs.LogSys

open Xv6.Lib
open Xv6.Kernel
open Xv6.Kernel.LogSys
open Xv6.Proofs.Cache

variable {P K : Type}

/-- The block is logged, and `install_trans` has not unpinned it yet. -/
def Pinned (s : State P K) (b : Nat) : Prop :=
  ∃ t, s.lh[t]? = some b ∧ ∀ p pc, s.phase p = .committing pc → unpinned pc ≤ t

/-- What a step means for the flat store. A buffer with a reference keeps its block in any
step. -/
def FlatStep (sb : Superblock) (s s' : State P K) : Action P K → Prop
  | .bget p k dv b => s'.store = s.store ∧
      ∃ i, s'.cache.uses (.inl (p, k)) = .waiting i ∧ (s'.cache.bufs i).dev = dv ∧
        (s'.cache.bufs i).blockno = b
  | .fill p k => s'.store = s.store ∧
      ∃ i, s.cache.uses (.inl (p, k)) = .locked i ∧ s'.cache.uses (.inl (p, k)) = .held i false ∧
        (s'.cache.bufs i).data = s.store (s.cache.bufs i).blockno
  | .logWrite p k => ∃ i d, s.cache.uses (.inl (p, k)) = .held i d ∧
      s'.store = Function.update s.store (s.cache.bufs i).blockno (s.cache.bufs i).data
  | .bwrite p k => ∃ i d, s.cache.uses (.inl (p, k)) = .held i d ∧
      s'.store = Function.update s.store (s.cache.bufs i).blockno (s.cache.bufs i).data
  | .commit _ => ∀ b, ¬ Log.LogArea sb b → s'.store b = s.store b
  | _ => s'.store = s.store

section Fintype

variable [Fintype P] [Fintype K] {sb : Superblock} {dev : Nat} {s s' : State P K} {pc : Pc}

/-- The pinned blocks are those that `install_trans` has left. -/
theorem Refines.pinned_iff (h : Refines sb dev s pc) (b : Nat) :
    Pinned s b ↔ b ∈ s.lh.drop (unpinned pc) := by
  rw [List.mem_iff_getElem?]
  constructor
  · rintro ⟨t, ht, hle⟩
    have hpc : unpinned pc ≤ t := by
      by_cases hdone : pc = .done
      · rw [hdone]
        exact Nat.zero_le t
      · obtain ⟨q, hq⟩ := h.exists_point hdone
        exact hle q pc hq
    refine ⟨t - unpinned pc, ?_⟩
    rw [List.getElem?_drop, Nat.add_sub_cancel' hpc]
    exact ht
  · rintro ⟨n, hn⟩
    rw [List.getElem?_drop] at hn
    refine ⟨unpinned pc + n, hn, ?_⟩
    intro p pc' hp
    rw [h.point p pc' hp]
    exact Nat.le_add_right _ _

/-- The log's share in the reference counts. -/
theorem Refines.refcnt (h : Refines sb dev s pc) (i : Fin NBUF) :
    ((s.cache.bufs i).dev = dev ∧ Pinned s (s.cache.bufs i).blockno →
      (s.cache.bufs i).refcnt = s.cache.refs i + 1) ∧
    (¬ ((s.cache.bufs i).dev = dev ∧ Pinned s (s.cache.bufs i).blockno) →
      (s.cache.bufs i).refcnt = s.cache.refs i) := by
  rw [h.pinned_iff]
  have hcount := h.coherent.counted i
  unfold pinCount at hcount
  constructor
  · intro hp
    rw [if_pos hp] at hcount
    exact hcount
  · intro hp
    rw [if_neg hp] at hcount
    exact hcount

end Fintype

section Steps

variable [DecidableEq P] [DecidableEq K] {sb : Superblock} {dev : Nat} {s s' : State P K}

/-- A referenced buffer keeps its block in any step. -/
theorem steps_block {act : Action P K} (hs : Steps sb dev s act s') (i : Fin NBUF)
    (hi : (s.cache.bufs i).refcnt ≠ 0) :
    (s'.cache.bufs i).dev = (s.cache.bufs i).dev ∧
      (s'.cache.bufs i).blockno = (s.cache.bufs i).blockno := by
  cases hs with
  | pin _ _ _ _ _ hc =>
    obtain ⟨-, t⟩ := bpin_touch hc
    exact t.block i
  | instr _ _ ht => exact execInstr_block ht i hi
  | bget _ _ hc => exact (bget_keeps hc).block i hi
  | acquiresleep _ hc =>
    obtain ⟨_, _, _, _, t⟩ := acquiresleep_touch hc
    exact t.block i
  | fill _ hc =>
    obtain ⟨_, _, _, _, t, _⟩ := fill_touch hc
    exact t.block i
  | modify _ hc =>
    obtain ⟨_, _, _, _, t⟩ := modify_touch hc
    exact t.block i
  | bwrite _ _ hc =>
    obtain ⟨_, _, _, _, t⟩ := bwrite_touch hc
    exact t.block i
  | releasesleep _ hc =>
    obtain ⟨_, _, _, t⟩ := releasesleep_touch hc
    exact t.block i
  | unref _ hc =>
    obtain ⟨_, _, _, t⟩ := unref_touch hc
    exact t.block i
  | callBegin _ => exact ⟨rfl, rfl⟩
  | sleep _ => exact ⟨rfl, rfl⟩
  | reserve _ _ _ => exact ⟨rfl, rfl⟩
  | wake _ => exact ⟨rfl, rfl⟩
  | absorb _ _ _ _ _ => exact ⟨rfl, rfl⟩
  | endLast _ _ _ => exact ⟨rfl, rfl⟩
  | endOther _ _ _ => exact ⟨rfl, rfl⟩
  | jump _ _ => exact ⟨rfl, rfl⟩
  | clear _ _ => exact ⟨rfl, rfl⟩
  | finish _ => exact ⟨rfl, rfl⟩

variable [Fintype P] [Fintype K] {pc : Pc}

/-- The instructions of `commit` write to the log area only. -/
theorem Refines.execInstr_store {ins : Instr} {t : State P K} (h : Refines sb dev s pc)
    (hnlog : NBUF ≤ sb.nlog) (hins : nextInstr sb s.lh pc = some ins)
    (ht : execInstr dev s ins = some (.ok t)) (b : Nat) (hb : ¬ Log.LogArea sb b) :
    t.store b = s.store b := by
  by_cases hw : ∃ j, ins = .write j
  · obtain ⟨j, rfl⟩ := hw
    obtain ⟨rfl, hpoint⟩ := nextInstr_at hins
    -- The buffer is the log block of `write_log`, or the header.
    obtain ⟨i, hi, harea⟩ : ∃ i, s.cache.uses (.inr false) = .held i true ∧
        Log.LogArea sb (s.cache.bufs i).blockno := by
      rcases hpoint with ⟨tail, rfl, hlt⟩ | hhead
      · obtain ⟨i, hi, hib⟩ := h.writeLog_slot hlt
        exact ⟨i, hi, hib ▸ h.logArea hnlog (Or.inr (by decide)) hlt⟩
      · obtain ⟨i, hi, hib⟩ := h.writeHead_slot hhead
        have hpos : 0 < NBUF := by decide
        exact ⟨i, hi, hib ▸ ⟨Nat.le_refl _, by omega⟩⟩
    obtain ⟨c, -, rfl⟩ := execInstr_write hi ht
    have hne : b ≠ (s.cache.bufs i).blockno := fun he => hb (he ▸ harea)
    exact Function.update_of_ne hne _ _
  · push Not at hw
    by_cases hh : ∃ j, ins = .writeHome j
    · obtain ⟨j, rfl⟩ := hh
      obtain ⟨c, -, hs⟩ := Option.map_eq_some_iff.mp ht
      cases hs
      rfl
    · by_cases hu : ∃ j, ins = .unpin j
      · obtain ⟨j, rfl⟩ := hu
        obtain ⟨c, -, hs⟩ := Option.map_eq_some_iff.mp ht
        cases hs
        rfl
      · push Not at hh hu
        rw [(h.execInstr_plain ht hw hh hu).1]

/-- Every polite step is a step of the flat store. -/
theorem Refines.flatStep {act : Action P K} (hprot : Protocol s) (h : Refines sb dev s pc)
    (hpolite : Polite sb dev s act) (hnlog : NBUF ≤ sb.nlog) (hs : Steps sb dev s act s') :
    FlatStep sb s s' act := by
  obtain ⟨pc', h'⟩ := refines_step hprot h hpolite hnlog hs
  cases hs with
  | bget _ _ hc =>
    refine ⟨rfl, ?_⟩
    rcases bget_touch hc with ⟨i, hd, hb, -, t⟩ | ⟨i, r⟩
    · refine ⟨i, ?_, ?_, ?_⟩
      · exact (congrFun t.uses _).trans (Function.update_self ..)
      · exact (t.block i).1.trans hd
      · exact (t.block i).2.trans hb
    · have hi := (congrFun r.bufs i).trans (Function.update_self ..)
      refine ⟨i, ?_, ?_, ?_⟩
      · exact (congrFun r.uses _).trans (Function.update_self ..)
      · exact congrArg Buf.dev hi
      · exact congrArg Buf.blockno hi
  | @fill p k c _ hc =>
    refine ⟨rfl, ?_⟩
    obtain ⟨i, b, hu, -, t, -⟩ := fill_touch hc
    have hheld : c.uses (.inl (p, k)) = .held i false := by
      rw [t.uses, Function.update_self]
    refine ⟨i, hu, hheld, ?_⟩
    -- In the new state the buffer is clean, so it shows the store.
    have hclean := h'.coherent.held_clean hheld
    show (c.bufs i).data = s.store (s.cache.bufs i).blockno
    rw [← (t.block i).2]
    exact hclean
  | absorb _ hu _ _ _ => exact ⟨_, _, hu, rfl⟩
  | pin _ hu _ _ _ _ => exact ⟨_, _, hu, rfl⟩
  | bwrite _ hu _ => exact ⟨_, _, hu, rfl⟩
  | instr hp hins ht =>
    obtain rfl := h.point _ _ hp
    intro b hb
    exact h.execInstr_store hnlog hins ht b hb
  | jump _ _ => exact fun _ _ => rfl
  | clear _ _ => exact fun _ _ => rfl
  | callBegin _ => rfl
  | sleep _ => rfl
  | reserve _ _ _ => rfl
  | wake _ => rfl
  | endLast _ _ _ => rfl
  | endOther _ _ _ => rfl
  | finish _ => rfl
  | acquiresleep _ _ => rfl
  | modify _ _ => rfl
  | releasesleep _ _ => rfl
  | unref _ _ => rfl

/-- The cache and the log refine a flat block store, for any number of processes, every
interleaving and every pattern of evictions, as long as the callers are polite. In every
reachable state a buffer that `bread` returned, and that the caller has not changed, shows
the latest contents of its block; a pinned block is cached and referenced, and any other
block has its latest contents on the disk; the log's share in a reference count is one for a
pinned block and nothing otherwise. Every further step is one of the flat store, and keeps
the block of each referenced buffer. -/
theorem flat_store_refined (hdev : dev ≠ 0) (hnlog : NBUF ≤ sb.nlog)
    (hr : Reach (step sb dev) (Polite sb dev) (fun s => ∃ d, s = initial d) s) :
    (∀ p k i, s.cache.uses (.inl (p, k)) = .held i false →
      (s.cache.bufs i).data = s.store (s.cache.bufs i).blockno) ∧
    (∀ b, Pinned s b → ∃ i, (s.cache.bufs i).dev = dev ∧ (s.cache.bufs i).blockno = b ∧
      (s.cache.bufs i).valid = true ∧ (s.cache.bufs i).refcnt ≠ 0) ∧
    (∀ b, ¬ Pinned s b → s.cache.disk b = s.store b) ∧
    (∀ i, ((s.cache.bufs i).dev = dev ∧ Pinned s (s.cache.bufs i).blockno →
        (s.cache.bufs i).refcnt = s.cache.refs i + 1) ∧
      (¬ ((s.cache.bufs i).dev = dev ∧ Pinned s (s.cache.bufs i).blockno) →
        (s.cache.bufs i).refcnt = s.cache.refs i)) ∧
    (∀ act s', Polite sb dev s act → step sb dev s act = some (.ok s') →
      FlatStep sb s s' act ∧ ∀ i, (s.cache.bufs i).refcnt ≠ 0 →
        (s'.cache.bufs i).dev = (s.cache.bufs i).dev ∧
          (s'.cache.bufs i).blockno = (s.cache.bufs i).blockno) := by
  obtain ⟨hprot, pc, h⟩ := refines_reach (fun _ _ hp => hp) hdev hnlog hr
  refine ⟨fun p k i hu => h.coherent.held_clean hu, ?_, ?_, h.refcnt, ?_⟩
  · intro b hb
    have hmem := (h.pinned_iff b).mp hb
    obtain ⟨i, hd, hib, hv⟩ := h.coherent.cached b hmem
    exact ⟨i, hd, hib, hv, h.coherent.refcnt_pos_of_pinned hd (hib ▸ hmem)⟩
  · intro b hb
    apply h.coherent.durable
    intro hpend
    exact hb ((h.pinned_iff b).mpr (h.coherent.pending_pinned b hpend))
  · intro act s' hpolite hstep
    have hs := steps_of_step hstep
    exact ⟨h.flatStep hprot hpolite hnlog hs, steps_block hs⟩

end Steps

/-- A first `bread` of block 5 shows the disk. -/
theorem flat_store_refined_firstRead : ∃ s : State (Fin 2) Unit,
    exec (step Mkfs.superblock 1) (initial zeros)
      [.bget 0 () 1 5, .acquiresleep 0 (), .fill 0 ()] = some (.ok s) ∧
    ∃ i, s.cache.uses (.inl (0, ())) = .held i false ∧
      (s.cache.bufs i).data = s.store (s.cache.bufs i).blockno := by
  obtain ⟨s, hs, i, hi⟩ : ∃ s : State (Fin 2) Unit,
      exec (step Mkfs.superblock 1) (initial zeros)
        [.bget 0 () 1 5, .acquiresleep 0 (), .fill 0 ()] = some (.ok s) ∧
      ∃ i, s.cache.uses (.inl (0, ())) = .held i false := ⟨_, rfl, _, rfl⟩
  have hr : Reach (step Mkfs.superblock 1) (Polite Mkfs.superblock 1)
      (fun s => ∃ d, s = initial d) s := by
    refine reach_of_exec (.start ⟨_, rfl⟩) ?_ hs
    intro a ha t
    simp only [List.mem_cons, List.not_mem_nil, or_false] at ha
    rcases ha with rfl | rfl | rfl
    · rfl
    · trivial
    · trivial
  exact ⟨s, hs, i, hi, (flat_store_refined (by decide) (by decide) hr).1 0 () i hi⟩

/-! ### Why the callers have to be polite -/

/-- A block of one repeated byte. -/
def blockOf (x : UInt8) : Block := fun _ => x

/-- `bread`, the given actions on the buffer, and `brelse`. -/
def withBuf (p : Fin 2) (dv b : Nat) (acts : List (LogSys.Action (Fin 2) Unit)) :
    List (LogSys.Action (Fin 2) Unit) :=
  [.bget p () dv b, .acquiresleep p (), .fill p ()] ++ acts ++ [.releasesleep p (), .unref p ()]

/-- An operation of process 0 that logs the given blocks, up to the start of `commit`. -/
def operation (writes : List (Nat × UInt8)) : List (LogSys.Action (Fin 2) Unit) :=
  [.callBegin 0, .beginOp 0] ++
    (writes.flatMap fun w => withBuf 0 1 w.1 [.modify 0 () (blockOf w.2), .logWrite 0 ()]) ++
    [.endOp 0]

/-- Process 1 writes block 100 to the disk after `write_log` copied it, and reads it back
after the commit. -/
def overtaken : List (LogSys.Action (Fin 2) Unit) :=
  operation [(100, 1)] ++ List.replicate 13 (.commit 0) ++
    withBuf 1 1 100 [.modify 1 () (blockOf 2), .bwrite 1 ()] ++
    List.replicate 33 (.commit 0) ++ [.finish 0, .bget 1 () 1 100, .acquiresleep 1 (), .fill 1 ()]

/-- Process 1 writes the log block of block 100 after `write_log` filled it, and reads block
100 after the commit. -/
def overwrittenLog : List (LogSys.Action (Fin 2) Unit) :=
  operation [(100, 1)] ++ List.replicate 13 (.commit 0) ++
    withBuf 1 1 (Mkfs.superblock.logstart + 1) [.modify 1 () (blockOf 2), .bwrite 1 ()] ++
    List.replicate 33 (.commit 0) ++ [.finish 0, .bget 1 () 1 100, .acquiresleep 1 (), .fill 1 ()]

/-- Process 0 reads block 5 of device 1, writes block 5 of device 2, and reads block 5 of
device 1 again. -/
def twoDevices : List (LogSys.Action (Fin 2) Unit) :=
  withBuf 0 1 5 [] ++ withBuf 0 2 5 [.modify 0 () (blockOf 2), .bwrite 0 ()] ++
    [.bget 0 () 1 5, .acquiresleep 0 (), .fill 0 ()]

/-- Process 0 writes block 5 of device 2, and then reads block 5 of device 1. -/
def otherDevice : List (LogSys.Action (Fin 2) Unit) :=
  withBuf 0 2 5 [.modify 0 () (blockOf 2), .bwrite 0 ()] ++
    [.bget 0 () 1 5, .acquiresleep 0 (), .fill 0 ()]

/-- Process 0 logs block 100 and then the first data block of the log, with the byte 2, and
process 1 reads the latter back after the commit. -/
def loggedLogBlock : List (LogSys.Action (Fin 2) Unit) :=
  operation [(100, 1), (Mkfs.superblock.logstart + 1, 2)] ++ List.replicate 73 (.commit 0) ++
    [.finish 0, .bget 1 () 1 (Mkfs.superblock.logstart + 1), .acquiresleep 1 (), .fill 1 ()]

/-- An operation that logs block 100, and `commit` up to the end of the loop body of
`install_trans`. -/
def installedBlock : List (LogSys.Action (Fin 2) Unit) :=
  operation [(100, 1)] ++ List.replicate 36 (.commit 0)

/-- The first byte of the buffer that `bread` returned to process `p`. -/
def firstByte (s : State (Fin 2) Unit) (p : Fin 2) : Option UInt8 :=
  match s.cache.uses (.inl (p, ())) with
  | .held i false => some ((s.cache.bufs i).data ⟨0, by decide⟩)
  | _ => none

/-- The run of a schedule on a disk of zeros ends in a state with the property. -/
def EndsWith (acts : List (LogSys.Action (Fin 2) Unit)) (q : State (Fin 2) Unit → Prop) : Prop :=
  ∃ s, exec (step Mkfs.superblock 1) (initial zeros) acts = some (.ok s) ∧ q s

theorem endsWith_of_decide {acts : List (LogSys.Action (Fin 2) Unit)} {q : State (Fin 2) Unit → Prop}
    [DecidablePred q]
    (h : ends (exec (step Mkfs.superblock 1) (initial zeros) acts) (fun s => decide (q s)) = true) :
    EndsWith acts q := by
  obtain ⟨s, hs, hq⟩ := ends_iff.mp h
  exact ⟨s, hs, of_decide_eq_true hq⟩

/-- What goes wrong without politeness. A write of a block in flight is lost: the reader sees
the byte 1 of the transaction, not the later 2. A write of the log block in flight shows up
in the block that was logged. A write to another device goes to the same
disk: a cached block of the first device does not show it, and an uncached one does. A logged
block of the log area is overwritten by the commit itself. And after its loop body,
`install_trans` has given back the log's reference while the block is still in the header. -/
theorem flat_store_needs_polite :
    EndsWith overtaken (fun s => firstByte s 1 = some 1 ∧ s.store 100 ⟨0, by decide⟩ = 2) ∧
    EndsWith overwrittenLog (fun s => firstByte s 1 = some 2 ∧ s.store 100 ⟨0, by decide⟩ = 1) ∧
    EndsWith twoDevices (fun s => firstByte s 0 = some 0 ∧ s.store 5 ⟨0, by decide⟩ = 2) ∧
    EndsWith otherDevice (fun s => firstByte s 0 = some 2) ∧
    EndsWith loggedLogBlock (fun s => firstByte s 1 = some 1) ∧
    EndsWith installedBlock (fun s => 100 ∈ s.lh ∧ ∃ i, (s.cache.bufs i).dev = 1 ∧
      (s.cache.bufs i).blockno = 100 ∧ (s.cache.bufs i).refcnt = 0) :=
  ⟨endsWith_of_decide (by decide +kernel), endsWith_of_decide (by decide +kernel),
    endsWith_of_decide (by decide +kernel), endsWith_of_decide (by decide +kernel),
    endsWith_of_decide (by decide +kernel), endsWith_of_decide (by decide +kernel)⟩

end Xv6.Proofs.LogSys
