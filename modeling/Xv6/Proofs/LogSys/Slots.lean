import Mathlib.Data.Fintype.Prod
import Mathlib.Data.Fintype.Sum
import Mathlib.Tactic.IntervalCases
import Xv6.Proofs.Cache.Coherent
import Xv6.Proofs.LogSys.Steps

/-!
# `Xv6.Proofs.LogSys.Slots`: the buffers that `commit` holds

At every point of its code `commit` holds at most two buffers, and the point determines how
far it got with each and for which block. `slotsAt` computes that by running the done part of
the body on abstract slots (`absExec`). `execInstr_stages` says that the machine follows the
abstract run, instruction by instruction, so no proof needs a table of the forty program
points.

The second part finds the program point of the instructions that matter for the contents:
the copies, the writes and the unpin.
-/

set_option autoImplicit false

namespace Xv6.Proofs.LogSys

open Xv6.Lib
open Xv6.Kernel
open Xv6.Kernel.LogSys
open Xv6.Proofs.Cache

/-- How far an agent got with the buffer of a block. -/
inductive Stage
  | idle
  | waiting (b : Nat)
  | locked (b : Nat)
  | held (b : Nat) (dirty : Bool)
  | releasing (b : Nat)
deriving DecidableEq, Repr

/-- The block of a stage. -/
def Stage.block : Stage → Nat
  | .idle => 0
  | .waiting b => b
  | .locked b => b
  | .held b _ => b
  | .releasing b => b

variable {u : Use} {d : Bool} {dev : Nat} {i : Fin NBUF}

section Stages

variable {A : Type}

/-- The stage of a use: the block number in place of the buffer. -/
def stageOf (c : Cache A) : Use → Stage
  | .idle => .idle
  | .waiting i => .waiting (c.bufs i).blockno
  | .locked i => .locked (c.bufs i).blockno
  | .held i d => .held (c.bufs i).blockno d
  | .releasing i => .releasing (c.bufs i).blockno

variable {c : Cache A} {b : Nat}

theorem stageOf_eq_held (h : stageOf c u = .held b d) :
    ∃ i, u = .held i d ∧ (c.bufs i).blockno = b := by
  cases u with
  | held i d' =>
    cases h
    exact ⟨i, rfl, rfl⟩
  | idle => cases h
  | waiting i => cases h
  | locked i => cases h
  | releasing i => cases h

theorem stageOf_eq_waiting (h : stageOf c u = .waiting b) :
    ∃ i, u = .waiting i ∧ (c.bufs i).blockno = b := by
  cases u with
  | waiting i =>
    cases h
    exact ⟨i, rfl, rfl⟩
  | idle => cases h
  | held i d => cases h
  | locked i => cases h
  | releasing i => cases h

theorem stageOf_eq_idle (h : stageOf c u = .idle) : u = .idle := by
  cases u <;> first | rfl | cases h

variable {c' : Cache A}

/-- A stage depends on the block of the used buffer only. -/
theorem stageOf_congr (h : ∀ i, u.buf = some i → (c'.bufs i).blockno = (c.bufs i).blockno) :
    stageOf c' u = stageOf c u := by
  cases u with
  | idle => rfl
  | waiting i => exact congrArg Stage.waiting (h i rfl)
  | locked i => exact congrArg Stage.locked (h i rfl)
  | held i d => exact congrArg (Stage.held · d) (h i rfl)
  | releasing i => exact congrArg Stage.releasing (h i rfl)

variable {a : A}

/-- The other agents keep their stages. -/
theorem stages_keeps [Fintype A] {pinned pending : List Nat} {store : Disk} {a' : A}
    (h : Coherent c dev pinned pending store) (k : Keeps c c' a) (ha : a' ≠ a) :
    stageOf c' (c'.uses a') = stageOf c (c.uses a') := by
  rw [k.others a' ha]
  exact stageOf_congr fun j hj => (k.block j (h.refcnt_pos hj)).2

variable [DecidableEq A]

theorem stages_touch {b : Buf A} (t : Touch c c' a i b u) (a' : A) :
    stageOf c' (c'.uses a') = if a' = a then stageOf c u else stageOf c (c.uses a') := by
  rw [stageOf_congr fun j _ => (t.block j).2, t.uses]
  split
  · rename_i ha
    rw [ha, Function.update_self]
  · rename_i ha
    rw [Function.update_of_ne ha]

/-- After `bget` the agent waits for the buffer of its block. -/
theorem stage_bget (h : c.bget a dev b = some c') :
    stageOf c' (c'.uses a) = .waiting b := by
  rcases bget_touch h with ⟨i, -, hb, -, t⟩ | ⟨i, r⟩
  · rw [stages_touch t a, if_pos rfl, ← hb]
    rfl
  · rw [r.uses, Function.update_self, stageOf, r.bufs, Function.update_self]

end Stages

/-! ### The abstract run of a body -/

/-- The effect of an instruction on the stages of the two slots. -/
def absExec (st : Bool → Stage) : Instr → Bool → Stage
  | .get j b => Function.update st j (.waiting b)
  | .lock j => Function.update st j (.locked (st j).block)
  | .fill j => Function.update st j (.held (st j).block false)
  | .move dst _ => Function.update st dst (.held (st dst).block true)
  | .putHead j => Function.update st j (.held (st j).block true)
  | .write j => Function.update st j (.held (st j).block false)
  | .writeHome j => Function.update st j (.held (st j).block false)
  | .unpin _ => st
  | .unlock j => Function.update st j (.releasing (st j).block)
  | .unref j => Function.update st j .idle

/-- The stages of the slots after the done part of the body at `pc`. -/
def slotsAt (sb : Superblock) (lh : List Nat) (pc : Pc) : Bool → Stage :=
  ((code sb lh pc).take (Pc.count pc)).foldl absExec fun _ => .idle

variable {sb : Superblock} {lh : List Nat} {tail : Nat}

theorem slotsAt_writeLog (h : tail < lh.length) (k : Nat) : slotsAt sb lh (.writeLog tail k)
      = ((writeLogBody sb lh tail).take k).foldl absExec fun _ => .idle := by
  simp only [slotsAt, code, if_pos h, Pc.count]

theorem slotsAt_install (h : tail < lh.length) (k : Nat) : slotsAt sb lh (.install tail k)
      = ((installBody sb lh tail).take k).foldl absExec fun _ => .idle := by
  simp only [slotsAt, code, if_pos h, Pc.count]

variable {pc : Pc} {ins : Instr}

theorem slotsAt_bump (h : nextInstr sb lh pc = some ins) :
    slotsAt sb lh (Pc.bump pc) = absExec (slotsAt sb lh pc) ins := by
  -- `bump` stays in the body and counts one more instruction, which is `ins`.
  have hbump : code sb lh (Pc.bump pc) = code sb lh pc ∧ Pc.count (Pc.bump pc) = Pc.count pc + 1 := by
    cases pc with
    | start => simp [nextInstr, code] at h
    | done => simp [nextInstr, code] at h
    | writeLog tail k => exact ⟨rfl, rfl⟩
    | writeHead k => exact ⟨rfl, rfl⟩
    | install tail k => exact ⟨rfl, rfl⟩
    | clearHead k => exact ⟨rfl, rfl⟩
  unfold slotsAt
  rw [hbump.1, hbump.2, List.take_add_one, show (code sb lh pc)[Pc.count pc]? = some ins from h,
    List.foldl_append]
  rfl

/-- Each body gives both buffers back. -/
theorem slotsAt_of_count_le (h : (code sb lh pc).length ≤ Pc.count pc) :
    slotsAt sb lh pc = fun _ => .idle := by
  unfold slotsAt
  rw [List.take_of_length_le h]
  funext j
  cases pc with
  | start => rfl
  | done => rfl
  | writeLog tail k =>
    simp only [code]
    split
    · cases j <;> rfl
    · rfl
  | writeHead k => cases j <;> rfl
  | install tail k =>
    simp only [code]
    split
    · cases j <;> rfl
    · rfl
  | clearHead k => cases j <;> rfl

theorem slotsAt_zero (h : Pc.count pc = 0) :
    slotsAt sb lh pc = fun _ => .idle := by
  unfold slotsAt
  rw [h, List.take_zero]
  rfl

/-- A jump leaves and enters a body with both slots idle. -/
theorem slotsAt_jump {pc' : Pc} (h : Jump lh pc pc') :
    slotsAt sb lh pc = (fun _ => .idle) ∧ slotsAt sb lh pc' = fun _ => .idle := by
  cases h with
  | enter _ => exact ⟨slotsAt_zero rfl, slotsAt_zero rfl⟩
  | skip _ => exact ⟨slotsAt_zero rfl, slotsAt_zero rfl⟩
  | nextLog hlt hk =>
    refine ⟨slotsAt_of_count_le ?_, slotsAt_zero rfl⟩
    rw [code, if_pos hlt]
    exact hk
  | logEnd hge =>
    refine ⟨slotsAt_of_count_le ?_, slotsAt_zero rfl⟩
    rw [code, if_neg (Nat.not_lt.mpr hge)]
    exact Nat.zero_le _
  | headEnd hk => exact ⟨slotsAt_of_count_le hk, slotsAt_zero rfl⟩
  | nextInstall hlt hk =>
    refine ⟨slotsAt_of_count_le ?_, slotsAt_zero rfl⟩
    rw [code, if_pos hlt]
    exact hk
  | clearEnd hk => exact ⟨slotsAt_of_count_le hk, slotsAt_zero rfl⟩

/-! ### The machine follows the abstract run -/

variable {P K : Type}

/-- The stages of the two slots of `commit`. -/
def stages (s : State P K) (j : Bool) : Stage := stageOf s.cache (s.cache.uses (.inr j))

variable {s : State P K} {j : Bool}

theorem stages_of (h : s.cache.uses (.inr j) = u) : stages s j = stageOf s.cache u := by
  rw [stages, h]

variable [DecidableEq P] [DecidableEq K]

/-- A touch by slot `j` moves the stage of that slot. -/
theorem stages_slot {c : Cache (Agent P K)} {b : Buf (Agent P K)}
    (t : Touch s.cache c (.inr j) i b u) :
    (fun j' => stageOf c (c.uses (.inr j')))
      = Function.update (stages s) j (stageOf s.cache u) := by
  funext j'
  rw [stages_touch t (.inr j')]
  by_cases hj : j' = j
  · rw [hj, Function.update_self, if_pos rfl]
  · rw [Function.update_of_ne hj, if_neg (by simpa using hj)]
    rfl

variable {t : State P K}

/-- What an instruction does: it is a `bget`, or one slot touches a buffer and its stage moves. The
disk changes in the writes only. -/
theorem execInstr_cases (h : execInstr dev s ins = some (.ok t)) :
    (∃ j b, ins = .get j b ∧ s.cache.bget (.inr j) dev b = some t.cache) ∨
      ∃ j i b u, Touch s.cache t.cache (.inr j) i b u ∧
        absExec (stages s) ins = Function.update (stages s) j (stageOf s.cache u) ∧
        (t.cache.disk = s.cache.disk ∨ ∃ j, ins = .write j ∨ ins = .writeHome j) := by
  cases ins with
  | get j b =>
    simp only [execInstr] at h
    split at h
    · split at h
      · rename_i c hget
        cases h
        exact Or.inl ⟨j, b, rfl, hget⟩
      · cases h
    · cases h
  | lock j =>
    obtain ⟨c, hc, hs⟩ := Option.map_eq_some_iff.mp h
    cases hs
    obtain ⟨i, hu, _, hd, tch⟩ := acquiresleep_touch hc
    exact Or.inr ⟨j, i, _, _, tch, by rw [absExec, stages_of hu]; rfl, Or.inl hd⟩
  | fill j =>
    obtain ⟨c, hc, hs⟩ := Option.map_eq_some_iff.mp h
    cases hs
    obtain ⟨i, b, hu, hd, tch, _⟩ := fill_touch hc
    exact Or.inr ⟨j, i, b, _, tch, by rw [absExec, stages_of hu]; rfl, Or.inl hd⟩
  | move dst src =>
    obtain ⟨i₀, -, hbind⟩ := Option.bind_eq_some_iff.mp h
    obtain ⟨c, hc, hs⟩ := Option.map_eq_some_iff.mp hbind
    cases hs
    obtain ⟨i, _, hu, hd, tch⟩ := modify_touch hc
    exact Or.inr ⟨dst, i, _, _, tch, by rw [absExec, stages_of hu]; rfl, Or.inl hd⟩
  | putHead j =>
    obtain ⟨i₀, -, hbind⟩ := Option.bind_eq_some_iff.mp h
    obtain ⟨c, hc, hs⟩ := Option.map_eq_some_iff.mp hbind
    cases hs
    obtain ⟨i, _, hu, hd, tch⟩ := modify_touch hc
    exact Or.inr ⟨j, i, _, _, tch, by rw [absExec, stages_of hu]; rfl, Or.inl hd⟩
  | write j =>
    obtain ⟨i₀, -, hbind⟩ := Option.bind_eq_some_iff.mp h
    obtain ⟨c, hc, hs⟩ := Option.map_eq_some_iff.mp hbind
    cases hs
    obtain ⟨i, _, hu, _, tch⟩ := bwrite_touch hc
    exact Or.inr ⟨j, i, _, _, tch, by rw [absExec, stages_of hu]; rfl, Or.inr ⟨j, Or.inl rfl⟩⟩
  | writeHome j =>
    obtain ⟨c, hc, hs⟩ := Option.map_eq_some_iff.mp h
    cases hs
    obtain ⟨i, _, hu, _, tch⟩ := bwrite_touch hc
    exact Or.inr ⟨j, i, _, _, tch, by rw [absExec, stages_of hu]; rfl, Or.inr ⟨j, Or.inr rfl⟩⟩
  | unpin j =>
    obtain ⟨c, hc, hs⟩ := Option.map_eq_some_iff.mp h
    cases hs
    obtain ⟨i, _, hu, hd, tch⟩ := bunpin_touch hc
    refine Or.inr ⟨j, i, _, _, tch, ?_, Or.inl hd⟩
    rw [← hu]
    exact (Function.update_eq_self j (stages s)).symm
  | unlock j =>
    obtain ⟨c, hc, hs⟩ := Option.map_eq_some_iff.mp h
    cases hs
    obtain ⟨i, hu, hd, tch⟩ := releasesleep_touch hc
    exact Or.inr ⟨j, i, _, _, tch, by rw [absExec, stages_of hu]; rfl, Or.inl hd⟩
  | unref j =>
    obtain ⟨c, hc, hs⟩ := Option.map_eq_some_iff.mp h
    cases hs
    obtain ⟨i, _, hd, tch⟩ := unref_touch hc
    exact Or.inr ⟨j, i, _, _, tch, rfl, Or.inl hd⟩

/-- An instruction keeps the block of every buffer with a reference. -/
theorem execInstr_block (h : execInstr dev s ins = some (.ok t)) (i : Fin NBUF)
    (hi : (s.cache.bufs i).refcnt ≠ 0) :
    (t.cache.bufs i).dev = (s.cache.bufs i).dev ∧
      (t.cache.bufs i).blockno = (s.cache.bufs i).blockno := by
  rcases execInstr_cases h with ⟨j, b, -, hget⟩ | ⟨j, i', b, u, tch, -⟩
  · exact (bget_keeps hget).block i hi
  · exact tch.block i

/-- The slots of the processes do not move in `commit`. -/
theorem execInstr_uses (ht : execInstr dev s ins = some (.ok t)) (q : P × K) :
    t.cache.uses (.inl q) = s.cache.uses (.inl q) := by
  rcases execInstr_cases ht with ⟨j, b, -, hget⟩ | ⟨j, i, b, u, tch, -⟩
  · exact (bget_keeps hget).others _ (by simp)
  · rw [tch.uses, Function.update_of_ne (by simp)]

/-- Outside of its writes an instruction does not change the disk. -/
theorem execInstr_disk (ht : execInstr dev s ins = some (.ok t)) (hwrite : ∀ j, ins ≠ .write j)
    (hhome : ∀ j, ins ≠ .writeHome j) :
    t.cache.disk = s.cache.disk := by
  rcases execInstr_cases ht with ⟨j, b, -, hget⟩ | ⟨j, i, b, u, -, -, hd | ⟨j', hw | hh⟩⟩
  · rcases bget_touch hget with ⟨_, _, _, hd, _⟩ | ⟨_, r⟩
    · exact hd
    · exact r.disk
  · exact hd
  · exact absurd hw (hwrite j')
  · exact absurd hh (hhome j')

/-- The write of a slot to the log area. -/
theorem execInstr_write (hi : s.cache.uses (.inr j) = .held i d)
    (ht : execInstr dev s (.write j) = some (.ok t)) :
    ∃ c, s.cache.bwrite (.inr j) = some c ∧ t = (s.publish i).setCache c := by
  obtain ⟨i₀, hholds, hbind⟩ := Option.bind_eq_some_iff.mp ht
  obtain ⟨c, hc, hs⟩ := Option.map_eq_some_iff.mp hbind
  obtain ⟨d₀, hd₀⟩ := holds_eq_some.mp hholds
  rw [hi] at hd₀
  cases hd₀
  cases hs
  exact ⟨c, hc, rfl⟩

/-- After a copy the two buffers of `commit` have the same contents. -/
theorem execInstr_moved (ht : execInstr dev s (.move j (!j)) = some (.ok t)) {i' : Fin NBUF}
    {d' : Bool} (hi : t.cache.uses (.inr j) = .held i d)
    (hi' : t.cache.uses (.inr (!j)) = .held i' d') :
    (t.cache.bufs i).data = (t.cache.bufs i').data := by
  obtain ⟨i₀, hholds, hbind⟩ := Option.bind_eq_some_iff.mp ht
  obtain ⟨c, hc, hs⟩ := Option.map_eq_some_iff.mp hbind
  cases hs
  obtain ⟨d₀, hd₀⟩ := holds_eq_some.mp hholds
  obtain ⟨i₁, d₁, hd₁, -, tch⟩ := modify_touch hc
  -- The buffers are the ones that were copied to and from.
  obtain rfl : i = i₁ := by
    have huse : c.uses (.inr j) = .held i₁ true := by rw [tch.uses, Function.update_self]
    rw [show c.uses (.inr j) = .held i d from hi] at huse
    cases huse
    rfl
  obtain rfl : i' = i₀ := by
    have huse : c.uses (.inr (!j)) = .held i₀ d₀ := by
      rw [tch.uses, Function.update_of_ne (by simp), hd₀]
    rw [show c.uses (.inr (!j)) = .held i' d' from hi'] at huse
    cases huse
    rfl
  show (c.bufs i).data = (c.bufs i').data
  rw [tch.bufs, Function.update_self]
  by_cases he : i' = i
  · rw [he, Function.update_self]
  · rw [Function.update_of_ne he]

variable [Fintype P] [Fintype K]

/-- An instruction of the machine has the effect of the abstract one. -/
theorem execInstr_stages {pinned pending : List Nat} {store : Disk}
    (hc : Coherent s.cache dev pinned pending store) (h : execInstr dev s ins = some (.ok t)) :
    stages t = absExec (stages s) ins := by
  rcases execInstr_cases h with ⟨j, b, rfl, hget⟩ | ⟨j, i, b, u, tch, hst, -⟩
  · funext j'
    show stageOf t.cache (t.cache.uses (.inr j')) = Function.update (stages s) j (.waiting b) j'
    by_cases hj : j' = j
    · rw [hj, Function.update_self]
      exact stage_bget hget
    · rw [Function.update_of_ne hj]
      exact stages_keeps hc (bget_keeps hget) (by simpa using hj)
  · rw [hst]
    exact stages_slot tch

/-! ### Where the instructions stand -/

variable {k : Nat}

/-- An instruction of the loop of `write_log`. -/
theorem nextInstr_writeLog (h : nextInstr sb lh (.writeLog tail k) = some ins) :
    tail < lh.length ∧ k < 12 ∧ (writeLogBody sb lh tail)[k]? = some ins := by
  simp only [nextInstr, code, Pc.count] at h
  split at h
  · rename_i hlt
    exact ⟨hlt, (List.getElem?_eq_some_iff.mp h).1, h⟩
  · simp at h

/-- An instruction of the loop of `install_trans`. -/
theorem nextInstr_install (h : nextInstr sb lh (.install tail k) = some ins) :
    tail < lh.length ∧ k < 13 ∧ (installBody sb lh tail)[k]? = some ins := by
  simp only [nextInstr, code, Pc.count] at h
  split at h
  · rename_i hlt
    exact ⟨hlt, (List.getElem?_eq_some_iff.mp h).1, h⟩
  · simp at h

/-- An instruction of `write_head`. -/
theorem writeHeadBody_lt (h : (writeHeadBody sb)[k]? = some ins) : k < 7 :=
  (List.getElem?_eq_some_iff.mp h).1

/-- The program points of the writes to the log area, of the write home and of the unpin. -/
theorem nextInstr_at (h : nextInstr sb lh pc = some ins) : match ins with
    | .write j => j = false ∧ ((∃ tail, pc = .writeLog tail 7 ∧ tail < lh.length) ∨
        pc = .writeHead 4 ∨ pc = .clearHead 4)
    | .writeHome j => j = true ∧ ∃ tail, pc = .install tail 7 ∧ tail < lh.length
    | .unpin j => j = true ∧ ∃ tail, pc = .install tail 8 ∧ tail < lh.length
    | _ => True := by
  cases pc with
  | start => simp [nextInstr, code] at h
  | done => simp [nextInstr, code] at h
  | writeLog tail k =>
    obtain ⟨hlt, hk, hins⟩ := nextInstr_writeLog h
    interval_cases k <;> cases hins <;> first | trivial | exact ⟨rfl, Or.inl ⟨tail, rfl, hlt⟩⟩
  | writeHead k =>
    have hk : k < 7 := writeHeadBody_lt h
    interval_cases k <;> cases h <;> first | trivial | exact ⟨rfl, Or.inr (Or.inl rfl)⟩
  | install tail k =>
    obtain ⟨hlt, hk, hins⟩ := nextInstr_install h
    interval_cases k <;> cases hins <;> first | trivial | exact ⟨rfl, tail, rfl, hlt⟩
  | clearHead k =>
    have hk : k < 7 := writeHeadBody_lt h
    interval_cases k <;> cases h <;> first | trivial | exact ⟨rfl, Or.inr (Or.inr rfl)⟩

end Xv6.Proofs.LogSys
