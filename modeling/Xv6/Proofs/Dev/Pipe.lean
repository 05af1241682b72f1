import Xv6.Kernel.Pipe
import Xv6.Lib.RingBuffer

/-!
# `Xv6.Proofs.Dev.Pipe`: a pipe is a bounded queue, unless a copy out fails

The data and the two counters of a pipe are a ring of `PIPESIZE` cells whose counters wrap at
`2 ^ 32`; `Contains pi q` says that it holds the queue `q`. A stretch of `pipewrite` appends the
bytes it copied in (`pipewriteLoop_contains`). The copying loop of `piperead` takes from the
front, and stores what it takes, except for the byte whose copy fails: that one is taken and not
stored (`pipereadLoop_contains`).

While every copy out succeeds, what was accepted is what was delivered and then the queue, in
every interleaving (`Fifo`). With an unmapped destination a read loses one byte, exactly when
there was a byte left for the first unmapped address (`piperead_consumes_iff`).
-/

set_option autoImplicit false

namespace Xv6.Kernel

open Lib

variable {pi : Pipe} {q : List UInt8} {ch : UInt8} {s t : PipeRun}

namespace Pipe

/-- The pipe as a ring. -/
def ring (pi : Pipe) : RingBuffer UInt8 :=
  ⟨fun i => pi.data.getD i 0, pi.nread.toNat, pi.nwrite.toNat⟩

/-- The pipe holds the bytes `q`. -/
structure Contains (pi : Pipe) (q : List UInt8) : Prop where
  length : pi.data.length = PIPESIZE
  holds : pi.ring.Holds PIPESIZE (2 ^ 32) q

namespace Contains

theorem count (h : Contains pi q) : (pi.nwrite - pi.nread).toNat = q.length := by
  have hread : pi.nread.toNat < 2 ^ 32 := pi.nread.toNat_lt
  have hcount : (pi.nwrite.toNat + 2 ^ 32 - pi.nread.toNat) % 2 ^ 32 = q.length :=
    h.holds.count (by decide)
  rw [UInt32.toNat_sub]
  omega

theorem full_iff (h : Contains pi q) : pi.isFull = true ↔ q.length = PIPESIZE := by
  rw [← h.holds.full_iff (by decide), isFull, beq_iff_eq, ← UInt32.toNat_inj, UInt32.toNat_add]
  rfl

theorem empty_iff (h : Contains pi q) : pi.isEmpty = true ↔ q = [] := by
  rw [← h.holds.empty_iff (by decide), isEmpty, beq_iff_eq, ← UInt32.toNat_inj]
  rfl

theorem put (h : Contains pi q) (hfull : pi.isFull = false) : Contains (pi.put ch) (q ++ [ch]) := by
  have hroom : q.length < PIPESIZE := by
    have hne : ¬ q.length = PIPESIZE := fun hlen => by simp [h.full_iff.mpr hlen] at hfull
    have := h.holds.bound
    omega
  have hring : (pi.put ch).ring = pi.ring.push PIPESIZE (2 ^ 32) ch := by
    have hcell : pi.nwrite.toNat % PIPESIZE < pi.data.length := by
      rw [h.length]
      exact Nat.mod_lt _ (by decide)
    unfold ring RingBuffer.push
    congr 1
    exact RingBuffer.getD_set pi.data hcell ch 0
  refine ⟨by rw [← h.length]; exact List.length_set, ?_⟩
  rw [hring]
  exact h.holds.push (by decide) hroom

theorem first (h : Contains pi (ch :: q)) : pi.first = ch := h.holds.head

theorem drop (h : Contains pi (ch :: q)) : Contains pi.drop q := by
  have hring : pi.drop.ring = pi.ring.pop (2 ^ 32) := by
    unfold ring RingBuffer.pop
    congr 1
  refine ⟨h.length, ?_⟩
  rw [hring]
  exact h.holds.pop (by decide)

end Contains

end Pipe

open Pipe (Contains)

/-! ### The two loops -/

/-- A stretch of `pipewrite` appends bytes of its caller, in their order. -/
theorem pipewriteLoop_contains (copyin : Nat → Option UInt8) (killed : Nat → Bool) (left i : Nat)
    (h : Contains pi q) :
    ∃ bs, Contains (pipewriteLoop copyin killed left i pi).1 (q ++ bs) ∧
      (pipewriteLoop copyin killed left i pi).2.1 = i + bs.length ∧
      bs.map some = (List.range' i bs.length).map copyin := by
  -- The loop stops here in four of its five cases.
  have hstop : Contains pi (q ++ []) := by rwa [List.append_nil]
  induction left generalizing i pi q with
  | zero => exact ⟨[], hstop, rfl, rfl⟩
  | succ left ih =>
    rw [pipewriteLoop]
    split
    · exact ⟨[], hstop, rfl, rfl⟩
    · split
      · exact ⟨[], hstop, rfl, rfl⟩
      · rename_i hfull
        cases hch : copyin i with
        | none => exact ⟨[], hstop, rfl, rfl⟩
        | some ch =>
          have hput : Contains (pi.put ch) (q ++ [ch]) := h.put (by simpa using hfull)
          obtain ⟨bs, hbs, hcount, hbytes⟩ := ih (i + 1) hput (by rwa [List.append_nil])
          rw [List.append_assoc] at hbs
          refine ⟨ch :: bs, hbs, ?_, ?_⟩
          · rw [hcount, List.length_cons]
            omega
          · rw [List.length_cons, List.range'_succ, List.map_cons, List.map_cons, hch, hbytes]

/-- The copying loop stores a front part of the queue and takes it, together with the byte whose
copy failed. -/
theorem pipereadLoop_contains (copyout : Nat → Bool) (left i : Nat) (h : Contains pi q) :
    ∃ k, (pipereadLoop copyout left i pi).2 = q.take k ∧ (∀ j < k, copyout (i + j) = true) ∧
      ((k = min left q.length ∧ Contains (pipereadLoop copyout left i pi).1 (q.drop k)) ∨
        (k < min left q.length ∧ copyout (i + k) = false ∧
          Contains (pipereadLoop copyout left i pi).1 (q.drop (k + 1)))) := by
  induction left generalizing i pi q with
  | zero => exact ⟨0, rfl, by omega, .inl ⟨by omega, h⟩⟩
  | succ left ih =>
    rw [pipereadLoop]
    cases q with
    | nil =>
      rw [if_pos (h.empty_iff.mpr rfl)]
      exact ⟨0, rfl, by omega, .inl ⟨by simp, h⟩⟩
    | cons ch q =>
      have hsome : ¬ pi.isEmpty = true := fun he => List.cons_ne_nil _ _ (h.empty_iff.mp he)
      rw [if_neg hsome]
      cases hcopy : copyout i with
      | false => exact ⟨0, rfl, by omega, .inr ⟨by simp, hcopy, h.drop⟩⟩
      | true =>
        obtain ⟨k, hout, hall, hrest⟩ := ih (i + 1) h.drop
        rw [if_pos rfl]
        refine ⟨k + 1, ?_, ?_, ?_⟩
        · show pi.first :: (pipereadLoop copyout left (i + 1) pi.drop).2 = _
          rw [hout, h.first]
          rfl
        · intro j hj
          cases j with
          | zero => exact hcopy
          | succ j =>
            rw [show i + (j + 1) = i + 1 + j by omega]
            exact hall j (by omega)
        · rw [List.length_cons, List.drop_succ_cons, List.drop_succ_cons,
            show i + (k + 1) = i + 1 + k by omega]
          rcases hrest with ⟨hk, hc⟩ | ⟨hk, hbad, hc⟩
          · exact .inl ⟨by omega, hc⟩
          · exact .inr ⟨by omega, hbad, hc⟩

/-! ### A read into memory that is partly unmapped -/

/-- With the destination mapped up to `mapped`, `piperead` takes just what it stored, exactly
when no byte was there for the first unmapped address. -/
theorem piperead_consumes_iff (pi : Pipe) (q : List UInt8) (h : Contains pi q) (n : Int)
    (mapped : Nat) (killed : Bool) :
    Contains (piperead n (fun j => decide (j < mapped)) killed pi).1
        (q.drop (piperead n (fun j => decide (j < mapped)) killed pi).2.1.length) ↔
      min n.toNat q.length ≤ mapped := by
  unfold piperead
  split
  · rename_i hwait
    obtain rfl := h.empty_iff.mp hwait.1
    exact iff_of_true h (by simp)
  · obtain ⟨k, hout, hall, hrest⟩ :=
      pipereadLoop_contains (fun j => decide (j < mapped)) n.toNat 0 h
    have hlen : (q.take k).length = k := by
      rw [List.length_take]
      omega
    simp only [hout, hlen]
    have hmapped : ∀ j < k, j < mapped := fun j hj => by simpa using hall j hj
    rcases hrest with ⟨hk, hc⟩ | ⟨hk, hbad, hc⟩
    · refine iff_of_true hc ?_
      by_contra hlt
      have := hmapped mapped (by omega)
      omega
    · -- The byte of the failed copy is gone: the queue is one shorter than what is left.
      have hend : mapped ≤ k := by simpa using hbad
      refine iff_of_false (fun hkeep => ?_) (by omega)
      have hcount := hkeep.count
      rw [hc.count, List.length_drop, List.length_drop] at hcount
      omega

/-- A pipe with one byte in it. -/
def onePipe : Pipe := ⟨List.replicate PIPESIZE 7, 0, 1, true, true⟩

theorem onePipe_contains : Contains onePipe [7] := by
  refine ⟨List.length_replicate, by decide, by decide, rfl, fun i x hi => ?_⟩
  cases i with
  | zero =>
    rw [← Option.some.inj hi]
    decide
  | succ i => cases hi

/-- A read of one mapped byte. -/
theorem piperead_consumes_one :
    Contains (piperead 1 (fun j => decide (j < 1)) false onePipe).1
      ([7].drop (piperead 1 (fun j => decide (j < 1)) false onePipe).2.1.length) :=
  (piperead_consumes_iff onePipe [7] onePipe_contains 1 1 false).mpr (by decide)

/-- A read to an unmapped address returns 0 and leaves the pipe empty: its byte is lost. -/
theorem piperead_loses_byte :
    Contains onePipe [7] ∧ (piperead 1 (fun j => decide (j < 0)) false onePipe).2 = ([], some 0) ∧
      (piperead 1 (fun j => decide (j < 0)) false onePipe).1.isEmpty = true :=
  ⟨onePipe_contains, by decide, by decide⟩

/-! ### All interleavings -/

/-- The bytes accepted from one call. -/
def fromCall (c : Nat) (accepted : List (Nat × UInt8)) : List UInt8 :=
  (accepted.filter fun e => e.1 == c).map Prod.snd

/-- A new read finds all of its destination mapped. -/
def CopiesSucceed (_ : PipeRun) : PipeStep → Prop
  | .read _ _ copyout _ => ∀ i, copyout i = true
  | _ => True

/-- A pipe as `pipealloc` leaves it, before any call. -/
structure Fresh (s : PipeRun) : Prop where
  empty : s.pipe.nread = 0 ∧ s.pipe.nwrite = 0
  length : s.pipe.data.length = PIPESIZE
  calls : (∀ c, s.writes c = none) ∧ ∀ c, s.reads c = none
  history : s.accepted = [] ∧ s.delivered = []

/-- What was accepted is what was delivered, and then the queue. Each call of `pipewrite` got
its first `i` bytes in, in their order. -/
structure Fifo (s : PipeRun) : Prop where
  queue : ∃ q, Contains s.pipe q ∧ s.accepted.map Prod.snd = s.delivered ++ q
  calls : ∀ c w, s.writes c = some w →
    (fromCall c s.accepted).map some = (List.range w.i).map w.copyin
  unknown : ∀ c, s.writes c = none → fromCall c s.accepted = []
  copies : ∀ c r, s.reads c = some r → ∀ i, r.copyout i = true

theorem fromCall_append {c : Nat} {x y : List (Nat × UInt8)} :
    fromCall c (x ++ y) = fromCall c x ++ fromCall c y := by
  rw [fromCall, List.filter_append, List.map_append]
  rfl

theorem fromCall_tagged (c d : Nat) (bs : List UInt8) :
    fromCall c (bs.map (Prod.mk d)) = if d = c then bs else [] := by
  induction bs with
  | nil => simp [fromCall]
  | cons b bs ih =>
    unfold fromCall at ih ⊢
    by_cases hd : d = c
    · simp_all
    · simp_all

/-- What a step can do: a stretch of a write, a stretch of a read, or a close. -/
theorem pipeSteps_cases {a : PipeStep} (hall : CopiesSucceed s a)
    (h : pipeSteps s a = some (.ok t)) :
    (∃ c w killed, (s.writes c = none ∧ w.i = 0 ∨ s.writes c = some w) ∧ t = s.write c w killed) ∨
    (∃ c r killed, ((∀ i, r.copyout i = true) ∨ s.reads c = some r) ∧ t = s.read c r killed) ∨
    ∃ pi : Pipe, pi.ring = s.pipe.ring ∧ pi.data = s.pipe.data ∧ t = { s with pipe := pi } := by
  cases a with
  | write c n copyin killed =>
    simp only [pipeSteps] at h
    split at h
    · rename_i hc
      obtain rfl := Except.ok.inj (Option.some.inj h)
      exact .inl ⟨c, _, killed, .inl ⟨hc, rfl⟩, rfl⟩
    · cases h
  | writeOn c killed =>
    simp only [pipeSteps] at h
    split at h
    · rename_i hc
      obtain rfl := Except.ok.inj (Option.some.inj h)
      exact .inl ⟨c, _, killed, .inr hc, rfl⟩
    · cases h
  | read c n copyout killed =>
    simp only [pipeSteps] at h
    split at h
    · obtain rfl := Except.ok.inj (Option.some.inj h)
      exact .inr (.inl ⟨c, ⟨n, copyout, none⟩, killed, .inl hall, rfl⟩)
    · cases h
  | readOn c killed =>
    simp only [pipeSteps] at h
    split at h
    · rename_i hc
      obtain rfl := Except.ok.inj (Option.some.inj h)
      exact .inr (.inl ⟨c, _, killed, .inr hc, rfl⟩)
    · cases h
  | close isWriteable =>
    obtain rfl := Except.ok.inj (Option.some.inj h)
    refine .inr (.inr ⟨_, ?_, ?_, rfl⟩)
    · cases isWriteable <;> rfl
    · cases isWriteable <;> rfl

theorem Fifo.write (h : Fifo s) {c : Nat} {w : Write} (killed : Nat → Bool)
    (hc : s.writes c = none ∧ w.i = 0 ∨ s.writes c = some w) : Fifo (s.write c w killed) := by
  obtain ⟨q, hq, hhist⟩ := h.queue
  obtain ⟨bs, hbs, hcount, hbytes⟩ :=
    pipewriteLoop_contains w.copyin killed (w.n.toNat - w.i) w.i hq
  have hnew : (List.range' w.i bs.length).filterMap w.copyin = bs := by
    have := congrArg (List.filterMap id) hbytes
    rw [List.filterMap_map, List.filterMap_map] at this
    simpa using this.symm
  -- Before the stretch the call had its first `i` bytes in; now it has its first `i'`.
  have hbefore : (fromCall c s.accepted).map some = (List.range w.i).map w.copyin := by
    rcases hc with ⟨hnone, hzero⟩ | hsome
    · rw [h.unknown c hnone, hzero]
      rfl
    · exact h.calls c w hsome
  unfold PipeRun.write
  simp only [hcount, Nat.add_sub_cancel_left, hnew]
  refine ⟨⟨q ++ bs, hbs, ?_⟩, fun d v hd => ?_, fun d hd => ?_, h.copies⟩
  · rw [List.map_append, hhist, List.append_assoc]
    simp
  · show (fromCall d (s.accepted ++ _)).map some = _
    rw [fromCall_append, fromCall_tagged]
    by_cases hdc : c = d
    · subst hdc
      obtain rfl := Option.some.inj ((Function.update_self c _ s.writes).symm.trans hd)
      have hjoin := @List.range'_append_1 0 w.i bs.length
      rw [Nat.zero_add, ← List.range_eq_range', ← List.range_eq_range'] at hjoin
      rw [if_pos rfl, List.map_append, hbefore, hbytes, ← List.map_append, hjoin]
    · rw [if_neg hdc, List.append_nil]
      exact h.calls d v ((Function.update_of_ne (Ne.symm hdc) _ s.writes).symm.trans hd)
  · show fromCall d (s.accepted ++ _) = []
    have hdc : ¬ c = d := fun heq => by
      subst heq
      simp at hd
    rw [fromCall_append, fromCall_tagged, if_neg hdc, List.append_nil]
    exact h.unknown d ((Function.update_of_ne (Ne.symm hdc) _ s.writes).symm.trans hd)

theorem Fifo.read (h : Fifo s) {c : Nat} {r : Read} (killed : Bool)
    (hr : ∀ i, r.copyout i = true) : Fifo (s.read c r killed) := by
  obtain ⟨q, hq, hhist⟩ := h.queue
  refine ⟨?_, h.calls, h.unknown, fun d v hd => ?_⟩
  · unfold PipeRun.read piperead
    split
    · exact ⟨q, hq, by simpa using hhist⟩
    · obtain ⟨k, hout, -, hrest⟩ := pipereadLoop_contains r.copyout r.n.toNat 0 hq
      rcases hrest with ⟨-, hcont⟩ | ⟨-, hbad, -⟩
      · refine ⟨q.drop k, hcont, ?_⟩
        simp only [hout]
        rw [hhist, List.append_assoc, List.take_append_drop]
      · rw [hr] at hbad
        cases hbad
  · by_cases hdc : d = c
    · subst hdc
      obtain rfl := Option.some.inj ((Function.update_self d _ s.reads).symm.trans hd)
      exact hr
    · exact h.copies d v ((Function.update_of_ne hdc _ s.reads).symm.trans hd)

theorem fifo_of_reach (h : Reach pipeSteps CopiesSucceed Fresh s) : Fifo s := by
  refine h.invariant (fun s hs => ?_) fun s a t hs hall ht => ?_
  · refine ⟨⟨[], ⟨hs.length, RingBuffer.Holds.empty s.pipe.nread.toNat_lt ?_⟩, ?_⟩, ?_, ?_, ?_⟩
    · show s.pipe.nwrite.toNat = s.pipe.nread.toNat
      rw [hs.empty.1, hs.empty.2]
    · rw [hs.history.1, hs.history.2]
      rfl
    · intro c w hw
      rw [hs.calls.1] at hw
      cases hw
    · intro c _
      rw [hs.history.1]
      rfl
    · intro c r hr
      rw [hs.calls.2] at hr
      cases hr
  · rcases pipeSteps_cases hall ht with ⟨c, w, killed, hc, rfl⟩ | ⟨c, r, killed, hr, rfl⟩ |
      ⟨pi, hring, hdata, rfl⟩
    · exact hs.write killed hc
    · exact hs.read killed (hr.elim id (hs.copies c r))
    · obtain ⟨q, hq, hhist⟩ := hs.queue
      refine ⟨⟨q, ⟨?_, ?_⟩, hhist⟩, hs.calls, hs.unknown, hs.copies⟩
      · rw [← hq.length]
        exact congrArg List.length hdata
      · rw [hring]
        exact hq.holds

/-- A read that returns 0 found the pipe empty and its write end closed. -/
theorem piperead_zero {n : Int} {copyout : Nat → Bool} {killed : Bool} (h : Contains pi q)
    (hcopy : ∀ i, copyout i = true) (hn : 0 < n)
    (hzero : (piperead n copyout killed pi).2.2 = some 0) :
    pi.isEmpty = true ∧ pi.isWriteopen = false := by
  unfold piperead at hzero
  split at hzero
  · cases killed <;> simp at hzero
  · rename_i hgo
    obtain ⟨k, hout, -, hrest⟩ := pipereadLoop_contains copyout n.toNat 0 h
    rcases hrest with ⟨hk, -⟩ | ⟨-, hbad, -⟩
    · have hempty : pi.isEmpty = true := by
        simp only [hout, Option.some.injEq, List.length_take] at hzero
        rw [h.empty_iff, ← List.length_eq_zero_iff]
        omega
      exact ⟨hempty, by simpa [hempty] using hgo⟩
    · rw [hcopy] at hbad
      cases hbad

/-- In every run of reads and writes whose copies out succeed: the pipe never holds more than
`PIPESIZE` bytes, what was delivered is the first part of what was accepted, the rest is in the
pipe, each call's accepted bytes are its first `i` in their order, and a read of a positive
count returns 0 only from an empty pipe with its write end closed. -/
theorem pipe_fifo (s : PipeRun) (h : Reach pipeSteps CopiesSucceed Fresh s) :
    (s.pipe.nwrite - s.pipe.nread).toNat ≤ PIPESIZE ∧
    s.delivered <+: s.accepted.map Prod.snd ∧
    s.accepted.length = s.delivered.length + (s.pipe.nwrite - s.pipe.nread).toNat ∧
    (∀ c w, s.writes c = some w →
      (fromCall c s.accepted).map some = (List.range w.i).map w.copyin) ∧
    ∀ a t, CopiesSucceed s a → pipeSteps s a = some (.ok t) → ∀ c r, t.reads c = some r →
      r.result = some 0 → 0 < r.n →
      s.reads c = some r ∨ s.pipe.nread = s.pipe.nwrite ∧ s.pipe.isWriteopen = false := by
  have hfifo := fifo_of_reach h
  obtain ⟨q, hq, hhist⟩ := hfifo.queue
  refine ⟨?_, ?_, ?_, hfifo.calls, fun a t hall ht c r hr hzero hn => ?_⟩
  · rw [hq.count]
    exact hq.holds.bound
  · rw [hhist]
    exact List.prefix_append _ _
  · rw [hq.count, ← List.length_append, ← hhist, List.length_map]
  · rcases pipeSteps_cases hall ht with ⟨d, w, killed, -, rfl⟩ | ⟨d, r', killed, hr', rfl⟩ |
      ⟨pi, -, -, rfl⟩
    · exact .inl hr
    · by_cases hcd : c = d
      · subst hcd
        obtain rfl := Option.some.inj ((Function.update_self c _ s.reads).symm.trans hr)
        have hend := piperead_zero hq (hr'.elim id (hfifo.copies c r')) hn hzero
        exact .inr ⟨by simpa [Pipe.isEmpty] using hend.1, hend.2⟩
      · exact .inl ((Function.update_of_ne hcd _ s.reads).symm.trans hr)
    · exact .inl hr

/-- An open pipe without calls. -/
def newPipe : PipeRun :=
  ⟨⟨List.replicate PIPESIZE 0, 0, 0, true, true⟩, fun _ => none, fun _ => none, [], []⟩

/-- A write of two bytes and a read of one. -/
def writeAndRead : List PipeStep :=
  [.write 0 2 (fun i => some (UInt8.ofNat (i + 5))) fun _ => false,
    .read 0 1 (fun _ => true) false]

theorem pipe_fifo_one : ∃ s, Lib.exec pipeSteps newPipe writeAndRead = some (.ok s) ∧
    s.delivered = [5] ∧ s.delivered <+: s.accepted.map Prod.snd := by
  obtain ⟨s, hs, hout⟩ := ends_iff.mp (by decide :
    ends (Lib.exec pipeSteps newPipe writeAndRead) (fun s => decide (s.delivered = [5])) = true)
  have hfresh : Fresh newPipe :=
    ⟨⟨rfl, rfl⟩, List.length_replicate, ⟨fun _ => rfl, fun _ => rfl⟩, rfl, rfl⟩
  have hreach : Reach pipeSteps CopiesSucceed Fresh s := by
    refine reach_of_exec (.start hfresh) (fun a ha t => ?_) hs
    simp only [writeAndRead, List.mem_cons, List.not_mem_nil, or_false] at ha
    rcases ha with rfl | rfl
    · trivial
    · exact fun _ => rfl
  exact ⟨s, hs, of_decide_eq_true hout, (pipe_fifo s hreach).2.1⟩

end Xv6.Kernel
