import Xv6.Kernel.Uart
import Xv6.Lib.RingBuffer

/-!
# `Xv6.Proofs.Dev.Uart`: the transmit queue sends what was enqueued, in order

The ring between the two 64-bit counters is a queue (`Contains`). `uartstart` sends a front part
of it, each byte right after the device reported idle, whatever the device answers
(`uartstart_sends`, by induction on the answers). So in every run, what was enqueued is what was
sent and then the queue (`Sends`).
-/

set_option autoImplicit false

namespace Xv6.Kernel

open Lib

variable {u : Uart} {q : List UInt8} {c : UInt8} {s t : UartRun} {x y : List Reg}

namespace Uart

/-- The transmit buffer as a ring. -/
def ring (u : Uart) : RingBuffer UInt8 := ⟨fun i => u.buf.getD i 0, u.r.toNat, u.w.toNat⟩

/-- The bytes `q` are queued. -/
structure Contains (u : Uart) (q : List UInt8) : Prop where
  length : u.buf.length = UART_TX_BUF_SIZE
  holds : u.ring.Holds UART_TX_BUF_SIZE (2 ^ 64) q

namespace Contains

theorem count (h : Contains u q) : (u.w - u.r).toNat = q.length := by
  have hread : u.r.toNat < 2 ^ 64 := u.r.toNat_lt
  have hcount : (u.w.toNat + 2 ^ 64 - u.r.toNat) % 2 ^ 64 = q.length := h.holds.count (by decide)
  rw [UInt64.toNat_sub]
  omega

theorem full_iff (h : Contains u q) : u.isFull = true ↔ q.length = UART_TX_BUF_SIZE := by
  rw [← h.holds.full_iff (by decide), isFull, beq_iff_eq, ← UInt64.toNat_inj, UInt64.toNat_add]
  rfl

theorem empty_iff (h : Contains u q) : u.w = u.r ↔ q = [] := by
  rw [← h.holds.empty_iff (by decide), eq_comm, ← UInt64.toNat_inj]
  rfl

theorem put (h : Contains u q) (hfull : ¬ u.isFull = true) : Contains (u.put c) (q ++ [c]) := by
  have hroom : q.length < UART_TX_BUF_SIZE :=
    Nat.lt_of_le_of_ne h.holds.bound fun hlen => hfull (h.full_iff.mpr hlen)
  have hring : (u.put c).ring = u.ring.push UART_TX_BUF_SIZE (2 ^ 64) c := by
    have hcell : u.w.toNat % UART_TX_BUF_SIZE < u.buf.length := by
      rw [h.length]
      exact Nat.mod_lt _ (by decide)
    unfold ring RingBuffer.push
    congr 1
    exact RingBuffer.getD_set u.buf hcell c 0
  refine ⟨by rw [← h.length]; exact List.length_set, ?_⟩
  rw [hring]
  exact h.holds.push (by decide) hroom

theorem drop (h : Contains u (c :: q)) : Contains { u with r := u.r + 1 } q := by
  have hring : ring { u with r := u.r + 1 } = u.ring.pop (2 ^ 64) := by
    unfold ring RingBuffer.pop
    congr 1
  refine ⟨h.length, ?_⟩
  rw [hring]
  exact h.holds.pop (by decide)

end Contains

end Uart

open Uart (Contains)

/-- The bytes written to `THR`. -/
def sent (device : List Reg) : List UInt8 :=
  device.filterMap fun a =>
    match a with
    | .lsr _ => none
    | .thr c => some c

/-- Every write of `THR` comes right after the device reported idle. -/
def WritesIdle (device : List Reg) : Prop :=
  ∀ i c, device[i]? = some (.thr c) → ∃ j, i = j + 1 ∧ device[j]? = some (.lsr true)

theorem WritesIdle.append (hx : WritesIdle x) (hy : WritesIdle y) : WritesIdle (x ++ y) := by
  intro i c hi
  rcases Nat.lt_or_ge i x.length with hlt | hge
  · rw [List.getElem?_append_left hlt] at hi
    obtain ⟨j, rfl, hj⟩ := hx i c hi
    exact ⟨j, rfl, by rw [List.getElem?_append_left (by omega), hj]⟩
  · rw [List.getElem?_append_right hge] at hi
    obtain ⟨j, hij, hj⟩ := hy _ c hi
    refine ⟨x.length + j, by omega, ?_⟩
    rw [List.getElem?_append_right (by omega), Nat.add_sub_cancel_left, hj]

theorem writesIdle_lsr (idle : Bool) : WritesIdle [.lsr idle] := by
  intro i c hi
  cases i with
  | zero => cases hi
  | succ i => cases hi

theorem writesIdle_send (c : UInt8) : WritesIdle [.lsr true, .thr c] := by
  intro i d hi
  match i with
  | 0 => cases hi
  | 1 => exact ⟨0, rfl, rfl⟩
  | i + 2 => cases hi

theorem writesIdle_nil : WritesIdle [] := fun _ _ hi => nomatch hi

/-- `uartstart` sends a front part of the queue. -/
theorem uartstart_sends (answers : List Bool) (h : Contains u q) :
    WritesIdle (uartstart answers u).2 ∧
      ∃ rest, Contains (uartstart answers u).1 rest ∧ q = sent (uartstart answers u).2 ++ rest := by
  induction answers generalizing u q with
  | nil =>
    rw [uartstart]
    split
    · exact ⟨writesIdle_nil, q, h, rfl⟩
    · exact ⟨writesIdle_lsr false, q, h, rfl⟩
  | cons idle answers ih =>
    rw [uartstart]
    split
    · exact ⟨writesIdle_nil, q, h, rfl⟩
    · rename_i hsome
      cases q with
      | nil => exact absurd (h.empty_iff.mpr rfl) hsome
      | cons c q =>
        cases idle with
        | false => exact ⟨writesIdle_lsr false, c :: q, h, rfl⟩
        | true =>
          obtain ⟨hidle, rest, hrest, hq⟩ := ih h.drop
          have hc : u.buf.getD (u.r.toNat % UART_TX_BUF_SIZE) 0 = c := h.holds.head
          rw [if_neg (by decide)]
          simp only [hc]
          exact ⟨(writesIdle_send c).append hidle, rest, hrest, congrArg (List.cons c) hq⟩

/-- What was enqueued is what was sent, and then the queue. -/
structure Sends (s : UartRun) : Prop where
  queue : ∃ q, Contains s.uart q ∧ s.enqueued = sent s.device ++ q
  idle : WritesIdle s.device

theorem Sends.start {q : List UInt8} {enqueued : List UInt8} (hidle : WritesIdle s.device)
    (hu : Contains u q) (hq : enqueued = sent s.device ++ q) (answers : List Bool)
    (ht : t.uart = (uartstart answers u).1) (hd : t.device = s.device ++ (uartstart answers u).2)
    (he : t.enqueued = enqueued) : Sends t := by
  obtain ⟨hnew, rest, hrest, hsplit⟩ := uartstart_sends answers hu
  refine ⟨⟨rest, by rw [ht]; exact hrest, ?_⟩, by rw [hd]; exact hidle.append hnew⟩
  rw [he, hq, hsplit, hd, sent, sent, sent, List.filterMap_append, List.append_assoc]

theorem Sends.putc (h : Sends s) (p : Nat) (c : UInt8) (answers : List Bool) :
    Sends (s.putc p c answers) := by
  obtain ⟨q, hq, hhist⟩ := h.queue
  unfold UartRun.putc
  split
  · exact ⟨⟨q, hq, hhist⟩, h.idle⟩
  · rename_i hroom
    refine Sends.start h.idle (hq.put hroom) ?_ answers rfl rfl rfl
    rw [hhist, List.append_assoc]

/-- An empty queue, before any call. -/
structure UartFresh (s : UartRun) : Prop where
  empty : s.uart.w = s.uart.r
  length : s.uart.buf.length = UART_TX_BUF_SIZE
  history : s.enqueued = [] ∧ s.device = []

theorem sends_of_reach (h : Reach uartSteps (fun _ _ => True) UartFresh s) : Sends s := by
  refine h.invariant (fun s hs => ?_) fun s a t hs _ ht => ?_
  · refine ⟨⟨[], ⟨hs.length, RingBuffer.Holds.empty s.uart.r.toNat_lt ?_⟩, ?_⟩, ?_⟩
    · exact congrArg UInt64.toNat hs.empty
    · rw [hs.history.1, hs.history.2]
      rfl
    · rw [hs.history.2]
      exact writesIdle_nil
  · cases a with
    | putc p c answers =>
      simp only [uartSteps] at ht
      split at ht
      · cases ht
      · obtain rfl := Except.ok.inj (Option.some.inj ht)
        exact hs.putc p c answers
    | putcOn p answers =>
      simp only [uartSteps] at ht
      split at ht
      · obtain rfl := Except.ok.inj (Option.some.inj ht)
        exact hs.putc p _ answers
      · cases ht
    | intr answers =>
      obtain rfl := Except.ok.inj (Option.some.inj ht)
      obtain ⟨q, hq, hhist⟩ := hs.queue
      exact Sends.start hs.idle hq hhist answers rfl rfl rfl
    | panic =>
      obtain rfl := Except.ok.inj (Option.some.inj ht)
      exact ⟨hs.queue, hs.idle⟩

/-- In every interleaving of the callers of `uartputc` and of the interrupts, and for every
answer of the device: at most `UART_TX_BUF_SIZE` bytes are queued, the bytes written to `THR`
are the first ones enqueued, the others are in the queue, in order, and the device was idle at
every write. -/
theorem uart_sends_in_order (s : UartRun) (h : Reach uartSteps (fun _ _ => True) UartFresh s) :
    (s.uart.w - s.uart.r).toNat ≤ UART_TX_BUF_SIZE ∧ sent s.device <+: s.enqueued ∧
      (∀ i < (s.uart.w - s.uart.r).toNat,
        s.enqueued[(sent s.device).length + i]?
          = some (s.uart.buf.getD ((s.uart.r.toNat + i) % UART_TX_BUF_SIZE) 0)) ∧
      s.enqueued.length = (sent s.device).length + (s.uart.w - s.uart.r).toNat ∧
      WritesIdle s.device := by
  obtain ⟨⟨q, hq, hhist⟩, hidle⟩ := sends_of_reach h
  rw [hq.count, hhist]
  refine ⟨hq.holds.bound, List.prefix_append _ _, fun i hi => ?_, List.length_append, hidle⟩
  rw [List.getElem?_append_right (by omega), Nat.add_sub_cancel_left]
  obtain ⟨b, hb⟩ : ∃ b, q[i]? = some b := ⟨q[i], List.getElem?_eq_getElem hi⟩
  rw [hb]
  exact congrArg some (hq.holds.cells i b hb).symm

/-- The queue at boot. -/
def bootUart : UartRun := ⟨⟨List.replicate UART_TX_BUF_SIZE 0, 0, 0⟩, false, fun _ => none, [], []⟩

/-- Two callers while the device is busy, and an interrupt that sends one byte. -/
theorem uart_sends_one : ∃ s,
    Lib.exec uartSteps bootUart [.putc 0 65 [], .putc 1 66 [], .intr [true]] = some (.ok s) ∧
      sent s.device = [65] ∧ sent s.device <+: s.enqueued := by
  obtain ⟨s, hs, hout⟩ := ends_iff.mp (by decide :
    ends (Lib.exec uartSteps bootUart [.putc 0 65 [], .putc 1 66 [], .intr [true]])
      (fun s => decide (sent s.device = [65])) = true)
  have hreach : Reach uartSteps (fun _ _ => True) UartFresh s :=
    reach_of_exec (.start ⟨rfl, List.length_replicate, rfl, rfl⟩) (fun _ _ _ => trivial) hs
  exact ⟨s, hs, of_decide_eq_true hout, (uart_sends_in_order s hreach).2.1⟩

end Xv6.Kernel
