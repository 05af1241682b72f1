import Mathlib.Logic.Function.Basic
import Xv6.Lib.Machine

/-!
# `Xv6.Kernel.Uart`: the transmit queue of `uart.c`

`uartputc` puts a byte into a ring and starts the device, which sends from the ring while it is
idle; `uartintr` starts it again. Each function is a stretch under `uart_tx_lock`, and a call of
`uartputc` that finds the ring full sleeps. `UartRun` is the queue with all the calls on it and
with its history.

What the device answers is a parameter of each stretch: the values of `LSR_TX_IDLE` that it
reports, one after the other, and busy from then on.
-/

set_option autoImplicit false

namespace Xv6.Kernel

open Lib

def UART_TX_BUF_SIZE : Nat := 32

/-- `uart_tx_buf`, `uart_tx_w` and `uart_tx_r`. -/
structure Uart where
  buf : List UInt8
  w : UInt64
  r : UInt64

/-- An access to a register of the device: a read of `LSR` with the idle bit, or a write of
`THR`. -/
inductive Reg
  | lsr (idle : Bool)
  | thr (c : UInt8)
deriving DecidableEq

/-- `uartstart`: the queue and the accesses to the device. -/
def uartstart : List Bool → Uart → Uart × List Reg
  | [], u => if u.w = u.r then (u, []) else (u, [.lsr false])
  | idle :: answers, u =>
      if u.w = u.r then
        (u, [])
      else if idle = false then
        (u, [.lsr false])
      else
        let c := u.buf.getD (u.r.toNat % UART_TX_BUF_SIZE) 0
        let rest := uartstart answers { u with r := u.r + 1 }
        (rest.1, .lsr true :: .thr c :: rest.2)

/-- The ring is full. -/
def Uart.isFull (u : Uart) : Bool := u.w == u.r + UInt64.ofNat UART_TX_BUF_SIZE

/-- `uart_tx_buf[uart_tx_w++ % UART_TX_BUF_SIZE] = c`. -/
def Uart.put (u : Uart) (c : UInt8) : Uart :=
  { u with buf := u.buf.set (u.w.toNat % UART_TX_BUF_SIZE) c, w := u.w + 1 }

/-- The queue, the calls of `uartputc` that sleep with their bytes, the bytes enqueued and the
accesses to the device. -/
structure UartRun where
  uart : Uart
  panicked : Bool
  asleep : Nat → Option UInt8
  enqueued : List UInt8
  device : List Reg

/-- `uartputc` from the test for a full ring on. -/
def UartRun.putc (s : UartRun) (p : Nat) (c : UInt8) (answers : List Bool) : UartRun :=
  if s.uart.isFull then
    { s with asleep := Function.update s.asleep p (some c) }
  else
    let started := uartstart answers (s.uart.put c)
    { s with
      uart := started.1
      asleep := Function.update s.asleep p none
      enqueued := s.enqueued ++ [c]
      device := s.device ++ started.2 }

/-- What can happen: a caller starts or goes on, the device interrupts, the kernel panics. -/
inductive UartStep
  | putc (p : Nat) (c : UInt8) (answers : List Bool)
  | putcOn (p : Nat) (answers : List Bool)
  | intr (answers : List Bool)
  | panic

/-- The runs of the queue. After a panic a new `uartputc` does not return. -/
def uartSteps : Machine UartRun UartStep Empty := fun s a =>
  match a with
  | .putc p c answers =>
      if s.panicked = true ∨ s.asleep p ≠ none then none else some (.ok (s.putc p c answers))
  | .putcOn p answers =>
      match s.asleep p with
      | some c => some (.ok (s.putc p c answers))
      | none => none
  | .intr answers =>
      let started := uartstart answers s.uart
      some (.ok { s with uart := started.1, device := s.device ++ started.2 })
  | .panic => some (.ok { s with panicked := true })

end Xv6.Kernel
