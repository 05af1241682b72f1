import Mathlib.Logic.Function.Basic
import Xv6.Lib.Machine

/-!
# `Xv6.Kernel.Console`: the line discipline of `console.c`

`consoleintr` edits the line that is typed, and commits it; `consoleread` takes committed bytes.
Both run under the lock of the console, and a read that finds nothing sleeps: `consolereadLoop`
is a stretch of a read, until it sleeps or returns. The echo and the process list of `^P` go to
the device and are left out.

`Editor` says what the line discipline is for, without the ring: the line being edited, and the
bytes committed so far. `ConsRun` runs both side by side, with any number of readers.
-/

set_option autoImplicit false

namespace Xv6.Kernel

open Lib

def INPUT_BUF_SIZE : Nat := 128

/-- `C(x)`. -/
def ctrl (x : Char) : UInt8 := UInt8.ofNat (x.toNat - '@'.toNat)

/-- The newline. -/
def NL : UInt8 := 10

/-- `'\r'`. -/
def CR : UInt8 := 13

/-- `'\x7f'`. -/
def DEL : UInt8 := 0x7f

/-- `cons`, without its lock. -/
structure Cons where
  buf : List UInt8
  r : UInt32
  w : UInt32
  e : UInt32

/-- `buf[i % INPUT_BUF_SIZE]`. -/
def Cons.at (c : Cons) (i : UInt32) : UInt8 := c.buf.getD (i.toNat % INPUT_BUF_SIZE) 0

/-- `buf[e++ % INPUT_BUF_SIZE] = ch`. -/
def Cons.put (c : Cons) (ch : UInt8) : Cons :=
  { c with buf := c.buf.set (c.e.toNat % INPUT_BUF_SIZE) ch, e := c.e + 1 }

/-- The loop of `^U`, which goes round at most `e - w` times. -/
def killLine : Nat → Cons → Cons
  | 0, c => c
  | n + 1, c =>
      if c.e ≠ c.w ∧ c.at (c.e - 1) ≠ NL then killLine n { c with e := c.e - 1 } else c

/-- `consoleintr`. -/
def consoleintr (ch : UInt8) (c : Cons) : Cons :=
  if ch = ctrl 'P' then
    c
  else if ch = ctrl 'U' then
    killLine (c.e - c.w).toNat c
  else if ch = ctrl 'H' ∨ ch = DEL then
    if c.e ≠ c.w then { c with e := c.e - 1 } else c
  else if ch ≠ 0 ∧ c.e - c.r < UInt32.ofNat INPUT_BUF_SIZE then
    let ch := if ch = CR then NL else ch
    let c := c.put ch
    if ch = NL ∨ ch = ctrl 'D' ∨ c.e - c.r = UInt32.ofNat INPUT_BUF_SIZE then
      { c with w := c.e }
    else
      c
  else
    c

/-- A call of `consoleread`. -/
structure ConsRead where
  target : Nat
  copyout : Nat → Bool
  left : Nat
  result : Option Int

/-- What a stretch of a read leaves: the console, the bytes it copied out, how many bytes it
still wants, and its result, unless it sleeps. -/
structure ConsGot where
  cons : Cons
  out : List UInt8
  left : Nat
  result : Option Int

/-- The loop of `consoleread`, until it sleeps or returns. -/
def consolereadLoop (target : Nat) (copyout killed : Nat → Bool) : Nat → Cons → ConsGot
  | 0, c => ⟨c, [], 0, some target⟩
  | left + 1, c =>
      if c.r = c.w then
        ⟨c, [], left + 1, if killed left then some (-1) else none⟩
      else
        let ch := c.at c.r
        let c' := { c with r := c.r + 1 }
        if ch = ctrl 'D' then
          ⟨if left + 1 < target then { c' with r := c'.r - 1 } else c', [], left + 1,
            some (target - (left + 1) : Int)⟩
        else if copyout (target - (left + 1)) = false then
          ⟨c', [], left + 1, some (target - (left + 1) : Int)⟩
        else if ch = NL then
          ⟨c', [ch], left, some (target - left : Int)⟩
        else
          let rest := consolereadLoop target copyout killed left c'
          { rest with out := ch :: rest.out }

/-! ### What it is for -/

/-- The line that is being edited, and all bytes committed so far. -/
structure Editor where
  line : List UInt8
  committed : List UInt8

/-- A character is typed, when the readers have taken `taken` of the committed bytes. A line is
committed by a newline, by `^D`, or because there is no more room. -/
def Editor.type (ed : Editor) (taken : Nat) (ch : UInt8) : Editor :=
  let used := ed.committed.length - taken + ed.line.length
  if ch = ctrl 'P' then
    ed
  else if ch = ctrl 'U' then
    { ed with line := [] }
  else if ch = ctrl 'H' ∨ ch = DEL then
    { ed with line := ed.line.dropLast }
  else if ch = 0 ∨ INPUT_BUF_SIZE ≤ used then
    ed
  else
    let ch := if ch = CR then NL else ch
    if ch = NL ∨ ch = ctrl 'D' ∨ used + 1 = INPUT_BUF_SIZE then
      ⟨[], ed.committed ++ (ed.line ++ [ch])⟩
    else
      { ed with line := ed.line ++ [ch] }

/-- A stretch of a read of `target` bytes that still wants some, from what is committed and not
taken: what it gets, how many bytes it wants then, what is left, and its result. -/
inductive Reads (target : Nat) :
    Nat → List UInt8 → List UInt8 → Nat → List UInt8 → Option Int → Prop
  | full (u : List UInt8) : Reads target 0 u [] 0 u (some target)
  | killed (left : Nat) : Reads target (left + 1) [] [] (left + 1) [] (some (-1))
  | sleep (left : Nat) : Reads target (left + 1) [] [] (left + 1) [] none
  /-- A `^D` at the begin of a read is taken, and the read returns 0. -/
  | eofFirst (left : Nat) (u : List UInt8) : left + 1 = target →
      Reads target (left + 1) (ctrl 'D' :: u) [] (left + 1) u (some 0)
  /-- A later `^D` ends the read and stays. -/
  | eofLater (left : Nat) (u : List UInt8) : left + 1 < target →
      Reads target (left + 1) (ctrl 'D' :: u) [] (left + 1) (ctrl 'D' :: u)
        (some (target - (left + 1) : Int))
  | newline (left : Nat) (u : List UInt8) :
      Reads target (left + 1) (NL :: u) [NL] left u (some (target - left : Int))
  | byte (left : Nat) (u : List UInt8) {b : UInt8} {out rest : List UInt8} {left' : Nat}
      {result : Option Int} : b ≠ ctrl 'D' → b ≠ NL → Reads target left u out left' rest result →
      Reads target (left + 1) (b :: u) (b :: out) left' rest result

/-! ### All runs -/

/-- The console, the reads by their numbers, the editor, how many committed bytes the readers
have passed, and the bytes they got. -/
structure ConsRun where
  cons : Cons
  reads : Nat → Option ConsRead
  editor : Editor
  taken : Nat
  delivered : List UInt8

/-- A stretch of a `consoleread` call. -/
def ConsRun.read (s : ConsRun) (p : Nat) (rd : ConsRead) (killed : Nat → Bool) : ConsRun :=
  let got := consolereadLoop rd.target rd.copyout killed rd.left s.cons
  { s with
    cons := got.cons
    reads := Function.update s.reads p (some { rd with left := got.left, result := got.result })
    taken := s.taken + (got.cons.r - s.cons.r).toNat
    delivered := s.delivered ++ got.out }

/-- What can happen: a character arrives, a read starts, a read that sleeps goes on. -/
inductive ConsStep
  | type (ch : UInt8)
  | read (p : Nat) (n : Int) (copyout killed : Nat → Bool)
  | readOn (p : Nat) (killed : Nat → Bool)

/-- The runs of the console. -/
def consSteps : Machine ConsRun ConsStep Empty := fun s a =>
  match a with
  | .type ch =>
      some (.ok { s with cons := consoleintr ch s.cons, editor := s.editor.type s.taken ch })
  | .read p n copyout killed =>
      match s.reads p with
      | none => some (.ok (s.read p ⟨n.toNat, copyout, n.toNat, none⟩ killed))
      | some _ => none
  | .readOn p killed =>
      match s.reads p with
      | some ⟨target, copyout, left, none⟩ =>
          some (.ok (s.read p ⟨target, copyout, left, none⟩ killed))
      | _ => none

end Xv6.Kernel
