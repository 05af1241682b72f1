import Mathlib.Data.Nat.Digits.Lemmas

/-!
# `Xv6.Kernel.Printf`: the formatted output of `printf.c`

`printint` fills a buffer of 16 characters from its lowest digit on and sends it to the console
backwards. A store past the buffer ends the model's run with `overflow`.

`printf` walks the format. What it sends to the console is a list of pieces, one for each
character or conversion of the format, each with the arguments it took. The arguments are the
words that `va_arg` finds, and `str` gives the string at an address. The lock only keeps two
calls apart and is left out.
-/

set_option autoImplicit false

namespace Xv6.Kernel.Printf

/-- A store past the end of `buf`. -/
inductive Fault
  | overflow
deriving DecidableEq

def digits : List Char := "0123456789abcdef".toList

/-- The size of `buf` in `printint`. -/
def BUFSIZE : Nat := 16

/-- `buf[i++] = c`, where `room` characters of the buffer are free. -/
def put (room : Nat) (buf : List Char) (c : Char) : Except Fault (Nat × List Char) :=
  match room with
  | 0 => .error .overflow
  | room + 1 => .ok (room, buf ++ [c])

/-- The digits of `x` from the lowest on: `do … while ((x /= base) != 0)`. -/
def digitLoop (base : Nat) (room x : Nat) (buf : List Char) : Except Fault (Nat × List Char) :=
  match room with
  | 0 => .error .overflow
  | room + 1 =>
      let buf := buf ++ [digits.getD (x % base) '0']
      if x / base ≠ 0 then digitLoop base room (x / base) buf else .ok (room, buf)

/-- What `printint` sends to the console. -/
def printint (xx : Int64) (base : Nat) (sign : Bool) : Except Fault (List Char) := do
  let negative := sign && decide (xx < 0)
  let x := if negative then (-xx).toUInt64.toNat else xx.toUInt64.toNat
  let (room, buf) ← digitLoop base BUFSIZE x []
  let (_, buf) ← if negative then put room buf '-' else .ok (room, buf)
  pure buf.reverse

/-- The 16 digits of a pointer, from the highest on. -/
def ptrLoop : Nat → UInt64 → List Char
  | 0, _ => []
  | n + 1, x => digits.getD (x >>> 60).toNat '0' :: ptrLoop n (x <<< 4)

def printptr (x : UInt64) : List Char := '0' :: 'x' :: ptrLoop 16 x

/-- The integer conversions: `%d`, `%u` and `%x`. -/
inductive Conv
  | d
  | u
  | x
deriving DecidableEq

def Conv.base : Conv → Nat
  | .d => 10
  | .u => 10
  | .x => 16

def Conv.sign : Conv → Bool
  | .d => true
  | _ => false

/-- How many bits of its argument an integer conversion takes. -/
inductive Width
  | int
  | uint64
deriving DecidableEq

/-- `va_arg(ap, int)` or `va_arg(ap, uint64)`, as the `long long` that `printint` takes. -/
def Width.vaArg (width : Width) (arg : UInt64) : Int64 :=
  match width with
  | .int => arg.toUInt32.toInt32.toInt64
  | .uint64 => arg.toInt64

/-- What a piece of the output comes from. -/
inductive Source
  | char (c : Char)
  | integer (conv : Conv) (width : Width) (arg : UInt64)
  | pointer (arg : UInt64)
  | string (arg : UInt64)
  | percent
  | unknown (c : Char)
deriving DecidableEq

/-- A piece of the output. -/
def Source.out (str : UInt64 → List Char) : Source → Except Fault (List Char)
  | .char c => .ok [c]
  | .integer conv width arg => printint (width.vaArg arg) conv.base conv.sign
  | .pointer arg => .ok (printptr arg)
  | .string arg => .ok (if arg = 0 then "(null)".toList else str arg)
  | .percent => .ok ['%']
  | .unknown c => .ok ['%', c]

/-- The loop of `printf`, from a place of the format on: what each piece of the output comes
from. The next argument is `args n`. -/
def printfLoop (args : Nat → UInt64) (n : Nat) : List Char → List Source
  | [] => []
  | '%' :: [] => []
  | '%' :: 'd' :: fmt => .integer .d .int (args n) :: printfLoop args (n + 1) fmt
  | '%' :: 'l' :: 'd' :: fmt => .integer .d .uint64 (args n) :: printfLoop args (n + 1) fmt
  | '%' :: 'l' :: 'l' :: 'd' :: fmt => .integer .d .uint64 (args n) :: printfLoop args (n + 1) fmt
  | '%' :: 'u' :: fmt => .integer .u .int (args n) :: printfLoop args (n + 1) fmt
  | '%' :: 'l' :: 'u' :: fmt => .integer .u .uint64 (args n) :: printfLoop args (n + 1) fmt
  | '%' :: 'l' :: 'l' :: 'u' :: fmt => .integer .u .uint64 (args n) :: printfLoop args (n + 1) fmt
  | '%' :: 'x' :: fmt => .integer .x .int (args n) :: printfLoop args (n + 1) fmt
  | '%' :: 'l' :: 'x' :: fmt => .integer .x .uint64 (args n) :: printfLoop args (n + 1) fmt
  | '%' :: 'l' :: 'l' :: 'x' :: fmt => .integer .x .uint64 (args n) :: printfLoop args (n + 1) fmt
  | '%' :: 'p' :: fmt => .pointer (args n) :: printfLoop args (n + 1) fmt
  | '%' :: 's' :: fmt => .string (args n) :: printfLoop args (n + 1) fmt
  | '%' :: '%' :: fmt => .percent :: printfLoop args n fmt
  | '%' :: c :: fmt => .unknown c :: printfLoop args n fmt
  | c :: fmt => .char c :: printfLoop args n fmt

/-- What `printf` sends to the console, up to the first store past a buffer. -/
def printf (str : UInt64 → List Char) (args : Nat → UInt64) (fmt : List Char) :
    Except Fault (List Char) := do
  let pieces ← (printfLoop args 0 fmt).mapM (Source.out str)
  pure pieces.flatten

end Xv6.Kernel.Printf
