import Xv6.Kernel.Cache
import Xv6.Kernel.Log

/-!
# `Xv6.Kernel.LogSys`: processes over the log and the buffer cache

Any number of processes `P` call `begin_op`, `log_write`, `end_op` and the buffer functions.
The process that brings `log.outstanding` to zero runs `commit` while the others go on. One
step is a stretch under `log.lock`, or under one lock of the buffer cache.

A process uses its buffers through the agents `(p, k)`, one for each buffer it holds at the
same time. `commit` uses two agents of its own, `false` and `true`, for the two buffers of
its loops. Its code is written as lists of instructions (`writeLogBody`, `installBody`,
`writeHeadBody`), and a program counter says which instruction is next.

Two fields are ghosts: no step reads them. `store` is the flat block store of the
callers, the contents last passed to `log_write` or `bwrite` for each block; the copy home of
`install_trans` does not count as a write there. `logged` is the
list of distinct blocks that a process has passed to `log_write` since its `begin_op`.
-/

set_option autoImplicit false

namespace Xv6.Kernel

open Xv6.Lib

namespace LogSys

/-- The buffer users: slot `k` of process `p`, or one of the two slots of `commit`. -/
abbrev Agent (P K : Type) := (P × K) ⊕ Bool

/-- An instruction of `commit`, on its slots. -/
inductive Instr
  /-- `bread`, its three parts. -/
  | get (j : Bool) (b : Nat)
  | lock (j : Bool)
  | fill (j : Bool)
  /-- `memmove(dst->data, src->data, BSIZE)`. -/
  | move (dst src : Bool)
  /-- Store `log.lh` into the header buffer. -/
  | putHead (j : Bool)
  /-- `bwrite` of a block of the log. -/
  | write (j : Bool)
  /-- `bwrite(dbuf)` of `install_trans`. It repeats an earlier caller's contents, so it is no
  new write for `store`. -/
  | writeHome (j : Bool)
  | unpin (j : Bool)
  /-- `brelse`, its two parts. -/
  | unlock (j : Bool)
  | unref (j : Bool)
deriving DecidableEq, Repr

/-- The loop body of `write_log`: slot `false` is `to`, slot `true` is `from`. -/
def writeLogBody (sb : Superblock) (lh : List Nat) (tail : Nat) : List Instr :=
  [.get false (sb.logstart + tail + 1), .lock false, .fill false,
   .get true (lh.getD tail 0), .lock true, .fill true,
   .move false true, .write false,
   .unlock true, .unref true, .unlock false, .unref false]

/-- The loop body of `install_trans(FALSE)`: slot `false` is `lbuf`, slot `true` is `dbuf`. -/
def installBody (sb : Superblock) (lh : List Nat) (tail : Nat) : List Instr :=
  [.get false (sb.logstart + tail + 1), .lock false, .fill false,
   .get true (lh.getD tail 0), .lock true, .fill true,
   .move true false, .writeHome true, .unpin true,
   .unlock false, .unref false, .unlock true, .unref true]

/-- The body of `write_head`. -/
def writeHeadBody (sb : Superblock) : List Instr :=
  [.get false sb.logstart, .lock false, .fill false,
   .putHead false, .write false, .unlock false, .unref false]

/-- Where `commit` is. `k` counts the instructions already done in the current body. -/
inductive Pc
  | start
  | writeLog (tail k : Nat)
  | writeHead (k : Nat)
  | install (tail k : Nat)
  /-- The second `write_head`, after `log.lh.n = 0`. -/
  | clearHead (k : Nat)
  | done
deriving DecidableEq, Repr

/-- Where a process is. -/
inductive Phase
  /-- Outside of any operation. -/
  | outside
  /-- In `begin_op`, about to look at the log under `log.lock`. -/
  | beginning
  /-- In `begin_op`, asleep on `&log`. -/
  | sleeping
  /-- Between the return of `begin_op` and the decrement of `end_op`. -/
  | inOp
  /-- In `end_op`, between its two critical sections, with `do_commit` set. -/
  | committing (pc : Pc)
deriving DecidableEq, Repr

/-- The panics of this layer. -/
inductive Panic
  /-- "bget: no buffers" -/
  | noBuffers
  /-- "too big to transact" -/
  | tooBig
  /-- "log_write outside of trans" -/
  | outsideTrans
  /-- "log.comitting" -/
  | comitting
deriving DecidableEq, Repr

/-- The log, the cache, the processes, and the two ghosts. -/
structure State (P K : Type) where
  cache : Cache (Agent P K)
  outstanding : Int
  comitting : Bool
  lh : List Nat
  phase : P → Phase
  store : Disk
  logged : P → List Nat

inductive Action (P K : Type)
  /-- Call `begin_op`. -/
  | callBegin (p : P)
  /-- One turn of the loop of `begin_op`, under `log.lock`. -/
  | beginOp (p : P)
  /-- A sleeper that `kill` made runnable. -/
  | wake (p : P)
  | logWrite (p : P) (k : K)
  /-- `end_op` up to the release of `log.lock`. -/
  | endOp (p : P)
  /-- The next instruction of `commit`. -/
  | commit (p : P)
  /-- `end_op` after `commit` returned. -/
  | finish (p : P)
  | bget (p : P) (k : K) (dev blockno : Nat)
  | acquiresleep (p : P) (k : K)
  | fill (p : P) (k : K)
  | modify (p : P) (k : K) (x : Block)
  | bwrite (p : P) (k : K)
  | releasesleep (p : P) (k : K)
  | unref (p : P) (k : K)

/-- The result of a step: not enabled, a panic, or the next state. -/
abbrev Result (σ : Type) := Option (Except Panic σ)

variable {P K : Type} [DecidableEq P] [DecidableEq K]

/-- The state after `binit` and a recovery, over the disk `d`. -/
def initial (d : Disk) : State P K where
  cache := Cache.binit d
  outstanding := 0
  comitting := false
  lh := []
  phase := fun _ => .outside
  store := d
  logged := fun _ => []

/-- Replace the cache. -/
def State.setCache (s : State P K) (c : Cache (Agent P K)) : State P K := { s with cache := c }

/-- Move process `p` to `ph`. -/
def State.setPhase (s : State P K) (p : P) (ph : Phase) : State P K :=
  { s with phase := Function.update s.phase p ph }

/-- `wakeup(&log)`. -/
def State.wakeup (s : State P K) : State P K :=
  { s with phase := fun q => if s.phase q = .sleeping then .beginning else s.phase q }

/-- The buffer of the agent `a`, when `bread` has returned it. -/
def State.holds (s : State P K) (a : Agent P K) : Option (Fin NBUF) :=
  match s.cache.uses a with
  | .held i _ => some i
  | _ => none

/-- The caller of `log_write` or `bwrite` makes its contents the latest ones. -/
def State.publish (s : State P K) (i : Fin NBUF) : State P K :=
  { s with store := Function.update s.store (s.cache.bufs i).blockno (s.cache.bufs i).data }

/-! ### The log -/

/-- One turn of the loop of `begin_op`. -/
def beginOp (s : State P K) (p : P) : State P K :=
  if s.comitting then s.setPhase p .sleeping
  else if (s.lh.length : Int) + (s.outstanding + 1) * MAXOPBLOCKS > LOGBLOCKS then
    s.setPhase p .sleeping
  else
    { s.setPhase p .inOp with
      outstanding := s.outstanding + 1, logged := Function.update s.logged p [] }

/-- `log_write` on the buffer `i` of the agent `(p, k)`. `log.size` is `sb->nblocks`. -/
def logWrite (sb : Superblock) (s : State P K) (p : P) (k : K) (i : Fin NBUF) :
    Result (State P K) :=
  let b := (s.cache.bufs i).blockno
  if s.lh.length ≥ LOGBLOCKS ∨ (s.lh.length : Int) ≥ (sb.nblocks : Int) - 1 then
    some (.error .tooBig)
  else if s.outstanding < 1 then
    some (.error .outsideTrans)
  else
    let s' := { s.publish i with
      lh := Log.absorb s.lh b
      logged := Function.update s.logged p (Log.absorb (s.logged p) b) }
    -- The buffer is clean from here on, and pinned unless the block was absorbed.
    let s'' := s'.setCache (s'.cache.setUse (.inl (p, k)) (.held i false))
    if b ∈ s.lh then some (.ok s'')
    else (s''.cache.bpin (.inl (p, k))).map fun c => .ok (s''.setCache c)

/-- `end_op` up to the release of `log.lock`. -/
def endOp (s : State P K) (p : P) : Except Panic (State P K) :=
  let s := { s with outstanding := s.outstanding - 1 }
  if s.comitting then .error .comitting
  else if s.outstanding = 0 then
    .ok { s.setPhase p (.committing .start) with comitting := true }
  else .ok (s.setPhase p .outside).wakeup

/-- `end_op` after `commit` returned. -/
def finish (s : State P K) (p : P) : State P K :=
  { (s.setPhase p .outside).wakeup with comitting := false }

/-! ### `commit` -/

/-- Perform one instruction of `commit` on the cache. -/
def execInstr (dev : Nat) (s : State P K) : Instr → Result (State P K)
  | .get j b =>
    if s.cache.uses (.inr j) = .idle then
      match s.cache.bget (.inr j) dev b with
      | some c => some (.ok (s.setCache c))
      | none => some (.error .noBuffers)
    else none
  | .lock j => (s.cache.acquiresleep (.inr j)).map fun c => .ok (s.setCache c)
  | .fill j => (s.cache.fill (.inr j)).map fun c => .ok (s.setCache c)
  | .move dst src =>
    (s.holds (.inr src)).bind fun i =>
      (s.cache.modify (.inr dst) (s.cache.bufs i).data).map fun c => .ok (s.setCache c)
  | .putHead j =>
    (s.holds (.inr j)).bind fun i =>
      (s.cache.modify (.inr j) (Log.putHead (s.cache.bufs i).data s.lh)).map fun c =>
        .ok (s.setCache c)
  | .write j =>
    (s.holds (.inr j)).bind fun i =>
      (s.cache.bwrite (.inr j)).map fun c => .ok ((s.publish i).setCache c)
  | .writeHome j => (s.cache.bwrite (.inr j)).map fun c => .ok (s.setCache c)
  | .unpin j => (s.cache.bunpin (.inr j)).map fun c => .ok (s.setCache c)
  | .unlock j => (s.cache.releasesleep (.inr j)).map fun c => .ok (s.setCache c)
  | .unref j => (s.cache.unref (.inr j)).map fun c => .ok (s.setCache c)

/-- The next instruction of a body, or the step from its end to `next`. -/
def runBody (dev : Nat) (s : State P K) (p : P) (body : List Instr) (k : Nat) (here : Nat → Pc)
    (next : Pc) : Result (State P K) :=
  match body[k]? with
  | some instr =>
    (execInstr dev s instr).map fun r => r.map fun s' => s'.setPhase p (.committing (here (k + 1)))
  | none => some (.ok (s.setPhase p (.committing next)))

/-- The next step of `commit`. -/
def commitStep (sb : Superblock) (dev : Nat) (s : State P K) (p : P) : Pc → Result (State P K)
  | .start =>
    some (.ok (s.setPhase p (.committing (if 0 < s.lh.length then .writeLog 0 0 else .done))))
  | .writeLog tail k =>
    if tail < s.lh.length then
      runBody dev s p (writeLogBody sb s.lh tail) k (.writeLog tail) (.writeLog (tail + 1) 0)
    else some (.ok (s.setPhase p (.committing (.writeHead 0))))
  | .writeHead k => runBody dev s p (writeHeadBody sb) k .writeHead (.install 0 0)
  | .install tail k =>
    if tail < s.lh.length then
      runBody dev s p (installBody sb s.lh tail) k (.install tail) (.install (tail + 1) 0)
    else some (.ok { s.setPhase p (.committing (.clearHead 0)) with lh := [] })
  | .clearHead k => runBody dev s p (writeHeadBody sb) k .clearHead .done
  | .done => none

/-! ### The machine -/

/-- A process that runs its own code, not `begin_op` or `end_op`. -/
def State.running (s : State P K) (p : P) : Prop := s.phase p = .outside ∨ s.phase p = .inOp

instance (s : State P K) (p : P) : Decidable (s.running p) :=
  inferInstanceAs (Decidable (_ ∨ _))

/-- A buffer function called by the agent `(p, k)`. -/
def client (s : State P K) (p : P) (r : Option (Cache (Agent P K))) : Result (State P K) :=
  if s.running p then r.map fun c => .ok (s.setCache c) else none

/-- The machine. -/
def step (sb : Superblock) (dev : Nat) : Machine (State P K) (Action P K) Panic := fun s act =>
  match act with
  | .callBegin p =>
    if s.phase p = .outside then some (.ok (s.setPhase p .beginning)) else none
  | .beginOp p => if s.phase p = .beginning then some (.ok (beginOp s p)) else none
  | .wake p => if s.phase p = .sleeping then some (.ok (s.setPhase p .beginning)) else none
  | .logWrite p k =>
    if s.phase p = .inOp then
      match s.holds (.inl (p, k)) with
      | some i => logWrite sb s p k i
      | none => none
    else none
  | .endOp p => if s.phase p = .inOp then some (endOp s p) else none
  | .commit p =>
    match s.phase p with
    | .committing pc => commitStep sb dev s p pc
    | _ => none
  | .finish p => if s.phase p = .committing .done then some (.ok (finish s p)) else none
  | .bget p k dv b =>
    if s.running p ∧ s.cache.uses (.inl (p, k)) = .idle then
      match s.cache.bget (.inl (p, k)) dv b with
      | some c => some (.ok (s.setCache c))
      | none => some (.error .noBuffers)
    else none
  | .acquiresleep p k => client s p (s.cache.acquiresleep (.inl (p, k)))
  | .fill p k => client s p (s.cache.fill (.inl (p, k)))
  | .modify p k x => client s p (s.cache.modify (.inl (p, k)) x)
  | .bwrite p k =>
    match s.holds (.inl (p, k)) with
    | some i => client (s.publish i) p (s.cache.bwrite (.inl (p, k)))
    | none => none
  | .releasesleep p k => client s p (s.cache.releasesleep (.inl (p, k)))
  | .unref p k => client s p (s.cache.unref (.inl (p, k)))

end LogSys

end Xv6.Kernel
