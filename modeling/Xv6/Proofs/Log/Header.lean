import Xv6.Kernel.Log

/-!
# `Xv6.Proofs.Log.Header`: the log header round trip

`write_head` stores the in-memory header into the block `logstart`, and `read_head` reads
it back. `headBlocks_putHead` is the round trip: entries below `2 ^ 32`, at most `LOGBLOCKS`
of them, come back in order, whatever the block held before. The stale entries after the
first `n` stay on disk and are never read.
-/

set_option autoImplicit false

namespace Xv6.Proofs.Log

open Xv6.Lib
open Xv6.Kernel
open Xv6.Kernel.Log

/-! ### The header round trip -/

/-- `putBlocks` from index `i` on leaves every word before entry `i` unchanged. -/
theorem getWord_putBlocks_before (bs : List Nat) (buf : Block) (i off : Nat)
    (hoff : off + 4 ≤ 4 * (i + 1)) :
    (putBlocks buf i bs).getWord 4 off = buf.getWord 4 off := by
  induction bs generalizing buf i with
  | nil => rfl
  | cons b bs ih =>
    rw [putBlocks, ih _ _ (by omega)]
    exact Bytes.getWord_setWord_disjoint (Or.inl hoff)

/-- Entry `k` of the stored list reads back at index `i + k`. -/
theorem getWord_putBlocks (bs : List Nat) (buf : Block) (i k : Nat) (hk : k < bs.length)
    (hfit : i + bs.length ≤ LOGBLOCKS) (hbs : ∀ b ∈ bs, b < 2 ^ 32) :
    (putBlocks buf i bs).getWord 4 (4 * (i + k + 1)) = bs.getD k 0 := by
  induction bs generalizing buf i k with
  | nil => exact absurd hk (by simp)
  | cons b bs ih =>
    rw [putBlocks]
    cases k with
    | zero =>
      -- The later stores lie after this entry.
      rw [getWord_putBlocks_before _ _ _ _ (by omega)]
      have hroom : 4 * (i + 0 + 1) + 4 ≤ BSIZE := by
        simp only [LOGBLOCKS, MAXOPBLOCKS, List.length_cons] at hfit
        simp only [BSIZE]
        omega
      rw [Bytes.getWord_setWord_of_lt hroom (by simpa using hbs b List.mem_cons_self)]
      rfl
    | succ k =>
      have hlen : k < bs.length := by simpa using hk
      have hrec := ih (buf.setWord 4 (4 * (i + 1)) b) (i + 1) k hlen
        (by simp only [List.length_cons] at hfit; omega)
        (fun x hx => hbs x (List.mem_cons_of_mem _ hx))
      rw [show i + (k + 1) + 1 = i + 1 + k + 1 from by omega, hrec]
      rfl

/-- `hb->n` reads back. -/
theorem headN_putHead (buf : Block) (lh : List Nat) (hlen : lh.length ≤ LOGBLOCKS) :
    headN (putHead buf lh) = lh.length := by
  have hsmall : lh.length < 2 ^ 31 := by
    simp only [LOGBLOCKS, MAXOPBLOCKS] at hlen
    omega
  have hword : (putHead buf lh).getWord 4 0 = lh.length := by
    rw [putHead, getWord_putBlocks_before _ _ _ _ (by omega)]
    exact Bytes.getWord_setWord_of_lt (by simp [BSIZE]) (by omega)
  rw [headN, hword, int32, if_pos hsmall]

/-- The header round trip. -/
theorem headBlocks_putHead (buf : Block) (lh : List Nat) (hlen : lh.length ≤ LOGBLOCKS)
    (hlh : ∀ b ∈ lh, b < 2 ^ 32) : headBlocks (putHead buf lh) = lh := by
  rw [headBlocks, headN_putHead buf lh hlen, Int.toNat_natCast]
  apply List.ext_getElem (by simp)
  intro k hk hk'
  have hentry := getWord_putBlocks lh (buf.setWord 4 0 lh.length) 0 k hk' (by omega) hlh
  rw [Nat.zero_add] at hentry
  rw [List.getElem_map, List.getElem_range, putHead, hentry]
  simp [List.getD, hk']

/-- A header without entries. -/
theorem headBlocks_eq_nil {buf : Block} (h : headN buf = 0) : headBlocks buf = [] := by
  simp [headBlocks, h]

end Xv6.Proofs.Log
