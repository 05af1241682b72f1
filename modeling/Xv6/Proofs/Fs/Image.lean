import Xv6.Kernel.Mkfs
import Xv6.Proofs.Fs.Layout

/-!
# `Xv6.Proofs.Fs.Image`: the bitmap that `mkfs` writes

`balloc` of `mkfs` sets the first bits of the one bitmap block, one after the other.
`bitAt_usedBits` reads them back the way the kernel does.
-/

set_option autoImplicit false

namespace Xv6.Proofs.Fs

open Lib Lib.Action Kernel

theorem usedBits_succ (n : Nat) :
    Mkfs.usedBits (n + 1) = setBit (Mkfs.usedBits n) n := by
  unfold Mkfs.usedBits
  rw [List.range_succ, List.foldl_append]
  rfl

/-- The bitmap that `mkfs` writes marks the first `n` blocks. -/
theorem bitAt_usedBits (sb : Superblock) (d : Disk) {n : Nat} (hn : n ≤ BPB) {c : Nat}
    (hc : c < BPB) :
    bitAt sb (Function.update d sb.bmapstart (Mkfs.usedBits n)) c = decide (c < n) := by
  have hblock : ∀ b, b < BPB → BBLOCK sb b = sb.bmapstart := by
    intro b hb
    rw [BBLOCK, Nat.div_eq_of_lt hb, Nat.zero_add]
  induction n with
  | zero =>
    unfold bitAt
    rw [hblock c hc, Function.update_self]
    simp [Mkfs.usedBits, Bytes.get, Bytes.zero]
  | succ n ih =>
    have hset : bitAt sb _ c = _ := bitAt_setBit
      (d := Function.update d sb.bmapstart (Mkfs.usedBits n)) n c
    rw [hblock n (by omega), Function.update_self, Function.update_idem] at hset
    rw [usedBits_succ, hset, ih (by omega)]
    by_cases hcn : c = n
    · simp [hcn]
    · rw [if_neg hcn]
      congr 1
      exact propext ⟨fun h => by omega, fun h => by omega⟩

end Xv6.Proofs.Fs
