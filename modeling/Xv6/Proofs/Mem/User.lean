import Xv6.Kernel.Exec
import Xv6.Proofs.Mem.Table

/-!
# `Xv6.Proofs.Mem.User`: user memory, as the kernel reads it

`userPage` is the page that `walkaddr` finds for a user address, and 0 when there is none.
`userByte` is the byte at a user address, and `userBytes` a run of bytes: it exists exactly if
every byte of it does.

`copyin` splits the range at the page boundaries. A piece lies in one page, so it is mapped as
a whole or not at all (`userBytes_page`), and the pieces together are the range
(`userBytes_add`). So `copyin` succeeds exactly if the range can be read, and then it yields
its bytes (`copyin_run`).
-/

set_option autoImplicit false

namespace Xv6.Proofs.Mem

open Lib Lib.Action Kernel

variable {m : Memory} {pt : Nat} {k : Kmem}

/-! ### User addresses -/

/-- The page of a user address, or 0. -/
def userPage (m : Memory) (pt va : Nat) : Nat :=
  if va ≥ MAXVA then 0
  else if pte m pt va &&& PTE_V = 0 then 0
  else if pte m pt va &&& PTE_U = 0 then 0
  else PTE2PA (pte m pt va)

/-- The byte at a user address. -/
def userByte (m : Memory) (pt va : Nat) : Option UInt8 :=
  if userPage m pt (PGROUNDDOWN va) = 0 then none
  else some (m (userPage m pt (PGROUNDDOWN va) + va % PGSIZE))

/-- The bytes from a user address on. -/
def userBytes (m : Memory) (pt : Nat) : Nat → Nat → Option (List UInt8)
  | _, 0 => some []
  | va, n + 1 => (userByte m pt va).bind fun b => (userBytes m pt (va + 1) n).map (b :: ·)

/-- The word at a user address below `sz`. -/
def userWord (m : Memory) (pt sz a : Nat) : Option Nat :=
  if a ≥ sz ∨ (a + 8) % 2 ^ 64 > sz then none
  else (userBytes m pt a 8).map fun bytes => wordAt 8 bytes 0

/-- `walkaddr` reads. -/
theorem wp_walkaddr {va : Nat} {post : Nat → Kmem → Prop} {err : Panic → Prop} :
    wp (walkaddr pt va) post err k ↔ post (userPage k.mem pt va) k := by
  unfold walkaddr userPage
  by_cases hva : va ≥ MAXVA
  · rw [if_pos hva, if_pos hva, wp_pure]
  · rw [if_neg hva, if_neg hva, wp_bind, wp_walk_find (by omega)]
    cases hq : table k.mem pt va 0 with
    | none =>
      rw [pte_of_none hq]
      rfl
    | some q =>
      show wp (readPte (q + 8 * PX 0 va) >>= _) _ _ _ ↔ _
      rw [wp_bind, readPte, wp_read, ← pte_of_table hq]
      by_cases hv : pte k.mem pt va &&& PTE_V = 0
      · rw [if_pos hv, if_pos hv, wp_pure]
      · rw [if_neg hv, if_neg hv]
        by_cases hu : pte k.mem pt va &&& PTE_U = 0
        · rw [if_pos hu, if_pos hu, wp_pure]
        · rw [if_neg hu, if_neg hu, wp_pure]

theorem down_add (va : Nat) : PGROUNDDOWN va + va % PGSIZE = va :=
  Nat.div_add_mod' va PGSIZE

/-- The addresses of a piece lie in one page. -/
theorem down_of_piece {va i : Nat} (h : va % PGSIZE + i < PGSIZE) :
    PGROUNDDOWN (va + i) = PGROUNDDOWN va ∧ (va + i) % PGSIZE = va % PGSIZE + i := by
  have hpg : PGSIZE = 4096 := rfl
  unfold PGROUNDDOWN
  rw [hpg] at h ⊢
  omega

/-! ### Runs of bytes -/

theorem userBytes_add (va n n' : Nat) : userBytes m pt va (n + n') =
    (userBytes m pt va n).bind fun a => (userBytes m pt (va + n) n').map (a ++ ·) := by
  induction n generalizing va with
  | zero =>
    rw [Nat.zero_add]
    show _ = (userBytes m pt va n').map id
    rw [Option.map_id]
    rfl
  | succ n ih =>
    rw [Nat.succ_add, userBytes, ih, userBytes, Nat.add_right_comm va 1 n]
    cases userByte m pt va with
    | none => rfl
    | some b =>
      show Option.map _ (Option.bind _ _) = Option.bind (Option.map _ _) _
      cases userBytes m pt (va + 1) n with
      | none => rfl
      | some a =>
        show Option.map _ (Option.map _ _) = Option.map _ _
        rw [Option.map_map]
        rfl

/-- A piece of a mapped page. -/
theorem userBytes_page {va n : Nat} (hpage : userPage m pt (PGROUNDDOWN va) ≠ 0)
    (hn : va % PGSIZE + n ≤ PGSIZE) : userBytes m pt va n =
      some ((List.range n).map fun i =>
        m (userPage m pt (PGROUNDDOWN va) + (va - PGROUNDDOWN va) + i)) := by
  have hoff : va - PGROUNDDOWN va = va % PGSIZE := by
    have := down_add va
    omega
  rw [hoff]
  induction n with
  | zero => rfl
  | succ n ih =>
    obtain ⟨hdown, hmod⟩ := down_of_piece (by omega : va % PGSIZE + n < PGSIZE)
    have hbyte : userBytes m pt (va + n) 1 =
        some [m (userPage m pt (PGROUNDDOWN va) + va % PGSIZE + n)] := by
      show (userByte m pt (va + n)).bind _ = _
      unfold userByte
      rw [hdown, if_neg hpage, hmod, ← Nat.add_assoc]
      rfl
    rw [userBytes_add, ih (by omega), List.range_succ, List.map_append, hbyte]
    rfl

/-- A piece of a page that is not mapped. -/
theorem userBytes_unmapped {va n : Nat} (hpage : userPage m pt (PGROUNDDOWN va) = 0)
    (hn : 0 < n) : userBytes m pt va n = none := by
  cases n with
  | zero => omega
  | succ n =>
    rw [userBytes, userByte, if_pos hpage]
    rfl

/-! ### `copyin` -/

/-- The result of `copyin`, when `read` is what the range holds. -/
def Copied (read : Option (List UInt8)) (r : Int × List UInt8) : Prop :=
  match read with
  | some bytes => r = (0, bytes)
  | none => r.1 = -1

theorem copyinLoop_run (fuel va len : Nat) (hfuel : len ≤ fuel) :
    wp (copyinLoop pt fuel va len) (fun r k' => k' = k ∧ Copied (userBytes k.mem pt va len) r)
      (fun _ => False) k := by
  have hpg : PGSIZE = 4096 := rfl
  induction fuel generalizing va len with
  | zero =>
    obtain rfl : len = 0 := by omega
    exact ⟨rfl, rfl⟩
  | succ fuel ih =>
    rw [copyinLoop]
    by_cases hlen : len = 0
    · subst hlen
      exact ⟨rfl, rfl⟩
    · rw [if_neg hlen]
      show wp (walkaddr pt (PGROUNDDOWN va) >>= _) _ _ _
      rw [wp_bind, wp_walkaddr]
      by_cases hpage : userPage k.mem pt (PGROUNDDOWN va) = 0
      · rw [if_pos hpage, wp_pure, userBytes_unmapped hpage (by omega)]
        exact ⟨rfl, rfl⟩
      · have hoff := down_add va
        have hmod : va % PGSIZE < PGSIZE := Nat.mod_lt _ (by decide)
        rw [if_neg hpage]
        obtain ⟨n, hn⟩ : ∃ n, min (PGSIZE - (va - PGROUNDDOWN va)) len = n := ⟨_, rfl⟩
        show wp (readBytes _ (min (PGSIZE - (va - PGROUNDDOWN va)) len) >>= _) _ _ _
        rw [hn, wp_bind, readBytes, wp_read, wp_bind]
        refine wp_post (ih _ _ (by omega)) ?_
        rintro ⟨r, rest⟩ k' ⟨rfl, hr⟩
        refine ⟨rfl, ?_⟩
        -- The range is the piece in this page and the rest of the loop.
        have hrange : userBytes k'.mem pt va len = (userBytes k'.mem pt va n).bind fun a =>
            (userBytes k'.mem pt (va + n) (len - n)).map (a ++ ·) := by
          rw [← userBytes_add, Nat.add_sub_cancel' (by omega)]
        rw [hrange, userBytes_page hpage (by omega)]
        by_cases hlast : len - n = 0
        · rw [hlast] at hr ⊢
          obtain ⟨rfl, rfl⟩ := Prod.mk.inj hr
          rfl
        · have hnext : va + n = PGROUNDDOWN va + PGSIZE := by omega
          rw [hnext]
          cases hread : userBytes k'.mem pt (PGROUNDDOWN va + PGSIZE) (len - n) with
          | none =>
            rw [hread] at hr
            exact hr
          | some bytes =>
            rw [hread] at hr
            obtain ⟨rfl, rfl⟩ := Prod.mk.inj hr
            rfl

/-- `copyin` succeeds exactly if the range can be read, and yields its bytes. -/
theorem copyin_run (va len : Nat) :
    wp (copyin pt va len) (fun r k' => k' = k ∧ Copied (userBytes k.mem pt va len) r)
      (fun _ => False) k :=
  copyinLoop_run len va len (Nat.le_refl _)

/-- `fetchaddr` reads a word. -/
theorem wp_fetchaddr {sz a : Nat} {post : Option Nat → Kmem → Prop} {err : Panic → Prop}
    (h : post (userWord k.mem pt sz a) k) : wp (fetchaddr pt sz a) post err k := by
  unfold fetchaddr
  unfold userWord at h
  by_cases hrange : a ≥ sz ∨ (a + 8) % 2 ^ 64 > sz
  · rw [if_pos hrange] at h ⊢
    exact h
  · rw [if_neg hrange] at h ⊢
    rw [wp_bind]
    refine wp_mono (copyin_run a 8) ?_ fun _ => False.elim
    rintro ⟨r, bytes⟩ k' ⟨rfl, hr⟩
    show post (if r < 0 then none else some (wordAt 8 bytes 0)) k'
    cases hread : userBytes k'.mem pt a 8 with
    | none =>
      rw [hread] at hr h
      have hr : r = -1 := hr
      rw [if_pos (by omega)]
      exact h
    | some l =>
      rw [hread] at hr h
      obtain ⟨rfl, rfl⟩ := Prod.mk.inj hr
      exact h

/-! ### `copyinstr` -/

theorem copyinstrPage_length (bytes : List UInt8) :
    (copyinstrPage bytes).2.length ≤ bytes.length := by
  induction bytes with
  | nil => exact Nat.le_refl 0
  | cons b bytes ih =>
    unfold copyinstrPage
    split
    · exact Nat.succ_le_succ (Nat.zero_le _)
    · exact Nat.succ_le_succ ih

/-- `copyinstr` reads, and stores `max` bytes at most. -/
theorem copyinstrLoop_bound (fuel va max : Nat) :
    wp (copyinstrLoop pt fuel va max) (fun r k' => k' = k ∧ r.2.length ≤ max)
      (fun _ => False) k := by
  induction fuel generalizing va max with
  | zero => exact ⟨rfl, Nat.zero_le _⟩
  | succ fuel ih =>
    rw [copyinstrLoop]
    by_cases hmax : max = 0
    · rw [if_pos hmax]
      exact ⟨rfl, Nat.zero_le _⟩
    · rw [if_neg hmax]
      show wp (walkaddr pt (PGROUNDDOWN va) >>= _) _ _ _
      rw [wp_bind, wp_walkaddr]
      by_cases hpage : userPage k.mem pt (PGROUNDDOWN va) = 0
      · rw [if_pos hpage]
        exact ⟨rfl, Nat.zero_le _⟩
      · rw [if_neg hpage]
        show wp (readBytes _ _ >>= _) _ _ _
        rw [wp_bind, readBytes, wp_read]
        have hpiece := copyinstrPage_length ((List.range (min (PGSIZE - (va - PGROUNDDOWN va))
          max)).map fun i =>
            k.mem (userPage k.mem pt (PGROUNDDOWN va) + (va - PGROUNDDOWN va) + i))
        rw [List.length_map, List.length_range] at hpiece
        split
        rename_i got dst heq
        rw [heq] at hpiece
        have hpiece : dst.length ≤ _ := hpiece
        by_cases hgot : got = true
        · rw [if_pos hgot]
          exact ⟨rfl, by show dst.length ≤ max; omega⟩
        · rw [if_neg hgot, wp_bind]
          refine wp_post (ih _ _) ?_
          rintro ⟨r, rest⟩ k' ⟨rfl, hrest⟩
          have hrest : rest.length ≤ _ := hrest
          refine ⟨rfl, ?_⟩
          show (dst ++ rest).length ≤ max
          rw [List.length_append]
          omega

/-! ### Memory that changes elsewhere -/

/-- The pages that user code can access are outstanding. -/
def UserOwned (s : Pages) (pt : Nat) : Prop :=
  ∀ va, userPage s.kmem.mem pt va ≠ 0 → userPage s.kmem.mem pt va ∈ s.held

/-- User memory stays while the outstanding pages do. -/
theorem userByte_same {s : Pages} {m' : Memory} (hH : Held s pt) (hO : UserOwned s pt)
    (hsame : ∀ q ∈ s.held, SamePage s.kmem.mem m' q) (va : Nat) :
    userPage m' pt va = userPage s.kmem.mem pt va ∧
      userByte m' pt va = userByte s.kmem.mem pt va := by
  obtain ⟨-, -, hptes, -⟩ := table_same pt fun x hx => hsame x (hH.held x hx)
  have hpage : ∀ va, userPage m' pt va = userPage s.kmem.mem pt va := by
    intro va
    unfold userPage
    rw [hptes va]
  refine ⟨hpage va, ?_⟩
  unfold userByte
  rw [hpage]
  by_cases hzero : userPage s.kmem.mem pt (PGROUNDDOWN va) = 0
  · rw [if_pos hzero, if_pos hzero]
  · have hmod : va % PGSIZE < PGSIZE := Nat.mod_lt _ (by decide)
    rw [if_neg hzero, if_neg hzero,
      hsame _ (hO _ hzero) _ (Nat.le_add_right _ _) (by omega)]

theorem userBytes_congr {m' : Memory} {va n : Nat}
    (h : ∀ va, userByte m' pt va = userByte m pt va) :
    userBytes m' pt va n = userBytes m pt va n := by
  induction n generalizing va with
  | zero => rfl
  | succ n ih => rw [userBytes, userBytes, h va, ih]

theorem userWord_congr {m' : Memory} {sz a : Nat}
    (h : ∀ va, userByte m' pt va = userByte m pt va) :
    userWord m' pt sz a = userWord m pt sz a := by
  unfold userWord
  rw [userBytes_congr h]

end Xv6.Proofs.Mem
