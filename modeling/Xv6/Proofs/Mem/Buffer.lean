import Xv6.Proofs.Mem.Copyout

/-!
# `Xv6.Proofs.Mem.Buffer`: copies between user memory and a buffer of the kernel

The kernel's end of a copy is a buffer in memory. `copyout` reads it piece by piece; no piece
changes it, as long as it shares no byte with a user page, so the copy is that of the bytes that
the buffer had at the start (`wp_copyoutBufLoop`). `copyin` writes the buffer piece by piece, and
`Fetched` says what it has after the first `n` bytes. The buffer must be no user page and no page
table then.

Every iteration moves a byte or more, so `len` iterations are enough: with more of them allowed
the loops do the same (`copyoutBufLoop_fuel`, `copyinBufLoop_fuel`).
-/

set_option autoImplicit false

namespace Xv6.Proofs.Mem

open Lib Lib.Action Kernel

variable {m m' : Memory} {pt : Nat} {k : Kmem}

/-! ### Pieces -/

theorem sub_down (va : Nat) : va - PGROUNDDOWN va = va % PGSIZE := by
  have := down_add va
  omega

/-- A piece has a byte or more. -/
theorem piece_pos (va : Nat) {len : Nat} (h : len ≠ 0) :
    0 < min (PGSIZE - (va - PGROUNDDOWN va)) len := by
  have hmod : va % PGSIZE < PGSIZE := Nat.mod_lt _ (by decide)
  rw [sub_down]
  omega

/-- The address after a piece of a mapped page does not wrap. -/
theorem next_page {va : Nat} (h : UserMapped m pt va) :
    (PGROUNDDOWN va + PGSIZE) % 2 ^ 64 = PGROUNDDOWN va + PGSIZE := by
  have hpg : PGSIZE = 4096 := rfl
  have hmax : MAXVA = 274877906944 := rfl
  have := h.1
  have := down_add va
  exact Nat.mod_eq_of_lt (by omega)

/-! ### `copyout` -/

/-- More iterations than bytes are not needed: a loop whose every round leaves fewer bytes does
the same with any number of iterations that covers them. -/
theorem fuel_congr {β : Type} {loop : Nat → Nat → Nat → Nat → β} {fuel fuel' a b len : Nat}
    (hdone : ∀ fuel a b, loop fuel a b 0 = loop 0 a b 0)
    (hround : ∀ fuel fuel' a b len, len ≠ 0 →
      (∀ a' b' len', len' < len → loop fuel a' b' len' = loop fuel' a' b' len') →
      loop (fuel + 1) a b len = loop (fuel' + 1) a b len)
    (h : len ≤ fuel) (h' : len ≤ fuel') : loop fuel a b len = loop fuel' a b len := by
  induction len using Nat.strongRecOn generalizing fuel fuel' a b with
  | ind len ih =>
    by_cases hlen : len = 0
    · rw [hlen, hdone fuel, hdone fuel']
    · obtain ⟨n, rfl⟩ := Nat.exists_eq_add_of_le' (Nat.le_trans (Nat.pos_of_ne_zero hlen) h)
      obtain ⟨n', rfl⟩ := Nat.exists_eq_add_of_le' (Nat.le_trans (Nat.pos_of_ne_zero hlen) h')
      exact hround n n' a b len hlen fun _ _ len' hlt => ih len' hlt (by omega) (by omega)

theorem copyoutBufLoop_fuel {fuel fuel' va src len : Nat} (h : len ≤ fuel) (h' : len ≤ fuel') :
    copyoutBufLoop pt fuel va src len = copyoutBufLoop pt fuel' va src len := by
  refine fuel_congr (fun fuel _ _ => ?_) (fun _ _ va src len hlen ih => ?_) h h'
  · cases fuel <;> rfl
  · have hpos := piece_pos va hlen
    rw [copyoutBufLoop, copyoutBufLoop, if_neg hlen, if_neg hlen]
    refine bind_congr fun pa0 => ?_
    by_cases hpa : pa0 = 0
    · rw [if_pos hpa, if_pos hpa]
    · rw [if_neg hpa, if_neg hpa]
      exact bind_congr fun _ => ih _ _ _ (by omega)

/-- The buffer has no byte of a user page. -/
def BufferApart (m : Memory) (pt a n : Nat) : Prop :=
  ∀ va, UserMapped m pt va → ¬ (a ≤ userAddr m pt va ∧ userAddr m pt va < a + n)

theorem BufferApart.congr {a n : Nat} (h : BufferApart m pt a n)
    (hptes : ∀ va, pte m' pt va = pte m pt va) : BufferApart m' pt a n := by
  intro va hva
  unfold userAddr
  rw [hptes va]
  exact h va ((userMapped_congr hptes).mp hva)

/-- A copy from a buffer is a copy of the bytes that it has. -/
theorem wp_copyoutBufLoop {fuel va src len : Nat} {post : Int → Kmem → Prop} {err : Panic → Prop}
    (hP : UserPages k.mem pt) (hsrc : BufferApart k.mem pt src len)
    (h : wp (copyoutLoop pt fuel va (k.mem.bytes src len)) post err k) :
    wp (copyoutBufLoop pt fuel va src len) post err k := by
  induction fuel generalizing va src len k with
  | zero => exact h
  | succ fuel ih =>
    rw [copyoutBufLoop]
    rw [copyoutLoop] at h
    by_cases hlen : len = 0
    · subst hlen
      exact h
    · have hnil : k.mem.bytes src len ≠ [] := by
        intro hnil
        have := congrArg List.length hnil
        rw [Memory.length_bytes, List.length_nil] at this
        exact hlen this
      rw [if_neg hlen]
      rw [if_neg hnil] at h
      show wp (walkaddr pt (PGROUNDDOWN va) >>= _) _ _ _
      have h : wp (walkaddr pt (PGROUNDDOWN va) >>= _) _ _ _ := h
      rw [wp_bind, wp_walkaddr] at h ⊢
      by_cases hva : UserMapped k.mem pt va
      · have hpage := (hP.page_iff va).mpr hva
        have hmod : va % PGSIZE < PGSIZE := Nat.mod_lt _ (by decide)
        obtain ⟨n, hn⟩ : ∃ n, min (PGSIZE - va % PGSIZE) len = n := ⟨_, rfl⟩
        rw [if_neg hpage, userPage_mapped hva, sub_down, Memory.length_bytes, hn, wp_bind,
          wp_modify, Memory.bytes_take (by omega), Memory.bytes_drop] at h
        rw [if_neg hpage, userPage_mapped hva, sub_down, hn, wp_bind, memmove, wp_modify,
          Memory.copy_eq_write, next_page hva]
        have hpiece := wrote_piece hva (by omega : va % PGSIZE + n ≤ PGSIZE)
          (by rw [Memory.length_bytes]; omega : n ≤ (k.mem.bytes src len).length)
        rw [Memory.bytes_take (by omega)] at hpiece
        obtain ⟨hP', hptes⟩ := hP.of_frame hpiece.userFrame
        -- The piece leaves the rest of the buffer.
        have hrest : (k.mem.write (userAddr k.mem pt va) (k.mem.bytes src n)).bytes (src + n)
            (len - n) = k.mem.bytes (src + n) (len - n) := by
          refine Memory.bytes_congr fun i hi => hpiece.frame _ fun j hj heq => ?_
          exact hsrc _ (hpiece.mapped j hj) (by omega)
        refine ih hP' (BufferApart.congr (fun va hva hin => hsrc va hva (by omega)) hptes) ?_
        show wp (copyoutLoop pt fuel _ ((k.mem.write (userAddr k.mem pt va)
          (k.mem.bytes src n)).bytes (src + n) (len - n))) _ _ _
        rw [hrest]
        exact h
      · have hpage : userPage k.mem pt (PGROUNDDOWN va) = 0 := by
          by_contra hne
          exact hva ((hP.page_iff va).mp hne)
        rw [if_pos hpage] at h ⊢
        exact h

/-- `copyout` from a buffer. -/
theorem copyoutBufLoop_spec {fuel src len : Nat} (va : Nat) (hfuel : len ≤ fuel)
    (hP : UserPages k.mem pt) (hsrc : BufferApart k.mem pt src len) :
    wp (copyoutBufLoop pt fuel va src len) (fun r k' => k'.freelist = k.freelist ∧
      Delivered k.mem pt va (k.mem.bytes src len) r k'.mem) (fun _ => False) k :=
  wp_copyoutBufLoop hP hsrc
    (copyoutLoop_spec fuel va _ (by rw [Memory.length_bytes]; exact hfuel) hP)

/-! ### `copyin` -/

theorem copyinBufLoop_fuel {fuel fuel' va dst len : Nat} (h : len ≤ fuel) (h' : len ≤ fuel') :
    copyinBufLoop pt fuel dst va len = copyinBufLoop pt fuel' dst va len := by
  refine fuel_congr (fun fuel _ _ => ?_) (fun _ _ dst va len hlen ih => ?_) h h'
  · cases fuel <;> rfl
  · have hpos := piece_pos va hlen
    rw [copyinBufLoop, copyinBufLoop, if_neg hlen, if_neg hlen]
    refine bind_congr fun pa0 => ?_
    by_cases hpa : pa0 = 0
    · rw [if_pos hpa, if_pos hpa]
    · rw [if_neg hpa, if_neg hpa]
      exact bind_congr fun _ => ih _ _ _ (by omega)

/-- The buffer has no byte of a table either. -/
structure BufferFree (m : Memory) (pt a n : Nat) : Prop where
  user : BufferApart m pt a n
  tree : ∀ q ∈ tables m pt, ∀ b, q ≤ b → b < q + PGSIZE → ¬ (a ≤ b ∧ b < a + n)

/-- The first `n` bytes of user memory from `va` on are in the buffer, and nothing else
changed. -/
structure Fetched (m : Memory) (pt va dst n : Nat) (m' : Memory) : Prop where
  mapped : ∀ i < n, UserMapped m pt (va + i)
  bytes : ∀ i < n, m' (dst + i) = m (userAddr m pt (va + i))
  frame : ∀ a, ¬ (dst ≤ a ∧ a < dst + n) → m' a = m a

theorem Fetched.zero {va dst : Nat} : Fetched m pt va dst 0 m :=
  ⟨fun i hi => absurd hi (by omega), fun i hi => absurd hi (by omega), fun _ _ => rfl⟩

/-- A change in the buffer leaves the page table and user memory. -/
theorem BufferFree.same {dst len : Nat} (h : BufferFree m pt dst len)
    (hframe : ∀ a, ¬ (dst ≤ a ∧ a < dst + len) → m' a = m a) :
    tables m' pt = tables m pt ∧ (∀ va, pte m' pt va = pte m pt va) ∧
      ∀ va, UserMapped m pt va → m' (userAddr m pt va) = m (userAddr m pt va) := by
  obtain ⟨htables, -, hptes, -⟩ := table_same pt fun q hq a hlo hhi =>
    hframe a (h.tree q hq a hlo hhi)
  exact ⟨htables, hptes, fun va hva => hframe _ (h.user va hva)⟩

theorem BufferFree.rest {dst len n : Nat} (h : BufferFree m pt dst len)
    (htables : tables m' pt = tables m pt) (hptes : ∀ va, pte m' pt va = pte m pt va) :
    BufferFree m' pt (dst + n) (len - n) := by
  refine ⟨BufferApart.congr (fun va hva hin => h.user va hva (by omega)) hptes,
    fun q hq b hlo hhi hin => ?_⟩
  rw [htables] at hq
  exact h.tree q hq b hlo hhi (by omega)

/-- A piece, copied from its page. -/
theorem fetched_piece {va dst n : Nat} (hva : UserMapped m pt va)
    (hn : va % PGSIZE + n ≤ PGSIZE) (hbytes : ∀ i < n, m' (dst + i) = m (userAddr m pt va + i))
    (hframe : ∀ a, ¬ (dst ≤ a ∧ a < dst + n) → m' a = m a) : Fetched m pt va dst n m' := by
  have hpg : PGSIZE = 4096 := rfl
  refine ⟨fun i hi => userMapped_of_page ?_ hva, fun i hi => ?_, hframe⟩
  · rw [hpg] at hn ⊢
    omega
  · rw [userAddr_add (by omega)]
    exact hbytes i hi

/-- A piece, and the pieces after it. -/
theorem Fetched.append {va dst len n n' : Nat} {m₁ : Memory} (hdst : BufferFree m pt dst len)
    (hn : n ≤ len) (h : Fetched m pt va dst n m₁) (h' : Fetched m₁ pt (va + n) (dst + n) n' m') :
    Fetched m pt va dst (n + n') m' := by
  obtain ⟨-, hptes, huser⟩ := hdst.same fun a ha => h.frame a (by omega)
  have haddr : ∀ va, userAddr m₁ pt va = userAddr m pt va := by
    intro va
    unfold userAddr
    rw [hptes va]
  have hmapped : ∀ i, n ≤ i → i < n + n' → UserMapped m pt (va + i) := by
    intro i hlo hhi
    have := (userMapped_congr hptes).mp (h'.mapped (i - n) (by omega))
    rwa [Nat.add_assoc, Nat.add_sub_cancel' hlo] at this
  refine ⟨fun i hi => ?_, fun i hi => ?_, fun a ha => ?_⟩
  · by_cases hin : i < n
    · exact h.mapped i hin
    · exact hmapped i (by omega) hi
  · by_cases hin : i < n
    · rw [h'.frame _ (by omega)]
      exact h.bytes i hin
    · have := h'.bytes (i - n) (by omega)
      rw [Nat.add_assoc, Nat.add_assoc, Nat.add_sub_cancel' (by omega), haddr] at this
      rw [this]
      exact huser _ (hmapped i (by omega) hi)
  · rw [h'.frame a (by omega)]
    exact h.frame a (by omega)

/-- The loop of `copyin` into a buffer. -/
theorem copyinBufLoop_spec {fuel dst len : Nat} (va : Nat) (hfuel : len ≤ fuel)
    (hP : UserPages k.mem pt)
    (hdst : BufferFree k.mem pt dst len) :
    wp (copyinBufLoop pt fuel dst va len) (fun r k' => k'.freelist = k.freelist ∧
      ∃ n ≤ len, Fetched k.mem pt va dst n k'.mem ∧
        (r = 0 ∧ n = len ∨ r = -1 ∧ n < len ∧ ¬ UserMapped k.mem pt (va + n)))
      (fun _ => False) k := by
  induction fuel generalizing va dst len k with
  | zero => exact ⟨rfl, 0, Nat.zero_le _, Fetched.zero, .inl ⟨rfl, by omega⟩⟩
  | succ fuel ih =>
    rw [copyinBufLoop]
    by_cases hlen : len = 0
    · rw [if_pos hlen]
      exact ⟨rfl, 0, Nat.zero_le _, Fetched.zero, .inl ⟨rfl, by omega⟩⟩
    · rw [if_neg hlen]
      show wp (walkaddr pt (PGROUNDDOWN va) >>= _) _ _ _
      rw [wp_bind, wp_walkaddr]
      by_cases hva : UserMapped k.mem pt va
      · have hpage := (hP.page_iff va).mpr hva
        have hmod : va % PGSIZE < PGSIZE := Nat.mod_lt _ (by decide)
        obtain ⟨n, hn⟩ : ∃ n, min (PGSIZE - va % PGSIZE) len = n := ⟨_, rfl⟩
        rw [if_neg hpage, userPage_mapped hva, sub_down, hn, wp_bind, memmove, wp_modify,
          next_page hva]
        obtain ⟨m₁, hm₁⟩ : ∃ m₁, m₁ = k.mem.copy dst (userAddr k.mem pt va) n := ⟨_, rfl⟩
        have hpiece : Fetched k.mem pt va dst n m₁ := by
          refine fetched_piece hva (by omega) (fun i hi => ?_) fun a ha => ?_
          · rw [hm₁]
            unfold Memory.copy
            rw [if_pos (by omega), Nat.add_sub_cancel_left]
          · rw [hm₁]
            exact if_neg ha
        obtain ⟨htables, hptes, -⟩ := hdst.same fun a ha => hpiece.frame a (by omega)
        show wp (copyinBufLoop pt fuel (dst + n) (PGROUNDDOWN va + PGSIZE) (len - n)) _ _
          { k with mem := k.mem.copy dst (userAddr k.mem pt va) n }
        rw [← hm₁]
        refine wp_post (ih (k := { k with mem := m₁ }) _ (by omega) (hP.congr htables hptes)
          (hdst.rest htables hptes)) ?_
        rintro r k' ⟨hfree, n', hn', hgot, hr⟩
        refine ⟨hfree, n + n', by omega, ?_⟩
        by_cases hlast : n = len
        · obtain rfl : n' = 0 := by omega
          have hsame : k'.mem = m₁ := funext fun a => hgot.frame a (by omega)
          rw [hsame]
          exact ⟨hpiece, .inl ⟨by omega, by omega⟩⟩
        · have hnext : PGROUNDDOWN va + PGSIZE = va + n := by
            have := down_add va
            omega
          rw [hnext] at hgot hr
          refine ⟨hpiece.append hdst (by omega) hgot, ?_⟩
          rcases hr with ⟨rfl, hall⟩ | ⟨rfl, hsome, hstop⟩
          · exact .inl ⟨rfl, by omega⟩
          · refine .inr ⟨rfl, by omega, fun hm => hstop ((userMapped_congr hptes).mpr ?_)⟩
            rw [Nat.add_assoc]
            exact hm
      · have hpage : userPage k.mem pt (PGROUNDDOWN va) = 0 := by
          by_contra hne
          exact hva ((hP.page_iff va).mp hne)
        rw [if_pos hpage]
        exact ⟨rfl, 0, Nat.zero_le _, Fetched.zero, .inr ⟨rfl, by omega, hva⟩⟩

/-! ### Copies that undo each other -/

/-- `copyout` moves exactly the requested bytes, or those before the first page that is not mapped
for user code; and `copyin` of the range yields them again. -/
theorem copyout_copyin_exact (va : Nat) {src len : Nat} (hP : UserPages k.mem pt)
    (hsrc : BufferApart k.mem pt src len) :
    ∃ r k', (∀ fuel ≥ len, copyoutBufLoop pt fuel va src len k = .ok (r, k')) ∧
      copyoutBuf pt va src len k = .ok (r, k') ∧ (r = 0 ∨ r = -1) ∧
      (r = 0 ↔ ∀ i < len, UserMapped k.mem pt (va + i)) ∧
      (r = 0 → (∀ i < len, userByte k'.mem pt (va + i) = some (k.mem (src + i))) ∧
        ∀ a, (∀ i < len, a ≠ userAddr k.mem pt (va + i)) → k'.mem a = k.mem a) ∧
      (r = -1 → ∀ a, k'.mem a ≠ k.mem a →
        ∃ i < len, (∀ j ≤ i, UserMapped k.mem pt (va + j)) ∧ a = userAddr k.mem pt (va + i)) ∧
      (r = 0 → ∀ dst, BufferFree k'.mem pt dst len →
        ∃ k'', (∀ fuel ≥ len, copyinBufLoop pt fuel dst va len k' = .ok (0, k'')) ∧
          copyinBuf pt dst va len k' = .ok (0, k'') ∧
          ∀ i < len, k''.mem (dst + i) = k.mem (src + i)) := by
  obtain ⟨r, k', hrun, -, hD⟩ :=
    wp_returns (copyoutBufLoop_spec va (Nat.le_refl len) hP hsrc) fun _ => id
  obtain ⟨hiff, hcases⟩ := hD.zero_iff
  rw [Memory.length_bytes] at hiff
  obtain ⟨n, hn, hwrote, hr⟩ := hD
  rw [Memory.length_bytes] at hn hr
  obtain ⟨hP', hptes⟩ := hP.of_frame hwrote.userFrame
  have haddr : ∀ va, userAddr k'.mem pt va = userAddr k.mem pt va := by
    intro va
    unfold userAddr
    rw [hptes va]
  -- On success every byte of the range is in place.
  have hbytes : r = 0 → n = len ∧ ∀ i < len, UserMapped k'.mem pt (va + i) ∧
      k'.mem (userAddr k'.mem pt (va + i)) = k.mem (src + i) := by
    intro hzero
    obtain rfl : n = len := by
      rcases hr with ⟨-, hall⟩ | ⟨hbad, -⟩
      · exact hall
      · rw [hzero] at hbad
        exact absurd hbad (by decide)
    refine ⟨rfl, fun i hi => ⟨(userMapped_congr hptes).mpr (hwrote.mapped i hi), ?_⟩⟩
    have := hwrote.bytes i hi
    rw [Memory.bytes_getElem? hi] at this
    rw [haddr]
    exact Option.some.inj this
  refine ⟨r, k', fun fuel hfuel => ?_, hrun, hcases, hiff, fun hzero => ⟨fun i hi => ?_, ?_⟩,
    fun _ a ha => ?_, fun hzero dst hdst => ?_⟩
  · rw [copyoutBufLoop_fuel hfuel (Nat.le_refl len)]
    exact hrun
  · obtain ⟨hmapped, hbyte⟩ := (hbytes hzero).2 i hi
    rw [hP'.byte hmapped, hbyte]
  · rw [← (hbytes hzero).1]
    exact hwrote.frame
  · obtain ⟨i, hi, rfl⟩ : ∃ i < n, a = userAddr k.mem pt (va + i) := by
      by_contra hnone
      exact ha (hwrote.frame a fun i hi heq => hnone ⟨i, hi, heq⟩)
    exact ⟨i, by omega, fun j hj => hwrote.mapped j (by omega), rfl⟩
  · obtain ⟨-, hall⟩ := hbytes hzero
    obtain ⟨r', k'', hrun', -, n', hn', hgot, hr'⟩ :=
      wp_returns (copyinBufLoop_spec va (Nat.le_refl len) hP' hdst) fun _ => id
    rcases hr' with ⟨rfl, rfl⟩ | ⟨-, hlt, hstop⟩
    · refine ⟨k'', fun fuel hfuel => ?_, hrun', fun i hi => ?_⟩
      · rw [copyinBufLoop_fuel hfuel (Nat.le_refl n')]
        exact hrun'
      · rw [hgot.bytes i hi]
        exact (hall i hi).2
    · exact absurd (hall n' hlt).1 hstop

/-- One byte of the null page, to the first page after `kinit`, `uvmcreate` and `uvmalloc`. -/
theorem copyout_copyin_exact_boot : ∃ k pt k' k'' k₃,
    kinit KERNBASE ⟨fun _ => 0, 0⟩ = .ok ((), k) ∧ uvmcreate k = .ok (pt, k') ∧
    uvmalloc KERNBASE pt 0 PGSIZE PTE_W k' = .ok (PGSIZE, k'') ∧
    copyoutBuf pt 0 0 1 k'' = .ok (0, k₃) ∧ userByte k₃.mem pt 0 = some (k''.mem 0) := by
  obtain ⟨k, pt, k', k'', hinit, hcreate, hgrow, hP, hmapped, -⟩ :=
    boot_userPages (by decide : PTE_W < 1024)
  have hsrc : BufferApart k''.mem pt 0 1 := by
    intro va hva hin
    have hpage := hP.nonzero va hva
    have hlt := hin.2
    unfold userAddr at hlt
    omega
  obtain ⟨r, k₃, -, hrun, -, hiff, hzero, -, -⟩ := copyout_copyin_exact 0 hP hsrc
  obtain rfl : r = 0 := hiff.mpr fun i hi => by
    obtain rfl : i = 0 := by omega
    exact hmapped
  exact ⟨k, pt, k', k'', k₃, hinit, hcreate, hgrow, hrun, (hzero rfl).1 0 (by omega)⟩

end Xv6.Proofs.Mem
