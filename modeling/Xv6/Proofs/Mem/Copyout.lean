import Xv6.Proofs.Mem.Map
import Xv6.Proofs.Mem.User

/-!
# `Xv6.Proofs.Mem.Copyout`: user memory, as the kernel writes it

`UserPages m pt` says that the pages that user code can access are distinct, not the null page,
and no tables of the page table. Then a user address has an address of its own in memory
(`userAddr_inj`), and a write to user memory leaves the page table alone, so that every piece of
a copy finds the pages where they were (`UserPages.of_frame`).

`copyout` splits the range at the page boundaries, as `copyin` does. A piece lies in one page, and
the pieces together are the range from its start up to the first page that is not mapped, or all
of it (`copyoutLoop_spec`). `walkaddr` asks for `PTE_V` and `PTE_U` only, so a page that user code
cannot write is written as any other.
-/

set_option autoImplicit false

namespace Xv6.Proofs.Mem

open Lib Lib.Action Kernel

variable {m m' : Memory} {pt : Nat} {k : Kmem}

/-! ### User pages -/

/-- The address is mapped for user code. -/
def UserMapped (m : Memory) (pt va : Nat) : Prop :=
  va < MAXVA ∧ pte m pt va &&& PTE_V ≠ 0 ∧ pte m pt va &&& PTE_U ≠ 0

instance (m : Memory) (pt va : Nat) : Decidable (UserMapped m pt va) :=
  inferInstanceAs (Decidable (_ ∧ _ ∧ _))

/-- Distinct user pages are mapped to distinct pages. These are not the null page, and no tables
of the page table. -/
structure UserPages (m : Memory) (pt : Nat) : Prop where
  root : pt % PGSIZE = 0
  inj : ∀ va va', UserMapped m pt va → UserMapped m pt va' →
    PTE2PA (pte m pt va) = PTE2PA (pte m pt va') → va / PGSIZE = va' / PGSIZE
  nonzero : ∀ va, UserMapped m pt va → PTE2PA (pte m pt va) ≠ 0
  apart : ∀ va, UserMapped m pt va → PTE2PA (pte m pt va) ∉ tables m pt

/-- The place in memory of a user address. -/
def userAddr (m : Memory) (pt va : Nat) : Nat := PTE2PA (pte m pt va) + va % PGSIZE

theorem page_aligned (e : Nat) : PTE2PA e % PGSIZE = 0 := by
  rw [PTE2PA, show PGSIZE = 4096 from rfl]
  omega

/-- The tables of a page table are pages. -/
theorem tables_aligned (hroot : pt % PGSIZE = 0) : ∀ q ∈ tables m pt, q % PGSIZE = 0 := by
  refine Radix.forall_tables (fun e c hc => ?_) hroot
  unfold pteChild at hc
  split at hc
  · rw [← Option.some.inj hc]
    exact page_aligned e
  · cases hc

/-- Two pages are the same or apart. -/
theorem aligned_apart {p q i j : Nat} (hp : p % PGSIZE = 0) (hq : q % PGSIZE = 0)
    (hi : i < PGSIZE) (hj : j < PGSIZE) (h : p + i = q + j) : p = q ∧ i = j := by
  have hpg : PGSIZE = 4096 := rfl
  rw [hpg] at hp hq hi hj
  omega

theorem div_down (va : Nat) : PGROUNDDOWN va / PGSIZE = va / PGSIZE :=
  Nat.mul_div_cancel _ (by decide)

variable {va : Nat}

/-- An address is mapped as its page is. -/
theorem userMapped_of_page {va' : Nat} (hdiv : va / PGSIZE = va' / PGSIZE)
    (h : UserMapped m pt va) : UserMapped m pt va' := by
  have hpg : PGSIZE = 4096 := rfl
  have hmax : MAXVA = 67108864 * 4096 := rfl
  obtain ⟨hlt, hv, hu⟩ := h
  rw [pte_of_page hdiv] at hv hu
  refine ⟨?_, hv, hu⟩
  rw [hpg] at hdiv
  omega

theorem userMapped_congr (h : ∀ va, pte m' pt va = pte m pt va) :
    UserMapped m' pt va ↔ UserMapped m pt va := by
  unfold UserMapped
  rw [h va]

/-- What `walkaddr` finds at the page of an address, when no user page is the null page. -/
theorem userPage_ne_zero_iff (hnull : ∀ va, UserMapped m pt va → PTE2PA (pte m pt va) ≠ 0)
    (va : Nat) : userPage m pt (PGROUNDDOWN va) ≠ 0 ↔ UserMapped m pt va := by
  have hpage : UserMapped m pt (PGROUNDDOWN va) ↔ UserMapped m pt va :=
    ⟨userMapped_of_page (div_down va), userMapped_of_page (div_down va).symm⟩
  rw [← hpage]
  unfold userPage
  constructor
  · intro hne
    by_cases hlt : PGROUNDDOWN va ≥ MAXVA
    · rw [if_pos hlt] at hne
      exact absurd rfl hne
    · rw [if_neg hlt] at hne
      by_cases hv : pte m pt (PGROUNDDOWN va) &&& PTE_V = 0
      · rw [if_pos hv] at hne
        exact absurd rfl hne
      · rw [if_neg hv] at hne
        by_cases hu : pte m pt (PGROUNDDOWN va) &&& PTE_U = 0
        · rw [if_pos hu] at hne
          exact absurd rfl hne
        · exact ⟨by omega, hv, hu⟩
  · intro hm
    rw [if_neg (by have := hm.1; omega), if_neg hm.2.1, if_neg hm.2.2]
    exact hnull _ hm

theorem UserPages.page_iff (h : UserPages m pt) (va : Nat) :
    userPage m pt (PGROUNDDOWN va) ≠ 0 ↔ UserMapped m pt va := userPage_ne_zero_iff h.nonzero va

theorem userPage_mapped (h : UserMapped m pt va) :
    userPage m pt (PGROUNDDOWN va) = PTE2PA (pte m pt va) := by
  have hm : UserMapped m pt (PGROUNDDOWN va) := userMapped_of_page (div_down va).symm h
  unfold userPage
  rw [if_neg (by have := hm.1; omega), if_neg hm.2.1, if_neg hm.2.2, pte_of_page (div_down va)]

/-- The byte at a mapped address. -/
theorem userByte_mapped (hnull : ∀ va, UserMapped m pt va → PTE2PA (pte m pt va) ≠ 0)
    (hva : UserMapped m pt va) : userByte m pt va = some (m (userAddr m pt va)) := by
  unfold userByte userAddr
  rw [if_neg ((userPage_ne_zero_iff hnull va).mpr hva), userPage_mapped hva]

theorem UserPages.byte (h : UserPages m pt) (hva : UserMapped m pt va) :
    userByte m pt va = some (m (userAddr m pt va)) := userByte_mapped h.nonzero hva

/-- Distinct user addresses have distinct places in memory. -/
theorem userAddr_inj (h : UserPages m pt) {va' : Nat} (hva : UserMapped m pt va)
    (hva' : UserMapped m pt va') (heq : userAddr m pt va = userAddr m pt va') : va = va' := by
  have hmod : ∀ x, x % PGSIZE < PGSIZE := fun x => Nat.mod_lt _ (by decide)
  obtain ⟨hpage, hoff⟩ := aligned_apart (page_aligned _) (page_aligned _) (hmod va) (hmod va') heq
  have hdiv := h.inj va va' hva hva' hpage
  have hpg : PGSIZE = 4096 := rfl
  rw [hpg] at hdiv hoff
  omega

/-- The addresses of a piece of a page are consecutive. -/
theorem userAddr_add {i : Nat} (h : va % PGSIZE + i < PGSIZE) :
    userAddr m pt (va + i) = userAddr m pt va + i := by
  have hpg : PGSIZE = 4096 := rfl
  have hdiv : (va + i) / PGSIZE = va / PGSIZE := by
    rw [hpg] at h ⊢
    omega
  unfold userAddr
  rw [pte_of_page hdiv, (down_of_piece h).2, Nat.add_assoc]

/-- The same entries in the same tables. -/
theorem UserPages.congr (h : UserPages m pt) (htables : tables m' pt = tables m pt)
    (hptes : ∀ va, pte m' pt va = pte m pt va) : UserPages m' pt := by
  refine ⟨h.root, fun va va' => ?_, fun va => ?_, fun va => ?_⟩
  · rw [userMapped_congr hptes, userMapped_congr hptes, hptes va, hptes va']
    exact h.inj va va'
  · rw [userMapped_congr hptes, hptes va]
    exact h.nonzero va
  · rw [userMapped_congr hptes, hptes va, htables]
    exact h.apart va

/-- Memory changes in user pages only. -/
def UserFrame (m : Memory) (pt : Nat) (m' : Memory) : Prop :=
  ∀ a, (∀ va, UserMapped m pt va → a ≠ userAddr m pt va) → m' a = m a

/-- A change in user pages leaves the page table. -/
theorem UserPages.tree_same (h : UserPages m pt) (hf : UserFrame m pt m') :
    ∀ q ∈ tables m pt, SamePage m m' q := by
  intro q hq a hlo hhi
  refine hf a fun va hva ha => h.apart va hva ?_
  have hmod : va % PGSIZE < PGSIZE := Nat.mod_lt _ (by decide)
  have hsum : q + (a - q) = PTE2PA (pte m pt va) + va % PGSIZE := by
    rw [Nat.add_sub_cancel' hlo]
    exact ha
  obtain ⟨heq, -⟩ := aligned_apart (tables_aligned h.root q hq) (page_aligned _) (by omega) hmod hsum
  rwa [← heq]

/-- The page table maps what it did. -/
theorem UserPages.of_frame (h : UserPages m pt) (hf : UserFrame m pt m') :
    UserPages m' pt ∧ ∀ va, pte m' pt va = pte m pt va := by
  obtain ⟨htables, -, hptes, -⟩ := table_same pt (h.tree_same hf)
  exact ⟨h.congr htables hptes, hptes⟩

/-- The user pages of an address space, when the pages above it are not for user code. -/
theorem UserSpace.userPages {kend sz : Nat} {s : Pages} {f l : List Nat} (hend : KERNBASE ≤ kend)
    (h : UserSpace kend s f pt sz l)
    (htop : ∀ va, TRAPFRAME ≤ va → ¬ UserMapped s.kmem.mem pt va) : UserPages s.kmem.mem pt := by
  have hpg : PGSIZE = 4096 := rfl
  have hsize := h.size
  have hpos : 0 < kend := Nat.lt_of_lt_of_le (by decide) hend
  -- A user address lies below the size, and is mapped to a page of the list.
  have hpage : ∀ va, UserMapped s.kmem.mem pt va →
      l[va / PGSIZE]? = some (PTE2PA (pte s.kmem.mem pt va)) := by
    intro va hva
    have hlt : va < l.length * PGSIZE := by
      by_contra hge
      by_cases htf : va < TRAPFRAME
      · exact hva.2.1 (h.beyond va (by omega) htf)
      · exact htop va (by omega) hva
    have hi : va / PGSIZE < l.length := by
      rw [hpg] at hlt ⊢
      omega
    have hleaf := h.leaves (va / PGSIZE) _ (List.getElem?_eq_getElem hi)
    have hdown : (0 + va / PGSIZE * PGSIZE) / PGSIZE = va / PGSIZE := by
      rw [Nat.zero_add]
      exact div_down va
    rw [pte_of_page hdown] at hleaf
    rw [List.getElem?_eq_getElem hi, hleaf.page]
  refine ⟨?_, fun va va' hva hva' heq => ?_, fun va hva => ?_, fun va hva => ?_⟩
  · exact (h.held.inPool h.split Radix.mem_tables_self).1
  · have h1 := hpage va hva
    have h2 := hpage va' hva'
    rw [heq] at h1
    obtain ⟨hi, -⟩ := List.getElem?_eq_some_iff.mp h1
    exact (List.getElem?_inj hi h.nodup).mp (h1.trans h2.symm)
  · exact (h.split.outstanding (h.owned _ (List.mem_of_getElem? (hpage va hva)))).pos hpos
  · exact h.apart _ (List.mem_of_getElem? (hpage va hva))

/-! ### `copyout` -/

/-- The first `n` bytes of `src` are in user memory from `va` on, and nothing else changed. -/
structure Wrote (m : Memory) (pt va : Nat) (src : List UInt8) (n : Nat) (m' : Memory) : Prop where
  mapped : ∀ i < n, UserMapped m pt (va + i)
  bytes : ∀ i < n, some (m' (userAddr m pt (va + i))) = src[i]?
  frame : ∀ a, (∀ i < n, a ≠ userAddr m pt (va + i)) → m' a = m a

variable {src : List UInt8}

theorem Wrote.zero : Wrote m pt va src 0 m :=
  ⟨fun i hi => absurd hi (by omega), fun i hi => absurd hi (by omega), fun _ _ => rfl⟩

variable {n : Nat}

theorem Wrote.userFrame (h : Wrote m pt va src n m') :
    UserFrame m pt m' := fun a ha => h.frame a fun i hi => ha _ (h.mapped i hi)

/-- A piece of a copy, in one page. -/
theorem wrote_piece (hva : UserMapped m pt va) (hn : va % PGSIZE + n ≤ PGSIZE)
    (hlen : n ≤ src.length) :
    Wrote m pt va src n (m.write (userAddr m pt va) (src.take n)) := by
  have hpg : PGSIZE = 4096 := rfl
  have hadd : ∀ i < n, userAddr m pt (va + i) = userAddr m pt va + i := fun i hi =>
    userAddr_add (by omega)
  refine ⟨fun i hi => userMapped_of_page ?_ hva, fun i hi => ?_, fun a ha => ?_⟩
  · rw [hpg] at hn ⊢
    omega
  · have hget : (src.take n)[i]? = some src[i] := by
      rw [List.getElem?_take_of_lt hi, List.getElem?_eq_getElem]
    rw [hadd i hi, Memory.write_inside hget, List.getElem?_eq_getElem]
  · refine Memory.write_outside fun hin => ?_
    rw [List.length_take] at hin
    refine ha (a - userAddr m pt va) (by omega) ?_
    rw [hadd _ (by omega)]
    omega

/-- A piece, and the pieces after it. -/
theorem Wrote.append {n' : Nat} {m₁ : Memory} (hP : UserPages m pt) (h : Wrote m pt va src n m₁)
    (h' : Wrote m₁ pt (va + n) (src.drop n) n' m') :
    Wrote m pt va src (n + n') m' := by
  obtain ⟨-, hptes⟩ := hP.of_frame h.userFrame
  have haddr : ∀ va, userAddr m₁ pt va = userAddr m pt va := by
    intro va
    unfold userAddr
    rw [hptes va]
  have hmapped : ∀ i < n', UserMapped m pt (va + n + i) := by
    intro i hi
    exact (userMapped_congr hptes).mp (h'.mapped i hi)
  have hplace : ∀ i, n ≤ i → va + n + (i - n) = va + i := fun i hi => by omega
  refine ⟨fun i hi => ?_, fun i hi => ?_, fun a ha => ?_⟩
  · by_cases hin : i < n
    · exact h.mapped i hin
    · rw [← hplace i (by omega)]
      exact hmapped _ (by omega)
  · by_cases hin : i < n
    · -- The later pieces are elsewhere.
      rw [← h.bytes i hin, h'.frame]
      intro i' hi' heq
      rw [haddr] at heq
      have := userAddr_inj hP (h.mapped i hin) (hmapped i' hi') heq
      omega
    · have := h'.bytes (i - n) (by omega)
      rw [hplace i (by omega), haddr, List.getElem?_drop, Nat.add_sub_cancel' (by omega)] at this
      exact this
  · rw [h'.frame a, h.frame a]
    · exact fun i hi => ha i (by omega)
    · intro i hi
      rw [haddr, Nat.add_assoc]
      exact ha (n + i) (by omega)

/-- What `copyout` did: the bytes up to the first page that is not mapped are written. -/
def Delivered (m : Memory) (pt va : Nat) (src : List UInt8) (r : Int) (m' : Memory) : Prop :=
  ∃ n ≤ src.length, Wrote m pt va src n m' ∧
    (r = 0 ∧ n = src.length ∨ r = -1 ∧ n < src.length ∧ ¬ UserMapped m pt (va + n))

/-- The loop of `copyout`. -/
theorem copyoutLoop_spec (fuel va : Nat) (src : List UInt8) (hfuel : src.length ≤ fuel)
    (hP : UserPages k.mem pt) :
    wp (copyoutLoop pt fuel va src) (fun r k' => k'.freelist = k.freelist ∧
      Delivered k.mem pt va src r k'.mem) (fun _ => False) k := by
  induction fuel generalizing va src k with
  | zero =>
    obtain rfl : src = [] := List.eq_nil_of_length_eq_zero (by omega)
    exact ⟨rfl, 0, Nat.le_refl 0, Wrote.zero, .inl ⟨rfl, rfl⟩⟩
  | succ fuel ih =>
    rw [copyoutLoop]
    by_cases hnil : src = []
    · subst hnil
      exact ⟨rfl, 0, Nat.le_refl 0, Wrote.zero, .inl ⟨rfl, rfl⟩⟩
    · have hpos : 0 < src.length := List.length_pos_of_ne_nil hnil
      rw [if_neg hnil]
      show wp (walkaddr pt (PGROUNDDOWN va) >>= _) _ _ _
      rw [wp_bind, wp_walkaddr]
      by_cases hva : UserMapped k.mem pt va
      · have hpage := (hP.page_iff va).mpr hva
        have hoff : va - PGROUNDDOWN va = va % PGSIZE := by
          have := down_add va
          omega
        have hmod : va % PGSIZE < PGSIZE := Nat.mod_lt _ (by decide)
        obtain ⟨n, hn⟩ : ∃ n, min (PGSIZE - va % PGSIZE) src.length = n := ⟨_, rfl⟩
        rw [if_neg hpage, userPage_mapped hva, hoff, hn, wp_bind, wp_modify]
        have hpiece : Wrote k.mem pt va src n
            (k.mem.write (userAddr k.mem pt va) (src.take n)) :=
          wrote_piece hva (by omega) (by omega)
        obtain ⟨hP', hptes⟩ := hP.of_frame hpiece.userFrame
        refine wp_post (ih _ (src.drop n) (by rw [List.length_drop]; omega) hP') ?_
        rintro r k' ⟨hfree, n', hn', hwrote, hr⟩
        rw [List.length_drop] at hn' hr
        refine ⟨hfree, n + n', by omega, ?_⟩
        by_cases hlast : n = src.length
        · -- The last piece: nothing is left to copy.
          obtain rfl : n' = 0 := by omega
          have hsame : k'.mem = k.mem.write (userAddr k.mem pt va) (src.take n) :=
            funext fun a => hwrote.frame a fun i hi => absurd hi (by omega)
          rw [hsame]
          exact ⟨hpiece, .inl ⟨by omega, by omega⟩⟩
        · have hnext : PGROUNDDOWN va + PGSIZE = va + n := by
            have := down_add va
            omega
          rw [hnext] at hwrote hr
          refine ⟨hpiece.append hP hwrote, ?_⟩
          rcases hr with ⟨rfl, hall⟩ | ⟨rfl, hsome, hstop⟩
          · exact .inl ⟨rfl, by omega⟩
          · refine .inr ⟨rfl, by omega, fun hmapped => hstop ((userMapped_congr hptes).mpr ?_)⟩
            rw [Nat.add_assoc]
            exact hmapped
      · have hpage : userPage k.mem pt (PGROUNDDOWN va) = 0 := by
          by_contra hne
          exact hva ((hP.page_iff va).mp hne)
        rw [if_pos hpage]
        exact ⟨rfl, 0, Nat.zero_le _, Wrote.zero, .inr ⟨rfl, hpos, hva⟩⟩

/-- `copyout` writes the range, or its part before the first page that is not mapped. -/
theorem copyout_spec (hP : UserPages k.mem pt) :
    wp (copyout pt va src) (fun r k' => k'.freelist = k.freelist ∧
      Delivered k.mem pt va src r k'.mem) (fun _ => False) k :=
  copyoutLoop_spec _ va src (Nat.le_refl _) hP

/-- `copyout` returns 0 exactly if the range is mapped. -/
theorem Delivered.zero_iff {r : Int} (h : Delivered m pt va src r m') :
    (r = 0 ↔ ∀ i < src.length, UserMapped m pt (va + i)) ∧ (r = 0 ∨ r = -1) := by
  obtain ⟨n, hn, hwrote, ⟨rfl, rfl⟩ | ⟨rfl, hlt, hstop⟩⟩ := h
  · exact ⟨⟨fun _ => hwrote.mapped, fun _ => rfl⟩, .inl rfl⟩
  · exact ⟨⟨fun hr => absurd hr (by decide), fun hall => absurd (hall n hlt) hstop⟩, .inr rfl⟩

/-! ### Pages that user code cannot write -/

/-- Only bytes of pages that user code can write have changed. -/
def OnlyWritable (m : Memory) (pt : Nat) (m' : Memory) : Prop :=
  ∀ a, m' a ≠ m a → ∃ va, UserMapped m pt va ∧ pte m pt va &&& PTE_W ≠ 0 ∧ a = userAddr m pt va

/-- What a copy may do to pages that user code cannot write: store the bytes that are there. -/
theorem copyout_condition (hP : UserPages k.mem pt) {r : Int} {k' : Kmem}
    (hrun : copyout pt va src k = .ok (r, k')) :
    OnlyWritable k.mem pt k'.mem ↔
      ∀ i b, src[i]? = some b → (∀ j ≤ i, UserMapped k.mem pt (va + j)) →
        pte k.mem pt (va + i) &&& PTE_W ≠ 0 ∨ userByte k.mem pt (va + i) = some b := by
  obtain ⟨-, n, hn, hwrote, hr⟩ := wp_ok (copyout_spec hP) hrun
  constructor
  · intro hW i b hb hmapped
    obtain ⟨hi, -⟩ := List.getElem?_eq_some_iff.mp hb
    -- The copy reaches every byte before the first page that is not mapped.
    have hin : i < n := by
      rcases hr with ⟨-, hall⟩ | ⟨-, -, hstop⟩
      · omega
      · by_contra hge
        exact hstop (hmapped n (by omega))
    have hhere := hmapped i (Nat.le_refl i)
    have hbyte := hwrote.bytes i hin
    rw [hb] at hbyte
    by_cases hsame : k.mem (userAddr k.mem pt (va + i)) = b
    · right
      rw [hP.byte hhere, hsame]
    · left
      have hne : k'.mem (userAddr k.mem pt (va + i)) ≠ k.mem (userAddr k.mem pt (va + i)) := by
        rw [Option.some.inj hbyte]
        exact Ne.symm hsame
      obtain ⟨va', hva', hw, haddr⟩ := hW _ hne
      rw [userAddr_inj hP hhere hva' haddr]
      exact hw
  · intro hcond a ha
    obtain ⟨i, hi, rfl⟩ : ∃ i < n, a = userAddr k.mem pt (va + i) := by
      by_contra hnone
      exact ha (hwrote.frame a fun i hi heq => hnone ⟨i, hi, heq⟩)
    have hbyte := hwrote.bytes i hi
    rcases hcond i _ hbyte.symm fun j hj => hwrote.mapped j (by omega) with hw | hsame
    · exact ⟨va + i, hwrote.mapped i hi, hw, rfl⟩
    · rw [hP.byte (hwrote.mapped i hi)] at hsame
      exact absurd (Option.some.inj hsame).symm ha

/-- `copyout` changes only pages that user code can write, exactly if every byte that it copies
goes to such a page, or is there already. -/
theorem copyout_only_writable_iff (hP : UserPages k.mem pt) (va : Nat) (src : List UInt8) :
    (∃ r k', copyout pt va src k = .ok (r, k') ∧ OnlyWritable k.mem pt k'.mem) ↔
      ∀ i b, src[i]? = some b → (∀ j ≤ i, UserMapped k.mem pt (va + j)) →
        pte k.mem pt (va + i) &&& PTE_W ≠ 0 ∨ userByte k.mem pt (va + i) = some b := by
  constructor
  · rintro ⟨r, k', hrun, hW⟩
    exact (copyout_condition hP hrun).mp hW
  · intro hcond
    obtain ⟨r, k', hrun, -⟩ := wp_returns (@copyout_spec pt k va src hP) fun _ => id
    exact ⟨r, k', hrun, (copyout_condition hP hrun).mpr hcond⟩

/-- User code can access a page of `uvmalloc`. -/
theorem leafPte_user {pa perm : Nat} : leafPte pa (PTE_R ||| PTE_U ||| perm) &&& PTE_U ≠ 0 := by
  intro hzero
  have hbit : (leafPte pa (PTE_R ||| PTE_U ||| perm) &&& PTE_U).testBit 4 = true := by
    rw [Nat.testBit_and, leafPte, Nat.testBit_or, Nat.testBit_or, Nat.testBit_or,
      show (PTE_R ||| PTE_U).testBit 4 = true by decide, show PTE_U.testBit 4 = true by decide,
      Bool.true_or, Bool.or_true, Bool.true_or]
    rfl
  rw [hzero, Nat.zero_testBit] at hbit
  cases hbit

/-- The address space with one page at address 0, mapped with the flags of a segment. -/
theorem boot_userPages {xperm : Nat} (hx : xperm < 1024) : ∃ k pt k' k'',
    kinit KERNBASE ⟨fun _ => 0, 0⟩ = .ok ((), k) ∧ uvmcreate k = .ok (pt, k') ∧
    uvmalloc KERNBASE pt 0 PGSIZE xperm k' = .ok (PGSIZE, k'') ∧ UserPages k''.mem pt ∧
    UserMapped k''.mem pt 0 ∧ userByte k''.mem pt 0 = some 0 ∧
    PTE_FLAGS (pte k''.mem pt 0) = PTE_R ||| PTE_U ||| xperm ||| PTE_V ∧
    ∀ q ∈ tables k''.mem pt, KERNBASE ≤ q := by
  obtain ⟨k, pt, k', k'', d, held, rest, hinit, hcreate, hgrow, hspace, -, hptes, hzero⟩ :=
    boot_page_perm hx
  have htf : TRAPFRAME = 67108862 * 4096 := rfl
  have hpg : PGSIZE = 4096 := rfl
  have hflags := readable_lt hx
  have hentry : pte k''.mem pt 0 = leafPte d (PTE_R ||| PTE_U ||| xperm) := by
    rw [hptes 0 (by decide), if_pos (by decide)]
  have hpool := hspace.split.outstanding (hspace.owned d List.mem_cons_self)
  obtain ⟨hpage, hparts, -⟩ := leafPte_parts hpool.1 (hpool.lt.trans (by decide)) hflags
  have hP : UserPages k''.mem pt := hspace.userPages (Nat.le_refl _) fun va hva hmapped => by
    have hv := hmapped.2.1
    rw [show (⟨k'', held⟩ : Pages).kmem = k'' from rfl, hptes va hmapped.1,
      if_neg (by omega)] at hv
    exact hv rfl
  have hmapped : UserMapped k''.mem pt 0 := by
    refine ⟨by decide, ?_, ?_⟩
    · rw [hentry]
      exact leafPte_valid
    · rw [hentry]
      exact leafPte_user
  refine ⟨k, pt, k', k'', hinit, hcreate, hgrow, hP, hmapped, ?_, by rw [hentry, hparts],
    fun q hq => ?_⟩
  · rw [hP.byte hmapped, userAddr, hentry, hpage, hzero _ (Nat.le_add_right _ _) (by
      rw [Nat.zero_mod]
      omega)]
  · exact (kend_le KERNBASE).trans (hspace.held.inPool hspace.split hq).2.1

/-- A segment that is not writable, as `exec` maps it: `copyout` writes it. -/
theorem copyout_writes_text : ∃ k pt k' k'' k₃,
    kinit KERNBASE ⟨fun _ => 0, 0⟩ = .ok ((), k) ∧ uvmcreate k = .ok (pt, k') ∧
    uvmalloc KERNBASE pt 0 PGSIZE (flags2perm 1) k' = .ok (PGSIZE, k'') ∧ UserPages k''.mem pt ∧
    PTE_FLAGS (pte k''.mem pt 0) = PTE_R ||| PTE_U ||| PTE_X ||| PTE_V ∧
    copyout pt 0 [7] k'' = .ok (0, k₃) ∧ userByte k₃.mem pt 0 = some 7 ∧
    ¬ OnlyWritable k''.mem pt k₃.mem := by
  obtain ⟨k, pt, k', k'', hinit, hcreate, hgrow, hP, hmapped, hbyte, hflags, -⟩ :=
    boot_userPages (by decide : flags2perm 1 < 1024)
  obtain ⟨r, k₃, hrun, -, hD⟩ := wp_returns (@copyout_spec pt k'' 0 [7] hP) fun _ => id
  have hrange : ∀ i < [(7 : UInt8)].length, UserMapped k''.mem pt (0 + i) := by
    intro i hi
    obtain rfl : i = 0 := by
      rw [List.length_singleton] at hi
      omega
    exact hmapped
  obtain rfl : r = 0 := (hD.zero_iff.1).mpr hrange
  obtain ⟨n, hn, hwrote, ⟨-, hall⟩ | ⟨hr, -⟩⟩ := hD
  · have hP₃ := hP.of_frame hwrote.userFrame
    have hnew : k₃.mem (userAddr k''.mem pt 0) = 7 :=
      Option.some.inj (hwrote.bytes 0 (by rw [hall]; decide))
    refine ⟨k, pt, k', k'', k₃, hinit, hcreate, hgrow, hP, hflags, hrun, ?_, fun hW => ?_⟩
    · rw [hP₃.1.byte ((userMapped_congr hP₃.2).mpr hmapped), userAddr, hP₃.2 0]
      exact congrArg some hnew
    · -- The condition fails at the only byte of the copy.
      have hcond := (copyout_condition hP hrun).mp hW 0 7 rfl fun j hj => by
        obtain rfl : j = 0 := by omega
        exact hmapped
      rcases hcond with hw | hsame
      · rw [Nat.add_zero, flags_and (by decide), hflags] at hw
        exact hw (by decide)
      · rw [Nat.add_zero, hbyte] at hsame
        exact absurd hsame (by decide)
  · exact absurd hr (by decide)

/-- A segment that is writable. -/
theorem copyout_writes_data : ∃ k pt k' k'',
    kinit KERNBASE ⟨fun _ => 0, 0⟩ = .ok ((), k) ∧ uvmcreate k = .ok (pt, k') ∧
    uvmalloc KERNBASE pt 0 PGSIZE (flags2perm 2) k' = .ok (PGSIZE, k'') ∧ UserPages k''.mem pt ∧
    ∃ r k₃, copyout pt 0 [7] k'' = .ok (r, k₃) ∧ OnlyWritable k''.mem pt k₃.mem := by
  obtain ⟨k, pt, k', k'', hinit, hcreate, hgrow, hP, hmapped, hbyte, hflags, -⟩ :=
    boot_userPages (by decide : flags2perm 2 < 1024)
  refine ⟨k, pt, k', k'', hinit, hcreate, hgrow, hP, ?_⟩
  refine (copyout_only_writable_iff hP 0 [7]).mpr fun i b hb _ => .inl ?_
  obtain ⟨hi, -⟩ := List.getElem?_eq_some_iff.mp hb
  obtain rfl : i = 0 := by
    rw [List.length_singleton] at hi
    omega
  rw [Nat.add_zero, flags_and (by decide), hflags]
  decide

end Xv6.Proofs.Mem
