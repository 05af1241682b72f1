import Xv6.Proofs.Mem.Copy
import Xv6.Proofs.Mem.Map

/-!
# `Xv6.Proofs.Mem.Clone`: the child of `uvmcopy` is an independent copy

`uvmcopyLoop_spec` says what the loop does. Here it is put in terms of the two page tables: what
the child maps, which pages it has, and that the parent has kept everything.

A page table whose tables are distinct pages of the RAM cannot map all pages up to the trapframe:
each of its lowest tables covers two megabytes, and there are not that many pages
(`covered_small`). So the pages that are copied are all below the trapframe, which a new page
table has mapped already.
-/

set_option autoImplicit false

namespace Xv6.Proofs.Mem

open Lib Lib.Action Kernel

variable {kend : Nat} {s : Pages} {f : List Nat} {old pt : Nat}

/-- Two addresses in different spans of two megabytes have different lowest tables. -/
theorem span_inj (hH : Held s pt) {va va' q : Nat} (hva : va < VASPACE) (hva' : va' < VASPACE)
    (h : table s.kmem.mem pt va 0 = some q) (h' : table s.kmem.mem pt va' 0 = some q) :
    va / 2097152 = va' / 2097152 := by
  have hmax : VASPACE = 549755813888 := rfl
  obtain ⟨-, hagree⟩ := Radix.table_inj (path_lt va) (path_lt va') hH.nodup h h'
  have h1 : va' / 2097152 % 512 = va / 2097152 % 512 := hagree 1 (by omega) (by omega)
  have h2 : va' / 1073741824 % 512 = va / 1073741824 % 512 := hagree 2 (by omega) (by omega)
  omega

/-- Memory that is mapped from address 0 on does not reach up to the trapframe. -/
theorem covered_small (hend : KERNBASE ≤ kend) (hS : Split kend s f) (hH : Held s pt) {top : Nat}
    (h : ∀ va < top, pte s.kmem.mem pt va &&& PTE_V ≠ 0) : top < TRAPFRAME := by
  by_contra hlarge
  have htf : TRAPFRAME = 274877898752 := rfl
  have hmax : VASPACE = 549755813888 := rfl
  -- One lowest table for each of the first spans.
  have htable : ∀ i < 65536, ∃ q, table s.kmem.mem pt (i * 2097152) 0 = some q := by
    intro i hi
    obtain ⟨q, hq, -⟩ := table_of_valid (h (i * 2097152) (by omega))
    exact ⟨q, hq⟩
  choose! q hq using htable
  have hinj : ((List.range 65536).map q).Nodup := by
    refine List.Nodup.map_on (fun x hx y hy hxy => ?_) List.nodup_range
    have hx := List.mem_range.mp hx
    have hy := List.mem_range.mp hy
    have hqy := hq y hy
    rw [← hxy] at hqy
    have := span_inj hH (by omega) (by omega) (hq x hx) hqy
    omega
  have hroom := length_pool hinj (fun d hd => ?_) hend
  · rw [List.length_map, List.length_range] at hroom
    exact absurd hroom (by decide)
  · obtain ⟨i, hi, rfl⟩ := List.mem_map.mp hd
    exact hH.inPool hS (Radix.table_mem (path_lt _) (hq i (List.mem_range.mp hi)))

/-- What `uvmcopy` needs of the two page tables: the parent's and a fresh one. -/
structure CopyPair (kend : Nat) (s : Pages) (f : List Nat) (old pt sz : Nat) : Prop where
  fresh : UserSpace kend s f pt 0 []
  tree : Held s old
  apart : ∀ q ∈ tables s.kmem.mem old, q ∉ tables s.kmem.mem pt
  mapped : ∀ va < PGROUNDUP sz, Leaf (pte s.kmem.mem old va) (PTE2PA (pte s.kmem.mem old va))
  owned : ∀ va < PGROUNDUP sz, PTE2PA (pte s.kmem.mem old va) ∈ s.held ∧
    PTE2PA (pte s.kmem.mem old va) ∉ tables s.kmem.mem pt

/-- The parent has its page table and its pages. -/
def ParentSame (s : Pages) (old sz : Nat) (m : Memory) : Prop :=
  tables m old = tables s.kmem.mem old ∧ (∀ va, pte m old va = pte s.kmem.mem old va) ∧
    (∀ q ∈ tables s.kmem.mem old, SamePage s.kmem.mem m q) ∧
    ∀ va < PGROUNDUP sz, SamePage s.kmem.mem m (PTE2PA (pte s.kmem.mem old va))

theorem CopyPair.parent {sz : Nat} {m : Memory} (h : CopyPair kend s f old pt sz)
    (hframe : ∀ q ∈ s.held, q ∉ tables s.kmem.mem pt → SamePage s.kmem.mem m q) :
    ParentSame s old sz m := by
  have htree : ∀ q ∈ tables s.kmem.mem old, SamePage s.kmem.mem m q := fun q hq =>
    hframe q (h.tree.held q hq) (h.apart q hq)
  obtain ⟨htables, -, hptes, -⟩ := table_same old htree
  exact ⟨htables, hptes, htree, fun va hva => hframe _ (h.owned va hva).1 (h.owned va hva).2⟩

/-- `uvmcopy` gives the child a page of its own for every page of the parent, with the same bytes
and the same flags; or it returns -1, and all that it took is tables of the child. -/
theorem uvmcopy_independent (hend : KERNBASE ≤ kend) {sz : Nat}
    (h : CopyPair kend s f old pt sz) :
    ∃ r k, uvmcopy kend old pt sz s.kmem = .ok (r, k) ∧ ParentSame s old sz k.mem ∧
      (r = 0 ∧ (∃ l new rest, l.length * PGSIZE = PGROUNDUP sz ∧ l.Nodup ∧
          f.Perm (l ++ new ++ rest) ∧ Split kend ⟨k, l ++ new ++ s.held⟩ rest ∧
          (∀ d ∈ l, d ∉ s.held ∧ d ∉ tables k.mem pt) ∧
          ∀ i d, l[i]? = some d → PTE2PA (pte k.mem pt (i * PGSIZE)) = d ∧
            PTE_FLAGS (pte k.mem pt (i * PGSIZE)) =
              PTE_FLAGS (pte s.kmem.mem old (i * PGSIZE)) ∧
            ∀ b < PGSIZE,
              k.mem (d + b) = s.kmem.mem (PTE2PA (pte s.kmem.mem old (i * PGSIZE)) + b)) ∨
        r = -1 ∧ (∀ va < PGROUNDUP sz, pte k.mem pt va &&& PTE_V = 0) ∧
          ∃ new rest, f.Perm (new ++ rest) ∧ Split kend ⟨k, new ++ s.held⟩ rest ∧
            (tables k.mem pt).Perm (new ++ tables s.kmem.mem pt)) := by
  have hpg : PGSIZE = 4096 := rfl
  have hstop : PHYSTOP = 2281701376 := rfl
  have hsmall : PGROUNDUP sz < TRAPFRAME :=
    covered_small hend h.fresh.split h.tree fun va hva => (h.mapped va hva).valid
  have hmul : (sz + PGSIZE - 1) / PGSIZE * PGSIZE = PGROUNDUP sz := rfl
  have hsrc : Source s old pt (PGROUNDUP sz) :=
    ⟨h.tree, h.apart, fun va hva _ => (h.mapped va hva).leaf⟩
  have hloop := uvmcopyLoop_spec hend ((sz + PGSIZE - 1) / PGSIZE) h.fresh (by decide) hsrc
    (by rw [Nat.zero_add]; exact Nat.le_refl _)
  obtain ⟨r, k, hrun, hpost⟩ := wp_returns hloop fun _ => by
    -- The parent has every page of the range.
    rintro ⟨i, hi, hinvalid⟩
    have hbound : (i + 1) * PGSIZE ≤ (sz + PGSIZE - 1) / PGSIZE * PGSIZE :=
      Nat.mul_le_mul_right _ hi
    rw [Nat.succ_mul] at hbound
    rw [Nat.zero_add] at hinvalid
    exact (h.mapped (i * PGSIZE) (by omega)).valid hinvalid
  refine ⟨r, k, hrun, ?_⟩
  rcases hpost with ⟨hr, l, new, rest, hlen, hC⟩ | ⟨hr, new, rest, kept, hU⟩
  · refine ⟨h.parent hC.joined.frame, .inl ⟨hr, l, new, rest, by rw [hlen]; exact hmul, ?_,
      hC.joined.free, hC.joined.split, fun d hd => ?_, fun i d hd => ?_⟩⟩
    · exact (List.nodup_append.mp (List.nodup_append.mp hC.joined.split.nodup_held).1).1
    · have hnodup : (l ++ new ++ s.held).Nodup := hC.joined.split.nodup_held
      rw [List.append_assoc, List.nodup_append] at hnodup
      refine ⟨fun hin => hnodup.2.2 d hd d (List.mem_append_right _ hin) rfl, fun hin => ?_⟩
      refine hnodup.2.2 d hd d ?_ rfl
      rcases List.mem_append.mp ((hC.joined.tables.mem_iff).mp hin) with hin | hin
      · exact List.mem_append_left _ hin
      · exact List.mem_append_right _ (h.fresh.held.held d hin)
    · obtain ⟨hi, -⟩ := List.getElem?_eq_some_iff.mp hd
      have hbound : (i + 1) * PGSIZE ≤ (sz + PGSIZE - 1) / PGSIZE * PGSIZE :=
        Nat.mul_le_mul_right _ (by omega)
      rw [Nat.succ_mul] at hbound
      have hva : i * PGSIZE < PGROUNDUP sz := by omega
      have hpool := hC.joined.split.outstanding
        (List.mem_append_left _ (List.mem_append_left _ (List.mem_of_getElem? hd)))
      have hperm : PTE_FLAGS (pte s.kmem.mem old (i * PGSIZE)) < 1024 := Nat.mod_lt _ (by decide)
      obtain ⟨hpage, hflags, -⟩ := leafPte_parts hpool.1 (by have := hpool.2.2; omega) hperm
      have hleaf := hC.leaf i d hd
      have hbytes := hC.bytes i d hd
      rw [Nat.zero_add] at hleaf hbytes
      rw [flags_valid (h.mapped _ hva).valid] at hflags
      rw [hleaf]
      exact ⟨hpage, hflags, hbytes (h.owned _ hva).1 (h.owned _ hva).2⟩
  · have hkept : s.held.Perm kept := hU.held
    refine ⟨h.parent fun q hq hqt => hU.frame q (hkept.mem_iff.mp hq) hqt, .inr ⟨hr, fun va hva => ?_,
      new, rest, hU.free, hU.split.perm (hkept.symm.append_left new), hU.tables⟩⟩
    exact hU.user va (by omega)

/-- A process with one page, and a fresh page table. -/
theorem boot_copyPair : ∃ k pt k₁ k₂ new k₃ held rest,
    kinit KERNBASE ⟨fun _ => 0, 0⟩ = .ok ((), k) ∧ uvmcreate k = .ok (pt, k₁) ∧
    uvmalloc KERNBASE pt 0 PGSIZE PTE_W k₁ = .ok (PGSIZE, k₂) ∧ uvmcreate k₂ = .ok (new, k₃) ∧
    CopyPair KERNBASE ⟨k₃, held⟩ rest pt new PGSIZE := by
  obtain ⟨k, pt, k₁, k₂, d, held, rest, hinit, hcreate, hgrow, hspace, hroom, hptes, -⟩ := boot_page
  obtain ⟨new, k₃, hrun, hpost⟩ := wp_returns (uvmcreate_space hspace.split) fun _ => id
  rcases hpost with ⟨hnil, -⟩ | ⟨rest', hf, hne, hfresh, htables, -, -, hsame⟩
  · exact absurd hnil hroom
  have hpg : PGSIZE = 4096 := rfl
  have hkeep : ∀ q ∈ tables k₂.mem pt, SamePage k₂.mem k₃.mem q := fun q hq =>
    hsame q (hspace.held.held q hq)
  obtain ⟨htree, -, hptes₃, -⟩ := table_same pt hkeep
  have hnew : new ∉ held := (List.nodup_cons.mp hfresh.split.nodup_held).1
  have hround : PGROUNDUP PGSIZE = PGSIZE := by decide
  -- The page is mapped as before, and it is not the new table.
  have hleaf : ∀ va < PGSIZE, Leaf (pte k₃.mem pt va) d := by
    intro va hva
    have hfirst : va / PGSIZE = 0 / PGSIZE := by rw [Nat.div_eq_of_lt hva, Nat.zero_div]
    rw [hptes₃ va, pte_of_page hfirst]
    exact hspace.leaves 0 d rfl
  have hd := hspace.owned d List.mem_cons_self
  refine ⟨k, pt, k₁, k₂, new, k₃, new :: held, rest', hinit, hcreate, hgrow, hrun, hfresh,
    hspace.held.of_same htree fun q hq => List.mem_cons_of_mem new (hspace.held.held q hq),
    fun q hq hqt => ?_, fun va hva => ?_, fun va hva => ?_⟩
  · have hq : q ∈ tables k₃.mem pt := hq
    have hqt : q ∈ tables k₃.mem new := hqt
    rw [htree] at hq
    rw [htables, List.mem_singleton] at hqt
    exact hnew (hqt ▸ hspace.held.held q hq)
  · rw [hround] at hva
    rw [(hleaf va hva).page]
    exact hleaf va hva
  · rw [hround] at hva
    rw [(hleaf va hva).page]
    refine ⟨List.mem_cons_of_mem new hd, fun hin => ?_⟩
    have hin : d ∈ tables k₃.mem new := hin
    rw [htables, List.mem_singleton] at hin
    exact hnew (hin ▸ hd)

/-- The copy of a process with one page. -/
theorem uvmcopy_independent_boot : ∃ k pt k₁ k₂ new k₃ held rest,
    kinit KERNBASE ⟨fun _ => 0, 0⟩ = .ok ((), k) ∧ uvmcreate k = .ok (pt, k₁) ∧
    uvmalloc KERNBASE pt 0 PGSIZE PTE_W k₁ = .ok (PGSIZE, k₂) ∧ uvmcreate k₂ = .ok (new, k₃) ∧
    CopyPair KERNBASE ⟨k₃, held⟩ rest pt new PGSIZE ∧
    ∃ r k₄, uvmcopy KERNBASE pt new PGSIZE k₃ = .ok (r, k₄) ∧
      ParentSame ⟨k₃, held⟩ pt PGSIZE k₄.mem := by
  obtain ⟨k, pt, k₁, k₂, new, k₃, held, rest, hinit, hcreate, hgrow, hnew, hpair⟩ := boot_copyPair
  obtain ⟨r, k₄, hrun, hparent, -⟩ := uvmcopy_independent (Nat.le_refl KERNBASE) hpair
  exact ⟨k, pt, k₁, k₂, new, k₃, held, rest, hinit, hcreate, hgrow, hnew, hpair, r, k₄, hrun, hparent⟩

end Xv6.Proofs.Mem
