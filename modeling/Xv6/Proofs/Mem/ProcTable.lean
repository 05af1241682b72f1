import Xv6.Kernel.Proc
import Xv6.Proofs.Mem.Teardown

/-!
# `Xv6.Proofs.Mem.ProcTable`: the page table of a new process

`proc_pagetable` makes a page table and maps the trampoline and the trapframe. The two pages
share their tables, so only the first of the two can run out of memory, and then everything
that was taken is given back (`procPagetable_spec`).

`proc_freepagetable` of such a page table depends on the size that it is called with. A size of
no page frees the tables. A size of some page makes it unmap page 0, which is not mapped
(`procFreepagetable_plain`).
-/

set_option autoImplicit false

namespace Xv6.Proofs.Mem

open Lib Lib.Action Kernel

variable {c : SysParam} {kend : Nat} {s : Pages} {f : List Nat} {pt : Nat}

/-- What the linker gives: the kernel lies in the RAM, and the trampoline is a page. -/
structure Linked (c : SysParam) : Prop where
  kend : KERNBASE ≤ c.kend
  aligned : c.trampoline % PGSIZE = 0
  trampoline : c.trampoline < PHYSTOP

theorem Linked.pos (hc : Linked c) : 0 < c.kend := Nat.lt_of_lt_of_le (by decide) hc.kend

/-! ### Giving back -/

/-- The free pages are the same ones as before, and no outstanding page has changed. -/
def Intact (kend : Nat) (s : Pages) (f : List Nat) (k : Kmem) : Prop :=
  ∃ free, free.Perm f ∧ Split kend ⟨k, s.held⟩ free ∧ ∀ q ∈ s.held, SamePage s.kmem.mem k.mem q

/-- Pages that were taken from the freelist are freed. -/
theorem Freed.intact {s' : Pages} {l rest : List Nat} {k : Kmem} (hfree : f.Perm (l ++ rest))
    (hheld : s'.held.Perm (l ++ s.held))
    (hsame : ∀ q ∈ s.held, SamePage s.kmem.mem s'.kmem.mem q) (hF : Freed kend s' rest l k) :
    Intact kend s f k := by
  obtain ⟨held, free, hperm, hfree', hS, hkeep⟩ := hF
  have hback : held.Perm s.held := (List.perm_append_left_iff l).mp (hperm.symm.trans hheld)
  refine ⟨free, hfree'.trans hfree.symm, hS.perm hback, fun q hq => ?_⟩
  exact (hsame q hq).trans (hkeep q (hback.mem_iff.mpr hq))

/-- A page that was taken first is given back last. -/
theorem Intact.kfree (hend : 0 < kend) {k₁ k : Kmem} {pg : Nat} {f₁ : List Nat}
    (hf : f = pg :: f₁) (hsame : ∀ q ∈ s.held, SamePage s.kmem.mem k₁.mem q)
    (h : Intact kend ⟨k₁, pg :: s.held⟩ f₁ k) :
    wp (kfree kend pg) (fun _ k' => Intact kend s f k') (fun _ => False) k := by
  obtain ⟨free, hperm, hS, hkeep⟩ := h
  have hfresh : pg ∉ s.held := (List.nodup_cons.mp hS.nodup_held).1
  refine wp_post (kfree_page hS List.mem_cons_self hend) ?_
  rintro _ k' ⟨hS', hmem⟩
  have hS' : Split kend ⟨k', (pg :: s.held).erase pg⟩ (pg :: free) := hS'
  rw [List.erase_cons_head] at hS'
  refine ⟨pg :: free, ?_, hS', fun q hq => ?_⟩
  · rw [hf]
    exact hperm.cons pg
  · refine ((hsame q hq).trans (hkeep q (List.mem_cons_of_mem pg hq))).trans ?_
    exact samePage_of_apart (hS.outstanding List.mem_cons_self)
      (hS.outstanding (List.mem_cons_of_mem pg hq)) (fun he => hfresh (he ▸ hq)) hmem

/-- Before its tables are freed, a page table may change. -/
theorem Freed.of_frame {k k' : Kmem} (hS : Split kend s f)
    (htables : tables k.mem pt = tables s.kmem.mem pt)
    (hframe : ∀ q ∈ s.held, q ∉ tables s.kmem.mem pt → SamePage s.kmem.mem k.mem q)
    (hF : Freed kend ⟨k, s.held⟩ f (tables k.mem pt) k') :
    Freed kend s f (tables s.kmem.mem pt) k' := by
  obtain ⟨held, free, hperm, hfree, hS', hkeep⟩ := hF
  rw [htables] at hperm hfree
  have hperm : s.held.Perm (tables s.kmem.mem pt ++ held) := hperm
  have hnodup := hperm.nodup_iff.mp hS.nodup_held
  refine ⟨held, free, hperm, hfree, hS', fun q hq => ?_⟩
  refine (hframe q (hperm.mem_iff.mpr (List.mem_append_right _ hq)) fun hqt => ?_).trans
    (hkeep q hq)
  exact (List.nodup_append.mp hnodup).2.2 q hqt q hq rfl

/-! ### `proc_freepagetable` -/

/-- A page table that maps the trampoline and the trapframe, and nothing else. -/
structure Plain (s : Pages) (pt : Nat) : Prop where
  held : Held s pt
  links : Links s.kmem.mem pt
  trampoline : ∃ d, Leaf (pte s.kmem.mem pt TRAMPOLINE) d
  trapframe : ∃ d, Leaf (pte s.kmem.mem pt TRAPFRAME) d
  other : ∀ va < VASPACE, va / PGSIZE ≠ TRAMPOLINE / PGSIZE →
    va / PGSIZE ≠ TRAPFRAME / PGSIZE → pte s.kmem.mem pt va &&& PTE_V = 0

/-- The two pages are distinct. -/
theorem trapframe_ne : TRAPFRAME / PGSIZE ≠ TRAMPOLINE / PGSIZE := by decide

theorem procFreepagetable_plain (hend : 0 < c.kend) (hS : Split c.kend s f) (hP : Plain s pt)
    (sz : Nat) :
    wp (procFreepagetable c pt sz)
      (fun _ k => sizePages sz = 0 ∧ Freed c.kend s f (tables s.kmem.mem pt) k)
      (fun _ => sizePages sz ≠ 0) s.kmem := by
  obtain ⟨d, htrampoline⟩ := hP.trampoline
  obtain ⟨d', htrapframe⟩ := hP.trapframe
  rw [procFreepagetable, wp_bind]
  refine wp_mono (uvmunmap_keep hS hP.held (by decide) (by decide) htrampoline) ?_
    fun _ => False.elim
  rintro _ k₁ ⟨hS₁, hH₁, hst₁⟩
  have hpte₁ : pte k₁.mem pt TRAPFRAME = pte s.kmem.mem pt TRAPFRAME := by
    rw [hst₁.pte _ (by decide), if_neg trapframe_ne]
  rw [← hpte₁] at htrapframe
  rw [wp_bind]
  refine wp_mono (uvmunmap_keep (s := ⟨k₁, s.held⟩) hS₁ hH₁ (by decide) (by decide) htrapframe) ?_
    fun _ => False.elim
  rintro _ k₂ ⟨hS₂, hH₂, hst₂⟩
  have htables : tables k₂.mem pt = tables s.kmem.mem pt := hst₂.tables.trans hst₁.tables
  have hlinks : Links k₂.mem pt := hst₂.links (hst₁.links hP.links)
  have hframe : ∀ q ∈ s.held, q ∉ tables s.kmem.mem pt → SamePage s.kmem.mem k₂.mem q := by
    intro q hq hqt
    refine (hst₁.frame q hq hqt).trans (hst₂.frame q hq ?_)
    show q ∉ tables k₁.mem pt
    rw [hst₁.tables]
    exact hqt
  -- Both entries are cleared, so no entry is valid.
  have hnone : ∀ va < VASPACE, pte k₂.mem pt va &&& PTE_V = 0 := by
    intro va hva
    rw [hst₂.pte va hva]
    by_cases htf : va / PGSIZE = TRAPFRAME / PGSIZE
    · rw [if_pos htf]
      rfl
    · rw [if_neg htf]
      show pte k₁.mem pt va &&& PTE_V = 0
      rw [hst₁.pte va hva]
      by_cases htr : va / PGSIZE = TRAMPOLINE / PGSIZE
      · rw [if_pos htr]
        rfl
      · rw [if_neg htr]
        exact hP.other va hva htr htf
  by_cases hsz : sizePages sz = 0
  · refine wp_mono (uvmfree_empty hend hsz hS₂ hH₂ hlinks hnone) ?_ fun _ => False.elim
    intro _ k₃ hF
    exact ⟨hsz, hF.of_frame hS htables hframe⟩
  · exact wp_mono (uvmfree_panics hsz (hnone 0 (by decide))) (fun _ _ => False.elim) fun _ _ => hsz

/-! ### `proc_pagetable` -/

/-- The page table `pt` was made of the free pages `new`. -/
structure Made (kend : Nat) (s : Pages) (f : List Nat) (pt : Nat) (new rest : List Nat)
    (k : Kmem) : Prop where
  free : f.Perm (new ++ rest)
  split : Split kend ⟨k, new ++ s.held⟩ rest
  plain : Plain ⟨k, new ++ s.held⟩ pt
  tables : (tables k.mem pt).Perm new
  same : ∀ q ∈ s.held, SamePage s.kmem.mem k.mem q

/-- The path of the trapframe goes through the tables of the trampoline. -/
theorem missing_trapframe (m : Memory) (pt : Nat) :
    missing m pt TRAPFRAME = missing m pt TRAMPOLINE := by
  refine Radix.missing_agree fun i hi hpos => ?_
  obtain rfl | rfl : i = 1 ∨ i = 2 := by omega
  · decide
  · decide

/-- The trampoline is mapped in an empty page table, and then the trapframe. -/
theorem plain_of_mapped {k k₁ k₂ : Kmem} {e e' d d' : Nat} {new new' l l' held : List Nat}
    (hlinks : Links k.mem pt) (hzero : ∀ va, pte k.mem pt va = 0)
    (hM : Mapped ⟨k, l⟩ pt TRAMPOLINE e new k₁.mem)
    (hM' : Mapped ⟨k₁, l'⟩ pt TRAPFRAME e' new' k₂.mem) (he : Leaf e d) (he' : Leaf e' d')
    (hH : Held ⟨k₂, held⟩ pt) : Plain ⟨k₂, held⟩ pt := by
  refine ⟨hH, hM'.links (hM.links hlinks), ⟨d, ?_⟩, ⟨d', ?_⟩, fun va hva htr htf => ?_⟩
  · show Leaf (pte k₂.mem pt TRAMPOLINE) d
    rw [hM'.pte _ (by decide), if_neg (Ne.symm trapframe_ne)]
    show Leaf (pte k₁.mem pt TRAMPOLINE) d
    rw [hM.pte _ (by decide), if_pos rfl]
    exact he
  · show Leaf (pte k₂.mem pt TRAPFRAME) d'
    rw [hM'.pte _ (by decide), if_pos rfl]
    exact he'
  · show pte k₂.mem pt va &&& PTE_V = 0
    rw [hM'.pte va hva, if_neg htf]
    show pte k₁.mem pt va &&& PTE_V = 0
    rw [hM.pte va hva, if_neg htr]
    show pte k.mem pt va &&& PTE_V = 0
    rw [hzero va]
    rfl

/-- The page table with both pages. The second needed no table. -/
theorem made_of_mapped {k k₁ k₂ : Kmem} {f₁ f₂ f₃ new new' : List Nat} {e e' d d' : Nat}
    (hS : Split kend ⟨k, pt :: s.held⟩ f₁) (hf : f = pt :: f₁) (hf₁ : f₁.Perm (new ++ f₂))
    (hS₁ : Split kend ⟨k₁, new ++ pt :: s.held⟩ f₂) (htables : Mem.tables k.mem pt = [pt])
    (hlinks : Links k.mem pt) (hzero : ∀ va, pte k.mem pt va = 0)
    (hsame : ∀ q ∈ s.held, SamePage s.kmem.mem k.mem q)
    (hM : Mapped ⟨k, pt :: s.held⟩ pt TRAMPOLINE e new k₁.mem)
    (hmissing : missing k₁.mem pt TRAPFRAME = ∅) (hf₂ : f₂.Perm (new' ++ f₃))
    (hS₂ : Split kend ⟨k₂, new' ++ (new ++ pt :: s.held)⟩ f₃)
    (hH₂ : Held ⟨k₂, new' ++ (new ++ pt :: s.held)⟩ pt)
    (hM' : Mapped ⟨k₁, new ++ pt :: s.held⟩ pt TRAPFRAME e' new' k₂.mem)
    (he : Leaf e d) (he' : Leaf e' d') : Made kend s f pt (new ++ [pt]) f₃ k₂ := by
  obtain rfl : new' = [] := by
    have hlen : new'.length = (missing k₁.mem pt TRAPFRAME).card := hM'.count
    rw [hmissing, Finset.card_empty] at hlen
    exact List.length_eq_zero_iff.mp hlen
  have htables₁ : (Mem.tables k₁.mem pt).Perm (new ++ [pt]) := by
    rw [← htables]
    exact hM.tables
  have htables₂ : (Mem.tables k₂.mem pt).Perm (new ++ [pt]) := by
    have hperm := hM'.tables
    rw [List.nil_append] at hperm
    exact hperm.trans htables₁
  have hmove : new ++ pt :: s.held = new ++ [pt] ++ s.held := by
    rw [List.append_assoc]
    rfl
  rw [List.nil_append] at hf₂ hS₂ hH₂
  rw [hmove] at hS₁ hS₂ hH₂
  refine ⟨?_, hS₂, plain_of_mapped hlinks hzero hM hM' he he' hH₂, htables₂, fun q hq => ?_⟩
  · rw [hf, List.append_assoc]
    exact ((hf₁.trans (hf₂.append_left new)).cons pt).trans List.perm_middle.symm
  · have hold : q ∉ Mem.tables k.mem pt := by
      intro hqt
      rw [htables, List.mem_singleton] at hqt
      exact (List.nodup_cons.mp hS.nodup_held).1 (hqt ▸ hq)
    have hnew : q ∉ Mem.tables k₁.mem pt := fun hqt =>
      (List.nodup_append.mp hS₁.nodup_held).2.2 q (htables₁.mem_iff.mp hqt) q hq rfl
    have hfirst := hM.frame q (List.mem_cons_of_mem pt hq) hold
    have hsecond := hM'.frame q (List.mem_append_right _ (List.mem_cons_of_mem pt hq)) hnew
    exact ((hsame q hq).trans hfirst).trans hsecond

/-- The tables on the way to an address, below the root. -/
def ways (va : Nat) : Finset (Nat × List Nat) :=
  (Finset.range 2).image fun j => (j, Radix.above (path va) j 2)

theorem card_ways (va : Nat) : (ways va).card = 2 := by
  refine (Finset.card_image_of_injective _ fun i j h => ?_).trans (Finset.card_range 2)
  exact congrArg Prod.fst h

/-- The page table has the tables `S` below its root. -/
def Tabled (m : Memory) (pt : Nat) (S : Finset (Nat × List Nat)) : Prop :=
  ∀ va, missing m pt va = ways va \ S

/-- A page table that is only a root. -/
theorem tabled_root {m : Memory} (h : tables m pt = [pt]) : Tabled m pt ∅ := by
  intro va
  have htable : ∀ j < 2, table m pt va j = none := by
    intro j hj
    unfold table
    rw [Radix.table_succ (by omega), Radix.child_of_root h (path_lt va 2)]
    rfl
  rw [Finset.sdiff_empty]
  unfold ways missing Radix.missing
  rw [Finset.filter_true_of_mem]
  exact fun j hj => htable j (Finset.mem_range.mp hj)

/-- The tables of a path are added. -/
theorem Tabled.mapped {va e : Nat} {S : Finset (Nat × List Nat)} {new : List Nat} {m : Memory}
    (h : Tabled s.kmem.mem pt S) (hM : Mapped s pt va e new m) : Tabled m pt (S ∪ ways va) := by
  intro va'
  rw [hM.missing va', h va', h va]
  ext x
  simp only [Finset.mem_sdiff, Finset.mem_union]
  tauto

/-- The trampoline and the trapframe are mapped, for the kernel only. -/
def FixedPages (c : SysParam) (trapframe : Nat) (m : Memory) (pt : Nat) : Prop :=
  pte m pt TRAMPOLINE = leafPte c.trampoline PTE_RX ∧ pte m pt TRAPFRAME = leafPte trapframe PTE_RW

theorem procPagetable_spec (hc : Linked c) (hS : Split c.kend s f) {trapframe : Nat}
    (htf : trapframe ∈ s.held) :
    wp (procPagetable c trapframe)
      (fun r k => r = 0 ∧ f.length < 3 ∧ Intact c.kend s f k ∨
        r ≠ 0 ∧ FixedPages c trapframe k.mem r ∧ Tabled k.mem r (ways TRAMPOLINE) ∧
          ∃ new rest, new.length = 3 ∧ Made c.kend s f r new rest k)
      (fun _ => False) s.kmem := by
  have hpos := hc.pos
  have hstop : PHYSTOP = 2281701376 := rfl
  have htfpool := hS.outstanding htf
  obtain ⟨hleaf, hfits⟩ := leaf_leafPte hc.aligned (by have := hc.trampoline; omega)
    (by decide : PTE_RX < 1024) (by decide)
  obtain ⟨hleaf', hfits'⟩ := leaf_leafPte htfpool.1 htfpool.lt
    (by decide : PTE_RW < 1024) (by decide)
  rw [procPagetable, wp_bind]
  refine wp_post (uvmcreate_space hS) ?_
  rintro pt k (⟨hf, hpt, hk⟩ | ⟨f₁, hf, hpt, hspace, htables, hzero, hlinks, hsame⟩)
  · rw [if_pos hpt, wp_pure, hk]
    exact .inl ⟨rfl, by rw [hf]; decide, f, .refl _, hS, fun q _ => SamePage.refl _ q⟩
  · have hnot : ∀ q ∈ s.held, q ∉ tables k.mem pt := by
      intro q hq hqt
      rw [htables, List.mem_singleton] at hqt
      exact (List.nodup_cons.mp hspace.split.nodup_held).1 (hqt ▸ hq)
    have hroot := tabled_root htables
    rw [if_neg hpt, wp_bind]
    refine wp_post (mappages_page hspace.split hspace.held (by decide) (by decide)
      (by rw [hzero]; rfl) hfits) ?_
    rintro r k₁ ⟨new, f₂, hf₁, hS₁, hH₁, ⟨hr, hnil, hfew, hE⟩ | ⟨hr, hM⟩⟩
    · -- No page is left for the tables of the trampoline.
      have hshort : f.length < 3 := by
        have hfew : new.length < (missing k.mem pt TRAMPOLINE).card := hfew
        rw [hroot TRAMPOLINE, Finset.sdiff_empty, card_ways] at hfew
        rw [hnil, List.append_nil] at hf₁
        rw [hf, List.length_cons, hf₁.length_eq]
        omega
      have hkeep : ∀ q ∈ s.held, SamePage s.kmem.mem k₁.mem q := fun q hq =>
        (hsame q hq).trans (hE.frame q (List.mem_cons_of_mem pt hq) (hnot q hq))
      have hnone : ∀ va < VASPACE, pte k₁.mem pt va &&& PTE_V = 0 := by
        intro va _
        rw [hE.pte va, hzero va]
        rfl
      have hperm : (tables k₁.mem pt).Perm (new ++ [pt]) := by
        rw [← htables]
        exact hE.tables
      rw [if_pos (by rw [hr]; decide), wp_bind]
      refine wp_post (uvmfree_empty hpos (by decide) hS₁ hH₁ (hE.links hlinks) hnone) ?_
      intro _ k₂ hF
      rw [wp_pure]
      refine .inl ⟨rfl, hshort, hF.intact ?_ ?_ hkeep⟩
      · rw [hf]
        refine (hf₁.cons pt).trans ?_
        refine List.Perm.trans ?_ (hperm.append_right f₂).symm
        rw [List.append_assoc]
        exact List.perm_middle.symm
      · refine List.Perm.trans ?_ (hperm.append_right s.held).symm
        rw [List.append_assoc]
        exact .refl _
    · -- The trapframe needs no table of its own.
      have hinvalid : pte k₁.mem pt TRAPFRAME &&& PTE_V = 0 := by
        rw [hM.pte _ (by decide), if_neg trapframe_ne, hzero]
        rfl
      have hmissing : missing k₁.mem pt TRAPFRAME = ∅ := by
        rw [hM.missing, missing_trapframe, Finset.sdiff_self]
      rw [if_neg (by rw [hr]; decide), wp_bind]
      refine wp_post (mappages_page (s := ⟨k₁, new ++ pt :: s.held⟩) hS₁ hH₁ (by decide)
        (by decide) hinvalid hfits') ?_
      rintro r' k₂ ⟨new', f₃, hf₂, hS₂, hH₂, ⟨-, -, hcard, -⟩ | ⟨hr', hM'⟩⟩
      · have hcard : new'.length < (missing k₁.mem pt TRAPFRAME).card := hcard
        rw [hmissing, Finset.card_empty] at hcard
        omega
      · rw [if_neg (by rw [hr']; decide), wp_pure]
        have hmade := made_of_mapped hspace.split hf hf₁ hS₁ htables hlinks hzero hsame hM hmissing
          hf₂ hS₂ hH₂ hM' hleaf hleaf'
        have hlen : (new ++ [pt]).length = 3 := by
          have hcount : new.length = (missing k.mem pt TRAMPOLINE).card := hM.count
          rw [hroot TRAMPOLINE, Finset.sdiff_empty, card_ways] at hcount
          rw [List.length_append, hcount]
          rfl
        refine .inr ⟨hpt, ⟨?_, ?_⟩, fun va => ?_, _, _, hlen, hmade⟩
        · rw [hM'.pte _ (by decide), if_neg (Ne.symm trapframe_ne)]
          show pte k₁.mem pt TRAMPOLINE = _
          rw [hM.pte _ (by decide), if_pos rfl]
        · rw [hM'.pte _ (by decide), if_pos rfl]
        · rw [hM'.missing va]
          show missing k₁.mem pt va \ missing k₁.mem pt TRAPFRAME = _
          rw [hmissing, Finset.sdiff_empty, hM.missing va]
          show missing k.mem pt va \ missing k.mem pt TRAMPOLINE = _
          rw [hroot va, hroot TRAMPOLINE, Finset.sdiff_empty, Finset.sdiff_empty]

/-- A new page table that is freed at once. -/
theorem Made.undo {new rest : List Nat} {k k' : Kmem} (h : Made kend s f pt new rest k)
    (hF : Freed kend ⟨k, new ++ s.held⟩ rest (Mem.tables k.mem pt) k') : Intact kend s f k' :=
  hF.intact (h.free.trans (h.tables.symm.append_right rest))
    (h.tables.symm.append_right s.held) h.same

end Xv6.Proofs.Mem
