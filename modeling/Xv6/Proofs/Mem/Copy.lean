import Xv6.Proofs.Mem.ProcTable

/-!
# `Xv6.Proofs.Mem.Copy`: `uvmcopy`

The loop of `uvmcopy` fills the child's address space from page 0 on. Before each round the
child's user pages are those copied so far, which is the `UserSpace` of that size, and a
successful round adds a page to it (`UserSpace.push`). When a round fails, `uvmunmap` takes back
all pages from 0 on, and the child has only more tables than before (`Undone`).

The parent's page table is outstanding and shares no page with the child's, so its entries stay
as they are (`Source`).
-/

set_option autoImplicit false

namespace Xv6.Proofs.Mem

open Lib Lib.Action Kernel

variable {kend : Nat} {s : Pages} {f : List Nat} {old pt : Nat}

/-! ### User memory page by page -/

variable {a e pg : Nat} {l new f₂ : List Nat} {k k₂ : Kmem}

/-- A page is mapped at the end of the user memory. -/
theorem UserSpace.push (h : UserSpace kend s f pt a l) (hmod : a % PGSIZE = 0)
    (ha : a < TRAPFRAME) (hfresh : pg ∉ s.held)
    (hsame : ∀ q ∈ s.held, SamePage s.kmem.mem k.mem q)
    (hM : Mapped ⟨k, pg :: s.held⟩ pt a e new k₂.mem) (hleaf : Leaf e pg)
    (hS₂ : Split kend ⟨k₂, new ++ pg :: s.held⟩ f₂) (hH₂ : Held ⟨k₂, new ++ pg :: s.held⟩ pt) :
    UserSpace kend ⟨k₂, new ++ pg :: s.held⟩ f₂ pt (a + PGSIZE) (l ++ [pg]) := by
  have hpg : PGSIZE = 4096 := rfl
  have htf : TRAPFRAME = 67108862 * 4096 := rfl
  have hmax : MAXVA = 274877906944 := rfl
  have hsize : l.length * PGSIZE = a := h.size.trans (round_aligned hmod)
  have hnext : PGROUNDUP (a + PGSIZE) = a + PGSIZE :=
    round_aligned (by rw [Nat.add_mod_right]; exact hmod)
  obtain ⟨htables, -, hptes, -⟩ := table_same pt fun x hx => hsame x (h.held.held x hx)
  have hpte₂ : ∀ va < VASPACE, pte k₂.mem pt va =
      if va / PGSIZE = a / PGSIZE then e else pte s.kmem.mem pt va := by
    intro va hva
    rw [← hptes va]
    exact hM.pte va hva
  have htables₂ : ∀ d ∈ pg :: s.held, d ∉ tables s.kmem.mem pt → d ∉ tables k₂.mem pt :=
    fun d hd hdt => hM.not_table hS₂.nodup_held hd fun hin => hdt (htables ▸ hin)
  refine ⟨hS₂, hH₂, ?_, fun i d hd => ?_, fun va hlo hhi => ?_, ?_, fun d hd => ?_, fun d hd => ?_⟩
  · rw [hnext, List.length_append, List.length_singleton, Nat.succ_mul, hsize]
  · show Leaf (pte k₂.mem pt _) d
    by_cases hi : i < l.length
    · rw [List.getElem?_append_left hi] at hd
      have hbelow : (i + 1) * PGSIZE ≤ l.length * PGSIZE := Nat.mul_le_mul_right _ hi
      rw [Nat.succ_mul, hsize] at hbelow
      rw [hpte₂ _ (lt_vaspace (by omega)), if_neg (by rw [hpg] at hmod hbelow ⊢; omega)]
      exact h.leaves i d hd
    · rw [List.getElem?_append_right (by omega)] at hd
      obtain ⟨hzero, hd⟩ := List.getElem?_eq_some_iff.mp hd
      have hi' : i = l.length := by
        rw [List.length_singleton] at hzero
        omega
      rw [List.getElem_singleton] at hd
      rw [hi', hsize, Nat.zero_add, hpte₂ a (lt_vaspace (by omega)), if_pos rfl, ← hd]
      exact hleaf
  · show pte k₂.mem pt va &&& PTE_V = 0
    rw [hnext] at hlo
    rw [hpte₂ va (lt_vaspace (by omega)), if_neg (by rw [hpg] at hmod hlo ⊢; omega)]
    exact h.beyond va (by rw [round_aligned hmod]; omega) hhi
  · refine (List.perm_append_singleton pg l).nodup_iff.mpr (List.nodup_cons.mpr ⟨?_, h.nodup⟩)
    exact fun hm => hfresh (h.owned pg hm)
  · refine List.mem_append_right _ ?_
    rcases List.mem_append.mp hd with hd | hd
    · exact List.mem_cons_of_mem pg (h.owned d hd)
    · rw [List.mem_singleton.mp hd]
      exact List.mem_cons_self
  · rcases List.mem_append.mp hd with hd | hd
    · exact htables₂ d (List.mem_cons_of_mem pg (h.owned d hd)) (h.apart d hd)
    · rw [List.mem_singleton.mp hd]
      exact htables₂ pg List.mem_cons_self fun hpt => hfresh (h.held.held pg hpt)

variable {sz : Nat} {rest : List Nat}

/-- Only tables were added. -/
theorem UserSpace.extend (h : UserSpace kend s f pt sz l) (hG : Gave kend s f pt new rest k) :
    UserSpace kend ⟨k, new ++ s.held⟩ rest pt sz l := by
  have hptes := hG.extended.pte
  refine ⟨hG.split, hG.held, h.size, h.leaves.congr fun i _ => hptes _, fun va hlo hhi => ?_,
    h.nodup, fun d hd => List.mem_append_right _ (h.owned d hd), fun d hd hdt => ?_⟩
  · show pte k.mem pt va &&& PTE_V = 0
    rw [hptes va]
    exact h.beyond va hlo hhi
  · rcases List.mem_append.mp ((hG.extended.tables.mem_iff).mp hdt) with hin | hin
    · exact (List.nodup_append.mp hG.split.nodup_held).2.2 d hin d (h.owned d hd) rfl
    · exact h.apart d hd hin

/-- `uvmunmap` of all user pages. -/
theorem UserSpace.unmap (hend : KERNBASE ≤ kend) (h : UserSpace kend s f pt a l)
    (hmod : a % PGSIZE = 0) :
    wp (uvmunmap kend pt 0 (a / PGSIZE) true) (fun _ k => ∃ kept, s.held.Perm (l ++ kept) ∧
      Split kend ⟨k, kept⟩ (l.reverse ++ f) ∧ Held ⟨k, kept⟩ pt ∧ Cleared s pt 0 l k.mem)
      (fun _ => False) s.kmem := by
  have hpg : PGSIZE = 4096 := rfl
  have hram : PHYSTOP - KERNBASE = 134217728 := rfl
  have hmax : MAXVA = 274877906944 := rfl
  have hpos : 0 < kend := Nat.lt_of_lt_of_le (by decide) hend
  have hsize : l.length * PGSIZE = a := h.size.trans (round_aligned hmod)
  have hsmall := h.small hend
  have hcount : ((0 + a / PGSIZE * PGSIZE) % 2 ^ 64 - 0) / PGSIZE = 0 + l.length := by
    rw [← hsize, Nat.mul_div_cancel _ (by decide), Nat.zero_add, Nat.sub_zero,
      Nat.mod_eq_of_lt (by omega), Nat.mul_div_cancel _ (by decide), Nat.zero_add]
  rw [uvmunmap, if_neg (by decide), hcount]
  refine uvmunmapLoop_free hpos h.split h.held (by decide) (by omega) h.leaves h.nodup h.owned
    h.apart ?_
  intro k kept hperm hS hH hC
  rw [uvmunmapLoop, wp_pure]
  exact ⟨kept, hperm, hS, hH, hC⟩

/-! ### Undoing -/

/-- The user pages `l` were unmapped and freed. The tables `new` were added. -/
structure Undone (kend : Nat) (s : Pages) (f : List Nat) (pt : Nat) (l new rest kept : List Nat)
    (k : Kmem) : Prop where
  held : s.held.Perm (l ++ kept)
  free : (l ++ f).Perm (new ++ rest)
  split : Split kend ⟨k, new ++ kept⟩ rest
  tree : Held ⟨k, new ++ kept⟩ pt
  tables : (tables k.mem pt).Perm (new ++ Mem.tables s.kmem.mem pt)
  links : Links s.kmem.mem pt → Links k.mem pt
  user : ∀ va < TRAPFRAME, pte k.mem pt va &&& PTE_V = 0
  upper : ∀ va < VASPACE, TRAPFRAME ≤ va → pte k.mem pt va = pte s.kmem.mem pt va
  frame : ∀ q ∈ kept, q ∉ Mem.tables s.kmem.mem pt → SamePage s.kmem.mem k.mem q

/-- The outstanding pages are those of a list and others. -/
theorem exists_kept {held : List Nat} (hl : l.Nodup) (h : ∀ d ∈ l, d ∈ held) :
    ∃ kept, held.Perm (l ++ kept) :=
  ⟨held.diff l, (List.subperm_append_diff_self_of_count_le
    (List.subperm_ext_iff.mp (hl.subperm h))).symm⟩

/-- After a failed round the pages before it are unmapped. -/
theorem Gave.undo (hend : KERNBASE ≤ kend) (h : UserSpace kend s f pt a l) (hmod : a % PGSIZE = 0)
    (hG : Gave kend s f pt new rest k) :
    wp (uvmunmap kend pt 0 (a / PGSIZE) true)
      (fun _ k' => ∃ new rest kept, Undone kend s f pt l new rest kept k') (fun _ => False) k := by
  have hpg : PGSIZE = 4096 := rfl
  have htf : TRAPFRAME < VASPACE := by decide
  have hsize : l.length * PGSIZE = a := h.size.trans (round_aligned hmod)
  have hspace := h.extend hG
  have htop : a ≤ TRAPFRAME := by
    have hsmall := h.small hend
    rw [hsize] at hsmall
    exact hsmall.trans (by decide)
  refine wp_post (hspace.unmap hend hmod) ?_
  rintro _ k' ⟨kept', hperm, hS, hH, hC⟩
  -- The pages that are kept are those outstanding before without `l`, and the new tables.
  obtain ⟨kept, hkept⟩ := exists_kept h.nodup h.owned
  have hkeep : kept'.Perm (new ++ kept) := by
    have hperm : (new ++ s.held).Perm (l ++ kept') := hperm
    refine (List.perm_append_left_iff l).mp (hperm.symm.trans ?_)
    refine (hkept.append_left new).trans ?_
    refine List.perm_iff_count.mpr fun x => ?_
    simp only [List.count_append]
    omega
  have htables : (tables k'.mem pt).Perm (new ++ tables s.kmem.mem pt) := by
    rw [hC.tables]
    exact hG.extended.tables
  refine ⟨new, l.reverse ++ rest, kept, hkept, ?_, hS.perm hkeep,
    hH.of_mem fun q hq => hkeep.mem_iff.mp hq, htables, ?_, fun va hva => ?_, fun va hva hlo => ?_,
    fun q hq hqt => ?_⟩
  · refine (hG.free.append_left l).trans ?_
    refine List.perm_iff_count.mpr fun x => ?_
    simp only [List.count_append, List.count_reverse]
    omega
  · exact fun hl => hC.links (hG.extended.links hl)
  · rw [hC.pte va (by omega), hsize]
    by_cases hlo : va < a
    · rw [if_pos (by omega)]
      rfl
    · rw [if_neg (by omega)]
      exact hspace.beyond va (by rw [round_aligned hmod]; omega) hva
  · rw [hC.pte va hva, hsize, if_neg (by omega)]
    exact hG.extended.pte va
  · have hq' : q ∈ s.held := hkept.mem_iff.mpr (List.mem_append_right _ hq)
    have hnodup : (l ++ kept).Nodup := hkept.nodup_iff.mp
      (List.nodup_append.mp hG.split.nodup_held).2.1
    have hql : q ∉ l := fun hm => (List.nodup_append.mp hnodup).2.2 q hm q hq rfl
    refine (hG.extended.frame q hq' hqt).trans (hC.frame q (List.mem_append_right _ hq') hql ?_)
    show q ∉ tables k.mem pt
    intro hm
    rcases List.mem_append.mp ((hG.extended.tables.mem_iff).mp hm) with hin | hin
    · exact (List.nodup_append.mp hG.split.nodup_held).2.2 q hin q hq' rfl
    · exact hqt hin

/-- A round that succeeds, and rounds after it that are undone. -/
theorem Undone.cons {f₁ new₁ kept : List Nat} {k₁ : Kmem} (hH : Held s pt) (hl : l.Nodup)
    (howned : ∀ d ∈ l, d ∈ s.held) (hf : f = pg :: f₁) (hf₁ : f₁.Perm (new₁ ++ f₂))
    (ha : a < TRAPFRAME) (hsame : ∀ q ∈ s.held, SamePage s.kmem.mem k₁.mem q)
    (hM : Mapped ⟨k₁, pg :: s.held⟩ pt a e new₁ k₂.mem)
    (hS₂ : Split kend ⟨k₂, new₁ ++ pg :: s.held⟩ f₂)
    (hU : Undone kend ⟨k₂, new₁ ++ pg :: s.held⟩ f₂ pt (l ++ [pg]) new rest kept k) :
    ∃ kept, Undone kend s f pt l (new ++ new₁) rest kept k := by
  have hpg : PGSIZE = 4096 := rfl
  have htf : TRAPFRAME = 67108862 * 4096 := rfl
  obtain ⟨htables, -, hptes, -⟩ := table_same pt fun x hx => hsame x (hH.held x hx)
  obtain ⟨kept', hkept⟩ := exists_kept hl howned
  have hkeep : kept.Perm (new₁ ++ kept') := by
    have hperm : (new₁ ++ pg :: s.held).Perm (l ++ [pg] ++ kept) := hU.held
    refine (List.perm_append_left_iff (l ++ [pg])).mp (hperm.symm.trans ?_)
    refine ((hkept.cons pg).append_left new₁).trans ?_
    refine List.perm_iff_count.mpr fun x => ?_
    simp only [List.count_append, List.count_cons, List.count_nil]
    omega
  have hpages : (new ++ kept).Perm (new ++ new₁ ++ kept') := by
    rw [List.append_assoc]
    exact hkeep.append_left new
  have hnot : ∀ q ∈ s.held, q ∉ Mem.tables s.kmem.mem pt → q ∉ Mem.tables k₂.mem pt :=
    fun q hq hqt => hM.not_table hS₂.nodup_held (List.mem_cons_of_mem pg hq)
      fun hin => hqt (htables ▸ hin)
  refine ⟨kept', hkept, ?_, hU.split.perm hpages,
    hU.tree.of_mem fun q hq => hpages.mem_iff.mp hq, ?_, fun hl => ?_, hU.user,
    fun va hva hlo => ?_, fun q hq hqt => ?_⟩
  · have hfree : (l ++ [pg] ++ f₂).Perm (new ++ rest) := hU.free
    rw [hf]
    refine ((hf₁.cons pg).append_left l).trans ?_
    have hback := hfree.append_left new₁
    refine List.Perm.trans ?_ (hback.trans ?_)
    · refine List.perm_iff_count.mpr fun x => ?_
      simp only [List.count_append, List.count_cons, List.count_nil]
      omega
    · refine List.perm_iff_count.mpr fun x => ?_
      simp only [List.count_append]
      omega
  · have hold : (Mem.tables k₂.mem pt).Perm (new₁ ++ Mem.tables s.kmem.mem pt) := by
      rw [← htables]
      exact hM.tables
    rw [List.append_assoc]
    exact hU.tables.trans (hold.append_left new)
  · exact hU.links (hM.links (links_same (fun x hx => hsame x (hH.held x hx)) hl))
  · rw [hU.upper va hva hlo]
    show pte k₂.mem pt va = _
    rw [hM.pte va hva, if_neg (by rw [hpg]; omega)]
    exact hptes va
  · have hq' : q ∈ s.held := hkept.mem_iff.mpr (List.mem_append_right _ hq)
    have hqt₁ : q ∉ Mem.tables k₁.mem pt := by
      rw [htables]
      exact hqt
    exact ((hsame q hq').trans (hM.frame q (List.mem_cons_of_mem pg hq') hqt₁)).trans
      (hU.frame q (hkeep.mem_iff.mpr (List.mem_append_right _ hq)) (hnot q hq' hqt))

/-! ### `uvmcopy` -/

/-- The parent's page table, seen from the child's: it is outstanding and shares no page with
it, and what it maps below `top` are leaves. -/
structure Source (s : Pages) (old pt top : Nat) : Prop where
  held : Held s old
  apart : ∀ q ∈ tables s.kmem.mem old, q ∉ tables s.kmem.mem pt
  leaf : ∀ va < top, pte s.kmem.mem old va &&& PTE_V ≠ 0 → PTE_FLAGS (pte s.kmem.mem old va) ≠ PTE_V

/-- A round for the child leaves the parent's page table. -/
theorem Source.step {top : Nat} (h : Source s old pt top) (hH : Held s pt)
    (hsame : ∀ q ∈ s.held, SamePage s.kmem.mem k.mem q)
    (hM : Mapped ⟨k, pg :: s.held⟩ pt a e new k₂.mem)
    (hS₂ : Split kend ⟨k₂, new ++ pg :: s.held⟩ f₂) :
    Source ⟨k₂, new ++ pg :: s.held⟩ old pt top ∧
      ∀ va, pte k₂.mem old va = pte s.kmem.mem old va := by
  obtain ⟨htables, -, -, -⟩ := table_same pt fun x hx => hsame x (hH.held x hx)
  have hkeep : ∀ q ∈ tables s.kmem.mem old, SamePage s.kmem.mem k₂.mem q := by
    intro q hq
    have hqt : q ∉ tables k.mem pt := by
      rw [htables]
      exact h.apart q hq
    have hqheld := h.held.held q hq
    exact (hsame q hqheld).trans (hM.frame q (List.mem_cons_of_mem pg hqheld) hqt)
  obtain ⟨htables', -, hptes, -⟩ := table_same old hkeep
  refine ⟨⟨h.held.of_same htables' fun q hq => ?_, fun q hq hqt => ?_, fun va hva => ?_⟩, hptes⟩
  · exact List.mem_append_right _ (List.mem_cons_of_mem pg (h.held.held q hq))
  · have hq : q ∈ tables k₂.mem old := hq
    rw [htables'] at hq
    rcases List.mem_append.mp ((hM.tables.mem_iff).mp hqt) with hin | hin
    · exact (List.nodup_append.mp hS₂.nodup_held).2.2 q hin q
        (List.mem_cons_of_mem pg (h.held.held q hq)) rfl
    · have hin : q ∈ tables k.mem pt := hin
      rw [htables] at hin
      exact h.apart q hq hin
  · show pte k₂.mem old va &&& PTE_V ≠ 0 → PTE_FLAGS (pte k₂.mem old va) ≠ PTE_V
    rw [hptes va]
    exact h.leaf va hva

/-- The flags of a valid entry have the bit. -/
theorem flags_valid (h : e &&& PTE_V ≠ 0) : PTE_FLAGS e ||| PTE_V = PTE_FLAGS e := by
  have hodd : PTE_FLAGS e % 2 = 1 := by
    have h : e &&& 1 ≠ 0 := h
    rw [Nat.and_one_is_mod] at h
    unfold PTE_FLAGS
    omega
  refine Nat.eq_of_testBit_eq fun i => ?_
  rw [Nat.testBit_or]
  cases i with
  | zero =>
    rw [Nat.testBit_zero, hodd]
    rfl
  | succ i =>
    have hbit : PTE_V.testBit (i + 1) = false :=
      Nat.testBit_lt_two_pow (Nat.one_lt_two_pow (by omega))
    rw [hbit, Bool.or_false]

/-- The pages of the parent from `a` on were copied to the pages `l`, with their flags. What the
copies hold is known where the parent's page is outstanding and no table of the child. -/
structure Cloned (kend : Nat) (s : Pages) (f : List Nat) (old pt a : Nat) (l new rest : List Nat)
    (k : Kmem) : Prop where
  joined : Joined kend s f pt a l new rest k
  leaf : ∀ i d, l[i]? = some d → pte k.mem pt (a + i * PGSIZE) =
    leafPte d (PTE_FLAGS (pte s.kmem.mem old (a + i * PGSIZE)))
  bytes : ∀ i d, l[i]? = some d → PTE2PA (pte s.kmem.mem old (a + i * PGSIZE)) ∈ s.held →
    PTE2PA (pte s.kmem.mem old (a + i * PGSIZE)) ∉ tables s.kmem.mem pt →
    ∀ b < PGSIZE, k.mem (d + b) = s.kmem.mem (PTE2PA (pte s.kmem.mem old (a + i * PGSIZE)) + b)

/-- A round that succeeds, and the rounds after it. -/
theorem Cloned.cons {pg a : Nat} {f₁ f₂ l new new₁ rest : List Nat} {k k₁ k₂ : Kmem}
    (hfresh : pg ∉ s.held) (hH : Held s pt) (hf : f = pg :: f₁) (hf₁ : f₁.Perm (new₁ ++ f₂))
    (hS₂ : Split kend ⟨k₂, new₁ ++ pg :: s.held⟩ f₂) (hmod : a % PGSIZE = 0) (ha : a < MAXVA)
    (hsame : ∀ q ∈ s.held, SamePage s.kmem.mem k₁.mem q)
    (hbytes : PTE2PA (pte s.kmem.mem old a) ∈ s.held →
      ∀ b < PGSIZE, k₁.mem (pg + b) = s.kmem.mem (PTE2PA (pte s.kmem.mem old a) + b))
    (hptes : ∀ va, pte k₂.mem old va = pte s.kmem.mem old va)
    (hM : Mapped ⟨k₁, pg :: s.held⟩ pt a (leafPte pg (PTE_FLAGS (pte s.kmem.mem old a))) new₁ k₂.mem)
    (hC : Cloned kend ⟨k₂, new₁ ++ pg :: s.held⟩ f₂ old pt (a + PGSIZE) l new rest k) :
    Cloned kend s f old pt a (pg :: l) (new ++ new₁) rest k := by
  obtain ⟨htables, -, -, -⟩ := table_same pt fun x hx => hsame x (hH.held x hx)
  have hheld : (⟨k₁, pg :: s.held⟩ : Pages).held = pg :: s.held := rfl
  obtain ⟨hJ, hentry, hpage⟩ := hC.joined.cons hfresh hH hf hf₁ hheld rfl hS₂.nodup_held hmod ha
    hsame hM
  have hplace : ∀ i, a + PGSIZE + i * PGSIZE = a + (i + 1) * PGSIZE := by
    intro i
    rw [Nat.succ_mul]
    omega
  refine ⟨hJ, fun i d hd => ?_, fun i d hd hq hqt b hb => ?_⟩
  · cases i with
    | zero =>
      obtain rfl : pg = d := Option.some.inj hd
      rw [Nat.zero_mul, Nat.add_zero]
      exact hentry
    | succ i =>
      rw [← hplace, ← hptes]
      exact hC.leaf i d hd
  · cases i with
    | zero =>
      obtain rfl : pg = d := Option.some.inj hd
      rw [Nat.zero_mul, Nat.add_zero] at hq ⊢
      rw [hpage _ (Nat.le_add_right _ _) (by omega)]
      exact hbytes hq b hb
    | succ i =>
      -- The parent's page is the one that the later round reads, and it has not changed.
      rw [← hplace] at hq hqt ⊢
      have hq₁ := List.mem_cons_of_mem pg hq
      have hqt₁ : PTE2PA (pte s.kmem.mem old (a + PGSIZE + i * PGSIZE)) ∉ tables k₁.mem pt := by
        rw [htables]
        exact hqt
      have hlater := hC.bytes i d hd
      simp only [hptes] at hlater
      rw [hlater (List.mem_append_right _ hq₁) (hM.not_table hS₂.nodup_held hq₁ hqt₁) b hb]
      exact ((hsame _ hq).trans (hM.frame _ hq₁ hqt₁)) _ (Nat.le_add_right _ _) (by omega)

/-- The loop of `uvmcopy`, after the pages `l` were copied: when it fails, everything is
undone, and it panics only at a page that the parent does not have. -/
theorem uvmcopyLoop_spec (hend : KERNBASE ≤ kend) {top : Nat} (n : Nat) {s : Pages} {f : List Nat}
    (h : UserSpace kend s f pt a l) (hmod : a % PGSIZE = 0) (hsrc : Source s old pt top)
    (htop : a + n * PGSIZE ≤ top) :
    wp (uvmcopyLoop kend old pt n a)
      (fun r k => r = 0 ∧ (∃ l' new rest, l'.length = n ∧ Cloned kend s f old pt a l' new rest k) ∨
        r = -1 ∧ ∃ new rest kept, Undone kend s f pt l new rest kept k)
      (fun _ => ∃ i < n, pte s.kmem.mem old (a + i * PGSIZE) &&& PTE_V = 0) s.kmem := by
  have hpg : PGSIZE = 4096 := rfl
  have hpos : 0 < kend := Nat.lt_of_lt_of_le (by decide) hend
  induction n generalizing s f a l with
  | zero =>
    refine .inl ⟨rfl, [], [], f, rfl, Joined.refl h.split h.held, ?_, ?_⟩
    · exact fun i d hd => absurd hd (by simp)
    · exact fun i d hd => absurd hd (by simp)
  | succ n ih =>
    rw [Nat.succ_mul] at htop
    have hsize : l.length * PGSIZE = a := h.size.trans (round_aligned hmod)
    have hlow : a < TRAPFRAME := by
      have hsmall := h.small hend
      rw [hsize] at hsmall
      exact Nat.lt_of_le_of_lt hsmall (by decide)
    have ha : a < MAXVA := hlow.trans (by decide)
    have hnone : pte s.kmem.mem old a &&& PTE_V = 0 →
        ∃ i < n + 1, pte s.kmem.mem old (a + i * PGSIZE) &&& PTE_V = 0 := by
      intro hinvalid
      refine ⟨0, Nat.succ_pos n, ?_⟩
      rw [Nat.zero_mul, Nat.add_zero]
      exact hinvalid
    rw [uvmcopyLoop, wp_bind, wp_walk_find ha]
    cases hq : table s.kmem.mem old a 0 with
    | none =>
      refine hnone ?_
      rw [pte_of_none hq]
      rfl
    | some q =>
      show wp (readPte (q + 8 * PX 0 a) >>= _) _ _ _
      rw [wp_bind, readPte, wp_read, ← pte_of_table hq]
      by_cases hvalid : pte s.kmem.mem old a &&& PTE_V = 0
      · rw [if_pos hvalid]
        exact hnone hvalid
      · have hflags : PTE_FLAGS (pte s.kmem.mem old a) ||| PTE_V ≠ PTE_V := by
          rw [flags_valid hvalid]
          exact hsrc.leaf a (by rw [hpg] at htop; omega) hvalid
        have hperm : PTE_FLAGS (pte s.kmem.mem old a) < 1024 := Nat.mod_lt _ (by decide)
        rw [if_neg hvalid, wp_bind]
        refine wp_mono (kalloc_page h.split) ?_ fun _ => False.elim
        rintro pg k (⟨hf, hzero, hk⟩ | ⟨f₁, hf, hne, hSk, hmem⟩)
        · -- No page is left.
          rw [if_pos hzero, wp_bind, hk]
          have hG : Gave kend s f pt [] f s.kmem :=
            ⟨.refl _, h.split, h.held, Extended.refl s pt⟩
          refine wp_mono (hG.undo hend h hmod) ?_ fun _ => False.elim
          intro _ k' hU
          rw [wp_pure]
          exact .inr ⟨rfl, hU⟩
        · rw [if_neg hne, wp_bind, memmove, wp_modify, wp_bind]
          have hout : ∀ b, ¬ (pg ≤ b ∧ b < pg + PGSIZE) →
              k.mem.copy pg (PTE2PA (pte s.kmem.mem old a)) PGSIZE b = k.mem b :=
            fun b hb => if_neg hb
          have hcopy : ∀ b < PGSIZE,
              k.mem.copy pg (PTE2PA (pte s.kmem.mem old a)) PGSIZE (pg + b) =
                k.mem (PTE2PA (pte s.kmem.mem old a) + b) := by
            intro b hb
            unfold Memory.copy
            rw [if_pos (by omega), Nat.add_sub_cancel_left]
          generalize k.mem.copy pg (PTE2PA (pte s.kmem.mem old a)) PGSIZE = m₁ at hout hcopy ⊢
          obtain ⟨hS₁, hsame⟩ := fresh_page m₁ hSk hmem hout
          obtain ⟨htables, -, hptes, -⟩ := table_same pt fun x hx =>
            hsame x (h.held.held x hx)
          have hpool := hSk.outstanding (List.mem_cons_self (a := pg))
          obtain ⟨hleaf, hfits⟩ := leaf_leafPte hpool.1 hpool.lt hperm
            hflags
          have hfresh : pg ∉ s.held := (List.nodup_cons.mp hSk.nodup_held).1
          have hinvalid : pte m₁ pt a &&& PTE_V = 0 := by
            rw [hptes a]
            exact h.beyond a (by rw [round_aligned hmod]) hlow
          have hH₁ : Held ⟨{ k with mem := m₁ }, pg :: s.held⟩ pt :=
            h.held.of_same htables fun q hq => List.mem_cons_of_mem pg (h.held.held q hq)
          refine wp_mono (mappages_page hS₁ hH₁ hmod ha hinvalid hfits) ?_ fun _ => False.elim
          rintro r k₂ ⟨new₁, f₂, hf₁, hS₂, hH₂, ⟨hr, hnil, -, hE⟩ | ⟨hr, hM⟩⟩
          · -- No page is left for a table.
            have hf₁ : f₁.Perm new₁ := by rwa [hnil, List.append_nil] at hf₁
            rw [hnil] at hS₂
            rw [if_pos (by rw [hr]; decide), wp_bind]
            refine wp_mono (gave_back hpos h.held hf hf₁ rfl hsame hS₂ hE) ?_
              fun _ => False.elim
            intro _ k₃ hG
            rw [wp_bind]
            refine wp_mono (hG.undo hend h hmod) ?_ fun _ => False.elim
            intro _ k' hU
            rw [wp_pure]
            exact .inr ⟨rfl, hU⟩
          · -- The page joins those copied.
            rw [if_neg (by rw [hr]; decide)]
            have hspace := h.push hmod hlow hfresh hsame hM hleaf hS₂ hH₂
            obtain ⟨hsrc₂, hptes₂⟩ := hsrc.step h.held hsame hM hS₂
            refine wp_mono (ih hspace (by rw [Nat.add_mod_right]; exact hmod) hsrc₂
              (by omega)) ?_ ?_
            · rintro r' k' (⟨hr', l', new, rest, hlen, hC⟩ | ⟨hr', new, rest, kept, hU⟩)
              · refine .inl ⟨hr', pg :: l', new ++ new₁, rest, by rw [← hlen]; rfl, ?_⟩
                refine hC.cons hfresh h.held hf hf₁ hS₂ hmod ha hsame (fun hq b hb => ?_) hptes₂
                  hM
                refine (hcopy b hb).trans ?_
                have hne : PTE2PA (pte s.kmem.mem old a) ≠ pg := fun he => hfresh (he ▸ hq)
                have hpages := hpool.apart (h.split.outstanding hq) (Ne.symm hne)
                exact hmem _ (by omega)
              · obtain ⟨kept', hU'⟩ := hU.cons h.held h.nodup h.owned hf hf₁ hlow hsame hM hS₂
                exact .inr ⟨hr', _, _, kept', hU'⟩
            · rintro _ ⟨i, hi, hinvalid⟩
              refine ⟨i + 1, by omega, ?_⟩
              have hinvalid : pte k₂.mem old (a + PGSIZE + i * PGSIZE) &&& PTE_V = 0 := hinvalid
              rw [hptes₂] at hinvalid
              rw [Nat.succ_mul, Nat.add_comm (i * PGSIZE), ← Nat.add_assoc]
              exact hinvalid

/-- A new page table to which a copy failed: it is still a new one. -/
theorem Made.uncopied {new' rest' kept : List Nat} {k' : Kmem} (h : Made kend s f pt new rest k)
    (hU : Undone kend ⟨k, new ++ s.held⟩ rest pt [] new' rest' kept k') :
    Made kend s f pt (new' ++ new) rest' k' := by
  have hkept : (new ++ s.held).Perm kept := hU.held
  have hfree : rest.Perm (new' ++ rest') := hU.free
  have hpages : (new' ++ kept).Perm (new' ++ new ++ s.held) := by
    rw [List.append_assoc]
    exact hkept.symm.append_left new'
  have htables : (Mem.tables k'.mem pt).Perm (new' ++ new) :=
    hU.tables.trans (h.tables.append_left new')
  have hupper : ∀ va < VASPACE, TRAPFRAME ≤ va → pte k'.mem pt va = pte k.mem pt va := hU.upper
  refine ⟨?_, hU.split.perm hpages, ⟨hU.tree.of_mem fun q hq => hpages.mem_iff.mp hq,
    hU.links h.plain.links, ?_, ?_, fun va hva htr htf => ?_⟩, htables, fun q hq => ?_⟩
  · refine h.free.trans ((hfree.append_left new).trans ?_)
    refine List.perm_iff_count.mpr fun x => ?_
    simp only [List.count_append]
    omega
  · show ∃ d, Leaf (pte k'.mem pt TRAMPOLINE) d
    rw [hupper _ (by decide) (by decide)]
    exact h.plain.trampoline
  · show ∃ d, Leaf (pte k'.mem pt TRAPFRAME) d
    rw [hupper _ (by decide) (Nat.le_refl _)]
    exact h.plain.trapframe
  · show pte k'.mem pt va &&& PTE_V = 0
    by_cases hlo : va < TRAPFRAME
    · exact hU.user va hlo
    · rw [hupper va hva (by omega)]
      exact h.plain.other va hva htr htf
  · have hnew : q ∉ Mem.tables k.mem pt := fun hqt =>
      (List.nodup_append.mp h.split.nodup_held).2.2 q (h.tables.mem_iff.mp hqt) q hq rfl
    have hq' : q ∈ kept := hkept.mem_iff.mp (List.mem_append_right _ hq)
    exact (h.same q hq).trans (hU.frame q hq' hnew)

/-- `uvmcopy` to a new page table. -/
theorem uvmcopy_made (hend : KERNBASE ≤ kend) {sz : Nat} {new rest : List Nat} {k : Kmem}
    (h : Made kend s f pt new rest k) (hold : Held s old)
    (hleaf : ∀ va < PGROUNDUP sz, pte s.kmem.mem old va &&& PTE_V ≠ 0 →
      PTE_FLAGS (pte s.kmem.mem old va) ≠ PTE_V) :
    wp (uvmcopy kend old pt sz) (fun r k' => r = 0 ∨
      r = -1 ∧ ∃ new rest, Made kend s f pt new rest k') (fun _ => True) k := by
  obtain ⟨htables, -, hptes, -⟩ := table_same old fun x hx => h.same x (hold.held x hx)
  have hspace : UserSpace kend ⟨k, new ++ s.held⟩ rest pt 0 [] := by
    refine ⟨h.split, h.plain.held, rfl, fun i d hd => absurd hd (by simp), fun va _ hva => ?_,
      List.nodup_nil, fun d hd => absurd hd List.not_mem_nil,
      fun d hd => absurd hd List.not_mem_nil⟩
    have hpg : PGSIZE = 4096 := rfl
    have htf : TRAPFRAME = 67108862 * 4096 := rfl
    have htr : TRAMPOLINE = 67108863 * 4096 := rfl
    have hmax : VASPACE = 549755813888 := rfl
    refine h.plain.other va (by omega) ?_ ?_
    · rw [hpg, htr]
      omega
    · rw [hpg, htf]
      omega
  have hsrc : Source ⟨k, new ++ s.held⟩ old pt (PGROUNDUP sz) := by
    refine ⟨hold.of_same htables fun q hq => List.mem_append_right _ (hold.held q hq),
      fun q hq hqt => ?_, fun va hva => ?_⟩
    · have hq : q ∈ Mem.tables k.mem old := hq
      rw [htables] at hq
      exact (List.nodup_append.mp h.split.nodup_held).2.2 q (h.tables.mem_iff.mp hqt) q
        (hold.held q hq) rfl
    · show pte k.mem old va &&& PTE_V ≠ 0 → PTE_FLAGS (pte k.mem old va) ≠ PTE_V
      rw [hptes va]
      exact hleaf va hva
  have hcopy := uvmcopyLoop_spec hend ((sz + PGSIZE - 1) / PGSIZE) hspace (by decide) hsrc
    (by rw [Nat.zero_add]; exact Nat.le_refl _)
  refine wp_mono hcopy ?_ fun _ _ => trivial
  rintro r k' (⟨hr, -⟩ | ⟨hr, new', rest', kept, hU⟩)
  · exact .inl hr
  · exact .inr ⟨hr, _, _, h.uncopied hU⟩

/-! ### A half-made process -/

/-- A trapframe page and a new page table, taken from the freelist. -/
def HalfMade (kend : Nat) (s : Pages) (f : List Nat) (trapframe pt : Nat) (k : Kmem) : Prop :=
  ∃ k₀ f₁ new rest, f = trapframe :: f₁ ∧ trapframe ∉ s.held ∧
    (∀ q ∈ s.held, SamePage s.kmem.mem k₀.mem q) ∧
    Made kend ⟨k₀, trapframe :: s.held⟩ f₁ pt new rest k

/-- `uvmcopy` to a half-made process: when it fails, the process is half-made as before. -/
theorem uvmcopy_half (hend : KERNBASE ≤ kend) {trapframe sz : Nat} {k : Kmem}
    (h : HalfMade kend s f trapframe pt k) (hold : Held s old)
    (hleaf : ∀ va < PGROUNDUP sz, pte s.kmem.mem old va &&& PTE_V ≠ 0 →
      PTE_FLAGS (pte s.kmem.mem old va) ≠ PTE_V) :
    wp (uvmcopy kend old pt sz) (fun r k' => r = 0 ∨ r = -1 ∧ HalfMade kend s f trapframe pt k')
      (fun _ => True) k := by
  obtain ⟨k₀, f₁, new, rest, hf, hfresh, hsame, hmade⟩ := h
  obtain ⟨htables, -, hptes, -⟩ := table_same old fun x hx => hsame x (hold.held x hx)
  have hold₀ : Held ⟨k₀, trapframe :: s.held⟩ old :=
    hold.of_same htables fun q hq => List.mem_cons_of_mem trapframe (hold.held q hq)
  have hleaf₀ : ∀ va < PGROUNDUP sz, pte k₀.mem old va &&& PTE_V ≠ 0 →
      PTE_FLAGS (pte k₀.mem old va) ≠ PTE_V := by
    intro va hva
    rw [hptes va]
    exact hleaf va hva
  refine wp_post (uvmcopy_made hend hmade hold₀ hleaf₀) ?_
  rintro r k' (hr | ⟨hr, new', rest', hmade'⟩)
  · exact .inl hr
  · exact .inr ⟨hr, k₀, f₁, new', rest', hf, hfresh, hsame, hmade'⟩

/-- The trapframe page is given back, and the page table is still a new one. -/
theorem HalfMade.kfree_trapframe (hend : 0 < kend) {trapframe : Nat}
    (h : HalfMade kend s f trapframe pt k) :
    wp (kfree kend trapframe) (fun _ k' => ∃ new rest, Made kend s f pt new rest k')
      (fun _ => False) k := by
  obtain ⟨k₀, f₁, new, rest, hf, hfresh, hsame, hmade⟩ := h
  have hmid : (new ++ trapframe :: s.held).Perm (trapframe :: (new ++ s.held)) := List.perm_middle
  have hin : trapframe ∈ new ++ trapframe :: s.held := hmid.mem_iff.mpr List.mem_cons_self
  have hnodup := hmid.nodup_iff.mp hmade.split.nodup_held
  have hout : trapframe ∉ new ++ s.held := (List.nodup_cons.mp hnodup).1
  have herase : ((new ++ trapframe :: s.held).erase trapframe).Perm (new ++ s.held) :=
    (hmid.erase trapframe).trans (List.Perm.of_eq (List.erase_cons_head ..))
  refine wp_post (kfree_page hmade.split hin hend) ?_
  rintro _ k' ⟨hS, hmem⟩
  have hkeep : ∀ q ∈ new ++ s.held, SamePage k.mem k'.mem q := by
    intro q hq
    have hq' : q ∈ new ++ trapframe :: s.held := hmid.mem_iff.mpr (List.mem_cons_of_mem _ hq)
    exact samePage_of_apart (hmade.split.outstanding hin) (hmade.split.outstanding hq')
      (fun he => hout (he ▸ hq)) hmem
  have hintree : ∀ q ∈ Mem.tables k.mem pt, q ∈ new ++ s.held := fun q hq =>
    List.mem_append_left _ (hmade.tables.mem_iff.mp hq)
  obtain ⟨htables, -, hptes, -⟩ := table_same pt fun x hx => hkeep x (hintree x hx)
  have hplain := hmade.plain
  refine ⟨new, trapframe :: rest, ?_, hS.perm herase, ⟨?_, ?_, ?_, ?_, ?_⟩, ?_, fun q hq => ?_⟩
  · rw [hf]
    exact (hmade.free.cons trapframe).trans List.perm_middle.symm
  · exact hplain.held.of_same htables hintree
  · exact links_same (fun x hx => hkeep x (hintree x hx)) hplain.links
  · show ∃ d, Leaf (pte k'.mem pt TRAMPOLINE) d
    rw [hptes]
    exact hplain.trampoline
  · show ∃ d, Leaf (pte k'.mem pt TRAPFRAME) d
    rw [hptes]
    exact hplain.trapframe
  · intro va hva htr htf
    show pte k'.mem pt va &&& PTE_V = 0
    rw [hptes]
    exact hplain.other va hva htr htf
  · rw [htables]
    exact hmade.tables
  · exact ((hsame q hq).trans (hmade.same q (List.mem_cons_of_mem trapframe hq))).trans
      (hkeep q (List.mem_append_right _ hq))

end Xv6.Proofs.Mem
