import Xv6.Proofs.Mem.Clone
import Xv6.Proofs.Mem.User

/-!
# `Xv6.Proofs.Mem.Lifetime`: an address space from `proc_pagetable` to `proc_freepagetable`

`Space` describes the page table of a process relative to the time before it was made: the pages
that the freelist has lost since then are the tables of the tree and the pages that it maps for
the user, each mapped at one place; the pages that were outstanding are as they were.

`Space.map` is the one way in which it grows: a page from the freelist is mapped below the
trapframe. `uvmalloc`, `uvmcopy` and `uvmfirst` are loops of this step, at whatever addresses they
are called with. `uvmclear` changes a flag. So `Space` holds after every sequence of such calls
(`Builds.space`).

`proc_freepagetable` then undoes everything, if the user pages are those below the size that it is
called with: the loop of `uvmunmap` frees the pages that are mapped, `freewalk` the tables, and
the freelist has the pages that it had before.
-/

set_option autoImplicit false

namespace Xv6.Proofs.Mem

open Lib Lib.Action Kernel

variable {c : SysParam} {kend : Nat} {s : Pages} {f : List Nat} {pt : Nat}

/-! ### Address spaces -/

/-- The page table `pt` and the user pages `l` were made of pages of the freelist `f`. -/
structure Space (kend : Nat) (s : Pages) (f : List Nat) (pt : Nat) (l rest : List Nat)
    (k : Kmem) : Prop where
  free : f.Perm (l ++ tables k.mem pt ++ rest)
  split : Split kend ⟨k, l ++ tables k.mem pt ++ s.held⟩ rest
  links : Links k.mem pt
  leaf : ∀ va < VASPACE, pte k.mem pt va &&& PTE_V ≠ 0 → pte k.mem pt va &&& PTE_RWX ≠ 0
  trampoline : pte k.mem pt TRAMPOLINE &&& PTE_V ≠ 0
  trapframe : pte k.mem pt TRAPFRAME &&& PTE_V ≠ 0
  upper : ∀ va < VASPACE, TRAPFRAME ≤ va → va / PGSIZE ≠ TRAMPOLINE / PGSIZE →
    va / PGSIZE ≠ TRAPFRAME / PGSIZE → pte k.mem pt va &&& PTE_V = 0
  owned : ∀ va < TRAPFRAME, pte k.mem pt va &&& PTE_V ≠ 0 → PTE2PA (pte k.mem pt va) ∈ l
  inj : ∀ va < TRAPFRAME, ∀ va' < TRAPFRAME, pte k.mem pt va &&& PTE_V ≠ 0 →
    pte k.mem pt va' &&& PTE_V ≠ 0 → PTE2PA (pte k.mem pt va) = PTE2PA (pte k.mem pt va') →
    va / PGSIZE = va' / PGSIZE
  used : ∀ d ∈ l, ∃ va < TRAPFRAME, pte k.mem pt va &&& PTE_V ≠ 0 ∧ PTE2PA (pte k.mem pt va) = d
  same : ∀ q ∈ s.held, SamePage s.kmem.mem k.mem q

/-- The pages outstanding with an address space. -/
def spaceHeld (s : Pages) (pt : Nat) (l : List Nat) (k : Kmem) : List Nat :=
  l ++ tables k.mem pt ++ s.held

variable {l rest : List Nat} {k : Kmem}

theorem Space.held (h : Space kend s f pt l rest k) :
    Held ⟨k, spaceHeld s pt l k⟩ pt := by
  refine ⟨?_, fun q hq => List.mem_append_left _ (List.mem_append_right _ hq)⟩
  exact (List.nodup_append.mp (List.nodup_append.mp h.split.nodup_held).1).2.1

/-- A user page is no table, and was not outstanding before. -/
theorem Space.apart (h : Space kend s f pt l rest k) {d : Nat} (hd : d ∈ l) :
    d ∉ tables k.mem pt ∧ d ∉ s.held := by
  have hnodup : (l ++ tables k.mem pt ++ s.held).Nodup := h.split.nodup_held
  rw [List.append_assoc, List.nodup_append] at hnodup
  exact ⟨fun hin => hnodup.2.2 d hd d (List.mem_append_left _ hin) rfl,
    fun hin => hnodup.2.2 d hd d (List.mem_append_right _ hin) rfl⟩

variable {perm : Nat}

/-- An entry has the permissions that it was made with. -/
theorem leafPte_rwx {pa : Nat} (hperm : perm < 1024) (h : perm &&& PTE_RWX ≠ 0) :
    leafPte pa perm &&& PTE_RWX ≠ 0 := by
  have hlow : PTE_FLAGS (leafPte pa perm) = perm ||| PTE_V := by
    rw [leafPte_eq hperm]
    have hlt : perm ||| PTE_V < 1024 := Nat.or_lt_two_pow (n := 10) hperm (by decide)
    unfold PTE_FLAGS
    omega
  rw [flags_and (by decide), hlow, Nat.and_or_distrib_right]
  exact fun hzero => h (Nat.or_eq_zero_iff.mp hzero).1

theorem readable_rwx : (PTE_R ||| PTE_U ||| perm) &&& PTE_RWX ≠ 0 := by
  intro hzero
  have hbit : ((PTE_R ||| PTE_U ||| perm) &&& PTE_RWX).testBit 1 = true := by
    rw [Nat.testBit_and, Nat.testBit_or, show (PTE_R ||| PTE_U).testBit 1 = true by decide,
      Bool.true_or]
    rfl
  rw [hzero, Nat.zero_testBit] at hbit
  cases hbit

variable {trapframe : Nat} {new : List Nat}

/-- The address space of `proc_pagetable`. -/
theorem Made.space (h : Made kend s f pt new rest k) (hfix : FixedPages c trapframe k.mem pt) :
    Space kend s f pt [] rest k := by
  have htr : TRAMPOLINE = 67108863 * 4096 := rfl
  have htf : TRAPFRAME = 67108862 * 4096 := rfl
  have hpg : PGSIZE = 4096 := rfl
  have hmax : VASPACE = 549755813888 := rfl
  have hperm : (new ++ s.held).Perm ([] ++ Mem.tables k.mem pt ++ s.held) :=
    h.tables.symm.append_right s.held
  have hlow : ∀ va < TRAPFRAME, pte k.mem pt va &&& PTE_V = 0 := by
    intro va hva
    refine h.plain.other va (by omega) ?_ ?_
    · rw [hpg, htr]
      omega
    · rw [hpg, htf]
      omega
  refine ⟨h.free.trans (h.tables.symm.append_right rest), h.split.perm hperm, h.plain.links,
    fun va hva hv => ?_, ?_, ?_, fun va hva _ => h.plain.other va hva,
    fun va hva hv => absurd (hlow va hva) hv, fun va hva _ _ hv => absurd (hlow va hva) hv,
    fun d hd => absurd hd List.not_mem_nil, h.same⟩
  · by_cases h1 : va / PGSIZE = TRAMPOLINE / PGSIZE
    · rw [pte_of_page h1, hfix.1]
      exact leafPte_rwx (by decide) (by decide)
    · by_cases h2 : va / PGSIZE = TRAPFRAME / PGSIZE
      · rw [pte_of_page h2, hfix.2]
        exact leafPte_rwx (by decide) (by decide)
      · exact absurd (h.plain.other va hva h1 h2) hv
  · rw [hfix.1]
    exact leafPte_valid
  · rw [hfix.2]
    exact leafPte_valid

variable {a e : Nat} {k₂ : Kmem}

/-- A page of the freelist is mapped below the trapframe. -/
theorem Space.map {pg : Nat} {f₁ f₂ : List Nat} {k₁ : Kmem} (h : Space kend s f pt l rest k)
    (ha : a < TRAPFRAME) (hf : rest = pg :: f₁) (hf₁ : f₁.Perm (new ++ f₂))
    (hsame : ∀ q ∈ spaceHeld s pt l k, SamePage k.mem k₁.mem q)
    (hfree : pte k.mem pt a &&& PTE_V = 0)
    (hM : Mapped ⟨k₁, pg :: spaceHeld s pt l k⟩ pt a e new k₂.mem)
    (hS₂ : Split kend ⟨k₂, new ++ pg :: spaceHeld s pt l k⟩ f₂) (hv : e &&& PTE_V ≠ 0)
    (hp : e &&& PTE_RWX ≠ 0) (he : PTE2PA e = pg) : Space kend s f pt (pg :: l) f₂ k₂ := by
  have hpg : PGSIZE = 4096 := rfl
  have htf : TRAPFRAME = 67108862 * 4096 := rfl
  have hmax : VASPACE = 549755813888 := rfl
  obtain ⟨htables, -, hptes, -⟩ := table_same pt fun x hx => hsame x (h.held.held x hx)
  have htables₂ : (tables k₂.mem pt).Perm (new ++ tables k.mem pt) := by
    rw [← htables]
    exact hM.tables
  have hpte₂ : ∀ va < VASPACE, pte k₂.mem pt va =
      if va / PGSIZE = a / PGSIZE then e else pte k.mem pt va := by
    intro va hva
    rw [← hptes va]
    exact hM.pte va hva
  have hfresh : pg ∉ spaceHeld s pt l k :=
    (List.nodup_cons.mp (List.nodup_append.mp hS₂.nodup_held).2.1).1
  have hnew : ∀ va < VASPACE, va / PGSIZE = a / PGSIZE → pte k₂.mem pt va = e := by
    intro va hva hpage
    rw [hpte₂ va hva, if_pos hpage]
  have hother : ∀ va < VASPACE, va / PGSIZE ≠ a / PGSIZE → pte k₂.mem pt va = pte k.mem pt va := by
    intro va hva hpage
    rw [hpte₂ va hva, if_neg hpage]
  have hpages : (new ++ pg :: spaceHeld s pt l k).Perm
      (pg :: l ++ tables k₂.mem pt ++ s.held) := by
    have hright := (htables₂.append_left (pg :: l)).append_right s.held
    refine List.Perm.trans ?_ hright.symm
    unfold spaceHeld
    refine List.perm_iff_count.mpr fun x => ?_
    simp only [List.count_append, List.count_cons]
    omega
  have hup : TRAMPOLINE / PGSIZE ≠ a / PGSIZE ∧ TRAPFRAME / PGSIZE ≠ a / PGSIZE := by
    have htr : TRAMPOLINE = 67108863 * 4096 := rfl
    rw [hpg, htr, htf]
    omega
  refine ⟨?_, hS₂.perm hpages, ?_, fun va hva hva' => ?_, ?_, ?_, fun va hva hlo h1 h2 => ?_,
    fun va hva hva' => ?_, fun va hva va' hva' hx hy heq => ?_, fun d hd => ?_, fun q hq => ?_⟩
  · refine h.free.trans ?_
    rw [hf]
    have hright := (htables₂.append_left (pg :: l)).append_right f₂
    refine List.Perm.trans ?_ hright.symm
    refine ((hf₁.cons pg).append_left _).trans ?_
    refine List.perm_iff_count.mpr fun x => ?_
    simp only [List.count_append, List.count_cons]
    omega
  · exact hM.links (links_same (fun x hx => hsame x (h.held.held x hx)) h.links)
  · by_cases hpage : va / PGSIZE = a / PGSIZE
    · rw [hnew va hva hpage]
      exact hp
    · rw [hother va hva hpage] at hva' ⊢
      exact h.leaf va hva hva'
  · rw [hother _ (by decide) hup.1]
    exact h.trampoline
  · rw [hother _ (by decide) hup.2]
    exact h.trapframe
  · rw [hother va hva (by rw [hpg]; omega)]
    exact h.upper va hva hlo h1 h2
  · by_cases hpage : va / PGSIZE = a / PGSIZE
    · rw [hnew va (by omega) hpage, he]
      exact List.mem_cons_self
    · rw [hother va (by omega) hpage] at hva' ⊢
      exact List.mem_cons_of_mem pg (h.owned va hva hva')
  · -- The new page is mapped at one place, since it was free.
    have hone : ∀ x < TRAPFRAME, x / PGSIZE ≠ a / PGSIZE → pte k.mem pt x &&& PTE_V ≠ 0 →
        PTE2PA (pte k.mem pt x) ≠ pg := by
      intro x hx _ hvx hbad
      refine hfresh (List.mem_append_left _ (List.mem_append_left _ ?_))
      rw [← hbad]
      exact h.owned x hx hvx
    by_cases hpage : va / PGSIZE = a / PGSIZE
    · by_cases hpage' : va' / PGSIZE = a / PGSIZE
      · rw [hpage, hpage']
      · rw [hnew va (by omega) hpage, hother va' (by omega) hpage', he] at heq
        rw [hother va' (by omega) hpage'] at hy
        exact absurd heq.symm (hone va' hva' hpage' hy)
    · rw [hother va (by omega) hpage] at hx heq
      by_cases hpage' : va' / PGSIZE = a / PGSIZE
      · rw [hnew va' (by omega) hpage', he] at heq
        exact absurd heq (hone va hva hpage hx)
      · rw [hother va' (by omega) hpage'] at hy heq
        exact h.inj va hva va' hva' hx hy heq
  · rcases List.mem_cons.mp hd with rfl | hd
    · exact ⟨a, ha, by rw [hnew a (by omega) rfl]; exact hv, by rw [hnew a (by omega) rfl, he]⟩
    · obtain ⟨va, hva, hvv, hpa⟩ := h.used d hd
      have hpage : va / PGSIZE ≠ a / PGSIZE := by
        intro hpage
        rw [pte_of_page hpage] at hvv
        exact hvv hfree
      exact ⟨va, hva, by rw [hother va (by omega) hpage]; exact hvv,
        by rw [hother va (by omega) hpage]; exact hpa⟩
  · have hq' : q ∈ spaceHeld s pt l k := List.mem_append_right _ hq
    have hqt : q ∉ tables k₁.mem pt := by
      rw [htables]
      intro hin
      exact (List.nodup_append.mp h.split.nodup_held).2.2 q (List.mem_append_right _ hin) q hq rfl
    exact ((h.same q hq).trans (hsame q hq')).trans (hM.frame q (List.mem_cons_of_mem pg hq') hqt)

/-! ### Calls that may fail -/

theorem wp_true {α σ ε : Type} (x : Action σ ε α) (s : σ) :
    wp x (fun _ _ => True) (fun _ => True) s := by
  unfold wp
  split <;> trivial

variable {held : List Nat}

/-- `mappages` of a page that is mapped does not return. -/
theorem mappages_taken {pa : Nat} (hS : Split kend ⟨k, held⟩ f) (hH : Held ⟨k, held⟩ pt)
    (htaken : a < MAXVA → pte k.mem pt a &&& PTE_V ≠ 0) :
    wp (mappages pt a pa PGSIZE perm) (fun _ _ => False) (fun _ => True) k := by
  have hone : PGSIZE / PGSIZE = 1 := by decide
  unfold mappages
  by_cases hmod : a % PGSIZE ≠ 0
  · rw [if_pos hmod]
    trivial
  · rw [if_neg hmod, if_neg (by decide), if_neg (by decide), hone, mappagesLoop, wp_bind]
    by_cases ha : a < MAXVA
    · have hvalid := htaken ha
      refine wp_mono (walk_alloc hS hH ha) ?_ fun _ => False.elim
      rintro r k' ⟨new, rest, -, -, hE, hw⟩
      cases r with
      | none =>
        -- The path is complete, so no table was missing.
        obtain ⟨q, hq, -⟩ := table_of_valid hvalid
        have hnone : missing k.mem pt a = ∅ :=
          Radix.missing_eq_empty (by unfold table at hq; rw [hq]; simp)
        have hfew : new.length < (missing k.mem pt a).card := hw.2
        rw [hnone] at hfew
        exact absurd hfew (by simp)
      | some at_ =>
        obtain ⟨⟨q, hq, rfl⟩, -, -⟩ := hw
        have hpte : pte k'.mem pt a = pte k.mem pt a := hE.pte a
        show wp (readPte (q + 8 * PX 0 a) >>= _) _ _ _
        rw [wp_bind, readPte, wp_read, ← pte_of_table hq, hpte, if_pos hvalid]
        trivial
    · rw [walk, if_pos (by omega)]
      trivial

/-- The page was not mapped, since there was no page for a table. -/
def Unmapped (kend pt a pg : Nat) (k : Kmem) : Prop :=
  ∃ held, Split kend ⟨k, held⟩ [] ∧ Held ⟨k, held⟩ pt ∧ pg ∈ held ∧ pg ∉ tables k.mem pt ∧
    pte k.mem pt a &&& PTE_V = 0

/-- One page of the freelist is mapped, if the call returns 0. -/
theorem Space.mappages {pg : Nat} {f₁ : List Nat} {k₁ : Kmem} (h : Space kend s f pt l rest k)
    (hf : rest = pg :: f₁) (hsame : ∀ q ∈ spaceHeld s pt l k, SamePage k.mem k₁.mem q)
    (hS₁ : Split kend ⟨k₁, pg :: spaceHeld s pt l k⟩ f₁) (hperm : perm < 1024)
    (hp : perm &&& PTE_RWX ≠ 0) :
    wp (Kernel.mappages pt a pg PGSIZE perm) (fun r k₂ => r = -1 ∧ Unmapped kend pt a pg k₂ ∨
      r = 0 ∧ ∃ f₂, Space kend s f pt (pg :: l) f₂ k₂ ∧ SamePage k₁.mem k₂.mem pg ∧
        ∀ S, Tabled k.mem pt S → Tabled k₂.mem pt (S ∪ ways a)) (fun _ => True) k₁ := by
  have hpg : PGSIZE = 4096 := rfl
  have htf : TRAPFRAME = 67108862 * 4096 := rfl
  have htr : TRAMPOLINE = 67108863 * 4096 := rfl
  have hmax : MAXVA = 67108864 * 4096 := rfl
  obtain ⟨htables, -, hptes, hmissing⟩ := table_same pt fun x hx => hsame x (h.held.held x hx)
  have hH₁ : Held ⟨k₁, pg :: spaceHeld s pt l k⟩ pt :=
    h.held.of_same htables fun q hq => List.mem_cons_of_mem pg (h.held.held q hq)
  have htabled : ∀ {new : List Nat} {k₂ : Kmem},
      Mapped ⟨k₁, pg :: spaceHeld s pt l k⟩ pt a (leafPte pg perm) new k₂.mem →
      ∀ S, Tabled k.mem pt S → Tabled k₂.mem pt (S ∪ ways a) := by
    intro new k₂ hM S hT
    have hT₁ : Tabled k₁.mem pt S := fun va => (hmissing va).trans (hT va)
    exact Tabled.mapped (s := ⟨k₁, pg :: spaceHeld s pt l k⟩) hT₁ hM
  by_cases hmod : a % PGSIZE = 0
  · by_cases htaken : a < MAXVA → pte k₁.mem pt a &&& PTE_V ≠ 0
    · exact wp_mono (mappages_taken hS₁ hH₁ htaken) (fun _ _ => False.elim) fun _ _ => trivial
    · obtain ⟨ha, hinvalid⟩ := not_forall.mp htaken
      rw [ne_eq, not_not] at hinvalid
      rw [hptes a] at hinvalid
      -- The two highest pages are mapped.
      have hlow : a < TRAPFRAME := by
        by_contra hge
        have hcases : a = TRAPFRAME ∨ a = TRAMPOLINE := by
          rw [hpg] at hmod
          omega
        rcases hcases with rfl | rfl
        · exact h.trapframe hinvalid
        · exact h.trampoline hinvalid
      have hpool := hS₁.outstanding (List.mem_cons_self (a := pg))
      obtain ⟨hpage, -, hfits⟩ := leafPte_parts hpool.1 (hpool.lt.trans (by decide)) hperm
      refine wp_mono (mappages_page hS₁ hH₁ hmod ha (by rw [hptes a]; exact hinvalid) hfits) ?_
        fun _ => False.elim
      have hpgt : pg ∉ tables k₁.mem pt := by
        rw [htables]
        exact fun hin => (List.nodup_cons.mp hS₁.nodup_held).1 (h.held.held pg hin)
      rintro r k₂ ⟨new, f₂, hf₁, hS₂, hH₂, ⟨hr, hnil, -, hE⟩ | ⟨hr, hM⟩⟩
      · rw [hnil] at hS₂
        refine .inl ⟨hr, _, hS₂, hH₂, List.mem_append_right _ List.mem_cons_self, fun hin => ?_, ?_⟩
        · rcases List.mem_append.mp ((hE.tables.mem_iff).mp hin) with hin | hin
          · exact (List.nodup_append.mp hS₂.nodup_held).2.2 pg hin pg List.mem_cons_self rfl
          · exact hpgt hin
        · rw [hE.pte a]
          show pte k₁.mem pt a &&& PTE_V = 0
          rw [hptes a]
          exact hinvalid
      · exact .inr ⟨hr, f₂, h.map hlow hf hf₁ hsame hinvalid hM hS₂ leafPte_valid
          (leafPte_rwx hperm hp) hpage, hM.frame pg List.mem_cons_self hpgt, htabled hM⟩
  · rw [Kernel.mappages, if_pos hmod]
    trivial

/-- The tables on the ways to `n` pages from `a` on. -/
def waysFrom (a n : Nat) : Finset (Nat × List Nat) :=
  (Finset.range n).biUnion fun i => ways (a + i * PGSIZE)

theorem waysFrom_zero (a : Nat) : waysFrom a 0 = ∅ := rfl

theorem waysFrom_succ (a n : Nat) : waysFrom a (n + 1) = ways a ∪ waysFrom (a + PGSIZE) n := by
  ext x
  unfold waysFrom
  simp only [Finset.mem_biUnion, Finset.mem_range, Finset.mem_union]
  constructor
  · rintro ⟨i, hi, hx⟩
    cases i with
    | zero => exact .inl (by rwa [Nat.zero_mul, Nat.add_zero] at hx)
    | succ i =>
      refine .inr ⟨i, by omega, ?_⟩
      rwa [Nat.succ_mul, Nat.add_comm (i * PGSIZE), ← Nat.add_assoc] at hx
  · rintro (hx | ⟨i, hi, hx⟩)
    · exact ⟨0, by omega, by rwa [Nat.zero_mul, Nat.add_zero]⟩
    · refine ⟨i + 1, by omega, ?_⟩
      rwa [Nat.succ_mul, Nat.add_comm (i * PGSIZE), ← Nat.add_assoc]

variable {newsz : Nat}

/-- The loop of `uvmalloc`, wherever it starts. -/
theorem Space.uvmallocLoop {base xperm : Nat} (hx : xperm < 1024) (n : Nat)
    (h : Space kend s f pt l rest k) :
    wp (Kernel.uvmallocLoop kend pt base newsz xperm n a)
      (fun r k' => r = 0 ∨ (∃ l rest, Space kend s f pt l rest k') ∧
        ∀ S, Tabled k.mem pt S → Tabled k'.mem pt (S ∪ waysFrom a n)) (fun _ => True) k := by
  induction n generalizing a l rest k with
  | zero =>
    refine .inr ⟨⟨l, rest, h⟩, fun S hT => ?_⟩
    rw [waysFrom_zero, Finset.union_empty]
    exact hT
  | succ n ih =>
    rw [Kernel.uvmallocLoop, wp_bind]
    refine wp_mono (kalloc_page h.split) ?_ fun _ => False.elim
    rintro pg k₁ (⟨-, hzero, -⟩ | ⟨f₁, hf, hne, hS₁, hmem⟩)
    · rw [if_pos hzero, wp_bind]
      exact wp_mono (wp_true _ _) (fun _ _ _ => .inl rfl) fun _ => id
    · rw [if_neg hne, wp_bind, memset, wp_modify, wp_bind]
      obtain ⟨hS₂, hsame⟩ := fresh_page (k₁.mem.fill pg PGSIZE 0) hS₁ hmem fun b hb => if_neg hb
      refine wp_mono (h.mappages hf hsame hS₂ (readable_lt hx) readable_rwx) ?_ fun _ => id
      rintro r k₂ (⟨hr, -⟩ | ⟨hr, f₂, hspace, -, htabled⟩)
      · rw [if_pos (by rw [hr]; decide), wp_bind]
        refine wp_mono (wp_true _ _) (fun _ _ _ => ?_) fun _ => id
        rw [wp_bind]
        exact wp_mono (wp_true _ _) (fun _ _ _ => .inl rfl) fun _ => id
      · rw [if_neg (by rw [hr]; decide)]
        refine wp_mono (ih hspace) (fun r k' hr => hr.imp_right fun hr => ?_) fun _ => id
        refine ⟨hr.1, fun S hT => ?_⟩
        rw [waysFrom_succ, ← Finset.union_assoc]
        exact hr.2 _ (htabled S hT)

/-- The loop of `uvmcopy` from a page table that was outstanding before. -/
theorem Space.uvmcopyLoop {old top : Nat} (hold : Held s old)
    (hleaf : ∀ va < top, pte s.kmem.mem old va &&& PTE_V ≠ 0 →
      pte s.kmem.mem old va &&& PTE_RWX ≠ 0) (n : Nat) {a : Nat} (htop : a + n * PGSIZE ≤ top)
    {l rest : List Nat} {k : Kmem} (h : Space kend s f pt l rest k) :
    wp (Kernel.uvmcopyLoop kend old pt n a)
      (fun r k' => r = -1 ∨ ∃ l rest, Space kend s f pt l rest k') (fun _ => True) k := by
  have hpg : PGSIZE = 4096 := rfl
  induction n generalizing a l rest k with
  | zero => exact .inr ⟨l, rest, h⟩
  | succ n ih =>
    rw [Nat.succ_mul] at htop
    rw [Kernel.uvmcopyLoop, wp_bind]
    by_cases ha : a < MAXVA
    · rw [wp_walk_find ha]
      cases hq : table k.mem old a 0 with
      | none => trivial
      | some q =>
        show wp (readPte (q + 8 * PX 0 a) >>= _) _ _ _
        rw [wp_bind, readPte, wp_read, ← pte_of_table hq]
        by_cases hvalid : pte k.mem old a &&& PTE_V = 0
        · rw [if_pos hvalid]
          trivial
        · -- The parent's entry is the one that it had before.
          obtain ⟨-, -, hptes, -⟩ := table_same old fun x hx => h.same x (hold.held x hx)
          have hflags : PTE_FLAGS (pte k.mem old a) &&& PTE_RWX ≠ 0 := by
            rw [← flags_and (by decide), hptes a]
            rw [hptes a] at hvalid
            exact hleaf a (by omega) hvalid
          have hperm : PTE_FLAGS (pte k.mem old a) < 1024 := Nat.mod_lt _ (by decide)
          rw [if_neg hvalid, wp_bind]
          refine wp_mono (kalloc_page h.split) ?_ fun _ => False.elim
          rintro pg k₁ (⟨-, hzero, -⟩ | ⟨f₁, hf, hne, hS₁, hmem⟩)
          · rw [if_pos hzero, wp_bind]
            exact wp_mono (wp_true _ _) (fun _ _ _ => .inl rfl) fun _ => id
          · rw [if_neg hne, wp_bind, memmove, wp_modify, wp_bind]
            obtain ⟨hS₂, hsame⟩ := fresh_page
              (k₁.mem.copy pg (PTE2PA (pte k.mem old a)) PGSIZE) hS₁ hmem fun b hb => if_neg hb
            refine wp_mono (h.mappages hf hsame hS₂ hperm hflags) ?_ fun _ => id
            rintro r k₂ (⟨hr, -⟩ | ⟨hr, f₂, hspace, -⟩)
            · rw [if_pos (by rw [hr]; decide), wp_bind]
              refine wp_mono (wp_true _ _) (fun _ _ _ => ?_) fun _ => id
              rw [wp_bind]
              exact wp_mono (wp_true _ _) (fun _ _ _ => .inl rfl) fun _ => id
            · rw [if_neg (by rw [hr]; decide)]
              exact ih (by omega) hspace
    · rw [walk, if_pos (by omega)]
      trivial

/-! ### `uvmclear` -/

/-- An entry without `PTE_U`. -/
def clearUser (e : Nat) : Nat := e &&& (2 ^ 64 - 1 - PTE_U)

theorem clearUser_and {x : Nat} (hx : (2 ^ 64 - 1 - PTE_U) &&& x = x) :
    clearUser e &&& x = e &&& x := by
  rw [clearUser, Nat.and_assoc, hx]

theorem clearUser_page (e : Nat) : PTE2PA (clearUser e) = PTE2PA e := by
  have hdiv : clearUser e / 2 ^ 10 = e / 2 ^ 10 % 2 ^ 54 := by
    rw [clearUser, Nat.and_div_two_pow, ← Nat.and_two_pow_sub_one_eq_mod]
    rfl
  rw [PTE2PA, PTE2PA, hdiv]
  omega

theorem clearUser_lt (e : Nat) : clearUser e < 256 ^ 8 :=
  Nat.lt_of_le_of_lt Nat.and_le_right (by decide)

variable {k' : Kmem}

/-- An entry changes, but not what it maps. -/
theorem Space.restamp (h : Space kend s f pt l rest k)
    (hst : Stored ⟨k, spaceHeld s pt l k⟩ pt a e k'.mem)
    (hS : Split kend ⟨k', spaceHeld s pt l k⟩ rest) (hv : e &&& PTE_V = pte k.mem pt a &&& PTE_V)
    (hp : e &&& PTE_RWX = pte k.mem pt a &&& PTE_RWX) (hpa : PTE2PA e = PTE2PA (pte k.mem pt a)) :
    Space kend s f pt l rest k' := by
  have hmax : VASPACE = 549755813888 := rfl
  have htf : TRAPFRAME = 67108862 * 4096 := rfl
  have htables : tables k'.mem pt = tables k.mem pt := hst.tables
  -- Validity, permissions and page of every entry are as they were.
  have hall : ∀ va < VASPACE, pte k'.mem pt va &&& PTE_V = pte k.mem pt va &&& PTE_V ∧
      pte k'.mem pt va &&& PTE_RWX = pte k.mem pt va &&& PTE_RWX ∧
      PTE2PA (pte k'.mem pt va) = PTE2PA (pte k.mem pt va) := by
    intro va hva
    rw [hst.pte va hva]
    by_cases hpage : va / PGSIZE = a / PGSIZE
    · rw [if_pos hpage, pte_of_page hpage]
      exact ⟨hv, hp, hpa⟩
    · rw [if_neg hpage]
      exact ⟨rfl, rfl, rfl⟩
  refine ⟨?_, ?_, hst.links h.links, fun va hva => ?_, ?_, ?_, fun va hva => ?_, fun va hva => ?_,
    fun va hva va' hva' => ?_, fun d hd => ?_, fun q hq => ?_⟩
  · rw [htables]
    exact h.free
  · rw [htables]
    exact hS
  · rw [(hall va hva).1, (hall va hva).2.1]
    exact h.leaf va hva
  · rw [(hall _ (by decide)).1]
    exact h.trampoline
  · rw [(hall _ (by decide)).1]
    exact h.trapframe
  · rw [(hall va hva).1]
    exact h.upper va hva
  · rw [(hall va (by omega)).1, (hall va (by omega)).2.2]
    exact h.owned va hva
  · rw [(hall va (by omega)).1, (hall va (by omega)).2.2, (hall va' (by omega)).1,
      (hall va' (by omega)).2.2]
    exact h.inj va hva va' hva'
  · obtain ⟨va, hva, hvv, hpp⟩ := h.used d hd
    exact ⟨va, hva, by rw [(hall va (by omega)).1]; exact hvv,
      by rw [(hall va (by omega)).2.2]; exact hpp⟩
  · refine (h.same q hq).trans (hst.frame q (List.mem_append_right _ hq) fun hin => ?_)
    exact (List.nodup_append.mp h.split.nodup_held).2.2 q (List.mem_append_right _ hin) q hq rfl

theorem Space.uvmclear {va : Nat} (h : Space kend s f pt l rest k) :
    wp (Kernel.uvmclear pt va) (fun _ k' => Space kend s f pt l rest k') (fun _ => True) k := by
  rw [Kernel.uvmclear, wp_bind]
  by_cases ha : va < MAXVA
  · rw [wp_walk_find ha]
    cases hq : table k.mem pt va 0 with
    | none => trivial
    | some q =>
      show wp (readPte (q + 8 * PX 0 va) >>= _) _ _ _
      rw [wp_bind, readPte, wp_read, ← pte_of_table hq, writePte, wp_modify]
      obtain ⟨hS, hst⟩ := store_pte h.split h.held ha hq (clearUser_lt (pte k.mem pt va)) rfl
      exact h.restamp hst hS (clearUser_and (by decide)) (clearUser_and (by decide))
        (clearUser_page _)
  · rw [walk, if_pos (by omega)]
    trivial

/-! ### `uvmfirst` -/

/-- Memory changes in the user pages only. -/
theorem Space.frame {m : Memory} (h : Space kend s f pt l rest k)
    (hfree : ∀ q ∈ rest, SamePage k.mem m q) (htree : ∀ q ∈ tables k.mem pt, SamePage k.mem m q)
    (hheld : ∀ q ∈ s.held, SamePage k.mem m q) :
    Space kend s f pt l rest { k with mem := m } := by
  obtain ⟨htables, -, hptes, -⟩ := table_same pt htree
  have hS := h.split.of_mem hfree
  refine ⟨?_, ?_, links_same htree h.links, ?_, ?_, ?_, ?_, ?_, ?_, ?_, fun q hq => ?_⟩
  · show f.Perm (l ++ tables m pt ++ rest)
    rw [htables]
    exact h.free
  · show Split kend ⟨{ k with mem := m }, l ++ tables m pt ++ s.held⟩ rest
    rw [htables]
    exact hS
  · simp only [hptes]
    exact h.leaf
  · simp only [hptes]
    exact h.trampoline
  · simp only [hptes]
    exact h.trapframe
  · simp only [hptes]
    exact h.upper
  · simp only [hptes]
    exact h.owned
  · simp only [hptes]
    exact h.inj
  · simp only [hptes]
    exact h.used
  · exact (h.same q hq).trans (hheld q hq)

/-- A write in a user page. -/
theorem Space.write {d : Nat} {m : Memory} (h : Space kend s f pt l rest k) (hd : d ∈ l)
    (hm : ∀ b, ¬ (d ≤ b ∧ b < d + PGSIZE) → m b = k.mem b) :
    Space kend s f pt l rest { k with mem := m } := by
  have hdheld : d ∈ spaceHeld s pt l k := List.mem_append_left _ (List.mem_append_left _ hd)
  have hpool := h.split.outstanding hdheld
  have hkeep : ∀ q ∈ spaceHeld s pt l k, q ≠ d → SamePage k.mem m q := fun q hq hne =>
    samePage_of_apart hpool (h.split.outstanding hq) (Ne.symm hne) hm
  obtain ⟨hnot, hout⟩ := h.apart hd
  refine h.frame (fun q hq => ?_) (fun q hq => ?_) fun q hq => ?_
  · refine samePage_of_apart hpool (h.split.free hq) (fun he => ?_) hm
    exact h.split.apart hdheld (he ▸ hq)
  · exact hkeep q (h.held.held q hq) fun he => hnot (he ▸ hq)
  · exact hkeep q (List.mem_append_right _ hq) fun he => hout (he ▸ hq)

/-- `uvmfirst`, if its page is mapped afterwards. -/
theorem Space.uvmfirst {src : List UInt8} (h : Space kend s f pt l rest k) :
    wp (Kernel.uvmfirst pt src) (fun _ k' => userPage k'.mem pt 0 ≠ 0 →
      ∃ l rest, Space kend s f pt l rest k') (fun _ => True) k := by
  rw [Kernel.uvmfirst]
  by_cases hlen : src.length ≥ PGSIZE
  · rw [if_pos hlen]
    trivial
  · rw [if_neg hlen, wp_bind]
    refine wp_mono (kalloc_page h.split) ?_ fun _ => False.elim
    rintro pg k₁ (⟨-, hzero, -⟩ | ⟨f₁, hf, hne, hS₁, hmem⟩)
    · rw [if_pos hzero]
      trivial
    · rw [if_neg hne, wp_bind, memset, wp_modify, wp_bind]
      obtain ⟨hS₂, hsame⟩ := fresh_page (k₁.mem.fill pg PGSIZE 0) hS₁ hmem fun b hb => if_neg hb
      refine wp_mono (h.mappages hf hsame hS₂ (by decide) (by decide)) ?_ fun _ => id
      have hout : ∀ m : Memory, ∀ b, ¬ (pg ≤ b ∧ b < pg + PGSIZE) → m.write pg src b = m b :=
        fun m b hb => Memory.write_outside (by omega)
      rintro r k₂ (⟨-, held, hS, hH, hpg, hpgt, hinvalid⟩ | ⟨-, f₂, hspace, -⟩)
      · -- The page is written, but it is not mapped.
        intro hmapped
        refine absurd ?_ hmapped
        have htree : ∀ q ∈ tables k₂.mem pt, SamePage k₂.mem (k₂.mem.write pg src) q := fun q hq =>
          samePage_of_apart (hS.outstanding hpg) (hS.outstanding (hH.held q hq))
            (fun he => hpgt (he ▸ hq)) (hout k₂.mem)
        obtain ⟨-, -, hptes, -⟩ := table_same pt htree
        unfold userPage
        rw [if_neg (by decide), if_pos]
        show pte (k₂.mem.write pg src) pt 0 &&& PTE_V = 0
        rw [hptes 0]
        exact hinvalid
      · exact fun _ => ⟨_, f₂, hspace.write List.mem_cons_self (hout k₂.mem)⟩

/-! ### Sequences of calls -/

/-- A call that extends an address space. -/
inductive SpaceCall where
  | uvmalloc (oldsz newsz xperm : Nat)
  | uvmcopy (old sz : Nat)
  | uvmfirst (src : List UInt8)
  | uvmclear (va : Nat)

/-- The call, and whether it succeeds. `uvmfirst` succeeds if it has mapped its page. -/
def SpaceCall.run (kend pt : Nat) : SpaceCall → KmemM Bool
  | .uvmalloc oldsz newsz xperm => do
      let r ← Kernel.uvmalloc kend pt oldsz newsz xperm
      Pure.pure (r ≠ 0)
  | .uvmcopy old sz => do
      let r ← Kernel.uvmcopy kend old pt sz
      Pure.pure (r = 0)
  | .uvmfirst src => do
      Kernel.uvmfirst pt src
      let pa ← walkaddr pt 0
      Pure.pure (pa ≠ 0)
  | .uvmclear va => do
      Kernel.uvmclear pt va
      Pure.pure true

/-- What the arguments are: flag bits, and a page table that was there before, whose pages have
permissions. -/
def SpaceCall.Fits (s : Pages) : SpaceCall → Prop
  | .uvmalloc _ _ xperm => xperm < 1024
  | .uvmcopy old sz => Held s old ∧ ∀ va < PGROUNDUP sz, pte s.kmem.mem old va &&& PTE_V ≠ 0 →
      pte s.kmem.mem old va &&& PTE_RWX ≠ 0
  | .uvmfirst _ => True
  | .uvmclear _ => True

/-- The memory after `proc_pagetable` and any successful calls. -/
inductive Builds (c : SysParam) (s : Pages) (trapframe pt : Nat) : Kmem → Prop
  | create {k : Kmem} : procPagetable c trapframe s.kmem = .ok (pt, k) → pt ≠ 0 →
      Builds c s trapframe pt k
  | call {k k' : Kmem} (x : SpaceCall) : Builds c s trapframe pt k → x.Fits s →
      x.run c.kend pt k = .ok (true, k') → Builds c s trapframe pt k'

/-- A successful call keeps the address space. -/
theorem Space.call {x : SpaceCall} (h : Space kend s f pt l rest k) (hx : x.Fits s) :
    wp (x.run kend pt) (fun ok k' => ok = true → ∃ l rest, Space kend s f pt l rest k')
      (fun _ => True) k := by
  cases x with
  | uvmalloc oldsz newsz xperm =>
    rw [SpaceCall.run, wp_bind, Kernel.uvmalloc]
    by_cases hlt : newsz < oldsz
    · rw [if_pos hlt]
      exact fun _ => ⟨l, rest, h⟩
    · rw [if_neg hlt]
      refine wp_mono (h.uvmallocLoop hx _) ?_ fun _ => id
      rintro r k' (rfl | ⟨hspace, -⟩)
      · exact fun hok => absurd hok (by decide)
      · exact fun _ => hspace
  | uvmcopy old sz =>
    rw [SpaceCall.run, wp_bind, Kernel.uvmcopy]
    refine wp_mono (h.uvmcopyLoop hx.1 hx.2 _ (by rw [Nat.zero_add]; exact Nat.le_refl _)) ?_
      fun _ => id
    rintro r k' (rfl | hspace)
    · exact fun hok => absurd hok (by decide)
    · exact fun _ => hspace
  | uvmfirst src =>
    rw [SpaceCall.run, wp_bind]
    refine wp_mono h.uvmfirst ?_ fun _ => id
    intro _ k' hspace
    rw [wp_bind, wp_walkaddr, wp_pure]
    exact fun hok => hspace (by simpa using hok)
  | uvmclear va =>
    rw [SpaceCall.run, wp_bind]
    exact wp_mono h.uvmclear (fun _ k' hspace _ => ⟨l, rest, hspace⟩) fun _ => id

/-- After `proc_pagetable` and any successful calls there is an address space. -/
theorem Builds.space (hc : Linked c) (hS : Split c.kend s f) (htf : trapframe ∈ s.held)
    (h : Builds c s trapframe pt k) :
    ∃ l rest, Space c.kend s f pt l rest k := by
  induction h with
  | create hrun hne =>
    rcases wp_ok (procPagetable_spec hc hS htf) hrun with ⟨hzero, -⟩ |
      ⟨-, hfix, -, new, rest, -, hmade⟩
    · exact absurd hzero hne
    · exact ⟨[], rest, hmade.space hfix⟩
  | call x _ hx hrun ih =>
    obtain ⟨l, rest, hspace⟩ := ih
    exact wp_ok (hspace.call hx) hrun rfl

/-! ### `proc_freepagetable` -/

/-- The pages that are mapped below a size. -/
def dataPages (m : Memory) (pt sz : Nat) : List Nat :=
  (List.range (PGROUNDUP sz / PGSIZE)).map fun i => PTE2PA (pte m pt (i * PGSIZE))

/-- The user pages are those below a size. -/
def Exactly (m : Memory) (pt sz : Nat) : Prop :=
  ∀ va < TRAPFRAME, pte m pt va &&& PTE_V ≠ 0 ↔ va < PGROUNDUP sz

/-- Without user pages the size is 0. -/
theorem Space.exactly_zero (h : Space kend s f pt [] rest k) :
    Exactly k.mem pt 0 := fun va hva =>
  iff_of_false (fun hv => absurd (h.owned va hva hv) List.not_mem_nil) (Nat.not_lt_zero va)

variable {sz : Nat}

/-- There are not enough tables for user memory up to the trapframe. -/
theorem Space.size_lt (hend : KERNBASE ≤ kend) (h : Space kend s f pt l rest k)
    (hsz : Exactly k.mem pt sz) : PGROUNDUP sz < TRAPFRAME := by
  by_contra hge
  have hall : ∀ va < TRAPFRAME, pte k.mem pt va &&& PTE_V ≠ 0 := fun va hva =>
    (hsz va hva).mpr (by omega)
  exact absurd (covered_small hend h.split h.held hall) (Nat.lt_irrefl _)

/-- The pages that the first `n` user pages are mapped to. -/
def lowPages (m : Memory) (pt n : Nat) : List Nat :=
  (List.range n).map fun i => PTE2PA (pte m pt (i * PGSIZE))

variable {n : Nat}

/-- They are different leaves. -/
theorem Space.low (h : Space kend s f pt l rest k) (hn : n * PGSIZE ≤ TRAPFRAME)
    (hv : ∀ i < n, pte k.mem pt (i * PGSIZE) &&& PTE_V ≠ 0) :
    (lowPages k.mem pt n).Nodup ∧ (∀ d ∈ lowPages k.mem pt n, d ∈ l) ∧
      Leaves k.mem pt 0 (lowPages k.mem pt n) := by
  have hpg : PGSIZE = 4096 := rfl
  have htf : TRAPFRAME < VASPACE := by decide
  have hbelow : ∀ i < n, i * PGSIZE < TRAPFRAME := by
    intro i hi
    rw [hpg] at hn ⊢
    omega
  refine ⟨List.Nodup.map_on (fun x hx y hy hxy => ?_) List.nodup_range, fun d hd => ?_,
    fun i d hd => ?_⟩
  · have hx := List.mem_range.mp hx
    have hy := List.mem_range.mp hy
    have := h.inj _ (hbelow x hx) _ (hbelow y hy) (hv x hx) (hv y hy) hxy
    rw [hpg] at this
    omega
  · obtain ⟨i, hi, rfl⟩ := List.mem_map.mp hd
    have hi := List.mem_range.mp hi
    exact h.owned _ (hbelow i hi) (hv i hi)
  · unfold lowPages at hd
    rw [List.getElem?_map] at hd
    obtain ⟨j, hj, rfl⟩ := Option.map_eq_some_iff.mp hd
    obtain ⟨hi, hij⟩ := List.getElem?_eq_some_iff.mp hj
    rw [List.length_range] at hi
    rw [List.getElem_range] at hij
    subst hij
    have := hbelow i hi
    rw [Nat.zero_add]
    exact leaf_of_rwx (hv i hi) (h.leaf _ (by omega) (hv i hi))

/-- The user pages of the address space, in the order of their addresses. -/
theorem Space.data (hend : KERNBASE ≤ kend) (h : Space kend s f pt l rest k)
    (hsz : Exactly k.mem pt sz) :
    (dataPages k.mem pt sz).Perm l ∧ Leaves k.mem pt 0 (dataPages k.mem pt sz) := by
  have hpg : PGSIZE = 4096 := rfl
  have hlt := h.size_lt hend hsz
  have hmul : PGROUNDUP sz / PGSIZE * PGSIZE = PGROUNDUP sz :=
    Nat.div_mul_cancel (Nat.dvd_of_mod_eq_zero (round_mod sz))
  have hvalid : ∀ i < PGROUNDUP sz / PGSIZE, pte k.mem pt (i * PGSIZE) &&& PTE_V ≠ 0 := by
    intro i hi
    have hbelow : i * PGSIZE < PGROUNDUP sz := by
      rw [hpg] at hi hmul ⊢
      omega
    exact (hsz _ (by omega)).mpr hbelow
  obtain ⟨hnodup, hin, hleaves⟩ := h.low (by omega) hvalid
  have hl : l.Nodup := by
    have hall : (l ++ tables k.mem pt ++ s.held).Nodup := h.split.nodup_held
    rw [List.append_assoc, List.nodup_append] at hall
    exact hall.1
  refine ⟨(List.perm_ext_iff_of_nodup hnodup hl).mpr fun d => ⟨hin d, fun hd => ?_⟩, hleaves⟩
  obtain ⟨va, hva, hv, rfl⟩ := h.used d hd
  have hsize := (hsz va hva).mp hv
  refine List.mem_map.mpr ⟨va / PGSIZE, List.mem_range.mpr ?_, ?_⟩
  · rw [hpg] at hmul ⊢
    omega
  · have hpage : va / PGSIZE * PGSIZE / PGSIZE = va / PGSIZE := Nat.mul_div_cancel _ (by decide)
    exact congrArg PTE2PA (pte_of_page hpage)

/-- The user part of an address space whose pages are those below a size. -/
theorem Space.userSpace (hend : KERNBASE ≤ kend) (h : Space kend s f pt l rest k)
    (hsz : Exactly k.mem pt sz) :
    UserSpace kend ⟨k, spaceHeld s pt l k⟩ rest pt sz (dataPages k.mem pt sz) := by
  obtain ⟨hdata, hleaves⟩ := h.data hend hsz
  have hin : ∀ d ∈ dataPages k.mem pt sz, d ∈ l := fun d hd => hdata.mem_iff.mp hd
  refine ⟨h.split, h.held, ?_, hleaves, fun va hlo hva => ?_, ?_, fun d hd => ?_, fun d hd => ?_⟩
  · rw [dataPages, List.length_map, List.length_range]
    exact Nat.div_mul_cancel (Nat.dvd_of_mod_eq_zero (round_mod sz))
  · by_contra hv
    exact absurd ((hsz va hva).mp hv) (by omega)
  · refine hdata.nodup_iff.mpr ?_
    exact (List.nodup_append.mp (List.nodup_append.mp h.split.nodup_held).1).1
  · exact List.mem_append_left _ (List.mem_append_left _ (hin d hd))
  · exact (h.apart (hin d hd)).1

/-- Tables are added to an address space. -/
theorem Space.gave {rest' : List Nat} (h : Space kend s f pt l rest k)
    (hG : Gave kend ⟨k, spaceHeld s pt l k⟩ rest pt new rest' k') :
    Space kend s f pt l rest' k' := by
  have htables : (tables k'.mem pt).Perm (new ++ tables k.mem pt) := hG.extended.tables
  have hptes : ∀ va, pte k'.mem pt va = pte k.mem pt va := hG.extended.pte
  have hpages : (new ++ spaceHeld s pt l k).Perm (l ++ tables k'.mem pt ++ s.held) := by
    refine List.Perm.trans ?_ ((htables.append_left l).append_right s.held).symm
    unfold spaceHeld
    refine List.perm_iff_count.mpr fun x => ?_
    simp only [List.count_append]
    omega
  refine ⟨?_, hG.split.perm hpages, hG.extended.links h.links, ?_, ?_, ?_, ?_, ?_, ?_, ?_,
    fun q hq => ?_⟩
  · refine h.free.trans (((hG.free.append_left _)).trans ?_)
    refine List.Perm.trans ?_ ((htables.append_left l).append_right rest').symm
    refine List.perm_iff_count.mpr fun x => ?_
    simp only [List.count_append]
    omega
  · simp only [hptes]
    exact h.leaf
  · simp only [hptes]
    exact h.trampoline
  · simp only [hptes]
    exact h.trapframe
  · simp only [hptes]
    exact h.upper
  · simp only [hptes]
    exact h.owned
  · simp only [hptes]
    exact h.inj
  · simp only [hptes]
    exact h.used
  · refine (h.same q hq).trans (hG.extended.frame q (List.mem_append_right _ hq) fun hin => ?_)
    exact (List.nodup_append.mp h.split.nodup_held).2.2 q (List.mem_append_right _ hin) q hq rfl

/-- The user pages after `uvmalloc`. -/
theorem Exactly.grow {t : Pages} (hsz : Exactly t.kmem.mem pt sz) (hle : sz ≤ newsz)
    (hlen : l.length = pagesBetween sz newsz)
    (hT : Took kend t f pt (PGROUNDUP sz) perm l new rest k) : Exactly k.mem pt newsz := by
  have hpg : PGSIZE = 4096 := rfl
  have htf : TRAPFRAME = 67108862 * 4096 := rfl
  have hmax : VASPACE = 549755813888 := rfl
  have hmul := pagesBetween_mul hle
  have hround := round_mod sz
  intro va hva
  by_cases hlo : PGROUNDUP sz ≤ va ∧ va < PGROUNDUP sz + l.length * PGSIZE
  · -- The page is one of the new ones.
    have hi : (va - PGROUNDUP sz) / PGSIZE < l.length := by
      rw [hpg] at hlo ⊢
      omega
    have hpage : va / PGSIZE = (PGROUNDUP sz + (va - PGROUNDUP sz) / PGSIZE * PGSIZE) / PGSIZE := by
      rw [hpg] at hround ⊢
      omega
    have hleaf := hT.grown.leaf _ _ (List.getElem?_eq_getElem hi)
    rw [pte_of_page hpage, hleaf]
    rw [hlen] at hlo
    exact iff_of_true leafPte_valid (by omega)
  · rw [hT.grown.other va (by omega) hlo, hsz va hva]
    rw [hlen] at hlo
    omega

/-- `uvmalloc` of an address space. -/
theorem Space.uvmalloc (hend : KERNBASE ≤ kend) {xperm : Nat} (h : Space kend s f pt l rest k)
    (hsz : Exactly k.mem pt sz) (hle : sz ≤ newsz) (hx : xperm < 1024) :
    wp (Kernel.uvmalloc kend pt sz newsz xperm)
      (fun r k' => r = newsz ∧
          needs k.mem pt (PGROUNDUP sz) (pagesBetween sz newsz) ≤ rest.length ∧
          (∃ l' l₂ new rest', l'.length = pagesBetween sz newsz ∧
            Took kend ⟨k, spaceHeld s pt l k⟩ rest pt (PGROUNDUP sz) (PTE_R ||| PTE_U ||| xperm) l'
              new rest' k' ∧
            Space kend s f pt l₂ rest' k' ∧ Exactly k'.mem pt newsz ∧
            ∀ S, Tabled k.mem pt S →
              Tabled k'.mem pt (S ∪ waysFrom (PGROUNDUP sz) (pagesBetween sz newsz))) ∨
        r = 0 ∧ 0 < pagesBetween sz newsz ∧ rest.length < needs k.mem pt (PGROUNDUP sz) 1 ∧
          ∃ rest', Space kend s f pt l rest' k' ∧ ∀ va, pte k'.mem pt va = pte k.mem pt va)
      (fun _ => rest.length < needs k.mem pt (PGROUNDUP sz) (pagesBetween sz newsz) ∧
        needs k.mem pt (PGROUNDUP sz) 1 ≤ rest.length) k := by
  have hspec := uvmalloc_spec hend (h.userSpace hend hsz) hle hx
  have hspace : wp (Kernel.uvmalloc kend pt sz newsz xperm)
      (fun r k' => r = 0 ∧ newsz ≠ 0 ∨ (∃ l rest, Space kend s f pt l rest k') ∧
        ∀ S, Tabled k.mem pt S →
          Tabled k'.mem pt (S ∪ waysFrom (PGROUNDUP sz) (pagesBetween sz newsz))) (fun _ => True)
      k := by
    rw [Kernel.uvmalloc, if_neg (by omega)]
    dsimp only
    rw [uvmalloc_rounds hle]
    by_cases hzero : newsz = 0
    · -- There is no round.
      obtain rfl : sz = 0 := by omega
      rw [hzero]
      refine .inr ⟨⟨l, rest, h⟩, fun S hT => ?_⟩
      rw [show pagesBetween 0 0 = 0 by decide, waysFrom_zero, Finset.union_empty]
      exact hT
    · refine wp_mono (h.uvmallocLoop hx _) (fun r k' hr => ?_) fun _ => id
      exact hr.imp_left fun hr => ⟨hr, hzero⟩
  refine wp_mono (wp_both hspec hspace) ?_ fun _ he => he.1
  rintro r k' ⟨⟨hr, hneeds, l', new, rest', hlen, hT⟩ | ⟨hr, hpos, hfew, new, rest', hG⟩, hkeep⟩
  · have hgrown := hsz.grow (t := ⟨k, spaceHeld s pt l k⟩) hle hlen hT
    rcases hkeep with ⟨hzero, hnz⟩ | ⟨⟨l₂, rest₂, hspace'⟩, htabled⟩
    · exact absurd (hr.symm.trans hzero) hnz
    · obtain rfl : rest₂ = rest' := hspace'.split.chain.unique hT.split.chain
      exact .inl ⟨hr, hneeds, l', l₂, new, rest₂, hlen, hT, hspace', hgrown, htabled⟩
  · exact .inr ⟨hr, hpos, hfew, rest', h.gave hG, hG.extended.pte⟩

/-- The loop of `uvmunmap` in `uvmfree`, after the two highest pages are unmapped. -/
theorem uvmfree_spec (hend : KERNBASE ≤ kend) (hS : Split kend ⟨k, held⟩ rest)
    (hH : Held ⟨k, held⟩ pt) (hlinks : Links k.mem pt) (hleaves : Leaves k.mem pt 0 l)
    (hnodup : l.Nodup) (howned : ∀ d ∈ l, d ∈ held) (hapart : ∀ d ∈ l, d ∉ tables k.mem pt)
    (hlen : l.length * PGSIZE = PGROUNDUP sz) (hsmall : PGROUNDUP sz < TRAPFRAME)
    (hnone : ∀ va < VASPACE, PGROUNDUP sz ≤ va → pte k.mem pt va &&& PTE_V = 0) :
    wp (uvmfree kend pt sz) (fun _ k' => Freed kend ⟨k, held⟩ rest (l ++ tables k.mem pt) k')
      (fun _ => False) k := by
  have hpg : PGSIZE = 4096 := rfl
  have htf : TRAPFRAME = 67108862 * 4096 := rfl
  have hmax : MAXVA = 67108864 * 4096 := rfl
  have hpos : 0 < kend := Nat.lt_of_lt_of_le (by decide) hend
  have hcount : sizePages sz = 0 + l.length := by
    unfold sizePages
    rw [Nat.mod_eq_of_lt (by omega), ← hlen, Nat.mul_div_cancel _ (by decide), Nat.zero_add]
  -- What is left for `freewalk`.
  have hrest : ∀ k₁ held₁, held.Perm (l ++ held₁) →
      Split kend ⟨k₁, held₁⟩ (l.reverse ++ rest) → Held ⟨k₁, held₁⟩ pt →
      Cleared ⟨k, held⟩ pt 0 l k₁.mem →
      wp (freewalk kend 3 pt) (fun _ k' => Freed kend ⟨k, held⟩ rest (l ++ tables k.mem pt) k')
        (fun _ => False) k₁ := by
    intro k₁ held₁ hperm hS₁ hH₁ hC
    have hempty : ∀ va < VASPACE, pte k₁.mem pt va &&& PTE_V = 0 := by
      intro va hva
      rw [hC.pte va hva, hlen]
      by_cases hlo : va < PGROUNDUP sz
      · rw [if_pos (by omega)]
        rfl
      · rw [if_neg (by omega)]
        exact hnone va hva (by omega)
    have htables : tables k₁.mem pt = tables k.mem pt := hC.tables
    refine wp_post (freewalk_empty hpos hS₁ hH₁ (hC.links hlinks) hempty) ?_
    rintro _ k₂ ⟨held₂, free, hperm₂, hfree, hS₂, hsame⟩
    have hperm₂ : held₁.Perm (tables k₁.mem pt ++ held₂) := hperm₂
    have hfree : free.Perm (tables k₁.mem pt ++ (l.reverse ++ rest)) := hfree
    rw [htables] at hperm₂ hfree
    refine ⟨held₂, free, ?_, ?_, hS₂, fun q hq => ?_⟩
    · rw [List.append_assoc]
      exact hperm.trans (hperm₂.append_left l)
    · refine hfree.trans ?_
      refine List.perm_iff_count.mpr fun x => ?_
      simp only [List.count_append, List.count_reverse]
      omega
    · have hq₁ : q ∈ held₁ := hperm₂.mem_iff.mpr (List.mem_append_right _ hq)
      have hall : (l ++ (tables k.mem pt ++ held₂)).Nodup :=
        (hperm.trans (hperm₂.append_left l)).nodup_iff.mp hS.nodup_held
      rw [List.nodup_append] at hall
      have hql : q ∉ l := fun hin => hall.2.2 q hin q (List.mem_append_right _ hq) rfl
      have hqt : q ∉ tables k.mem pt := fun hin =>
        (List.nodup_append.mp hall.2.1).2.2 q hin q hq rfl
      exact (hC.frame q (hperm.mem_iff.mpr (List.mem_append_right _ hq₁)) hql hqt).trans
        (hsame q hq)
  rw [uvmfree, wp_bind, wp_when, uvmunmap_size, hcount]
  refine ⟨fun _ => ?_, fun hzero => ?_⟩
  · refine uvmunmapLoop_free hpos hS hH (by decide) (by omega) hleaves hnodup howned hapart ?_
    intro k₁ held₁ hperm hS₁ hH₁ hC
    exact hrest k₁ held₁ hperm hS₁ hH₁ hC
  · -- No page: nothing is unmapped.
    obtain rfl : l = [] := by
      have hround : PGROUNDUP sz = 0 := by
        obtain rfl : sz = 0 := by omega
        rfl
      rw [hround] at hlen
      exact List.eq_nil_of_length_eq_zero (by rw [hpg] at hlen; omega)
    refine hrest k held (.refl _) hS hH ⟨rfl, fun va _ => ?_, fun _ => rfl, id,
      fun q _ _ _ => SamePage.refl _ q⟩
    rw [List.length_nil, if_neg (by omega)]

/-- An address space without its two highest pages. -/
structure Uncovered (kend : Nat) (s : Pages) (pt : Nat) (l rest : List Nat) (k k' : Kmem) : Prop where
  split : Split kend ⟨k', spaceHeld s pt l k⟩ rest
  held : Held ⟨k', spaceHeld s pt l k⟩ pt
  tables : tables k'.mem pt = Mem.tables k.mem pt
  links : Links k'.mem pt
  low : ∀ va < TRAPFRAME, pte k'.mem pt va = pte k.mem pt va
  high : ∀ va < VASPACE, TRAPFRAME ≤ va → pte k'.mem pt va &&& PTE_V = 0
  frame : ∀ q ∈ spaceHeld s pt l k, q ∉ Mem.tables k.mem pt → SamePage k.mem k'.mem q

/-- `proc_freepagetable` unmaps the two highest pages first. -/
theorem Space.uncover {post : Unit → Kmem → Prop} {err : Panic → Prop}
    (h : Space c.kend s f pt l rest k)
    (hrest : ∀ k', Uncovered c.kend s pt l rest k k' → wp (uvmfree c.kend pt sz) post err k') :
    wp (procFreepagetable c pt sz) post err k := by
  have hpg : PGSIZE = 4096 := rfl
  have htf : TRAPFRAME = 67108862 * 4096 := rfl
  have htr : TRAMPOLINE = 67108863 * 4096 := rfl
  have hmax : VASPACE = 549755813888 := rfl
  have htrampoline := leaf_of_rwx h.trampoline (h.leaf _ (by decide) h.trampoline)
  have htrapframe := leaf_of_rwx h.trapframe (h.leaf _ (by decide) h.trapframe)
  rw [procFreepagetable, wp_bind]
  refine wp_mono (uvmunmap_keep h.split h.held (by decide) (by decide) htrampoline) ?_
    fun _ => False.elim
  rintro _ k₁ ⟨hS₁, hH₁, hst₁⟩
  have hpte₁ : pte k₁.mem pt TRAPFRAME = pte k.mem pt TRAPFRAME := by
    rw [hst₁.pte _ (by decide), if_neg trapframe_ne]
  rw [← hpte₁] at htrapframe
  rw [wp_bind]
  refine wp_mono (uvmunmap_keep (s := ⟨k₁, spaceHeld s pt l k⟩) hS₁ hH₁ (by decide) (by decide)
    htrapframe) ?_ fun _ => False.elim
  rintro _ k₂ ⟨hS₂, hH₂, hst₂⟩
  have htables : tables k₂.mem pt = tables k.mem pt := hst₂.tables.trans hst₁.tables
  -- The other entries are as they were.
  have hother : ∀ va < VASPACE, va / PGSIZE ≠ TRAMPOLINE / PGSIZE →
      va / PGSIZE ≠ TRAPFRAME / PGSIZE → pte k₂.mem pt va = pte k.mem pt va := by
    intro va hva h1 h2
    rw [hst₂.pte va hva, if_neg h2]
    show pte k₁.mem pt va = _
    rw [hst₁.pte va hva, if_neg h1]
  refine hrest k₂ ⟨hS₂, hH₂, htables, hst₂.links (hst₁.links h.links), fun va hva => ?_,
    fun va hva hlo => ?_, fun q hq hqt => ?_⟩
  · refine hother va (by omega) ?_ ?_
    · rw [hpg, htr]
      omega
    · rw [hpg, htf]
      omega
  · by_cases h2 : va / PGSIZE = TRAPFRAME / PGSIZE
    · rw [hst₂.pte va hva, if_pos h2]
      rfl
    · by_cases h1 : va / PGSIZE = TRAMPOLINE / PGSIZE
      · rw [hst₂.pte va hva, if_neg h2]
        show pte k₁.mem pt va &&& PTE_V = 0
        rw [hst₁.pte va hva, if_pos h1]
        rfl
      · rw [hother va hva h1 h2]
        exact h.upper va hva hlo h1 h2
  · refine (hst₁.frame q hq hqt).trans (hst₂.frame q hq ?_)
    show q ∉ tables k₁.mem pt
    rw [hst₁.tables]
    exact hqt

/-- `proc_freepagetable` of an address space. -/
theorem Space.procFreepagetable (hend : KERNBASE ≤ c.kend) (h : Space c.kend s f pt l rest k)
    (hsz : Exactly k.mem pt sz) :
    wp (Kernel.procFreepagetable c pt sz) (fun _ k' => Freed c.kend ⟨k, spaceHeld s pt l k⟩ rest
      (dataPages k.mem pt sz ++ tables k.mem pt) k') (fun _ => False) k := by
  obtain ⟨hdata, hleaves⟩ := h.data hend hsz
  have hlt := h.size_lt hend hsz
  have hlen : (dataPages k.mem pt sz).length * PGSIZE = PGROUNDUP sz := by
    rw [dataPages, List.length_map, List.length_range]
    exact Nat.div_mul_cancel (Nat.dvd_of_mod_eq_zero (round_mod sz))
  refine h.uncover fun k₂ hU => ?_
  have hnone : ∀ va < VASPACE, PGROUNDUP sz ≤ va → pte k₂.mem pt va &&& PTE_V = 0 := by
    intro va hva hlo
    by_cases hva' : va < TRAPFRAME
    · rw [hU.low va hva']
      by_contra hv
      exact absurd ((hsz va hva').mp hv) (by omega)
    · exact hU.high va hva (by omega)
  have hleaves₂ : Leaves k₂.mem pt 0 (dataPages k.mem pt sz) := hleaves.congr fun i hi => by
    have hbound : (i + 1) * PGSIZE ≤ (dataPages k.mem pt sz).length * PGSIZE :=
      Nat.mul_le_mul_right _ hi
    rw [Nat.succ_mul] at hbound
    exact hU.low _ (by omega)
  have hin : ∀ d ∈ dataPages k.mem pt sz, d ∈ l := fun d hd => hdata.mem_iff.mp hd
  refine wp_post (uvmfree_spec hend hU.split hU.held hU.links hleaves₂ ?_ ?_ ?_ hlen hlt hnone) ?_
  · refine hdata.nodup_iff.mpr ?_
    exact (List.nodup_append.mp (List.nodup_append.mp h.split.nodup_held).1).1
  · exact fun d hd => List.mem_append_left _ (List.mem_append_left _ (hin d hd))
  · intro d hd
    rw [hU.tables]
    exact (h.apart (hin d hd)).1
  · rintro _ k₃ ⟨held, free, hperm, hfree, hS₃, hsame⟩
    rw [hU.tables] at hperm hfree
    refine ⟨held, free, hperm, hfree, hS₃, fun q hq => ?_⟩
    have hnodup := hperm.nodup_iff.mp h.split.nodup_held
    refine (hU.frame q (hperm.mem_iff.mpr (List.mem_append_right _ hq)) fun hqt => ?_).trans
      (hsame q hq)
    exact (List.nodup_append.mp hnodup).2.2 q (List.mem_append_right _ hqt) q hq rfl

/-- The address space of `proc_pagetable` and any successful calls is freed page by page: the
freelist gets the user pages and the tables, each once, and is what it was before. -/
theorem procFreepagetable_exact (hc : Linked c) (htr : c.trampoline < c.kend)
    (hS : Split c.kend s f) (htf : trapframe ∈ s.held) (hb : Builds c s trapframe pt k)
    (hsz : Exactly k.mem pt sz) :
    ∃ rest k' free, procFreepagetable c pt sz k = .ok ((), k') ∧
      Split c.kend ⟨k, dataPages k.mem pt sz ++ tables k.mem pt ++ s.held⟩ rest ∧
      Split c.kend ⟨k', s.held⟩ free ∧
      free.Perm (dataPages k.mem pt sz ++ tables k.mem pt ++ rest) ∧
      trapframe ∉ dataPages k.mem pt sz ++ tables k.mem pt ∧
      c.trampoline ∉ dataPages k.mem pt sz ++ tables k.mem pt ∧
      free.Perm f ∧ ∀ q ∈ s.held, SamePage s.kmem.mem k'.mem q := by
  obtain ⟨l, rest, h⟩ := hb.space hc hS htf
  obtain ⟨hdata, -⟩ := h.data hc.kend hsz
  have hpages : (spaceHeld s pt l k).Perm
      (dataPages k.mem pt sz ++ tables k.mem pt ++ s.held) :=
    (hdata.symm.append_right _).append_right _
  have hS' := h.split.perm hpages
  obtain ⟨_, k', hrun, held, free, hperm, hfree, hSk, hsame⟩ :=
    wp_returns (h.procFreepagetable hc.kend hsz) fun _ => id
  have hback : held.Perm s.held :=
    (List.perm_append_left_iff (dataPages k.mem pt sz ++ tables k.mem pt)).mp
      (hperm.symm.trans hpages)
  refine ⟨rest, k', free, hrun, hS', hSk.perm hback, hfree, fun hin => ?_, fun hin => ?_, ?_,
    fun q hq => ?_⟩
  · exact (List.nodup_append.mp hS'.nodup_held).2.2 trapframe hin trapframe htf rfl
  · have hpool := hS'.outstanding (List.mem_append_left s.held hin)
    have hlo := hpool.2.1
    have := kend_le c.kend
    omega
  · exact hfree.trans ((hdata.append_right _).append_right _ |>.trans h.free.symm)
  · exact (h.same q hq).trans (hsame q (hback.mem_iff.mpr hq))

/-- The parameters of a kernel whose image ends at the start of the RAM. -/
def romParam : SysParam := ⟨KERNBASE, 0, Mkfs.superblock⟩

/-- A process with one page, from `proc_pagetable` to `proc_freepagetable`. -/
theorem procFreepagetable_exact_boot : ∃ k₀ trapframe k₁ pt k₂ k₃ k₄ f free,
    kinit KERNBASE ⟨fun _ => 0, 0⟩ = .ok ((), k₀) ∧ kalloc k₀ = .ok (trapframe, k₁) ∧
    procPagetable romParam trapframe k₁ = .ok (pt, k₂) ∧
    uvmalloc KERNBASE pt 0 PGSIZE PTE_W k₂ = .ok (PGSIZE, k₃) ∧ Exactly k₃.mem pt PGSIZE ∧
    procFreepagetable romParam pt PGSIZE k₃ = .ok ((), k₄) ∧ Split KERNBASE ⟨k₁, [trapframe]⟩ f ∧
    Split KERNBASE ⟨k₄, [trapframe]⟩ free ∧ free.Perm f := by
  have hc : Linked romParam := ⟨Nat.le_refl _, by decide, by decide⟩
  obtain ⟨k₀, f₀, hinit, hS₀⟩ := kinit_returns (by decide : 0 < KERNBASE) fun _ => 0
  have hlen := pool_length hS₀
  obtain ⟨trapframe, k₁, htf, hpost⟩ := wp_returns (kalloc_page hS₀) fun _ => id
  rcases hpost with ⟨hnil, -⟩ | ⟨f, hf, hne, hS₁, -⟩
  · rw [hnil] at hlen
    exact absurd hlen (by simp)
  rw [hf, List.length_cons] at hlen
  have hmem : trapframe ∈ (⟨k₁, [trapframe]⟩ : Pages).held := List.mem_cons_self
  obtain ⟨pt, k₂, hcreate, hpost⟩ := wp_returns (procPagetable_spec hc hS₁ hmem) fun _ => id
  rcases hpost with ⟨-, hfew, -⟩ | ⟨hpt, hfix, -, new, rest, hthree, hmade⟩
  · exact absurd hfew (by omega)
  have hspace := hmade.space hfix
  have hnone : Exactly k₂.mem pt 0 := hspace.exactly_zero
  have hrest : f.length = 3 + rest.length := by
    rw [hmade.free.length_eq, List.length_append, hthree]
  have hneeds := needs_one_le k₂.mem pt (PGROUNDUP 0)
  have hone : pagesBetween 0 PGSIZE = 1 := by decide
  obtain ⟨r, k₃, hgrow, hpost⟩ := wp_returns (hspace.uvmalloc (Nat.le_refl _) hnone
    (by decide : 0 ≤ PGSIZE) (by decide : PTE_W < 1024)) fun _ hbad => by
      rw [hone] at hbad
      omega
  rcases hpost with ⟨hr, -, l', l₂, new', rest', -, -, -, hexact, -⟩ | ⟨-, -, hfew, -⟩
  · rw [hr] at hgrow
    have hcall : SpaceCall.run KERNBASE pt (.uvmalloc 0 PGSIZE PTE_W) k₂ = .ok (true, k₃) := by
      rw [SpaceCall.run, bind_ok hgrow]
      rfl
    have hflags : PTE_W < 1024 := by decide
    obtain ⟨-, k₄, free, hrun, -, hS₄, -, -, -, hfree, -⟩ := procFreepagetable_exact hc (by decide)
      hS₁ hmem (.call (.uvmalloc 0 PGSIZE PTE_W) (.create hcreate hpt) hflags hcall) hexact
    exact ⟨k₀, trapframe, k₁, pt, k₂, k₃, k₄, f, free, hinit, htf, hcreate, hgrow, hexact, hrun, hS₁,
      hS₄, hfree⟩
  · exact absurd hfew (by omega)

end Xv6.Proofs.Mem
