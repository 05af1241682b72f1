import Xv6.Kernel.Kalloc

/-!
# `Xv6.Proofs.Mem.Freelist`: the free pages and the pages outstanding are all pages

`Pages` adds to the allocator the list of the pages outstanding, those that `kalloc` has
returned and `kfree` has not got back. Their owners may write in them. `Split kend s l` is
the invariant: the freelist visits the pages `l`, once each, none of them is outstanding, and
with the outstanding pages they are the pages of the pool.

The links lie in the pages themselves. A step writes in one page only, the page that leaves
the list, enters it, or is outstanding, and two pages do not overlap, so the links of the
others stay.
-/

set_option autoImplicit false

namespace Xv6.Proofs.Mem

open Lib Lib.Action Kernel

/-! ### The pool -/

/-- Page `p` is one of the pages after the kernel. -/
def InPool (kend p : Nat) : Prop := p % PGSIZE = 0 ∧ PGROUNDUP kend ≤ p ∧ p + PGSIZE ≤ PHYSTOP

variable {kend : Nat} {k : Kmem} {l : List Nat}

theorem kend_le (kend : Nat) : kend ≤ PGROUNDUP kend := by
  have hpg : PGSIZE = 4096 := rfl
  unfold PGROUNDUP
  rw [hpg]
  omega

theorem InPool.pos (hend : 0 < kend) {p : Nat} (h : InPool kend p) : p ≠ 0 := by
  have := kend_le kend
  have := h.2.1
  omega

theorem InPool.lt {p : Nat} (h : InPool kend p) : p < 2 ^ 56 := by
  have := h.2.2
  have hstop : PHYSTOP = 2281701376 := rfl
  omega

/-- The check of `kfree` passes. -/
theorem InPool.check {p : Nat} (h : InPool kend p) :
    ¬ (p % PGSIZE ≠ 0 ∨ p < kend ∨ PHYSTOP ≤ p) := by
  have hpg : PGSIZE = 4096 := rfl
  have := kend_le kend
  obtain ⟨hmod, hlo, hhi⟩ := h
  omega

/-- Two pages do not overlap. -/
theorem InPool.apart {p q : Nat} (hp : InPool kend p) (hq : InPool kend q) (hne : p ≠ q) :
    p + PGSIZE ≤ q ∨ q + PGSIZE ≤ p := by
  have hpg : PGSIZE = 4096 := rfl
  have := hp.1
  have := hq.1
  rw [hpg] at *
  omega

/-! ### The allocator and the pages outstanding -/

/-- The allocator with the pages outstanding. -/
structure Pages where
  kmem : Kmem
  held : List Nat

/-- What the kernel does with pages. -/
inductive PageStep where
  | kalloc
  | kfree (pa : Nat)
  | write (a : Nat) (src : List UInt8)

/-- The step, with the list of the pages outstanding kept. -/
def PageStep.run (kend : Nat) : PageStep → Action Pages Panic Unit
  | .kalloc => do
      let r ← Action.zoom Pages.kmem (fun k s => { s with kmem := k }) Kernel.kalloc
      Action.modify fun s => if r = 0 then s else { s with held := r :: s.held }
  | .kfree pa => do
      Action.zoom Pages.kmem (fun k s => { s with kmem := k }) (Kernel.kfree kend pa)
      Action.modify fun s => { s with held := s.held.erase pa }
  | .write a src => Action.modify fun s =>
    { s with kmem := { s.kmem with mem := s.kmem.mem.write a src } }

/-- A page is freed by its owner, and written in by its owner. -/
def ByOwner (s : Pages) : PageStep → Prop
  | .kalloc => True
  | .kfree pa => pa ∈ s.held
  | .write a src => ∃ p ∈ s.held, p ≤ a ∧ a + src.length ≤ p + PGSIZE

/-- The kernel after `kinit`, from any memory. -/
def AfterKinit (kend : Nat) (s : Pages) : Prop :=
  s.held = [] ∧ ∃ m, kinit kend ⟨m, 0⟩ = .ok ((), s.kmem)

/-- The steps as a machine. -/
def pages (kend : Nat) : Machine Pages PageStep Panic := machine (PageStep.run kend)

/-! ### The invariant -/

/-- The freelist visits `l`, and with the pages outstanding these are the pool. -/
structure Split (kend : Nat) (s : Pages) (l : List Nat) : Prop where
  chain : Chain (s.kmem.mem.load 8) s.kmem.freelist l
  nodup : (l ++ s.held).Nodup
  all : ∀ p, p ∈ l ++ s.held ↔ InPool kend p

variable {s t : Pages}

/-- A write in one page leaves the links of the others. -/
theorem chain_keep {m m' : Memory} {head p : Nat} (h : Chain (m.load 8) head l)
    (hl : ∀ q ∈ l, InPool kend q) (hp : InPool kend p) (hnot : p ∉ l)
    (hm : ∀ q, q + 8 ≤ p ∨ p + PGSIZE ≤ q → m'.load 8 q = m.load 8 q) :
    Chain (m'.load 8) head l := by
  have hpg : PGSIZE = 4096 := rfl
  refine h.congr ?_
  intro q hq
  have hne : p ≠ q := fun he => hnot (by rw [he]; exact hq)
  have := hp.apart (hl q hq) hne
  exact hm q (by omega)

theorem Split.free (h : Split kend s l) {p : Nat} (hp : p ∈ l) : InPool kend p :=
  (h.all p).mp (List.mem_append_left _ hp)

theorem Split.outstanding (h : Split kend s l) {p : Nat} (hp : p ∈ s.held) : InPool kend p :=
  (h.all p).mp (List.mem_append_right _ hp)

theorem Split.apart (h : Split kend s l) {p : Nat} (hp : p ∈ s.held) : p ∉ l := fun hl =>
  (List.disjoint_of_nodup_append h.nodup) hl hp

/-- With no page outstanding the list has all of them. -/
theorem Split.drained (h : Split kend s l) (hnone : ∀ q, q ∉ s.held) :
    Split kend ⟨s.kmem, []⟩ l := by
  have hnil : s.held = [] := List.eq_nil_iff_forall_not_mem.mpr hnone
  obtain ⟨hchain, hnodup, hall⟩ := h
  rw [hnil] at hnodup hall
  exact ⟨hchain, hnodup, hall⟩

/-- `kalloc` takes the first page of the list. -/
theorem kalloc_spec (h : Split kend s l) :
    wp kalloc (fun r k => l = [] ∧ r = 0 ∧ k = s.kmem ∨
      ∃ rest, l = r :: rest ∧ r ≠ 0 ∧ Split kend ⟨k, r :: s.held⟩ rest) (fun _ => False)
      s.kmem := by
  rw [kalloc, wp_bind, wp_read]
  cases l with
  | nil =>
    have hzero : s.kmem.freelist = 0 := h.chain.eq_zero_iff.mpr rfl
    rw [if_neg (by simpa using hzero), wp_pure]
    exact Or.inl ⟨rfl, rfl, rfl⟩
  | cons p rest =>
    obtain ⟨q, hq⟩ : ∃ q, q = s.kmem.freelist := ⟨_, rfl⟩
    have hchain := h.chain
    rw [← hq] at hchain ⊢
    cases hchain with
    | cons hp hrest =>
      have hpool : ∀ q ∈ rest, InPool kend q := fun q hq => h.free (List.mem_cons_of_mem _ hq)
      have hnodup := h.nodup
      rw [List.cons_append, List.nodup_cons] at hnodup
      rw [if_pos hp, wp_bind, wp_modify, wp_bind, memset, wp_modify, wp_pure]
      refine Or.inr ⟨rest, rfl, hp, ?_, ?_, ?_⟩
      · exact chain_keep hrest hpool (h.free List.mem_cons_self)
          (fun hm => hnodup.1 (List.mem_append_left _ hm))
          fun q hq => Memory.load_fill_disjoint hq
      · exact (List.perm_middle.nodup_iff).mpr (List.nodup_cons.mpr hnodup)
      · intro x
        rw [← h.all x]
        exact List.perm_middle.mem_iff

/-- `kfree` puts an outstanding page in front of the list. -/
theorem kfree_spec (h : Split kend s l) {pa : Nat} (hpa : pa ∈ s.held) (hend : 0 < kend) :
    wp (kfree kend pa) (fun _ k => k.freelist = pa ∧
      Split kend ⟨k, s.held.erase pa⟩ (pa :: l)) (fun _ => False) s.kmem := by
  have hpool := h.outstanding hpa
  have hpg : PGSIZE = 4096 := rfl
  rw [kfree, if_neg hpool.check, wp_bind, memset, wp_modify, wp_modify]
  -- The old head of the list fits in a word.
  have hword : s.kmem.freelist < 256 ^ 8 := by
    have hstop : PHYSTOP = 2281701376 := rfl
    cases l with
    | nil =>
      rw [h.chain.eq_zero_iff.mpr rfl]
      decide
    | cons p rest =>
      obtain ⟨q, hq⟩ : ∃ q, q = s.kmem.freelist := ⟨_, rfl⟩
      have hchain := h.chain
      rw [← hq] at hchain ⊢
      cases hchain with
      | cons _ _ =>
        have := (h.free List.mem_cons_self).2.2
        show p < 256 ^ 8
        omega
  refine ⟨rfl, ?_, ?_, ?_⟩
  · refine Chain.cons (hpool.pos hend) ?_
    show Chain _ (Memory.load 8 (Memory.store 8 (Memory.fill s.kmem.mem pa PGSIZE 1) pa
      s.kmem.freelist) pa) l
    rw [Memory.load_store hword]
    refine chain_keep h.chain (fun q hq => h.free hq) hpool (h.apart hpa) ?_
    intro q hq
    rw [Memory.load_store_disjoint (by omega), Memory.load_fill_disjoint hq]
  · have hperm : (pa :: l ++ s.held.erase pa).Perm (l ++ s.held) :=
      List.perm_middle.symm.trans ((List.perm_cons_erase hpa).symm.append_left l)
    exact hperm.nodup_iff.mpr h.nodup
  · have hperm : (pa :: l ++ s.held.erase pa).Perm (l ++ s.held) :=
      List.perm_middle.symm.trans ((List.perm_cons_erase hpa).symm.append_left l)
    intro x
    rw [← h.all x]
    exact hperm.mem_iff

/-- A write by an owner leaves the list alone. -/
theorem write_keep (h : Split kend s l) {a : Nat} {src : List UInt8} {p : Nat}
    (hp : p ∈ s.held) (hlo : p ≤ a) (hhi : a + src.length ≤ p + PGSIZE) :
    Split kend ⟨{ s.kmem with mem := s.kmem.mem.write a src }, s.held⟩ l := by
  refine ⟨?_, h.nodup, h.all⟩
  refine chain_keep h.chain (fun q hq => h.free hq) (h.outstanding hp) (h.apart hp) ?_
  intro q hq
  exact Memory.load_write_disjoint (by omega)

/-! ### `kinit`

Before `kinit` the list is empty, and all pages are outstanding, held by the boot code. The
loop of `freerange` frees them one after the other. -/

instance (kend p : Nat) : Decidable (InPool kend p) := inferInstanceAs (Decidable (_ ∧ _))

/-- The pages of the pool below `n`, in order. -/
def pool (kend n : Nat) : List Nat := (List.range n).filter fun p => InPool kend p

theorem nodup_pool (kend n : Nat) : (pool kend n).Nodup := List.nodup_range.filter _

theorem mem_pool {p n : Nat} (hn : PHYSTOP ≤ n) : p ∈ pool kend n ↔ InPool kend p := by
  have hpg : 0 < PGSIZE := by decide
  unfold pool
  rw [List.mem_filter, List.mem_range, decide_eq_true_eq]
  constructor
  · intro h
    exact h.2
  · intro h
    have := h.2.2
    exact ⟨by omega, h⟩

/-- Before `kinit` the freelist is empty. -/
theorem split_start (kend : Nat) (m : Memory) {n : Nat} (hn : PHYSTOP ≤ n) :
    Split kend ⟨⟨m, 0⟩, pool kend n⟩ [] :=
  ⟨.nil, nodup_pool kend n, fun _ => mem_pool hn⟩

/-- The loop of `freerange` frees the pages from `p` on, which are those still outstanding. -/
theorem freerangeLoop_spec (hend : 0 < kend) {top : Nat} (htop : top = PHYSTOP) (fuel : Nat)
    {p : Nat} {s : Pages} {l : List Nat} (hmod : p % PGSIZE = 0) (hlo : PGROUNDUP kend ≤ p)
    (hfuel : top < p + PGSIZE * fuel) (h : Split kend s l)
    (hheld : ∀ q, q ∈ s.held ↔ InPool kend q ∧ p ≤ q) :
    wp (freerangeLoop kend top fuel p) (fun _ k => ∃ l', Split kend ⟨k, []⟩ l')
      (fun _ => False) s.kmem := by
  have hpg : 0 < PGSIZE := by decide
  -- When the loop ends no page is outstanding.
  have hdone : ∀ {p : Nat} {held : List Nat}, top < p + PGSIZE →
      (∀ q, q ∈ held ↔ InPool kend q ∧ p ≤ q) → ∀ q, q ∉ held := by
    intro p held hlast hheld q hq
    obtain ⟨hpool, hle⟩ := (hheld q).mp hq
    have := hpool.2.2
    omega
  induction fuel generalizing p s l with
  | zero =>
    rw [freerangeLoop, wp_pure]
    exact ⟨l, h.drained (hdone (by omega) hheld)⟩
  | succ fuel ih =>
    rw [freerangeLoop]
    by_cases hle : p + PGSIZE ≤ top
    · rw [if_pos hle]
      have hp : InPool kend p := ⟨hmod, hlo, by omega⟩
      have hmem : p ∈ s.held := (hheld p).mpr ⟨hp, Nat.le_refl _⟩
      have hnodup : s.held.Nodup := (List.nodup_append.mp h.nodup).2.1
      have hnext : ∀ q, q ∈ s.held.erase p ↔ InPool kend q ∧ p + PGSIZE ≤ q := by
        intro q
        rw [hnodup.mem_erase_iff, hheld q]
        constructor
        · rintro ⟨hne, hq, hpq⟩
          have := hp.apart hq (Ne.symm hne)
          exact ⟨hq, by omega⟩
        · rintro ⟨hq, hpq⟩
          exact ⟨by omega, hq, by omega⟩
      rw [wp_bind]
      refine wp_post (kfree_spec h hmem hend) ?_
      rintro _ k ⟨_, hsplit⟩
      have hmod' : (p + PGSIZE) % PGSIZE = 0 := by rw [Nat.add_mod_right]; exact hmod
      have hfuel' : top < p + PGSIZE + PGSIZE * fuel := by
        rw [Nat.mul_succ] at hfuel
        omega
      exact ih hmod' (by omega) hfuel' hsplit hnext
    · rw [if_neg hle, wp_pure]
      exact ⟨l, h.drained (hdone (by omega) hheld)⟩

/-- `freerange` from the end of the kernel on puts every page of the pool on the list. -/
theorem freerange_spec (hend : 0 < kend) {top : Nat} (htop : top = PHYSTOP) (m : Memory) :
    wp (freerange kend kend top) (fun _ k => ∃ l, Split kend ⟨k, []⟩ l) (fun _ => False)
      ⟨m, 0⟩ := by
  have hround : PGROUNDUP kend % PGSIZE = 0 := Nat.mul_mod_left _ _
  have hfuel : top < PGROUNDUP kend + PGSIZE * (top / PGSIZE + 1) := by
    have := Nat.lt_mul_div_succ top (by decide : 0 < PGSIZE)
    omega
  have hheld : ∀ q, q ∈ pool kend top ↔ InPool kend q ∧ PGROUNDUP kend ≤ q := by
    intro q
    rw [mem_pool (Nat.le_of_eq htop.symm)]
    exact ⟨fun h => ⟨h, h.2.1⟩, fun h => h.1⟩
  exact freerangeLoop_spec hend htop _ hround (Nat.le_refl _) hfuel
    (split_start kend m (Nat.le_of_eq htop.symm)) hheld

/-- `kinit` returns. -/
theorem kinit_returns (hend : 0 < kend) (m : Memory) :
    ∃ k l, kinit kend ⟨m, 0⟩ = .ok ((), k) ∧ Split kend ⟨k, []⟩ l := by
  obtain ⟨top, htop⟩ : ∃ top, top = PHYSTOP := ⟨_, rfl⟩
  obtain ⟨_, k, hk, l, hl⟩ := wp_returns (freerange_spec hend htop m) fun _ => id
  rw [htop] at hk
  exact ⟨k, l, hk, hl⟩

/-! ### Runs -/

/-- One step of the kernel keeps the invariant. -/
theorem split_step (hend : 0 < kend) {a : PageStep} (h : Split kend s l) (ha : ByOwner s a) :
    wp (a.run kend) (fun _ t => ∃ l', Split kend t l') (fun _ => False) s := by
  cases a with
  | kalloc =>
    rw [PageStep.run, wp_bind, wp_zoom]
    refine wp_post (kalloc_spec h) ?_
    rintro r k (⟨_, hr, hk⟩ | ⟨rest, _, hr, hsplit⟩)
    · rw [wp_modify, if_pos hr, hk]
      exact ⟨l, h⟩
    · rw [wp_modify, if_neg hr]
      exact ⟨rest, hsplit⟩
  | kfree pa =>
    rw [PageStep.run, wp_bind, wp_zoom]
    refine wp_post (kfree_spec h ha hend) ?_
    rintro _ k ⟨_, hsplit⟩
    rw [wp_modify]
    exact ⟨pa :: l, hsplit⟩
  | write a src =>
    obtain ⟨p, hp, hlo, hhi⟩ := ha
    rw [PageStep.run, wp_modify]
    exact ⟨l, write_keep h hp hlo hhi⟩

/-- Every state reached after `kinit` has the invariant. -/
theorem split_of_reach (hend : 0 < kend) (hr : Reach (pages kend) ByOwner (AfterKinit kend) s) :
    ∃ l, Split kend s l := by
  refine @Reach.invariant _ _ _ _ _ _ (fun s => ∃ l, Split kend s l) ?_ ?_ s hr
  · rintro ⟨k, held⟩ ⟨hheld, m, hm⟩
    obtain ⟨k', l, hk', hl⟩ := kinit_returns hend m
    have hnil : held = [] := hheld
    have hkk : k = k' := (Prod.ext_iff.mp (Except.ok.inj (hm.symm.trans hk'))).2
    rw [hnil, hkk]
    exact ⟨l, hl⟩
  · rintro s a t ⟨l, hl⟩ ha hstep
    exact machine_ok (split_step hend hl ha) hstep

/-- After `kinit`, which returns, and any calls and writes by the owners: the freelist is a
finite list of distinct pages, none of them is outstanding, and with the outstanding ones they
are the pool. `kalloc` returns, and it returns 0 exactly if every page is outstanding. A page
that is freed is the next one allocated. -/
theorem freelist_exact (hend : 0 < kend) :
    (∀ m, ∃ k, kinit kend ⟨m, 0⟩ = .ok ((), k)) ∧
    ∀ s, Reach (pages kend) ByOwner (AfterKinit kend) s →
      (∃ l, Chain (s.kmem.mem.load 8) s.kmem.freelist l ∧ l.Nodup ∧ s.held.Nodup ∧
        (∀ p ∈ l, p ∉ s.held) ∧ ∀ p, p ∈ l ∨ p ∈ s.held ↔ InPool kend p) ∧
      (∃ r k, kalloc s.kmem = .ok (r, k) ∧ (r = 0 ↔ ∀ p, InPool kend p → p ∈ s.held)) ∧
      ∀ pa ∈ s.held, ∃ k k', kfree kend pa s.kmem = .ok ((), k) ∧ kalloc k = .ok (pa, k') := by
  constructor
  · intro m
    obtain ⟨k, _, hk, _⟩ := kinit_returns hend m
    exact ⟨k, hk⟩
  · intro s hr
    obtain ⟨l, h⟩ := split_of_reach hend hr
    have hparts := List.nodup_append.mp h.nodup
    refine ⟨⟨l, h.chain, hparts.1, hparts.2.1, fun p hl hh => h.apart hh hl, ?_⟩, ?_, ?_⟩
    · intro p
      rw [← h.all p, List.mem_append]
    · obtain ⟨r, k, hk, hpost⟩ := wp_returns (kalloc_spec h) fun _ => id
      refine ⟨r, k, hk, ?_⟩
      rcases hpost with ⟨hl, hzero, _⟩ | ⟨rest, hl, hne, _⟩
      · refine ⟨fun _ p hp => ?_, fun _ => hzero⟩
        have := (h.all p).mpr hp
        rwa [hl, List.nil_append] at this
      · -- The page returned was on the list, so it was not outstanding.
        have hmem : r ∈ l := by rw [hl]; exact List.mem_cons_self
        refine ⟨fun hz => absurd hz hne, fun hall => ?_⟩
        exact absurd hmem (h.apart (hall r (h.free hmem)))
    · intro pa hpa
      obtain ⟨_, k, hk, _, hsplit⟩ := wp_returns (kfree_spec h hpa hend) fun _ => id
      obtain ⟨r, k', hk', hpost⟩ := wp_returns (kalloc_spec hsplit) fun _ => id
      rcases hpost with ⟨hl, _⟩ | ⟨rest, hl, _⟩
      · cases hl
      · have hpar : pa = r := (List.cons.inj hl).1
        exact ⟨k, k', hk, by rw [hpar]; exact hk'⟩

/-- After `kinit` over cleared memory the first call of `kalloc` finds a page. -/
theorem freelist_exact_kernbase :
    0 < KERNBASE ∧ ∃ k, kinit KERNBASE ⟨fun _ => 0, 0⟩ = .ok ((), k) ∧
      ∃ r k', kalloc k = .ok (r, k') ∧ r ≠ 0 := by
  have hend : 0 < KERNBASE := by decide
  obtain ⟨hinit, hrun⟩ := freelist_exact hend
  obtain ⟨k, hk⟩ := hinit fun _ => 0
  have hstart : AfterKinit KERNBASE ⟨k, []⟩ := ⟨rfl, _, hk⟩
  obtain ⟨_, ⟨r, k', hr, hzero⟩, _⟩ := hrun ⟨k, []⟩ (Reach.start hstart)
  have hpage : InPool KERNBASE KERNBASE := by
    refine ⟨?_, ?_, ?_⟩
    · decide
    · decide
    · decide
  refine ⟨hend, k, hk, r, k', hr, ?_⟩
  intro h
  exact List.not_mem_nil (hzero.mp h KERNBASE hpage)

end Xv6.Proofs.Mem
