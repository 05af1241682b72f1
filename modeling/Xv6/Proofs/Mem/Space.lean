import Xv6.Proofs.Mem.Table
import Mathlib.Order.Interval.Finset.Nat

/-!
# `Xv6.Proofs.Mem.Space`: user memory, and how it is unmapped

`Leaves m pt a l` says that the pages from address `a` on are mapped to the physical pages `l`,
one after the other. `UserSpace` is an address space whose user pages are exactly those below
`PGROUNDUP(sz)`: the page table is a tree of outstanding pages, and the pages that it maps are
distinct, outstanding, and none of them is a table.

The loop of `uvmunmap` runs over such a list (`uvmunmapLoop_free`): it frees the pages, clears
their entries, and goes on with what remains of its count. What happens next decides: with a
count of `l.length` it is done, and with a larger one it stops at the page after the last one,
which is not mapped (`uvmunmapLoop_stops`).
-/

set_option autoImplicit false

namespace Xv6.Proofs.Mem

open Lib Lib.Action Kernel

variable {kend : Nat} {s : Pages} {f : List Nat} {pt : Nat}

/-! ### Mapped pages -/

/-- Entry `e` maps the page `d`. -/
structure Leaf (e d : Nat) : Prop where
  valid : e &&& PTE_V ≠ 0
  leaf : PTE_FLAGS e ≠ PTE_V
  page : PTE2PA e = d

/-- A flag of an entry. -/
theorem flags_and {e x : Nat} (hx : x < 1024) : e &&& x = PTE_FLAGS e &&& x := by
  have hmod := Nat.and_mod_two_pow (a := e) (b := x) (n := 10)
  rw [Nat.mod_eq_of_lt (Nat.lt_of_le_of_lt Nat.and_le_right hx), Nat.mod_eq_of_lt hx] at hmod
  exact hmod

/-- A valid entry with a permission maps its page. -/
theorem leaf_of_rwx {e : Nat} (hv : e &&& PTE_V ≠ 0) (hp : e &&& PTE_RWX ≠ 0) :
    Leaf e (PTE2PA e) := by
  refine ⟨hv, fun hflags => hp ?_, rfl⟩
  rw [flags_and (by decide), hflags]
  rfl

/-- The pages from `a` on are mapped to the pages of the list. -/
def Leaves (m : Memory) (pt a : Nat) (l : List Nat) : Prop :=
  ∀ i d, l[i]? = some d → Leaf (pte m pt (a + i * PGSIZE)) d

theorem Leaves.head {m : Memory} {a d : Nat} {l : List Nat} (h : Leaves m pt a (d :: l)) :
    Leaf (pte m pt a) d := by
  have := h 0 d rfl
  rwa [Nat.zero_mul] at this

theorem Leaves.tail {m : Memory} {a d : Nat} {l : List Nat} (h : Leaves m pt a (d :: l)) :
    Leaves m pt (a + PGSIZE) l := by
  intro i x hx
  have := h (i + 1) x hx
  rwa [Nat.add_mul, Nat.one_mul, Nat.add_comm (i * PGSIZE), ← Nat.add_assoc] at this

theorem Leaves.congr {m m' : Memory} {a : Nat} {l : List Nat} (h : Leaves m pt a l)
    (heq : ∀ i < l.length, pte m' pt (a + i * PGSIZE) = pte m pt (a + i * PGSIZE)) :
    Leaves m' pt a l := by
  intro i d hd
  obtain ⟨hi, -⟩ := List.getElem?_eq_some_iff.mp hd
  rw [heq i hi]
  exact h i d hd

/-- Distinct pages of the pool fit between the kernel and the end of the RAM. -/
theorem length_pool {l : List Nat} (hnodup : l.Nodup) (hpool : ∀ d ∈ l, InPool kend d)
    (hend : KERNBASE ≤ kend) : l.length * PGSIZE ≤ PHYSTOP - KERNBASE := by
  have hpg : PGSIZE = 4096 := rfl
  have hbase : KERNBASE = 2147483648 := rfl
  have hstop : PHYSTOP = 2281701376 := rfl
  have hmem : ∀ d ∈ l, d % 4096 = 0 ∧ 2147483648 ≤ d ∧ d < 2281701376 := by
    intro d hd
    obtain ⟨hmod, hlo, hhi⟩ := hpool d hd
    have := kend_le kend
    rw [hpg] at hmod
    omega
  have hinj : (l.map (· / 4096)).Nodup := by
    refine List.Nodup.map_on (fun x hx y hy hxy => ?_) hnodup
    have := hmem x hx
    have := hmem y hy
    omega
  have hsub : (l.map (· / 4096)).toFinset ⊆ Finset.Ico 524288 557056 := by
    intro x hx
    obtain ⟨d, hd, rfl⟩ := List.mem_map.mp (List.mem_toFinset.mp hx)
    have := hmem d hd
    exact Finset.mem_Ico.mpr ⟨by omega, by omega⟩
  have hcard := Finset.card_le_card hsub
  rw [List.toFinset_card_of_nodup hinj, List.length_map, Nat.card_Ico] at hcard
  rw [hpg]
  omega

/-- An address space whose user pages are those below `PGROUNDUP(sz)`, mapped to `l`. The free
pages are `f`. -/
structure UserSpace (kend : Nat) (s : Pages) (f : List Nat) (pt sz : Nat) (l : List Nat) :
    Prop where
  split : Split kend s f
  held : Held s pt
  size : l.length * PGSIZE = PGROUNDUP sz
  leaves : Leaves s.kmem.mem pt 0 l
  beyond : ∀ va, PGROUNDUP sz ≤ va → va < TRAPFRAME → pte s.kmem.mem pt va &&& PTE_V = 0
  nodup : l.Nodup
  owned : ∀ d ∈ l, d ∈ s.held
  apart : ∀ d ∈ l, d ∉ tables s.kmem.mem pt

/-- User memory is no larger than the RAM. -/
theorem UserSpace.small {sz : Nat} {l : List Nat} (h : UserSpace kend s f pt sz l)
    (hend : KERNBASE ≤ kend) : l.length * PGSIZE ≤ PHYSTOP - KERNBASE :=
  length_pool h.nodup (fun d hd => h.split.outstanding (h.owned d hd)) hend

/-! ### `uvmunmap` -/

/-- The entries of the pages from `a` on are cleared; the pages `l`, that they mapped, may have
changed. -/
structure Cleared (s : Pages) (pt a : Nat) (l : List Nat) (m : Memory) : Prop where
  tables : tables m pt = Mem.tables s.kmem.mem pt
  pte : ∀ va < VASPACE, Mem.pte m pt va =
    if a ≤ va ∧ va < a + l.length * PGSIZE then 0 else Mem.pte s.kmem.mem pt va
  missing : ∀ va, Mem.missing m pt va = Mem.missing s.kmem.mem pt va
  links : Links s.kmem.mem pt → Links m pt
  frame : ∀ q ∈ s.held, q ∉ l → q ∉ Mem.tables s.kmem.mem pt → SamePage s.kmem.mem m q

/-- A mapped page has a table of level 0. -/
theorem table_of_valid {m : Memory} {va : Nat} (h : pte m pt va &&& PTE_V ≠ 0) :
    ∃ q, table m pt va 0 = some q ∧ pte m pt va = m.load 8 (q + 8 * PX 0 va) := by
  cases hq : table m pt va 0 with
  | none =>
    rw [pte_of_none hq] at h
    exact absurd rfl h
  | some q => exact ⟨q, rfl, pte_of_table hq⟩

/-- One round of the loop of `uvmunmap`: the page is freed and its entry cleared. -/
theorem uvmunmap_page (hS : Split kend s f) (hH : Held s pt) (hend : 0 < kend) {a d : Nat}
    (ha : a < MAXVA) (hleaf : Leaf (pte s.kmem.mem pt a) d) (hd : d ∈ s.held)
    (hapart : d ∉ tables s.kmem.mem pt) {n : Nat} {post : Unit → Kmem → Prop}
    {err : Panic → Prop}
    (hk : ∀ k, Split kend ⟨k, s.held.erase d⟩ (d :: f) → Held ⟨k, s.held.erase d⟩ pt →
      tables k.mem pt = tables s.kmem.mem pt →
      (∀ va < VASPACE, pte k.mem pt va =
        if va / PGSIZE = a / PGSIZE then 0 else pte s.kmem.mem pt va) →
      (∀ va, missing k.mem pt va = missing s.kmem.mem pt va) →
      (Links s.kmem.mem pt → Links k.mem pt) →
      (∀ q ∈ s.held, q ≠ d → q ∉ tables s.kmem.mem pt → SamePage s.kmem.mem k.mem q) →
      wp (uvmunmapLoop kend pt true n (a + PGSIZE)) post err k) :
    wp (uvmunmapLoop kend pt true (n + 1) a) post err s.kmem := by
  obtain ⟨q, hq, hpte⟩ := table_of_valid hleaf.valid
  rw [uvmunmapLoop, wp_bind, wp_walk_find ha, hq]
  show wp (readPte (q + 8 * PX 0 a) >>= _) _ _ _
  rw [wp_bind, readPte, wp_read, ← hpte, if_neg hleaf.valid, if_neg hleaf.leaf, hleaf.page,
    wp_bind]
  show wp (kfree kend d) _ _ _
  refine wp_mono (kfree_page hS hd hend) ?_ fun _ => False.elim
  rintro _ k ⟨hSk, hmem⟩
  rw [wp_bind, writePte, wp_modify]
  -- The freed page is no table, so the tree is as it was.
  have hsame : ∀ x ∈ s.held, x ≠ d → SamePage s.kmem.mem k.mem x := fun x hx hne =>
    samePage_of_apart (hS.outstanding hd) (hS.outstanding hx) (Ne.symm hne) hmem
  have hsametree : ∀ x ∈ tables s.kmem.mem pt, SamePage s.kmem.mem k.mem x := fun x hx =>
    hsame x (hH.held x hx) fun he => hapart (he ▸ hx)
  obtain ⟨htables, htable, hptes, hmissing⟩ := table_same pt hsametree
  have hnodup : s.held.Nodup := hS.nodup_held
  have hHk : Held ⟨k, s.held.erase d⟩ pt := by
    refine ⟨?_, fun x hx => ?_⟩
    · show (tables k.mem pt).Nodup
      rw [htables]
      exact hH.nodup
    · have hx : x ∈ tables k.mem pt := hx
      rw [htables] at hx
      exact (hnodup.mem_erase_iff).mpr ⟨fun he => hapart (he ▸ hx), hH.held x hx⟩
  have hqk : table k.mem pt a 0 = some q := (htable a 0).trans hq
  obtain ⟨hS', hst⟩ := store_pte hSk hHk ha hqk (by decide : 0 < 256 ^ 8) rfl
  refine hk _ hS' (Stored.held (k := ⟨_, k.freelist⟩) hst hHk) (hst.tables.trans htables)
    (fun va hva => ?_) (fun va => (hst.missing va).trans (hmissing va))
    (fun hl => hst.links (links_same hsametree hl)) fun x hx hne hnot => ?_
  · rw [← hptes va]
    exact hst.pte va hva
  · refine (hsame x hx hne).trans (hst.frame x ((hnodup.mem_erase_iff).mpr ⟨hne, hx⟩) ?_)
    show x ∉ tables k.mem pt
    rw [htables]
    exact hnot

/-- The loop of `uvmunmap` over mapped pages frees them and clears their entries, and then it
goes on. -/
theorem uvmunmapLoop_free (hend : 0 < kend) {a : Nat} {l : List Nat} (hS : Split kend s f)
    (hH : Held s pt) (hmod : a % PGSIZE = 0) (hmax : a + l.length * PGSIZE ≤ MAXVA)
    (hl : Leaves s.kmem.mem pt a l) (hnodup : l.Nodup) (hheld : ∀ d ∈ l, d ∈ s.held)
    (hapart : ∀ d ∈ l, d ∉ tables s.kmem.mem pt) {n : Nat} {post : Unit → Kmem → Prop}
    {err : Panic → Prop}
    (hk : ∀ k held, s.held.Perm (l ++ held) → Split kend ⟨k, held⟩ (l.reverse ++ f) →
      Held ⟨k, held⟩ pt → Cleared s pt a l k.mem →
      wp (uvmunmapLoop kend pt true n (a + l.length * PGSIZE)) post err k) :
    wp (uvmunmapLoop kend pt true (n + l.length) a) post err s.kmem := by
  have hpg : PGSIZE = 4096 := rfl
  -- Each round takes the first page of the list; the others are still mapped after it.
  induction l generalizing s f a with
  | nil =>
    refine hk s.kmem s.held (.refl _) hS hH ⟨rfl, fun va _ => ?_, fun _ => rfl, id,
      fun q _ _ _ => SamePage.refl _ q⟩
    rw [if_neg (by rw [List.length_nil]; omega)]
  | cons d l ih =>
    obtain ⟨hdl, hnodup'⟩ := List.nodup_cons.mp hnodup
    have hd : d ∈ s.held := hheld d List.mem_cons_self
    have hlen : (d :: l).length * PGSIZE = l.length * PGSIZE + PGSIZE := by
      rw [List.length_cons, Nat.succ_mul]
    rw [hlen] at hmax
    have ha : a < MAXVA := by omega
    rw [List.length_cons, ← Nat.add_assoc]
    refine uvmunmap_page hS hH hend ha hl.head hd (hapart d List.mem_cons_self) ?_
    intro k hSk hHk htables hptes hmissing hlinks hframe
    have hheldn : s.held.Nodup := hS.nodup_held
    refine ih hSk hHk (by rw [Nat.add_mod_right]; exact hmod) (by omega) ?_ hnodup' ?_ ?_ ?_
    · refine hl.tail.congr fun i hi => ?_
      have : i * PGSIZE + PGSIZE ≤ l.length * PGSIZE := by
        rw [← Nat.succ_mul]
        exact Nat.mul_le_mul_right _ hi
      show pte k.mem pt _ = _
      rw [hptes _ (lt_vaspace (by omega)), if_neg]
      rw [hpg] at hmod ⊢
      omega
    · intro x hx
      exact (hheldn.mem_erase_iff).mpr
        ⟨fun he => hdl (he ▸ hx), hheld x (List.mem_cons_of_mem d hx)⟩
    · intro x hx
      show x ∉ tables k.mem pt
      rw [htables]
      exact hapart x (List.mem_cons_of_mem d hx)
    · intro k' held hperm hS' hH' hC
      have hkeep : s.held.Perm (d :: l ++ held) :=
        (List.perm_cons_erase hd).trans (hperm.cons d)
      rw [hlen, Nat.add_comm (l.length * PGSIZE), ← Nat.add_assoc] at hk
      refine hk k' held hkeep ?_ hH' ⟨hC.tables.trans htables, fun va hva => ?_,
        fun va => (hC.missing va).trans (hmissing va), fun hl => hC.links (hlinks hl),
        fun q hq hnot hqt => ?_⟩
      · rw [List.reverse_cons, List.append_assoc]
        exact hS'
      · rw [hC.pte va hva, hlen]
        show (if _ then 0 else pte k.mem pt va) = _
        rw [hptes va hva]
        rw [hpg] at hmod ⊢
        by_cases hhead : va / 4096 = a / 4096
        · rw [if_pos hhead, ite_self, if_pos (by omega)]
        · rw [if_neg hhead]
          exact if_congr (by omega) rfl rfl
      · have hqd : q ≠ d := fun he => hnot (he ▸ List.mem_cons_self)
        refine (hframe q hq hqd hqt).trans (hC.frame q ((hheldn.mem_erase_iff).mpr ⟨hqd, hq⟩)
          (fun hm => hnot (List.mem_cons_of_mem d hm)) ?_)
        show q ∉ tables k.mem pt
        rw [htables]
        exact hqt

/-- The loop stops at a page that is not mapped. -/
theorem uvmunmapLoop_stops {k : Kmem} {a n : Nat} {do_free : Bool} (ha : a < MAXVA)
    (h : pte k.mem pt a &&& PTE_V = 0) :
    wp (uvmunmapLoop kend pt do_free (n + 1) a) (fun _ _ => False)
      (fun e => e = .uvmunmapWalk ∨ e = .uvmunmapNotMapped) k := by
  rw [uvmunmapLoop, wp_bind, wp_walk_find ha]
  cases hq : table k.mem pt a 0 with
  | none => exact Or.inl rfl
  | some q =>
    show wp (readPte (q + 8 * PX 0 a) >>= _) _ _ _
    rw [wp_bind, readPte, wp_read, ← pte_of_table hq, if_pos h]
    exact Or.inr rfl

/-! ### `uvmdealloc` -/

theorem round_mod (sz : Nat) : PGROUNDUP sz % PGSIZE = 0 := Nat.mul_mod_left _ _

/-- A number of bytes that an `int` holds. -/
theorem throughInt_small {n : Nat} (h : n < 2 ^ 31) : throughInt n = n := by
  unfold throughInt
  rw [Nat.mod_eq_of_lt (by omega), if_pos h]

/-- The count that `uvmdealloc` passes on is a number of bytes. Where pages are to be removed,
`uvmunmap` goes on after the last of them, and stops there. -/
theorem uvmdealloc_panics (hend : KERNBASE ≤ kend) {oldsz newsz : Nat} {l : List Nat}
    (hS : Split kend s f) (hH : Held s pt) (hlt : PGROUNDUP newsz < PGROUNDUP oldsz)
    (hsize : PGROUNDUP newsz + l.length * PGSIZE = PGROUNDUP oldsz)
    (hmax : PGROUNDUP oldsz < MAXVA) (hl : Leaves s.kmem.mem pt (PGROUNDUP newsz) l)
    (hnodup : l.Nodup) (hheld : ∀ d ∈ l, d ∈ s.held)
    (hapart : ∀ d ∈ l, d ∉ tables s.kmem.mem pt)
    (hbeyond : pte s.kmem.mem pt (PGROUNDUP oldsz) &&& PTE_V = 0) :
    wp (uvmdealloc kend pt oldsz newsz) (fun _ _ => False)
      (fun e => e = .uvmunmapWalk ∨ e = .uvmunmapNotMapped) s.kmem := by
  have hpg : PGSIZE = 4096 := rfl
  have hmaxva : MAXVA = 274877906944 := rfl
  have hram : PHYSTOP - KERNBASE = 134217728 := rfl
  have hbase : KERNBASE = 2147483648 := rfl
  have hsmall := length_pool hnodup (fun d hd => hS.outstanding (hheld d hd)) hend
  have hpos : 0 < l.length := by
    rw [hpg] at hsize
    omega
  have hold : newsz < oldsz := by
    by_contra hge
    have : PGROUNDUP oldsz ≤ PGROUNDUP newsz :=
      Nat.mul_le_mul_right _ (Nat.div_le_div_right (by omega))
    omega
  have hbytes : PGROUNDUP oldsz - PGROUNDUP newsz = l.length * 4096 := by
    rw [hpg] at hsize
    omega
  have hcount : ((PGROUNDUP newsz + l.length * 4096 * PGSIZE) % 2 ^ 64 - PGROUNDUP newsz) /
      PGSIZE = (l.length * 4095 - 1 + 1) + l.length := by
    rw [hpg] at hsmall ⊢
    rw [Nat.mod_eq_of_lt (by omega)]
    omega
  rw [uvmdealloc, if_neg (by omega), hbytes, throughInt_small (by rw [hpg] at hsmall; omega),
    wp_bind, uvmunmap, if_neg (by rw [round_mod]; simp), hcount]
  refine uvmunmapLoop_free (by omega) hS hH (round_mod _) (by omega) hl hnodup hheld hapart ?_
  intro k held _ _ _ hC
  rw [hsize]
  refine wp_mono (uvmunmapLoop_stops hmax ?_) (fun _ _ h => h.elim) fun _ he => he
  rw [hC.pte _ (lt_vaspace hmax), hsize, if_neg (by omega)]
  exact hbeyond

end Xv6.Proofs.Mem
