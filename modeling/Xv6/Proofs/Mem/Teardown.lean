import Xv6.Proofs.Mem.Grow

/-!
# `Xv6.Proofs.Mem.Teardown`: freeing a page table

`freewalk` frees the tables of a tree, children first. It needs two things of the tree: the
entries above the lowest level are links (`Links`), and the lowest tables have no valid entry
(`HollowAt`). Its recursion is that of the tree, and at each table it is a loop over the entries:
a round frees the tables below one entry, and leaves those below the others as they are, since
no table is in two places.

`uvmfree` first unmaps the pages below a size. Of a page table without valid entries it frees
the tables if the size is of no page (`uvmfree_empty`), and it panics if the size is of some
page (`uvmfree_panics`).
-/

set_option autoImplicit false

namespace Xv6.Proofs.Mem

open Lib Lib.Action Kernel

variable {kend : Nat} {s : Pages} {f : List Nat} {pt : Nat}

/-! ### `freewalk` -/

/-- No entry of a lowest table is valid, in a tree of height `l`. -/
def HollowAt (m : Memory) (l p : Nat) : Prop :=
  ∀ idx : Nat → Nat, (∀ i, idx i < 512) →
    pteChild (Radix.entry pteChild (cells m) idx l p) = none

/-- The pages `l` are freed, and the other outstanding pages stay. -/
def Freed (kend : Nat) (s : Pages) (f l : List Nat) (k : Kmem) : Prop :=
  ∃ held free, s.held.Perm (l ++ held) ∧ free.Perm (l ++ f) ∧ Split kend ⟨k, held⟩ free ∧
    ∀ q ∈ held, SamePage s.kmem.mem k.mem q

/-- One entry of the loop of `freewalk`. -/
def freewalkEntry (kend depth p i : Nat) : KmemM Unit := do
  let pte ← readPte (p + 8 * i)
  if pte &&& PTE_V ≠ 0 then
    if pte &&& PTE_RWX ≠ 0 then
      Action.fail .freewalkLeaf
    else do
      freewalk kend depth (PTE2PA pte)
      writePte (p + 8 * i) 0
  else
    Pure.pure ()

theorem mem_entries {i : Nat} : i ∈ entries ↔ i < 512 := by
  unfold entries
  exact List.mem_range

theorem nodup_entries : entries.Nodup := by
  unfold entries
  exact List.nodup_range

theorem freewalk_succ (depth p : Nat) : freewalk kend (depth + 1) p =
    (do
      Action.forEach (freewalkEntry kend depth p) entries
      kfree kend p) := by
  rw [freewalk]
  rfl

/-- A table without valid entries. -/
theorem freewalk_none {depth p : Nat} {k : Kmem} {is : List Nat}
    (h : ∀ i ∈ is, pteChild (cells k.mem p i) = none) :
    wp (Action.forEach (freewalkEntry kend depth p) is) (fun _ k' => k' = k) (fun _ => False) k := by
  refine wp_post (wp_forEach (fun rest k' => k' = k ∧
    ∀ i ∈ rest, pteChild (cells k.mem p i) = none) ?_ ⟨rfl, h⟩) fun _ _ h => h.1
  rintro i rest k' ⟨rfl, hrest⟩
  have hi := hrest i List.mem_cons_self
  have hinvalid : ¬ cells k'.mem p i &&& PTE_V ≠ 0 := by
    intro hv
    rw [pteChild, if_pos hv] at hi
    cases hi
  rw [freewalkEntry, wp_bind, readPte, wp_read]
  show wp (if cells k'.mem p i &&& PTE_V ≠ 0 then _ else _) _ _ _
  rw [if_neg hinvalid, wp_pure]
  exact ⟨rfl, fun j hj => hrest j (List.mem_cons_of_mem i hj)⟩

/-- The tables of a tree of height `l`. -/
@[irreducible] def treeTables (m : Memory) (l p : Nat) : List Nat :=
  Radix.tables pteChild 512 (cells m) l p

/-- The tables below an entry. -/
def below (m : Memory) (l p i : Nat) : List Nat :=
  (pteChild (cells m p i)).elim [] (treeTables m l)

theorem treeTables_zero (m : Memory) (p : Nat) : treeTables m 0 p = [p] := by
  unfold treeTables
  rfl

theorem treeTables_succ (m : Memory) (l p : Nat) :
    treeTables m (l + 1) p = p :: entries.flatMap (below m l p) := by
  have hbelow : below m l p = fun i =>
      (pteChild (cells m p i)).elim [] (Radix.tables pteChild 512 (cells m) l) := by
    funext i
    unfold below treeTables
    rfl
  rw [hbelow]
  unfold treeTables entries
  rw [Radix.tables]

theorem treeTables_congr {m m' : Memory} {l p : Nat}
    (h : ∀ q ∈ treeTables m l p, SamePage m m' q) : treeTables m' l p = treeTables m l p := by
  unfold treeTables at h ⊢
  exact Radix.tables_congr fun x hx j hj => cells_congr (h x hx) hj

theorem below_some {m : Memory} {l p i c : Nat} (h : pteChild (cells m p i) = some c) :
    below m l p i = treeTables m l c := by
  rw [below, h, Option.elim_some]

theorem below_none {m : Memory} {l p i : Nat} (h : pteChild (cells m p i) = none) :
    below m l p i = [] := by
  rw [below, h, Option.elim_none]

/-- The tables below an entry depend on their own pages, and on the entry. -/
theorem below_same {m m' : Memory} {l p i : Nat} (hcell : cells m' p i = cells m p i)
    (h : ∀ q ∈ below m l p i, SamePage m m' q) : below m' l p i = below m l p i := by
  cases hc : pteChild (cells m p i) with
  | none => rw [below_none hc, below_none (by rw [hcell]; exact hc)]
  | some c =>
    rw [below_some hc] at h ⊢
    rw [below_some (by rw [hcell]; exact hc)]
    exact treeTables_congr h

/-- A tree that `freewalk` can take apart: the entries above the lowest level are links, and
those of the lowest are not valid. -/
structure Bare (m : Memory) (l p : Nat) : Prop where
  linked : Radix.Linked pteChild 512 LinkPte (cells m) l p
  hollow : HollowAt m l p

theorem Bare.congr {m m' : Memory} {l p : Nat} (h : Bare m l p)
    (hsame : ∀ q ∈ treeTables m l p, SamePage m m' q) : Bare m' l p := by
  unfold treeTables at hsame
  have hcells : ∀ x ∈ Radix.tables pteChild 512 (cells m) l p, ∀ i < 512,
      cells m' x i = cells m x i := fun x hx i hi => cells_congr (hsame x hx) hi
  refine ⟨Radix.linked_congr hcells h.linked, fun idx hidx => ?_⟩
  rw [Radix.entry_congr hidx hcells]
  exact h.hollow idx hidx

theorem Bare.below {m : Memory} {l p i c : Nat} (h : Bare m (l + 1) p) (hi : i < 512)
    (hc : pteChild (cells m p i) = some c) : LinkPte (cells m p i) ∧ Bare m l c := by
  obtain ⟨hlink, hsub⟩ := Radix.linked_below hi hc h.linked
  refine ⟨hlink, hsub, fun idx hidx => ?_⟩
  rw [← Radix.entry_below hc]
  refine h.hollow _ fun a => ?_
  by_cases ha : a = l + 1
  · subst ha
    rw [Function.update_self]
    exact hi
  · rw [Function.update_of_ne ha]
    exact hidx a

/-- What `freewalk` does with a tree of height `l`. -/
def FreesTree (kend l : Nat) : Prop :=
  ∀ (s : Pages) (f : List Nat) (p : Nat), Split kend s f → (treeTables s.kmem.mem l p).Nodup →
    (∀ q ∈ treeTables s.kmem.mem l p, q ∈ s.held) → Bare s.kmem.mem l p →
    wp (freewalk kend (l + 1) p) (fun _ k => Freed kend s f (treeTables s.kmem.mem l p) k)
      (fun _ => False) s.kmem

/-- The loop of `freewalk` frees the tables below the entries of the list. -/
theorem freewalk_entries {l : Nat} (ih : FreesTree kend l) (is : List Nat) {s : Pages}
    {f : List Nat} {p : Nat} (his : ∀ i ∈ is, i < 512) (hone : is.Nodup) (hS : Split kend s f)
    (hp : p ∈ s.held) (hnodup : (is.flatMap (below s.kmem.mem l p)).Nodup)
    (hheld : ∀ q ∈ is.flatMap (below s.kmem.mem l p), q ∈ s.held ∧ q ≠ p)
    (hgood : ∀ i ∈ is, ∀ c, pteChild (cells s.kmem.mem p i) = some c →
      LinkPte (cells s.kmem.mem p i) ∧ Bare s.kmem.mem l c) :
    wp (Action.forEach (freewalkEntry kend (l + 1) p) is)
      (fun _ k => ∃ held free, s.held.Perm (is.flatMap (below s.kmem.mem l p) ++ held) ∧
        free.Perm (is.flatMap (below s.kmem.mem l p) ++ f) ∧ Split kend ⟨k, held⟩ free ∧
        p ∈ held ∧ (∀ q ∈ held, q ≠ p → SamePage s.kmem.mem k.mem q) ∧
        ∀ j < 512, j ∉ is → cells k.mem p j = cells s.kmem.mem p j)
      (fun _ => False) s.kmem := by
  induction is generalizing s f with
  | nil =>
    exact ⟨s.held, f, .refl _, .refl _, hS, hp, fun q _ _ => SamePage.refl _ q, fun _ _ _ => rfl⟩
  | cons i is ihl =>
    obtain ⟨hi, hone'⟩ := List.nodup_cons.mp hone
    rw [Action.forEach, wp_bind, freewalkEntry, wp_bind, readPte, wp_read]
    show wp (if cells s.kmem.mem p i &&& PTE_V ≠ 0 then _ else _) _ _ _
    rw [List.flatMap_cons] at hnodup hheld
    obtain ⟨hn1, hn2, hdisj⟩ := List.nodup_append.mp hnodup
    by_cases hv : cells s.kmem.mem p i &&& PTE_V ≠ 0
    · have hc : pteChild (cells s.kmem.mem p i) = some (PTE2PA (cells s.kmem.mem p i)) :=
        if_pos hv
      obtain ⟨hlink, hbare⟩ := hgood i List.mem_cons_self _ hc
      have hbelow := below_some (l := l) hc
      have hlink' : ¬ cells s.kmem.mem p i &&& PTE_RWX ≠ 0 := fun h => h hlink
      rw [if_pos hv]
      show wp (if cells s.kmem.mem p i &&& PTE_RWX ≠ 0 then _ else _) _ _ _
      rw [if_neg hlink', wp_bind]
      rw [hbelow] at hn1
      have hchild := ih s f _ hS hn1
        (fun q hq => (hheld q (List.mem_append_left _ (by rw [hbelow]; exact hq))).1) hbare
      rw [← hbelow] at hchild
      refine wp_post hchild ?_
      rintro _ k ⟨held, free, hperm, hfree, hSk, hsame⟩
      rw [writePte, wp_modify]
      -- The table itself is not among those freed, and its other entries stay.
      have hkept : ∀ q ∈ s.held, q ∉ below s.kmem.mem l p i → q ∈ held := by
        intro q hq hnot
        rcases List.mem_append.mp (hperm.mem_iff.mp hq) with hin | hin
        · exact absurd hin hnot
        · exact hin
      have hpheld : p ∈ held := hkept p hp fun hin =>
        (hheld p (List.mem_append_left _ hin)).2 rfl
      have hpool : InPool kend p := hS.outstanding hp
      have hi512 : i < 512 := his i List.mem_cons_self
      have hout : ∀ a, ¬ (p ≤ a ∧ a < p + PGSIZE) →
          k.mem.store 8 (p + 8 * i) 0 a = k.mem a := fun a ha => store_outside hi512 ha
      have hSk' : Split kend ⟨{ k with mem := k.mem.store 8 (p + 8 * i) 0 }, held⟩ free :=
        hSk.of_write hpheld hout
      have hsame' : ∀ q ∈ held, q ≠ p →
          SamePage s.kmem.mem (k.mem.store 8 (p + 8 * i) 0) q := fun q hq hne =>
        (hsame q hq).trans (samePage_of_apart hpool (hSk.outstanding hq) (Ne.symm hne) hout)
      have hkeep : ∀ j < 512, j ≠ i →
          cells (k.mem.store 8 (p + 8 * i) 0) p j = cells s.kmem.mem p j := by
        intro j hj512 hne
        rw [cells_store_other hpool hpool hi512 hj512 fun h => hne h.2]
        exact cells_congr (hsame p hpheld) hj512
      have hrest : ∀ j ∈ is, cells (k.mem.store 8 (p + 8 * i) 0) p j = cells s.kmem.mem p j :=
        fun j hj => hkeep j (his j (List.mem_cons_of_mem i hj)) fun he => hi (he ▸ hj)
      have hothers : ∀ j ∈ is, ∀ q ∈ below s.kmem.mem l p j, q ∈ held ∧ q ≠ p := by
        intro j hj q hq
        have hmem : q ∈ is.flatMap (below s.kmem.mem l p) := List.mem_flatMap.mpr ⟨j, hj, hq⟩
        obtain ⟨hqheld, hne⟩ := hheld q (List.mem_append_right _ hmem)
        exact ⟨hkept q hqheld fun hin => hdisj q hin q hmem rfl, hne⟩
      have hbelows : ∀ j ∈ is, below (k.mem.store 8 (p + 8 * i) 0) l p j =
          below s.kmem.mem l p j := fun j hj =>
        below_same (hrest j hj) fun q hq =>
          hsame' q (hothers j hj q hq).1 (hothers j hj q hq).2
      have hflat : is.flatMap (below (k.mem.store 8 (p + 8 * i) 0) l p) =
          is.flatMap (below s.kmem.mem l p) :=
        List.flatMap_congr hbelows
      have hnext := ihl (s := ⟨{ k with mem := k.mem.store 8 (p + 8 * i) 0 }, held⟩)
        (fun j hj => his j (List.mem_cons_of_mem i hj)) hone' hSk' hpheld
        (by show (is.flatMap (below (k.mem.store 8 (p + 8 * i) 0) l p)).Nodup
            rw [hflat]; exact hn2) ?_ ?_
      · refine wp_post hnext ?_
        rintro _ k' ⟨held', free', hperm', hfree', hS', hp', hsame'', hcells⟩
        have hperm' : held.Perm (is.flatMap (below (k.mem.store 8 (p + 8 * i) 0) l p) ++ held') :=
          hperm'
        have hfree' : free'.Perm (is.flatMap (below (k.mem.store 8 (p + 8 * i) 0) l p) ++ free) :=
          hfree'
        rw [hflat] at hperm' hfree'
        refine ⟨held', free', ?_, ?_, hS', hp', fun q hq hne => ?_, fun j hj hnot => ?_⟩
        · rw [List.flatMap_cons, List.append_assoc]
          exact hperm.trans (hperm'.append_left _)
        · rw [List.flatMap_cons]
          refine hfree'.trans ((hfree.append_left _).trans ?_)
          refine List.perm_iff_count.mpr fun x => ?_
          simp only [List.count_append]
          omega
        · have hqheld : q ∈ held := hperm'.mem_iff.mpr (List.mem_append_right _ hq)
          exact (hsame' q hqheld hne).trans (hsame'' q hq hne)
        · refine (hcells j hj fun hin => hnot (List.mem_cons_of_mem i hin)).trans ?_
          exact hkeep j hj fun he => hnot (he ▸ List.mem_cons_self)
      · intro q hq
        have hq : q ∈ is.flatMap (below (k.mem.store 8 (p + 8 * i) 0) l p) := hq
        rw [hflat] at hq
        obtain ⟨j, hj, hqj⟩ := List.mem_flatMap.mp hq
        exact hothers j hj q hqj
      · intro j hj c hcj
        have hcj : pteChild (cells (k.mem.store 8 (p + 8 * i) 0) p j) = some c := hcj
        show LinkPte (cells (k.mem.store 8 (p + 8 * i) 0) p j) ∧
          Bare (k.mem.store 8 (p + 8 * i) 0) l c
        rw [hrest j hj] at hcj ⊢
        obtain ⟨hlinkj, hbarej⟩ := hgood j (List.mem_cons_of_mem i hj) c hcj
        refine ⟨hlinkj, hbarej.congr fun x hx => ?_⟩
        have hmem : x ∈ below s.kmem.mem l p j := by
          rw [below_some hcj]
          exact hx
        exact hsame' x (hothers j hj x hmem).1 (hothers j hj x hmem).2
    · have hnone : below s.kmem.mem l p i = [] := below_none (if_neg hv)
      rw [if_neg hv, wp_pure, List.flatMap_cons, hnone, List.nil_append]
      rw [hnone, List.nil_append] at hheld
      refine wp_post (ihl (fun j hj => his j (List.mem_cons_of_mem i hj)) hone' hS hp hn2 hheld
        fun j hj => hgood j (List.mem_cons_of_mem i hj)) ?_
      rintro _ k ⟨held, free, hperm, hfree, hSk, hpk, hsame, hcells⟩
      exact ⟨held, free, hperm, hfree, hSk, hpk, hsame,
        fun j hj hnot => hcells j hj fun hin => hnot (List.mem_cons_of_mem i hin)⟩

/-- `freewalk` frees the tables of a tree. -/
theorem freewalk_spec (hend : 0 < kend) (l : Nat) : FreesTree kend l := by
  induction l with
  | zero =>
    intro s f p hS _ hheld hbare
    rw [treeTables_zero] at hheld ⊢
    have hp : p ∈ s.held := hheld p (List.mem_singleton_self p)
    rw [freewalk_succ, wp_bind]
    refine wp_post (freewalk_none fun i hi => ?_) ?_
    · exact hbare.hollow (fun _ => i) fun _ => mem_entries.mp hi
    · rintro _ _ rfl
      refine wp_post (kfree_page hS hp hend) ?_
      rintro _ k ⟨hSk, hmem⟩
      refine ⟨s.held.erase p, p :: f, List.perm_cons_erase hp, .refl _, hSk, fun q hq => ?_⟩
      obtain ⟨hne, hq⟩ := (hS.nodup_held.mem_erase_iff).mp hq
      exact samePage_of_apart (hS.outstanding hp) (hS.outstanding hq) (Ne.symm hne) hmem
  | succ l ih =>
    intro s f p hS hnodup hheld hbare
    rw [treeTables_succ] at hnodup hheld ⊢
    have hp : p ∈ s.held := hheld p List.mem_cons_self
    obtain ⟨hpnot, hrest⟩ := List.nodup_cons.mp hnodup
    have hother : ∀ q ∈ entries.flatMap (below s.kmem.mem l p), q ∈ s.held ∧ q ≠ p := by
      intro q hq
      refine ⟨hheld q (List.mem_cons_of_mem p hq), fun he => ?_⟩
      rw [he] at hq
      exact hpnot hq
    rw [freewalk_succ, wp_bind]
    refine wp_post (freewalk_entries ih entries (fun i hi => mem_entries.mp hi) nodup_entries
      hS hp hrest hother fun i hi c hc => hbare.below (mem_entries.mp hi) hc) ?_
    rintro _ k ⟨held, free, hperm, hfree, hSk, hpk, hsame, -⟩
    refine wp_post (kfree_page hSk hpk hend) ?_
    rintro _ k' ⟨hSk', hmem⟩
    refine ⟨held.erase p, p :: free, ?_, ?_, hSk', fun q hq => ?_⟩
    · rw [List.cons_append]
      exact hperm.trans (((List.perm_cons_erase hpk).append_left _).trans List.perm_middle)
    · rw [List.cons_append]
      exact hfree.cons p
    · obtain ⟨hne, hq⟩ := (hSk.nodup_held.mem_erase_iff).mp hq
      exact (hsame q hq hne).trans
        (samePage_of_apart (hSk.outstanding hpk) (hSk.outstanding hq) (Ne.symm hne) hmem)

/-! ### `uvmfree` -/

/-- Every path is that of an address. -/
theorem exists_path {idx : Nat → Nat} (h : ∀ i, idx i < 512) :
    ∃ va < VASPACE, ∀ i ≤ 2, path va i = idx i := by
  have hmax : VASPACE = 549755813888 := rfl
  have h0 := h 0
  have h1 := h 1
  have h2 := h 2
  refine ⟨((idx 2 * 512 + idx 1) * 512 + idx 0) * 4096, by omega, fun i hi => ?_⟩
  obtain rfl | rfl | rfl : i = 0 ∨ i = 1 ∨ i = 2 := by omega
  · show ((idx 2 * 512 + idx 1) * 512 + idx 0) * 4096 / 4096 % 512 = idx 0
    omega
  · show ((idx 2 * 512 + idx 1) * 512 + idx 0) * 4096 / 2097152 % 512 = idx 1
    omega
  · show ((idx 2 * 512 + idx 1) * 512 + idx 0) * 4096 / 1073741824 % 512 = idx 2
    omega

/-- A page table that maps nothing can be taken apart. -/
theorem bare_of_pte {m : Memory} (hlinks : Links m pt)
    (h : ∀ va < VASPACE, pte m pt va &&& PTE_V = 0) : Bare m 2 pt := by
  refine ⟨hlinks, fun idx hidx => ?_⟩
  obtain ⟨va, hva, hpath⟩ := exists_path hidx
  rw [← Radix.entry_agree hpath]
  exact if_neg (by rw [ne_eq, not_not]; exact h va hva)

theorem treeTables_two (m : Memory) : treeTables m 2 pt = tables m pt := by
  unfold treeTables tables
  rfl

/-- `freewalk` of a page table that maps nothing. -/
theorem freewalk_empty (hend : 0 < kend) (hS : Split kend s f) (hH : Held s pt)
    (hlinks : Links s.kmem.mem pt) (h : ∀ va < VASPACE, pte s.kmem.mem pt va &&& PTE_V = 0) :
    wp (freewalk kend 3 pt) (fun _ k => Freed kend s f (tables s.kmem.mem pt) k) (fun _ => False)
      s.kmem := by
  have hnodup := hH.nodup
  have hheld := hH.held
  rw [← treeTables_two] at hnodup hheld ⊢
  exact freewalk_spec hend 2 s f pt hS hnodup hheld (bare_of_pte hlinks h)

/-- The number of pages that `uvmfree` unmaps for a size. The rounded size is a `uint64`. -/
def sizePages (sz : Nat) : Nat := PGROUNDUP sz % 2 ^ 64 / PGSIZE

theorem uvmunmap_size {sz : Nat} : uvmunmap kend pt 0 (PGROUNDUP sz / PGSIZE) true =
    uvmunmapLoop kend pt true (sizePages sz) 0 := by
  have hmul : PGROUNDUP sz / PGSIZE * PGSIZE = PGROUNDUP sz :=
    Nat.div_mul_cancel (Nat.dvd_of_mod_eq_zero (round_mod sz))
  rw [uvmunmap, if_neg (by decide), Nat.zero_add, Nat.sub_zero, hmul]
  rfl

/-- A size of no page. -/
theorem uvmfree_empty (hend : 0 < kend) {sz : Nat} (hsz : sizePages sz = 0)
    (hS : Split kend s f) (hH : Held s pt) (hlinks : Links s.kmem.mem pt)
    (h : ∀ va < VASPACE, pte s.kmem.mem pt va &&& PTE_V = 0) :
    wp (uvmfree kend pt sz) (fun _ k => Freed kend s f (tables s.kmem.mem pt) k) (fun _ => False)
      s.kmem := by
  have hfree := freewalk_empty hend hS hH hlinks h
  rw [uvmfree, wp_bind, wp_when, uvmunmap_size, hsz]
  exact ⟨fun _ => hfree, fun _ => hfree⟩

/-- A size of some page, where page 0 is not mapped. -/
theorem uvmfree_panics {sz : Nat} (hsz : sizePages sz ≠ 0) {k : Kmem}
    (h : pte k.mem pt 0 &&& PTE_V = 0) :
    wp (uvmfree kend pt sz) (fun _ _ => False)
      (fun e => e = .uvmunmapWalk ∨ e = .uvmunmapNotMapped) k := by
  have hpos : sz > 0 := by
    refine Nat.pos_of_ne_zero fun hzero => hsz ?_
    rw [hzero]
    rfl
  obtain ⟨n, hn⟩ := Nat.exists_eq_succ_of_ne_zero hsz
  rw [uvmfree, wp_bind, wp_when, uvmunmap_size, hn]
  refine ⟨fun _ => ?_, fun hnot => absurd hpos hnot⟩
  exact wp_mono (uvmunmapLoop_stops (by decide) h) (fun _ _ => False.elim) fun _ he => he

/-! ### `uvmunmap` of a page that stays -/

/-- `uvmunmap` of one page without `do_free` clears its entry. -/
theorem uvmunmap_keep (hS : Split kend s f) (hH : Held s pt) {a d : Nat} (hmod : a % PGSIZE = 0)
    (ha : a < MAXVA) (hleaf : Leaf (pte s.kmem.mem pt a) d) :
    wp (uvmunmap kend pt a 1 false) (fun _ k => Split kend ⟨k, s.held⟩ f ∧
      Held ⟨k, s.held⟩ pt ∧ Stored s pt a 0 k.mem) (fun _ => False) s.kmem := by
  have hpg : PGSIZE = 4096 := rfl
  have hmax : MAXVA = 274877906944 := rfl
  have hcount : ((a + 1 * PGSIZE) % 2 ^ 64 - a) / PGSIZE = 1 := by
    rw [hpg]
    omega
  obtain ⟨q, hq, hpte⟩ := table_of_valid hleaf.valid
  rw [uvmunmap, if_neg (by rw [hmod]; simp), hcount, uvmunmapLoop, wp_bind, wp_walk_find ha, hq]
  show wp (readPte (q + 8 * PX 0 a) >>= _) _ _ _
  rw [wp_bind, readPte, wp_read, ← hpte, if_neg hleaf.valid, if_neg hleaf.leaf, wp_bind, wp_when]
  refine ⟨fun hfree => absurd hfree (by simp), fun _ => ?_⟩
  rw [wp_bind, writePte, wp_modify, uvmunmapLoop, wp_pure]
  obtain ⟨hS', hst⟩ := store_pte hS hH ha hq (by decide : 0 < 256 ^ 8) rfl
  exact ⟨hS', Stored.held (k := ⟨_, s.kmem.freelist⟩) hst hH, hst⟩

end Xv6.Proofs.Mem
