import Xv6.Proofs.Mem.Grow

/-!
# `Xv6.Proofs.Mem.Map`: a page table is a finite map

`walk` looks an address up in a page table and `mappages` adds a range of pages to it. The map
is `pte`: the entry of each page, 0 where there is none. `lacks m pt a n` are the tables that
the paths of `n` pages from `a` on lack, each counted once: what `mappages` takes from the
freelist.

Each round of `mappages` completes one path and stores one entry, and the other entries stay
(`mappagesLoop_page`). So the loop maps the range if the freelist has the tables, and otherwise
the pages before the one whose path it could not complete.
-/

set_option autoImplicit false

namespace Xv6.Proofs.Mem

open Lib Lib.Action Kernel

variable {kend : Nat} {s : Pages} {f : List Nat} {pt : Nat}

/-! ### The tables that a range lacks -/

/-- The tables that mapping `n` pages from `a` on takes from the freelist. -/
def lacks (m : Memory) (pt a n : Nat) : Nat :=
  ((Finset.range n).biUnion fun i => missing m pt (a + i * PGSIZE)).card

/-- Pages and tables are all that a range needs. -/
theorem needs_eq_lacks (m : Memory) (a n : Nat) : needs m pt a n = n + lacks m pt a n := rfl

/-- After the first path is complete, the others lack the rest. -/
theorem lacks_succ {m m' : Memory} {a n : Nat}
    (h : ∀ va, missing m' pt va = missing m pt va \ missing m pt a) :
    lacks m pt a (n + 1) = (missing m pt a).card + lacks m' pt (a + PGSIZE) n := by
  have hneeds := needs_succ (n := n) h
  rw [needs_one, needs_eq_lacks, needs_eq_lacks] at hneeds
  omega

/-- A path lacks two tables at most. -/
theorem card_missing_le (m : Memory) (pt a : Nat) : (missing m pt a).card ≤ 2 := by
  have := needs_one_le m pt a
  rw [needs_one] at this
  omega

theorem lacks_le (m : Memory) (pt a n : Nat) : lacks m pt a n ≤ n * 2 := by
  refine (Finset.card_biUnion_le_card_mul _ _ 2 fun i _ => card_missing_le m pt _).trans ?_
  rw [Finset.card_range]

/-! ### The entry of a mapped page -/

/-- An entry keeps the page and the flags apart. -/
theorem leafPte_parts {pa perm : Nat} (hmod : pa % PGSIZE = 0) (hlt : pa < 2 ^ 64)
    (hperm : perm < 1024) :
    PTE2PA (leafPte pa perm) = pa ∧ PTE_FLAGS (leafPte pa perm) = perm ||| PTE_V ∧
      leafPte pa perm < 256 ^ 8 := by
  rw [show PGSIZE = 4096 from rfl] at hmod
  have hflags : perm ||| PTE_V < 1024 := Nat.or_lt_two_pow (n := 10) hperm (by decide)
  rw [leafPte_eq hperm, PTE2PA, PTE_FLAGS]
  omega

theorem leafPte_valid {pa perm : Nat} : leafPte pa perm &&& PTE_V ≠ 0 := by
  have hbit : (leafPte pa perm).testBit 0 = true := by
    rw [leafPte, Nat.testBit_or, show PTE_V.testBit 0 = true by decide, Bool.or_true]
  rw [show PTE_V = 1 from rfl, Nat.and_one_is_mod]
  rw [Nat.testBit_zero, decide_eq_true_eq] at hbit
  omega

/-! ### The loop of `mappages` -/

/-- The `n` pages from `a` on are mapped to the pages from `pa` on, and the tables `new` were
added. Nothing else changed. -/
structure Covered (s : Pages) (pt a pa perm n : Nat) (new : List Nat) (m : Memory) : Prop where
  tables : (tables m pt).Perm (new ++ Mem.tables s.kmem.mem pt)
  leaf : ∀ i < n, pte m pt (a + i * PGSIZE) = leafPte ((pa + i * PGSIZE) % 2 ^ 64) perm
  other : ∀ va < VASPACE, ¬ (a ≤ va ∧ va < a + n * PGSIZE) → pte m pt va = pte s.kmem.mem pt va
  links : Links s.kmem.mem pt → Links m pt
  frame : ∀ q ∈ s.held, q ∉ Mem.tables s.kmem.mem pt → SamePage s.kmem.mem m q

theorem Extended.covered {a pa perm : Nat} {new : List Nat} {m : Memory}
    (h : Extended s pt new m) : Covered s pt a pa perm 0 new m :=
  ⟨h.tables, fun i hi => absurd hi (by omega), fun va _ _ => h.pte va, h.links, h.frame⟩

/-- A round that succeeds, and the rounds after it. -/
theorem Covered.cons {a pa perm n : Nat} {new new₁ : List Nat} {k : Kmem} {m : Memory}
    (hmod : a % PGSIZE = 0) (ha : a < MAXVA) (hpa : pa < 2 ^ 64)
    (hnodup : (new₁ ++ s.held).Nodup) (hM : Mapped s pt a (leafPte pa perm) new₁ k.mem)
    (hC : Covered ⟨k, new₁ ++ s.held⟩ pt (a + PGSIZE) ((pa + PGSIZE) % 2 ^ 64) perm n new m) :
    Covered s pt a pa perm (n + 1) (new ++ new₁) m := by
  have hpg : PGSIZE = 4096 := rfl
  refine ⟨?_, fun i hi => ?_, fun va hva hout => ?_, fun hl => hC.links (hM.links hl),
    fun q hq hqt => ?_⟩
  · rw [List.append_assoc]
    exact hC.tables.trans (hM.tables.append_left new)
  · cases i with
    | zero =>
      -- The first page was mapped in this round, and the others do not touch it.
      rw [Nat.zero_mul, Nat.add_zero, hC.other a (lt_vaspace ha) (by omega)]
      show pte k.mem pt a = _
      rw [hM.pte a (lt_vaspace ha), if_pos rfl, Nat.add_zero, Nat.mod_eq_of_lt hpa]
    | succ i =>
      have hplace : a + (i + 1) * PGSIZE = a + PGSIZE + i * PGSIZE := by
        rw [Nat.succ_mul]
        omega
      have hpage : (pa + (i + 1) * PGSIZE) % 2 ^ 64 =
          ((pa + PGSIZE) % 2 ^ 64 + i * PGSIZE) % 2 ^ 64 := by
        have hsum : pa + (i * PGSIZE + PGSIZE) = pa + PGSIZE + i * PGSIZE := by omega
        rw [Nat.mod_add_mod, Nat.succ_mul, hsum]
      rw [hplace, hpage]
      exact hC.leaf i (by omega)
  · rw [Nat.succ_mul] at hout
    rw [hC.other va hva (by omega)]
    show pte k.mem pt va = _
    rw [hM.pte va hva, if_neg]
    rw [hpg] at hmod hout ⊢
    omega
  · refine (hM.frame q hq hqt).trans (hC.frame q (List.mem_append_right _ hq) fun hmem => ?_)
    rcases List.mem_append.mp ((hM.tables.mem_iff).mp hmem) with hin | hin
    · exact (List.nodup_append.mp hnodup).2.2 q hin q hq rfl
    · exact hqt hin

/-- What `mappages` leaves: `n` pages mapped, and the freelist without the tables `new`. -/
structure Ranged (kend : Nat) (s : Pages) (f : List Nat) (pt a pa perm n : Nat)
    (new rest : List Nat) (k : Kmem) : Prop where
  free : f.Perm (new ++ rest)
  split : Split kend ⟨k, new ++ s.held⟩ rest
  held : Held ⟨k, new ++ s.held⟩ pt
  covered : Covered s pt a pa perm n new k.mem

/-- The loop of `mappages` over pages that are not mapped. -/
theorem mappagesLoop_spec {perm : Nat} (hperm : perm < 1024) (n : Nat) {s : Pages} {f : List Nat}
    {a pa : Nat} (hS : Split kend s f) (hH : Held s pt) (hmod : a % PGSIZE = 0)
    (hmax : a + n * PGSIZE ≤ MAXVA) (hpamod : pa % PGSIZE = 0) (hpa : pa < 2 ^ 64)
    (hfree : ∀ i < n, pte s.kmem.mem pt (a + i * PGSIZE) &&& PTE_V = 0) :
    wp (mappagesLoop pt perm n a pa) (fun r k =>
      r = 0 ∧ lacks s.kmem.mem pt a n ≤ f.length ∧
          (∃ new rest, Ranged kend s f pt a pa perm n new rest k) ∨
        r = -1 ∧ f.length < lacks s.kmem.mem pt a n ∧
          ∃ i < n, ∃ new, Ranged kend s f pt a pa perm i new [] k) (fun _ => False) s.kmem := by
  have hpg : PGSIZE = 4096 := rfl
  induction n generalizing s f a pa with
  | zero =>
    refine .inl ⟨rfl, Nat.zero_le _, [], f, .refl _, hS, hH, (Extended.refl s pt).covered⟩
  | succ n ih =>
    rw [Nat.succ_mul] at hmax
    have ha : a < MAXVA := by omega
    have hhere : pte s.kmem.mem pt a &&& PTE_V = 0 := by
      have := hfree 0 (by omega)
      rwa [Nat.zero_mul] at this
    refine mappagesLoop_page hS hH ha hhere (leafPte_parts hpamod hpa hperm).2.2 ?_ ?_
    · -- The path of this page cannot be completed.
      intro new k hf hS' hH' hfew hE
      have hall : (missing s.kmem.mem pt a).card ≤ lacks s.kmem.mem pt a (n + 1) := by
        refine Finset.card_le_card fun x hx => Finset.mem_biUnion.mpr ⟨0, by simp, ?_⟩
        rwa [Nat.zero_mul]
      refine .inr ⟨rfl, ?_, 0, by omega, new, by rwa [List.append_nil], hS', hH', hE.covered⟩
      rw [hf.length_eq]
      omega
    · intro new₁ f₂ k hf hS' hH' hM
      have hnodup : (new₁ ++ s.held).Nodup := hS'.nodup_held
      have hlacks := lacks_succ (n := n) hM.missing
      have hcount := hM.count
      have hlen := hf.length_eq
      rw [List.length_append] at hlen
      have hlater : ∀ i < n, pte k.mem pt (a + PGSIZE + i * PGSIZE) &&& PTE_V = 0 := by
        intro i hi
        have hplace : a + PGSIZE + i * PGSIZE = a + (i + 1) * PGSIZE := by
          rw [Nat.succ_mul]
          omega
        have hbound : (i + 1) * PGSIZE ≤ n * PGSIZE := Nat.mul_le_mul_right _ hi
        rw [hplace, hM.pte _ (lt_vaspace (by omega)), if_neg]
        · exact hfree (i + 1) (by omega)
        · rw [hpg] at hmod ⊢
          omega
      have hnext : (a + PGSIZE) % PGSIZE = 0 := by
        rw [Nat.add_mod_right]
        exact hmod
      have hpanext : (pa + PGSIZE) % 2 ^ 64 % PGSIZE = 0 := by
        rw [hpg] at hpamod ⊢
        omega
      -- The rest of the loop starts from the state that this round leaves.
      refine wp_mono (ih (s := ⟨k, new₁ ++ s.held⟩) hS' hH' hnext (by omega) hpanext
        (Nat.mod_lt _ (by decide)) hlater) ?_ fun _ => False.elim
      have hranged : ∀ i new rest k',
          Ranged kend ⟨k, new₁ ++ s.held⟩ f₂ pt (a + PGSIZE) ((pa + PGSIZE) % 2 ^ 64) perm i new
            rest k' → Ranged kend s f pt a pa perm (i + 1) (new ++ new₁) rest k' := by
        intro i new rest k' hR
        have hassoc : new ++ new₁ ++ s.held = new ++ (new₁ ++ s.held) := List.append_assoc ..
        refine ⟨?_, by rw [hassoc]; exact hR.split, by rw [hassoc]; exact hR.held,
          hR.covered.cons hmod ha hpa hnodup hM⟩
        refine hf.trans ((hR.free.append_left new₁).trans ?_)
        rw [← List.append_assoc]
        exact List.perm_append_comm.append_right rest
      rintro r k' (⟨rfl, henough, new, rest, hR⟩ | ⟨rfl, hfew, i, hi, new, hR⟩)
      · have henough : lacks k.mem pt (a + PGSIZE) n ≤ f₂.length := henough
        exact .inl ⟨rfl, by omega, new ++ new₁, rest, hranged n new rest k' hR⟩
      · have hfew : f₂.length < lacks k.mem pt (a + PGSIZE) n := hfew
        exact .inr ⟨rfl, by omega, i + 1, by omega, new ++ new₁, hranged i new [] k' hR⟩

/-! ### `mappages` and `walk` -/

/-- `walk` finds the entry of a mapped page. -/
theorem walk_finds {k : Kmem} {va : Nat} (hva : va < MAXVA)
    (h : pte k.mem pt va &&& PTE_V ≠ 0) :
    ∃ a, walk pt va false k = .ok (some a, k) ∧ k.mem.load 8 a = pte k.mem pt va := by
  obtain ⟨q, hq, hpte⟩ := table_of_valid h
  have hfind : wp (walk pt va false) (fun r k' => k' = k ∧ r = some (q + 8 * PX 0 va))
      (fun _ => False) k := by
    rw [wp_walk_find hva, hq]
    exact ⟨rfl, rfl⟩
  obtain ⟨r, k', hrun, rfl, rfl⟩ := wp_returns hfind fun _ => id
  exact ⟨q + 8 * PX 0 va, hrun, hpte.symm⟩

/-- The page table holds what it held, with the `n` pages from `va` on mapped to the pages from
`pa` on. It is again a tree of distinct outstanding pages. -/
def MapsRange (kend : Nat) (s : Pages) (f : List Nat) (pt va pa perm n : Nat) (k : Kmem) : Prop :=
  (∀ i < n, ∃ a, walk pt (va + i * PGSIZE) false k = .ok (some a, k) ∧
      PTE2PA (k.mem.load 8 a) = (pa + i * PGSIZE) % 2 ^ 64 ∧
      PTE_FLAGS (k.mem.load 8 a) = perm ||| PTE_V) ∧
    (∀ va' < MAXVA, ¬ (va ≤ va' ∧ va' < va + n * PGSIZE) →
      pte k.mem pt va' = pte s.kmem.mem pt va') ∧
    ∃ new rest, f.Perm (new ++ rest) ∧ Split kend ⟨k, new ++ s.held⟩ rest ∧
      Held ⟨k, new ++ s.held⟩ pt ∧ (tables k.mem pt).Perm (new ++ tables s.kmem.mem pt)

theorem Ranged.maps {va pa perm n : Nat} {new rest : List Nat} {k : Kmem}
    (h : Ranged kend s f pt va pa perm n new rest k) (hmax : va + n * PGSIZE ≤ MAXVA)
    (hpa : pa % PGSIZE = 0) (hperm : perm < 1024) : MapsRange kend s f pt va pa perm n k := by
  have hpg : PGSIZE = 4096 := rfl
  refine ⟨fun i hi => ?_, fun va' hva' hout => h.covered.other va' (lt_vaspace hva') hout,
    new, rest, h.free, h.split, h.held, h.covered.tables⟩
  have hbound : (i + 1) * PGSIZE ≤ n * PGSIZE := Nat.mul_le_mul_right _ hi
  rw [Nat.succ_mul] at hbound
  have hmod : (pa + i * PGSIZE) % 2 ^ 64 % PGSIZE = 0 := by
    rw [hpg] at hpa ⊢
    omega
  obtain ⟨hpage, hflags, -⟩ := leafPte_parts hmod (Nat.mod_lt _ (by decide)) hperm
  have hleaf := h.covered.leaf i hi
  have hvalid : pte k.mem pt (va + i * PGSIZE) &&& PTE_V ≠ 0 := by
    rw [hleaf]
    exact leafPte_valid
  obtain ⟨a, hrun, hload⟩ := walk_finds (by omega) hvalid
  rw [hleaf] at hload
  exact ⟨a, hrun, by rw [hload]; exact hpage, by rw [hload]; exact hflags⟩

/-- `mappages` adds a range of pages that are not mapped to the map that `walk` reads. If the
freelist lacks a table, it adds a proper part of the range, from its start. -/
theorem mappages_extends_map {va pa sz perm : Nat} (hS : Split kend s f) (hH : Held s pt)
    (hva : va % PGSIZE = 0) (hsz : sz % PGSIZE = 0) (hpos : 0 < sz) (hmax : va + sz ≤ MAXVA)
    (hpa : pa % PGSIZE = 0) (hlt : pa < 2 ^ 64) (hperm : perm < 1024)
    (hfree : ∀ a, va ≤ a → a < va + sz → pte s.kmem.mem pt a &&& PTE_V = 0) :
    ∃ r k, mappages pt va pa sz perm s.kmem = .ok (r, k) ∧
      (lacks s.kmem.mem pt va (sz / PGSIZE) ≤ f.length →
        r = 0 ∧ MapsRange kend s f pt va pa perm (sz / PGSIZE) k) ∧
      (f.length < lacks s.kmem.mem pt va (sz / PGSIZE) →
        r = -1 ∧ ∃ n < sz / PGSIZE, MapsRange kend s f pt va pa perm n k) := by
  have hpg : PGSIZE = 4096 := rfl
  have hmul : sz / PGSIZE * PGSIZE = sz := Nat.div_mul_cancel (Nat.dvd_of_mod_eq_zero hsz)
  have hpages : ∀ i < sz / PGSIZE, pte s.kmem.mem pt (va + i * PGSIZE) &&& PTE_V = 0 := by
    intro i hi
    have hbound : (i + 1) * PGSIZE ≤ sz / PGSIZE * PGSIZE := Nat.mul_le_mul_right _ hi
    rw [Nat.succ_mul] at hbound
    exact hfree _ (by omega) (by omega)
  have hcall : mappages pt va pa sz perm = mappagesLoop pt perm (sz / PGSIZE) va pa := by
    rw [mappages, if_neg (by simpa using hva), if_neg (by simpa using hsz), if_neg (by omega)]
  obtain ⟨r, k, hok, hpost⟩ := wp_returns
    (mappagesLoop_spec hperm _ hS hH hva (by rw [hmul]; exact hmax) hpa hlt hpages) fun _ => id
  refine ⟨r, k, by rw [hcall]; exact hok, fun henough => ?_, fun hfew => ?_⟩
  · rcases hpost with ⟨hr, -, new, rest, hR⟩ | ⟨-, hfew, -⟩
    · exact ⟨hr, hR.maps (by rw [hmul]; exact hmax) hpa hperm⟩
    · omega
  · rcases hpost with ⟨-, henough, -⟩ | ⟨hr, -, n, hn, new, hR⟩
    · omega
    · have hbound : n * PGSIZE ≤ sz / PGSIZE * PGSIZE := Nat.mul_le_mul_right _ (by omega)
      exact ⟨hr, n, hn, hR.maps (by omega) hpa hperm⟩

/-- Two pages below the trampoline, in the empty page table after `kinit` and `uvmcreate`. -/
theorem mappages_extends_map_boot : ∃ k pt k' rest,
    kinit KERNBASE ⟨fun _ => 0, 0⟩ = .ok ((), k) ∧ uvmcreate k = .ok (pt, k') ∧
    ∃ r k'', mappages pt TRAPFRAME KERNBASE (2 * PGSIZE) PTE_RW k' = .ok (r, k'') ∧ r = 0 ∧
      MapsRange KERNBASE ⟨k', [pt]⟩ rest pt TRAPFRAME KERNBASE PTE_RW 2 k'' := by
  obtain ⟨k, pt, k', rest, hinit, hcreate, hspace, hlen, -, hptes⟩ := boot_space
  have htwo : 2 * PGSIZE / PGSIZE = 2 := by decide
  obtain ⟨r, k'', hrun, hmaps, -⟩ := mappages_extends_map hspace.split hspace.held
    (by decide : TRAPFRAME % PGSIZE = 0) (by decide : 2 * PGSIZE % PGSIZE = 0) (by decide)
    (by decide) (by decide : KERNBASE % PGSIZE = 0) (by decide) (by decide : PTE_RW < 1024)
    fun a _ _ => by
      show pte k'.mem pt a &&& PTE_V = 0
      rw [hptes a]
      rfl
  rw [htwo] at hmaps
  have hlacks : lacks k'.mem pt TRAPFRAME 2 ≤ rest.length := (lacks_le _ _ _ _).trans (by omega)
  obtain ⟨hr, hmap⟩ := hmaps hlacks
  exact ⟨k, pt, k', rest, hinit, hcreate, r, k'', hrun, hr, hmap⟩

end Xv6.Proofs.Mem
