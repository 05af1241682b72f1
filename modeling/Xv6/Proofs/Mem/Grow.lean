import Xv6.Proofs.Mem.Space
import Mathlib.Algebra.Order.BigOperators.Group.Finset

/-!
# `Xv6.Proofs.Mem.Grow`: `uvmalloc` and `uvmdealloc`

`uvmalloc` maps a fresh cleared page at every address of a range. `needs m pt a n` is what this
takes from the freelist for `n` pages: the pages themselves, and the tables that their paths
lack, each counted once. Each round takes the page and the tables of its path, and what the
rest needs is what was needed before less these (`needs_succ`).

So `uvmalloc` succeeds exactly if the freelist has `needs` pages. Otherwise it fails in some
round, and calls `uvmdealloc` to undo the rounds before. In the first round there are none. In
a later one `uvmdealloc` does not survive.
-/

set_option autoImplicit false

namespace Xv6.Proofs.Mem

open Lib Lib.Action Kernel

variable {kend : Nat} {s : Pages} {f : List Nat} {pt : Nat}

/-! ### What a range of pages needs -/

/-- The pages that mapping `n` pages from `a` on takes from the freelist. -/
def needs (m : Memory) (pt a n : Nat) : Nat :=
  n + ((Finset.range n).biUnion fun i => missing m pt (a + i * PGSIZE)).card

theorem needs_zero (m : Memory) (pt a : Nat) : needs m pt a 0 = 0 := rfl

theorem needs_one (m : Memory) (pt a : Nat) :
    needs m pt a 1 = 1 + (missing m pt a).card := by
  unfold needs
  rw [Finset.range_one, Finset.singleton_biUnion, Nat.zero_mul]
  rfl

variable {m : Memory} {a n : Nat}

/-- After the first page is mapped, the others need the rest. -/
theorem needs_succ {m' : Memory} (h : ∀ va, missing m' pt va = missing m pt va \ missing m pt a) :
    needs m pt a (n + 1) = needs m pt a 1 + needs m' pt (a + PGSIZE) n := by
  have hunion : (Finset.range (n + 1)).biUnion (fun i => missing m pt (a + i * PGSIZE)) =
      ((Finset.range n).biUnion fun i => missing m' pt (a + PGSIZE + i * PGSIZE)) ∪
        missing m pt a := by
    ext x
    simp only [Finset.mem_biUnion, Finset.mem_range, Finset.mem_union, h, Finset.mem_sdiff]
    constructor
    · rintro ⟨i, hi, hx⟩
      by_cases hxa : x ∈ missing m pt a
      · exact .inr hxa
      · cases i with
        | zero => exact .inr (by rwa [Nat.zero_mul] at hx)
        | succ i =>
          refine .inl ⟨i, by omega, ?_, hxa⟩
          rwa [Nat.succ_mul, Nat.add_comm (i * PGSIZE), ← Nat.add_assoc] at hx
    · rintro (⟨i, hi, hx, -⟩ | hx)
      · refine ⟨i + 1, by omega, ?_⟩
        rwa [Nat.succ_mul, Nat.add_comm (i * PGSIZE), ← Nat.add_assoc]
      · exact ⟨0, by omega, by rwa [Nat.zero_mul]⟩
  have hdisj : Disjoint ((Finset.range n).biUnion fun i => missing m' pt (a + PGSIZE + i * PGSIZE))
      (missing m pt a) := by
    refine Finset.disjoint_left.mpr fun x hx hxa => ?_
    obtain ⟨i, -, hx⟩ := Finset.mem_biUnion.mp hx
    rw [h, Finset.mem_sdiff] at hx
    exact hx.2 hxa
  rw [needs_one]
  unfold needs
  rw [hunion, Finset.card_union_of_disjoint hdisj]
  omega

theorem needs_mono (hn : 0 < n) :
    needs m pt a 1 ≤ needs m pt a n := by
  unfold needs
  have : ((Finset.range 1).biUnion fun i => missing m pt (a + i * PGSIZE)).card ≤
      ((Finset.range n).biUnion fun i => missing m pt (a + i * PGSIZE)).card :=
    Finset.card_le_card (Finset.biUnion_subset_biUnion_of_subset_left _
      (Finset.range_mono hn))
  omega

/-! ### Leaf entries -/

variable {perm : Nat}

theorem leafPte_eq {pa : Nat} (hperm : perm < 1024) :
    leafPte pa perm = 2 ^ 10 * (pa / 2 ^ 12) + (perm ||| PTE_V) := by
  have hlt : perm ||| PTE_V < 2 ^ 10 := Nat.or_lt_two_pow hperm (by decide)
  rw [leafPte, Nat.or_assoc, PA2PTE, Nat.mul_comm]
  exact (Nat.two_pow_add_eq_or_of_lt hlt _).symm

/-- The entry of a page with some permission maps the page. -/
theorem leaf_leafPte {pa : Nat} (hmod : pa % PGSIZE = 0) (hlt : pa < 2 ^ 56) (hperm : perm < 1024)
    (hleaf : perm ||| PTE_V ≠ PTE_V) :
    Leaf (leafPte pa perm) pa ∧ leafPte pa perm < 256 ^ 8 := by
  rw [show PGSIZE = 4096 from rfl] at hmod
  have hflags : perm ||| PTE_V < 1024 := Nat.or_lt_two_pow (n := 10) hperm (by decide)
  have hodd : (perm ||| PTE_V) % 2 = 1 := by
    have := Nat.or_mod_two_pow (a := perm) (b := PTE_V) (n := 1)
    have hcases : perm % 2 = 0 ∨ perm % 2 = 1 := by omega
    rw [show 2 ^ 1 = 2 from rfl] at this
    rw [this]
    rcases hcases with h | h
    · rw [h]
      rfl
    · rw [h]
      rfl
  rw [leafPte_eq hperm]
  refine ⟨⟨?_, ?_, ?_⟩, by omega⟩
  · show (2 ^ 10 * (pa / 2 ^ 12) + (perm ||| PTE_V)) &&& 1 ≠ 0
    rw [Nat.and_one_is_mod]
    omega
  · have hlow : PTE_FLAGS (2 ^ 10 * (pa / 2 ^ 12) + (perm ||| PTE_V)) = perm ||| PTE_V := by
      unfold PTE_FLAGS
      omega
    rw [hlow]
    exact hleaf
  · rw [PTE2PA]
    omega

/-- A readable page is a leaf. -/
theorem readable_leaf : PTE_R ||| PTE_U ||| perm ||| PTE_V ≠ PTE_V := by
  intro h
  have hbit : (PTE_R ||| PTE_U ||| perm ||| PTE_V).testBit 1 = true := by
    rw [Nat.testBit_or, Nat.testBit_or, show (PTE_R ||| PTE_U).testBit 1 = true by decide]
    simp
  rw [h] at hbit
  exact absurd hbit (by decide)

theorem readable_lt (h : perm < 1024) : PTE_R ||| PTE_U ||| perm < 1024 :=
  Nat.or_lt_two_pow (n := 10) (by decide) h

/-! ### Fresh pages -/

variable {k : Kmem}

theorem Held.of_mem {held held' : List Nat} (h : Held ⟨k, held⟩ pt) (hmem : ∀ q ∈ held, q ∈ held') :
    Held ⟨k, held'⟩ pt :=
  ⟨h.nodup, fun q hq => hmem q (h.held q hq)⟩

/-- A tree whose pages stay is held as before. -/
theorem Held.of_same {held' : List Nat} (h : Held s pt)
    (hsame : tables k.mem pt = tables s.kmem.mem pt)
    (hheld : ∀ q ∈ tables s.kmem.mem pt, q ∈ held') : Held ⟨k, held'⟩ pt := by
  refine ⟨?_, fun q hq => hheld q ?_⟩
  · show (tables k.mem pt).Nodup
    rw [hsame]
    exact h.nodup
  · rw [← hsame]
    exact hq

variable {pg : Nat} {rest : List Nat}

/-- A page is taken from the freelist and filled; the pages outstanding before stay. -/
theorem fresh_page (m' : Memory) (hS : Split kend ⟨k, pg :: s.held⟩ rest)
    (hmem : ∀ a, ¬ (pg ≤ a ∧ a < pg + PGSIZE) → k.mem a = s.kmem.mem a)
    (hm' : ∀ a, ¬ (pg ≤ a ∧ a < pg + PGSIZE) → m' a = k.mem a) :
    Split kend ⟨{ k with mem := m' }, pg :: s.held⟩ rest ∧
      ∀ q ∈ s.held, SamePage s.kmem.mem m' q := by
  refine ⟨hS.of_write List.mem_cons_self hm', fun q hq => ?_⟩
  have hne : pg ≠ q := fun h => (List.nodup_cons.mp hS.nodup_held).1 (h ▸ hq)
  refine samePage_of_apart (hS.outstanding List.mem_cons_self)
    (hS.outstanding (List.mem_cons_of_mem pg hq)) hne fun a ha => ?_
  rw [hm' a ha, hmem a ha]

/-! ### `uvmalloc` -/

/-- The pages from `a` on are mapped to `l`, which is cleared, and the tables `new` were added.
Nothing else changed. -/
structure Grown (s : Pages) (pt a perm : Nat) (l new : List Nat) (m : Memory) : Prop where
  tables : (tables m pt).Perm (new ++ Mem.tables s.kmem.mem pt)
  leaf : ∀ i d, l[i]? = some d → pte m pt (a + i * PGSIZE) = leafPte d perm
  other : ∀ va < VASPACE, ¬ (a ≤ va ∧ va < a + l.length * PGSIZE) →
    pte m pt va = pte s.kmem.mem pt va
  links : Links s.kmem.mem pt → Links m pt
  zero : ∀ d ∈ l, ∀ b, d ≤ b → b < d + PGSIZE → m b = 0
  frame : ∀ q ∈ s.held, q ∉ Mem.tables s.kmem.mem pt → SamePage s.kmem.mem m q

/-- `uvmalloc` took the pages `l` and the tables `new`. -/
structure Took (kend : Nat) (s : Pages) (f : List Nat) (pt a perm : Nat) (l new rest : List Nat)
    (k : Kmem) : Prop where
  free : f.Perm (l ++ new ++ rest)
  count : l.length + new.length = needs s.kmem.mem pt a l.length
  split : Split kend ⟨k, l ++ new ++ s.held⟩ rest
  held : Held ⟨k, l ++ new ++ s.held⟩ pt
  grown : Grown s pt a perm l new k.mem

/-- The pages `l` were mapped from `a` on, and the tables `new` were added. Nothing else changed. -/
structure Joined (kend : Nat) (s : Pages) (f : List Nat) (pt a : Nat) (l new rest : List Nat)
    (k : Kmem) : Prop where
  free : f.Perm (l ++ new ++ rest)
  split : Split kend ⟨k, l ++ new ++ s.held⟩ rest
  held : Held ⟨k, l ++ new ++ s.held⟩ pt
  tables : (tables k.mem pt).Perm (new ++ Mem.tables s.kmem.mem pt)
  other : ∀ va < VASPACE, ¬ (a ≤ va ∧ va < a + l.length * PGSIZE) →
    pte k.mem pt va = pte s.kmem.mem pt va
  links : Links s.kmem.mem pt → Links k.mem pt
  frame : ∀ q ∈ s.held, q ∉ Mem.tables s.kmem.mem pt → SamePage s.kmem.mem k.mem q

theorem Joined.refl (hS : Split kend s f) (hH : Held s pt) :
    Joined kend s f pt a [] [] f s.kmem :=
  ⟨.refl _, hS, hH, .refl _, fun _ _ _ => rfl, id, fun q _ _ => SamePage.refl _ q⟩

variable {l new : List Nat}

theorem Took.joined (h : Took kend s f pt a perm l new rest k) :
    Joined kend s f pt a l new rest k :=
  ⟨h.free, h.split, h.held, h.grown.tables, h.grown.other, h.grown.links, h.grown.frame⟩

variable {s₁ : Pages} {f₁ : List Nat}

/-- A round that succeeds, and the rounds after it: these leave the page and its entry. -/
theorem Joined.cons {s₂ : Pages} {e : Nat} {f₂ new₁ : List Nat} (hpg : pg ∉ s.held)
    (hH : Held s pt) (hf : f = pg :: f₁) (hf₁ : f₁.Perm (new₁ ++ f₂))
    (hs₁ : s₁.held = pg :: s.held) (hs₂ : s₂.held = new₁ ++ s₁.held) (hnodup : s₂.held.Nodup)
    (hmod : a % PGSIZE = 0) (ha : a < MAXVA)
    (hsame : ∀ q ∈ s.held, SamePage s.kmem.mem s₁.kmem.mem q)
    (hM : Mapped s₁ pt a e new₁ s₂.kmem.mem) (hJ : Joined kend s₂ f₂ pt (a + PGSIZE) l new rest k) :
    Joined kend s f pt a (pg :: l) (new ++ new₁) rest k ∧ pte k.mem pt a = e ∧
      SamePage s₁.kmem.mem k.mem pg := by
  have hsz : PGSIZE = 4096 := rfl
  obtain ⟨htables, -, hptes, -⟩ := table_same pt fun x hx => hsame x (hH.held x hx)
  have hperm : (l ++ new ++ s₂.held).Perm (pg :: l ++ (new ++ new₁) ++ s.held) := by
    rw [hs₂, hs₁]
    refine List.perm_iff_count.mpr fun x => ?_
    simp only [List.count_append, List.count_cons]
    omega
  have hfree : f.Perm (pg :: l ++ (new ++ new₁) ++ rest) := by
    rw [hf]
    refine (hf₁.cons pg).trans (((hJ.free.append_left new₁).cons pg).trans ?_)
    refine List.perm_iff_count.mpr fun x => ?_
    simp only [List.count_append, List.count_cons]
    omega
  -- The pages outstanding before, and the new page, are no tables of the second state.
  have hnot₂ : ∀ q, q ∈ s₁.held → q ∉ Mem.tables s.kmem.mem pt → q ∉ Mem.tables s₂.kmem.mem pt :=
    fun q hq hqt => hM.not_table (by rw [← hs₂]; exact hnodup) hq (by rw [htables]; exact hqt)
  have hkeep : ∀ q, q ∈ s₁.held → q ∉ Mem.tables s.kmem.mem pt →
      SamePage s₁.kmem.mem k.mem q := by
    intro q hq hqt
    refine (hM.frame q hq (by rw [htables]; exact hqt)).trans (hJ.frame q ?_ (hnot₂ q hq hqt))
    rw [hs₂]
    exact List.mem_append_right _ hq
  have hpgt : pg ∉ Mem.tables s.kmem.mem pt := fun h => hpg (hH.held pg h)
  refine ⟨⟨hfree, hJ.split.perm hperm, hJ.held.of_mem fun q hq => hperm.mem_iff.mp hq, ?_, ?_, ?_,
    fun q hq hqt => ?_⟩, ?_, hkeep pg (by rw [hs₁]; exact List.mem_cons_self) hpgt⟩
  · refine hJ.tables.trans ((hM.tables.append_left new).trans ?_)
    rw [htables, List.append_assoc]
  · intro va hva hout
    rw [List.length_cons, Nat.succ_mul] at hout
    rw [hJ.other va hva (by omega), hM.pte va hva, if_neg, hptes va]
    rw [hsz] at hmod hout ⊢
    omega
  · intro hl
    exact hJ.links (hM.links (links_same (fun x hx => hsame x (hH.held x hx)) hl))
  · exact (hsame q hq).trans (hkeep q (by rw [hs₁]; exact List.mem_cons_of_mem pg hq) hqt)
  · rw [hJ.other a (lt_vaspace ha) (by omega), hM.pte a (lt_vaspace ha), if_pos rfl]

/-- A round of `uvmalloc` that succeeds, and the rounds after it. -/
theorem Took.cons {s₂ : Pages} {f₂ new₁ : List Nat} (hpg : pg ∉ s.held) (hH : Held s pt)
    (hf : f = pg :: f₁) (hf₁ : f₁.Perm (new₁ ++ f₂)) (hs₁ : s₁.held = pg :: s.held)
    (hs₂ : s₂.held = new₁ ++ s₁.held) (hnodup : s₂.held.Nodup) (hmod : a % PGSIZE = 0)
    (ha : a < MAXVA) (hsame : ∀ q ∈ s.held, SamePage s.kmem.mem s₁.kmem.mem q)
    (hzero : ∀ b, pg ≤ b → b < pg + PGSIZE → s₁.kmem.mem b = 0)
    (hM : Mapped s₁ pt a (leafPte pg perm) new₁ s₂.kmem.mem)
    (hT : Took kend s₂ f₂ pt (a + PGSIZE) perm l new rest k) :
    Took kend s f pt a perm (pg :: l) (new ++ new₁) rest k := by
  obtain ⟨-, -, -, hmissing⟩ := table_same pt fun x hx => hsame x (hH.held x hx)
  obtain ⟨hJ, hentry, hpage⟩ := hT.joined.cons hpg hH hf hf₁ hs₁ hs₂ hnodup hmod ha hsame hM
  have hcount : (pg :: l).length + (new ++ new₁).length =
      needs s.kmem.mem pt a (pg :: l).length := by
    have hmiss₂ : ∀ va, missing s₂.kmem.mem pt va =
        missing s.kmem.mem pt va \ missing s.kmem.mem pt a := by
      intro va
      rw [hM.missing va, hmissing va, hmissing a]
    have hneeds := needs_succ (n := l.length) hmiss₂
    have hnew := hM.count
    have hrest := hT.count
    rw [hmissing a] at hnew
    rw [List.length_cons, hneeds, needs_one, List.length_append]
    omega
  refine ⟨hJ.free, hcount, hJ.split, hJ.held, hJ.tables, fun i d hd => ?_, hJ.other, hJ.links,
    fun d hd b hlo hhi => ?_, hJ.frame⟩
  · cases i with
    | zero =>
      obtain rfl : pg = d := Option.some.inj hd
      rw [Nat.zero_mul, Nat.add_zero]
      exact hentry
    | succ i =>
      rw [Nat.succ_mul, Nat.add_comm (i * PGSIZE), ← Nat.add_assoc]
      exact hT.grown.leaf i d hd
  · rcases List.mem_cons.mp hd with rfl | hd
    · rw [hpage b hlo hhi]
      exact hzero b hlo hhi
    · exact hT.grown.zero d hd b hlo hhi

/-- The mapping of a page failed, and the page is given back: only tables were added. -/
structure Gave (kend : Nat) (s : Pages) (f : List Nat) (pt : Nat) (new rest : List Nat)
    (k : Kmem) : Prop where
  free : f.Perm (new ++ rest)
  split : Split kend ⟨k, new ++ s.held⟩ rest
  held : Held ⟨k, new ++ s.held⟩ pt
  extended : Extended s pt new k.mem

/-- A round that fails gives the page back. -/
theorem gave_back (hend : 0 < kend) (hH : Held s pt) (hf : f = pg :: f₁) (hf₁ : f₁.Perm new)
    (hs₁ : s₁.held = pg :: s.held) (hsame : ∀ q ∈ s.held, SamePage s.kmem.mem s₁.kmem.mem q)
    (hS : Split kend ⟨k, new ++ s₁.held⟩ []) (hE : Extended s₁ pt new k.mem) :
    wp (kfree kend pg) (fun _ k => Gave kend s f pt new [pg] k) (fun _ => False) k := by
  obtain ⟨htables, -, hptes, -⟩ := table_same pt fun x hx => hsame x (hH.held x hx)
  have hnodup : (new ++ s₁.held).Nodup := hS.nodup_held
  rw [hs₁] at hS hnodup
  have hpgmem : pg ∈ new ++ pg :: s.held := List.mem_append_right _ List.mem_cons_self
  have herase : ((new ++ pg :: s.held).erase pg).Perm (new ++ s.held) :=
    (List.perm_middle.erase pg).trans (List.Perm.of_eq (List.erase_cons_head ..))
  have hfresh : pg ∉ new ++ s.held :=
    (List.nodup_cons.mp (List.perm_middle.nodup_iff.mp hnodup)).1
  have hpool : ∀ q ∈ new ++ s.held, InPool kend q := fun q hq =>
    hS.outstanding (List.perm_middle.mem_iff.mpr (List.mem_cons_of_mem pg hq))
  refine wp_post (kfree_page hS hpgmem hend) ?_
  rintro _ k' ⟨hSk, hmem⟩
  have hkeep : ∀ q ∈ new ++ s.held, SamePage k.mem k'.mem q := fun q hq =>
    samePage_of_apart (hS.outstanding hpgmem) (hpool q hq) (fun h => hfresh (h ▸ hq)) hmem
  have hintree : ∀ q ∈ tables k.mem pt, q ∈ new ++ s.held := by
    intro q hq
    rcases List.mem_append.mp ((hE.tables.mem_iff).mp hq) with hin | hin
    · exact List.mem_append_left _ hin
    · rw [htables] at hin
      exact List.mem_append_right _ (hH.held q hin)
  obtain ⟨htables', -, hptes', -⟩ := table_same pt fun x hx => hkeep x (hintree x hx)
  have hperm : (tables k'.mem pt).Perm (new ++ tables s.kmem.mem pt) := by
    rw [htables', ← htables]
    exact hE.tables
  have hext : Extended s pt new k'.mem := by
    refine ⟨hperm, fun va => ?_, fun hl => ?_, fun q hq hqt => ?_⟩
    · rw [hptes' va, hE.pte va, hptes va]
    · exact links_same (fun x hx => hkeep x (hintree x hx))
        (hE.links (links_same (fun x hx => hsame x (hH.held x hx)) hl))
    · have hq₁ : q ∈ s₁.held := by
        rw [hs₁]
        exact List.mem_cons_of_mem pg hq
      exact ((hsame q hq).trans (hE.frame q hq₁ (by rw [htables]; exact hqt))).trans
        (hkeep q (List.mem_append_right _ hq))
  have hnew : (new ++ s.held).Nodup :=
    (List.nodup_cons.mp (List.perm_middle.nodup_iff.mp hnodup)).2
  refine ⟨?_, hSk.perm herase, hext.held hH hnew, hext⟩
  rw [hf]
  exact (hf₁.cons pg).trans (List.perm_append_singleton pg new).symm

/-- An aligned address is its own rounding. -/
theorem round_aligned (h : a % PGSIZE = 0) : PGROUNDUP a = a := by
  have hpg : PGSIZE = 4096 := rfl
  unfold PGROUNDUP
  rw [hpg] at h ⊢
  omega

/-- The rollback of `uvmalloc`: it has nothing to do in the first round, and stops in a later
one. -/
theorem rollback (hend : KERNBASE ≤ kend) {base : Nat} (hS : Split kend s f) (hH : Held s pt)
    (hmod : base % PGSIZE = 0) (hsize : base + l.length * PGSIZE = a) (hmax : a < MAXVA)
    (hl : Leaves s.kmem.mem pt base l) (hnodup : l.Nodup) (hheld : ∀ d ∈ l, d ∈ s.held)
    (hapart : ∀ d ∈ l, d ∉ tables s.kmem.mem pt) (hbeyond : pte s.kmem.mem pt a &&& PTE_V = 0) :
    wp (uvmdealloc kend pt a base) (fun _ k => l = [] ∧ k = s.kmem) (fun _ => l ≠ []) s.kmem := by
  have hpg : PGSIZE = 4096 := rfl
  have hamod : a % PGSIZE = 0 := by
    rw [← hsize, Nat.add_mul_mod_self_right]
    exact hmod
  by_cases hnil : l = []
  · subst hnil
    rw [List.length_nil, Nat.zero_mul] at hsize
    rw [uvmdealloc, if_pos (by omega), wp_pure]
    exact ⟨rfl, rfl⟩
  · have hpos : 0 < l.length := List.length_pos_of_ne_nil hnil
    have hlt : base < a := by
      rw [hpg] at hsize
      omega
    have hbase := round_aligned hmod
    have ha := round_aligned hamod
    have hround : PGROUNDUP base < PGROUNDUP a := by omega
    have hpanic := uvmdealloc_panics hend hS hH hround (by omega) (by omega)
      (by rw [hbase]; exact hl) hnodup hheld hapart (by rw [ha]; exact hbeyond)
    exact wp_mono hpanic (fun _ _ h => h.elim) fun _ _ => hnil

variable {newsz xperm : Nat}

/-- The loop of `uvmalloc`, after the pages `done` were mapped from `base` on. -/
theorem uvmallocLoop_spec (hend : KERNBASE ≤ kend) {base : Nat} (hx : xperm < 1024)
    (hbase : base % PGSIZE = 0) (n : Nat) {s : Pages} {f : List Nat} (hS : Split kend s f)
    (hH : Held s pt) (hsize : base + l.length * PGSIZE = a)
    (hmax : a + min n (f.length + 1) * PGSIZE ≤ TRAPFRAME) (hl : Leaves s.kmem.mem pt base l)
    (hnodup : l.Nodup) (hheld : ∀ d ∈ l, d ∈ s.held) (hapart : ∀ d ∈ l, d ∉ tables s.kmem.mem pt)
    (hbeyond : ∀ va, a ≤ va → va < TRAPFRAME → pte s.kmem.mem pt va &&& PTE_V = 0) :
    wp (uvmallocLoop kend pt base newsz xperm n a)
      (fun r k => r = newsz ∧ needs s.kmem.mem pt a n ≤ f.length ∧
          (∃ l' new rest, l'.length = n ∧
            Took kend s f pt a (PTE_R ||| PTE_U ||| xperm) l' new rest k) ∨
        r = 0 ∧ l = [] ∧ 0 < n ∧ f.length < needs s.kmem.mem pt a 1 ∧
          ∃ new rest, Gave kend s f pt new rest k)
      (fun _ => f.length < needs s.kmem.mem pt a n ∧
        (l ≠ [] ∨ needs s.kmem.mem pt a 1 ≤ f.length)) s.kmem := by
  have hpg : PGSIZE = 4096 := rfl
  have hpos : 0 < kend := Nat.lt_of_lt_of_le (by decide) hend
  have htf : TRAPFRAME + 8192 = MAXVA := by decide
  -- The rounds before are in `l`: what a failure does depends on whether there were any.
  induction n generalizing s f a l with
  | zero =>
    rw [uvmallocLoop, wp_pure, needs_zero]
    refine .inl ⟨rfl, Nat.zero_le _, [], [], f, rfl, .refl _, rfl, hS, hH, .refl _, ?_, ?_, id,
      ?_, ?_⟩
    · exact fun i d hd => absurd hd (by simp)
    · exact fun va _ _ => rfl
    · exact fun d hd => absurd hd List.not_mem_nil
    · exact fun q _ _ => SamePage.refl _ q
  | succ n ih =>
    have hroom : a + PGSIZE ≤ TRAPFRAME := by
      have : 1 * PGSIZE ≤ min (n + 1) (f.length + 1) * PGSIZE :=
        Nat.mul_le_mul_right _ (by omega)
      omega
    have hmod : a % PGSIZE = 0 := by
      rw [← hsize, Nat.add_mul_mod_self_right]
      exact hbase
    have ha : a < MAXVA := by omega
    have hinvalid := hbeyond a (Nat.le_refl _) (by omega)
    have hone : needs s.kmem.mem pt a 1 ≤ needs s.kmem.mem pt a (n + 1) :=
      needs_mono (Nat.succ_pos n)
    rw [uvmallocLoop, wp_bind]
    refine wp_mono (kalloc_page hS) ?_ fun _ => False.elim
    rintro pg k (⟨hf, hzero, hk⟩ | ⟨f₁, hf, hne, hSk, hmem⟩)
    · -- No page is left.
      have hshort : f.length < needs s.kmem.mem pt a 1 := by
        rw [hf, needs_one, List.length_nil]
        omega
      rw [if_pos hzero, wp_bind, hk]
      refine wp_mono (rollback hend hS hH hbase hsize ha hl hnodup hheld hapart hinvalid)
        ?_ fun _ hne => ⟨by omega, .inl hne⟩
      rintro _ k' ⟨hnil, rfl⟩
      rw [wp_pure]
      exact .inr ⟨rfl, hnil, Nat.succ_pos n, hshort, [], f, .refl _, hS, hH,
        Extended.refl s pt⟩
    · rw [if_neg hne, wp_bind, memset, wp_modify, wp_bind]
      obtain ⟨hS₁, hsame⟩ := fresh_page (k.mem.fill pg PGSIZE 0) hSk hmem
        fun b hb => if_neg hb
      obtain ⟨htables, -, hptes, hmissing⟩ := table_same pt fun x hx =>
        hsame x (hH.held x hx)
      have hH₁ : Held ⟨{ k with mem := k.mem.fill pg PGSIZE 0 }, pg :: s.held⟩ pt :=
        hH.of_same htables fun q hq => List.mem_cons_of_mem pg (hH.held q hq)
      have hpool := hSk.outstanding (List.mem_cons_self (a := pg))
      obtain ⟨hleaf, hfits⟩ := leaf_leafPte hpool.1 hpool.lt
        (readable_lt hx) readable_leaf
      have hfresh : pg ∉ s.held := (List.nodup_cons.mp hSk.nodup_held).1
      have hinvalid₁ : pte (k.mem.fill pg PGSIZE 0) pt a &&& PTE_V = 0 := by
        rw [hptes a]
        exact hinvalid
      refine wp_mono (mappages_page hS₁ hH₁ hmod ha hinvalid₁ hfits) ?_ fun _ => False.elim
      rintro r k₂ ⟨new₁, f₂, hf₁, hS₂, hH₂, ⟨hr, hnil, hcard, hE⟩ | ⟨hr, hM⟩⟩
      · -- No page is left for a table.
        have hf₁ : f₁.Perm new₁ := by rwa [hnil, List.append_nil] at hf₁
        have hcard : new₁.length < (missing (k.mem.fill pg PGSIZE 0) pt a).card := hcard
        have hshort : f.length < needs s.kmem.mem pt a 1 := by
          rw [hf, needs_one, List.length_cons, hf₁.length_eq]
          rw [hmissing a] at hcard
          omega
        rw [hnil] at hS₂
        rw [if_pos (by rw [hr]; decide), wp_bind]
        refine wp_mono (gave_back hpos hH hf hf₁ rfl hsame hS₂ hE) ?_ fun _ => False.elim
        intro _ k₃ hG
        have hptes₃ := hG.extended.pte
        rw [wp_bind]
        refine wp_mono (rollback hend hG.split hG.held hbase hsize ha
          (hl.congr fun i _ => hptes₃ _) hnodup
          (fun d hd => List.mem_append_right _ (hheld d hd)) (fun d hd hdt => ?_)
          (by rw [← hptes₃ a] at hinvalid; exact hinvalid)) ?_ fun _ hne => ⟨by omega, .inl hne⟩
        · rcases List.mem_append.mp ((hG.extended.tables.mem_iff).mp hdt) with hin | hin
          · exact (List.nodup_append.mp hG.split.nodup_held).2.2 d hin d (hheld d hd) rfl
          · exact hapart d hd hin
        · rintro _ k' ⟨hnil, rfl⟩
          rw [wp_pure]
          exact .inr ⟨rfl, hnil, Nat.succ_pos n, hshort, new₁, [pg], hG⟩
      · -- The round succeeds, and the page joins those done.
        rw [if_neg (by rw [hr]; simp)]
        have hcount : new₁.length = (missing s.kmem.mem pt a).card := by
          rw [← hmissing a]
          exact hM.count
        have hmiss₂ : ∀ va, missing k₂.mem pt va =
            missing s.kmem.mem pt va \ missing s.kmem.mem pt a := by
          intro va
          rw [← hmissing va, ← hmissing a]
          exact hM.missing va
        have hneeds := needs_succ (n := n) hmiss₂
        have hlen : f.length = needs s.kmem.mem pt a 1 + f₂.length := by
          rw [hf, needs_one, List.length_cons, hf₁.length_eq, List.length_append]
          omega
        have hpte₂ : ∀ va < VASPACE, pte k₂.mem pt va =
            if va / PGSIZE = a / PGSIZE then leafPte pg (PTE_R ||| PTE_U ||| xperm)
            else pte s.kmem.mem pt va := by
          intro va hva
          rw [← hptes va]
          exact hM.pte va hva
        have htables₂ : ∀ d ∈ pg :: s.held, d ∉ tables s.kmem.mem pt →
            d ∉ tables k₂.mem pt := fun d hd hdt =>
          hM.not_table hS₂.nodup_held hd fun hin => hdt (htables ▸ hin)
        have hbelow : ∀ i < l.length, base + i * PGSIZE + PGSIZE ≤ a := by
          intro i hi
          have : (i + 1) * PGSIZE ≤ l.length * PGSIZE := Nat.mul_le_mul_right _ hi
          rw [Nat.succ_mul] at this
          omega
        -- Each round takes a page, so it leaves room for as many rounds as there can be.
        have hless : (min n (f₂.length + 1) + 1) * PGSIZE ≤
            min (n + 1) (f.length + 1) * PGSIZE := by
          refine Nat.mul_le_mul_right _ ?_
          rw [needs_one] at hlen
          omega
        rw [Nat.succ_mul] at hless
        have hnext := ih (s := ⟨k₂, new₁ ++ pg :: s.held⟩) (l := l ++ [pg]) (a := a + PGSIZE)
          hS₂ hH₂
          (by rw [List.length_append, List.length_singleton, Nat.succ_mul]; omega) (by omega)
          ?_ ?_ ?_ ?_ ?_
        · refine wp_mono hnext ?_ ?_
          · rintro r' k' (⟨hr', hle, l', new, rest, hl', hT⟩ | ⟨-, hnil, -⟩)
            · have hle : needs k₂.mem pt (a + PGSIZE) n ≤ f₂.length := hle
              refine .inl ⟨hr', by omega, pg :: l', new ++ new₁, rest, by rw [← hl']; rfl, ?_⟩
              exact hT.cons hfresh hH hf hf₁ rfl rfl hS₂.nodup_held hmod ha hsame
                (fun b hlo hhi => if_pos ⟨hlo, hhi⟩) hM
            · exact absurd hnil (by simp)
          · rintro _ ⟨hlt, -⟩
            have hlt : f₂.length < needs k₂.mem pt (a + PGSIZE) n := hlt
            exact ⟨by omega, .inr (by omega)⟩
        · intro i d hd
          show Leaf (pte k₂.mem pt _) d
          by_cases hi : i < l.length
          · rw [List.getElem?_append_left hi] at hd
            have := hbelow i hi
            rw [hpte₂ _ (lt_vaspace (by omega)), if_neg (by rw [hpg] at hmod this ⊢; omega)]
            exact hl i d hd
          · rw [List.getElem?_append_right (by omega)] at hd
            obtain ⟨hzero, hd⟩ := List.getElem?_eq_some_iff.mp hd
            have hi' : i = l.length := by
              rw [List.length_singleton] at hzero
              omega
            subst hi'
            rw [hsize, hpte₂ a (lt_vaspace ha), if_pos rfl]
            rw [List.getElem_singleton] at hd
            rw [← hd]
            exact hleaf
        · refine (List.perm_append_singleton pg l).nodup_iff.mpr (List.nodup_cons.mpr ⟨?_, hnodup⟩)
          exact fun hm => hfresh (hheld pg hm)
        · intro d hd
          refine List.mem_append_right _ ?_
          rcases List.mem_append.mp hd with hd | hd
          · exact List.mem_cons_of_mem pg (hheld d hd)
          · rw [List.mem_singleton.mp hd]
            exact List.mem_cons_self
        · intro d hd
          rcases List.mem_append.mp hd with hd | hd
          · exact htables₂ d (List.mem_cons_of_mem pg (hheld d hd)) (hapart d hd)
          · rw [List.mem_singleton.mp hd]
            exact htables₂ pg List.mem_cons_self fun h => hfresh (hH.held pg h)
        · intro va hlo hhi
          show pte k₂.mem pt va &&& PTE_V = 0
          rw [hpte₂ va (lt_vaspace (by omega)), if_neg (by rw [hpg] at hmod hlo ⊢; omega)]
          exact hbeyond va (by omega) hhi

/-- The pages between two sizes. -/
def pagesBetween (oldsz newsz : Nat) : Nat := (PGROUNDUP newsz - PGROUNDUP oldsz) / PGSIZE

theorem round_mono {b : Nat} (h : a ≤ b) : PGROUNDUP a ≤ PGROUNDUP b :=
  Nat.mul_le_mul_right _ (Nat.div_le_div_right (by omega))

variable {oldsz : Nat}

/-- The two roundings differ by whole pages. -/
theorem pagesBetween_mul (h : oldsz ≤ newsz) :
    PGROUNDUP oldsz + pagesBetween oldsz newsz * PGSIZE = PGROUNDUP newsz := by
  have hpg : PGSIZE = 4096 := rfl
  have hmono := round_mono h
  have h1 := round_mod oldsz
  have h2 := round_mod newsz
  unfold pagesBetween
  rw [hpg] at h1 h2 ⊢
  omega

/-- The RAM does not reach up to the trapframe. -/
theorem UserSpace.room (hend : KERNBASE ≤ kend) {sz : Nat} (h : UserSpace kend s f pt sz l) :
    PGROUNDUP sz + (f.length + 1) * PGSIZE ≤ TRAPFRAME := by
  have hpg : PGSIZE = 4096 := rfl
  have hram : PHYSTOP - KERNBASE = 134217728 := rfl
  have htf : TRAPFRAME = 67108862 * 4096 := rfl
  have hsize := h.size
  have hnodup : (f ++ l).Nodup := by
    refine List.nodup_append.mpr ⟨(List.nodup_append.mp h.split.nodup).1, h.nodup, ?_⟩
    rintro x hx y hy rfl
    exact h.split.apart (h.owned x hy) hx
  have hpool := length_pool hnodup (fun d hd => ?_) hend
  · rw [List.length_append, Nat.add_mul] at hpool
    rw [Nat.succ_mul]
    omega
  · rcases List.mem_append.mp hd with hd | hd
    · exact h.split.free hd
    · exact h.split.outstanding (h.owned d hd)

/-- The loop of `uvmalloc` has a round for each page between the roundings. -/
theorem uvmalloc_rounds (hle : oldsz ≤ newsz) :
    (newsz - PGROUNDUP oldsz + PGSIZE - 1) / PGSIZE = pagesBetween oldsz newsz := by
  have hpg : PGSIZE = 4096 := rfl
  have hmono := round_mono hle
  have h1 := round_mod oldsz
  unfold pagesBetween
  unfold PGROUNDUP at h1 hmono ⊢
  rw [hpg] at h1 hmono ⊢
  omega

/-- `uvmalloc` of an address space: it succeeds, it fails in the first round, or it panics. -/
theorem uvmalloc_spec (hend : KERNBASE ≤ kend) (h : UserSpace kend s f pt oldsz l)
    (hle : oldsz ≤ newsz) (hx : xperm < 1024) :
    wp (uvmalloc kend pt oldsz newsz xperm)
      (fun r k => r = newsz ∧
          needs s.kmem.mem pt (PGROUNDUP oldsz) (pagesBetween oldsz newsz) ≤ f.length ∧
          (∃ l' new rest, l'.length = pagesBetween oldsz newsz ∧
            Took kend s f pt (PGROUNDUP oldsz) (PTE_R ||| PTE_U ||| xperm) l' new rest k) ∨
        r = 0 ∧ 0 < pagesBetween oldsz newsz ∧
          f.length < needs s.kmem.mem pt (PGROUNDUP oldsz) 1 ∧
          ∃ new rest, Gave kend s f pt new rest k)
      (fun _ => f.length < needs s.kmem.mem pt (PGROUNDUP oldsz) (pagesBetween oldsz newsz) ∧
        needs s.kmem.mem pt (PGROUNDUP oldsz) 1 ≤ f.length) s.kmem := by
  have hpg : PGSIZE = 4096 := rfl
  have hmono := round_mono hle
  have hmul := pagesBetween_mul hle
  have hcount := uvmalloc_rounds hle
  rw [uvmalloc, if_neg (by omega)]
  show wp (uvmallocLoop kend pt (PGROUNDUP oldsz) newsz xperm
    ((newsz - PGROUNDUP oldsz + PGSIZE - 1) / PGSIZE) (PGROUNDUP oldsz)) _ _ _
  rw [hcount]
  refine wp_mono (uvmallocLoop_spec (l := []) hend hx (round_mod oldsz) _ h.split h.held
    (by rw [List.length_nil, Nat.zero_mul, Nat.add_zero]) ?_ ?_ List.nodup_nil ?_ ?_ h.beyond) ?_ ?_
  · have hroom := h.room hend
    have : min (pagesBetween oldsz newsz) (f.length + 1) * PGSIZE ≤ (f.length + 1) * PGSIZE :=
      Nat.mul_le_mul_right _ (Nat.min_le_right _ _)
    omega
  · exact fun i d hd => absurd hd (by simp)
  · exact fun d hd => absurd hd List.not_mem_nil
  · exact fun d hd => absurd hd List.not_mem_nil
  · rintro r k (hok | ⟨hr, -, hn, hlt, hG⟩)
    · exact .inl hok
    · exact .inr ⟨hr, hn, hlt, hG⟩
  · rintro _ ⟨hlt, hne | hge⟩
    · exact absurd rfl hne
    · exact ⟨hlt, hge⟩

/-- The address space after `uvmalloc`. -/
theorem UserSpace.grow (hend : KERNBASE ≤ kend) {l' : List Nat}
    (h : UserSpace kend s f pt oldsz l) (hle : oldsz ≤ newsz) (hperm : perm < 1024)
    (hleaf : perm ||| PTE_V ≠ PTE_V) (hlen : l'.length = pagesBetween oldsz newsz)
    (hT : Took kend s f pt (PGROUNDUP oldsz) perm l' new rest k) :
    UserSpace kend ⟨k, l' ++ new ++ s.held⟩ rest pt newsz (l ++ l') := by
  have hpg : PGSIZE = 4096 := rfl
  have htf : TRAPFRAME + 8192 = MAXVA := by decide
  have hmul := pagesBetween_mul hle
  have hround : PGROUNDUP newsz ≤ TRAPFRAME := by
    have hroom := h.room hend
    have hlen' := hT.free.length_eq
    rw [List.length_append, List.length_append] at hlen'
    have : l'.length * PGSIZE ≤ (f.length + 1) * PGSIZE := Nat.mul_le_mul_right _ (by omega)
    rw [hlen] at this
    omega
  have hsize := h.size
  have hnodup : (l' ++ new ++ s.held).Nodup := hT.split.nodup_held
  rw [List.append_assoc, List.nodup_append] at hnodup
  have hnew := List.nodup_append.mp hnodup.2.1
  have hpool : ∀ d ∈ l', InPool kend d := fun d hd =>
    hT.split.outstanding (List.mem_append_left _ (List.mem_append_left _ hd))
  refine ⟨hT.split, hT.held, ?_, fun i d hd => ?_, fun va hlo hhi => ?_, ?_, fun d hd => ?_,
    fun d hd hdt => ?_⟩
  · rw [List.length_append, Nat.add_mul, hlen]
    omega
  · show Leaf (pte k.mem pt _) d
    by_cases hi : i < l.length
    · rw [List.getElem?_append_left hi] at hd
      have : (i + 1) * PGSIZE ≤ l.length * PGSIZE := Nat.mul_le_mul_right _ hi
      rw [Nat.succ_mul] at this
      rw [hT.grown.other _ (lt_vaspace (by omega)) (by omega)]
      exact h.leaves i d hd
    · rw [List.getElem?_append_right (by omega)] at hd
      have hplace : 0 + i * PGSIZE = PGROUNDUP oldsz + (i - l.length) * PGSIZE := by
        have hsum : l.length + (i - l.length) = i := by omega
        rw [← hsize, ← Nat.add_mul, hsum, Nat.zero_add]
      rw [hplace, hT.grown.leaf _ d hd]
      have hd := hpool d (List.mem_of_getElem? hd)
      exact (leaf_leafPte hd.1 hd.lt hperm hleaf).1
  · show pte k.mem pt va &&& PTE_V = 0
    rw [hT.grown.other va (lt_vaspace (by omega)) (by rw [hlen]; omega)]
    exact h.beyond va (by omega) hhi
  · refine List.nodup_append.mpr ⟨h.nodup, hnodup.1, fun x hx y hy hxy => ?_⟩
    exact hnodup.2.2 y hy x (List.mem_append_right _ (h.owned x hx)) hxy.symm
  · rcases List.mem_append.mp hd with hd | hd
    · exact List.mem_append_right _ (h.owned d hd)
    · exact List.mem_append_left _ (List.mem_append_left _ hd)
  · have hdt := (hT.grown.tables.mem_iff).mp hdt
    rcases List.mem_append.mp hd with hd | hd
    · rcases List.mem_append.mp hdt with hin | hin
      · exact hnew.2.2 d hin d (h.owned d hd) rfl
      · exact h.apart d hd hin
    · refine hnodup.2.2 d hd d ?_ rfl
      rcases List.mem_append.mp hdt with hin | hin
      · exact List.mem_append_left _ hin
      · exact List.mem_append_right _ (h.held.held d hin)

/-- `uvmalloc` either maps all pages, cleared and with the given permission, or it returns 0 and
has at most added tables. -/
def AllOrNothing (kend : Nat) (s : Pages) (f : List Nat) (pt oldsz newsz xperm : Nat) : Prop :=
  wp (uvmalloc kend pt oldsz newsz xperm)
    (fun r k =>
      r = newsz ∧ (∃ l new rest, l.length = pagesBetween oldsz newsz ∧
        Took kend s f pt (PGROUNDUP oldsz) (PTE_R ||| PTE_U ||| xperm) l new rest k) ∨
      r = 0 ∧ ∃ new rest, Gave kend s f pt new rest k)
    (fun _ => False) s.kmem

/-- `uvmalloc` is all-or-nothing exactly if the freelist has what the whole range needs, or
less than its first page needs. Otherwise it panics. -/
theorem uvmalloc_all_or_nothing_iff (hend : KERNBASE ≤ kend) (h : UserSpace kend s f pt oldsz l)
    (hle : oldsz ≤ newsz) (hmax : newsz ≤ TRAPFRAME) (hx : xperm < 1024) :
    AllOrNothing kend s f pt oldsz newsz xperm ↔
      needs s.kmem.mem pt (PGROUNDUP oldsz) (pagesBetween oldsz newsz) ≤ f.length ∨
      f.length < needs s.kmem.mem pt (PGROUNDUP oldsz) 1 := by
  have hspec := uvmalloc_spec hend h hle hx
  constructor
  · intro hall
    obtain ⟨r, k, hrun, -⟩ := wp_returns hall fun _ => id
    rcases wp_ok hspec hrun with ⟨-, henough, -⟩ | ⟨-, -, hfew, -⟩
    · exact .inl henough
    · exact .inr hfew
  · intro hcond
    refine wp_mono hspec ?_ fun _ hbad => by omega
    rintro r k (⟨hr, -, hT⟩ | ⟨hr, -, -, hG⟩)
    · exact .inl ⟨hr, hT⟩
    · exact .inr ⟨hr, hG⟩

/-! ### `uvmdealloc` of an address space -/

/-- The leaf mapping of an address, if there is one. -/
def leafAt (m : Memory) (pt va : Nat) : Option Nat :=
  if pte m pt va &&& PTE_V ≠ 0 then some (pte m pt va) else none

/-- `uvmdealloc` removes the pages from `PGROUNDUP(newsz)` on, frees what they were mapped to,
and returns `newsz`; when the memory is not to shrink, it changes nothing and returns `oldsz`. -/
def Shrinks (kend : Nat) (s : Pages) (f : List Nat) (pt oldsz newsz : Nat) (l : List Nat) :
    Prop :=
  wp (uvmdealloc kend pt oldsz newsz)
    (fun r k =>
      if newsz < oldsz then
        r = newsz ∧
        (∀ va < MAXVA, leafAt k.mem pt va =
          if PGROUNDUP newsz ≤ va ∧ va < PGROUNDUP oldsz then none
          else leafAt s.kmem.mem pt va) ∧
        ∃ held free, Split kend ⟨k, held⟩ free ∧
          free.Perm (l.drop (PGROUNDUP newsz / PGSIZE) ++ f)
      else r = oldsz ∧ k = s.kmem)
    (fun _ => False) s.kmem

/-- Nothing to remove. -/
theorem uvmdealloc_same (h : oldsz ≤ newsz ∨ PGROUNDUP oldsz = PGROUNDUP newsz) :
    uvmdealloc kend pt oldsz newsz = Pure.pure oldsz := by
  rw [uvmdealloc, if_pos (by omega)]

theorem Leaves.drop (h : Leaves m pt a l) :
    Leaves m pt (a + n * PGSIZE) (l.drop n) := by
  intro i d hd
  rw [List.getElem?_drop] at hd
  have := h (n + i) d hd
  rwa [Nat.add_mul, ← Nat.add_assoc] at this

/-- Whole pages to remove: the panic. -/
theorem UserSpace.dealloc_panics (hend : KERNBASE ≤ kend) (h : UserSpace kend s f pt oldsz l)
    (hlt : PGROUNDUP newsz < PGROUNDUP oldsz) :
    wp (uvmdealloc kend pt oldsz newsz) (fun _ _ => False)
      (fun e => e = .uvmunmapWalk ∨ e = .uvmunmapNotMapped) s.kmem := by
  have hpg : PGSIZE = 4096 := rfl
  have hram : PHYSTOP - KERNBASE = 134217728 := rfl
  have htf : TRAPFRAME = 274877898752 := rfl
  have hmax : MAXVA = 274877906944 := rfl
  have hsmall := h.small hend
  have hsize := h.size
  have hplace : 0 + PGROUNDUP newsz / PGSIZE * PGSIZE = PGROUNDUP newsz := by
    rw [Nat.zero_add]
    exact Nat.div_mul_cancel (Nat.dvd_of_mod_eq_zero (round_mod newsz))
  have hleaves : Leaves s.kmem.mem pt (PGROUNDUP newsz) (l.drop (PGROUNDUP newsz / PGSIZE)) := by
    have := Leaves.drop (n := PGROUNDUP newsz / PGSIZE) h.leaves
    rwa [hplace] at this
  have hrest : PGROUNDUP newsz + (l.drop (PGROUNDUP newsz / PGSIZE)).length * PGSIZE =
      PGROUNDUP oldsz := by
    rw [List.length_drop, Nat.sub_mul]
    omega
  refine uvmdealloc_panics hend h.split h.held hlt hrest (by omega) hleaves
    (h.nodup.sublist (List.drop_sublist _ l)) ?_ ?_ (h.beyond _ (Nat.le_refl _) (by omega))
  · exact fun d hd => h.owned d (List.mem_of_mem_drop hd)
  · exact fun d hd => h.apart d (List.mem_of_mem_drop hd)

/-- `uvmdealloc` does its work exactly if there is none. -/
theorem shrinks_iff (hend : KERNBASE ≤ kend) (h : UserSpace kend s f pt oldsz l) :
    Shrinks kend s f pt oldsz newsz l ↔ oldsz ≤ newsz := by
  constructor
  · intro hshrinks
    by_contra hlt
    by_cases hround : PGROUNDUP newsz < PGROUNDUP oldsz
    · obtain ⟨r, k, hrun, -⟩ := wp_returns hshrinks fun _ => id
      exact wp_ok (h.dealloc_panics hend hround) hrun
    · -- The last page stays, and the result is the old size.
      have hmono : PGROUNDUP newsz ≤ PGROUNDUP oldsz := round_mono (by omega)
      have hsame : uvmdealloc kend pt oldsz newsz = Pure.pure oldsz :=
        uvmdealloc_same (by omega)
      unfold Shrinks at hshrinks
      rw [hsame, wp_pure, if_pos (by omega)] at hshrinks
      omega
  · intro hle
    unfold Shrinks
    rw [uvmdealloc_same (.inl hle), wp_pure, if_neg (by omega)]
    exact ⟨rfl, rfl⟩

/-! ### The first address space -/

/-- `uvmcreate` makes an empty address space. -/
theorem uvmcreate_space (hS : Split kend s f) :
    wp uvmcreate (fun r k => f = [] ∧ r = 0 ∧ k = s.kmem ∨
      ∃ rest, f = r :: rest ∧ r ≠ 0 ∧ UserSpace kend ⟨k, r :: s.held⟩ rest r 0 [] ∧
        tables k.mem r = [r] ∧ (∀ va, pte k.mem r va = 0) ∧ Links k.mem r ∧
        ∀ q ∈ s.held, SamePage s.kmem.mem k.mem q) (fun _ => False) s.kmem := by
  rw [uvmcreate, wp_bind]
  refine wp_post (kalloc_page hS) ?_
  rintro r k (⟨hf, hr, hk⟩ | ⟨rest, hf, hr, hSk, hmem⟩)
  · rw [if_pos hr, wp_pure]
    exact .inl ⟨hf, rfl, hk⟩
  · rw [if_neg hr, wp_bind, memset, wp_modify, wp_pure]
    obtain ⟨hS', hsame⟩ := fresh_page (k.mem.fill r PGSIZE 0) hSk hmem
      fun b hb => if_neg hb
    obtain ⟨htables, hptes⟩ := empty_table r fun i hi => cells_fill (m := k.mem) hi
    refine .inr ⟨rest, hf, hr, ⟨hS', ⟨?_, ?_⟩, rfl, ?_, ?_, List.nodup_nil, ?_, ?_⟩, htables, hptes,
      empty_links fun i hi => cells_fill hi, hsame⟩
    · simp [htables]
    · simp [htables, List.mem_singleton]
    · exact fun i d hd => absurd hd (by simp)
    · simp [hptes]
    · exact fun d hd => absurd hd List.not_mem_nil
    · exact fun d hd => absurd hd List.not_mem_nil

/-- The pages after `KERNBASE`. -/
theorem pool_length (h : Split KERNBASE ⟨k, []⟩ f) : 32768 ≤ f.length := by
  have hpg : PGSIZE = 4096 := rfl
  have hbase : KERNBASE = 2147483648 := rfl
  have hstop : PHYSTOP = 2281701376 := rfl
  obtain ⟨n, hn⟩ : ∃ n, n = 32768 := ⟨_, rfl⟩
  have hnodup : ((List.range n).map fun i => KERNBASE + i * PGSIZE).Nodup := by
    refine List.Nodup.map_on (fun x _ y _ hxy => ?_) List.nodup_range
    rw [hpg] at hxy
    omega
  have hsub : ((List.range n).map fun i => KERNBASE + i * PGSIZE) ⊆ f := by
    intro p hp
    obtain ⟨i, hi, rfl⟩ := List.mem_map.mp hp
    have hi := List.mem_range.mp hi
    have hround : PGROUNDUP KERNBASE = KERNBASE := by decide
    have hpool : InPool KERNBASE (KERNBASE + i * PGSIZE) := by
      refine ⟨?_, ?_, ?_⟩
      · rw [hpg, hbase]
        omega
      · omega
      · rw [hpg]
        omega
    have := (h.all _).mpr hpool
    rwa [List.append_nil] at this
  have hlen := (hnodup.subperm hsub).length_le
  rw [List.length_map, List.length_range, hn] at hlen
  exact hlen

/-- After `kinit` and `uvmcreate`: an empty address space, and the free pages. -/
theorem boot_space : ∃ k pt k' rest, kinit KERNBASE ⟨fun _ => 0, 0⟩ = .ok ((), k) ∧
    uvmcreate k = .ok (pt, k') ∧ UserSpace KERNBASE ⟨k', [pt]⟩ rest pt 0 [] ∧
    32767 ≤ rest.length ∧ rest.length < 65536 ∧ ∀ va, pte k'.mem pt va = 0 := by
  obtain ⟨k, f, hinit, hS⟩ := kinit_returns (by decide : 0 < KERNBASE) fun _ => 0
  have hlen := pool_length hS
  obtain ⟨pt, k', hcreate, hpost⟩ := wp_returns (uvmcreate_space hS) fun _ => id
  rcases hpost with ⟨hnil, -⟩ | ⟨rest, hf, -, hspace, -, hptes, -, -⟩
  · rw [hnil] at hlen
    exact absurd hlen (by simp)
  · have hroom : rest.length * PGSIZE ≤ PHYSTOP - KERNBASE :=
      length_pool (List.nodup_append.mp hspace.split.nodup).1
        (fun d hd => hspace.split.free hd) (Nat.le_refl _)
    rw [show PHYSTOP - KERNBASE = 32768 * PGSIZE from rfl] at hroom
    have := Nat.le_of_mul_le_mul_right hroom (by decide)
    rw [hf, List.length_cons] at hlen
    exact ⟨k, pt, k', rest, hinit, hcreate, hspace, by omega, by omega, hptes⟩

/-- A page and its tables. -/
theorem needs_one_le (m : Memory) (pt a : Nat) : needs m pt a 1 ≤ 3 := by
  have hcard : (missing m pt a).card ≤ 2 := by
    unfold missing Radix.missing
    exact Finset.card_image_le.trans ((Finset.card_filter_le _ _).trans (by simp))
  rw [needs_one]
  omega

/-- After `kinit` and `uvmcreate`, one page is mapped at address 0. -/
theorem boot_page_perm (hx : xperm < 1024) :
    ∃ k pt k' k'' d held rest, kinit KERNBASE ⟨fun _ => 0, 0⟩ = .ok ((), k) ∧
    uvmcreate k = .ok (pt, k') ∧ uvmalloc KERNBASE pt 0 PGSIZE xperm k' = .ok (PGSIZE, k'') ∧
    UserSpace KERNBASE ⟨k'', held⟩ rest pt PGSIZE [d] ∧ rest ≠ [] ∧
    (∀ va < MAXVA, pte k''.mem pt va =
      if va < PGSIZE then leafPte d (PTE_R ||| PTE_U ||| xperm) else 0) ∧
    ∀ b, d ≤ b → b < d + PGSIZE → k''.mem b = 0 := by
  obtain ⟨k, pt, k', rest, hinit, hcreate, hspace, hlen, -, hptes⟩ := boot_space
  have hpg : PGSIZE = 4096 := rfl
  have hround : PGROUNDUP 0 = 0 := rfl
  have hneeds := needs_one_le k'.mem pt (PGROUNDUP 0)
  have hone : pagesBetween 0 PGSIZE = 1 := by decide
  have hgrow := uvmalloc_spec (Nat.le_refl KERNBASE) hspace (by decide : 0 ≤ PGSIZE) hx
  rw [hone] at hgrow
  obtain ⟨r, k'', hrun, hpost⟩ := wp_returns hgrow fun _ hbad => by
    have hfew : rest.length < needs k'.mem pt (PGROUNDUP 0) 1 := hbad.1
    omega
  rcases hpost with ⟨hr, -, l, new, rest', hl, hT⟩ | ⟨-, -, hfew, -⟩
  · have hspace' := hspace.grow (Nat.le_refl _) (by decide) (readable_lt hx) readable_leaf
      (hl.trans hone.symm) hT
    obtain ⟨d, rfl⟩ := List.length_eq_one_iff.mp hl
    rw [hr] at hrun
    -- The page and its tables leave most of the freelist.
    have hleft : rest' ≠ [] := by
      rintro rfl
      have hfree := hT.free.length_eq
      have hcount : [d].length + new.length = needs k'.mem pt (PGROUNDUP 0) 1 := hT.count
      rw [List.length_singleton] at hcount
      have hneeds : needs k'.mem pt (PGROUNDUP 0) 1 ≤ 3 := hneeds
      rw [List.append_nil, List.length_append, List.length_singleton] at hfree
      omega
    refine ⟨k, pt, k', k'', d, _, rest', hinit, hcreate, hrun, hspace', hleft, fun va hva => ?_,
      hT.grown.zero d List.mem_cons_self⟩
    by_cases hpage : va < PGSIZE
    · have hzero := hT.grown.leaf 0 d rfl
      rw [hround, Nat.zero_mul, Nat.add_zero] at hzero
      have hfirst : va / PGSIZE = 0 / PGSIZE := by
        rw [Nat.div_eq_of_lt hpage, Nat.zero_div]
      rw [if_pos hpage, pte_of_page hfirst, hzero]
    · rw [if_neg hpage, hT.grown.other va (lt_vaspace hva)]
      · exact hptes va
      · rw [hround, List.length_singleton]
        omega
  · have hfew : rest.length < needs k'.mem pt (PGROUNDUP 0) 1 := hfew
    omega

/-- The page that user code can write. -/
theorem boot_page : ∃ k pt k' k'' d held rest, kinit KERNBASE ⟨fun _ => 0, 0⟩ = .ok ((), k) ∧
    uvmcreate k = .ok (pt, k') ∧ uvmalloc KERNBASE pt 0 PGSIZE PTE_W k' = .ok (PGSIZE, k'') ∧
    UserSpace KERNBASE ⟨k'', held⟩ rest pt PGSIZE [d] ∧ rest ≠ [] ∧
    (∀ va < MAXVA, pte k''.mem pt va =
      if va < PGSIZE then leafPte d (PTE_R ||| PTE_U ||| PTE_W) else 0) ∧
    ∀ b, d ≤ b → b < d + PGSIZE → k''.mem b = 0 :=
  boot_page_perm (by decide)

/-- After `kinit` and `uvmcreate` there is room for a page. -/
theorem uvmalloc_first_page : ∃ k pt k' rest, kinit KERNBASE ⟨fun _ => 0, 0⟩ = .ok ((), k) ∧
    uvmcreate k = .ok (pt, k') ∧ UserSpace KERNBASE ⟨k', [pt]⟩ rest pt 0 [] ∧
    AllOrNothing KERNBASE ⟨k', [pt]⟩ rest pt 0 1 PTE_W := by
  obtain ⟨k, pt, k', rest, hinit, hcreate, hspace, hlen, -⟩ := boot_space
  have hneeds := needs_one_le k'.mem pt (PGROUNDUP 0)
  have hone : pagesBetween 0 1 = 1 := by decide
  refine ⟨k, pt, k', rest, hinit, hcreate, hspace, ?_⟩
  refine (uvmalloc_all_or_nothing_iff (Nat.le_refl _) hspace (by decide) (by decide)
    (by decide)).mpr (.inl ?_)
  rw [hone]
  exact hneeds.trans (by omega)

/-- Twice the RAM: `uvmalloc` maps what there is, and then panics. -/
theorem uvmalloc_too_much_panics : ∃ k pt k' rest,
    kinit KERNBASE ⟨fun _ => 0, 0⟩ = .ok ((), k) ∧ uvmcreate k = .ok (pt, k') ∧
    UserSpace KERNBASE ⟨k', [pt]⟩ rest pt 0 [] ∧
    (∃ e, uvmalloc KERNBASE pt 0 0x10000000 PTE_W k' = .error e) ∧
    ¬ AllOrNothing KERNBASE ⟨k', [pt]⟩ rest pt 0 0x10000000 PTE_W := by
  obtain ⟨k, pt, k', rest, hinit, hcreate, hspace, hlo, hhi, -⟩ := boot_space
  have hfirst := needs_one_le k'.mem pt (PGROUNDUP 0)
  have hcount : pagesBetween 0 0x10000000 = 65536 := by decide
  have hall : 65536 ≤ needs k'.mem pt (PGROUNDUP 0) 65536 := Nat.le_add_right _ _
  have hspec := uvmalloc_spec (Nat.le_refl _) hspace (by decide : 0 ≤ 0x10000000)
    (by decide : PTE_W < 1024)
  rw [hcount] at hspec
  have hpanic : ∃ e, uvmalloc KERNBASE pt 0 0x10000000 PTE_W k' = .error e := by
    cases hrun : uvmalloc KERNBASE pt 0 0x10000000 PTE_W k' with
    | error e => exact ⟨e, rfl⟩
    | ok r =>
      rcases wp_ok hspec hrun with ⟨-, henough, -⟩ | ⟨-, -, hfew, -⟩
      · have henough : needs k'.mem pt (PGROUNDUP 0) 65536 ≤ rest.length := henough
        omega
      · have hfew : rest.length < needs k'.mem pt (PGROUNDUP 0) 1 := hfew
        omega
  refine ⟨k, pt, k', rest, hinit, hcreate, hspace, hpanic, fun hall => ?_⟩
  obtain ⟨e, he⟩ := hpanic
  exact wp_error hall he

end Xv6.Proofs.Mem
