import Xv6.Kernel.Vm
import Xv6.Lib.Radix
import Xv6.Proofs.Mem.Freelist

/-!
# `Xv6.Proofs.Mem.Table`: page tables as radix trees

A page table of `vm.c` is a radix tree of three levels in the memory of `Kmem`: `cells` reads
its entries, `pteChild` follows a valid entry, and `path va` are the indices of an address.
`tables` are the pages of the tree and `pte` is the entry that `walk` finds for an address, 0
when there is none.

`Held s pt` says that the pages of the tree are distinct and outstanding. A page of the tree is
then no page of the freelist and no page that someone else has, so `kalloc`, and whatever
happens to the other pages, leaves the tree alone.

`walk` without `alloc` reads an entry's address. With `alloc` it links cleared tables where the
path ends, taken from the freelist, until the path is complete or the freelist is empty
(`walk_alloc`). Neither changes an entry.
-/

set_option autoImplicit false

namespace Xv6.Proofs.Mem

open Lib Lib.Action Kernel

/-! ### Pages of memory -/

/-- The page at `q` has the same bytes in both memories. -/
def SamePage (m m' : Memory) (q : Nat) : Prop := ∀ a, q ≤ a → a < q + PGSIZE → m' a = m a

theorem SamePage.refl (m : Memory) (q : Nat) : SamePage m m q := fun _ _ _ => rfl

variable {m : Memory} {q : Nat}

theorem SamePage.trans {m' m'' : Memory} (h : SamePage m m' q) (h' : SamePage m' m'' q) :
    SamePage m m'' q := fun a hlo hhi =>
  (h' a hlo hhi).trans (h a hlo hhi)

variable {kend : Nat} {s : Pages} {f : List Nat} {m m' : Memory} {pt : Nat}

variable {p : Nat}

/-- A change inside one page leaves the others. -/
theorem samePage_of_apart (hp : InPool kend p) (hq : InPool kend q) (hne : p ≠ q)
    (h : ∀ a, ¬ (p ≤ a ∧ a < p + PGSIZE) → m' a = m a) : SamePage m m' q := by
  intro a hlo hhi
  refine h a ?_
  have := hp.apart hq hne
  omega

/-- The freelist stays when the free pages do. -/
theorem Split.of_mem (h : Split kend s f) (hm : ∀ q ∈ f, SamePage s.kmem.mem m' q) :
    Split kend ⟨{ s.kmem with mem := m' }, s.held⟩ f := by
  have hpg : PGSIZE = 4096 := rfl
  refine ⟨h.chain.congr fun q hq => ?_, h.nodup, h.all⟩
  exact Memory.load_congr fun i hlo hhi => hm q hq i hlo (by omega)

/-- A change of one outstanding page. -/
theorem Split.of_write (h : Split kend s f) (hp : p ∈ s.held)
    (hm : ∀ a, ¬ (p ≤ a ∧ a < p + PGSIZE) → m' a = s.kmem.mem a) :
    Split kend ⟨{ s.kmem with mem := m' }, s.held⟩ f := by
  refine h.of_mem fun q hq => samePage_of_apart (h.outstanding hp) (h.free hq) ?_ hm
  rintro rfl
  exact h.apart hp hq

variable {k : Kmem}

theorem Split.perm {held held' : List Nat} (h : Split kend ⟨k, held⟩ f) (hperm : held.Perm held') :
    Split kend ⟨k, held'⟩ f := by
  refine ⟨h.chain, ?_, fun p => ?_⟩
  · exact ((hperm.append_left f).nodup_iff).mp h.nodup
  · rw [← h.all p]
    exact ((hperm.append_left f).mem_iff).symm

theorem Split.nodup_held (h : Split kend s f) : s.held.Nodup := (List.nodup_append.mp h.nodup).2.1

/-- `kalloc` takes the first page of the freelist and writes in no other page. -/
theorem kalloc_page (h : Split kend s f) :
    wp kalloc (fun r k => f = [] ∧ r = 0 ∧ k = s.kmem ∨
      ∃ rest, f = r :: rest ∧ r ≠ 0 ∧ Split kend ⟨k, r :: s.held⟩ rest ∧
        ∀ a, ¬ (r ≤ a ∧ a < r + PGSIZE) → k.mem a = s.kmem.mem a) (fun _ => False) s.kmem := by
  have hframe : wp kalloc (fun r k => ∀ a, ¬ (r ≤ a ∧ a < r + PGSIZE) →
      k.mem a = s.kmem.mem a) (fun _ => False) s.kmem := by
    rw [kalloc, wp_bind, wp_read]
    split
    · rw [wp_bind, wp_modify, memset, wp_bind, wp_modify, wp_pure]
      exact fun a ha => if_neg ha
    · exact fun a _ => rfl
  refine wp_post (wp_and (kalloc_spec h) hframe) ?_
  rintro r k ⟨hnone | ⟨rest, hf, hr, hsplit⟩, hmem⟩
  · exact .inl hnone
  · exact .inr ⟨rest, hf, hr, hsplit, hmem⟩

variable {pa : Nat}

/-- `kfree` puts the page back and writes in no other page. -/
theorem kfree_page (h : Split kend s f) (hpa : pa ∈ s.held) (hend : 0 < kend) :
    wp (kfree kend pa) (fun _ k => Split kend ⟨k, s.held.erase pa⟩ (pa :: f) ∧
      ∀ a, ¬ (pa ≤ a ∧ a < pa + PGSIZE) → k.mem a = s.kmem.mem a) (fun _ => False)
      s.kmem := by
  have hpg : PGSIZE = 4096 := rfl
  have hframe : wp (kfree kend pa) (fun _ k => ∀ a, ¬ (pa ≤ a ∧ a < pa + PGSIZE) →
      k.mem a = s.kmem.mem a) (fun _ => False) s.kmem := by
    rw [kfree, if_neg (h.outstanding hpa).check, wp_bind, memset, wp_modify, wp_modify]
    intro a ha
    show Memory.store 8 (Memory.fill s.kmem.mem pa PGSIZE 1) pa s.kmem.freelist a = _
    unfold Memory.store Memory.fill
    rw [if_neg (by omega), if_neg ha]
  refine wp_post (wp_and (kfree_spec h hpa hend) hframe) ?_
  rintro _ k ⟨⟨-, hsplit⟩, hmem⟩
  exact ⟨hsplit, hmem⟩

/-! ### Entries -/

/-- Entry `i` of the table at `p`. -/
def cells (m : Memory) : Radix.Cells := fun p i => m.load 8 (p + 8 * i)

/-- The table below a valid entry. -/
def pteChild (e : Nat) : Option Nat := if e &&& PTE_V ≠ 0 then some (PTE2PA e) else none

/-- The indices of an address. -/
def path (va : Nat) : Nat → Nat := fun level => PX level va

theorem path_lt (va level : Nat) : path va level < 512 := Nat.mod_lt _ (by decide)

/-- The pages of a page table. -/
def tables (m : Memory) (pt : Nat) : List Nat := Radix.tables pteChild 512 (cells m) 2 pt

/-- The table of a level on the path of an address. -/
def table (m : Memory) (pt va level : Nat) : Option Nat :=
  Radix.table pteChild (cells m) (path va) level 2 pt

/-- The entry for an address, 0 when there is none. -/
def pte (m : Memory) (pt va : Nat) : Nat := Radix.entry pteChild (cells m) (path va) 2 pt

/-- The tables that the path of an address lacks. -/
def missing (m : Memory) (pt va : Nat) : Finset (Nat × List Nat) :=
  Radix.missing pteChild (cells m) (path va) 2 pt

variable {i : Nat}

theorem cells_congr (h : SamePage m m' q) (hi : i < 512) :
    cells m' q i = cells m q i := by
  have hpg : PGSIZE = 4096 := rfl
  refine Memory.load_congr fun a hlo hhi => h a (by omega) (by omega)

/-- The entries of a cleared page. -/
theorem cells_fill (hi : i < 512) : cells (m.fill q PGSIZE 0) q i = 0 := by
  have hpg : PGSIZE = 4096 := rfl
  exact Memory.load_zero fun a hlo hhi => if_pos (by omega)

/-- A cleared table maps nothing. -/
theorem empty_table (pt : Nat) (hzero : ∀ i < 512, cells m pt i = 0) :
    tables m pt = [pt] ∧ ∀ va, pte m pt va = 0 := by
  have hclear : ∀ i < 512, pteChild (cells m pt i) = none := by
    intro i hi
    rw [hzero i hi]
    rfl
  refine ⟨Radix.tables_empty hclear, fun va => ?_⟩
  unfold pte Radix.entry
  rw [Radix.table_empty (path_lt va) hclear (by decide)]
  rfl

/-- A page table depends on its own pages only. -/
theorem table_same (pt : Nat) (h : ∀ q ∈ tables m pt, SamePage m m' q) :
    tables m' pt = tables m pt ∧ (∀ va level, table m' pt va level = table m pt va level) ∧
      (∀ va, pte m' pt va = pte m pt va) ∧ ∀ va, missing m' pt va = missing m pt va := by
  have hcells : ∀ x ∈ Radix.tables pteChild 512 (cells m) 2 pt, ∀ i < 512,
      cells m' x i = cells m x i := fun x hx i hi => cells_congr (h x hx) hi
  have htable : ∀ va level, table m' pt va level = table m pt va level := fun va level =>
    Radix.table_congr (path_lt va) hcells
  refine ⟨Radix.tables_congr hcells, htable, fun va => Radix.entry_congr (path_lt va) hcells,
    fun va => ?_⟩
  ext x
  unfold missing
  rw [Radix.mem_missing, Radix.mem_missing]
  have := htable va x.1
  unfold table at this
  rw [this]

/-- The entry with a table's address. -/
theorem pteChild_link {pg : Nat} (hmod : pg % PGSIZE = 0) (hlt : pg < 2 ^ 56) :
    pteChild (PA2PTE pg ||| PTE_V) = some pg ∧ PA2PTE pg ||| PTE_V < 256 ^ 8 := by
  rw [show PGSIZE = 4096 from rfl] at hmod
  have hor : PA2PTE pg ||| PTE_V = 2 ^ 10 * (pg / 2 ^ 12) + 1 := by
    rw [PA2PTE, Nat.mul_comm]
    exact (Nat.two_pow_add_eq_or_of_lt (by decide : 1 < 2 ^ 10) _).symm
  rw [hor]
  have hodd : (2 ^ 10 * (pg / 2 ^ 12) + 1) &&& PTE_V ≠ 0 := by
    show (2 ^ 10 * (pg / 2 ^ 12) + 1) &&& 1 ≠ 0
    rw [Nat.and_one_is_mod]
    omega
  refine ⟨?_, by omega⟩
  rw [pteChild, if_pos hodd, PTE2PA]
  congr 1
  omega

/-- An entry for a table has none of the bits that make it a leaf. -/
def LinkPte (e : Nat) : Prop := e &&& PTE_RWX = 0

/-- The entries above the lowest level lead to tables. -/
def Links (m : Memory) (pt : Nat) : Prop := Radix.Linked pteChild 512 LinkPte (cells m) 2 pt

theorem empty_links (hzero : ∀ i < 512, cells m pt i = 0) : Links m pt := by
  refine Radix.linked_empty fun i hi => ?_
  rw [hzero i hi]
  rfl

theorem links_same (h : ∀ q ∈ tables m pt, SamePage m m' q) (hl : Links m pt) : Links m' pt :=
  Radix.linked_congr (fun x hx _ hi => cells_congr (h x hx) hi) hl

/-- The entry that `walk` stores for a new table. -/
theorem linkPte_link (pg : Nat) : LinkPte (PA2PTE pg ||| PTE_V) := by
  have hor : PA2PTE pg ||| PTE_V = 2 ^ 10 * (pg / 2 ^ 12) + 1 := by
    rw [PA2PTE, Nat.mul_comm]
    exact (Nat.two_pow_add_eq_or_of_lt (by decide : 1 < 2 ^ 10) _).symm
  refine Nat.eq_of_testBit_eq fun i => ?_
  rw [hor, Nat.testBit_and, Nat.testBit_two_pow_mul_add _ (by decide), Nat.zero_testBit]
  by_cases hi : i < 10
  · rw [if_pos hi, ← Nat.testBit_and, show 1 &&& PTE_RWX = 0 from rfl, Nat.zero_testBit]
  · have hhigh : PTE_RWX.testBit i = false :=
      Nat.testBit_lt_two_pow (Nat.lt_of_lt_of_le (by decide : PTE_RWX < 2 ^ 10)
        (Nat.pow_le_pow_right (by decide) (by omega)))
    rw [hhigh, Bool.and_false]

/-- A page table whose pages are distinct and outstanding. -/
structure Held (s : Pages) (pt : Nat) : Prop where
  nodup : (tables s.kmem.mem pt).Nodup
  held : ∀ q ∈ tables s.kmem.mem pt, q ∈ s.held

theorem Held.inPool (h : Held s pt) (hS : Split kend s f) (hq : q ∈ tables s.kmem.mem pt) :
    InPool kend q :=
  hS.outstanding (h.held q hq)

/-! ### Storing an entry -/

variable {v : Nat}

theorem cells_store (hv : v < 256 ^ 8) :
    cells (m.store 8 (q + 8 * i) v) q i = v := Memory.load_store hv

/-- A stored entry changes no other entry. -/
theorem cells_store_other {x j : Nat} (hq : InPool kend q) (hx : InPool kend x) (hi : i < 512)
    (hj : j < 512) (hne : ¬ (x = q ∧ j = i)) :
    cells (m.store 8 (q + 8 * i) v) x j = cells m x j := by
  have hpg : PGSIZE = 4096 := rfl
  refine Memory.load_store_disjoint ?_
  by_cases he : x = q
  · have : j ≠ i := fun h => hne ⟨he, h⟩
    omega
  · have := hq.apart hx (Ne.symm he)
    omega

theorem store_outside (hi : i < 512) {a : Nat} (ha : ¬ (q ≤ a ∧ a < q + PGSIZE)) :
    m.store 8 (q + 8 * i) v a = m a := by
  have hpg : PGSIZE = 4096 := rfl
  exact if_neg (by omega)

/-! ### `walk` without `alloc` -/

variable {va level : Nat} {err : Panic → Prop}

theorem walkLoop_find {post : Option Nat → Kmem → Prop} :
    wp (walkLoop false va level p) post err k ↔
      post ((Radix.table pteChild (cells k.mem) (path va) 0 level p).map
        fun q => q + 8 * PX 0 va) k := by
  induction level generalizing p with
  | zero => rfl
  | succ level ih =>
    rw [walkLoop, wp_bind, readPte, wp_read, Radix.table_succ (Nat.zero_le _)]
    show wp (if cells k.mem p (path va (level + 1)) &&& PTE_V ≠ 0 then _ else _) _ _ _ ↔ _
    unfold pteChild
    split
    · exact ih
    · rfl

variable {pt : Nat}

/-- `walk` reads the way to an entry. -/
theorem wp_walk_find (hva : va < MAXVA) {post : Option Nat → Kmem → Prop} :
    wp (walk pt va false) post err k ↔
      post ((table k.mem pt va 0).map fun q => q + 8 * PX 0 va) k := by
  rw [walk, if_neg (by omega)]
  exact walkLoop_find

theorem pte_of_table (h : table m pt va 0 = some q) :
    pte m pt va = m.load 8 (q + 8 * PX 0 va) := by
  unfold pte Radix.entry
  unfold table at h
  rw [h]
  rfl

theorem pte_of_none (h : table m pt va 0 = none) : pte m pt va = 0 := by
  unfold pte Radix.entry
  unfold table at h
  rw [h]
  rfl

/-! ### `walk` with `alloc` -/

/-- The tables `new` were added to a page table; its entries, and the outstanding pages outside
it, are as they were. -/
structure Extended (s : Pages) (pt : Nat) (new : List Nat) (m : Memory) : Prop where
  tables : (tables m pt).Perm (new ++ Mem.tables s.kmem.mem pt)
  pte : ∀ va, Mem.pte m pt va = Mem.pte s.kmem.mem pt va
  links : Links s.kmem.mem pt → Links m pt
  frame : ∀ q ∈ s.held, q ∉ Mem.tables s.kmem.mem pt → SamePage s.kmem.mem m q

theorem Extended.refl (s : Pages) (pt : Nat) : Extended s pt [] s.kmem.mem :=
  ⟨.refl _, fun _ => rfl, id, fun q _ _ => SamePage.refl _ q⟩

variable {new : List Nat}

theorem Extended.held (h : Extended s pt new k.mem) (hH : Held s pt)
    (hnew : (new ++ s.held).Nodup) : Held ⟨k, new ++ s.held⟩ pt := by
  constructor
  · refine (h.tables.nodup_iff).mpr ?_
    rw [List.nodup_append] at hnew ⊢
    exact ⟨hnew.1, hH.nodup, fun a ha b hb => hnew.2.2 a ha b (hH.held b hb)⟩
  · intro q hq
    rcases List.mem_append.mp ((h.tables.mem_iff).mp hq) with hq | hq
    · exact List.mem_append_left _ hq
    · exact List.mem_append_right _ (hH.held q hq)

theorem Extended.trans {new' : List Nat} (h : Extended s pt new k.mem)
    (h' : Extended ⟨k, new ++ s.held⟩ pt new' m) (hnew : (new ++ s.held).Nodup) :
    Extended s pt (new' ++ new) m := by
  refine ⟨?_, fun va => (h'.pte va).trans (h.pte va), fun hl => h'.links (h.links hl),
    fun q hq hnot => ?_⟩
  · rw [List.append_assoc]
    exact h'.tables.trans (h.tables.append_left new')
  · refine (h.frame q hq hnot).trans (h'.frame q (List.mem_append_right _ hq) fun hmem => ?_)
    rcases List.mem_append.mp ((h.tables.mem_iff).mp hmem) with hin | hin
    · exact (List.nodup_append.mp hnew).2.2 q hin q hq rfl
    · exact hnot hin

/-- A new page, cleared and linked where a path ends. -/
theorem link_page {k : Kmem} {pg q va level : Nat} {rest : List Nat}
    (hS : Split kend ⟨k, pg :: s.held⟩ rest)
    (hmem : ∀ a, ¬ (pg ≤ a ∧ a < pg + PGSIZE) → k.mem a = s.kmem.mem a) (hH : Held s pt)
    (hq : table s.kmem.mem pt va (level + 1) = some q)
    (hnone : pteChild (cells s.kmem.mem q (PX (level + 1) va)) = none)
    (hm' : m' = (k.mem.fill pg PGSIZE 0).store 8 (q + 8 * PX (level + 1) va)
      (PA2PTE pg ||| PTE_V)) :
    Split kend ⟨{ k with mem := m' }, pg :: s.held⟩ rest ∧ Extended s pt [pg] m' ∧
      table m' pt va level = some pg ∧
      ∀ va', missing m' pt va' = missing s.kmem.mem pt va' \
        {(level, Radix.above (path va) level 2)} := by
  have hpg : PGSIZE = 4096 := rfl
  have hi : PX (level + 1) va < 512 := path_lt va (level + 1)
  have hpgpool : InPool kend pg := hS.outstanding List.mem_cons_self
  have hpool : ∀ x ∈ s.held, InPool kend x := fun x hx =>
    hS.outstanding (List.mem_cons_of_mem pg hx)
  have hfresh : pg ∉ s.held := (List.nodup_cons.mp hS.nodup_held).1
  have hqheld : q ∈ s.held := hH.held q (Radix.table_mem (path_lt va) hq)
  have hqpg : pg ≠ q := fun h => hfresh (h ▸ hqheld)
  obtain ⟨hchild, hfits⟩ := pteChild_link hpgpool.1 hpgpool.lt
  -- Outside the two pages nothing changes.
  have hout : ∀ a, ¬ (pg ≤ a ∧ a < pg + PGSIZE) → ¬ (q ≤ a ∧ a < q + PGSIZE) →
      m' a = s.kmem.mem a := by
    intro a hapg haq
    rw [hm', store_outside hi haq, ← hmem a hapg]
    exact if_neg hapg
  have hcells : ∀ x ∈ tables s.kmem.mem pt, ∀ i < 512, ¬ (x = q ∧ i = PX (level + 1) va) →
      cells m' x i = cells s.kmem.mem x i := by
    intro x hx i hix hne
    have hxheld := hH.held x hx
    rw [hm', cells_store_other (hpool q hqheld) (hpool x hxheld) hi hix hne]
    have hxpg : pg ≠ x := fun h => hfresh (h ▸ hxheld)
    refine cells_congr (samePage_of_apart hpgpool (hpool x hxheld) hxpg fun a ha => ?_) hix
    rw [← hmem a ha]
    exact if_neg ha
  have hself : pteChild (cells m' q (PX (level + 1) va)) = some pg := by
    rw [hm', cells_store hfits, hchild]
  have hzero : ∀ i < 512, cells m' pg i = 0 := by
    intro i hix
    rw [hm', cells_store_other (hpool q hqheld) hpgpool hi hix fun h => hqpg h.1]
    exact cells_fill hix
  have hclear : ∀ i < 512, pteChild (cells m' pg i) = none := by
    intro i hix
    rw [hzero i hix]
    rfl
  have hspec := Radix.link_spec (path_lt va) hH.nodup hq hnone hself hcells hclear
  have hgood : LinkPte (cells m' q (PX (level + 1) va)) := by
    rw [hm', cells_store hfits]
    exact linkPte_link pg
  refine ⟨?_, ⟨hspec.1, fun va' => ?_, fun hl => ?_, fun x hx hnot => ?_⟩, ?_, fun va' => ?_⟩
  · -- Both pages are outstanding.
    refine hS.of_mem fun x hx => ?_
    have hxpool := hS.free hx
    have hxpg : x ≠ pg := fun h => hS.apart List.mem_cons_self (h ▸ hx)
    have hxq : x ≠ q := fun h => hS.apart (List.mem_cons_of_mem pg hqheld) (h ▸ hx)
    intro a hlo hhi
    have h1 := hxpool.apart hpgpool hxpg
    have h2 := hxpool.apart (hpool q hqheld) hxq
    show m' a = k.mem a
    rw [hmem a (by omega)]
    exact hout a (by omega) (by omega)
  · exact Radix.entry_link (path_lt va) hH.nodup hq hnone hself hcells hclear hzero (path_lt va')
  · exact Radix.linked_link (path_lt va) hH.nodup hq hnone hself hcells hclear hgood hl
  · intro a hlo hhi
    have hxpg : x ≠ pg := fun h => hfresh (h ▸ hx)
    have hxq : x ≠ q := fun h => hnot (h ▸ Radix.table_mem (path_lt va) hq)
    have h1 := (hpool x hx).apart hpgpool hxpg
    have h2 := (hpool x hx).apart (hpool q hqheld) hxq
    exact hout a (by omega) (by omega)
  · have := hspec.2 (path va) (path_lt va) level
    rw [if_pos ⟨rfl, fun _ _ _ => rfl⟩] at this
    exact this
  · exact Radix.missing_link (path_lt va) hH.nodup hq hnone hself hcells hclear (path_lt va')

/-- The result of `walk` with `alloc`: the way to the entry, or no way because the freelist ran
out. -/
def Walked (s : Pages) (pt va : Nat) (new rest : List Nat) (m : Memory) : Option Nat → Prop
  | none => rest = [] ∧ new.length < (missing s.kmem.mem pt va).card
  | some a => (∃ q, table m pt va 0 = some q ∧ a = q + 8 * PX 0 va) ∧
      new.length = (missing s.kmem.mem pt va).card ∧
      ∀ va', missing m pt va' = missing s.kmem.mem pt va' \ missing s.kmem.mem pt va

/-- The loop of `walk`, from a table on the path. -/
theorem walkLoop_alloc (hS : Split kend s f) (hH : Held s pt) (hlevel : level ≤ 2)
    (hq : table s.kmem.mem pt va level = some q) :
    wp (walkLoop true va level q) (fun r k => ∃ new rest, f.Perm (new ++ rest) ∧
      Split kend ⟨k, new ++ s.held⟩ rest ∧ Extended s pt new k.mem ∧
      Walked s pt va new rest k.mem r) (fun _ => False) s.kmem := by
  induction level generalizing s f q with
  | zero =>
    have hnone : missing s.kmem.mem pt va = ∅ :=
      Radix.missing_eq_empty (by unfold table at hq; rw [hq]; simp)
    refine ⟨[], f, .refl _, hS, Extended.refl s pt, ⟨q, hq, rfl⟩, ?_, fun va' => ?_⟩
    · rw [hnone]
      rfl
    · rw [hnone, Finset.sdiff_empty]
  | succ level ih =>
    have hstep : table s.kmem.mem pt va level = pteChild (cells s.kmem.mem q (PX (level + 1) va)) :=
      Radix.table_step hq
    rw [walkLoop, wp_bind, readPte, wp_read]
    show wp (if cells s.kmem.mem q (PX (level + 1) va) &&& PTE_V ≠ 0 then _ else _) _ _ _
    by_cases hvalid : cells s.kmem.mem q (PX (level + 1) va) &&& PTE_V ≠ 0
    · rw [if_pos hvalid]
      rw [pteChild, if_pos hvalid] at hstep
      exact ih hS hH (by omega) hstep
    · have hnone : pteChild (cells s.kmem.mem q (PX (level + 1) va)) = none := if_neg hvalid
      have hmissing : (level, Radix.above (path va) level 2) ∈ missing s.kmem.mem pt va :=
        Radix.mem_missing.mpr ⟨by show level < 2; omega, by rw [hnone] at hstep; exact hstep, rfl⟩
      rw [if_neg hvalid, if_neg (by simp), wp_bind]
      refine wp_post (kalloc_page hS) ?_
      rintro pg k (⟨hf, hpg, hk⟩ | ⟨rest, hf, hpg, hSk, hmem⟩)
      · rw [if_pos hpg, wp_pure]
        subst hf hk
        refine ⟨[], [], .refl _, hS, Extended.refl s pt, rfl, ?_⟩
        exact Finset.card_pos.mpr ⟨_, hmissing⟩
      · rw [if_neg hpg, wp_bind, memset, wp_modify, wp_bind, writePte, wp_modify]
        obtain ⟨hSl, hE, htable, hmiss⟩ := link_page hSk hmem hH hq hnone rfl
        have hnodup : ([pg] ++ s.held).Nodup := hSk.nodup_held
        have hHl := Extended.held (k := ⟨_, k.freelist⟩) hE hH hnodup
        refine wp_post (ih hSl hHl (by omega) htable) ?_
        rintro r k' ⟨new, rest', hperm, hS', hE', hw⟩
        refine ⟨new ++ [pg], rest', ?_, ?_, hE.trans hE' hnodup, ?_⟩
        · rw [hf, List.append_assoc, List.singleton_append]
          exact (hperm.cons pg).trans List.perm_middle.symm
        · rw [List.append_assoc]
          exact hS'
        · -- One table less is missing.
          have hcard : (missing s.kmem.mem pt va \
              {(level, Radix.above (path va) level 2)}).card + 1 =
                (missing s.kmem.mem pt va).card := by
            rw [Finset.sdiff_singleton_eq_erase]
            exact Finset.card_erase_add_one hmissing
          cases r with
          | none =>
            obtain ⟨hnil, hlt⟩ := hw
            have hlt : new.length < _ := hlt
            refine ⟨hnil, ?_⟩
            rw [hmiss va] at hlt
            rw [List.length_append, List.length_singleton]
            omega
          | some a =>
            obtain ⟨hway, hlen, hrest⟩ := hw
            have hlen : new.length = _ := hlen
            refine ⟨hway, ?_, fun va' => ?_⟩
            · rw [hmiss va] at hlen
              rw [List.length_append, List.length_singleton]
              omega
            · rw [hrest va', hmiss va, hmiss va']
              ext x
              simp only [Finset.mem_sdiff, Finset.mem_singleton]
              by_cases hx : x = (level, Radix.above (path va) level 2)
              · subst hx
                simp [hmissing]
              · simp [hx]

/-- `walk` with `alloc` completes the path of an address, or empties the freelist. -/
theorem walk_alloc (hS : Split kend s f) (hH : Held s pt) (hva : va < MAXVA) :
    wp (walk pt va true) (fun r k => ∃ new rest, f.Perm (new ++ rest) ∧
      Split kend ⟨k, new ++ s.held⟩ rest ∧ Extended s pt new k.mem ∧
      Walked s pt va new rest k.mem r) (fun _ => False) s.kmem := by
  rw [walk, if_neg (by omega)]
  exact walkLoop_alloc hS hH (Nat.le_refl _) Radix.table_top

/-! ### Changing an entry -/

/-- The addresses of a page table. `walk` takes the lower half of them. -/
def VASPACE : Nat := 2 ^ 39

theorem lt_vaspace (h : va < MAXVA) : va < VASPACE :=
  Nat.lt_trans h (by decide)

/-- Two addresses have the same path exactly if they lie in the same page. -/
theorem path_eq_iff {va' : Nat} (h : va < VASPACE) (h' : va' < VASPACE) :
    (∀ i ≤ 2, path va' i = path va i) ↔ va' / PGSIZE = va / PGSIZE := by
  have hpg : PGSIZE = 4096 := rfl
  have hmax : VASPACE = 549755813888 := rfl
  have h0 : ∀ va, path va 0 = va / 4096 % 512 := fun va => rfl
  have h1 : ∀ va, path va 1 = va / 2097152 % 512 := fun va => rfl
  have h2 : ∀ va, path va 2 = va / 1073741824 % 512 := fun va => rfl
  rw [hpg]
  constructor
  · intro hall
    have e0 := hall 0 (by omega)
    have e1 := hall 1 (by omega)
    have e2 := hall 2 (by omega)
    rw [h0, h0] at e0
    rw [h1, h1] at e1
    rw [h2, h2] at e2
    omega
  · intro he i hi
    obtain rfl | rfl | rfl : i = 0 ∨ i = 1 ∨ i = 2 := by omega
    · rw [h0, h0]
      omega
    · rw [h1, h1]
      omega
    · rw [h2, h2]
      omega

/-- The addresses of a page have one entry. -/
theorem pte_of_page {va' : Nat} (h : va / PGSIZE = va' / PGSIZE) :
    pte m pt va = pte m pt va' := by
  have hpath : path va = path va' := by
    funext level
    unfold path PX
    rw [← Nat.div_div_eq_div_mul, ← Nat.div_div_eq_div_mul, h]
  unfold pte
  rw [hpath]

/-- A store through the address that `walk` returns. -/
structure Stored (s : Pages) (pt va e : Nat) (m : Memory) : Prop where
  tables : tables m pt = Mem.tables s.kmem.mem pt
  pte : ∀ va' < VASPACE, Mem.pte m pt va' =
    if va' / PGSIZE = va / PGSIZE then e else Mem.pte s.kmem.mem pt va'
  table : ∀ va' level, Mem.table m pt va' level = Mem.table s.kmem.mem pt va' level
  missing : ∀ va', Mem.missing m pt va' = Mem.missing s.kmem.mem pt va'
  links : Links s.kmem.mem pt → Links m pt
  frame : ∀ q ∈ s.held, q ∉ Mem.tables s.kmem.mem pt → SamePage s.kmem.mem m q

variable {e : Nat}

theorem store_pte (hS : Split kend s f) (hH : Held s pt) (hva : va < MAXVA)
    (hq : table s.kmem.mem pt va 0 = some q) (he : e < 256 ^ 8)
    (hm : m = s.kmem.mem.store 8 (q + 8 * PX 0 va) e) :
    Split kend ⟨{ s.kmem with mem := m }, s.held⟩ f ∧ Stored s pt va e m := by
  have hqt : q ∈ tables s.kmem.mem pt := Radix.table_mem (path_lt va) hq
  have hqheld := hH.held q hqt
  have hi : PX 0 va < 512 := path_lt va 0
  have hout : ∀ a, ¬ (q ≤ a ∧ a < q + PGSIZE) → m a = s.kmem.mem a := by
    intro a ha
    rw [hm, store_outside hi ha]
  have hcells : ∀ x ∈ tables s.kmem.mem pt, ∀ i < 512, ¬ (x = q ∧ i = path va 0) →
      cells m x i = cells s.kmem.mem x i := by
    intro x hx i hix hne
    rw [hm, cells_store_other (hH.inPool hS hqt) (hH.inPool hS hx) hi hix hne]
  obtain ⟨htables, htable⟩ := Radix.store_keeps (path_lt va) hH.nodup hq hcells
  have hsame : ∀ va' level, table m pt va' level = table s.kmem.mem pt va' level :=
    fun va' level => htable (path va') (path_lt va') level
  refine ⟨hS.of_write hqheld hout, htables, fun va' hva' => ?_, hsame, fun va' => ?_,
    Radix.linked_store (path_lt va) hH.nodup hq hcells, fun x hx hnot => ?_⟩
  · have hentry := Radix.entry_store (path_lt va) hH.nodup hq hcells (path_lt va')
    unfold pte
    rw [hentry]
    refine if_congr (path_eq_iff (lt_vaspace hva) hva') ?_ rfl
    rw [hm]
    exact cells_store he
  · ext x
    unfold missing
    rw [Radix.mem_missing, Radix.mem_missing]
    have := hsame va' x.1
    unfold table at this
    rw [this]
  · refine samePage_of_apart (hH.inPool hS hqt) (hS.outstanding hx) ?_ hout
    rintro rfl
    exact hnot hqt

theorem Stored.held (h : Stored s pt va e k.mem) (hH : Held s pt) :
    Held ⟨k, s.held⟩ pt := by
  constructor
  · show (Mem.tables k.mem pt).Nodup
    rw [h.tables]
    exact hH.nodup
  · intro q hq
    have hq : q ∈ Mem.tables k.mem pt := hq
    rw [h.tables] at hq
    exact hH.held q hq

/-! ### `mappages` of one page -/

/-- The entry that `mappages` stores. -/
def leafPte (pa perm : Nat) : Nat := PA2PTE pa ||| perm ||| PTE_V

/-- What `mappages` of one page does. -/
structure Mapped (s : Pages) (pt va e : Nat) (new : List Nat) (m : Memory) : Prop where
  tables : (tables m pt).Perm (new ++ Mem.tables s.kmem.mem pt)
  pte : ∀ va' < VASPACE, Mem.pte m pt va' =
    if va' / PGSIZE = va / PGSIZE then e else Mem.pte s.kmem.mem pt va'
  count : new.length = (Mem.missing s.kmem.mem pt va).card
  missing : ∀ va', Mem.missing m pt va' =
    Mem.missing s.kmem.mem pt va' \ Mem.missing s.kmem.mem pt va
  links : Links s.kmem.mem pt → Links m pt
  frame : ∀ q ∈ s.held, q ∉ Mem.tables s.kmem.mem pt → SamePage s.kmem.mem m q

/-- A page that was outstanding does not become a table. -/
theorem Mapped.not_table (h : Mapped s pt va e new m) (hnodup : (new ++ s.held).Nodup)
    (hq : q ∈ s.held) (hqt : q ∉ Mem.tables s.kmem.mem pt) :
    q ∉ Mem.tables m pt := by
  intro hmem
  rcases List.mem_append.mp ((h.tables.mem_iff).mp hmem) with hin | hin
  · exact (List.nodup_append.mp hnodup).2.2 q hin q hq rfl
  · exact hqt hin

/-- One round of the loop of `mappages`, at a page that is not mapped. It fails exactly if the
freelist does not have the tables that the path lacks. -/
theorem mappagesLoop_page {n va pa perm : Nat} (hS : Split kend s f) (hH : Held s pt)
    (hva : va < MAXVA) (hfree : pte s.kmem.mem pt va &&& PTE_V = 0)
    (he : leafPte pa perm < 256 ^ 8) {post : Int → Kmem → Prop} {err : Panic → Prop}
    (hfail : ∀ new k, f.Perm new → Split kend ⟨k, new ++ s.held⟩ [] →
      Held ⟨k, new ++ s.held⟩ pt → new.length < (missing s.kmem.mem pt va).card →
      Extended s pt new k.mem → post (-1) k)
    (hnext : ∀ new rest k, f.Perm (new ++ rest) → Split kend ⟨k, new ++ s.held⟩ rest →
      Held ⟨k, new ++ s.held⟩ pt → Mapped s pt va (leafPte pa perm) new k.mem →
      wp (mappagesLoop pt perm n (va + PGSIZE) ((pa + PGSIZE) % 2 ^ 64)) post err k) :
    wp (mappagesLoop pt perm (n + 1) va pa) post err s.kmem := by
  rw [mappagesLoop, wp_bind]
  refine wp_mono (walk_alloc hS hH hva) ?_ fun _ => False.elim
  rintro r k ⟨new, rest, hperm, hS', hE, hw⟩
  have hnodup : (new ++ s.held).Nodup := hS'.nodup_held
  have hH' := hE.held hH hnodup
  cases r with
  | none =>
    obtain ⟨rfl, hfew⟩ := hw
    rw [List.append_nil] at hperm
    exact hfail new k hperm hS' hH' hfew hE
  | some a =>
    obtain ⟨⟨q, hq, rfl⟩, hlen, hmiss⟩ := hw
    have hpte : k.mem.load 8 (q + 8 * PX 0 va) = pte s.kmem.mem pt va := by
      rw [← pte_of_table hq, hE.pte va]
    show wp (readPte (q + 8 * PX 0 va) >>= _) _ _ _
    rw [wp_bind, readPte, wp_read, hpte, if_neg (by simpa using hfree), wp_bind, writePte,
      wp_modify]
    obtain ⟨hS'', hst⟩ := store_pte hS' hH' hva hq he rfl
    refine hnext new rest _ hperm hS'' (Stored.held (k := ⟨_, k.freelist⟩) hst hH')
      ⟨?_, fun va' hva' => ?_, hlen, fun va' => ?_, fun hl => hst.links (hE.links hl),
        fun x hx hnot => ?_⟩
    · exact (List.Perm.of_eq hst.tables).trans hE.tables
    · rw [← hE.pte va']
      exact hst.pte va' hva'
    · rw [← hmiss va']
      exact hst.missing va'
    · refine (hE.frame x hx hnot).trans
        (hst.frame x (List.mem_append_right _ hx) fun hmem => ?_)
      rcases List.mem_append.mp ((hE.tables.mem_iff).mp hmem) with hin | hin
      · exact (List.nodup_append.mp hnodup).2.2 x hin x hx rfl
      · exact hnot hin

/-- `mappages` of a page that is not mapped: it succeeds exactly if the freelist has the tables
that the path lacks. -/
theorem mappages_page {perm : Nat} (hS : Split kend s f) (hH : Held s pt) (hmod : va % PGSIZE = 0)
    (hva : va < MAXVA) (hfree : pte s.kmem.mem pt va &&& PTE_V = 0)
    (he : leafPte pa perm < 256 ^ 8) :
    wp (mappages pt va pa PGSIZE perm) (fun r k => ∃ new rest, f.Perm (new ++ rest) ∧
      Split kend ⟨k, new ++ s.held⟩ rest ∧ Held ⟨k, new ++ s.held⟩ pt ∧
      (r = -1 ∧ rest = [] ∧ new.length < (missing s.kmem.mem pt va).card ∧
          Extended s pt new k.mem ∨
        r = 0 ∧ Mapped s pt va (leafPte pa perm) new k.mem)) (fun _ => False) s.kmem := by
  have hone : PGSIZE / PGSIZE = 1 := by decide
  rw [mappages, if_neg (by simpa using hmod), if_neg (by decide), if_neg (by decide), hone]
  refine mappagesLoop_page hS hH hva hfree he ?_ ?_
  · intro new k hperm hS' hH' hfew hE
    exact ⟨new, [], by rwa [List.append_nil], hS', hH', .inl ⟨rfl, rfl, hfew, hE⟩⟩
  · intro new rest k hperm hS' hH' hM
    exact ⟨new, rest, hperm, hS', hH', .inr ⟨rfl, hM⟩⟩

end Xv6.Proofs.Mem
