import Xv6.Proofs.Mem.Grow
import Xv6.Proofs.Sys.DescriptorRuns

/-!
# `Xv6.Proofs.Sys.Growproc`: growing and shrinking a process

`growproc(n)` calls `uvmalloc` for a positive `n` and `uvmdealloc` for a negative one. The
second either has nothing to remove, and then the size stays as it is, or it panics. So what
`growproc(n)` has added, `growproc(-n)` does not take back.
-/

set_option autoImplicit false

namespace Xv6.Proofs.Sys

open Lib Lib.Action Kernel Mem

variable {c : SysParam} {p : ProcPtr} {s t : SysState}

/-- The memory of a process: its page table and its size. -/
def ProcSpace (c : SysParam) (p : ProcPtr) (s : SysState) (held free l : List Nat) : Prop :=
  UserSpace c.kend ⟨s.kmem, held⟩ free (s.proc p).pagetable (s.proc p).sz l

/-- The state with another memory and another size of the process. -/
def resized (s : SysState) (p : ProcPtr) (k : Kmem) (sz : Nat) : SysState :=
  { s with kmem := k, proc := Function.update s.proc p { s.proc p with sz := sz } }

theorem resized_proc {k : Kmem} {sz : Nat} :
    (resized s p k sz).proc p = { s.proc p with sz := sz } := Function.update_self ..

theorem resized_self : resized s p s.kmem (s.proc p).sz = s := by
  unfold resized
  rw [Function.update_eq_self_iff.mpr rfl]

/-! ### The three cases of `growproc` -/

variable {n : Int32} {post : Int → SysState → Prop} {err : Panic → Prop}

theorem wp_growproc_pos (hn : 0 < n.toInt) (hsz : (s.proc p).sz + n.toInt.toNat < 2 ^ 64) :
    wp (growproc c p n) post err s ↔
      wp (uvmalloc c.kend (s.proc p).pagetable (s.proc p).sz ((s.proc p).sz + n.toInt.toNat) PTE_W)
        (fun r k => if r = 0 then post (-1) { s with kmem := k }
          else post 0 (resized s p k r)) err s.kmem := by
  have hpos : 0 < n := Int32.lt_iff_toInt_lt.mpr (by rw [Int32.toInt_zero]; exact hn)
  have hnew : ((((s.proc p).sz : Int) + n.toInt).emod (2 ^ 64)).toNat =
      (s.proc p).sz + n.toInt.toNat := by
    have : (((s.proc p).sz : Int) + n.toInt).emod (2 ^ 64) = (s.proc p).sz + n.toInt :=
      Int.emod_eq_of_lt (by omega) (by omega)
    rw [this]
    omega
  rw [growproc, wp_bind, process, wp_read]
  simp only [hnew, if_pos hpos]
  rw [wp_bind, onMem, wp_zoom]
  refine iff_of_eq (congrArg (fun q => wp _ q err s.kmem) (funext fun r => funext fun k => ?_))
  by_cases hr : r = 0
  · rw [if_pos hr, if_pos hr, wp_pure]
  · rw [if_neg hr, if_neg hr]
    rfl

theorem wp_growproc_neg (hn : n.toInt < 0) :
    wp (growproc c p n) post err s ↔
      wp (uvmdealloc c.kend (s.proc p).pagetable (s.proc p).sz
          (((s.proc p).sz + n.toInt).emod (2 ^ 64)).toNat)
        (fun r k => post 0 (resized s p k r)) err s.kmem := by
  have hneg : n < 0 := Int32.lt_iff_toInt_lt.mpr (by rw [Int32.toInt_zero]; exact hn)
  have hpos : ¬ 0 < n := by
    rw [Int32.lt_iff_toInt_lt, Int32.toInt_zero]
    omega
  rw [growproc, wp_bind, process, wp_read]
  simp only [if_neg hpos, if_pos hneg]
  rw [wp_bind, onMem, wp_zoom]
  rfl

theorem growproc_zero (hsz : (s.proc p).sz < 2 ^ 64) : growproc c p 0 s = .ok (0, s) := by
  have hnew : ((((s.proc p).sz : Int) + (0 : Int32).toInt).emod (2 ^ 64)).toNat =
      (s.proc p).sz := by
    rw [Int32.toInt_zero, Int.add_zero]
    have : ((s.proc p).sz : Int).emod (2 ^ 64) = (s.proc p).sz :=
      Int.emod_eq_of_lt (by omega) (by omega)
    rw [this]
    omega
  have hrun : growproc c p 0 s = .ok (0, resized s p s.kmem
      ((((s.proc p).sz : Int) + (0 : Int32).toInt).emod (2 ^ 64)).toNat) := rfl
  rw [hrun, hnew, resized_self]

/-! ### There and back -/

/-- `growproc(-n)` after `growproc(n)` gives back the size, the leaf mappings and the pages: a
page that was free is free again, or it is a table. -/
def Restores (c : SysParam) (p : ProcPtr) (s t : SysState) (free : List Nat) (n : Int32) : Prop :=
  wp (growproc c p (-n))
    (fun _ u => (u.proc p).sz = (s.proc p).sz ∧
      (∀ va < MAXVA, leafAt u.kmem.mem (u.proc p).pagetable va =
        leafAt s.kmem.mem (s.proc p).pagetable va) ∧
      ∃ held free', Split c.kend ⟨u.kmem, held⟩ free' ∧
        ∀ q ∈ free, q ∈ free' ∨ q ∈ tables u.kmem.mem (u.proc p).pagetable)
    (fun _ => False) t

/-- A larger size that `growproc` can reach. -/
theorem size_bounds (hend : KERNBASE ≤ c.kend) {held free l : List Nat}
    (h : ProcSpace c p s held free l) (n : Int32) :
    (s.proc p).sz + n.toInt.toNat ≤ TRAPFRAME ∧ (s.proc p).sz + n.toInt.toNat < 2 ^ 64 := by
  have hsmall := UserSpace.small h hend
  have hsize : l.length * PGSIZE = PGROUNDUP (s.proc p).sz := h.size
  have hram : PHYSTOP - KERNBASE = 134217728 := rfl
  have htf : TRAPFRAME = 274877898752 := rfl
  have hle := kend_le (s.proc p).sz
  have := n.toInt_lt
  omega

/-- A shrinking call returns 0 or panics, and it returns the old size. -/
theorem growproc_neg (hend : KERNBASE ≤ c.kend) {held free l : List Nat}
    (h : ProcSpace c p s held free l) (hn : n.toInt < 0) :
    wp (growproc c p n) (fun r t => r = 0 ∧ t = s) (fun _ => True) s := by
  rw [wp_growproc_neg hn]
  by_cases hround : PGROUNDUP (((s.proc p).sz + n.toInt).emod (2 ^ 64)).toNat <
      PGROUNDUP (s.proc p).sz
  · exact wp_mono (UserSpace.dealloc_panics hend h hround) (fun _ _ => False.elim)
      fun _ _ => trivial
  · have hsame : (s.proc p).sz ≤ (((s.proc p).sz + n.toInt).emod (2 ^ 64)).toNat ∨
        PGROUNDUP (s.proc p).sz = PGROUNDUP (((s.proc p).sz + n.toInt).emod (2 ^ 64)).toNat := by
      by_cases hle : (s.proc p).sz ≤ (((s.proc p).sz + n.toInt).emod (2 ^ 64)).toNat
      · exact .inl hle
      · have := round_mono (Nat.le_of_not_le hle)
        exact .inr (by omega)
    rw [uvmdealloc_same hsame, wp_pure, resized_self]
    exact ⟨rfl, rfl⟩

/-- A growing call returns 0 with the larger size, or -1 with nothing but tables added. -/
theorem growproc_pos (hend : KERNBASE ≤ c.kend) {held free l : List Nat}
    (h : ProcSpace c p s held free l) (hn : 0 < n.toInt) :
    wp (growproc c p n)
      (fun r t =>
        r = 0 ∧ (t.proc p).sz = (s.proc p).sz + n.toInt.toNat ∧
          (∃ held' free' l', ProcSpace c p t held' free' l') ∨
        r = -1 ∧ t.proc = s.proc ∧
          ∃ new rest, Gave c.kend ⟨s.kmem, held⟩ free (s.proc p).pagetable new rest t.kmem)
      (fun _ => True) s := by
  obtain ⟨hmax, hword⟩ := size_bounds hend h n
  rw [wp_growproc_pos hn hword]
  refine wp_mono (uvmalloc_spec hend h (by omega) (by decide)) ?_ fun _ _ => trivial
  rintro r k (⟨hr, -, l', new, rest, hlen, hT⟩ | ⟨hr, -, -, hG⟩)
  · rw [if_neg (by omega)]
    refine .inl ⟨rfl, by rw [resized_proc]; exact hr, l' ++ new ++ held, rest, l ++ l', ?_⟩
    have hle : (s.proc p).sz ≤ (s.proc p).sz + n.toInt.toNat := Nat.le_add_right _ _
    unfold ProcSpace
    rw [resized_proc, hr]
    exact h.grow hend hle (readable_lt (by decide)) readable_leaf hlen hT
  · rw [if_pos hr]
    exact .inr ⟨rfl, rfl, hG⟩

/-- `growproc(-n)` undoes a successful `growproc(n)` exactly if there was nothing to do, or if
it fails itself, after a shrinking call that changed nothing. -/
theorem restores_iff (hend : KERNBASE ≤ c.kend) {held free l : List Nat}
    (h : ProcSpace c p s held free l) (hmin : n ≠ Int32.minValue)
    (hok : growproc c p n s = .ok (0, t)) :
    Restores c p s t free n ↔ n = 0 ∨ ∃ u, growproc c p (-n) t = .ok (-1, u) := by
  have hneg : (-n).toInt = -n.toInt := by
    have hne : n.toInt ≠ -2 ^ 31 := fun he => hmin (Int32.toInt_inj.mp he)
    have hlo := n.le_toInt
    have hhi := n.toInt_lt
    rw [Int32.toInt_neg, Int.bmod_def]
    omega
  rcases Int.lt_trichotomy n.toInt 0 with hn | hn | hn
  · -- The first call changed nothing, so the second one starts where the first did.
    obtain ⟨-, rfl⟩ := wp_ok (growproc_neg hend h hn) hok
    have hspec := growproc_pos hend h (n := -n) (by omega)
    have hnz : n ≠ 0 := by
      rintro rfl
      exact absurd hn (by decide)
    constructor
    · intro hres
      obtain ⟨r, u, hrun, hsz, -⟩ := wp_returns hres fun _ => id
      rcases wp_ok hspec hrun with ⟨-, hgrown, -⟩ | ⟨hr, -⟩
      · omega
      · exact .inr ⟨u, hr ▸ hrun⟩
    · rintro (h0 | ⟨u, hu⟩)
      · exact absurd h0 hnz
      · unfold Restores
        rcases wp_ok hspec hu with ⟨hr, -⟩ | ⟨-, hproc, new, rest, hG⟩
        · exact absurd hr (by decide)
        · unfold wp
          rw [hu]
          show (u.proc p).sz = _ ∧ _
          rw [hproc]
          refine ⟨rfl, fun va _ => ?_, new ++ held, rest, hG.split, fun q hq => ?_⟩
          · unfold leafAt
            rw [hG.extended.pte va]
          · rcases List.mem_append.mp ((hG.free.mem_iff).mp hq) with hin | hin
            · exact .inr ((hG.extended.tables.mem_iff).mpr (List.mem_append_left _ hin))
            · exact .inl hin
  · have hzero : n = 0 := Int32.toInt_inj.mp (by rw [hn, Int32.toInt_zero])
    subst hzero
    have hsz : (s.proc p).sz < 2 ^ 64 := by
      have := (size_bounds hend h 0).2
      omega
    rw [growproc_zero hsz] at hok
    obtain rfl : s = t := (Prod.mk.inj (Except.ok.inj hok)).2
    refine iff_of_true ?_ (.inl rfl)
    unfold Restores wp
    rw [show -(0 : Int32) = 0 from rfl, growproc_zero hsz]
    exact ⟨rfl, fun _ _ => rfl, held, free, h.split, fun q hq => .inl hq⟩
  · -- The memory has grown, and the shrinking call leaves it there or panics.
    rcases wp_ok (growproc_pos hend h hn) hok with ⟨-, hgrown, held', free', l', ht⟩ | ⟨hr, -⟩
    · have hspec := growproc_neg hend ht (n := -n) (by omega)
      have hnz : n ≠ 0 := by
        rintro rfl
        exact absurd hn (by decide)
      constructor
      · intro hres
        obtain ⟨r, u, hrun, hsz, -⟩ := wp_returns hres fun _ => id
        obtain ⟨-, rfl⟩ := wp_ok hspec hrun
        omega
      · rintro (h0 | ⟨u, hu⟩)
        · exact absurd h0 hnz
        · exact absurd (wp_ok hspec hu).1 (by decide)
    · exact absurd hr (by decide)

/-- The first process, with the given memory. -/
def withMemory (k : Kmem) (pt sz : Nat) : SysState :=
  { firstState with
    kmem := k
    proc := fun p => if p = firstProc then
      { blankProcess with state := .running, pagetable := pt, sz := sz } else blankProcess }

theorem withMemory_space {k : Kmem} {pt sz : Nat} {held rest l : List Nat}
    (h : UserSpace KERNBASE ⟨k, held⟩ rest pt sz l) :
    ProcSpace plainParam firstProc (withMemory k pt sz) held rest l := h

end Xv6.Proofs.Sys
