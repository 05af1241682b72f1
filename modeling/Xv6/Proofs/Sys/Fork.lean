import Xv6.Proofs.Mem.Copy
import Xv6.Proofs.Sys.Growproc

/-!
# `Xv6.Proofs.Sys.Fork`: a `fork` that fails

`fork` fails when there is no slot, no page for the trapframe, too few for the page table, or
too few for the copy of the parent's memory. In the first three cases `allocproc` returns null,
and what it took is given back (`allocproc_spec`). In the last case `uvmcopy` has undone its
work, and `freeproc` is left with a trapframe and a page table that maps no user page.

`freeproc` passes on the size in the slot, and nobody has set it for the new process: it is
that of the process which had the slot before. If it is of some page, `uvmfree` unmaps page 0 of
the new page table, and panics.
-/

set_option autoImplicit false

namespace Xv6.Proofs.Sys

open Lib Lib.Action Kernel Mem

variable {c : SysParam} {p np : ProcPtr} {t u : SysState} {held f : List Nat}

/-! ### One slot -/

/-- The state with another memory, another next pid and another process in a slot. -/
def withSlot (t : SysState) (np : ProcPtr) (nextpid : Int32) (q : Process) (k : Kmem) : SysState :=
  { t with kmem := k, nextpid := nextpid, proc := Function.update t.proc np q }

variable {nextpid : Int32} {q : Process} {k : Kmem} {err : Panic → Prop}

theorem withSlot_proc : (withSlot t np nextpid q k).proc np = q := Function.update_self ..

theorem withSlot_other (h : p ≠ np) : (withSlot t np nextpid q k).proc p = t.proc p :=
  Function.update_of_ne h ..

theorem withSlot_self (np : ProcPtr) :
    ({ t with nextpid := nextpid } : SysState) = withSlot t np nextpid (t.proc np) t.kmem := by
  unfold withSlot
  rw [Function.update_eq_self]

theorem wp_setProcess_slot {g : Process → Process} {post : Unit → SysState → Prop} :
    wp (setProcess np g) post err (withSlot t np nextpid q k) ↔
      post () (withSlot t np nextpid (g q) k) := by
  rw [setProcess, wp_modify]
  have hstate : { withSlot t np nextpid q k with
      proc := Function.update (withSlot t np nextpid q k).proc np
        (g ((withSlot t np nextpid q k).proc np)) } = withSlot t np nextpid (g q) k := by
    rw [withSlot_proc]
    unfold withSlot
    rw [Function.update_idem]
  rw [hstate]

theorem wp_onMem_slot {α : Type} {x : KmemM α} {post : α → SysState → Prop} :
    wp (onMem x) post err (withSlot t np nextpid q k) ↔
      wp x (fun a k' => post a (withSlot t np nextpid q k')) err k := by
  rw [onMem, wp_zoom]
  exact Iff.rfl

theorem when_onMem {b : Prop} [Decidable b] {x : KmemM Unit} :
    Action.when b (onMem x) = onMem (Action.when b x) := by
  unfold Action.when
  split
  · rfl
  · rfl

/-- A slot after `freeproc`. -/
def cleared (q : Process) : Process :=
  { q with trapframe := 0, pagetable := 0, pid := 0, parent := none, name := [],
           killed := false, xstate := 0, state := .unused }

/-- `freeproc` frees the trapframe and the page table, and clears the slot. -/
theorem wp_freeproc {post : Unit → SysState → Prop} :
    wp (freeproc c np) post err (withSlot t np nextpid q k) ↔
      wp (Action.when (q.trapframe ≠ 0) (kfree c.kend q.trapframe)) (fun _ k₁ =>
        wp (Action.when (q.pagetable ≠ 0) (procFreepagetable c q.pagetable q.sz))
          (fun _ k₂ => post () (withSlot t np nextpid (cleared q) k₂)) err k₁) err k := by
  rw [freeproc, wp_bind, process, wp_read, withSlot_proc, wp_bind, when_onMem, wp_onMem_slot]
  refine iff_of_eq (congrArg (fun r => wp _ r err k) (funext fun _ => funext fun k₁ => ?_))
  rw [wp_bind, wp_setProcess_slot, wp_bind, when_onMem, wp_onMem_slot]
  refine congrArg (fun r => wp _ r err k₁) (funext fun _ => funext fun k₂ => ?_)
  rw [wp_setProcess_slot]
  rfl

/-! ### `allocproc` -/

/-- What `fork` needs of the state: the free pages are `f` and the outstanding ones `held`, the
process has a page table of outstanding pages whose entries are leaves, and the unused slots
have no pages. -/
structure ForkReady (c : SysParam) (t : SysState) (p : ProcPtr) (held f : List Nat) : Prop where
  split : Split c.kend ⟨t.kmem, held⟩ f
  table : Held ⟨t.kmem, held⟩ (t.proc p).pagetable
  leaf : ∀ va < PGROUNDUP (t.proc p).sz, pte t.kmem.mem (t.proc p).pagetable va &&& PTE_V ≠ 0 →
    PTE_FLAGS (pte t.kmem.mem (t.proc p).pagetable va) ≠ PTE_V
  live : (t.proc p).state ≠ .unused
  idle : ∀ q, (t.proc q).state = .unused → (t.proc q).trapframe = 0 ∧ (t.proc q).pagetable = 0

/-- No trace: every process is as it was, up to what `freeproc` clears in an unused slot. The
file system, the file table and the pipes are the same, so every reference count is. The free
pages are the same ones, and no outstanding page has changed. -/
structure NoTrace (c : SysParam) (t u : SysState) (held f : List Nat) : Prop where
  slots : ∀ q, u.proc q = t.proc q ∨
    (t.proc q).state = .unused ∧ u.proc q = cleared (t.proc q)
  fs : u.fs = t.fs
  ftable : u.ftable = t.ftable
  pipes : u.pipes = t.pipes
  memory : Intact c.kend ⟨t.kmem, held⟩ f u.kmem

/-- An unused slot was taken and cleared again. -/
theorem noTrace_slot (hq : (t.proc np).state = .unused) (hclear : cleared q = cleared (t.proc np))
    (hmem : Intact c.kend ⟨t.kmem, held⟩ f k) :
    NoTrace c t (withSlot t np nextpid (cleared q) k) held f := by
  refine ⟨fun x => ?_, rfl, rfl, rfl, hmem⟩
  by_cases hx : x = np
  · rw [hx, withSlot_proc]
    exact .inr ⟨hq, hclear⟩
  · rw [withSlot_other hx]
    exact .inl rfl

/-- The process that `allocproc` returns: a slot that was unused, with a pid, a trapframe and a
page table. -/
structure Allocated (c : SysParam) (t : SysState) (held f : List Nat) (np : ProcPtr)
    (tf pt : Nat) (k : Kmem) : Prop where
  unused : (t.proc np).state = .unused
  trapframe : tf ≠ 0
  pagetable : pt ≠ 0
  pages : HalfMade c.kend ⟨t.kmem, held⟩ f tf pt k

theorem allocproc_spec (hc : Linked c) (h : ForkReady c t p held f) :
    wp (allocproc c)
      (fun r u => match r with
        | none => NoTrace c t u held f
        | some np => ∃ tf pt k, Allocated c t held f np tf pt k ∧
            u = withSlot t np (t.nextpid + 1) { t.proc np with
              pid := t.nextpid, state := .used, trapframe := tf, pagetable := pt } k)
      (fun _ => False) t := by
  have hsame : Intact c.kend ⟨t.kmem, held⟩ f t.kmem :=
    ⟨f, .refl _, h.split, fun q _ => SamePage.refl _ q⟩
  rw [allocproc, wp_bind, wp_read]
  cases hfind : (List.finRange NPROC).find? fun q => (t.proc q).state = .unused with
  | none => exact ⟨fun q => .inl rfl, rfl, rfl, rfl, hsame⟩
  | some np =>
    have hunused : (t.proc np).state = .unused := by
      have := List.find?_some hfind
      simpa using this
    obtain ⟨htf₀, hpt₀⟩ := h.idle np hunused
    show wp (allocpid >>= _) _ _ _
    rw [wp_bind, allocpid, wp_bind, wp_read, wp_bind, wp_modify, wp_pure, wp_bind]
    rw [withSlot_self np, wp_setProcess_slot, wp_bind, wp_onMem_slot]
    refine wp_post (kalloc_page h.split) ?_
    rintro tf k₁ (⟨hf, hzero, hk⟩ | ⟨f₁, hf, hne, hS₁, hmem⟩)
    · -- No trapframe: there is nothing to free.
      rw [wp_bind, wp_setProcess_slot, if_pos hzero, wp_bind, wp_freeproc, wp_when]
      refine ⟨fun hne => absurd hzero hne, fun _ => wp_when.mpr ⟨fun hne => absurd hpt₀ hne, ?_⟩⟩
      intro _
      rw [wp_pure, hk]
      exact noTrace_slot hunused rfl hsame
    · obtain ⟨-, hkeep⟩ := fresh_page k₁.mem hS₁ hmem fun _ _ => rfl
      rw [wp_bind, wp_setProcess_slot, if_neg hne, wp_bind, wp_onMem_slot]
      refine wp_post (procPagetable_spec hc hS₁ List.mem_cons_self) ?_
      rintro pt k₂ (⟨hpt, -, hI⟩ | ⟨hpt, -, -, new, rest, -, hmade⟩)
      · -- No page table: the trapframe is freed.
        rw [wp_bind, wp_setProcess_slot, if_pos hpt, wp_bind, wp_freeproc, wp_when]
        refine ⟨fun _ => ?_, fun hz => absurd hne hz⟩
        refine wp_post (hI.kfree hc.pos hf hkeep) ?_
        intro _ k₃ hI₃
        refine wp_when.mpr ⟨fun hne => absurd hpt hne, fun _ => ?_⟩
        rw [wp_pure]
        exact noTrace_slot hunused rfl hI₃
      · rw [wp_bind, wp_setProcess_slot, if_neg hpt, wp_pure]
        have hfresh : tf ∉ held := (List.nodup_cons.mp hS₁.nodup_held).1
        exact ⟨tf, pt, k₂, ⟨hunused, hne, hpt, k₁, f₁, new, rest, hf, hfresh, hkeep, hmade⟩, rfl⟩

/-! ### `fork` -/

/-- `fork` cannot allocate what it needs: `allocproc` returns no process, or `uvmcopy` fails. -/
def Starved (c : SysParam) (p : ProcPtr) (t : SysState) : Prop :=
  ∀ np u, allocproc c t = .ok (some np, u) →
    ∃ k, uvmcopy c.kend (u.proc p).pagetable (u.proc np).pagetable (u.proc p).sz u.kmem =
      .ok (-1, k)

/-- `fork` after `allocproc`: `uvmcopy` fails, and `freeproc` has to free a new page table. What
follows a copy that succeeds does not matter. -/
theorem fork_starved (hc : Linked c) (h : ForkReady c t p held f) (hstarved : Starved c p t)
    (hrun : allocproc c t = .ok (some np, u)) {tf pt : Nat} {rest : Process → Process → SysM Int}
    (hA : Allocated c t held f np tf pt k)
    (hu : u = withSlot t np (t.nextpid + 1) { t.proc np with
      pid := t.nextpid, state := .used, trapframe := tf, pagetable := pt } k) :
    wp (do
        let q ← process p
        let nq ← process np
        let r ← onMem (uvmcopy c.kend q.pagetable nq.pagetable q.sz)
        if r < 0 then do
          freeproc c np
          Pure.pure (-1)
        else
          rest q nq)
      (fun r u => r = -1 ∧ sizePages (t.proc np).sz = 0 ∧ NoTrace c t u held f)
      (fun _ => sizePages (t.proc np).sz ≠ 0) u := by
  have hother : p ≠ np := by
    rintro rfl
    exact h.live hA.unused
  obtain ⟨k', hcopy⟩ := hstarved np u hrun
  rw [hu, withSlot_other hother, withSlot_proc] at hcopy
  have hcopy : uvmcopy c.kend (t.proc p).pagetable pt (t.proc p).sz k = .ok (-1, k') := hcopy
  have hhalf : HalfMade c.kend ⟨t.kmem, held⟩ f tf pt k' := by
    rcases wp_ok (uvmcopy_half hc.kend hA.pages h.table h.leaf) hcopy with hzero | ⟨-, hhalf⟩
    · exact absurd hzero (by decide)
    · exact hhalf
  have hfails : wp (uvmcopy c.kend (t.proc p).pagetable pt (t.proc p).sz)
      (fun r k'' => r = -1 ∧ k'' = k') (fun _ => False) k := by
    unfold wp
    rw [hcopy]
    exact ⟨rfl, rfl⟩
  rw [hu, wp_bind, process, wp_read, wp_bind, process, wp_read, withSlot_other hother,
    withSlot_proc, wp_bind, wp_onMem_slot]
  refine wp_mono hfails ?_ fun _ => False.elim
  rintro r k'' ⟨rfl, rfl⟩
  rw [if_pos (by decide), wp_bind, wp_freeproc, wp_when]
  refine ⟨fun _ => ?_, fun hz => absurd hA.trapframe hz⟩
  refine wp_mono (hhalf.kfree_trapframe hc.pos) ?_ fun _ => False.elim
  rintro _ k₁ ⟨new, free, hmade⟩
  refine wp_when.mpr ⟨fun _ => ?_, fun hz => absurd hA.pagetable hz⟩
  -- The size is the one that was in the slot before.
  refine wp_post (procFreepagetable_plain hc.pos hmade.split hmade.plain (t.proc np).sz) ?_
  rintro _ k₂ ⟨hsz, hF⟩
  rw [wp_pure]
  exact ⟨rfl, hsz, noTrace_slot hA.unused rfl (hmade.undo hF)⟩

/-- The pages of a machine with eight pages. -/
def smallPage (i : Nat) : Nat := PHYSTOP - 8 * PGSIZE + i * PGSIZE

/-- The kernel ends where the eight pages begin. -/
def smallParam : SysParam := ⟨smallPage 0, 0, Mkfs.superblock⟩

/-- Pages 0, 1 and 2 are a page table that maps page 3 at address 0. Pages 4 to 7 are the
freelist. -/
def smallMemory : Memory :=
  let link := fun (m : Memory) (i v : Nat) => m.store 8 (smallPage i) v
  let m := link (fun _ => 0) 0 (PA2PTE (smallPage 1) ||| PTE_V)
  let m := link m 1 (PA2PTE (smallPage 2) ||| PTE_V)
  let m := link m 2 (leafPte (smallPage 3) (PTE_RWX ||| PTE_U))
  link (link (link m 4 (smallPage 5)) 5 (smallPage 6)) 6 (smallPage 7)

/-- The first process has one page of memory, and the unused slots have a size. -/
def smallState (sz : Nat) : SysState :=
  { firstState with
    kmem := ⟨smallMemory, smallPage 4⟩
    proc := fun p => if p = firstProc then
      { blankProcess with state := .running, pagetable := smallPage 0, sz := PGSIZE }
      else { blankProcess with sz := sz } }

/-- Only the first word of a page is not zero. -/
theorem smallMemory_zero {i a : Nat} (hlo : smallPage i + 8 ≤ a)
    (hhi : a < smallPage i + PGSIZE) : smallMemory a = 0 := by
  have hpg : PGSIZE = 4096 := rfl
  have hstop : PHYSTOP = 2281701376 := rfl
  have hout : ∀ j < 8, ¬ (smallPage j ≤ a ∧ a < smallPage j + 8) := by
    intro j hj
    unfold smallPage at hlo hhi ⊢
    rw [hpg, hstop] at hlo hhi
    rw [hpg, hstop]
    omega
  simp only [smallMemory, Memory.store, if_neg (hout 0 (by decide)), if_neg (hout 1 (by decide)),
    if_neg (hout 2 (by decide)), if_neg (hout 4 (by decide)), if_neg (hout 5 (by decide)),
    if_neg (hout 6 (by decide))]

theorem small_cells {i j : Nat} (hj : j < 512) (hpos : j ≠ 0) :
    cells smallMemory (smallPage i) j = 0 := by
  have hpg : PGSIZE = 4096 := rfl
  exact Memory.load_zero fun a hlo hhi => smallMemory_zero (i := i) (by omega) (by omega)

/-- A table whose first entry only may lead to another. -/
theorem tables_first {m : Memory} {l q : Nat}
    (h : ∀ j < 512, j ≠ 0 → cells m q j = 0) :
    Radix.tables pteChild 512 (cells m) (l + 1) q =
      q :: (pteChild (cells m q 0)).elim [] (Radix.tables pteChild 512 (cells m) l) := by
  rw [Radix.tables]
  refine congrArg (q :: ·) ?_
  rw [show (512 : Nat) = 511 + 1 from rfl, List.range_succ_eq_map, List.flatMap_cons]
  have hrest : ((List.range 511).map Nat.succ).flatMap (fun i => (pteChild (cells m q i)).elim []
      (Radix.tables pteChild 512 (cells m) l)) = [] := by
    refine List.flatMap_eq_nil_iff.mpr fun i hi => ?_
    obtain ⟨j, hj, rfl⟩ := List.mem_map.mp hi
    have hj := List.mem_range.mp hj
    rw [h (j + 1) (by omega) (by omega)]
    rfl
  rw [hrest, List.append_nil]

theorem small_tables : tables smallMemory (smallPage 0) =
    [smallPage 0, smallPage 1, smallPage 2] := by
  have h0 : pteChild (cells smallMemory (smallPage 0) 0) = some (smallPage 1) := by decide +kernel
  have h1 : pteChild (cells smallMemory (smallPage 1) 0) = some (smallPage 2) := by decide +kernel
  unfold tables
  rw [tables_first fun j hj hpos => small_cells hj hpos, h0, Option.elim_some,
    tables_first fun j hj hpos => small_cells hj hpos, h1]
  rfl

theorem small_ready (sz : Nat) : ForkReady smallParam (smallState sz) firstProc
    [smallPage 0, smallPage 1, smallPage 2, smallPage 3]
    [smallPage 4, smallPage 5, smallPage 6, smallPage 7] := by
  have hpg : PGSIZE = 4096 := rfl
  have hstop : PHYSTOP = 2281701376 := rfl
  refine ⟨⟨?_, ?_, fun q => ?_⟩, ⟨?_, ?_⟩, fun va hva _ => ?_, ?_, fun q hq => ?_⟩
  · have h4 : smallMemory.load 8 (smallPage 4) = smallPage 5 := by decide +kernel
    have h5 : smallMemory.load 8 (smallPage 5) = smallPage 6 := by decide +kernel
    have h6 : smallMemory.load 8 (smallPage 6) = smallPage 7 := by decide +kernel
    have h7 : smallMemory.load 8 (smallPage 7) = 0 := by decide +kernel
    show Chain (smallMemory.load 8) (smallPage 4) _
    refine .cons (by decide) ?_
    rw [h4]
    refine .cons (by decide) ?_
    rw [h5]
    refine .cons (by decide) ?_
    rw [h6]
    refine .cons (by decide) ?_
    rw [h7]
    exact .nil
  · show ([smallPage 4, smallPage 5, smallPage 6, smallPage 7] ++
      [smallPage 0, smallPage 1, smallPage 2, smallPage 3]).Nodup
    decide
  · show q ∈ [smallPage 4, smallPage 5, smallPage 6, smallPage 7] ++
      [smallPage 0, smallPage 1, smallPage 2, smallPage 3] ↔ InPool (smallPage 0) q
    have hround : PGROUNDUP (smallPage 0) = smallPage 0 := by decide
    unfold InPool
    rw [hround]
    unfold smallPage
    rw [hpg, hstop]
    simp only [List.cons_append, List.nil_append, List.mem_cons, List.not_mem_nil, or_false]
    omega
  · show (tables smallMemory (smallPage 0)).Nodup
    rw [small_tables]
    decide +kernel
  · intro q hq
    have hq : q ∈ tables smallMemory (smallPage 0) := hq
    rw [small_tables] at hq
    exact List.mem_of_mem_take (i := 3) hq
  · have hva : va < PGROUNDUP PGSIZE := hva
    have hpage : pte smallMemory (smallPage 0) va = pte smallMemory (smallPage 0) 0 := by
      refine pte_of_page ?_
      rw [show PGROUNDUP PGSIZE = 4096 from rfl] at hva
      rw [hpg]
      omega
    show PTE_FLAGS (pte smallMemory (smallPage 0) va) ≠ PTE_V
    rw [hpage]
    decide +kernel
  · show ProcState.running ≠ .unused
    decide
  · by_cases hfirst : q = firstProc
    · rw [hfirst] at hq
      have hq : ProcState.running = .unused := hq
      cases hq
    · show (if q = firstProc then _ else _ : Process).trapframe = 0 ∧
        (if q = firstProc then _ else _ : Process).pagetable = 0
      rw [if_neg hfirst]
      exact ⟨rfl, rfl⟩

theorem small_linked : Linked smallParam := ⟨by decide, rfl, by decide⟩

/-- Whether `uvmcopy` fails after `allocproc`. -/
def copyFails (c : SysParam) (p : ProcPtr) (s : SysState) : Bool :=
  match allocproc c s with
  | .ok (some np, u) =>
    match uvmcopy c.kend (u.proc p).pagetable (u.proc np).pagetable (u.proc p).sz u.kmem with
    | .ok (r, _) => r == -1
    | .error _ => false
  | _ => true

theorem starved_of_copyFails {p : ProcPtr} {s : SysState} (h : copyFails c p s = true) :
    Starved c p s := by
  intro np u hu
  rw [copyFails, hu] at h
  dsimp only at h
  split at h
  · rename_i r k hcopy
    have hr : r = -1 := by simpa using h
    exact ⟨k, by rw [hcopy, hr]⟩
  · cases h

/-- `allocproc` takes the four free pages, and `uvmcopy` finds none. -/
theorem small_starved {sz : Nat} (hsz : sz = 0 ∨ sz = PGSIZE) :
    Starved smallParam firstProc (smallState sz) := by
  have hrun : ∀ sz ∈ [0, PGSIZE], copyFails smallParam firstProc (smallState sz) = true := by
    decide +kernel
  exact starved_of_copyFails (hrun sz (by simpa using hsz))

end Xv6.Proofs.Sys
