import Xv6.Proofs.Mem.User
import Xv6.Proofs.Sys.Growproc

/-!
# `Xv6.Proofs.Sys.ExecArgs`: the arguments of `sys_exec`

The loop of `sys_exec` copies the strings of the user into pages of its own, and the cleanup
frees the entries of `argv` before the first null pointer. Whatever the user passes, the loop
takes its pages from the freelist, and stores them in the first entries of `argv`
(`execArgsLoop_pages`). What follows them is a null pointer that the loop has stored, or what
the array contained before. So the cleanup frees what was allocated exactly if the latter is
null too.

Each round reads the second pointer of the user. It is the same in every round, since the loop
writes in fresh pages only. So the loop finds a null pointer in its first round, or never.
-/

set_option autoImplicit false

namespace Xv6.Proofs.Sys

open Lib Lib.Action Kernel Mem

variable {kend : Nat} {s : Pages} {f : List Nat} {pt sz uargv : Nat} {stack : Nat → Nat}

/-! ### Pages -/

/-- The loop has stored the pages `got` in `argv`, and this is what follows them. `stack` is
what the array contained before. -/
def ArgsStored (stack : Nat → Nat) (got : List Nat) (a : Args) : Prop :=
  (∀ j < got.length, got[j]? = some (a.argv j)) ∧
  match a.exit with
  | .tooLong => got.length = MAXARG
  | .badAddr => got.length = a.i ∧ a.i < MAXARG ∧ a.argv a.i = stack a.i
  | .noPage => got.length = a.i ∧ a.i < MAXARG ∧ a.argv a.i = 0
  | .badStr => got.length = a.i + 1 ∧ a.i < MAXARG ∧ a.argv (a.i + 1) = stack (a.i + 1)
  | .null => got.length = a.i ∧ a.i < MAXARG ∧ a.argv a.i = 0

/-- `fetchstr` writes in its page only. -/
theorem fetchstr_page {k : Kmem} {pg a : Nat} {held : List Nat}
    (hS : Split kend ⟨k, pg :: held⟩ f) :
    wp (fetchstr pt a pg PGSIZE) (fun _ k' => Split kend ⟨k', pg :: held⟩ f ∧
      ∀ b, ¬ (pg ≤ b ∧ b < pg + PGSIZE) → k'.mem b = k.mem b) (fun _ => False) k := by
  rw [fetchstr, wp_bind]
  refine wp_post (copyinstrLoop_bound PGSIZE a PGSIZE) ?_
  rintro ⟨r, bytes⟩ k' ⟨rfl, hlen⟩
  have hlen : bytes.length ≤ PGSIZE := hlen
  refine ⟨write_keep hS List.mem_cons_self (Nat.le_refl _) (by omega), fun b hb => ?_⟩
  exact if_neg (by omega)

/-- The entry stored in a round, and those before it. -/
theorem entries_snoc {argv : Nat → Nat} {got : List Nat} (pg : Nat)
    (h : ∀ j < got.length, got[j]? = some (argv j)) :
    ∀ j < (got ++ [pg]).length, (got ++ [pg])[j]? = some (Function.update argv got.length pg j) := by
  intro j hj
  rw [List.length_append, List.length_singleton] at hj
  by_cases he : j = got.length
  · subst he
    rw [List.getElem?_append_right (Nat.le_refl _), Nat.sub_self, Function.update_self]
    rfl
  · rw [List.getElem?_append_left (by omega), Function.update_of_ne he]
    exact h j (by omega)

/-- The loop of `sys_exec`, from round `i` on: it takes the pages `new`. -/
theorem execArgsLoop_pages (n : Nat) {s : Pages} {f : List Nat} {argv : Nat → Nat}
    {got : List Nat} (hn : got.length + n = MAXARG) (hS : Split kend s f)
    (hgot : ∀ j < got.length, got[j]? = some (argv j))
    (hrest : ∀ j, got.length ≤ j → argv j = stack j) :
    wp (execArgsLoop pt sz uargv n got.length argv) (fun a k => ∃ new rest, f.Perm (new ++ rest) ∧
      Split kend ⟨k, new ++ s.held⟩ rest ∧ ArgsStored stack (got ++ new) a) (fun _ => False)
      s.kmem := by
  induction n generalizing s f argv got with
  | zero =>
    rw [execArgsLoop, wp_pure]
    refine ⟨[], f, .refl _, hS, ?_⟩
    rw [List.append_nil]
    exact ⟨hgot, hn⟩
  | succ n ih =>
    rw [execArgsLoop, wp_bind]
    refine wp_fetchaddr ?_
    have hlt : got.length < MAXARG := by omega
    cases userWord s.kmem.mem pt sz ((uargv + 8 * 1) % 2 ^ 64) with
    | none =>
      refine ⟨[], f, .refl _, hS, ?_⟩
      rw [List.append_nil]
      exact ⟨hgot, rfl, hlt, hrest _ (Nat.le_refl _)⟩
    | some uarg =>
      -- An entry that is set to null follows the pages.
      have hnull : ∀ j < got.length, got[j]? = some (Function.update argv got.length 0 j) := by
        intro j hj
        rw [Function.update_of_ne (by omega)]
        exact hgot j hj
      show wp (if uarg = 0 then _ else _) _ _ _
      by_cases hzero : uarg = 0
      · rw [if_pos hzero, wp_pure]
        refine ⟨[], f, .refl _, hS, ?_⟩
        rw [List.append_nil]
        exact ⟨hnull, rfl, hlt, Function.update_self ..⟩
      · rw [if_neg hzero, wp_bind]
        refine wp_post (kalloc_page hS) ?_
        rintro pg k (⟨hf, hpg, hk⟩ | ⟨rest, hf, hpg, hSk, hmem⟩)
        · rw [if_pos hpg, wp_pure, hpg]
          refine ⟨[], f, .refl _, hk ▸ hS, ?_⟩
          rw [List.append_nil]
          exact ⟨hnull, rfl, hlt, Function.update_self ..⟩
        · rw [if_neg hpg, wp_bind]
          refine wp_post (fetchstr_page hSk) ?_
          rintro ok k' ⟨hSk', -⟩
          have hsnoc := entries_snoc pg hgot
          have hkeep : ∀ j, got.length + 1 ≤ j →
              Function.update argv got.length pg j = stack j := by
            intro j hj
            rw [Function.update_of_ne (by omega)]
            exact hrest j (by omega)
          have hlen : (got ++ [pg]).length = got.length + 1 := by
            rw [List.length_append, List.length_singleton]
          by_cases hok : ok = true
          · rw [if_pos hok, ← hlen]
            refine wp_post (ih (s := ⟨k', pg :: s.held⟩) (by omega) hSk' hsnoc
              (by rw [hlen]; exact hkeep)) ?_
            rintro a k'' ⟨new, rest', hperm, hS'', hstored⟩
            refine ⟨pg :: new, rest', ?_, hS''.perm List.perm_middle, ?_⟩
            · rw [hf]
              exact hperm.cons pg
            · rwa [List.append_assoc] at hstored
          · rw [if_neg hok, wp_pure]
            refine ⟨[pg], rest, by rw [hf]; exact .refl _, hSk', hsnoc, hlen, hlt, ?_⟩
            exact hkeep _ (Nat.le_refl _)

/-- The cleanup frees the pages stored, and then the entries up to a null pointer. -/
theorem argPages_append {argv : Nat → Nat} {got : List Nat}
    (h : ∀ j < got.length, got[j]? = some (argv j)) (hnz : ∀ pg ∈ got, pg ≠ 0)
    (hlen : got.length ≤ MAXARG) :
    argPages argv = got ++
      ((List.range (MAXARG - got.length)).map fun i => argv (got.length + i)).takeWhile
        fun pg => pg ≠ 0 := by
  have hmap : (List.range got.length).map argv = got := by
    refine List.ext_getElem? fun j => ?_
    by_cases hj : j < got.length
    · rw [h j hj, List.getElem?_map, List.getElem?_range hj]
      rfl
    · rw [List.getElem?_eq_none (by simpa using hj), List.getElem?_eq_none (by omega)]
  have hsplit : (List.range MAXARG).map argv =
      got ++ (List.range (MAXARG - got.length)).map fun i => argv (got.length + i) := by
    have hlen' : MAXARG = got.length + (MAXARG - got.length) := by omega
    rw [hlen', List.range_add, List.map_append, hmap, List.map_map]
    congr 3
    omega
  unfold argPages
  rw [hsplit, List.takeWhile_append_of_pos]
  intro pg hpg
  exact decide_eq_true (hnz pg hpg)

/-- It frees no more than the pages stored, when a null pointer or the end of the array
follows. -/
theorem argPages_eq_iff {argv : Nat → Nat} {got : List Nat}
    (h : ∀ j < got.length, got[j]? = some (argv j)) (hnz : ∀ pg ∈ got, pg ≠ 0)
    (hlen : got.length ≤ MAXARG) :
    argPages argv = got ↔ got.length = MAXARG ∨ argv got.length = 0 := by
  rw [argPages_append h hnz hlen, List.append_right_eq_self]
  by_cases hfull : got.length = MAXARG
  · rw [hfull, Nat.sub_self]
    exact iff_of_true rfl (.inl rfl)
  · obtain ⟨n, hn⟩ : ∃ n, MAXARG - got.length = n + 1 := ⟨MAXARG - got.length - 1, by omega⟩
    rw [hn, List.range_succ_eq_map, List.map_cons, List.takeWhile_cons, Nat.add_zero]
    by_cases hz : argv got.length = 0
    · simp [hz]
    · simp [hz, hfull]

/-- What the cleanup of `sys_exec` frees is what the loop has allocated, page by page. -/
def FreesExactly (kend : Nat) (s : Pages) (f : List Nat) (pt sz uargv : Nat)
    (stack : Nat → Nat) : Prop :=
  wp (execArgs pt sz uargv stack) (fun a k => ∃ got rest, f.Perm (got ++ rest) ∧
    Split kend ⟨k, got ++ s.held⟩ rest ∧ argPages a.argv = got) (fun _ => False) s.kmem

/-- The entry of `argv` after the last page was null from the start. It is one that the loop
leaves, if a pointer or a string could not be read. -/
def NullAfter (stack : Nat → Nat) (a : Args) : Prop :=
  (a.exit = .badAddr → stack a.i = 0) ∧
  (a.exit = .badStr → a.i + 1 < MAXARG → stack (a.i + 1) = 0)

/-- After the pages of the loop there is a null pointer or the end of the array, exactly if
`NullAfter`. -/
theorem ArgsStored.ends_iff {got : List Nat} {a : Args} (h : ArgsStored stack got a) :
    (got.length = MAXARG ∨ a.argv got.length = 0) ↔ NullAfter stack a := by
  obtain ⟨-, hexit⟩ := h
  unfold NullAfter
  cases he : a.exit with
  | tooLong =>
    rw [he] at hexit
    exact iff_of_true (.inl hexit) ⟨fun h => (by cases h), fun h => (by cases h)⟩
  | badAddr =>
    rw [he] at hexit
    obtain ⟨hlen, hlt, hargv⟩ := hexit
    rw [hlen, hargv]
    constructor
    · rintro (hfull | hz)
      · omega
      · exact ⟨fun _ => hz, fun h => (by cases h)⟩
    · exact fun h => .inr (h.1 rfl)
  | noPage =>
    rw [he] at hexit
    obtain ⟨hlen, -, hargv⟩ := hexit
    rw [hlen]
    exact iff_of_true (.inr hargv) ⟨fun h => (by cases h), fun h => (by cases h)⟩
  | badStr =>
    rw [he] at hexit
    obtain ⟨hlen, hlt, hargv⟩ := hexit
    rw [hlen, hargv]
    constructor
    · rintro (hfull | hz)
      · exact ⟨fun h => (by cases h), fun _ h => (by omega)⟩
      · exact ⟨fun h => (by cases h), fun _ _ => hz⟩
    · intro h
      by_cases hfull : a.i + 1 = MAXARG
      · exact .inl hfull
      · exact .inr (h.2 rfl (by omega))
  | null =>
    rw [he] at hexit
    obtain ⟨hlen, -, hargv⟩ := hexit
    rw [hlen]
    exact iff_of_true (.inr hargv) ⟨fun h => (by cases h), fun h => (by cases h)⟩

theorem ArgsStored.length_le {got : List Nat} {a : Args} (h : ArgsStored stack got a) :
    got.length ≤ MAXARG := by
  obtain ⟨-, hexit⟩ := h
  cases he : a.exit with
  | tooLong =>
    rw [he] at hexit
    exact Nat.le_of_eq hexit
  | badAddr =>
    rw [he] at hexit
    have := hexit.1
    have := hexit.2.1
    omega
  | noPage =>
    rw [he] at hexit
    have := hexit.1
    have := hexit.2.1
    omega
  | badStr =>
    rw [he] at hexit
    have := hexit.1
    have := hexit.2.1
    omega
  | null =>
    rw [he] at hexit
    have := hexit.1
    have := hexit.2.1
    omega

/-- The loop from its start. -/
theorem execArgs_pages (hS : Split kend s f) :
    wp (execArgs pt sz uargv stack) (fun a k => ∃ got rest, f.Perm (got ++ rest) ∧
      Split kend ⟨k, got ++ s.held⟩ rest ∧ ArgsStored stack got a) (fun _ => False) s.kmem := by
  have hloop : wp (execArgsLoop pt sz uargv MAXARG ([] : List Nat).length stack)
      (fun a k => ∃ new rest, f.Perm (new ++ rest) ∧ Split kend ⟨k, new ++ s.held⟩ rest ∧
        ArgsStored stack ([] ++ new) a) (fun _ => False) s.kmem :=
    execArgsLoop_pages MAXARG (Nat.zero_add _) hS (fun j hj => absurd hj (Nat.not_lt_zero j))
      fun _ _ => rfl
  exact hloop

/-- The pages of a list are freed one after the other. -/
theorem forEach_kfree (hend : 0 < kend) {l held rest : List Nat} {k : Kmem}
    (hS : Split kend ⟨k, l ++ held⟩ rest) :
    wp (Action.forEach (kfree kend) l) (fun _ k' => Split kend ⟨k', held⟩ (l.reverse ++ rest))
      (fun _ => False) k := by
  induction l generalizing k rest with
  | nil => exact hS
  | cons pg l ih =>
    rw [Action.forEach, wp_bind]
    refine wp_post (kfree_page hS List.mem_cons_self hend) ?_
    rintro _ k' ⟨hS', -⟩
    rw [List.cons_append, List.erase_cons_head] at hS'
    rw [List.reverse_cons, List.append_assoc]
    exact ih hS'

/-- A failed `sys_exec`, when a null pointer follows the pages of the loop: the free pages are
those before the call. -/
theorem sysExec_failed {c : SysParam} {p : ProcPtr} {t : SysState} {held : List Nat}
    (hend : 0 < c.kend) (hS : Split c.kend ⟨t.kmem, held⟩ f) {a : Args} {k : Kmem}
    (hrun : execArgs (t.proc p).pagetable (t.proc p).sz uargv stack t.kmem = .ok (a, k))
    (hnull : NullAfter stack a) (hexit : a.exit ≠ .null) (name : List UInt8) :
    ∃ k' free, sysExec c p (some name) uargv stack t = .ok (-1, { t with kmem := k' }) ∧
      Split c.kend ⟨k', held⟩ free ∧ free.Perm f := by
  obtain ⟨got, rest, hperm, hS', hstored⟩ := wp_ok (execArgs_pages hS) hrun
  have hpages : argPages a.argv = got := by
    refine (argPages_eq_iff hstored.1 (fun pg hpg => ?_) hstored.length_le).mpr
      (hstored.ends_iff.mpr hnull)
    exact (hS'.outstanding (List.mem_append_left _ hpg)).pos hend
  have hcall : wp (sysExec c p (some name) uargv stack) (fun r u => r = -1 ∧ ∃ k' free,
      u = { t with kmem := k' } ∧ Split c.kend ⟨k', held⟩ free ∧ free.Perm f) (fun _ => False)
      t := by
    rw [sysExec, wp_bind, process, wp_read, wp_bind, onMem, wp_zoom]
    unfold wp
    rw [hrun]
    show wp ((if a.exit = .null then _ else _) >>= _) _ _ _
    rw [if_neg hexit, wp_bind, wp_pure, wp_bind, onMem, wp_zoom, hpages]
    refine wp_post (forEach_kfree hend hS') ?_
    intro _ k' hfree
    refine ⟨rfl, k', _, rfl, hfree, ?_⟩
    exact ((List.reverse_perm got).append_right rest).trans hperm.symm
  obtain ⟨r, u, hu, rfl, k', free, rfl, hfree⟩ := wp_returns hcall fun _ => id
  exact ⟨k', free, hu, hfree⟩

/-- The cleanup frees what was allocated exactly if `NullAfter`. -/
theorem freesExactly_iff (hend : 0 < kend) (hS : Split kend s f) :
    FreesExactly kend s f pt sz uargv stack ↔
      wp (execArgs pt sz uargv stack) (fun a _ => NullAfter stack a) (fun _ => False) s.kmem := by
  have hspec : wp (execArgs pt sz uargv stack) _ (fun _ => False) s.kmem := execArgs_pages hS
  obtain ⟨a, k, hrun, got, rest, hperm, hS', hstored⟩ := wp_returns hspec fun _ => id
  have hnz : ∀ pg ∈ got, pg ≠ 0 := fun pg hpg =>
    (hS'.outstanding (List.mem_append_left _ hpg)).pos hend
  have hiff := argPages_eq_iff hstored.1 hnz hstored.length_le
  constructor
  · intro hfrees
    obtain ⟨got', rest', hperm', hS'', hpages⟩ := wp_ok hfrees hrun
    -- Both lists of pages are what the freelist lost, so they have the same length.
    obtain rfl : rest = rest' := hS'.chain.unique hS''.chain
    have hcount := hperm.symm.trans hperm'
    have happend := argPages_append hstored.1 hnz hstored.length_le
    have hlen := hcount.length_eq
    rw [List.length_append, List.length_append, ← hpages, happend, List.length_append] at hlen
    have htail := List.eq_nil_of_length_eq_zero (by omega : List.length (List.takeWhile
      (fun pg => decide (pg ≠ 0)) ((List.range (MAXARG - got.length)).map fun i =>
        a.argv (got.length + i))) = 0)
    rw [htail, List.append_nil] at happend
    unfold wp
    rw [hrun]
    exact hstored.ends_iff.mp (hiff.mp happend)
  · intro hnull
    unfold FreesExactly wp
    rw [hrun]
    exact ⟨got, rest, hperm, hS', hiff.mpr (hstored.ends_iff.mpr (wp_ok hnull hrun))⟩

/-- A vector that cannot be read, in a process without memory. -/
theorem execArgs_unreadable (stack : Nat → Nat) (k : Kmem) :
    execArgs 0 0 0 stack k = .ok (⟨.badAddr, 0, stack⟩, k) := rfl

/-- An `argv` whose first entry has the address of a page. -/
def staleArgv : Nat → Nat := fun i => if i = 0 then KERNBASE else 0

/-- A string of the user, without its null byte. -/
def UserString (m : Memory) (pt a : Nat) (str : List UInt8) : Prop :=
  str.length < PGSIZE ∧ 0 ∉ str ∧ userBytes m pt a (str.length + 1) = some (str ++ [0])

/-- User memory at `uargv` holds pointers to these strings, and a null pointer. -/
structure UserVector (m : Memory) (pt sz uargv : Nat) (strs : List (List UInt8)) : Prop where
  short : strs.length < MAXARG
  args : ∀ i str, strs[i]? = some str → ∃ a, a ≠ 0 ∧
    userWord m pt sz ((uargv + 8 * i) % 2 ^ 64) = some a ∧ UserString m pt a str
  null : userWord m pt sz ((uargv + 8 * strs.length) % 2 ^ 64) = some 0

/-- The string in a page. -/
def stringAt (m : Memory) (a : Nat) : List UInt8 := (List.range (strlen m a)).map fun i => m (a + i)

/-- The loop of `sys_exec` ends with these strings, so that `exec` is called with them. -/
def PassesArgv (k : Kmem) (pt sz uargv : Nat) (stack : Nat → Nat) (strs : List (List UInt8)) :
    Prop :=
  wp (execArgs pt sz uargv stack) (fun a k' => a.exit = .null ∧
    (argPages a.argv).map (stringAt k'.mem) = strs) (fun _ => False) k

/-- The loop does not find a null pointer when the second pointer of the user is not null. -/
theorem execArgsLoop_not_null (n : Nat) {s : Pages} {f : List Nat} {i uarg : Nat}
    {argv : Nat → Nat} (hS : Split kend s f) (hH : Held s pt) (hO : UserOwned s pt)
    (hword : userWord s.kmem.mem pt sz ((uargv + 8 * 1) % 2 ^ 64) = some uarg) (hne : uarg ≠ 0) :
    wp (execArgsLoop pt sz uargv n i argv) (fun a _ => a.exit ≠ .null) (fun _ => False)
      s.kmem := by
  induction n generalizing s f i argv with
  | zero =>
    rw [execArgsLoop, wp_pure]
    exact fun h => by cases h
  | succ n ih =>
    rw [execArgsLoop, wp_bind]
    refine wp_fetchaddr ?_
    rw [hword]
    show wp (if uarg = 0 then _ else _) _ _ _
    rw [if_neg hne, wp_bind]
    refine wp_post (kalloc_page hS) ?_
    rintro pg k (⟨-, hpg, -⟩ | ⟨rest, -, hpg, hSk, hmem⟩)
    · rw [if_pos hpg, wp_pure]
      exact fun h => by cases h
    · rw [if_neg hpg, wp_bind]
      refine wp_post (fetchstr_page hSk) ?_
      rintro ok k' ⟨hSk', hmem'⟩
      by_cases hok : ok = true
      · rw [if_pos hok]
        -- The round has written in its own page only.
        obtain ⟨-, hsame⟩ := fresh_page k'.mem hSk hmem hmem'
        have huser := userByte_same hH hO hsame
        obtain ⟨htables, -⟩ := table_same pt fun x hx => hsame x (hH.held x hx)
        refine ih (s := ⟨k', pg :: s.held⟩) hSk'
          (hH.of_same htables fun q hq => List.mem_cons_of_mem pg (hH.held q hq)) ?_ ?_
        · intro va hva
          have hva : userPage k'.mem pt va ≠ 0 := hva
          show userPage k'.mem pt va ∈ pg :: s.held
          rw [(huser va).1] at hva ⊢
          exact List.mem_cons_of_mem pg (hO va hva)
        · exact (userWord_congr fun va => (huser va).2).trans hword
      · rw [if_neg hok, wp_pure]
        exact fun h => by cases h

/-- The loop ends with these strings exactly if there are none, and the second pointer of the
user is null. -/
theorem passesArgv_iff {strs : List (List UInt8)} (hS : Split kend s f) (hH : Held s pt)
    (hO : UserOwned s pt) : PassesArgv s.kmem pt sz uargv stack strs ↔
      strs = [] ∧ userWord s.kmem.mem pt sz ((uargv + 8 * 1) % 2 ^ 64) = some 0 := by
  cases hword : userWord s.kmem.mem pt sz ((uargv + 8 * 1) % 2 ^ 64) with
  | none =>
    refine iff_of_false (fun hpass => ?_) fun h => by cases h.2
    have hbad : wp (execArgsLoop pt sz uargv (31 + 1) 0 stack) (fun a _ => a.exit = .badAddr)
        (fun _ => False) s.kmem := by
      rw [execArgsLoop, wp_bind]
      refine wp_fetchaddr ?_
      rw [hword]
      rfl
    obtain ⟨a, k, hrun, hnull, -⟩ := wp_returns hpass fun _ => id
    have hexit := wp_ok hbad hrun
    rw [hnull] at hexit
    cases hexit
  | some uarg =>
    by_cases hzero : uarg = 0
    · -- The first round ends the loop with no argument.
      have hdone : wp (execArgsLoop pt sz uargv (31 + 1) 0 stack)
          (fun a _ => a.exit = .null ∧ argPages a.argv = []) (fun _ => False) s.kmem := by
        rw [execArgsLoop, wp_bind]
        refine wp_fetchaddr ?_
        rw [hword]
        show wp (if uarg = 0 then _ else _) _ _ _
        rw [if_pos hzero, wp_pure]
        refine ⟨rfl, ?_⟩
        show List.takeWhile _ (Function.update stack 0 0 0 :: _) = []
        rw [Function.update_self]
        rfl
      constructor
      · intro hpass
        obtain ⟨a, k, hrun, -, hstrs⟩ := wp_returns hpass fun _ => id
        rw [(wp_ok hdone hrun).2] at hstrs
        exact ⟨hstrs.symm, by rw [hzero]⟩
      · rintro ⟨rfl, -⟩
        refine wp_post hdone ?_
        rintro a k ⟨hnull, hpages⟩
        rw [hpages]
        exact ⟨hnull, rfl⟩
    · refine iff_of_false (fun hpass => ?_) fun h => hzero (Option.some.inj h.2)
      obtain ⟨a, k, hrun, hnull, -⟩ := wp_returns hpass fun _ => id
      exact wp_ok (execArgsLoop_not_null MAXARG hS hH hO hword hzero) hrun hnull

/-- `sys_exec` passes the strings of the user to `exec` exactly if there are none, and the word
after the null pointer is 0 as well. With one string it passes none, and with more it does not
call `exec`. -/
theorem sysExec_passes_argv_iff {strs : List (List UInt8)} (hS : Split kend s f) (hH : Held s pt)
    (hO : UserOwned s pt) (hV : UserVector s.kmem.mem pt sz uargv strs) :
    (PassesArgv s.kmem pt sz uargv stack strs ↔
      strs = [] ∧ userWord s.kmem.mem pt sz ((uargv + 8 * 1) % 2 ^ 64) = some 0) ∧
    (strs.length = 1 → PassesArgv s.kmem pt sz uargv stack []) ∧
    (2 ≤ strs.length → ∀ strs', ¬ PassesArgv s.kmem pt sz uargv stack strs') := by
  refine ⟨passesArgv_iff hS hH hO, fun hone => ?_, fun hmore strs' hpass => ?_⟩
  · have hnull := hV.null
    rw [hone] at hnull
    exact (passesArgv_iff hS hH hO).mpr ⟨rfl, hnull⟩
  · obtain ⟨a, hne, hword, -⟩ := hV.args 1 _ (List.getElem?_eq_getElem hmore)
    rw [((passesArgv_iff hS hH hO).mp hpass).2] at hword
    exact hne (Option.some.inj hword).symm

/-! ### A process with one page -/

section
variable {m : Memory} {d : Nat}
  (hptes : ∀ va < MAXVA, pte m pt va =
    if va < PGSIZE then leafPte d (PTE_R ||| PTE_U ||| PTE_W) else 0)
  (hmod : d % PGSIZE = 0) (hlt : d < 2 ^ 56)
include hptes hmod hlt

theorem userPage_first (va : Nat) : userPage m pt va = if va < PGSIZE then d else 0 := by
  have hmax : PGSIZE < MAXVA := by decide
  unfold userPage
  by_cases hva : va ≥ MAXVA
  · rw [if_pos hva, if_neg (by omega)]
  · rw [if_neg hva, hptes va (by omega)]
    by_cases hpage : va < PGSIZE
    · have hleaf := (leaf_leafPte hmod hlt (readable_lt (by decide : PTE_W < 1024))
        readable_leaf).1
      have huser : leafPte d (PTE_R ||| PTE_U ||| PTE_W) &&& PTE_U ≠ 0 := by
        intro h
        have hbit : (leafPte d (PTE_R ||| PTE_U ||| PTE_W) &&& PTE_U).testBit 4 = true := by
          rw [Nat.testBit_and, leafPte_eq (readable_lt (by decide)),
            Nat.testBit_two_pow_mul_add _ (by decide), if_pos (by decide)]
          decide
        rw [h] at hbit
        exact absurd hbit (by decide)
      rw [if_pos hpage, if_pos hpage, if_neg hleaf.valid, if_neg huser, hleaf.page]
    · rw [if_neg hpage, if_neg hpage]
      rfl

/-- The bytes of the page. -/
theorem userBytes_first (hd : d ≠ 0) {a n : Nat} (ha : a + n ≤ PGSIZE) (hn : 0 < n) :
    userBytes m pt a n = some ((List.range n).map fun i => m (d + a + i)) := by
  have hlow : a < PGSIZE := by omega
  have hdown : PGROUNDDOWN a = 0 := by
    unfold PGROUNDDOWN
    rw [Nat.div_eq_of_lt hlow, Nat.zero_mul]
  have hpage : userPage m pt (PGROUNDDOWN a) = d := by
    rw [userPage_first hptes hmod hlt, hdown, if_pos (by decide)]
  rw [userBytes_page (by rw [hpage]; exact hd) (by rw [Nat.mod_eq_of_lt hlow]; exact ha), hpage,
    hdown, Nat.sub_zero]

/-- The words of the page. -/
theorem userWord_first (hd : d ≠ 0) {a : Nat} (ha : a + 8 ≤ PGSIZE) :
    userWord m pt PGSIZE a = some (m.load 8 (d + a)) := by
  have hpg : PGSIZE = 4096 := rfl
  unfold userWord
  rw [if_neg (by rw [Nat.mod_eq_of_lt (by omega)]; omega),
    userBytes_first hptes hmod hlt hd ha (by decide)]
  rfl

theorem userOwned_first {k : Kmem} {held : List Nat} (hk : k.mem = m) (hd : d ∈ held) :
    UserOwned ⟨k, held⟩ pt := by
  intro va hva
  have hpage := userPage_first hptes hmod hlt va
  have hva : userPage k.mem pt va ≠ 0 := hva
  show userPage k.mem pt va ∈ held
  rw [hk, hpage] at hva ⊢
  by_cases hlow : va < PGSIZE
  · rw [if_pos hlow]
    exact hd
  · rw [if_neg hlow] at hva
    exact absurd rfl hva

end

/-- A process with one cleared page passes the empty vector at address 0. -/
theorem sysExec_passes_empty : ∃ k pt k' k'' d held rest,
    kinit KERNBASE ⟨fun _ => 0, 0⟩ = .ok ((), k) ∧ uvmcreate k = .ok (pt, k') ∧
    uvmalloc KERNBASE pt 0 PGSIZE PTE_W k' = .ok (PGSIZE, k'') ∧
    UserSpace KERNBASE ⟨k'', held⟩ rest pt PGSIZE [d] ∧
    PassesArgv k'' pt PGSIZE 0 (fun _ => 0) [] := by
  obtain ⟨k, pt, k', k'', d, held, rest, hinit, hcreate, hgrow, hspace, -, hptes, hzero⟩ :=
    boot_page
  have hdheld : d ∈ held := hspace.owned d List.mem_cons_self
  have hpool : InPool KERNBASE d := hspace.split.outstanding hdheld
  have hlt : d < 2 ^ 56 := by
    have := hpool.2.2
    have hstop : PHYSTOP = 2281701376 := rfl
    omega
  have hd : d ≠ 0 := hpool.pos (by decide)
  have hpg : PGSIZE = 4096 := rfl
  have hword : ∀ a, a + 8 ≤ PGSIZE → userWord k''.mem pt PGSIZE a = some 0 := by
    intro a ha
    rw [userWord_first hptes hpool.1 hlt hd ha]
    exact congrArg some (Memory.load_zero fun i hlo hhi => hzero i (by omega) (by omega))
  have hV : UserVector k''.mem pt PGSIZE 0 [] := by
    refine ⟨by decide, fun i str h => ?_, hword 0 (by decide)⟩
    cases h
  refine ⟨k, pt, k', k'', d, held, rest, hinit, hcreate, hgrow, hspace, ?_⟩
  exact (sysExec_passes_argv_iff hspace.split hspace.held
    (userOwned_first hptes hpool.1 hlt rfl hdheld) hV).1.mpr ⟨rfl, hword 8 (by decide)⟩

/-- The process stores a pointer to the empty string at address 0: the vector has one string,
and `sys_exec` passes none. -/
theorem sysExec_loses_argument : ∃ k pt k' k'' k₃ d held rest,
    kinit KERNBASE ⟨fun _ => 0, 0⟩ = .ok ((), k) ∧ uvmcreate k = .ok (pt, k') ∧
    uvmalloc KERNBASE pt 0 PGSIZE PTE_W k' = .ok (PGSIZE, k'') ∧
    k₃ = { k'' with mem := k''.mem.store 8 d 16 } ∧
    Split KERNBASE ⟨k₃, held⟩ rest ∧ rest ≠ [] ∧ Held ⟨k₃, held⟩ pt ∧ UserOwned ⟨k₃, held⟩ pt ∧
    UserVector k₃.mem pt PGSIZE 0 [[]] ∧
    PassesArgv k₃ pt PGSIZE 0 (fun _ => 0) [] ∧
    ¬ PassesArgv k₃ pt PGSIZE 0 (fun _ => 0) [[]] := by
  obtain ⟨k, pt, k', k'', d, held, rest, hinit, hcreate, hgrow, hspace, hrest, hptes, hzero⟩ :=
    boot_page
  have hdheld : d ∈ held := hspace.owned d List.mem_cons_self
  have hpool : InPool KERNBASE d := hspace.split.outstanding hdheld
  have hlt : d < 2 ^ 56 := by
    have := hpool.2.2
    have hstop : PHYSTOP = 2281701376 := rfl
    omega
  have hd : d ≠ 0 := hpool.pos (by decide)
  have hpg : PGSIZE = 4096 := rfl
  obtain ⟨m, hm⟩ : ∃ m, m = k''.mem.store 8 d 16 := ⟨_, rfl⟩
  have hout : ∀ a, ¬ (d ≤ a ∧ a < d + PGSIZE) → m a = k''.mem a := by
    intro a ha
    rw [hm]
    exact if_neg (by omega)
  have hsplit : Split KERNBASE ⟨{ k'' with mem := m }, held⟩ rest :=
    hspace.split.of_write hdheld hout
  obtain ⟨htables, -, hptes', -⟩ := table_same pt fun x hx =>
    samePage_of_apart hpool (hspace.split.outstanding (hspace.held.held x hx))
      (fun h => hspace.apart d List.mem_cons_self (h ▸ hx)) hout
  have hheld : Held ⟨{ k'' with mem := m }, held⟩ pt :=
    hspace.held.of_same htables hspace.held.held
  have hptes₃ : ∀ va < MAXVA, pte m pt va =
      if va < PGSIZE then leafPte d (PTE_R ||| PTE_U ||| PTE_W) else 0 := by
    intro va hva
    rw [← hptes va hva]
    exact hptes' va
  have hO : UserOwned ⟨{ k'' with mem := m }, held⟩ pt :=
    userOwned_first hptes₃ hpool.1 hlt rfl hdheld
  -- The first word is the pointer, and the rest of the page is null.
  have hfirst : userWord m pt PGSIZE 0 = some 16 := by
    rw [userWord_first hptes₃ hpool.1 hlt hd (by decide), hm, Nat.add_zero,
      Memory.load_store (by decide)]
  have hafter : ∀ i, d + 8 ≤ i → i < d + PGSIZE → m i = 0 := by
    intro i hlo hhi
    rw [hm, show Memory.store 8 k''.mem d 16 i = k''.mem i from if_neg (by omega)]
    exact hzero i (by omega) hhi
  have hsecond : userWord m pt PGSIZE 8 = some 0 := by
    rw [userWord_first hptes₃ hpool.1 hlt hd (by decide)]
    exact congrArg some (Memory.load_zero fun i hlo hhi => hafter i hlo (by omega))
  have hstring : UserString m pt 16 [] := by
    refine ⟨by decide, List.not_mem_nil, ?_⟩
    show userBytes m pt 16 1 = some [0]
    rw [userBytes_first hptes₃ hpool.1 hlt hd (by decide) (by decide)]
    show some [m (d + 16 + 0)] = some [0]
    rw [hafter _ (by omega) (by omega)]
  have hV : UserVector m pt PGSIZE 0 [[]] := by
    refine ⟨by decide, fun i str h => ?_, hsecond⟩
    obtain ⟨hi, hstr⟩ := List.getElem?_eq_some_iff.mp h
    obtain rfl : i = 0 := by
      rw [List.length_singleton] at hi
      omega
    subst hstr
    exact ⟨16, by decide, hfirst, hstring⟩
  have hiff : ∀ strs, PassesArgv { k'' with mem := m } pt PGSIZE 0 (fun _ => 0) strs ↔ _ :=
    fun strs => passesArgv_iff hsplit hheld hO
  refine ⟨k, pt, k', k'', { k'' with mem := m }, d, held, rest, hinit, hcreate, hgrow,
    by rw [hm], hsplit, hrest, hheld, hO, hV, (hiff []).mpr ⟨rfl, hsecond⟩, fun hpass => ?_⟩
  exact absurd ((hiff [[]]).mp hpass).1 (by decide)

end Xv6.Proofs.Sys
