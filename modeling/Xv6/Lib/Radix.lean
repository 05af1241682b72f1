import Mathlib.Data.List.Nodup
import Mathlib.Data.List.Perm.Basic
import Mathlib.Data.List.Range
import Mathlib.Data.Finset.Card
import Mathlib.Data.Finset.Range

/-!
# `Xv6.Lib.Radix`: radix trees whose tables lie in memory

A table is an array of `fan` entries at an address, and `cell p i` is entry `i` of the table at
`p`. An entry of a table above the lowest level leads to a table of the level below, or to none:
`child` decodes it. A path is an index for each level, `idx l` for the tables of level `l`.

`tables` lists the tables of a tree, and `table` follows a path down to a level. `entry` is the
entry of the lowest level at the end of a path, and 0 when the path ends before.

The tree is a tree as long as the list has no duplicates: then a table lies on the paths through
one place only (`table_inj`). Two changes are all that happens to such a tree. A store in the
lowest table of a path changes the entry of this path (`entry_store`). Linking a cleared table
where a path ends adds it to the list and changes no entry (`link_spec`, `entry_link`); it is
now the table of every path that agrees with this one above it.

`Linked good` says that the entries that lead to tables are `good`. Both changes keep it.

`missing` collects the tables that a path lacks, each under its level and the part of the path
that leads to it, so that what several paths lack together can be counted.
-/

set_option autoImplicit false

namespace Xv6.Lib.Radix

/-- Entry `i` of the table at `p`. -/
abbrev Cells := Nat → Nat → Nat

section
variable (child : Nat → Option Nat) (fan : Nat)

/-- The tables of the tree of height `l` at `p`. -/
def tables (cell : Cells) : Nat → Nat → List Nat
  | 0, p => [p]
  | l + 1, p => p :: (List.range fan).flatMap fun i =>
    (child (cell p i)).elim [] (tables cell l)

/-- The table of level `j` on a path from `p` at level `l`. -/
def table (cell : Cells) (idx : Nat → Nat) (j : Nat) : Nat → Nat → Option Nat
  | 0, p => if j = 0 then some p else none
  | l + 1, p =>
    if j = l + 1 then some p
    else (child (cell p (idx (l + 1)))).bind (table cell idx j l)

/-- Two paths agree at the levels above `k`, up to `l`. -/
def Agree (idx idx' : Nat → Nat) (k l : Nat) : Prop := ∀ i ≤ l, k < i → idx' i = idx i

instance (idx idx' : Nat → Nat) (k l : Nat) : Decidable (Agree idx idx' k l) :=
  inferInstanceAs (Decidable (∀ i ≤ l, k < i → idx' i = idx i))

/-- The entry at the end of a path, or 0. -/
def entry (cell : Cells) (idx : Nat → Nat) (l p : Nat) : Nat :=
  (table child cell idx 0 l p).elim 0 fun q => cell q (idx 0)

end

variable {child : Nat → Option Nat} {fan : Nat} {cell cell' : Cells} {idx idx' : Nat → Nat}
  {l j k p q r : Nat}

/-! ### The tables of a tree -/

theorem mem_tables_self : p ∈ tables child fan cell l p := by
  cases l with
  | zero => exact List.mem_singleton_self p
  | succ l => exact List.mem_cons_self

theorem mem_tables_succ {x : Nat} : x ∈ tables child fan cell (l + 1) p ↔
    x = p ∨ ∃ i < fan, ∃ c, child (cell p i) = some c ∧ x ∈ tables child fan cell l c := by
  rw [tables, List.mem_cons, List.mem_flatMap]
  refine or_congr_right ⟨?_, ?_⟩
  · rintro ⟨i, hi, hx⟩
    cases hc : child (cell p i) with
    | none =>
      rw [hc] at hx
      cases hx
    | some c =>
      rw [hc] at hx
      exact ⟨i, List.mem_range.mp hi, c, hc, hx⟩
  · rintro ⟨i, hi, c, hc, hx⟩
    refine ⟨i, List.mem_range.mpr hi, ?_⟩
    rw [hc]
    exact hx

theorem mem_tables_child {i c x : Nat} (hi : i < fan) (hc : child (cell p i) = some c)
    (hx : x ∈ tables child fan cell l c) : x ∈ tables child fan cell (l + 1) p :=
  mem_tables_succ.mpr (.inr ⟨i, hi, c, hc, hx⟩)

/-- The root of a tree without other tables leads nowhere. -/
theorem child_of_root {i : Nat} (h : tables child fan cell (l + 1) p = [p]) (hi : i < fan) :
    child (cell p i) = none := by
  rw [tables, List.cons_eq_cons, List.flatMap_eq_nil_iff] at h
  have hi := h.2 i (List.mem_range.mpr hi)
  cases hc : child (cell p i) with
  | none => rfl
  | some c =>
    have hc' : c ∈ tables child fan cell l c := mem_tables_self
    rw [hc] at hi
    have hnil : tables child fan cell l c = [] := hi
    rw [hnil] at hc'
    cases hc'

/-- What holds of the root and of whatever an entry leads to holds of every table. -/
theorem forall_tables {P : Nat → Prop} (hchild : ∀ e c, child e = some c → P c) (hp : P p) :
    ∀ x ∈ tables child fan cell l p, P x := by
  induction l generalizing p with
  | zero =>
    intro x hx
    rw [List.mem_singleton.mp hx]
    exact hp
  | succ l ih =>
    intro x hx
    rcases mem_tables_succ.mp hx with rfl | ⟨i, -, c, hc, hx⟩
    · exact hp
    · exact ih (hchild _ c hc) x hx

/-- What it means for the parts of a tree that its tables are distinct. -/
theorem nodup_tables_succ (h : (tables child fan cell (l + 1) p).Nodup) :
    (∀ i < fan, ∀ c, child (cell p i) = some c →
      (tables child fan cell l c).Nodup ∧ p ∉ tables child fan cell l c) ∧
    ∀ i < fan, ∀ i' < fan, ∀ c c' x, child (cell p i) = some c → child (cell p i') = some c' →
      x ∈ tables child fan cell l c → x ∈ tables child fan cell l c' → i = i' := by
  rw [tables, List.nodup_cons, List.nodup_flatMap] at h
  obtain ⟨hself, heach, hpair⟩ := h
  refine ⟨fun i hi c hc => ⟨?_, fun hp => ?_⟩, ?_⟩
  · have := heach i (List.mem_range.mpr hi)
    rwa [hc] at this
  · refine hself (List.mem_flatMap.mpr ⟨i, List.mem_range.mpr hi, ?_⟩)
    rw [hc]
    exact hp
  · intro i hi i' hi' c c' x hc hc' hx hx'
    by_contra hne
    have hsymm : Std.Symm (Function.onFun List.Disjoint fun i =>
        (child (cell p i)).elim [] (tables child fan cell l)) :=
      ⟨fun _ _ hdisj => List.Disjoint.symm hdisj⟩
    have hdisj : ((child (cell p i)).elim [] (tables child fan cell l)).Disjoint
        ((child (cell p i')).elim [] (tables child fan cell l)) :=
      hpair.forall (List.mem_range.mpr hi) (List.mem_range.mpr hi') hne
    rw [hc, hc'] at hdisj
    exact hdisj hx hx'

/-- A tree depends on its own tables only. -/
theorem tables_congr (h : ∀ x ∈ tables child fan cell l p, ∀ i < fan, cell' x i = cell x i) :
    tables child fan cell' l p = tables child fan cell l p := by
  induction l generalizing p with
  | zero => rfl
  | succ l ih =>
    rw [tables, tables]
    congr 1
    refine List.flatMap_congr fun i hi => ?_
    have hi : i < fan := List.mem_range.mp hi
    rw [h p mem_tables_self i hi]
    cases hc : child (cell p i) with
    | none => rfl
    | some c => exact ih fun x hx => h x (mem_tables_child hi hc hx)

/-- A table without entries has nothing below it. -/
theorem tables_empty (h : ∀ i < fan, child (cell p i) = none) :
    tables child fan cell l p = [p] := by
  cases l with
  | zero => rfl
  | succ l =>
    rw [tables, List.cons.injEq]
    refine ⟨rfl, List.flatMap_eq_nil_iff.mpr fun i hi => ?_⟩
    rw [h i (List.mem_range.mp hi)]
    rfl

/-! ### Paths -/

theorem table_top : table child cell idx l l p = some p := by
  cases l with
  | zero => exact if_pos rfl
  | succ l => exact if_pos rfl

theorem table_succ (h : j ≤ l) : table child cell idx j (l + 1) p =
    (child (cell p (idx (l + 1)))).bind (table child cell idx j l) := by
  rw [table, if_neg (by omega)]

/-- A level above the tree has no table. -/
theorem table_above (h : l < j) : table child cell idx j l p = none := by
  induction l generalizing p with
  | zero => exact if_neg (by omega)
  | succ l ih =>
    rw [table, if_neg (by omega)]
    cases child (cell p (idx (l + 1))) with
    | none => rfl
    | some c => exact ih (by omega)

/-- The table below the one of level `j + 1`. -/
theorem table_step (h : table child cell idx (j + 1) l p = some q) :
    table child cell idx j l p = child (cell q (idx (j + 1))) := by
  induction l generalizing p with
  | zero => cases h
  | succ l ih =>
    by_cases hj : j = l
    · subst hj
      obtain rfl : p = q := by simpa [table] using h
      rw [table_succ (Nat.le_refl _)]
      cases child (cell p (idx (j + 1))) with
      | none => rfl
      | some c => exact table_top
    · by_cases hle : j + 1 ≤ l
      · rw [table_succ hle] at h
        rw [table_succ (by omega)]
        cases hc : child (cell p (idx (l + 1))) with
        | none =>
          rw [hc] at h
          cases h
        | some c =>
          rw [hc] at h
          exact ih h
      · rw [table_above (by omega)] at h
        cases h

/-- Below a missing table everything is missing. -/
theorem table_none (hk : k ≤ j) (h : table child cell idx j l p = none) (hj : j ≤ l) :
    table child cell idx k l p = none := by
  induction l generalizing p with
  | zero =>
    rw [Nat.le_zero.mp hj] at h
    cases h
  | succ l ih =>
    by_cases he : j = l + 1
    · rw [he, table_top] at h
      cases h
    · rw [table_succ (by omega)] at h ⊢
      cases hc : child (cell p (idx (l + 1))) with
      | none => rfl
      | some c =>
        rw [hc] at h
        exact ih h (by omega)

/-- The way to a table is the part of the path above it. -/
theorem table_agree (h : Agree idx idx' j l) :
    table child cell idx' j l p = table child cell idx j l p := by
  induction l generalizing p with
  | zero => rfl
  | succ l ih =>
    by_cases hj : j ≤ l
    · rw [table_succ hj, table_succ hj, h (l + 1) (Nat.le_refl _) (by omega)]
      cases child (cell p (idx (l + 1))) with
      | none => rfl
      | some c => exact ih fun i hi => h i (by omega)
    · by_cases he : j = l + 1
      · rw [he, table_top, table_top]
      · rw [table_above (by omega), table_above (by omega)]

/-- The entry of a path depends on the path up to the height of the tree. -/
theorem entry_agree (h : ∀ i ≤ l, idx' i = idx i) :
    entry child cell idx' l p = entry child cell idx l p := by
  unfold entry
  rw [table_agree (fun i hi _ => h i hi), h 0 (Nat.zero_le l)]

section
variable (hidx : ∀ i, idx i < fan)
include hidx

theorem table_mem (h : table child cell idx j l p = some q) :
    q ∈ tables child fan cell l p := by
  induction l generalizing p with
  | zero =>
    rw [table] at h
    split at h
    · cases h
      exact mem_tables_self
    · cases h
  | succ l ih =>
    rw [table] at h
    split at h
    · cases h
      exact mem_tables_self
    · cases hc : child (cell p (idx (l + 1))) with
      | none =>
        rw [hc] at h
        cases h
      | some c =>
        rw [hc] at h
        exact mem_tables_child (hidx (l + 1)) hc (ih h)

/-- A path depends on the tables of its tree only. -/
theorem table_congr (h : ∀ x ∈ tables child fan cell l p, ∀ i < fan, cell' x i = cell x i) :
    table child cell' idx j l p = table child cell idx j l p := by
  induction l generalizing p with
  | zero => rfl
  | succ l ih =>
    rw [table, table, h p mem_tables_self _ (hidx (l + 1))]
    cases hc : child (cell p (idx (l + 1))) with
    | none => rfl
    | some c =>
      show (if j = l + 1 then some p else table child cell' idx j l c) = _
      rw [ih fun x hx => h x (mem_tables_child (hidx (l + 1)) hc hx)]
      rfl

theorem entry_congr (h : ∀ x ∈ tables child fan cell l p, ∀ i < fan, cell' x i = cell x i) :
    entry child cell' idx l p = entry child cell idx l p := by
  unfold entry
  rw [table_congr hidx h]
  cases ht : table child cell idx 0 l p with
  | none => rfl
  | some q => exact h q (table_mem hidx ht) _ (hidx 0)

/-- A table of a tree lies on the paths through one place only. -/
theorem table_inj (hidx' : ∀ i, idx' i < fan) (hnodup : (tables child fan cell l p).Nodup)
    (h : table child cell idx j l p = some q) (h' : table child cell idx' k l p = some q) :
    j = k ∧ Agree idx idx' j l := by
  induction l generalizing p with
  | zero =>
    rw [table] at h h'
    split at h
    · split at h'
      · exact ⟨by omega, fun i hi _ => by omega⟩
      · cases h'
    · cases h
  | succ l ih =>
    obtain ⟨hsub, hone⟩ := nodup_tables_succ hnodup
    -- A table below `p` is not `p` itself.
    have hbelow : ∀ {path : Nat → Nat} {m : Nat}, (∀ i, path i < fan) → m ≠ l + 1 →
        table child cell path m (l + 1) p = some q →
        ∃ c, child (cell p (path (l + 1))) = some c ∧
          table child cell path m l c = some q ∧ q ≠ p := by
      intro path m hpath hm ht
      rw [table, if_neg hm] at ht
      cases hc : child (cell p (path (l + 1))) with
      | none =>
        rw [hc] at ht
        cases ht
      | some c =>
        rw [hc] at ht
        refine ⟨c, rfl, ht, ?_⟩
        rintro rfl
        exact (hsub _ (hpath _) c hc).2 (table_mem hpath ht)
    by_cases hj : j = l + 1 <;> by_cases hk : k = l + 1
    · exact ⟨by omega, fun i hi _ => by omega⟩
    · obtain ⟨_, _, _, hne⟩ := hbelow hidx' hk h'
      rw [hj, table_top] at h
      exact absurd (Option.some.inj h).symm hne
    · obtain ⟨_, _, _, hne⟩ := hbelow hidx hj h
      rw [hk, table_top] at h'
      exact absurd (Option.some.inj h').symm hne
    · obtain ⟨c, hc, ht, -⟩ := hbelow hidx hj h
      obtain ⟨c', hc', ht', -⟩ := hbelow hidx' hk h'
      have htop : idx (l + 1) = idx' (l + 1) :=
        hone _ (hidx _) _ (hidx' _) c c' q hc hc' (table_mem hidx ht) (table_mem hidx' ht')
      rw [htop, hc'] at hc
      cases hc
      obtain ⟨hjk, hrest⟩ := ih (hsub _ (hidx' _) c hc').1 ht ht'
      refine ⟨hjk, fun i hle hi => ?_⟩
      by_cases he : i = l + 1
      · rw [he, htop]
      · exact hrest i (by omega) hi

end

theorem table_empty (hidx : ∀ i, idx i < fan) (h : ∀ i < fan, child (cell p i) = none)
    (hj : j ≠ l) : table child cell idx j l p = none := by
  cases l with
  | zero => exact if_neg hj
  | succ l => rw [table, if_neg hj, h _ (hidx _), Option.bind_none]

/-! ### The entries above the lowest level -/

/-- Every entry that leads to a table is good. -/
def Linked (child : Nat → Option Nat) (fan : Nat) (good : Nat → Prop) (cell : Cells) (l p : Nat) :
    Prop :=
  ∀ idx : Nat → Nat, (∀ i, idx i < fan) → ∀ j q, table child cell idx (j + 1) l p = some q →
    child (cell q (idx (j + 1))) ≠ none → good (cell q (idx (j + 1)))

/-! ### A store in a lowest table -/

section
variable (hidx : ∀ i, idx i < fan) (hnodup : (tables child fan cell l p).Nodup)
  (hq : table child cell idx 0 l p = some q)
  (hother : ∀ x ∈ tables child fan cell l p, ∀ i < fan, ¬ (x = q ∧ i = idx 0) →
    cell' x i = cell x i)
include hidx hnodup hq hother

theorem store_keeps : tables child fan cell' l p = tables child fan cell l p ∧
    ∀ path : Nat → Nat, (∀ i, path i < fan) → ∀ j,
      table child cell' path j l p = table child cell path j l p := by
  induction l generalizing p with
  | zero => exact ⟨rfl, fun _ _ _ => rfl⟩
  | succ l ih =>
    obtain ⟨hsub, hone⟩ := nodup_tables_succ hnodup
    rw [table_succ (Nat.zero_le l)] at hq
    obtain ⟨c₀, hc₀, hq⟩ := Option.bind_eq_some_iff.mp hq
    have hqp : p ≠ q := by
      rintro rfl
      exact (hsub _ (hidx _) c₀ hc₀).2 (table_mem hidx hq)
    have hp : ∀ i < fan, cell' p i = cell p i := fun i hi =>
      hother p mem_tables_self i hi fun h => hqp h.1
    -- The subtree of the path by induction, the others because `q` is not in them.
    have hparts : ∀ i < fan, ∀ c, child (cell p i) = some c →
        tables child fan cell' l c = tables child fan cell l c ∧
        ∀ path : Nat → Nat, (∀ i, path i < fan) → ∀ j,
          table child cell' path j l c = table child cell path j l c := by
      intro i hi c hc
      have hin : ∀ x ∈ tables child fan cell l c, ∀ i < fan, ¬ (x = q ∧ i = idx 0) →
          cell' x i = cell x i := fun x hx => hother x (mem_tables_child hi hc hx)
      by_cases he : i = idx (l + 1)
      · subst he
        rw [hc] at hc₀
        cases hc₀
        exact ih (hsub _ hi c₀ hc).1 hq hin
      · have hout : ∀ x ∈ tables child fan cell l c, ∀ i < fan, cell' x i = cell x i := by
          intro x hx i' hi'
          refine hin x hx i' hi' ?_
          rintro ⟨rfl, -⟩
          exact he (hone i hi _ (hidx _) c c₀ x hc hc₀ hx (table_mem hidx hq))
        exact ⟨tables_congr hout, fun path hpath j => table_congr hpath hout⟩
    constructor
    · rw [tables, tables]
      congr 1
      refine List.flatMap_congr fun i hi => ?_
      have hi : i < fan := List.mem_range.mp hi
      rw [hp i hi]
      cases hc : child (cell p i) with
      | none => rfl
      | some c => exact (hparts i hi c hc).1
    · intro path hpath j
      rw [table, table, hp _ (hpath _)]
      cases hc : child (cell p (path (l + 1))) with
      | none => rfl
      | some c =>
        rw [Option.bind_some, Option.bind_some, (hparts _ (hpath _) c hc).2 path hpath]

/-- The store changes the entry of its own path. -/
theorem entry_store {path : Nat → Nat} (hpath : ∀ i, path i < fan) :
    entry child cell' path l p =
      if ∀ i ≤ l, path i = idx i then cell' q (idx 0) else entry child cell path l p := by
  have hkeeps := (store_keeps hidx hnodup hq hother).2 path hpath 0
  split
  · rename_i hsame
    have ht : table child cell path 0 l p = some q := by
      rw [table_agree fun i hi _ => hsame i hi, hq]
    unfold entry
    rw [hkeeps, ht, hsame 0 (Nat.zero_le l)]
    rfl
  · rename_i hdiff
    unfold entry
    rw [hkeeps]
    cases ht : table child cell path 0 l p with
    | none => rfl
    | some x =>
      refine hother x (table_mem hpath ht) _ (hpath 0) ?_
      rintro ⟨rfl, h0⟩
      -- The same table and the same entry in it: the same path.
      have hrest := (table_inj hidx hpath hnodup hq ht).2
      refine hdiff fun i hi => ?_
      by_cases hi0 : i = 0
      · rw [hi0, h0]
      · exact hrest i hi (by omega)

theorem linked_store {good : Nat → Prop} (hg : Linked child fan good cell l p) :
    Linked child fan good cell' l p := by
  intro path hpath j x hx hc
  rw [(store_keeps hidx hnodup hq hother).2 path hpath] at hx
  have hcell : cell' x (path (j + 1)) = cell x (path (j + 1)) := by
    refine hother x (table_mem hpath hx) _ (hpath _) ?_
    rintro ⟨rfl, -⟩
    -- The store is in a table of level 0.
    have := (table_inj hidx hpath hnodup hq hx).1
    omega
  rw [hcell] at hc ⊢
  exact hg path hpath j x hx hc

end

/-! ### Linking a cleared table -/

/-- Two lists of lists that differ in one place. -/
theorem flatMap_range_perm {f g : Nat → List Nat} {n i : Nat} (new : List Nat) (hi : i < n)
    (hone : (g i).Perm (new ++ f i)) (hrest : ∀ i' < n, i' ≠ i → g i' = f i') :
    ((List.range n).flatMap g).Perm (new ++ (List.range n).flatMap f) := by
  have hsplit := List.perm_cons_erase (List.mem_range.mpr hi)
  have herase : ((List.range n).erase i).flatMap g = ((List.range n).erase i).flatMap f := by
    refine List.flatMap_congr fun i' hi' => ?_
    have hmem := (List.nodup_range.mem_erase_iff).mp hi'
    exact hrest i' (List.mem_range.mp hmem.2) hmem.1
  have hg : ((List.range n).flatMap g).Perm (g i ++ ((List.range n).erase i).flatMap f) := by
    rw [← herase]
    exact hsplit.flatMap_right g
  have hf : ((List.range n).flatMap f).Perm (f i ++ ((List.range n).erase i).flatMap f) :=
    hsplit.flatMap_right f
  refine (hg.trans (hone.append_right _)).trans ?_
  rw [List.append_assoc]
  exact (hf.symm).append_left new

section
variable (hidx : ∀ i, idx i < fan) (hnodup : (tables child fan cell l p).Nodup)
  (hq : table child cell idx (k + 1) l p = some q)
  (hnone : child (cell q (idx (k + 1))) = none)
  (hlink : child (cell' q (idx (k + 1))) = some r)
  (hother : ∀ x ∈ tables child fan cell l p, ∀ i < fan, ¬ (x = q ∧ i = idx (k + 1)) →
    cell' x i = cell x i)
  (hclear : ∀ i < fan, child (cell' r i) = none)
include hidx hnodup hq hnone hlink hother hclear

/-- What linking a cleared table does to the list of the tables and to the paths. -/
theorem link_spec : (tables child fan cell' l p).Perm (r :: tables child fan cell l p) ∧
    ∀ path : Nat → Nat, (∀ i, path i < fan) → ∀ j,
      table child cell' path j l p =
        if j = k ∧ Agree idx path k l then some r else table child cell path j l p := by
  induction l generalizing p with
  | zero => cases hq
  | succ l ih =>
    obtain ⟨hsub, hone⟩ := nodup_tables_succ hnodup
    -- A subtree that does not hold `q` stays.
    have hkept : ∀ i < fan, ∀ c, child (cell p i) = some c →
        q ∉ tables child fan cell l c →
        tables child fan cell' l c = tables child fan cell l c ∧
        ∀ path : Nat → Nat, (∀ i, path i < fan) → ∀ j,
          table child cell' path j l c = table child cell path j l c := by
      intro i hi c hc hnot
      have hout : ∀ x ∈ tables child fan cell l c, ∀ i < fan, cell' x i = cell x i := by
        intro x hx i' hi'
        refine hother x (mem_tables_child hi hc hx) i' hi' ?_
        rintro ⟨rfl, -⟩
        exact hnot hx
      exact ⟨tables_congr hout, fun path hpath j => table_congr hpath hout⟩
    by_cases hk : k = l
    · -- The new table hangs at `p` itself.
      subst hk
      obtain rfl : p = q := by simpa [table] using hq
      have hp : ∀ i < fan, i ≠ idx (k + 1) → cell' p i = cell p i := fun i hi hne =>
        hother p mem_tables_self i hi fun h => hne h.2
      constructor
      · rw [tables, tables]
        refine (List.Perm.cons p (flatMap_range_perm [r] (hidx (k + 1)) ?_ ?_)).trans
          (List.Perm.swap r p _)
        · rw [hlink, hnone]
          show (tables child fan cell' k r).Perm [r]
          rw [tables_empty hclear]
        · intro i hi hne
          rw [hp i hi hne]
          cases hc : child (cell p i) with
          | none => rfl
          | some c => exact (hkept i hi c hc (hsub i hi c hc).2).1
      · intro path hpath j
        by_cases hj : j ≤ k
        · rw [table_succ hj, table_succ hj]
          by_cases hstep : path (k + 1) = idx (k + 1)
          · rw [hstep, hlink, hnone, Option.bind_some, Option.bind_none]
            by_cases he : j = k
            · have hagree : Agree idx path k (k + 1) := by
                intro i hle hi
                rw [show i = k + 1 by omega, hstep]
              rw [he, table_top, if_pos ⟨rfl, hagree⟩]
            · rw [table_empty hpath hclear he, if_neg fun h => he h.1]
          · rw [hp _ (hpath _) hstep,
              if_neg fun h => hstep (h.2 (k + 1) (Nat.le_refl _) (by omega))]
            cases hc : child (cell p (path (k + 1))) with
            | none => rfl
            | some c =>
              exact (hkept _ (hpath _) c hc (hsub _ (hpath _) c hc).2).2 path hpath j
        · rw [if_neg fun h => by omega]
          by_cases he : j = k + 1
          · rw [he, table_top, table_top]
          · rw [table_above (by omega), table_above (by omega)]
    · -- The new table hangs in the subtree of the path.
      have hkl : k + 1 ≤ l := by
        by_contra hgt
        rw [table_above (by omega)] at hq
        cases hq
      rw [table_succ hkl] at hq
      obtain ⟨c₀, hc₀, hq⟩ := Option.bind_eq_some_iff.mp hq
      have hqp : p ≠ q := by
        rintro rfl
        exact (hsub _ (hidx _) c₀ hc₀).2 (table_mem hidx hq)
      have hp : ∀ i < fan, cell' p i = cell p i := fun i hi =>
        hother p mem_tables_self i hi fun h => hqp h.1
      have hnot : ∀ i < fan, i ≠ idx (l + 1) → ∀ c, child (cell p i) = some c →
          q ∉ tables child fan cell l c := fun i hi hne c hc hx =>
        hne (hone i hi _ (hidx _) c c₀ q hc hc₀ hx (table_mem hidx hq))
      obtain ⟨hperm, htable⟩ := ih (hsub _ (hidx _) c₀ hc₀).1 hq
        fun x hx => hother x (mem_tables_child (hidx _) hc₀ hx)
      constructor
      · rw [tables, tables]
        refine (List.Perm.cons p (flatMap_range_perm [r] (hidx (l + 1)) ?_ ?_)).trans
          (List.Perm.swap r p _)
        · rw [hp _ (hidx _), hc₀]
          exact hperm
        · intro i hi hne
          rw [hp i hi]
          cases hc : child (cell p i) with
          | none => rfl
          | some c => exact (hkept i hi c hc (hnot i hi hne c hc)).1
      · intro path hpath j
        by_cases hj : j ≤ l
        · rw [table_succ hj, table_succ hj, hp _ (hpath _)]
          by_cases hstep : path (l + 1) = idx (l + 1)
          · rw [hstep, hc₀, Option.bind_some, Option.bind_some, htable path hpath j]
            refine if_congr (and_congr_right fun _ => ?_) rfl rfl
            refine ⟨fun h i hle hi => ?_, fun h i hle hi => h i (by omega) hi⟩
            by_cases he : i = l + 1
            · rw [he, hstep]
            · exact h i (by omega) hi
          · rw [if_neg fun h => hstep (h.2 (l + 1) (Nat.le_refl _) (by omega))]
            cases hc : child (cell p (path (l + 1))) with
            | none => rfl
            | some c =>
              exact (hkept _ (hpath _) c hc (hnot _ (hpath _) hstep c hc)).2 path hpath j
        · rw [if_neg fun h => by omega]
          by_cases he : j = l + 1
          · rw [he, table_top, table_top]
          · rw [table_above (by omega), table_above (by omega)]

/-- Linking a cleared table changes no entry. -/
theorem entry_link (hzero : ∀ i < fan, cell' r i = 0) {path : Nat → Nat}
    (hpath : ∀ i, path i < fan) :
    entry child cell' path l p = entry child cell path l p := by
  obtain ⟨-, htable⟩ := link_spec hidx hnodup hq hnone hlink hother hclear
  unfold entry
  rw [htable path hpath 0]
  split
  · -- The path ended where the table is now.
    rename_i hnew
    have hmissing : table child cell path 0 l p = none := by
      rw [hnew.1, table_agree hnew.2, table_step hq, hnone]
    rw [hmissing]
    exact hzero _ (hpath 0)
  · rename_i hold
    cases ht : table child cell path 0 l p with
    | none => rfl
    | some x =>
      refine hother x (table_mem hpath ht) _ (hpath 0) ?_
      rintro ⟨rfl, -⟩
      -- `q` is a table of level `k + 1`, not of level 0.
      have := (table_inj hidx hpath hnodup hq ht).1
      omega

theorem linked_link {good : Nat → Prop} (hgood : good (cell' q (idx (k + 1))))
    (hg : Linked child fan good cell l p) : Linked child fan good cell' l p := by
  intro path hpath j x hx hc
  rw [(link_spec hidx hnodup hq hnone hlink hother hclear).2 path hpath] at hx
  split at hx
  · -- The new table leads nowhere.
    cases hx
    exact absurd (hclear _ (hpath _)) hc
  · by_cases hself : x = q ∧ path (j + 1) = idx (k + 1)
    · rw [hself.1, hself.2]
      exact hgood
    · have hcell := hother x (table_mem hpath hx) _ (hpath (j + 1)) hself
      rw [hcell] at hc ⊢
      exact hg path hpath j x hx hc

end

/-! ### Good entries and subtrees -/

section
variable {good : Nat → Prop}

theorem linked_congr (h : ∀ x ∈ tables child fan cell l p, ∀ i < fan, cell' x i = cell x i)
    (hg : Linked child fan good cell l p) : Linked child fan good cell' l p := by
  intro idx hidx j q hq hc
  rw [table_congr hidx h] at hq
  have hcell := h q (table_mem hidx hq) _ (hidx (j + 1))
  rw [hcell] at hc ⊢
  exact hg idx hidx j q hq hc

/-- A table without entries leads to none. -/
theorem linked_empty (h : ∀ i < fan, child (cell p i) = none) :
    Linked child fan good cell l p := by
  intro idx hidx j q hq hc
  by_cases hj : j + 1 = l
  · subst hj
    rw [table_top] at hq
    cases hq
    exact absurd (h _ (hidx _)) hc
  · rw [table_empty hidx h hj] at hq
    cases hq

/-- The tree below an entry: its paths are those through the entry. -/
theorem table_below {i c : Nat} (hc : child (cell p i) = some c) (hj : j ≤ l) :
    table child cell (Function.update idx (l + 1) i) j (l + 1) p =
      table child cell idx j l c := by
  rw [table_succ hj, Function.update_self, hc, Option.bind_some]
  refine table_agree fun a ha _ => ?_
  rw [Function.update_of_ne (by omega)]

theorem linked_below {i c : Nat} (hi : i < fan) (hc : child (cell p i) = some c)
    (hg : Linked child fan good cell (l + 1) p) :
    good (cell p i) ∧ Linked child fan good cell l c := by
  have hupdate : ∀ idx : Nat → Nat, (∀ i, idx i < fan) →
      ∀ a, Function.update idx (l + 1) i a < fan := by
    intro idx hidx a
    by_cases ha : a = l + 1
    · subst ha
      rw [Function.update_self]
      exact hi
    · rw [Function.update_of_ne ha]
      exact hidx a
  constructor
  · have := hg (Function.update (fun _ => i) (l + 1) i) (hupdate _ fun _ => hi) l p table_top
    rw [Function.update_self, hc] at this
    exact this (by simp)
  · intro idx hidx j q hq hne
    have hj : j + 1 ≤ l := by
      by_contra hgt
      rw [table_above (by omega)] at hq
      cases hq
    have := hg (Function.update idx (l + 1) i) (hupdate idx hidx) j q
    rw [table_below hc hj, Function.update_of_ne (by omega)] at this
    exact this hq hne

theorem entry_below {i c : Nat} (hc : child (cell p i) = some c) :
    entry child cell (Function.update idx (l + 1) i) (l + 1) p = entry child cell idx l c := by
  unfold entry
  rw [table_below hc (Nat.zero_le _), Function.update_of_ne (by omega)]

end

/-! ### What a path lacks -/

/-- The part of a path above level `j`. -/
def above (idx : Nat → Nat) (j l : Nat) : List Nat := (List.range (l - j)).map fun i => idx (l - i)

theorem above_eq_iff : above idx' j l = above idx j l ↔ Agree idx idx' j l := by
  unfold above
  rw [List.map_inj_left]
  constructor
  · intro h i hi hj
    have := h (l - i) (List.mem_range.mpr (by omega))
    rwa [show l - (l - i) = i by omega] at this
  · intro h i hi
    have hi : i < l - j := List.mem_range.mp hi
    exact h (l - i) (by omega) (by omega)

/-- The tables that a path lacks, each under its level and the way to it. -/
def missing (child : Nat → Option Nat) (cell : Cells) (idx : Nat → Nat) (l p : Nat) :
    Finset (Nat × List Nat) :=
  ((Finset.range l).filter fun j => table child cell idx j l p = none).image
    fun j => (j, above idx j l)

theorem mem_missing {x : Nat × List Nat} : x ∈ missing child cell idx l p ↔
    x.1 < l ∧ table child cell idx x.1 l p = none ∧ x.2 = above idx x.1 l := by
  unfold missing
  rw [Finset.mem_image]
  constructor
  · rintro ⟨j, hj, rfl⟩
    rw [Finset.mem_filter, Finset.mem_range] at hj
    exact ⟨hj.1, hj.2, rfl⟩
  · rintro ⟨hl, ht, ha⟩
    refine ⟨x.1, ?_, ?_⟩
    · rw [Finset.mem_filter, Finset.mem_range]
      exact ⟨hl, ht⟩
    · rw [← ha]

/-- A path with its lowest table lacks none. -/
theorem missing_eq_empty (h : table child cell idx 0 l p ≠ none) :
    missing child cell idx l p = ∅ := by
  rw [Finset.eq_empty_iff_forall_notMem]
  intro x hx
  obtain ⟨hl, ht, -⟩ := mem_missing.mp hx
  exact h (table_none (Nat.zero_le _) ht (by omega))

/-- What a path lacks depends on the path above its lowest table. -/
theorem missing_agree (h : Agree idx idx' 0 l) :
    missing child cell idx' l p = missing child cell idx l p := by
  ext x
  have hx : Agree idx idx' x.1 l := fun i hi hlt => h i hi (by omega)
  rw [mem_missing, mem_missing, table_agree hx, above_eq_iff.mpr hx]

/-- The table that was linked is no longer missing, on whatever path. -/
theorem missing_link (hidx : ∀ i, idx i < fan) (hnodup : (tables child fan cell l p).Nodup)
    (hq : table child cell idx (k + 1) l p = some q)
    (hnone : child (cell q (idx (k + 1))) = none)
    (hlink : child (cell' q (idx (k + 1))) = some r)
    (hother : ∀ x ∈ tables child fan cell l p, ∀ i < fan, ¬ (x = q ∧ i = idx (k + 1)) →
      cell' x i = cell x i)
    (hclear : ∀ i < fan, child (cell' r i) = none) {path : Nat → Nat}
    (hpath : ∀ i, path i < fan) :
    missing child cell' path l p = missing child cell path l p \ {(k, above idx k l)} := by
  obtain ⟨-, htable⟩ := link_spec hidx hnodup hq hnone hlink hother hclear
  ext ⟨j, a⟩
  rw [Finset.mem_sdiff, Finset.mem_singleton, mem_missing, mem_missing, htable path hpath j]
  by_cases hnew : j = k ∧ Agree idx path k l
  · rw [if_pos hnew]
    constructor
    · rintro ⟨-, hsome, -⟩
      cases hsome
    · rintro ⟨⟨-, -, ha⟩, hne⟩
      have ha : a = above path j l := ha
      exact absurd (by rw [ha, hnew.1, above_eq_iff.mpr hnew.2]) hne
  · rw [if_neg hnew]
    refine ⟨fun h => ⟨h, fun he => hnew ?_⟩, And.left⟩
    obtain ⟨rfl, rfl⟩ := Prod.mk.inj he
    exact ⟨rfl, above_eq_iff.mp h.2.2.symm⟩

end Xv6.Lib.Radix
