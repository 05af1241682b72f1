import Xv6.Kernel.Bio
import Xv6.Proofs.Cache.Coherent

/-!
# `Xv6.Proofs.Cache.Lru`: the buffer list is a well-formed LRU list

`LruInv` says that the pointers of the cache go through its list `lru`, that each buffer is in
it, that no block of a device other than 0 is cached twice, that a buffer has as many references
as agents use it, or more (the pins), and that the unreferenced buffers are in the order of their
latest release. The scans of `bget` along the pointers then find what `Cache.bget` finds in the
list (`bget_eq`), and each step keeps the invariant.

Only `brelse` can take a count to zero, because a `bunpin` is by an agent that holds the buffer.
So an unreferenced buffer was last moved when it was last released.
-/

set_option autoImplicit false

namespace Xv6.Proofs.Cache

open Xv6.Lib
open Xv6.Kernel

variable {A : Type} [Fintype A] {s t : Bcache A} {a : A} {dev b : Nat}

/-- `i` was released after `j`, or `j` never was. -/
def Later (s : Bcache A) (i j : Fin NBUF) : Prop :=
  s.released j < s.released i ∨ s.released j = 0

/-- The unreferenced buffer `i` may stand before the unreferenced buffer `j`. -/
def Before (s : Bcache A) (i j : Fin NBUF) : Prop :=
  (s.cache.bufs i).refcnt = 0 → (s.cache.bufs j).refcnt = 0 → Later s i j

structure LruInv (s : Bcache A) : Prop where
  linked : s.links.Linked s.cache.lru
  complete : ∀ i, i ∈ s.cache.lru
  unique : ∀ i j, (s.cache.bufs i).dev ≠ 0 → (s.cache.bufs i).dev = (s.cache.bufs j).dev →
    (s.cache.bufs i).blockno = (s.cache.bufs j).blockno → i = j
  counted : ∀ i, s.cache.refs i ≤ (s.cache.bufs i).refcnt
  ordered : s.cache.lru.Pairwise (Before s)
  past : ∀ i, s.released i ≤ s.clock

/-- A caller that drops a pin has one to drop. -/
def Respects (s : Bcache A) (x : A × BufCall) : Prop :=
  x.2 = .inPlace .bunpin → ∀ i d, s.cache.uses x.1 = .held i d →
    s.cache.refs i < (s.cache.bufs i).refcnt

theorem refs_pos {c : Cache A} {i : Fin NBUF} (h : (c.uses a).buf = some i) : 0 < c.refs i :=
  (countAgents_pos _ _).mpr ⟨a, h⟩

/-! ### The scans -/

theorem LruInv.length (h : LruInv s) : s.cache.lru.length < NBUF + 1 := by
  have hcard := h.linked.nodup.length_le_card
  rw [Fintype.card_fin] at hcard
  omega

variable [DecidableEq A]

/-- Along the pointers `bget` does what it does on the list. -/
theorem bget_eq (h : LruInv s) (hidle : s.cache.uses a = .idle) :
    s.bget a dev b = match s.cache.bget a dev b with
      | some c => some (.ok { s with cache := c })
      | none => some (.error .noBuffers) := by
  have hhit : s.scanHit dev b = some (s.cache.find dev b) := h.linked.walk_next h.length
  have hunused : s.scanUnused = some s.cache.victim := h.linked.walk_prev h.length
  unfold Bcache.bget Cache.bget
  rw [if_neg (by rw [hidle]; simp), hhit]
  cases s.cache.find dev b with
  | some i => rfl
  | none =>
    rw [hunused]
    cases s.cache.victim with
    | some i => rfl
    | none => rfl

/-! ### The steps -/

omit [Fintype A] in
/-- A stretch that leaves the list alone changes a buffer that its agent uses. -/
theorem localCall_touch {f : LocalCall} {c c' : Cache A} (h : f.run c a = some c') :
    ∃ i b u, Touch c c' a i b u ∧ (c.uses a).buf = some i ∧ u.buf = some i ∧
      (b.refcnt = (c.bufs i).refcnt ∨ b.refcnt = (c.bufs i).refcnt + 1 ∨
        f = .bunpin ∧ (∃ d, c.uses a = .held i d) ∧ b.refcnt = (c.bufs i).refcnt - 1) := by
  cases f with
  | acquiresleep =>
    obtain ⟨i, hu, -, -, ht⟩ := acquiresleep_touch h
    exact ⟨i, _, _, ht, by rw [hu]; rfl, rfl, .inl rfl⟩
  | fill =>
    obtain ⟨i, b, hu, -, ht, ⟨-, rfl⟩ | ⟨-, rfl⟩⟩ := fill_touch h
    · exact ⟨i, _, _, ht, by rw [hu]; rfl, rfl, .inl rfl⟩
    · exact ⟨i, _, _, ht, by rw [hu]; rfl, rfl, .inl rfl⟩
  | bwrite =>
    obtain ⟨i, d, hu, -, ht⟩ := bwrite_touch h
    exact ⟨i, _, _, ht, by rw [hu]; rfl, rfl, .inl rfl⟩
  | bpin =>
    simp only [LocalCall.run, Cache.bpin] at h
    split at h
    · rename_i i d hu
      cases h
      refine ⟨i, { c.bufs i with refcnt := (c.bufs i).refcnt + 1 }, .held i d, ?_, by rw [hu]; rfl,
        rfl, .inr (.inl rfl)⟩
      refine ⟨rfl, ?_, fun _ hj => hj, rfl, rfl⟩
      rw [← hu, Function.update_eq_self]
      rfl
    · cases h
  | bunpin =>
    obtain ⟨i, d, hu, -, ht⟩ := bunpin_touch h
    exact ⟨i, _, _, ht, by rw [hu]; rfl, rfl, .inr (.inr ⟨rfl, ⟨d, hu⟩, rfl⟩)⟩
  | releasesleep =>
    obtain ⟨i, hu, -, ht⟩ := releasesleep_touch h
    exact ⟨i, _, _, ht, by rw [hu]; rfl, rfl, .inl rfl⟩

omit [Fintype A] in
theorem localCall_lru {f : LocalCall} {c c' : Cache A} (h : f.run c a = some c') :
    c'.lru = c.lru := by
  cases f <;> grind [LocalCall.run, Cache.acquiresleep, Cache.fill, Cache.bwrite, Cache.bpin,
    Cache.bunpin, Cache.releasesleep, Cache.setBuf, Cache.setUse]

/-- A step that leaves the list alone keeps the invariant, if it lets no count drop to zero or
below the agents. -/
theorem LruInv.touch (h : LruInv s) {c : Cache A} {i : Fin NBUF} {buf : Buf A} {u : Use}
    (hlru : c.lru = s.cache.lru) (ht : Touch s.cache c a i buf u)
    (hcount : c.refs i ≤ buf.refcnt) (hzero : buf.refcnt = 0 → (s.cache.bufs i).refcnt = 0)
    (hrefs : ∀ j ≠ i, c.refs j ≤ s.cache.refs j) : LruInv { s with cache := c } := by
  have hkey : ∀ j, (c.bufs j).dev = (s.cache.bufs j).dev ∧
      (c.bufs j).blockno = (s.cache.bufs j).blockno := fun j => by
    rw [ht.bufs]
    by_cases hj : j = i
    · rw [hj, Function.update_self]
      exact ⟨ht.dev, ht.blockno⟩
    · rw [Function.update_of_ne hj]
      exact ⟨rfl, rfl⟩
  have hunused : ∀ j, (c.bufs j).refcnt = 0 → (s.cache.bufs j).refcnt = 0 := fun j => by
    rw [ht.bufs]
    by_cases hj : j = i
    · rw [hj, Function.update_self]
      exact hzero
    · rw [Function.update_of_ne hj]
      exact id
  refine ⟨by rw [hlru]; exact h.linked, by rw [hlru]; exact h.complete, ?_, ?_, ?_, h.past⟩
  · intro j k
    rw [(hkey j).1, (hkey j).2, (hkey k).1, (hkey k).2]
    exact h.unique j k
  · intro j
    show c.refs j ≤ (c.bufs j).refcnt
    rw [ht.bufs]
    by_cases hj : j = i
    · rw [hj, Function.update_self]
      exact hcount
    · rw [Function.update_of_ne hj]
      exact (hrefs j hj).trans (h.counted j)
  · show c.lru.Pairwise _
    rw [hlru]
    exact h.ordered.imp fun hb hj hk => hb (hunused _ hj) (hunused _ hk)

theorem LruInv.inPlace (h : LruInv s) {f : LocalCall} {c : Cache A}
    (hr : Respects s (a, .inPlace f)) (hc : f.run s.cache a = some c) :
    LruInv { s with cache := c } := by
  obtain ⟨i, buf, u, ht, ha, hu, hcases⟩ := localCall_touch hc
  have hrefs : ∀ j, c.refs j = s.cache.refs j := fun j => by
    have := refs_update ht.uses j
    rw [ha, hu] at this
    omega
  have hcount := h.counted i
  have hpos := refs_pos ha
  refine h.touch (localCall_lru hc) ht ?_ ?_ fun j _ => (hrefs j).le
  · rw [hrefs]
    rcases hcases with hsame | hmore | ⟨rfl, ⟨d, hheld⟩, hless⟩
    · omega
    · omega
    · have := hr rfl i d hheld
      omega
  · rcases hcases with hsame | hmore | ⟨rfl, ⟨d, hheld⟩, hless⟩
    · omega
    · omega
    · have := hr rfl i d hheld
      omega

omit [Fintype A] in
theorem bget_lru {c : Cache A} (h : s.cache.bget a dev b = some c) : c.lru = s.cache.lru := by
  grind [Cache.bget, Cache.setBuf, Cache.setUse]

/-- A miss takes an unreferenced buffer for the block. -/
theorem LruInv.recycle (h : LruInv s) {c : Cache A} {i : Fin NBUF}
    (hidle : s.cache.uses a = .idle) (hr : Recycle s.cache c a i dev b) :
    LruInv { s with cache := c } := by
  have hrefs := fun j => refs_update hr.uses j
  simp only [hidle, Use.buf] at hrefs
  have hzero : s.cache.refs i = 0 := by
    have := h.counted i
    rw [hr.unused] at this
    omega
  have hother : ∀ j ≠ i, c.bufs j = s.cache.bufs j := fun j hj => by
    rw [hr.bufs, Function.update_of_ne hj]
  have hself : c.bufs i
      = { s.cache.bufs i with dev := dev, blockno := b, valid := false, refcnt := 1 } := by
    rw [hr.bufs, Function.update_self]
  have hmiss : ∀ j, ¬ ((s.cache.bufs j).dev = dev ∧ (s.cache.bufs j).blockno = b) :=
    fun j => hr.missing j (h.complete j)
  refine ⟨by rw [hr.lru]; exact h.linked, by rw [hr.lru]; exact h.complete, ?_, ?_, ?_, h.past⟩
  · intro j k hdev hsame hblock
    by_cases hj : j = i
    · by_cases hk : k = i
      · rw [hj, hk]
      · simp only [hj, hself, hother k hk] at hsame hblock
        exact absurd ⟨hsame.symm, hblock.symm⟩ (hmiss k)
    · by_cases hk : k = i
      · simp only [hk, hself, hother j hj] at hsame hblock
        exact absurd ⟨hsame, hblock⟩ (hmiss j)
      · simp only [hother j hj, hother k hk] at hdev hsame hblock
        exact h.unique j k hdev hsame hblock
  · intro j
    have hj' := hrefs j
    by_cases hj : j = i
    · subst hj
      simp only [hself]
      simp at hj'
      omega
    · simp only [hother j hj]
      have hne : ¬ i = j := fun heq => hj heq.symm
      simp [hne] at hj'
      rw [hj']
      exact h.counted j
  · show c.lru.Pairwise _
    rw [hr.lru]
    refine h.ordered.imp fun {j k} hb hj hk => ?_
    have hne : ∀ j, (c.bufs j).refcnt = 0 → j ≠ i := fun j hzero heq => by
      rw [heq, hself] at hzero
      cases hzero
    simp only [hother j (hne j hj), hother k (hne k hk)] at hj hk
    exact hb hj hk

theorem LruInv.bget (h : LruInv s) (ht : s.bget a dev b = some (.ok t)) : LruInv t := by
  have hidle : s.cache.uses a = .idle := by
    by_contra hne
    rw [Bcache.bget, if_pos hne] at ht
    cases ht
  rw [bget_eq h hidle] at ht
  cases hc : s.cache.bget a dev b with
  | none =>
    rw [hc] at ht
    cases ht
  | some c =>
    rw [hc] at ht
    obtain rfl := Except.ok.inj (Option.some.inj ht)
    rcases bget_touch hc with ⟨i, -, -, -, htouch⟩ | ⟨i, hrec⟩
    · have hrefs := fun j => refs_update htouch.uses j
      simp only [hidle, Use.buf] at hrefs
      have hcount := h.counted i
      refine h.touch (bget_lru hc) htouch ?_ (fun hz => by cases hz) fun j hj => ?_
      · have := hrefs i
        simp at this
        show c.refs i ≤ (s.cache.bufs i).refcnt + 1
        omega
      · have hne : ¬ i = j := fun heq => hj heq.symm
        have := hrefs j
        simp [hne] at this
        omega
    · exact h.recycle hidle hrec

omit [Fintype A] in
/-- What `brelse` does to the list. -/
theorem unref_lru {c : Cache A} {i : Fin NBUF} (hu : s.cache.uses a = .releasing i)
    (hc : s.cache.unref a = some c) :
    c.lru = if (s.cache.bufs i).refcnt - 1 = 0 then i :: s.cache.lru.erase i else s.cache.lru := by
  unfold Cache.unref at hc
  rw [hu] at hc
  simp only at hc
  split at hc
  · rename_i hlast
    cases hc
    rw [if_pos hlast]
  · rename_i hmore
    cases hc
    rw [if_neg hmore]
    rfl

theorem LruInv.unref (h : LruInv s) (ht : s.unref a = some (.ok t)) : LruInv t := by
  unfold Bcache.unref at ht
  split at ht
  case h_2 => cases ht
  rename_i i c hu hc
  obtain rfl := Except.ok.inj (Option.some.inj ht)
  obtain ⟨i', hu', -, htouch⟩ := unref_touch hc
  obtain rfl : i = i' := by
    rw [hu] at hu'
    cases hu'
    rfl
  have hlru := unref_lru hu hc
  have hother : ∀ j ≠ i, c.bufs j = s.cache.bufs j := fun j hj => by
    rw [htouch.bufs, Function.update_of_ne hj]
  have hself : c.bufs i = { s.cache.bufs i with refcnt := (s.cache.bufs i).refcnt - 1 } := by
    rw [htouch.bufs, Function.update_self]
  have hkey : ∀ j, (c.bufs j).dev = (s.cache.bufs j).dev ∧
      (c.bufs j).blockno = (s.cache.bufs j).blockno := fun j => by
    by_cases hj : j = i
    · rw [hj, hself]
      exact ⟨rfl, rfl⟩
    · rw [hother j hj]
      exact ⟨rfl, rfl⟩
  -- The order among the other buffers is as before.
  have hbefore : ∀ j k, j ≠ i → k ≠ i → Before s j k →
      Before ⟨c, if (s.cache.bufs i).refcnt - 1 = 0 then s.links.moveFront i else s.links,
        s.clock + 1, Function.update s.released i (s.clock + 1)⟩ j k := by
    intro j k hj hk hb
    simp only [Before, Later, hother j hj, hother k hk, Function.update_of_ne hj,
      Function.update_of_ne hk]
    exact hb
  refine ⟨?_, fun j => htouch.listed j (h.complete j), ?_, ?_, ?_, ?_⟩
  · show Links.Linked
      (if (s.cache.bufs i).refcnt - 1 = 0 then s.links.moveFront i else s.links) c.lru
    rw [hlru]
    split
    · exact h.linked.moveFront (h.complete i)
    · exact h.linked
  · intro j k
    simp only [(hkey j).1, (hkey j).2, (hkey k).1, (hkey k).2]
    exact h.unique j k
  · intro j
    have hcount := h.counted j
    have hrefs := refs_update htouch.uses j
    rw [hu] at hrefs
    simp only [Use.buf, reduceCtorEq, if_false, Nat.add_zero] at hrefs
    by_cases hj : j = i
    · subst hj
      simp only [hself]
      simp at hrefs
      omega
    · simp only [hother j hj]
      omega
  · show c.lru.Pairwise _
    rw [hlru]
    split
    · refine List.pairwise_cons.mpr ⟨fun j hj _ _ => .inl ?_, ?_⟩
      · have hne : j ≠ i := fun heq => h.linked.nodup.not_mem_erase (heq ▸ hj)
        simp only [Function.update_of_ne hne, Function.update_self]
        exact Nat.lt_succ_of_le (h.past j)
      · refine (h.ordered.sublist List.erase_sublist).imp_of_mem fun {j k} hj hk hb => ?_
        have hji : j ≠ i := fun heq => h.linked.nodup.not_mem_erase (heq ▸ hj)
        have hki : k ≠ i := fun heq => h.linked.nodup.not_mem_erase (heq ▸ hk)
        have := hbefore j k hji hki hb
        assumption
    · rename_i hmore
      have hnot : (c.bufs i).refcnt ≠ 0 := by rw [hself]; exact hmore
      refine h.ordered.imp fun {j k} hb hj hk => ?_
      exact hbefore j k (fun heq => hnot (heq ▸ hj)) (fun heq => hnot (heq ▸ hk)) hb hj hk
  · intro j
    by_cases hj : j = i
    · subst hj
      simp only [Function.update_self]
      exact Nat.le_refl _
    · simp only [Function.update_of_ne hj]
      exact (h.past j).trans (Nat.le_succ _)

/-! ### All runs -/

omit [DecidableEq A] in
theorem lruInv_binit (d : Disk) (l : Links (Fin NBUF)) : LruInv (Bcache.binit d l : Bcache A) := by
  have hrefs : ∀ i, (Bcache.binit d l : Bcache A).cache.refs i = 0 := fun i =>
    (countAgents_eq_zero _ _).mpr fun a => by simp [Bcache.binit, Cache.binit, Use.buf]
  have hempty : ((l.setPrev none none).setNext none none).Linked [] :=
    Links.linked_nil (by simp [Links.setNext]) (by simp [Links.setNext, Links.setPrev])
  refine ⟨?_, fun i => by simp [Bcache.binit, Cache.binit], ?_, ?_, ?_, fun _ => Nat.le_refl _⟩
  · have hall := hempty.foldl_insertFront (List.nodup_finRange NBUF) (by simp)
    rw [List.append_nil] at hall
    exact hall
  · intro i j hdev
    exact absurd rfl hdev
  · intro i
    rw [hrefs]
    exact Nat.zero_le _
  · exact List.pairwise_of_forall fun i j _ _ => .inr rfl

theorem lruInv_of_reach
    (h : Reach bufCalls Respects (fun s : Bcache A => ∃ d l, s = Bcache.binit d l) s) :
    LruInv s := by
  refine h.invariant ?_ fun s x t hs hall ht => ?_
  · rintro s ⟨d, l, rfl⟩
    exact lruInv_binit d l
  · obtain ⟨a, call⟩ := x
    cases call with
    | bget dev b => exact hs.bget ht
    | inPlace f =>
      obtain ⟨c, hc, hok⟩ := Option.map_eq_some_iff.mp ht
      obtain rfl := Except.ok.inj hok
      exact hs.inPlace hall hc
    | unref => exact hs.unref ht

omit [DecidableEq A] in
/-- The buffer that a miss recycles is the last unreferenced one of the list. -/
theorem LruInv.victim (h : LruInv s) {v : Fin NBUF} (hv : s.cache.victim = some v) :
    (s.cache.bufs v).refcnt = 0 ∧
      ∀ j ≠ v, (s.cache.bufs j).refcnt = 0 → Later s j v := by
  obtain ⟨hzero, after, before, hsplit, hafter⟩ := List.find?_eq_some_iff_append.mp hv
  have hzero : (s.cache.bufs v).refcnt = 0 := by simpa using hzero
  refine ⟨hzero, fun j hj hjzero => ?_⟩
  have hlru : s.cache.lru = before.reverse ++ v :: after.reverse := by
    rw [← List.reverse_reverse s.cache.lru, hsplit]
    simp
  have hmem := h.complete j
  have hord := h.ordered
  rw [hlru] at hmem hord
  rcases List.mem_append.mp hmem with hbefore | hrest
  · exact (List.pairwise_append.mp hord).2.2 j hbefore v List.mem_cons_self hjzero hzero
  · rcases List.mem_cons.mp hrest with heq | hin
    · exact absurd heq hj
    · exact absurd hjzero (by simpa using hafter j (List.mem_reverse.mp hin))

/-- In every state that `binit` and any calls lead to: `next` goes from the head through each of
the `NBUF` buffers once and back to the head, `prev` is its inverse, no block of a device other
than 0 is cached twice, and the unreferenced buffers come in the order of their latest release,
the never released ones last. A `bget` ends; if it misses, it recycles an unreferenced buffer
that no other was released before, one that never was if there is any; and it panics only when
every buffer is referenced. -/
theorem lru_wellFormed (s : Bcache A)
    (h : Reach bufCalls Respects (fun s : Bcache A => ∃ d l, s = Bcache.binit d l) s) :
    ∃ xs : List (Fin NBUF), xs.length = NBUF ∧ xs.Nodup ∧ (∀ i, i ∈ xs) ∧
      (∀ k ≤ NBUF, s.links.next^[k + 1] none = xs[k]?) ∧
      (∀ n, s.links.prev (s.links.next n) = n ∧ s.links.next (s.links.prev n) = n) ∧
      (∀ i j, (s.cache.bufs i).dev ≠ 0 → (s.cache.bufs i).dev = (s.cache.bufs j).dev →
        (s.cache.bufs i).blockno = (s.cache.bufs j).blockno → i = j) ∧
      xs.Pairwise (Before s) ∧
      ∀ a dev b, s.cache.uses a = .idle → s.bget a dev b ≠ none ∧
        (∀ e, s.bget a dev b = some (.error e) → ∀ i, 0 < (s.cache.bufs i).refcnt) ∧
        ∀ t, s.bget a dev b = some (.ok t) →
          (∀ i, ¬ ((s.cache.bufs i).dev = dev ∧ (s.cache.bufs i).blockno = b)) →
          ∃ v, (s.cache.bufs v).refcnt = 0 ∧ t.cache.uses a = .waiting v ∧
            ((t.cache.bufs v).dev = dev ∧ (t.cache.bufs v).blockno = b) ∧
            ∀ j ≠ v, (s.cache.bufs j).refcnt = 0 → Later s j v := by
  have hinv := lruInv_of_reach h
  have hlen : s.cache.lru.length = NBUF := by
    have hall : s.cache.lru.toFinset = Finset.univ :=
      Finset.eq_univ_iff_forall.mpr fun i => List.mem_toFinset.mpr (hinv.complete i)
    rw [← List.toFinset_card_of_nodup hinv.linked.nodup, hall, Finset.card_univ, Fintype.card_fin]
  refine ⟨s.cache.lru, hlen, hinv.linked.nodup, hinv.complete, fun k hk => ?_, fun n => ?_,
    hinv.unique, hinv.ordered, fun a dev b hidle => ?_⟩
  · exact hinv.linked.iterate_next (by rw [hlen]; exact hk)
  · exact hinv.linked.inverse fun i _ => hinv.complete i
  · rw [bget_eq hinv hidle]
    cases hc : s.cache.bget a dev b with
    | none =>
      refine ⟨by simp, fun e _ i => ?_, fun t ht => by cases ht⟩
      exact Nat.pos_of_ne_zero (bget_eq_none hc i (hinv.complete i)).2
    | some c =>
      refine ⟨by simp, by simp, fun t ht hmiss => ?_⟩
      obtain rfl := Except.ok.inj (Option.some.inj ht)
      have hfind : s.cache.find dev b = none :=
        List.find?_eq_none.mpr fun i _ => by simpa using hmiss i
      rw [Cache.bget, hfind] at hc
      cases hv : s.cache.victim with
      | none =>
        rw [hv] at hc
        cases hc
      | some v =>
        rw [hv] at hc
        cases hc
        refine ⟨v, (hinv.victim hv).1, ?_, ?_, (hinv.victim hv).2⟩
        · simp [Cache.setUse]
        · simp [Cache.setUse, Cache.setBuf]

/-- A cache for one caller, which reads a block and releases it. -/
def oneCaller : Bcache Unit := Bcache.binit (fun _ => Lib.Bytes.zero BSIZE) ⟨id, id⟩

def readAndRelease : List (Unit × BufCall) :=
  [((), .bget 1 7), ((), .inPlace .acquiresleep), ((), .inPlace .fill),
    ((), .inPlace .releasesleep), ((), .unref)]

theorem lru_wellFormed_released : ∃ s, Lib.exec bufCalls oneCaller readAndRelease = some (.ok s) ∧
    s.links.next none = some ⟨0, by decide⟩ ∧
      ∃ xs : List (Fin NBUF), xs.Nodup ∧ xs.Pairwise (Before s) := by
  obtain ⟨s, hs, hfirst⟩ := ends_iff.mp (by decide +kernel :
    ends (Lib.exec bufCalls oneCaller readAndRelease)
      (fun s => decide (s.links.next none = some ⟨0, by decide⟩)) = true)
  have hreach : Reach bufCalls Respects (fun s : Bcache Unit => ∃ d l, s = Bcache.binit d l) s := by
    refine reach_of_exec (.start ⟨_, _, rfl⟩) (fun x hx t => ?_) hs
    intro hun
    simp only [readAndRelease, List.mem_cons, List.not_mem_nil, or_false] at hx
    rcases hx with rfl | rfl | rfl | rfl | rfl
    all_goals cases hun
  obtain ⟨xs, -, hnodup, -, -, -, -, hord, -⟩ := lru_wellFormed s hreach
  exact ⟨s, hs, of_decide_eq_true hfirst, xs, hnodup, hord⟩

end Xv6.Proofs.Cache
