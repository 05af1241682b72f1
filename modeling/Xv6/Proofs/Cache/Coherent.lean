import Xv6.Proofs.Cache.Touch

/-!
# `Xv6.Proofs.Cache.Coherent`: the cache shows a flat block store

`Coherent c dev pinned pending store` relates the cache to a flat store, one content for
each block. The blocks of `pinned` are those whose buffer the log holds a reference to. The
blocks of `pending`, some of the pinned ones, are those whose latest contents are not on the
disk yet. A buffer that nobody has changed since it was last written shows the store; the
disk shows the store for every block that is not pending; and the reference counts are exact.

`Coherent.touch` proves once that a step on one buffer keeps the relation, from what the step
does to that buffer. `Coherent.recycle` does the same for a `bget` that misses. The functions
of the cache are instances.
-/

set_option autoImplicit false

namespace Xv6.Proofs.Cache

open Xv6.Lib
open Xv6.Kernel

variable {A : Type} [Fintype A]

/-- The log's share in the reference count of buffer `i`. -/
def pinCount (c : Cache A) (dev : Nat) (pinned : List Nat) (i : Fin NBUF) : Nat :=
  if (c.bufs i).dev = dev ∧ (c.bufs i).blockno ∈ pinned then 1 else 0

/-- The cache shows the flat store `store` of the device `dev`. -/
structure Coherent (c : Cache A) (dev : Nat) (pinned pending : List Nat) (store : Disk) :
    Prop where
  listed : ∀ i, i ∈ c.lru
  unique : ∀ i j, (c.bufs i).dev = dev → (c.bufs j).dev = dev →
    (c.bufs i).blockno = (c.bufs j).blockno → i = j
  counted : ∀ i, (c.bufs i).refcnt = c.refs i + pinCount c dev pinned i
  cached : ∀ b ∈ pinned, ∃ i, (c.bufs i).dev = dev ∧ (c.bufs i).blockno = b ∧
    (c.bufs i).valid = true
  locks : ∀ i a, (c.bufs i).lock = some a ↔ (c.uses a).owns = some i
  devs : ∀ a i, (c.uses a).buf = some i → (c.bufs i).dev = dev
  filled : ∀ a i d, c.uses a = .held i d → (c.bufs i).valid = true
  clean : ∀ i, (c.bufs i).dev = dev → (c.bufs i).valid = true →
    (∀ a, c.uses a ≠ .held i true) → (c.bufs i).data = store (c.bufs i).blockno
  pending_pinned : ∀ b ∈ pending, b ∈ pinned
  durable : ∀ b, b ∉ pending → c.disk b = store b

variable {i : Fin NBUF}

theorem owns_buf {u : Use} (h : u.owns = some i) : u.buf = some i := by
  cases u <;> simp_all [Use.owns, Use.buf]

variable {a : A}

section Facts

variable {c : Cache A} {dev : Nat} {pinned pending : List Nat} {store : Disk}

/-- Only the agent that owns a buffer's lock can have changed it. -/
theorem Coherent.dirty_owner (h : Coherent c dev pinned pending store) {a' : A}
    (ha : (c.uses a).owns = some i) (hne : a' ≠ a) (d : Bool) :
    c.uses a' ≠ .held i d := by
  intro hd
  have hlock : (c.bufs i).lock = some a' := (h.locks i a').mpr (by rw [hd]; rfl)
  rw [(h.locks i a).mpr ha] at hlock
  exact hne (Option.some.inj hlock).symm

/-- A buffer that an agent refers to has a reference. -/
theorem Coherent.refcnt_pos (h : Coherent c dev pinned pending store)
    (ha : (c.uses a).buf = some i) : (c.bufs i).refcnt ≠ 0 := by
  have hpos : 0 < c.refs i := (countAgents_pos _ _).mpr ⟨a, ha⟩
  rw [h.counted i]
  omega

/-- A pinned buffer has a reference. -/
theorem Coherent.refcnt_pos_of_pinned (h : Coherent c dev pinned pending store)
    (hd : (c.bufs i).dev = dev) (hb : (c.bufs i).blockno ∈ pinned) : (c.bufs i).refcnt ≠ 0 := by
  rw [h.counted i, pinCount, if_pos ⟨hd, hb⟩]
  omega

/-- A buffer without references is used by nobody and not pinned. -/
theorem Coherent.unused (h : Coherent c dev pinned pending store) (hzero : (c.bufs i).refcnt = 0) :
    (∀ a, (c.uses a).buf ≠ some i) ∧ ((c.bufs i).dev = dev → (c.bufs i).blockno ∉ pinned) :=
  ⟨fun _ ha => h.refcnt_pos ha hzero, fun hd hb => h.refcnt_pos_of_pinned hd hb hzero⟩

/-- A pinned buffer is valid. -/
theorem Coherent.valid_of_pinned (h : Coherent c dev pinned pending store)
    (hdev : (c.bufs i).dev = dev) (hp : (c.bufs i).blockno ∈ pinned) :
    (c.bufs i).valid = true := by
  obtain ⟨j, hjd, hjb, hjv⟩ := h.cached _ hp
  rw [← h.unique j i hjd hdev hjb]
  exact hjv

/-- What `bread` returns: an agent that has not changed its buffer sees the store. -/
theorem Coherent.held_clean (h : Coherent c dev pinned pending store)
    (ha : c.uses a = .held i false) : (c.bufs i).data = store (c.bufs i).blockno := by
  apply h.clean i (h.devs a i (by rw [ha]; rfl)) (h.filled a i false ha)
  intro a'
  by_cases hne : a' = a
  · rw [hne, ha]
    simp
  · exact h.dirty_owner (by rw [ha]; rfl) hne true

/-- The pinned blocks take a buffer each, so a buffer for another block leaves fewer than
`NBUF` of them. -/
theorem Coherent.pinned_lt (h : Coherent c dev pinned pending store) (hnodup : pinned.Nodup)
    (hb : (c.bufs i).blockno ∉ pinned) : pinned.length < NBUF := by
  have hsub : ((c.bufs i).blockno :: pinned).toFinset
      ⊆ Finset.univ.image fun j => (c.bufs j).blockno := by
    intro x hx
    rw [List.mem_toFinset] at hx
    rcases List.mem_cons.mp hx with rfl | hp
    · exact Finset.mem_image_of_mem _ (Finset.mem_univ i)
    · obtain ⟨j, -, hjb, -⟩ := h.cached x hp
      exact Finset.mem_image.mpr ⟨j, Finset.mem_univ j, hjb⟩
  have hcard := Finset.card_le_card hsub
  rw [List.toFinset_card_of_nodup (List.nodup_cons.mpr ⟨hb, hnodup⟩), List.length_cons] at hcard
  have hle := @Finset.card_image_le _ _ Finset.univ (fun j => (c.bufs j).blockno) _
  rw [Finset.card_univ, Fintype.card_fin] at hle
  omega

/-- When nobody uses a buffer and yet every buffer is referenced, each is pinned. -/
theorem Coherent.le_pinned (h : Coherent c dev pinned pending store)
    (hidle : ∀ a, c.uses a = .idle) (hfull : ∀ i, (c.bufs i).refcnt ≠ 0) :
    NBUF ≤ pinned.length := by
  have hpinned : ∀ i, (c.bufs i).dev = dev ∧ (c.bufs i).blockno ∈ pinned := by
    intro i
    by_contra hnot
    have hrefs : c.refs i = 0 := (countAgents_eq_zero _ _).mpr fun a => by
      rw [hidle a]
      simp [Use.buf]
    have hcount := h.counted i
    rw [hrefs, pinCount, if_neg hnot] at hcount
    exact hfull i hcount
  have hinj : Function.Injective fun i => (c.bufs i).blockno := fun i j hij =>
    h.unique i j (hpinned i).1 (hpinned j).1 hij
  have hsub : (Finset.univ.image fun i => (c.bufs i).blockno) ⊆ pinned.toFinset := by
    intro x hx
    obtain ⟨i, -, rfl⟩ := Finset.mem_image.mp hx
    exact List.mem_toFinset.mpr (hpinned i).2
  have hcard := Finset.card_le_card hsub
  rw [Finset.card_image_of_injective _ hinj, Finset.card_univ, Fintype.card_fin] at hcard
  exact hcard.trans (List.toFinset_card_le pinned)

/-- With `NBUF` pinned blocks every buffer is pinned. -/
theorem Coherent.all_pinned (h : Coherent c dev pinned pending store) (hnodup : pinned.Nodup)
    (hlen : NBUF ≤ pinned.length) (i : Fin NBUF) :
    (c.bufs i).dev = dev ∧ (c.bufs i).blockno ∈ pinned := by
  have hsub : pinned.toFinset ⊆ (Finset.univ.filter fun j =>
      (c.bufs j).dev = dev ∧ (c.bufs j).blockno ∈ pinned).image fun j => (c.bufs j).blockno := by
    intro x hx
    rw [List.mem_toFinset] at hx
    obtain ⟨j, hjd, hjb, -⟩ := h.cached x hx
    exact Finset.mem_image.mpr ⟨j, Finset.mem_filter.mpr ⟨Finset.mem_univ j, hjd, hjb ▸ hx⟩, hjb⟩
  have hcard := (Finset.card_le_card hsub).trans Finset.card_image_le
  rw [List.toFinset_card_of_nodup hnodup] at hcard
  have huniv := Finset.eq_of_subset_of_card_le (Finset.subset_univ (Finset.univ.filter fun j =>
      (c.bufs j).dev = dev ∧ (c.bufs j).blockno ∈ pinned))
    (by rw [Finset.card_univ, Fintype.card_fin]; exact hlen.trans hcard)
  have hi := Finset.mem_univ i
  rw [← huniv, Finset.mem_filter] at hi
  exact hi.2

end Facts

/-- After `binit` the cache shows the disk. -/
theorem coherent_binit {dev : Nat} (hdev : dev ≠ 0) (d : Disk) :
    Coherent (Cache.binit d : Cache A) dev [] [] d := by
  have hrefs : ∀ i, (Cache.binit d : Cache A).refs i = 0 := fun i =>
    (countAgents_eq_zero _ _).mpr fun a => by simp [Cache.binit, Use.buf]
  refine ⟨?_, ?_, ?_, by simp, ?_, ?_, ?_, ?_, by simp, fun _ _ => rfl⟩
  · intro i
    simp [Cache.binit]
  · intro i j hi
    exact absurd hi.symm hdev
  · intro i
    rw [hrefs i]
    simp [Cache.binit, pinCount]
  · intro i a
    simp [Cache.binit, Use.owns]
  · intro a i h
    simp [Cache.binit, Use.buf] at h
  · intro a i d h
    simp [Cache.binit] at h
  · intro i hi
    exact absurd hi.symm hdev

/-! ### A step on one buffer -/

variable [DecidableEq A]

/-- The reference counts after the agent `a` moved to `u`. -/
theorem refs_update {c c' : Cache A} {u : Use} (huses : c'.uses = Function.update c.uses a u)
    (j : Fin NBUF) :
    c'.refs j + (if (c.uses a).buf = some j then 1 else 0)
      = c.refs j + (if u.buf = some j then 1 else 0) := by
  have h := countAgents_update c.uses (fun u => u.buf = some j) a u
  rw [← huses] at h
  exact h

/-- How a step on buffer `i` may change its lock: not at all, from free to held by `a`, or
from held by `a` to free. -/
def LockMove (c : Cache A) (a : A) (i : Fin NBUF) (b : Buf A) (u : Use) : Prop :=
  (b.lock = (c.bufs i).lock ∧ u.owns = (c.uses a).owns) ∨
  ((c.bufs i).lock = none ∧ b.lock = some a ∧ u.owns = some i) ∨
  ((c.uses a).owns = some i ∧ b.lock = none ∧ u.owns = none)

section Touch

variable {c c' : Cache A} {dev : Nat} {pinned pending pinned' pending' : List Nat}
  {store store' : Disk} {a : A} {i : Fin NBUF} {b : Buf A} {u : Use}

theorem locks_touch (h : Coherent c dev pinned pending store) (t : Touch c c' a i b u)
    (hlock : LockMove c a i b u) (hown : (c.uses a).owns = none ∨ (c.uses a).owns = some i)
    (j : Fin NBUF) (a' : A) : (c'.bufs j).lock = some a' ↔ (c'.uses a').owns = some j := by
  rw [t.bufs, t.uses]
  by_cases hj : j = i
  · subst hj
    rw [Function.update_self]
    by_cases ha : a' = a
    · subst ha
      rw [Function.update_self]
      rcases hlock with ⟨h₁, h₂⟩ | ⟨-, h₂, h₃⟩ | ⟨-, h₂, h₃⟩
      · rw [h₁, h₂]
        exact h.locks j a'
      · simp [h₂, h₃]
      · simp [h₂, h₃]
    · rw [Function.update_of_ne ha]
      rcases hlock with ⟨h₁, -⟩ | ⟨h₁, h₂, -⟩ | ⟨h₁, h₂, -⟩
      · rw [h₁]
        exact h.locks j a'
      · -- Nobody owned the free lock, and only `a` owns it now.
        have hnot : (c.uses a').owns ≠ some j := fun ho => by
          rw [← h.locks j a', h₁] at ho
          cases ho
        simp [h₂, hnot, Ne.symm ha]
      · have hnot : (c.uses a').owns ≠ some j := fun ho => by
          rw [← h.locks j a', (h.locks j a).mpr h₁] at ho
          exact ha (Option.some.inj ho).symm
        simp [h₂, hnot]
  · rw [Function.update_of_ne hj]
    by_cases ha : a' = a
    · subst ha
      rw [Function.update_self, h.locks j a']
      -- The agent owns no buffer but `i`, before and after.
      have hbefore : (c.uses a').owns ≠ some j := by
        rcases hown with ho | ho <;> simp [ho, Ne.symm hj]
      have hafter : u.owns ≠ some j := by
        rcases hlock with ⟨-, h₂⟩ | ⟨-, -, h₃⟩ | ⟨-, -, h₃⟩
        · rw [h₂]
          exact hbefore
        · simp [h₃, Ne.symm hj]
        · simp [h₃]
      simp [hbefore, hafter]
    · rw [Function.update_of_ne ha]
      exact h.locks j a'

/-- A step on one buffer keeps the relation, when the count, the lock and the contents of
that buffer agree with what the step does to the log's pins and to the store. -/
theorem Coherent.touch (h : Coherent c dev pinned pending store) (t : Touch c c' a i b u)
    (hbuf : (c.uses a).buf = none ∨ (c.uses a).buf = some i)
    (hbuf' : u.buf = none ∨ u.buf = some i) (hdev : (c.bufs i).dev = dev)
    (hcount : b.refcnt + (if (c.uses a).buf = some i then 1 else 0)
        + (if (c.bufs i).blockno ∈ pinned then 1 else 0)
      = (c.bufs i).refcnt + (if u.buf = some i then 1 else 0)
        + (if (c.bufs i).blockno ∈ pinned' then 1 else 0))
    (hlock : LockMove c a i b u)
    (hvalid : (c.bufs i).valid = true → b.valid = true)
    (hfill : ∀ d, u = .held i d → b.valid = true)
    (hclean : b.valid = true → u ≠ .held i true → (∀ a', a' ≠ a → c.uses a' ≠ .held i true) →
      b.data = store' (c.bufs i).blockno)
    (hpin : ∀ x, x ≠ (c.bufs i).blockno → (x ∈ pinned' ↔ x ∈ pinned))
    (hpinned : (c.bufs i).blockno ∈ pinned' → b.valid = true)
    (hpend : ∀ x, x ≠ (c.bufs i).blockno → (x ∈ pending' ↔ x ∈ pending))
    (hsub : ∀ x ∈ pending', x ∈ pinned')
    (hstore : ∀ x, x ≠ (c.bufs i).blockno → store' x = store x)
    (hdisk : ∀ x, x ≠ (c.bufs i).blockno → c'.disk x = c.disk x)
    (hhome : (c.bufs i).blockno ∉ pending' →
      c'.disk (c.bufs i).blockno = store' (c.bufs i).blockno) :
    Coherent c' dev pinned' pending' store' := by
  have hi : c'.bufs i = b := by rw [t.bufs, Function.update_self]
  have hne : ∀ j, j ≠ i → c'.bufs j = c.bufs j := fun j hj => by
    rw [t.bufs, Function.update_of_ne hj]
  have hself : c'.uses a = u := by rw [t.uses, Function.update_self]
  have hother : ∀ a', a' ≠ a → c'.uses a' = c.uses a' := fun a' ha' => by
    rw [t.uses, Function.update_of_ne ha']
  -- Every buffer still stands for the same block.
  have hsamedev : ∀ j, (c'.bufs j).dev = (c.bufs j).dev := fun j => by
    by_cases hj : j = i
    · rw [hj, hi, t.dev]
    · rw [hne j hj]
  have hsameblock : ∀ j, (c'.bufs j).blockno = (c.bufs j).blockno := fun j => by
    by_cases hj : j = i
    · rw [hj, hi, t.blockno]
    · rw [hne j hj]
  -- Another buffer of the device stands for another block.
  have hdistinct : ∀ j, j ≠ i → (c.bufs j).dev = dev →
      (c.bufs j).blockno ≠ (c.bufs i).blockno := fun j hj hjd hb => hj (h.unique j i hjd hdev hb)
  have hown : (c.uses a).owns = none ∨ (c.uses a).owns = some i := by
    cases ho : (c.uses a).owns with
    | none => exact Or.inl rfl
    | some j =>
      have hb := owns_buf ho
      rcases hbuf with hn | hs
      · rw [hn] at hb
        cases hb
      · rw [hs] at hb
        exact Or.inr hb.symm
  refine ⟨fun j => t.listed j (h.listed j), ?_, ?_, ?_, locks_touch h t hlock hown, ?_, ?_, ?_,
    hsub, ?_⟩
  · intro j k
    rw [hsamedev, hsamedev, hsameblock, hsameblock]
    exact h.unique j k
  · intro j
    have hrefs := refs_update t.uses j
    have hold := h.counted j
    unfold pinCount at hold ⊢
    rw [hsamedev, hsameblock]
    by_cases hj : j = i
    · subst hj
      rw [hi]
      simp only [hdev, true_and] at hold ⊢
      omega
    · rw [hne j hj]
      have hzero : ∀ v : Option (Fin NBUF), v = none ∨ v = some i → v ≠ some j := by
        rintro v (rfl | rfl)
        · simp
        · simpa using Ne.symm hj
      rw [if_neg (hzero _ hbuf), if_neg (hzero _ hbuf')] at hrefs
      have hsame : ((c.bufs j).dev = dev ∧ (c.bufs j).blockno ∈ pinned')
          ↔ ((c.bufs j).dev = dev ∧ (c.bufs j).blockno ∈ pinned) :=
        and_congr_right fun hjd => hpin _ (hdistinct j hj hjd)
      simp only [hsame]
      omega
  · intro x hx
    by_cases hxi : x = (c.bufs i).blockno
    · subst hxi
      exact ⟨i, by rw [hsamedev, hdev], hsameblock i, by rw [hi]; exact hpinned hx⟩
    · obtain ⟨j, hjd, hjb, hjv⟩ := h.cached x ((hpin x hxi).mp hx)
      refine ⟨j, by rw [hsamedev, hjd], by rw [hsameblock, hjb], ?_⟩
      by_cases hj : j = i
      · subst hj
        rw [hi]
        exact hvalid hjv
      · rw [hne j hj]
        exact hjv
  · intro a' j hj
    rw [hsamedev]
    by_cases ha : a' = a
    · subst ha
      rw [hself] at hj
      rcases hbuf' with hn | hs
      · rw [hn] at hj
        cases hj
      · rw [hs] at hj
        cases hj
        exact hdev
    · rw [hother a' ha] at hj
      exact h.devs a' j hj
  · intro a' j d hj
    by_cases hji : j = i
    · subst hji
      rw [hi]
      by_cases ha : a' = a
      · subst ha
        exact hfill d (by rw [← hself, hj])
      · rw [hother a' ha] at hj
        exact hvalid (h.filled a' j d hj)
    · rw [hne j hji]
      by_cases ha : a' = a
      · -- The agent itself uses no buffer but `i`.
        subst ha
        rw [hself] at hj
        subst hj
        rcases hbuf' with hn | hs
        · cases hn
        · cases hs
          exact absurd rfl hji
      · rw [hother a' ha] at hj
        exact h.filled a' j d hj
  · intro j hjd hjv hjc
    rw [hsameblock]
    by_cases hji : j = i
    · subst hji
      rw [hi] at hjv ⊢
      refine hclean hjv ?_ ?_
      · rw [← hself]
        exact hjc a
      · intro a' ha'
        rw [← hother a' ha']
        exact hjc a'
    · rw [hsamedev] at hjd
      rw [hne j hji] at hjv ⊢
      rw [hstore _ (hdistinct j hji hjd)]
      apply h.clean j hjd hjv
      intro a' ha'
      by_cases ha : a' = a
      · subst ha
        rw [ha'] at hbuf
        rcases hbuf with hn | hs
        · cases hn
        · cases hs
          exact absurd rfl hji
      · exact hjc a' (by rw [hother a' ha, ha'])
  · intro x hx
    by_cases hxi : x = (c.bufs i).blockno
    · subst hxi
      exact hhome hx
    · rw [hdisk x hxi, hstore x hxi]
      exact h.durable x (fun hp => hx ((hpend x hxi).mpr hp))

/-- A step on one buffer that leaves its contents, the disk, the pins and the store alone. -/
theorem Coherent.touch_same (h : Coherent c dev pinned pending store) (t : Touch c c' a i b u)
    (hbuf : (c.uses a).buf = none ∨ (c.uses a).buf = some i)
    (hbuf' : u.buf = none ∨ u.buf = some i) (hdev : (c.bufs i).dev = dev)
    (hcount : b.refcnt + (if (c.uses a).buf = some i then 1 else 0)
      = (c.bufs i).refcnt + (if u.buf = some i then 1 else 0))
    (hlock : LockMove c a i b u) (hvalid : b.valid = (c.bufs i).valid)
    (hdata : b.data = (c.bufs i).data) (hdisk : c'.disk = c.disk)
    (hfill : ∀ d, u = .held i d → (c.bufs i).valid = true)
    (hdirty : c.uses a = .held i true → u = .held i true) :
    Coherent c' dev pinned pending store := by
  refine h.touch t hbuf hbuf' hdev (by omega) hlock (fun hv => by rw [hvalid, hv])
    (fun d hd => by rw [hvalid]; exact hfill d hd) ?_ (fun _ _ => Iff.rfl) ?_
    (fun _ _ => Iff.rfl) h.pending_pinned (fun _ _ => rfl) (fun _ _ => by rw [hdisk]) ?_
  · intro hv hu hothers
    rw [hdata]
    refine h.clean i hdev (hvalid ▸ hv) fun a' => ?_
    by_cases ha : a' = a
    · rw [ha]
      exact fun hd => hu (hdirty hd)
    · exact hothers a' ha
  · intro hp
    rw [hvalid]
    exact h.valid_of_pinned hdev hp
  · intro hp
    rw [hdisk]
    exact h.durable _ hp

end Touch

variable {x : Nat}

/-- A `bget` that misses keeps the relation: the recycled buffer was used by nobody and not
pinned, and the block was cached nowhere. -/
theorem Coherent.recycle {c c' : Cache A} {dev : Nat} {pinned pending : List Nat} {store : Disk}
    (h : Coherent c dev pinned pending store) (r : Recycle c c' a i dev x)
    (hidle : c.uses a = .idle) :
    Coherent c' dev pinned pending store := by
  obtain ⟨hnobody, hnotpinned⟩ := h.unused r.unused
  have hi : c'.bufs i = { c.bufs i with dev := dev, blockno := x, valid := false, refcnt := 1 } := by
    rw [r.bufs, Function.update_self]
  have hne : ∀ j, j ≠ i → c'.bufs j = c.bufs j := fun j hj => by
    rw [r.bufs, Function.update_of_ne hj]
  have hself : c'.uses a = .waiting i := by rw [r.uses, Function.update_self]
  have hother : ∀ a', a' ≠ a → c'.uses a' = c.uses a' := fun a' ha' => by
    rw [r.uses, Function.update_of_ne ha']
  have hmissing : ∀ j, (c.bufs j).dev = dev → (c.bufs j).blockno ≠ x := fun j hjd hjb =>
    r.missing j (h.listed j) ⟨hjd, hjb⟩
  -- The new block is not pinned: a pinned block is cached.
  have hx : x ∉ pinned := fun hp => by
    obtain ⟨j, hjd, hjb, -⟩ := h.cached x hp
    exact hmissing j hjd hjb
  refine ⟨?_, ?_, ?_, ?_, ?_, ?_, ?_, ?_, h.pending_pinned, ?_⟩
  · intro j
    rw [r.lru]
    exact h.listed j
  · intro j k hjd hkd hb
    by_cases hj : j = i
    · by_cases hk : k = i
      · rw [hj, hk]
      · subst hj
        rw [hne k hk] at hkd hb
        rw [hi] at hb
        exact absurd hb.symm (hmissing k hkd)
    · by_cases hk : k = i
      · subst hk
        rw [hne j hj] at hjd hb
        rw [hi] at hb
        exact absurd hb (hmissing j hjd)
      · rw [hne j hj] at hjd hb
        rw [hne k hk] at hkd hb
        exact h.unique j k hjd hkd hb
  · intro j
    have hrefs : c'.refs j = c.refs j + (if i = j then 1 else 0) := by
      have hupd := refs_update r.uses j
      rw [hidle] at hupd
      simpa [Use.buf] using hupd
    have hold := h.counted j
    unfold pinCount at *
    by_cases hj : j = i
    · subst hj
      rw [r.unused] at hold
      rw [hi]
      simp only [hx, and_false, if_false]
      simp only [if_true] at hrefs
      omega
    · rw [hne j hj]
      rw [if_neg (Ne.symm hj)] at hrefs
      omega
  · intro y hy
    obtain ⟨j, hjd, hjb, hjv⟩ := h.cached y hy
    have hj : j ≠ i := by
      rintro rfl
      exact hnotpinned hjd (hjb ▸ hy)
    exact ⟨j, by rw [hne j hj]; exact ⟨hjd, hjb, hjv⟩⟩
  · intro j a'
    have hlock : (c'.bufs j).lock = (c.bufs j).lock := by
      by_cases hj : j = i
      · rw [hj, hi]
      · rw [hne j hj]
    rw [hlock, h.locks j a']
    by_cases ha : a' = a
    · rw [ha, hself, hidle]
      simp [Use.owns]
    · rw [hother a' ha]
  · intro a' j hj
    by_cases ha : a' = a
    · rw [ha, hself] at hj
      cases hj
      rw [hi]
    · rw [hother a' ha] at hj
      have hji : j ≠ i := by
        rintro rfl
        exact hnobody a' hj
      rw [hne j hji]
      exact h.devs a' j hj
  · intro a' j d hj
    by_cases ha : a' = a
    · rw [ha, hself] at hj
      cases hj
    · rw [hother a' ha] at hj
      have hji : j ≠ i := by
        rintro rfl
        exact hnobody a' (by rw [hj]; rfl)
      rw [hne j hji]
      exact h.filled a' j d hj
  · intro j hjd hjv hjc
    have hji : j ≠ i := by
      rintro rfl
      rw [hi] at hjv
      cases hjv
    rw [hne j hji] at hjd hjv ⊢
    apply h.clean j hjd hjv
    intro a' ha'
    by_cases ha : a' = a
    · rw [ha, hidle] at ha'
      cases ha'
    · exact hjc a' (by rw [hother a' ha, ha'])
  · intro y hy
    rw [r.disk]
    exact h.durable y hy

/-! ### The functions of the cache -/

section Functions

variable {c c' : Cache A} {dev : Nat} {pinned pending : List Nat} {store : Disk} {a : A}

theorem Coherent.bget (h : Coherent c dev pinned pending store) (hidle : c.uses a = .idle)
    (hc : c.bget a dev x = some c') :
    Coherent c' dev pinned pending store := by
  rcases bget_touch hc with ⟨i, hdev, -, hdisk, t⟩ | ⟨i, r⟩
  · refine h.touch_same t (Or.inl (by rw [hidle]; rfl)) (Or.inr rfl) hdev ?_ ?_ rfl rfl hdisk ?_ ?_
    · simp [hidle, Use.buf]
    · exact Or.inl ⟨rfl, by rw [hidle]; rfl⟩
    · intro d hd
      cases hd
    · intro hd
      rw [hidle] at hd
      cases hd
  · exact h.recycle r hidle

theorem Coherent.acquiresleep (h : Coherent c dev pinned pending store)
    (hc : c.acquiresleep a = some c') : Coherent c' dev pinned pending store := by
  obtain ⟨i, hu, hlock, hdisk, t⟩ := acquiresleep_touch hc
  have hbuf : (c.uses a).buf = some i := by rw [hu]; rfl
  refine h.touch_same t (Or.inr hbuf) (Or.inr rfl) (h.devs a i hbuf) ?_ ?_ rfl rfl hdisk ?_ ?_
  · simp [hu, Use.buf]
  · exact Or.inr (Or.inl ⟨hlock, rfl, rfl⟩)
  · intro d hd
    cases hd
  · intro hd
    rw [hu] at hd
    cases hd

/-- `bread` reads a block from the disk only when it is not pinned, so the disk shows the
store there. -/
theorem Coherent.fill (h : Coherent c dev pinned pending store) (hc : c.fill a = some c') :
    Coherent c' dev pinned pending store := by
  obtain ⟨i, b, hu, hdisk, t, hb⟩ := fill_touch hc
  have hbuf : (c.uses a).buf = some i := by rw [hu]; rfl
  have hown : (c.uses a).owns = some i := by rw [hu]; rfl
  have hdev := h.devs a i hbuf
  have hlock : LockMove c a i b (.held i false) := by
    rcases hb with ⟨-, rfl⟩ | ⟨-, rfl⟩ <;> exact Or.inl ⟨rfl, by rw [hown]; rfl⟩
  rcases hb with ⟨hv, rfl⟩ | ⟨hv, rfl⟩
  · refine h.touch_same t (Or.inr hbuf) (Or.inr rfl) hdev ?_ hlock rfl rfl hdisk (fun _ _ => hv) ?_
    · simp [hu, Use.buf]
    · intro hd
      rw [hu] at hd
      cases hd
  · refine h.touch t (Or.inr hbuf) (Or.inr rfl) hdev ?_ hlock (fun _ => rfl) (fun _ _ => rfl) ?_
      (fun _ _ => Iff.rfl) (fun _ => rfl) (fun _ _ => Iff.rfl) h.pending_pinned
      (fun _ _ => rfl) (fun _ _ => by rw [hdisk]) ?_
    · simp [hu, Use.buf]
    · intro _ _ _
      -- An invalid buffer is not pinned.
      apply h.durable
      intro hp
      rw [h.valid_of_pinned hdev (h.pending_pinned _ hp)] at hv
      cases hv
    · intro hp
      rw [hdisk]
      exact h.durable _ hp

theorem Coherent.modify (h : Coherent c dev pinned pending store) {x : Block}
    (hc : c.modify a x = some c') : Coherent c' dev pinned pending store := by
  obtain ⟨i, d, hu, hdisk, t⟩ := modify_touch hc
  have hbuf : (c.uses a).buf = some i := by rw [hu]; rfl
  have hdev := h.devs a i hbuf
  have hvalid := h.filled a i d hu
  refine h.touch t (Or.inr hbuf) (Or.inr rfl) hdev ?_ ?_ (fun hv => hv) (fun _ _ => hvalid) ?_
    (fun _ _ => Iff.rfl) (fun _ => hvalid) (fun _ _ => Iff.rfl) h.pending_pinned
    (fun _ _ => rfl) (fun _ _ => by rw [hdisk]) ?_
  · simp [hu, Use.buf]
  · exact Or.inl ⟨rfl, by rw [hu]; rfl⟩
  · intro _ hne
    exact absurd rfl hne
  · intro hp
    rw [hdisk]
    exact h.durable _ hp

variable {d : Bool}

/-- A caller's `bwrite` makes its contents the latest ones, in the store and on the disk. The
blocks of `gone` stop being pending with it. -/
theorem Coherent.bwrite (h : Coherent c dev pinned pending store) {pending' : List Nat}
    (hu : c.uses a = .held i d) (hc : c.bwrite a = some c')
    (hpend : ∀ x, x ≠ (c.bufs i).blockno → (x ∈ pending' ↔ x ∈ pending))
    (hsub : ∀ x ∈ pending', x ∈ pending) :
    Coherent c' dev pinned pending'
      (Function.update store (c.bufs i).blockno (c.bufs i).data) := by
  obtain ⟨i', d', hu', hdisk, t⟩ := bwrite_touch hc
  obtain ⟨rfl, rfl⟩ : i' = i ∧ d' = d := by
    rw [hu] at hu'
    cases hu'
    exact ⟨rfl, rfl⟩
  have hbuf : (c.uses a).buf = some i' := by rw [hu]; rfl
  have hdev := h.devs a i' hbuf
  have hvalid := h.filled a i' d' hu
  refine h.touch t (Or.inr hbuf) (Or.inr rfl) hdev ?_ ?_ (fun hv => hv) (fun _ _ => hvalid) ?_
    (fun _ _ => Iff.rfl) (fun _ => hvalid) hpend (fun x hx => h.pending_pinned x (hsub x hx))
    (fun x hx => Function.update_of_ne hx _ _) (fun x hx => ?_) ?_
  · simp [hu, Use.buf]
  · exact Or.inl ⟨rfl, by rw [hu]; rfl⟩
  · intro _ _ _
    rw [Function.update_self]
  · rw [hdisk, Function.update_of_ne hx]
  · intro _
    rw [hdisk, Function.update_self, Function.update_self]

/-- `log_write` of a block that is logged already: only the store changes. -/
theorem Coherent.absorb (h : Coherent c dev pinned pending store) (hu : c.uses a = .held i d)
    (hmem : (c.bufs i).blockno ∈ pending) :
    Coherent (c.setUse a (.held i false)) dev pinned pending
      (Function.update store (c.bufs i).blockno (c.bufs i).data) := by
  have t : Touch c (c.setUse a (.held i false)) a i (c.bufs i) (.held i false) := setUse_touch
  have hbuf : (c.uses a).buf = some i := by rw [hu]; rfl
  have hdev := h.devs a i hbuf
  have hvalid := h.filled a i d hu
  refine h.touch t (Or.inr hbuf) (Or.inr rfl) hdev ?_ ?_ (fun hv => hv) (fun _ _ => hvalid) ?_
    (fun _ _ => Iff.rfl) (fun _ => hvalid) (fun _ _ => Iff.rfl) h.pending_pinned
    (fun x hx => Function.update_of_ne hx _ _) (fun _ _ => rfl) (fun hp => absurd hmem hp)
  · simp [hu, Use.buf]
  · exact Or.inl ⟨rfl, by rw [hu]; rfl⟩
  · intro _ _ _
    rw [Function.update_self]

/-- `log_write` of a new block: the store changes, and the log takes its own reference. -/
theorem Coherent.pin (h : Coherent c dev pinned pending store) (hu : c.uses a = .held i d)
    (hnew : (c.bufs i).blockno ∉ pinned) (hc : (c.setUse a (.held i false)).bpin a = some c') :
    Coherent c' dev (pinned ++ [(c.bufs i).blockno]) (pending ++ [(c.bufs i).blockno])
      (Function.update store (c.bufs i).blockno (c.bufs i).data) := by
  obtain ⟨hdisk, t⟩ := bpin_touch hc
  have hbuf : (c.uses a).buf = some i := by rw [hu]; rfl
  have hdev := h.devs a i hbuf
  have hvalid := h.filled a i d hu
  refine h.touch t (Or.inr hbuf) (Or.inr rfl) hdev ?_ ?_ (fun hv => hv) (fun _ _ => hvalid) ?_
    ?_ (fun _ => hvalid) ?_ ?_ (fun x hx => Function.update_of_ne hx _ _)
    (fun _ _ => by rw [hdisk]) (fun hp => absurd (by simp) hp)
  · simp [hu, Use.buf, hnew]
  · exact Or.inl ⟨rfl, by rw [hu]; rfl⟩
  · intro _ _ _
    rw [Function.update_self]
  · intro x hx
    simp [hx]
  · intro x hx
    simp [hx]
  · intro x hx
    rcases List.mem_append.mp hx with hp | hp
    · exact List.mem_append.mpr (Or.inl (h.pending_pinned x hp))
    · exact List.mem_append.mpr (Or.inr hp)

/-- `bunpin` gives the log's reference back. The block must be home. -/
theorem Coherent.bunpin {rest : List Nat} (h : Coherent c dev (x :: rest) pending store)
    (hu : c.uses a = .held i d) (hx : (c.bufs i).blockno = x) (hrest : x ∉ rest)
    (hpend : x ∉ pending) (hc : c.bunpin a = some c') :
    Coherent c' dev rest pending store := by
  obtain ⟨i', d', hu', hdisk, t⟩ := bunpin_touch hc
  obtain ⟨rfl, rfl⟩ : i' = i ∧ d' = d := by
    rw [hu] at hu'
    cases hu'
    exact ⟨rfl, rfl⟩
  subst hx
  have hbuf : (c.uses a).buf = some i' := by rw [hu]; rfl
  have hdev := h.devs a i' hbuf
  have hvalid := h.filled a i' d' hu
  have hpos := h.refcnt_pos_of_pinned hdev List.mem_cons_self
  refine h.touch t (Or.inr hbuf) (Or.inr rfl) hdev ?_ ?_ (fun hv => hv) (fun _ _ => hvalid) ?_
    ?_ (fun hp => absurd hp hrest) (fun _ _ => Iff.rfl) ?_ (fun _ _ => rfl)
    (fun _ _ => by rw [hdisk]) ?_
  · simp [hu, Use.buf, hrest]
    omega
  · exact Or.inl ⟨rfl, by rw [hu]⟩
  · intro _ hne hothers
    refine h.clean i' hdev hvalid fun a' => ?_
    by_cases ha : a' = a
    · rw [ha, hu]
      exact hne
    · exact hothers a' ha
  · intro y hy
    simp [hy]
  · intro y hy
    rcases List.mem_cons.mp (h.pending_pinned y hy) with rfl | hr
    · exact absurd hy hpend
    · exact hr
  · intro hp
    rw [hdisk]
    exact h.durable _ hp

theorem Coherent.releasesleep (h : Coherent c dev pinned pending store)
    (hc : c.releasesleep a = some c') : Coherent c' dev pinned pending store := by
  obtain ⟨i, hu, hdisk, t⟩ := releasesleep_touch hc
  have hbuf : (c.uses a).buf = some i := by rw [hu]; rfl
  refine h.touch_same t (Or.inr hbuf) (Or.inr rfl) (h.devs a i hbuf) ?_ ?_ rfl rfl hdisk ?_ ?_
  · simp [hu, Use.buf]
  · exact Or.inr (Or.inr ⟨by rw [hu]; rfl, rfl, rfl⟩)
  · intro d hd
    cases hd
  · intro hd
    rw [hu] at hd
    cases hd

theorem Coherent.unref (h : Coherent c dev pinned pending store) (hc : c.unref a = some c') :
    Coherent c' dev pinned pending store := by
  obtain ⟨i, hu, hdisk, t⟩ := unref_touch hc
  have hbuf : (c.uses a).buf = some i := by rw [hu]; rfl
  have hpos := h.refcnt_pos hbuf
  refine h.touch_same t (Or.inr hbuf) (Or.inl rfl) (h.devs a i hbuf) ?_ ?_ rfl rfl hdisk ?_ ?_
  · simp [hu, Use.buf]
    omega
  · exact Or.inl ⟨rfl, by rw [hu]; rfl⟩
  · intro d hd
    cases hd
  · intro hd
    rw [hu] at hd
    cases hd

end Functions

end Xv6.Proofs.Cache
