import Xv6.Proofs.Fs.Ownership

/-!
# `Xv6.Proofs.Fs.ByteFiles`: inodes are byte arrays

`readi_spec` and `writei_spec` say what the bytes are, if the functions return. Here they are
shown to return. `readi` meets no hole if every block below the size is mapped, and then it
changes nothing. `writei` fills the places on the way to the blocks of its range, and `balloc`
has a block for each of them if the bitmap has as many bits clear.

A place is an address or an entry of the indirect block. `Fills s t i K` says that the places `K`
of inode `i` were empty and have got blocks, and that no other place has changed. Both states
satisfy the ownership invariant, so the free blocks are fewer by the number of these places:
nothing needs to be known of the bitmap in between.
-/

set_option autoImplicit false

namespace Xv6.Proofs.Fs

open Lib Lib.Action Kernel

variable {sb : Superblock} {s t u : FsState} {loose : Nat → Prop} {ip : Ino}

/-! ### Free blocks -/

/-- The blocks whose bit is clear. -/
def freeBlocks (sb : Superblock) (d : Disk) : Finset Nat :=
  (Finset.range sb.size).filter fun b => bitAt sb d b = false

variable {b : Nat}

/-- A free block is a block of the data area that nobody holds. -/
theorem Inv.mem_freeBlocks (h : Inv sb s loose) : b ∈ freeBlocks sb s.disk ↔
    dataStart sb ≤ b ∧ b < sb.size ∧ ¬ loose b ∧ ∀ p, blockAt sb s p ≠ b := by
  unfold freeBlocks
  rw [Finset.mem_filter, Finset.mem_range]
  constructor
  · rintro ⟨hb, hbit⟩
    obtain ⟨hlo, hfree⟩ := h.owned.free_block hbit
    refine ⟨hlo, hb, fun hloose => ?_, hfree⟩
    have := h.owned.bit_of_loose hloose hlo hb
    rw [hbit] at this
    cases this
  · rintro ⟨hlo, hb, hloose, hfree⟩
    refine ⟨hb, ?_⟩
    rw [← Bool.not_eq_true, h.owned.owns.used_iff b hlo hb]
    rintro (hl | ⟨p, hp⟩)
    · exact hloose hl
    · exact hfree p hp

/-- `balloc` stops the kernel only if there is no free block. -/
theorem balloc_free : wp (balloc sb) (fun _ _ => True) (fun _ => freeBlocks sb s.disk = ∅) s := by
  rw [balloc, wp_bind, wp_read]
  split
  · trivial
  · rename_i hnone
    show freeBlocks sb s.disk = ∅
    rw [Finset.eq_empty_iff_forall_notMem]
    intro b hb
    obtain ⟨hb, hbit⟩ := Finset.mem_filter.mp hb
    have := List.find?_eq_none.mp hnone b (List.mem_range.mpr (Finset.mem_range.mp hb))
    rw [hbit] at this
    exact this rfl

/-! ### Filling places -/

/-- The places `K` of inode `i` were empty and have got blocks. No other place has changed. -/
structure Fills (sb : Superblock) (s t : FsState) (i : Nat) (K : Finset Nat) : Prop where
  empty : ∀ k ∈ K, blockAt sb s (i, k) = 0
  filled : ∀ k ∈ K, blockAt sb t (i, k) ≠ 0
  other : ∀ p, (p.1 = i → p.2 ∉ K) → blockAt sb t p = blockAt sb s p

namespace Fills

variable {i : Nat} {K : Finset Nat}

/-- A step that keeps every place. -/
theorem of_same (h : ∀ p, blockAt sb t p = blockAt sb s p) (i : Nat) : Fills sb s t i ∅ :=
  ⟨fun k hk => absurd hk (Finset.notMem_empty k), fun k hk => absurd hk (Finset.notMem_empty k),
    fun p _ => h p⟩

/-- A place with a block keeps it. -/
theorem kept (h : Fills sb s t i K) {p : Nat × Nat} (hp : blockAt sb s p ≠ 0) :
    blockAt sb t p = blockAt sb s p := by
  refine h.other p fun hi hk => hp ?_
  rw [← h.empty p.2 hk, ← hi]

/-- The free blocks are fewer by the number of places. -/
theorem card (h : Fills sb s t i K) (hs : Inv sb s loose) (ht : Inv sb t loose) :
    (freeBlocks sb t.disk).card + K.card = (freeBlocks sb s.disk).card := by
  -- The new blocks are free before.
  have hnew : K.image (fun k => blockAt sb t (i, k)) ⊆ freeBlocks sb s.disk := by
    intro b hb
    obtain ⟨k, hk, rfl⟩ := Finset.mem_image.mp hb
    have hne := h.filled k hk
    obtain ⟨hlo, hhi⟩ := ht.owned.owns.area (i, k) hne
    refine hs.mem_freeBlocks.mpr ⟨hlo, hhi, ht.owned.owns.apart (i, k) hne, fun p hp => ?_⟩
    have hp0 : blockAt sb s p ≠ 0 := by
      rw [hp]
      exact hne
    have hsame : p = (i, k) := by
      refine ht.owned.owns.once p (i, k) ((h.kept hp0).trans hp) ?_
      show blockAt sb t p ≠ 0
      rw [h.kept hp0]
      exact hp0
    rw [hsame] at hp0
    exact hp0 (h.empty k hk)
  have hinj : Set.InjOn (fun k => blockAt sb t (i, k)) K := by
    intro k hk k' _ he
    have := ht.owned.owns.once (i, k) (i, k') he (h.filled k hk)
    exact congrArg Prod.snd this
  have hfree : freeBlocks sb t.disk =
      freeBlocks sb s.disk \ K.image fun k => blockAt sb t (i, k) := by
    ext b
    rw [Finset.mem_sdiff, ht.mem_freeBlocks, hs.mem_freeBlocks, Finset.mem_image]
    constructor
    · rintro ⟨hlo, hhi, hloose, hnone⟩
      refine ⟨⟨hlo, hhi, hloose, fun p hp => hnone p ?_⟩, fun ⟨k, _, hk⟩ => hnone (i, k) hk⟩
      have := dataStart_pos sb
      rw [h.kept (by omega), hp]
    · rintro ⟨⟨hlo, hhi, hloose, hnone⟩, hnot⟩
      refine ⟨hlo, hhi, hloose, fun p hp => ?_⟩
      by_cases hpk : p.1 = i ∧ p.2 ∈ K
      · exact hnot ⟨p.2, hpk.2, by rw [← hp, ← hpk.1]⟩
      · refine hnone p ?_
        rw [← hp, h.other p fun hi hk => hpk ⟨hi, hk⟩]
  rw [hfree, Finset.card_sdiff_of_subset hnew, Finset.card_image_of_injOn hinj]
  have := Finset.card_le_card hnew
  rw [Finset.card_image_of_injOn hinj] at this
  omega

end Fills

/-- The places of `P` that are empty in inode `i`. -/
def lacking (sb : Superblock) (s : FsState) (i : Nat) (P : Finset Nat) : Finset Nat :=
  P.filter fun k => blockAt sb s (i, k) = 0

variable {i : Nat} {P Q : Finset Nat}

/-- The empty places of two steps. -/
theorem Fills.lacking_union (h : Fills sb s t i (lacking sb s i P)) :
    lacking sb s i (P ∪ Q) = lacking sb s i P ∪ lacking sb t i Q := by
  have hiff : ∀ k, k ∉ lacking sb s i P → blockAt sb t (i, k) = blockAt sb s (i, k) :=
    fun k hk => h.other (i, k) fun _ => hk
  have hfull : ∀ k ∈ lacking sb s i P, blockAt sb t (i, k) ≠ 0 := h.filled
  ext k
  unfold lacking at *
  simp only [Finset.mem_union, Finset.mem_filter] at *
  by_cases hk : k ∈ P ∧ blockAt sb s (i, k) = 0
  · simp [hk]
  · rw [hiff k hk]
    tauto

theorem Fills.trans (h : Fills sb s t i (lacking sb s i P))
    (h' : Fills sb t u i (lacking sb t i Q)) : Fills sb s u i (lacking sb s i (P ∪ Q)) := by
  rw [h.lacking_union]
  have hempty : ∀ k ∈ lacking sb t i Q, k ∉ lacking sb s i P := fun k hk hin =>
    h.filled k hin (h'.empty k hk)
  refine ⟨fun k hk => ?_, fun k hk => ?_, fun p hp => ?_⟩
  · rcases Finset.mem_union.mp hk with hk | hk
    · exact h.empty k hk
    · rw [← h'.empty k hk]
      exact (h.other (i, k) fun _ => hempty k hk).symm
  · rcases Finset.mem_union.mp hk with hk | hk
    · by_cases hk' : k ∈ lacking sb t i Q
      · exact h'.filled k hk'
      · rw [h'.other (i, k) fun _ => hk']
        exact h.filled k hk
    · exact h'.filled k hk
  · rw [h'.other p fun hi hk => hp hi (Finset.mem_union_right _ hk),
      h.other p fun hi hk => hp hi (Finset.mem_union_left _ hk)]

theorem Fills.card_union (h : Fills sb s t i (lacking sb s i P)) :
    (lacking sb s i (P ∪ Q)).card = (lacking sb s i P).card + (lacking sb t i Q).card := by
  rw [h.lacking_union]
  refine Finset.card_union_of_disjoint (Finset.disjoint_left.mpr fun k hk hkt => ?_)
  exact h.filled k hk (Finset.mem_filter.mp hkt).2

/-- There are too few free blocks for some places. -/
def Short (sb : Superblock) (s : FsState) (i : Nat) (P : Finset Nat) : Prop :=
  (freeBlocks sb s.disk).card < (lacking sb s i P).card

/-- Too few for the rest are too few for all. -/
theorem Fills.short (h : Fills sb s t i (lacking sb s i P)) (hs : Inv sb s loose)
    (ht : Inv sb t loose) (hshort : Short sb t i Q) :
    Short sb s i (P ∪ Q) := by
  have hcard := h.card hs ht
  unfold Short at *
  rw [h.card_union]
  omega

theorem Short.mono (h : Short sb s i P) (hPQ : P ⊆ Q) :
    Short sb s i Q :=
  Nat.lt_of_lt_of_le h (Finset.card_le_card (Finset.filter_subset_filter _ hPQ))

/-! ### The places after a store -/

/-- The place of a loaded inode. -/
theorem Inv.blockAt_eq (h : Inv sb s loose) (hip : Loaded s ip) (k : Nat) :
    blockAt sb s ((s.itable ip).inum, k) = placeOf (s.itable ip).toDinode s.disk k := by
  unfold blockAt
  rw [held_of_alloc (h.alloc hip), h.view_eq hip]

/-- Stores that miss the indirect blocks, and the dinodes that are not in the table, keep the
places. -/
theorem blockAt_same (htable : t.itable = s.itable)
    (hdin : ∀ i, InArea sb i → (∀ k, Loaded s k → (s.itable k).inum ≠ i) →
      dinodeAt sb t.disk i = dinodeAt sb s.disk i)
    (hind : ∀ i, blockAt sb s (i, NDIRECT) ≠ 0 →
      t.disk (blockAt sb s (i, NDIRECT)) = s.disk (blockAt sb s (i, NDIRECT)))
    (p : Nat × Nat) : blockAt sb t p = blockAt sb s p := by
  obtain ⟨d, table⟩ := t
  obtain rfl : table = s.itable := htable
  refine held_congr (fun i hi => view_blocks (hdin i hi)) (fun i hi hx => ?_) p
  have hplace : blockAt sb s (i, NDIRECT) = (view sb s i).addr NDIRECT := by
    unfold blockAt
    rw [held_of_alloc hi, placeOf_indirect]
  have := hind i
  rw [hplace] at this
  exact this hx

/-- The places after a step on the table. -/
theorem blockAt_withDinode (h : Inv sb s loose) (hip : Loaded s ip) {y : Dinode}
    (hy : y.type = (s.itable ip).type) (p : Nat × Nat) :
    blockAt sb (withDinode s ip y) p =
      if p.1 = (s.itable ip).inum then placeOf y s.disk p.2 else blockAt sb s p := by
  obtain ⟨i, m⟩ := p
  have halloc := h.alloc hip
  unfold blockAt
  rw [view_withDinode h hip]
  by_cases hi : i = (s.itable ip).inum
  · subst hi
    have halloc' : Alloc sb (Function.update (view sb s) (s.itable ip).inum y)
        (s.itable ip).inum := by
      refine ⟨halloc.1, ?_⟩
      rw [Function.update_self, hy]
      exact (h.cached ip hip).2.1
    rw [held_of_alloc halloc', Function.update_self, if_pos rfl]
    rfl
  · have heq : Function.update (view sb s) (s.itable ip).inum y i = view sb s i :=
      Function.update_of_ne hi _ _
    rw [if_neg hi]
    by_cases hal : Alloc sb (view sb s) i
    · rw [held_of_alloc ((alloc_congr heq).mpr hal), held_of_alloc hal, heq]
      rfl
    · rw [held_of_not_alloc hal, held_of_not_alloc fun hn => hal ((alloc_congr heq).mp hn)]

variable {k : Nat}

/-- The places after an address is recorded. -/
theorem blockAt_setAddr (h : Inv sb s loose) (hip : Loaded s ip) (hk : k < NDIRECT + 1)
    (hx : (s.itable ip).addr k = 0) (hb : b < 2 ^ 32) (hzero : s.disk b = Bytes.zero BSIZE)
    (p : Nat × Nat) :
    blockAt sb (withDinode s ip ((s.itable ip).setAddr k b)) p =
      if p = ((s.itable ip).inum, k) then b else blockAt sb s p := by
  obtain ⟨i, m⟩ := p
  rw [blockAt_withDinode h hip (setAddr_type (s.itable ip).toDinode k b)]
  by_cases hi : i = (s.itable ip).inum
  · subst hi
    rw [if_pos rfl, h.blockAt_eq hip, placeOf_setAddr hk hx hb hzero]
    simp
  · rw [if_neg hi, if_neg fun he => hi (congrArg Prod.fst he)]

/-- The places after an entry of the indirect block is recorded. -/
theorem blockAt_setEntry (h : Inv sb s loose) (hip : Loaded s ip)
    (hind : (s.itable ip).addr NDIRECT ≠ 0) {j b : Nat} (hj : j < NINDIRECT) (hb : b < 2 ^ 32)
    {d' : Disk} (hd' : d' = Function.update s.disk ((s.itable ip).addr NDIRECT)
      ((s.disk ((s.itable ip).addr NDIRECT)).setWord 4 (4 * j) b)) (p : Nat × Nat) :
    blockAt sb { s with disk := d' } p =
      if p = ((s.itable ip).inum, NDIRECT + 1 + j) then b else blockAt sb s p := by
  obtain ⟨i, m⟩ := p
  have halloc := h.alloc hip
  have hview := h.view_eq hip
  have hindv : (view sb s (s.itable ip).inum).addr NDIRECT = (s.itable ip).addr NDIRECT := by
    rw [hview]
  have harea := h.owned.indirect_area halloc (by rw [hindv]; exact hind)
  rw [hindv] at harea
  have hviews : ∀ i, InArea sb i → view sb { s with disk := d' } i = view sb s i := by
    intro i hi
    refine view_blocks fun _ => ?_
    rw [hd']
    refine dinodeAt_update_of_le ?_ hi _
    have := harea.1
    unfold dataStart at this
    omega
  unfold blockAt
  by_cases hal : Alloc sb (view sb s) i
  · have hal' : Alloc sb (view sb { s with disk := d' }) i := (alloc_congr (hviews i hal.1)).mpr hal
    rw [held_of_alloc hal', held_of_alloc hal, hviews i hal.1]
    by_cases hi : i = (s.itable ip).inum
    · subst hi
      show placeOf (view sb s (s.itable ip).inum) d' m = _
      rw [hview, hd', placeOf_setEntry hind hj hb]
      simp
    · -- Another inode has another indirect block.
      rw [if_neg fun he => hi (congrArg Prod.fst he)]
      show placeOf (view sb s i) d' m = placeOf (view sb s i) s.disk m
      refine placeOf_congr (fun hx => ?_) m
      rw [hd']
      refine Function.update_of_ne (fun he => hi ?_) _ _
      have := h.owned.owns.once (i, NDIRECT) ((s.itable ip).inum, NDIRECT)
      rw [held_of_alloc hal, held_of_alloc halloc, placeOf_indirect, placeOf_indirect, hindv] at this
      exact congrArg Prod.fst (this he hx)
  · have hal' : ¬ Alloc sb (view sb { s with disk := d' }) i := by
      intro hn
      exact hal ((alloc_congr (hviews i hn.1)).mp hn)
    rw [held_of_not_alloc hal', held_of_not_alloc hal, if_neg]
    intro he
    have hi : i = (s.itable ip).inum := congrArg Prod.fst he
    rw [hi] at hal
    exact hal halloc

/-- What `balloc` leaves of the places: all of them. -/
theorem balloc_places (hl : Layout sb) (h : Inv sb s loose) :
    wp (balloc sb) (fun _ t => ∀ p, blockAt sb t p = blockAt sb s p)
      (fun _ => freeBlocks sb s.disk = ∅) s := by
  refine wp_mono (wp_both (balloc_spec hl h) balloc_free) ?_ fun _ he => he.2
  rintro b t ⟨⟨htable, -, -, -, hfree, -, hdisk, -, hdin, -, -⟩, -⟩
  refine blockAt_same htable (fun i hi _ => hdin i hi) fun i hi => ?_
  exact hdisk _ (h.owned.owns.area (i, NDIRECT) hi).1 (hfree (i, NDIRECT))

/-! ### `bmap` -/

theorem lacking_singleton (h : blockAt sb s (i, k) = 0) :
    lacking sb s i {k} = {k} := by
  unfold lacking
  rw [Finset.filter_singleton, if_pos h]

theorem lacking_singleton_of_ne (h : blockAt sb s (i, k) ≠ 0) :
    lacking sb s i {k} = ∅ := by
  unfold lacking
  rw [Finset.filter_singleton, if_neg h]

theorem bmapSlot_fills (hl : Layout sb) (h : Inv sb s loose) (hip : Loaded s ip)
    (hk : k < NDIRECT + 1) :
    wp (bmapSlot sb ip k)
      (fun _ t => Fills sb s t (s.itable ip).inum (lacking sb s (s.itable ip).inum {k}))
      (fun _ => Short sb s (s.itable ip).inum {k}) s := by
  have hplace := h.blockAt_eq hip k
  rw [placeOf_addr _ _ hk] at hplace
  rw [bmapSlot, wp_bind, wp_inode]
  split
  · rename_i hx
    have hempty : blockAt sb s ((s.itable ip).inum, k) = 0 := hplace.trans hx
    rw [wp_bind, lacking_singleton hempty]
    refine wp_mono (wp_both (balloc_spec hl h) (balloc_places hl h)) ?_ ?_
    · rintro b t ⟨⟨htable, hlo, hb, hnl, -, hzero, -, hinv, -⟩, hsame⟩
      have hb0 : b ≠ 0 := by
        have := dataStart_pos sb
        omega
      rw [if_neg hb0, wp_bind, wp_setInode, wp_pure]
      have hip' : Loaded t ip := by
        unfold Loaded
        rw [htable]
        exact hip
      have hplaces := blockAt_setAddr hinv hip' hk (by rw [htable]; exact hx)
        (Nat.lt_trans hb hl.size) hzero
      have hinum : (t.itable ip).inum = (s.itable ip).inum := by rw [htable]
      rw [hinum] at hplaces
      refine ⟨fun m hm => ?_, fun m hm => ?_, fun p hp => ?_⟩
      · rw [Finset.mem_singleton.mp hm]
        exact hempty
      · rw [Finset.mem_singleton.mp hm]
        refine ne_of_eq_of_ne (hplaces _) ?_
        rw [if_pos rfl]
        exact hb0
      · refine (hplaces p).trans ?_
        rw [if_neg, hsame p]
        rintro rfl
        exact hp rfl (Finset.mem_singleton_self k)
    · rintro _ ⟨-, hnone⟩
      unfold Short
      rw [lacking_singleton hempty, hnone]
      exact Nat.one_pos
  · rename_i hx
    rw [lacking_singleton_of_ne (by rw [hplace]; exact hx)]
    exact Fills.of_same (fun _ => rfl) _

/-- The places on the way to block `bn` of a file. -/
def way (bn : Nat) : Finset Nat := if bn < NDIRECT then {bn} else {NDIRECT} ∪ {bn + 1}

theorem filePlace_mem_way (bn : Nat) : filePlace bn ∈ way bn := by
  unfold filePlace way
  split
  · exact Finset.mem_singleton_self bn
  · exact Finset.mem_union_right _ (Finset.mem_singleton_self _)

variable {bn : Nat}

theorem bmap_fills (hl : Layout sb) (h : Inv sb s loose) (hip : Loaded s ip) (hbn : bn < MAXFILE) :
    wp (bmap sb ip bn)
      (fun _ t => Fills sb s t (s.itable ip).inum (lacking sb s (s.itable ip).inum (way bn)))
      (fun _ => Short sb s (s.itable ip).inum (way bn)) s := by
  unfold bmap
  split
  · rename_i hdirect
    have hway : way bn = {bn} := if_pos hdirect
    rw [hway]
    exact bmapSlot_fills hl h hip (Nat.lt_succ_of_lt hdirect)
  · rename_i hdirect
    have hway : way bn = {NDIRECT} ∪ {bn + 1} := if_neg hdirect
    have hj : bn - NDIRECT < NINDIRECT := by
      unfold MAXFILE at hbn
      omega
    have hbn1 : bn + 1 = NDIRECT + 1 + (bn - NDIRECT) := by omega
    rw [if_pos hj, wp_bind, hway]
    refine wp_mono (wp_both (bmapSlot_spec hl h hip (Nat.lt_succ_self _))
      (bmapSlot_fills hl h hip (Nat.lt_succ_self _))) ?_ ?_
    · rintro addr t ⟨⟨hfill, hinv, haddr, haddr0⟩, hfills⟩
      have hip' : Loaded t ip := (hfill.loaded ip).mpr hip
      have hinum : (t.itable ip).inum = (s.itable ip).inum := hfill.inum ip
      have hind : (t.itable ip).addr NDIRECT ≠ 0 := by
        rw [← haddr]
        exact haddr0
      have hplace : blockAt sb t ((s.itable ip).inum, bn + 1) =
          (t.disk addr).getWord 4 (4 * (bn - NDIRECT)) := by
        rw [← hinum, hinv.blockAt_eq hip', hbn1, placeOf_entry _ _ hj hind, haddr]
      rw [if_neg haddr0, wp_bind, wp_bread]
      dsimp only
      split
      · -- A hole: the new block is recorded in the indirect block.
        rename_i hz
        have hempty : blockAt sb t ((s.itable ip).inum, bn + 1) = 0 := hplace.trans hz
        rw [wp_bind]
        refine wp_mono (wp_both (balloc_spec hl hinv) (balloc_places hl hinv)) ?_ ?_
        · rintro b u ⟨⟨htable, hlo, hb, -, hfree, -, hdisk, hinvu, -⟩, hsame⟩
          have hb0 : b ≠ 0 := by
            have := dataStart_pos sb
            omega
          have hipu : Loaded u ip := by
            unfold Loaded
            rw [htable]
            exact hip'
          have haddru : (u.itable ip).addr NDIRECT = addr := by
            rw [htable]
            exact haddr.symm
          rw [if_neg hb0, wp_bind, wp_bread, wp_bind, wp_logWrite, wp_pure]
          have hplaces := blockAt_setEntry hinvu hipu (by rw [haddru]; exact haddr0) hj
            (Nat.lt_trans hb hl.size) rfl
          have hinumu : (u.itable ip).inum = (s.itable ip).inum := by
            rw [htable]
            exact hinum
          rw [haddru, hinumu, ← hbn1] at hplaces
          refine hfills.trans ⟨fun m hm => ?_, fun m hm => ?_, fun p hp => ?_⟩
          · exact (Finset.mem_filter.mp hm).2
          · rw [lacking_singleton hempty, Finset.mem_singleton] at hm
            refine ne_of_eq_of_ne (hplaces _) ?_
            rw [hm, if_pos rfl]
            exact hb0
          · refine (hplaces p).trans ?_
            rw [if_neg, hsame p]
            rintro rfl
            refine hp rfl ?_
            rw [lacking_singleton hempty]
            exact Finset.mem_singleton_self _
        · rintro _ ⟨-, hnone⟩
          refine hfills.short h hinv ?_
          unfold Short
          rw [hnone, lacking_singleton hempty]
          exact Nat.one_pos
      · rename_i ha
        have hfull : blockAt sb t ((s.itable ip).inum, bn + 1) ≠ 0 := by
          rw [hplace]
          exact ha
        refine hfills.trans ?_
        rw [lacking_singleton_of_ne hfull]
        exact Fills.of_same (fun _ => rfl) _
    · rintro _ ⟨-, hshort⟩
      exact hshort.mono Finset.subset_union_left

/-! ### `writei` -/

/-- The places on the way to the blocks of a range. -/
def waysTo (off n : Nat) : Finset Nat := (Finset.range n).biUnion fun j => way ((off + j) / BSIZE)

variable {off left : Nat}

/-- The first piece of a range lies in one block. -/
theorem waysTo_split {m : Nat} (hpos : 0 < left) (hm : m = min left (BSIZE - off % BSIZE)) :
    waysTo off left = way (off / BSIZE) ∪ waysTo (off + m) (left - m) := by
  have hbs : 0 < BSIZE := by decide
  have hmod : off % BSIZE < BSIZE := Nat.mod_lt _ hbs
  have hfirst : ∀ j < m, (off + j) / BSIZE = off / BSIZE := by
    intro j hj
    have hdecomp : off + j = (off % BSIZE + j) + BSIZE * (off / BSIZE) := by
      have := Nat.mod_add_div off BSIZE
      omega
    rw [hdecomp, Nat.add_mul_div_left _ _ hbs, Nat.div_eq_of_lt (by omega), Nat.zero_add]
  ext x
  unfold waysTo
  rw [Finset.mem_union, Finset.mem_biUnion, Finset.mem_biUnion]
  constructor
  · rintro ⟨j, hj, hx⟩
    have hj := Finset.mem_range.mp hj
    by_cases hjm : j < m
    · rw [hfirst j hjm] at hx
      exact .inl hx
    · refine .inr ⟨j - m, Finset.mem_range.mpr (by omega), ?_⟩
      rwa [show off + m + (j - m) = off + j by omega]
  · rintro (hx | ⟨j, hj, hx⟩)
    · exact ⟨0, Finset.mem_range.mpr hpos, hx⟩
    · have hj := Finset.mem_range.mp hj
      refine ⟨m + j, Finset.mem_range.mpr (by omega), ?_⟩
      rwa [← Nat.add_assoc]

/-- A store to a block of a file keeps the places. -/
theorem blockAt_data (h : Inv sb s loose) (hip : Loaded s ip)
    (hb : b = placeOf (s.itable ip).toDinode s.disk (filePlace bn)) (hb0 : b ≠ 0) (blk : Block)
    {d' : Disk} (hd' : d' = Function.update s.disk b blk) (p : Nat × Nat) :
    blockAt sb { s with disk := d' } p = blockAt sb s p := by
  have hheld : blockAt sb s ((s.itable ip).inum, filePlace bn) = b :=
    (h.blockAt_eq hip _).trans hb.symm
  have hlo : dataStart sb ≤ b := by
    have harea := h.blocksApart.area ((s.itable ip).inum, filePlace bn)
    rw [hheld] at harea
    exact (harea hb0).1
  refine blockAt_same (s := s) (t := { s with disk := d' }) rfl (fun i hi _ => ?_) (fun i hi => ?_) p
  · show dinodeAt sb d' i = _
    rw [hd']
    refine dinodeAt_update_of_le ?_ hi _
    unfold dataStart at hlo
    omega
  · show d' _ = _
    rw [hd']
    refine Function.update_of_ne (fun he => ?_) _ _
    have := h.blocksApart.once (i, NDIRECT) _ (he.trans hheld.symm) hi
    exact filePlace_ne bn (congrArg Prod.snd this).symm

theorem fills_none (s : FsState) (i off : Nat) : Fills sb s s i (lacking sb s i (waysTo off 0)) :=
  Fills.of_same (fun _ => rfl) i

/-- `writeiLoop_piece` with the places that the piece fills. -/
theorem writeiLoop_piece_fills (hl : Layout sb) {copyin : CopyIn} {fuel tot m : Nat}
    {post : Nat × Nat → FsState → Prop} {err : Panic → Prop} (h : Inv sb s loose)
    (hip : Loaded s ip) (hleft : left ≠ 0) (hm : m = min left (BSIZE - off % BSIZE))
    (hbmap : wp (bmap sb ip (off / BSIZE)) (fun _ t => Fills sb s t (s.itable ip).inum
      (lacking sb s (s.itable ip).inum (way (off / BSIZE)))) err s)
    (hrest : ∀ u, Piece sb s u loose ip off ((copyin tot m).1.take m) →
      Fills sb s u (s.itable ip).inum (lacking sb s (s.itable ip).inum (way (off / BSIZE))) →
      wp (if (copyin tot m).2 then writeiLoop sb ip copyin fuel (off + m) (left - m) (tot + m)
        else Pure.pure (off, tot)) post err u) :
    wp (writeiLoop sb ip copyin (fuel + 1) off left tot) post err s := by
  refine writeiLoop_piece hl h hip hleft hm hbmap ?_
  intro b t d' hfills hinv hip' hb hb0 hd' hpiece
  have hsame := blockAt_data hinv hip' hb hb0 _ hd'
  exact hrest _ hpiece ⟨hfills.empty, fun k hk => by rw [hsame]; exact hfills.filled k hk,
    fun p hp => (hsame p).trans (hfills.other p hp)⟩

/-- The loop of `writei` fills the ways to its blocks, and `balloc` has a block for each place
if there are as many. A copy that fails ends the loop, after the way to its block is filled. -/
theorem writeiLoop_fills (hl : Layout sb) (copyin : CopyIn) (fuel : Nat) (h : Inv sb s loose)
    (hip : Loaded s ip) (tot : Nat) (hmax : off + left ≤ MAXFILE * BSIZE) (hfuel : left ≤ fuel) :
    wp (writeiLoop sb ip copyin fuel off left tot)
      (fun r t => ∃ k ≤ left, r.1 ≤ off + k ∧ ((∀ tot m, (copyin tot m).2 = true) → k = left) ∧
        Fills sb s t (s.itable ip).inum (lacking sb s (s.itable ip).inum (waysTo off k)))
      (fun _ => Short sb s (s.itable ip).inum (waysTo off left)) s := by
  induction fuel generalizing s off left tot with
  | zero =>
    rw [Nat.le_zero.mp hfuel]
    exact ⟨0, Nat.le_refl _, Nat.le_refl _, fun _ => rfl, fills_none s _ off⟩
  | succ fuel ih =>
    by_cases hleft : left = 0
    · rw [writeiLoop, if_pos hleft, hleft]
      exact ⟨0, Nat.le_refl _, Nat.le_refl _, fun _ => rfl, fills_none s _ off⟩
    · have hbs : 0 < BSIZE := by decide
      have hmod : off % BSIZE < BSIZE := Nat.mod_lt _ hbs
      have hbn : off / BSIZE < MAXFILE := by
        rw [Nat.div_lt_iff_lt_mul hbs]
        omega
      obtain ⟨m, hm⟩ : ∃ m, m = min left (BSIZE - off % BSIZE) := ⟨_, rfl⟩
      have hsplit : ∀ k ≤ left - m, waysTo off (m + k)
          = way (off / BSIZE) ∪ waysTo (off + m) k := by
        intro k hk
        have hmin : m = min (m + k) (BSIZE - off % BSIZE) := by omega
        have := waysTo_split (by omega : 0 < m + k) hmin
        rwa [Nat.add_sub_cancel_left] at this
      have hall : waysTo off left = way (off / BSIZE) ∪ waysTo (off + m) (left - m) := by
        rw [← hsplit _ (Nat.le_refl _)]
        congr 1
        omega
      rw [hall]
      refine writeiLoop_piece_fills hl h hip hleft hm (wp_mono (bmap_fills hl h hip hbn)
        (fun _ _ hfills => hfills) fun _ hshort => hshort.mono Finset.subset_union_left) ?_
      intro u hpiece hstore
      split
      · have hin : (off + m) + (left - m) ≤ MAXFILE * BSIZE := by omega
        have hloop := ih hpiece.inv hpiece.loaded (tot + m) hin (by omega)
        rw [hpiece.inum] at hloop
        refine wp_mono hloop ?_ fun _ he => hstore.short h hpiece.inv he
        rintro r u ⟨k, hk, hr, hcopy, hu⟩
        refine ⟨m + k, by omega, by omega, fun hall => by rw [hcopy hall]; omega, ?_⟩
        rw [hsplit k hk]
        exact hstore.trans hu
      · rename_i hfail
        refine ⟨m + 0, by omega, Nat.le_add_right _ _, fun hall => absurd (hall tot m) hfail, ?_⟩
        rw [hsplit 0 (Nat.zero_le _)]
        exact hstore.trans (fills_none _ _ _)

/-- The end of `writei` keeps the places. -/
theorem publish_places (h : Inv sb s loose) (hip : Loaded s ip) (f : Inode → Inode)
    (size : UInt32) (hf : f (s.itable ip) = { s.itable ip with
      toDinode := { (s.itable ip).toDinode with size := size } }) :
    wp (setInode ip f >>= fun _ => iupdate sb ip)
      (fun _ t => ∀ p, blockAt sb t p = blockAt sb s p) (fun _ => False) s := by
  rw [wp_bind, wp_withDinode hf]
  obtain ⟨y, hy⟩ : ∃ y : Dinode, y = { (s.itable ip).toDinode with size := size } := ⟨_, rfl⟩
  rw [← hy]
  have hfields : ∀ p, blockAt sb (withDinode s ip y) p = blockAt sb s p := by
    intro p
    rw [blockAt_withDinode h hip (by rw [hy])]
    split
    · rename_i hp
      obtain ⟨i, k⟩ := p
      obtain rfl : i = (s.itable ip).inum := hp
      rw [h.blockAt_eq hip, hy]
      rfl
    · rfl
  obtain ⟨hinv, -, -⟩ := fields_step h hip (y := y) (by rw [hy]) (by rw [hy])
  have hip' : Loaded (withDinode s ip y) ip := (withDinode_loaded s ip ip y).mpr hip
  obtain ⟨t, ht⟩ : ∃ t, t = withDinode s ip y := ⟨_, rfl⟩
  rw [← ht] at hinv hip' hfields ⊢
  rw [iupdate, wp_bind, wp_inode, wp_bind, wp_bread, wp_logWrite]
  obtain ⟨d', hd'⟩ : ∃ d', d' = Function.update t.disk (IBLOCK sb (t.itable ip).inum)
    (writeDinode (t.disk (IBLOCK sb (t.itable ip).inum)) ((t.itable ip).inum % IPB)
      (t.itable ip).toDinode) := ⟨_, rfl⟩
  rw [← hd']
  intro p
  refine Eq.trans ?_ (hfields p)
  have harea : IBLOCK sb (t.itable ip).inum < sb.bmapstart := (hinv.cached ip hip').1
  refine blockAt_same (s := t) (t := { t with disk := d' }) rfl (fun i _ hnone => ?_)
    (fun i hi => ?_) p
  · show dinodeAt sb d' i = _
    rw [hd', dinodeAt_writeDinode, if_neg fun he => hnone ip hip' he.symm]
  · show d' _ = _
    rw [hd']
    refine Function.update_of_ne (fun he => ?_) _ _
    have := (hinv.blocksApart.area (i, NDIRECT) hi).1
    unfold dataStart at this
    omega

/-- The end of `writei` sets the size. -/
theorem publish_size (off' : Nat) :
    wp (setInode ip (fun i => if off' > i.size.toNat then { i with size := UInt32.ofNat off' } else i)
      >>= fun _ => iupdate sb ip)
      (fun _ t => (t.itable ip).size = newSize (s.itable ip).size off') (fun _ => False) s := by
  rw [wp_bind, wp_setInode, iupdate, wp_bind, wp_inode, wp_bind, wp_bread, wp_logWrite]
  show (Function.update s.itable ip _ ip).size = _
  rw [Function.update_self]
  unfold newSize
  split <;> rfl

variable {n : Nat}

/-- What `writei` fills: the ways to the blocks of the first `k` bytes, and those below the size
are among them. -/
theorem writei_fills (hl : Layout sb) (copyin : CopyIn) (h : Inv sb s loose) (hip : Loaded s ip)
    (hoff : off ≤ (s.itable ip).size.toNat) (hmax : off + n ≤ MAXFILE * BSIZE) :
    wp (writei sb ip copyin off n)
      (fun _ t => ∃ k ≤ n, (t.itable ip).size.toNat ≤ max (s.itable ip).size.toNat (off + k) ∧
        ((∀ tot m, (copyin tot m).2 = true) → k = n) ∧
        Fills sb s t (s.itable ip).inum (lacking sb s (s.itable ip).inum (waysTo off k)))
      (fun _ => Short sb s (s.itable ip).inum (waysTo off n)) s := by
  have hbig : MAXFILE * BSIZE < 2 ^ 32 := by decide
  rw [writei, wp_bind, wp_inode, if_neg, if_neg (by omega), wp_bind]
  · refine wp_mono (wp_both (writeiLoop_spec hl copyin n h hip off n 0)
      (writeiLoop_fills hl copyin n h hip 0 hmax (Nat.le_refl n))) ?_ fun _ he => he.2
    rintro ⟨off', tot'⟩ t ⟨⟨hscr, hinv, hle, -⟩, k, hk, hend, hcopy, hfills⟩
    have hip' : Loaded t ip := (hscr.loaded ip).mpr hip
    have hself : (t.itable ip).size = (s.itable ip).size := by
      obtain ⟨a, ha⟩ := hscr.self
      rw [ha]
    have hpub := wp_and (publish_places hinv hip'
      (fun i => if off' > i.size.toNat then { i with size := UInt32.ofNat off' } else i)
      (newSize (t.itable ip).size off') (by unfold newSize; split <;> rfl))
      (publish_size off')
    rw [wp_bind] at hpub ⊢
    refine wp_mono hpub ?_ fun _ he => he.elim
    intro _ u hu
    rw [wp_bind]
    refine wp_mono hu ?_ fun _ he => he.elim
    rintro _ w ⟨hw, hsize⟩
    refine ⟨k, hk, ?_, hcopy, hfills.empty, fun k hk => by rw [hw]; exact hfills.filled k hk,
      fun p hp => (hw p).trans (hfills.other p hp)⟩
    rw [hsize, hself, newSize_toNat (by omega)]
    omega
  · rw [Nat.mod_eq_of_lt (by omega)]
    omega

/-! ### `readi` without holes -/

/-- `bmap` of a block that is mapped returns it. -/
theorem wp_bmap (hbn : bn < MAXFILE)
    (hne : placeOf (s.itable ip).toDinode s.disk (filePlace bn) ≠ 0) {post : Nat → FsState → Prop}
    {err : Panic → Prop} :
    wp (bmap sb ip bn) post err s ↔
      post (placeOf (s.itable ip).toDinode s.disk (filePlace bn)) s := by
  have hslot : ∀ {k : Nat}, k < NDIRECT + 1 → (s.itable ip).addr k ≠ 0 →
      ∀ {post : Nat → FsState → Prop}, wp (bmapSlot sb ip k) post err s ↔
        post ((s.itable ip).addr k) s := by
    intro k _ hx post
    rw [bmapSlot, wp_bind, wp_inode, if_neg hx, wp_pure]
  unfold bmap filePlace at *
  by_cases hdirect : bn < NDIRECT
  · rw [if_pos hdirect] at hne ⊢
    rw [if_pos hdirect, placeOf_addr _ _ (Nat.lt_succ_of_lt hdirect)] at *
    exact hslot (Nat.lt_succ_of_lt hdirect) hne
  · have hj : bn - NDIRECT < NINDIRECT := by
      unfold MAXFILE at hbn
      omega
    have hplace : bn + 1 = NDIRECT + 1 + (bn - NDIRECT) := by omega
    rw [if_neg hdirect, hplace] at hne
    have hind : (s.itable ip).addr NDIRECT ≠ 0 := by
      intro hz
      refine hne ?_
      unfold placeOf
      rw [if_neg (by omega), if_neg fun hc => hc.2 hz]
    rw [if_neg hdirect, if_neg hdirect, if_pos hj, hplace, placeOf_entry _ _ hj hind] at *
    rw [wp_bind, hslot (Nat.lt_succ_self _) hind, if_neg hind, wp_bind, wp_bread]
    dsimp only
    rw [if_neg hne, wp_pure]

/-- Every block below the size of inode `i` is mapped. -/
def Filled (sb : Superblock) (s : FsState) (i : Nat) : Prop :=
  ∀ bn, bn * BSIZE < (view sb s i).size.toNat → bn < MAXFILE ∧ blockAt sb s (i, filePlace bn) ≠ 0

/-- The loop of `readi` below the size changes nothing. -/
theorem readiLoop_filled (h : Inv sb s loose) (hip : Loaded s ip)
    (hfull : Filled sb s (s.itable ip).inum) (copyout : Nat → Bool) (fuel : Nat)
    (acc : List UInt8) (hend : left = 0 ∨ off + left ≤ (s.itable ip).size.toNat) :
    wp (readiLoop sb ip copyout fuel off left acc) (fun _ t => t = s) (fun _ => False) s := by
  induction fuel generalizing off left acc with
  | zero => exact rfl
  | succ fuel ih =>
    unfold readiLoop
    split
    · exact rfl
    · rename_i hleft
      have hbelow : off / BSIZE * BSIZE < (view sb s (s.itable ip).inum).size.toNat := by
        have := Nat.div_mul_le_self off BSIZE
        rw [h.view_eq hip]
        omega
      obtain ⟨hbn, hne⟩ := hfull (off / BSIZE) hbelow
      rw [h.blockAt_eq hip] at hne
      rw [wp_bind, wp_bmap hbn hne, if_neg hne, wp_bind, wp_bread]
      dsimp only
      split
      · exact ih _ (by omega)
      · exact rfl

/-- `readi` of a file without holes changes nothing. -/
theorem readi_same (h : Inv sb s loose) (hip : Loaded s ip)
    (hfull : Filled sb s (s.itable ip).inum) (copyout : Nat → Bool) (off n : Nat) :
    wp (readi sb ip copyout off n) (fun _ t => t = s) (fun _ => False) s := by
  rw [readi, wp_bind, wp_inode]
  split
  · exact rfl
  · refine readiLoop_filled h hip hfull copyout _ [] ?_
    split
    · omega
    · omega

/-- What `readi` returns. -/
def AFile.read (f : AFile) (off n : Nat) : List UInt8 :=
  if off > f.size.toNat ∨ (off + n) % 2 ^ 32 < off then []
  else f.bytes off (min n (f.size.toNat - off))

/-- `readi` of a file without holes returns its bytes and changes nothing. -/
theorem readi_filled (hl : Layout sb) (h : Inv sb s loose) (hip : Loaded s ip)
    (hfull : Filled sb s (s.itable ip).inum) (off n : Nat) :
    readi sb ip (fun _ => true) off n s =
      .ok (some ((files sb s (s.itable ip).inum).read off n), s) := by
  have hsize : (files sb s (s.itable ip).inum).size = (s.itable ip).size := by
    rw [h.files_eq hip, absFile_of_alloc (h.cached ip hip).2.1]
  have hrun : wp (readi sb ip (fun _ => true) off n) (fun r _ =>
      r = some ((files sb s (s.itable ip).inum).read off n)) (fun _ => True) s := by
    rw [readi, wp_bind, wp_inode]
    unfold AFile.read
    rw [hsize]
    split
    · exact rfl
    · rename_i hin
      have hmin : (if off + n > (s.itable ip).size.toNat then (s.itable ip).size.toNat - off
          else n) = min n ((s.itable ip).size.toNat - off) := by
        split
        · omega
        · omega
      dsimp only
      rw [hmin]
      refine wp_mono (readiLoop_spec hl (fun _ => true) _ h hip off _ []) ?_ fun _ _ => trivial
      exact fun r t ht => ht.2.2 (fun _ => rfl) (Nat.le_refl _)
  obtain ⟨r, t, hr, rfl⟩ := wp_returns (readi_same h hip hfull (fun _ => true) off n) fun _ => id
  rw [hr, wp_ok hrun hr]

/-- Without a wrap these are the bytes up to the size. -/
theorem AFile.read_eq (f : AFile) (h : off + n < 2 ^ 32) :
    f.read off n = f.bytes off (min n (f.size.toNat - off)) := by
  unfold AFile.read
  rw [Nat.mod_eq_of_lt h]
  split
  · have : min n (f.size.toNat - off) = 0 := by omega
    rw [this]
    rfl
  · rfl

/-! ### Byte arrays -/

/-- No file has a hole. -/
def NoHoles (sb : Superblock) (s : FsState) : Prop :=
  ∀ i, Alloc sb (view sb s) i → Filled sb s i

/-- A place that was to be filled has a block. -/
theorem Fills.mapped (h : Fills sb s t i (lacking sb s i P)) (hk : k ∈ P) :
    blockAt sb t (i, k) ≠ 0 := by
  by_cases hempty : blockAt sb s (i, k) = 0
  · exact h.filled k (Finset.mem_filter.mpr ⟨hk, hempty⟩)
  · rw [h.kept hempty]
    exact hempty

/-- The type and the size of a file are those of its inode. -/
theorem files_type (s : FsState) (i : Nat) : (files sb s i).type = (view sb s i).type :=
  absFile_type _ _

theorem files_size (h : (view sb s i).type ≠ .none) :
    (files sb s i).size = (view sb s i).size := by
  unfold files
  rw [absFile_of_alloc h]

/-- `writei` leaves no hole: it starts at the size or below it. -/
theorem noHoles_writei (hfull : NoHoles sb s) (hip : Loaded s ip) (h : Inv sb s loose)
    (ht : Inv sb t loose) (hrew : Rewrite sb s t ip) (hoff : off ≤ (s.itable ip).size.toNat)
    (hmax : off + n ≤ MAXFILE * BSIZE)
    (hsize : (t.itable ip).size.toNat ≤ max (s.itable ip).size.toNat (off + n))
    (hfills : Fills sb s t (s.itable ip).inum (lacking sb s (s.itable ip).inum (waysTo off n))) :
    NoHoles sb t := by
  have hbs : 0 < BSIZE := by decide
  have hip' : Loaded t ip := (hrew.loaded ip).mpr hip
  intro i hi bn hbn
  by_cases hinum : i = (s.itable ip).inum
  · subst hinum
    have hview : view sb t (s.itable ip).inum = (t.itable ip).toDinode := by
      rw [← hrew.inum ip]
      exact ht.view_eq hip'
    rw [hview] at hbn
    by_cases hold : bn * BSIZE < (s.itable ip).size.toNat
    · obtain ⟨hlt, hne⟩ := hfull _ (h.alloc hip) bn (by rw [h.view_eq hip]; exact hold)
      refine ⟨hlt, ?_⟩
      rw [hfills.kept hne]
      exact hne
    · -- The block starts in the range.
      have hlt : bn < MAXFILE := by
        refine Nat.lt_of_mul_lt_mul_right (a := BSIZE) ?_
        omega
      refine ⟨hlt, hfills.mapped ?_⟩
      refine Finset.mem_biUnion.mpr ⟨bn * BSIZE - off, Finset.mem_range.mpr (by omega), ?_⟩
      rw [show off + (bn * BSIZE - off) = bn * BSIZE by omega, Nat.mul_div_cancel _ hbs]
      exact filePlace_mem_way bn
  · have hfile := hrew.files i hinum hi.1
    have htype : (view sb s i).type ≠ .none := by
      rw [← files_type, ← hfile, files_type]
      exact hi.2
    have hsz : (view sb t i).size = (view sb s i).size := by
      rw [← files_size hi.2, ← files_size htype, hfile]
    rw [hsz] at hbn
    obtain ⟨hlt, hne⟩ := hfull i ⟨hi.1, htype⟩ bn hbn
    refine ⟨hlt, ?_⟩
    rw [hfills.kept hne]
    exact hne

/-- The root directory of the bare file system is an empty byte array. -/
theorem bareState_noHoles : NoHoles Mkfs.superblock bareState := by
  intro i hi bn hbn
  have hview := bareState_view hi.1
  have hroot : i = ROOTINO := by
    by_contra hne
    rw [if_neg hne] at hview
    exact hi.2 (by rw [hview]; exact bare_free)
  rw [if_pos hroot] at hview
  rw [hview] at hbn
  exact absurd hbn (Nat.not_lt_zero _)

end Xv6.Proofs.Fs
