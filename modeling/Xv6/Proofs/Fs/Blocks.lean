import Xv6.Proofs.Fs.View

/-!
# `Xv6.Proofs.Fs.Blocks`: `balloc`, `bfree` and `bmap`

`balloc` hands out a block of the data area that nobody holds, zeroed, and leaves it loose.
`bfree` takes a loose block back, and its panic is out of reach for one. `bmap` records what
`balloc` gave it in an address slot or in an entry of the indirect block, so it leaves the
loose blocks as they were.

No file changes: the new blocks are zero, which is what a missing block reads as. `Fill`
names this effect of `bmap`, and is closed under composition, so it is also the effect of a
`readi` that meets a hole.

`Benign` excludes the two panics that are to be proved unreachable. The errors of every
function here are benign.
-/

set_option autoImplicit false

namespace Xv6.Proofs.Fs

open Lib Lib.Action Kernel

/-- A panic other than those for a free block that is freed and a free inode that is
locked. -/
def Benign (e : Panic) : Prop := e ≠ .freeingFreeBlock ∧ e ≠ .ilockNoType

variable {sb : Superblock} {s t u : FsState} {loose : Nat → Prop} {ip : Ino}

/-- A store to a block that inode `i` does not hold leaves its file alone. -/
theorem dataKept_update {c : Nat} {P : Nat → Prop}
    (hc : ∀ i k, P i → held sb (view sb s) s.disk (i, k) ≠ 0 →
      held sb (view sb s) s.disk (i, k) ≠ c) (blk : Block) :
    DataKept sb s (Function.update s.disk c blk) P :=
  fun i hP hi _ hx bn => fileBlock_update hi hx (fun k => hc i k hP) blk bn

/-- A store past the inode area leaves the dinodes alone. -/
theorem dinodeAt_update_of_le {d : Disk} {c i : Nat} (hc : sb.bmapstart ≤ c)
    (hi : InArea sb i) (blk : Block) :
    dinodeAt sb (Function.update d c blk) i = dinodeAt sb d i :=
  dinodeAt_congr hi fun b hb => Function.update_of_ne (by omega) _ _

/-- What `balloc` leaves. -/
theorem balloc_spec (hl : Layout sb) (h : Inv sb s loose) :
    wp (balloc sb) (fun b t => t.itable = s.itable ∧ dataStart sb ≤ b ∧ b < sb.size ∧
      ¬ loose b ∧ (∀ p, held sb (view sb s) s.disk p ≠ b) ∧ t.disk b = Bytes.zero BSIZE ∧
      (∀ c, dataStart sb ≤ c → c ≠ b → t.disk c = s.disk c) ∧
      Inv sb t (fun c => c = b ∨ loose c) ∧
      (∀ i, InArea sb i → dinodeAt sb t.disk i = dinodeAt sb s.disk i) ∧
      (∀ i, InArea sb i → files sb t i = files sb s i) ∧
      ∀ k, Loaded s k → SyncedAt sb s k → SyncedAt sb t k) Benign s := by
  rw [balloc, wp_bind, wp_read]
  split
  · rename_i b hfind
    have hbit : bitAt sb s.disk b = false := by simpa using List.find?_some hfind
    have hb : b < sb.size := List.mem_range.mp (List.mem_of_find?_eq_some hfind)
    obtain ⟨hlo, hfree⟩ := h.owned.free_block hbit
    have hbb := BBLOCK_lt sb hb
    have hbstart : sb.bmapstart ≤ b := by
      unfold dataStart at hlo
      omega
    rw [wp_bind, wp_logWrite, bzero, wp_bind, wp_logWrite, wp_pure]
    -- The two stores, to a bitmap block and to a block that nobody holds.
    have hdin : ∀ i, InArea sb i → dinodeAt sb (Function.update (Function.update s.disk
        (BBLOCK sb b) (setBit (s.disk (BBLOCK sb b)) b)) b (Bytes.zero BSIZE)) i
        = dinodeAt sb s.disk i := by
      intro i hi
      rw [dinodeAt_update_of_le hbstart hi, dinodeAt_update_of_le (le_BBLOCK sb b) hi]
    have hdata : DataKept sb s (Function.update (Function.update s.disk
        (BBLOCK sb b) (setBit (s.disk (BBLOCK sb b)) b)) b (Bytes.zero BSIZE)) fun _ => True := by
      intro i _ hi x hx bn
      have hnb : ∀ k, held sb (view sb s) s.disk (i, k) ≠ 0 →
          held sb (view sb s) s.disk (i, k) ≠ BBLOCK sb b := by
        intro k hk he
        have := (h.owned.owns.area (i, k) hk).1
        omega
      have hsame : ∀ k, held sb (view sb s) (Function.update s.disk (BBLOCK sb b)
          (setBit (s.disk (BBLOCK sb b)) b)) (i, k) = held sb (view sb s) s.disk (i, k) := by
        intro k
        refine held_congr (fun _ _ => rfl) ?_ (i, k)
        intro j hj hxj
        have := (h.owned.indirect_area hj hxj).1
        exact Function.update_of_ne (by omega) _ _
      rw [fileBlock_update hi hx (fun k _ => by rw [hsame]; exact hfree (i, k)),
        fileBlock_update hi hx hnb]
    have hstep := blocks_step h hdin hdata (h.owned.reserve hl hb hbit)
    refine ⟨rfl, hlo, hb, ?_, hfree, Function.update_self .., ?_, hstep.1, hdin, hstep.2⟩
    · intro hloose
      have := h.owned.bit_of_loose hloose hlo hb
      rw [hbit] at this
      exact absurd this (by decide)
    · intro c hc hcb
      exact (Function.update_of_ne hcb _ _).trans (Function.update_of_ne (by omega) _ _)
  · exact ⟨by decide, by decide⟩

/-- What `bfree` of a loose block leaves. It does not panic. -/
theorem bfree_spec (h : Inv sb s loose) {b : Nat} (hloose : loose b)
    (hlo : dataStart sb ≤ b) (hb : b < sb.size) :
    wp (bfree sb b) (fun _ t => t.itable = s.itable ∧
      (∀ c, dataStart sb ≤ c → t.disk c = s.disk c) ∧
      (∀ i, InArea sb i → dinodeAt sb t.disk i = dinodeAt sb s.disk i) ∧
      (∀ i, InArea sb i → view sb t i = view sb s i) ∧
      Inv sb t (fun c => c ≠ b ∧ loose c) ∧
      (∀ i, InArea sb i → files sb t i = files sb s i) ∧
      ∀ k, Loaded s k → SyncedAt sb s k → SyncedAt sb t k) (fun _ => False) s := by
  have hbb := BBLOCK_lt sb hb
  rw [bfree, wp_bind, wp_read, if_pos (h.owned.bit_of_loose hloose hlo hb), wp_logWrite]
  have hdin : ∀ i, InArea sb i → dinodeAt sb (Function.update s.disk (BBLOCK sb b)
      (clearBit (s.disk (BBLOCK sb b)) b)) i = dinodeAt sb s.disk i :=
    fun i hi => dinodeAt_update_of_le (le_BBLOCK sb b) hi _
  have hdata : DataKept sb s (Function.update s.disk (BBLOCK sb b)
      (clearBit (s.disk (BBLOCK sb b)) b)) fun _ => True := by
    refine dataKept_update ?_ _
    intro i k _ hk he
    have := (h.owned.owns.area (i, k) hk).1
    omega
  have hstep := blocks_step h hdin hdata (h.owned.release hloose hlo hb)
  refine ⟨rfl, ?_, hdin, fun i hi => view_blocks fun _ => hdin i hi, hstep.1, hstep.2⟩
  intro c hc
  exact Function.update_of_ne (by omega) _ _

/-! ### `bmap` -/

/-- The effect of `bmap`: the inode behind `ip` may have got new blocks in memory, and no
dinode and no file has changed. -/
structure Fill (sb : Superblock) (s t : FsState) (ip : Ino) : Prop where
  table : ∃ addrs, t.itable = (withDinode s ip
    { (s.itable ip).toDinode with addrs := addrs }).itable
  dinodes : ∀ i, InArea sb i → dinodeAt sb t.disk i = dinodeAt sb s.disk i
  files : ∀ i, InArea sb i → files sb t i = files sb s i
  synced : ∀ k, Loaded s k → SyncedAt sb s k → SyncedAt sb t k

theorem withDinode_same (s : FsState) (ip : Ino) :
    withDinode s ip (s.itable ip).toDinode = s := by
  unfold withDinode
  rw [Function.update_eq_self]

/-- Two changes of the addresses of one slot are one. -/
theorem addrs_trans {a b : Fin (NDIRECT + 1) → UInt32}
    (ha : t.itable = (withDinode s ip { (s.itable ip).toDinode with addrs := a }).itable)
    (hb : u.itable = (withDinode t ip { (t.itable ip).toDinode with addrs := b }).itable) :
    u.itable = (withDinode s ip { (s.itable ip).toDinode with addrs := b }).itable := by
  have hself : t.itable ip = { s.itable ip with
      toDinode := { (s.itable ip).toDinode with addrs := a } } := by rw [ha, withDinode_self]
  rw [hb]
  unfold withDinode
  show Function.update t.itable ip _ = Function.update s.itable ip _
  rw [hself, ha]
  unfold withDinode
  show Function.update (Function.update s.itable ip _) ip _ = _
  rw [Function.update_idem]

namespace Fill

theorem refl (sb : Superblock) (s : FsState) (ip : Ino) : Fill sb s s ip :=
  ⟨⟨(s.itable ip).addrs, by rw [withDinode_same]⟩, fun _ _ => rfl, fun _ _ => rfl,
    fun _ _ h => h⟩

theorem inum (h : Fill sb s t ip) (k : Ino) : (t.itable k).inum = (s.itable k).inum := by
  obtain ⟨a, ha⟩ := h.table
  rw [ha, withDinode_inum]

theorem loaded (h : Fill sb s t ip) (k : Ino) : Loaded t k ↔ Loaded s k := by
  obtain ⟨a, ha⟩ := h.table
  unfold Loaded
  rw [ha, withDinode_ref, withDinode_valid]

/-- The slot changes in its addresses only. -/
theorem self (h : Fill sb s t ip) : ∃ addrs, t.itable ip
    = { s.itable ip with toDinode := { (s.itable ip).toDinode with addrs := addrs } } := by
  obtain ⟨a, ha⟩ := h.table
  exact ⟨a, by rw [ha, withDinode_self]⟩

theorem size (h : Fill sb s t ip) : (t.itable ip).size = (s.itable ip).size := by
  obtain ⟨a, ha⟩ := h.self
  rw [ha]

theorem trans (h : Fill sb s t ip) (h' : Fill sb t u ip) : Fill sb s u ip := by
  obtain ⟨a, ha⟩ := h.table
  obtain ⟨b, hb⟩ := h'.table
  exact ⟨⟨b, addrs_trans ha hb⟩, fun i hi => (h'.dinodes i hi).trans (h.dinodes i hi),
    fun i hi => (h'.files i hi).trans (h.files i hi),
    fun k hk hs => h'.synced k ((h.loaded k).mpr hk) (h.synced k hk hs)⟩

/-- A step on the blocks that changes no file. -/
theorem of_blocks (htable : t.itable = s.itable)
    (hdin : ∀ i, InArea sb i → dinodeAt sb t.disk i = dinodeAt sb s.disk i)
    (hfiles : ∀ i, InArea sb i → Fs.files sb t i = Fs.files sb s i)
    (hsynced : ∀ k, Loaded s k → SyncedAt sb s k → SyncedAt sb t k) (ip : Ino) :
    Fill sb s t ip :=
  ⟨⟨(s.itable ip).addrs, by rw [withDinode_same, htable]⟩, hdin, hfiles, hsynced⟩

end Fill

/-- Recording a loose zero block in an address slot. -/
theorem adopt_addr_step (hl : Layout sb) {b k : Nat} (h : Inv sb s fun c => c = b ∨ loose c)
    (hip : Loaded s ip) (hk : k < NDIRECT + 1) (hx : (s.itable ip).addr k = 0)
    (hlo : dataStart sb ≤ b) (hb : b < sb.size) (hnl : ¬ loose b)
    (hzero : s.disk b = Bytes.zero BSIZE) :
    Inv sb (withDinode s ip ((s.itable ip).setAddr k b)) loose ∧
      Fill sb s (withDinode s ip ((s.itable ip).setAddr k b)) ip := by
  have hb32 : b < 2 ^ 32 := Nat.lt_trans hb hl.size
  have hview := h.view_eq hip
  have hown := h.owned.adopt_addr hl (h.alloc hip) hk (by rw [hview]; exact hx) (Or.inl rfl) hlo
    hb hzero
  rw [hview] at hown
  have hown' := hown.loose_congr loose fun c =>
    ⟨fun hc => ⟨fun he => hnl (he ▸ hc), Or.inr hc⟩, fun hc => hc.2.resolve_left hc.1⟩
  obtain ⟨hinv, hfiles, hsync⟩ := table_step h hip (setAddr_type _ k b) hown'
  have hfile : absFile ((s.itable ip).setAddr k b) s.disk
      = absFile (s.itable ip).toDinode s.disk := by
    unfold absFile
    rw [setAddr_type]
    split
    · rfl
    · simp only [fileBlock_setAddr hk hx hb32 hzero]
      rfl
  refine ⟨hinv, ⟨_, rfl⟩, fun _ _ => rfl, ?_, ?_⟩
  · intro i _
    rw [hfiles i]
    by_cases hi : i = (s.itable ip).inum
    · subst hi
      rw [Function.update_self, hfile, h.files_eq hip]
    · rw [Function.update_of_ne hi]
  · intro k' hk' hs
    by_cases hkip : k' = ip
    · subst hkip
      obtain ⟨hsub, heq⟩ := hs
      refine ⟨?_, ?_⟩
      · -- The slot was empty, so the dinode has no other block there.
        intro j
        rw [withDinode_inum, withDinode_disk, withDinode_self]
        show _ ∨ _ = ((s.itable k').setAddr k b).addr j
        rw [addr_setAddr _ _ hk hb32]
        by_cases hjk : j = k
        · left
          subst hjk
          rcases hsub j with h0 | he
          · exact h0
          · rw [he, hx]
        · rw [if_neg hjk]
          exact hsub j
      · rw [withDinode_inum, withDinode_disk, withDinode_self]
        show _ = absFile ((s.itable k').setAddr k b) s.disk
        rw [hfile, heq]
    · exact hsync k' hkip hs

theorem bmapSlot_spec (hl : Layout sb) (h : Inv sb s loose) (hip : Loaded s ip) {k : Nat}
    (hk : k < NDIRECT + 1) :
    wp (bmapSlot sb ip k) (fun b t => Fill sb s t ip ∧ Inv sb t loose ∧
      b = (t.itable ip).addr k ∧ b ≠ 0) Benign s := by
  rw [bmapSlot, wp_bind, wp_inode]
  split
  · rename_i hx
    rw [wp_bind]
    refine wp_post (balloc_spec hl h) ?_
    rintro b t ⟨htable, hlo, hb, hnl, hfree, hzero, _, hinv, hdin, hfiles, hsync⟩
    have hb0 : b ≠ 0 := by
      have := h.owned.owns.pos
      omega
    rw [if_neg hb0, wp_bind, wp_setInode, wp_pure]
    have hip' : Loaded t ip := by
      unfold Loaded
      rw [htable]
      exact hip
    obtain ⟨hinv', hfill⟩ := adopt_addr_step hl hinv hip' hk (by rw [htable]; exact hx) hlo hb hnl
      hzero
    refine ⟨(Fill.of_blocks htable hdin hfiles hsync ip).trans hfill, hinv', ?_, hb0⟩
    have hself := withDinode_self t ip ((t.itable ip).setAddr k b)
    show b = ((withDinode t ip ((t.itable ip).setAddr k b)).itable ip).addr k
    rw [hself]
    show b = ((t.itable ip).setAddr k b).addr k
    rw [addr_setAddr _ _ hk (Nat.lt_trans hb hl.size), if_pos rfl]
  · rename_i hx
    exact ⟨Fill.refl sb s ip, h, rfl, hx⟩

/-- Recording a loose zero block in an entry of the indirect block. -/
theorem adopt_entry_step (hl : Layout sb) {b j : Nat} (h : Inv sb s fun c => c = b ∨ loose c)
    (hip : Loaded s ip) (hind : (s.itable ip).addr NDIRECT ≠ 0) (hj : j < NINDIRECT)
    (hz : (s.disk ((s.itable ip).addr NDIRECT)).getWord 4 (4 * j) = 0)
    (hlo : dataStart sb ≤ b) (hb : b < sb.size) (hnl : ¬ loose b)
    (hzero : s.disk b = Bytes.zero BSIZE) {d' : Disk}
    (hd' : d' = Function.update s.disk ((s.itable ip).addr NDIRECT)
      ((s.disk ((s.itable ip).addr NDIRECT)).setWord 4 (4 * j) b)) :
    Inv sb { s with disk := d' } loose ∧ Fill sb s { s with disk := d' } ip := by
  have hb32 : b < 2 ^ 32 := Nat.lt_trans hb hl.size
  have hview := h.view_eq hip
  have halloc := h.alloc hip
  have hindv : (view sb s (s.itable ip).inum).addr NDIRECT = (s.itable ip).addr NDIRECT := by
    rw [hview]
  have hindarea := h.owned.indirect_area halloc (by rw [hindv]; exact hind)
  rw [hindv] at hindarea
  -- The new block is loose, and the indirect block is held.
  have hne : b ≠ (s.itable ip).addr NDIRECT := by
    intro he
    have hap := h.owned.owns.apart ((s.itable ip).inum, NDIRECT)
    rw [held_of_alloc halloc, placeOf_indirect, hindv, ← he] at hap
    exact hap (by rw [he]; exact hind) (Or.inl rfl)
  have hown := h.owned.adopt_entry hl halloc (by rw [hindv]; exact hind) hj
    (by rw [hindv]; exact hz) (Or.inl rfl) hlo hb
  rw [hindv, ← hd'] at hown
  have hown' := hown.loose_congr loose fun c =>
    ⟨fun hc => ⟨fun he => hnl (he ▸ hc), Or.inr hc⟩, fun hc => hc.2.resolve_left hc.1⟩
  have hdin : ∀ i, InArea sb i → dinodeAt sb d' i = dinodeAt sb s.disk i := by
    intro i hi
    rw [hd']
    refine dinodeAt_update_of_le ?_ hi _
    have := hindarea.1
    unfold dataStart at this
    omega
  have hdata : DataKept sb s d' fun _ => True := by
    intro i _ hi x hx bn
    by_cases hii : i = (s.itable ip).inum
    · subst hii
      have := h.owned.fileBlock_entry halloc (by rw [hindv]; exact hind) hj
        (by rw [hindv]; exact hz) hb32 (by rw [hindv]; exact hne) hzero hx bn
      rw [hindv, ← hd'] at this
      exact this
    · rw [hd']
      refine fileBlock_update hi hx ?_ _ bn
      intro k hk he
      have hp := h.owned.owns.once (i, k) ((s.itable ip).inum, NDIRECT)
      rw [held_of_alloc halloc, placeOf_indirect, hindv] at hp
      have := hp he hk
      simp only [Prod.mk.injEq] at this
      exact hii this.1
  obtain ⟨hinv, hfiles, hsync⟩ := blocks_step h hdin hdata hown'
  exact ⟨hinv, Fill.of_blocks (s := s) (t := { s with disk := d' }) rfl hdin hfiles hsync ip⟩

/-- What `bmap` leaves, and the block number it returns. -/
theorem bmap_spec (hl : Layout sb) (h : Inv sb s loose) (hip : Loaded s ip) (bn : Nat) :
    wp (bmap sb ip bn) (fun b t => Fill sb s t ip ∧ Inv sb t loose ∧ b ≠ 0 ∧
      b = placeOf (t.itable ip).toDinode t.disk (filePlace bn)) Benign s := by
  unfold bmap
  split
  · -- A direct block.
    rename_i hbn
    refine wp_post (bmapSlot_spec hl h hip (Nat.lt_succ_of_lt hbn)) ?_
    rintro b t ⟨hfill, hinv, hb, hb0⟩
    refine ⟨hfill, hinv, hb0, ?_⟩
    have hplace : filePlace bn = bn := if_pos hbn
    rw [hplace, placeOf_addr _ _ (Nat.lt_succ_of_lt hbn)]
    exact hb
  · rename_i hbn
    have hplace : filePlace bn = NDIRECT + 1 + (bn - NDIRECT) := by
      unfold filePlace
      rw [if_neg hbn]
      omega
    split
    · rename_i hj
      rw [wp_bind]
      refine wp_post (bmapSlot_spec hl h hip (Nat.lt_succ_self _)) ?_
      rintro addr t ⟨hfill, hinv, haddr, haddr0⟩
      have hip' : Loaded t ip := (hfill.loaded ip).mpr hip
      have hind : (t.itable ip).addr NDIRECT ≠ 0 := by rw [← haddr]; exact haddr0
      rw [if_neg haddr0, wp_bind, wp_bread]
      dsimp only
      split
      · -- A hole: the new block is recorded in the indirect block.
        rename_i hz
        rw [wp_bind]
        refine wp_post (balloc_spec hl hinv) ?_
        rintro b u ⟨htable, hlo, hb, hnl, hfree, hzero, hdisk, hinvu, hdin, hfiles, hsync⟩
        have hb0 : b ≠ 0 := by
          have := h.owned.owns.pos
          omega
        have hview := hinv.view_eq hip'
        have halloc := hinv.alloc hip'
        have hindarea := hinv.owned.indirect_area halloc (by rw [hview]; exact hind)
        rw [hview] at hindarea
        have hne : addr ≠ b := by
          have := hfree ((t.itable ip).inum, NDIRECT)
          rw [held_of_alloc halloc, placeOf_indirect, hview] at this
          rw [haddr]
          exact this
        have hsame : u.disk addr = t.disk addr := by
          refine hdisk addr ?_ hne
          rw [haddr]
          exact hindarea.1
        have hipu : Loaded u ip := by
          unfold Loaded
          rw [htable]
          exact hip'
        have haddru : addr = (u.itable ip).addr NDIRECT := by rw [htable]; exact haddr
        rw [if_neg hb0, wp_bind, wp_bread, wp_bind, wp_logWrite, wp_pure]
        obtain ⟨hinv', hfill'⟩ := adopt_entry_step hl hinvu hipu (by rw [htable]; exact hind) hj
          (by rw [← haddru, hsame]; exact hz) hlo hb hnl hzero rfl
        rw [← haddru] at hinv' hfill'
        refine ⟨(hfill.trans (Fill.of_blocks htable hdin hfiles hsync ip)).trans hfill', hinv',
          hb0, ?_⟩
        have hb32 : b < 256 ^ 4 := Nat.lt_trans hb hl.size
        have hfit : 4 * (bn - NDIRECT) + 4 ≤ BSIZE := by
          have hnd : NINDIRECT = 256 := rfl
          have hbs : BSIZE = 1024 := rfl
          omega
        rw [hplace, placeOf_entry _ _ hj (by rw [htable]; exact hind)]
        show b = (Function.update u.disk addr _ ((u.itable ip).addr NDIRECT)).getWord 4 _
        rw [← haddru, Function.update_self, Bytes.getWord_setWord_of_lt hfit hb32]
      · rename_i ha
        refine ⟨hfill, hinv, ha, ?_⟩
        rw [hplace, placeOf_entry _ _ hj hind, ← haddr]
    · exact ⟨by decide, by decide⟩

end Xv6.Proofs.Fs
