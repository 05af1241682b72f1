import Xv6.Proofs.Fs.ByteFiles
import Xv6.Proofs.Fs.Entries
import Xv6.Proofs.Fs.Footprint

/-!
# `Xv6.Proofs.Fs.Mapped`: reading never allocates

`readi` goes through the same `bmap` as `writei`, which allocates where a file has a hole. It
does not write the inode back, so a hole below the size would cost a block. `AllMapped` says
that there is none, in the dinodes and in the copies of the inode table.

A copy may be ahead of its dinode in its addresses (`Synced`), and the dinode takes over when
the last reference goes. So the dinode behind a copy is part of the predicate. What happens to
one inode does not touch the others (`AllMapped.frame`): their dinodes and copies stay, and the
blocks of their indirect blocks are in the data area. `writei` stores there only in blocks of
its own file, and `itrunc`, `iupdate`, `ialloc` and `iput` do not store there at all
(`SameData`).
-/

set_option autoImplicit false

namespace Xv6.Proofs.Fs

open Lib Lib.Action Kernel

variable {sb : Superblock} {s t u : FsState} {loose : Nat → Prop} {ip dp : Ino}

/-! ### The predicate -/

/-- Every block of the inode below its size is mapped. -/
def Mapped (d : Disk) (x : Dinode) : Prop :=
  ∀ bn, bn * BSIZE < x.size.toNat → bn < MAXFILE ∧ placeOf x d (filePlace bn) ≠ 0

/-- The blocks of every inode are mapped. -/
structure AllMapped (sb : Superblock) (s : FsState) : Prop where
  dinodes : ∀ i, InArea sb i → (dinodeAt sb s.disk i).type ≠ .none →
    Mapped s.disk (dinodeAt sb s.disk i)
  copies : ∀ k, Loaded s k → Mapped s.disk (s.itable k).toDinode

theorem Mapped.of_size_zero {d : Disk} {x : Dinode} (h : x.size = 0) : Mapped d x := by
  intro bn hbn
  rw [h] at hbn
  exact absurd hbn (Nat.not_lt_zero _)

/-- An inode with some of the addresses of another one keeps its places when the other does. -/
theorem Mapped.of_sub {d d' : Disk} {x y : Dinode} (h : Mapped d x) (hsub : Sub x y)
    (hplace : ∀ p, placeOf y d' p = placeOf y d p) : Mapped d' x := by
  intro bn hbn
  obtain ⟨hlt, hne⟩ := h bn hbn
  refine ⟨hlt, fun hzero => hne ?_⟩
  have hy := hplace (filePlace bn)
  unfold placeOf at hzero hy ⊢
  by_cases hk : filePlace bn < NDIRECT + 1
  · rwa [if_pos hk] at hzero ⊢
  · -- The indirect block is that of the other one.
    rw [if_neg hk] at hzero hy ⊢
    rw [if_neg hk] at hy
    rcases hsub NDIRECT with hnone | heq
    · rw [if_neg fun hc => hc.2 hnone]
    · rw [heq] at hzero ⊢
      exact hy.symm.trans hzero

theorem AllMapped.noHoles (h : AllMapped sb s) (hinv : Inv sb s loose) : NoHoles sb s := by
  intro i hi bn hbn
  have hplace : blockAt sb s (i, filePlace bn) = placeOf (view sb s i) s.disk (filePlace bn) :=
    held_of_alloc hi _
  rw [hplace]
  rcases view_cases s i with ⟨k, hk, rfl⟩ | hnone
  · rw [hinv.view_eq hk] at hbn ⊢
    exact h.copies k hk bn hbn
  · rw [view_unloaded hnone] at hbn ⊢
    exact h.dinodes i hi.1 (by rw [← view_unloaded hnone]; exact hi.2) bn hbn

/-- What one inode `j` undergoes leaves the other ones mapped. -/
theorem AllMapped.frame {j : Nat} (h : AllMapped sb s) (hinv : Inv sb s loose)
    (hs : ∀ k, Loaded s k → (s.itable k).inum ≠ j → SyncedAt sb s k)
    (hplace : ∀ i, i ≠ j → Alloc sb (view sb s) i → ∀ p,
      placeOf (view sb s i) t.disk p = placeOf (view sb s i) s.disk p)
    (hdin : ∀ i, InArea sb i → i ≠ j → dinodeAt sb t.disk i = dinodeAt sb s.disk i)
    (hcopy : ∀ k, Loaded t k → (t.itable k).inum ≠ j → Loaded s k ∧
      (s.itable k).inum = (t.itable k).inum ∧ (t.itable k).toDinode = (s.itable k).toDinode)
    (hself : InArea sb j → (dinodeAt sb t.disk j).type ≠ .none →
      Mapped t.disk (dinodeAt sb t.disk j))
    (hown : ∀ k, Loaded t k → (t.itable k).inum = j → Mapped t.disk (t.itable k).toDinode) :
    AllMapped sb t := by
  constructor
  · intro i hi htype
    by_cases hij : i = j
    · rw [hij] at hi htype ⊢
      exact hself hi htype
    · rw [hdin i hi hij] at htype ⊢
      have hold := h.dinodes i hi htype
      rcases view_cases s i with ⟨k, hk, rfl⟩ | hnone
      · -- The dinode is behind a copy.
        have hkept := hplace _ hij (hinv.alloc hk)
        rw [hinv.view_eq hk] at hkept
        exact hold.of_sub (hs k hk hij).1 hkept
      · have hview : view sb s i = dinodeAt sb s.disk i := view_unloaded hnone
        have hkept := hplace i hij ⟨hi, by rw [hview]; exact htype⟩
        rw [hview] at hkept
        exact hold.of_sub (Sub.refl _) hkept
  · intro k hk
    by_cases hij : (t.itable k).inum = j
    · exact hown k hk hij
    · obtain ⟨hks, hinum, heq⟩ := hcopy k hk hij
      rw [heq]
      have hkept := hplace _ (by rw [hinum]; exact hij) (hinv.alloc hks)
      rw [hinv.view_eq hks] at hkept
      exact (h.copies k hks).of_sub (Sub.refl _) hkept

/-- A change of one slot that keeps its dinode and loads nothing. -/
theorem AllMapped.slot {k : Ino} {n : Inode} (h : AllMapped sb s)
    (hn : n.toDinode = (s.itable k).toDinode) (hload : Loaded (withSlot s k n) k → Loaded s k) :
    AllMapped sb (withSlot s k n) := by
  refine ⟨h.dinodes, fun l hl => ?_⟩
  have hsame : ((withSlot s k n).itable l).toDinode = (s.itable l).toDinode :=
    withSlot_forall (P := fun l n => n.toDinode = (s.itable l).toDinode) hn (fun _ => rfl) l
  rw [hsame]
  exact h.copies l (loaded_of_withSlot hload l hl)

/-! ### The data area -/

/-- The blocks of the data area are as they were. -/
def SameData (sb : Superblock) (s t : FsState) : Prop :=
  ∀ c, dataStart sb ≤ c → t.disk c = s.disk c

theorem SameData.trans (h : SameData sb s t) (h' : SameData sb t u) : SameData sb s u :=
  fun c hc => (h' c hc).trans (h c hc)

/-- With the data area the places of every inode stay. -/
theorem SameData.place (h : SameData sb s t) (hinv : Inv sb s loose) {i : Nat}
    (hi : Alloc sb (view sb s) i) (p : Nat) :
    placeOf (view sb s i) t.disk p = placeOf (view sb s i) s.disk p :=
  placeOf_congr (fun hx => h _ (hinv.owned.indirect_area hi hx).1) p

theorem logWrite_data {b : Nat} {blk : Block} (hb : b < dataStart sb) :
    wp (logWrite b blk) (fun _ t => t.itable = s.itable ∧ SameData sb s t) (fun _ => True) s := by
  rw [wp_logWrite]
  exact ⟨rfl, fun c hc => Function.update_of_ne (by omega) _ _⟩

theorem bfree_data {b : Nat} (hb : b < sb.size) :
    wp (bfree sb b) (fun _ t => t.itable = s.itable ∧ SameData sb s t) (fun _ => True) s := by
  rw [bfree, wp_bind, wp_read]
  split
  · exact logWrite_data (BBLOCK_lt sb hb)
  · trivial

theorem InArea.lt {i : Nat} (h : InArea sb i) : IBLOCK sb i < dataStart sb :=
  Nat.lt_of_lt_of_le h (Nat.le_add_right _ _)

theorem iupdate_data (harea : InArea sb (s.itable ip).inum) :
    wp (iupdate sb ip) (fun _ t => SameData sb s t) (fun _ => True) s := by
  rw [iupdate, wp_bind, wp_inode, wp_bind, wp_bread]
  exact wp_post (logWrite_data harea.lt) fun _ _ ht => ht.2

/-- The inode of a slot lies in the inode area, and its blocks in the data area. -/
def Placed (sb : Superblock) (s : FsState) (ip : Ino) : Prop :=
  InArea sb (s.itable ip).inum ∧ ∀ p, placeOf (s.itable ip).toDinode s.disk p ≠ 0 →
    dataStart sb ≤ placeOf (s.itable ip).toDinode s.disk p ∧
      placeOf (s.itable ip).toDinode s.disk p < sb.size

theorem Inv.placed (h : Inv sb s loose) (hip : Loaded s ip) : Placed sb s ip := by
  refine ⟨(h.cached ip hip).1, fun p hp => ?_⟩
  rw [← h.blockAt_eq hip] at hp ⊢
  exact h.blocksApart.area _ hp

/-- While `itrunc` runs: the addresses of the slot are the old ones, or zero. -/
structure Truncating (sb : Superblock) (s t : FsState) (ip : Ino) : Prop where
  data : SameData sb s t
  inum : (t.itable ip).inum = (s.itable ip).inum
  sub : Sub (t.itable ip).toDinode (s.itable ip).toDinode

/-- A block is freed, and its address cleared. -/
theorem Truncating.clear {k : Nat} (h : Truncating sb s t ip) (hp : Placed sb s ip)
    (hk : k < NDIRECT + 1) (hx : (t.itable ip).addr k ≠ 0) :
    wp (bfree sb ((t.itable ip).addr k) >>= fun _ =>
      setInode ip fun n => { n with toDinode := n.setAddr k 0 })
      (fun _ u => Truncating sb s u ip) (fun _ => True) t := by
  have haddr : (t.itable ip).addr k = (s.itable ip).addr k := (h.sub k).resolve_left hx
  have hsize := hp.2 k
  rw [placeOf_addr _ _ hk, ← haddr] at hsize
  rw [wp_bind]
  refine wp_post (bfree_data (hsize hx).2) ?_
  rintro _ u ⟨htable, hdata⟩
  rw [wp_setInode]
  have hslot : (Function.update u.itable ip { u.itable ip with
      toDinode := (u.itable ip).setAddr k 0 } ip) = { t.itable ip with
      toDinode := (t.itable ip).setAddr k 0 } := by rw [Function.update_self, htable]
  refine ⟨h.data.trans hdata, ?_, fun j => ?_⟩
  · show (Function.update u.itable ip _ ip).inum = _
    rw [hslot]
    exact h.inum
  · show (Function.update u.itable ip _ ip).addr j = 0 ∨
      (Function.update u.itable ip _ ip).addr j = _
    rw [hslot, addr_setAddr _ _ hk (by decide)]
    split
    · exact .inl rfl
    · exact h.sub j

theorem itrunc_data (hp : Placed sb s ip) :
    wp (itrunc sb ip) (fun _ t => SameData sb s t) (fun _ => True) s := by
  rw [itrunc, wp_bind]
  refine wp_post (wp_forEach (fun rest t => (∀ k ∈ rest, k < NDIRECT) ∧ Truncating sb s t ip)
    ?_ ⟨fun k hk => List.mem_range.mp hk, fun _ _ => rfl, rfl, Sub.refl _⟩) ?_
  · rintro k rest t ⟨hrest, h⟩
    have hlater : ∀ j ∈ rest, j < NDIRECT := fun j hj => hrest j (List.mem_cons_of_mem _ hj)
    rw [itruncDirect, wp_bind, wp_inode]
    split
    · exact ⟨hlater, h⟩
    · rename_i hx
      refine wp_post (h.clear hp (Nat.lt_succ_of_lt (hrest k List.mem_cons_self)) hx) ?_
      exact fun _ _ hu => ⟨hlater, hu⟩
  · rintro _ t ⟨-, h⟩
    have hend : ∀ u, Truncating sb s u ip → wp (setInode ip (fun n => { n with size := 0 })
        >>= fun _ => iupdate sb ip) (fun _ v => SameData sb s v) (fun _ => True) u := by
      intro u hu
      rw [wp_bind, wp_setInode]
      refine wp_post (iupdate_data ?_) fun _ _ hv => hu.data.trans hv
      show InArea sb (Function.update u.itable ip _ ip).inum
      rw [Function.update_self]
      show InArea sb (u.itable ip).inum
      rw [hu.inum]
      exact hp.1
    rw [wp_bind]
    refine wp_post ?_ fun _ u hu => hend u hu
    rw [itruncIndirect, wp_bind, wp_inode]
    split
    · exact h
    · rename_i hx
      have haddr := (h.sub NDIRECT).resolve_left hx
      have hind := hp.2 NDIRECT
      rw [placeOf_indirect, ← haddr] at hind
      -- The indirect block is that of the start, and so are its entries.
      have hblock := h.data _ (hind hx).1
      rw [wp_bind, wp_bread, hblock, wp_bind]
      refine wp_post (wp_forEach (fun rest u => (∀ j ∈ rest, j < NINDIRECT) ∧
        Truncating sb s u ip ∧ u.itable = t.itable) ?_
        ⟨fun j hj => List.mem_range.mp hj, h, rfl⟩) ?_
      · rintro j rest u ⟨hrest, hu, htable⟩
        have hlater : ∀ j ∈ rest, j < NINDIRECT := fun m hm => hrest m (List.mem_cons_of_mem _ hm)
        split
        · exact ⟨hlater, hu, htable⟩
        · rename_i hentry
          have hsize := hp.2 (NDIRECT + 1 + j)
          rw [placeOf_entry _ _ (hrest j List.mem_cons_self) (by rw [← haddr]; exact hx),
            ← haddr] at hsize
          refine wp_post (bfree_data (hsize hentry).2) ?_
          rintro _ v ⟨hv, hdata⟩
          exact ⟨hlater, ⟨hu.data.trans hdata, by rw [hv]; exact hu.inum,
            by rw [hv]; exact hu.sub⟩, hv.trans htable⟩
      · rintro _ u ⟨-, hu, htable⟩
        have hclear := hu.clear hp (Nat.lt_succ_self NDIRECT) (by rw [htable]; exact hx)
        rw [htable] at hclear
        exact hclear

theorem iput_data (h : Inv sb s loose) (href : 0 < (s.itable ip).ref) :
    wp (iput sb ip) (fun _ t => SameData sb s t) (fun _ => True) s := by
  by_cases hf : Frees s ip
  · have hp : Placed sb s ip := h.placed ⟨href, hf.2.1⟩
    rw [iput, wp_bind, wp_inode, if_pos ⟨hf.1, hf.2⟩, wp_bind, ifree, wp_bind, acquiresleep,
      wp_bind, wp_inode]
    split
    · trivial
    · rw [wp_setInode]
      generalize hs₁ : ({ s with itable := Function.update s.itable ip _ } : FsState) = s₁
      have hself : s₁.itable ip = { s.itable ip with locked := true } := by
        rw [← hs₁]
        exact Function.update_self ..
      have hdisk : s₁.disk = s.disk := by rw [← hs₁]
      have hp₁ : Placed sb s₁ ip := by
        unfold Placed
        rw [hself, hdisk]
        exact hp
      rw [wp_bind]
      refine wp_mono (wp_both (itrunc_data hp₁) ((within_itrunc sb ip).run s₁)) ?_
        fun _ _ => trivial
      rintro _ t ⟨hdata, hwithin⟩
      rw [wp_bind, wp_setInode, wp_bind]
      refine wp_post (iupdate_data ?_) fun _ u hu c hc => ?_
      · show InArea sb (Function.update t.itable ip _ ip).inum
        rw [Function.update_self, hwithin ip, hself]
        exact hp.1
      · exact (hu c hc).trans ((hdata c hc).trans (by rw [hdisk]))
  · rw [iput_keeps hf]
    exact fun _ _ => rfl

/-! ### Reading -/

/-- What the calls keep. -/
structure Sane (sb : Superblock) (s : FsState) : Prop where
  inv : ∃ loose, Inv sb s loose
  synced : Synced sb s
  mapped : AllMapped sb s

theorem Sane.filled (h : Sane sb s) (hip : Loaded s ip) : Filled sb s (s.itable ip).inum := by
  obtain ⟨loose, hinv⟩ := h.inv
  exact h.mapped.noHoles hinv _ (hinv.alloc hip)

theorem Sane.readi (h : Sane sb s) (hip : Loaded s ip) (copyout : Nat → Bool) (off n : Nat) :
    wp (readi sb ip copyout off n) (fun _ t => t = s) (fun _ => False) s := by
  obtain ⟨loose, hinv⟩ := h.inv
  exact readi_same hinv hip (h.filled hip) copyout off n

/-- The reads of entries leave the state as it is. -/
theorem Sane.readDirent (h : Sane sb s) (hdp : Loaded s dp) (off : Nat) (e : Panic) :
    Maintains (· = s) (readDirent sb dp off e) := by
  refine Maintains.bind ⟨?_⟩ fun r => ?_
  · rintro t rfl
    exact wp_mono (h.readi hdp (fun _ => true) off DIRENTSIZE) (fun _ _ hu => hu) fun _ _ => trivial
  · cases r with
    | none => exact .fail
    | some bs => exact .ite .pure .fail

/-- `dirlookup` takes a reference, and does nothing else. -/
theorem Sane.dirlookup (h : Sane sb s) (hdp : Loaded s dp) (name : List UInt8) :
    wp (dirlookup sb dp name) (fun r t => match r with
      | some r => ∃ inum, IgetAt s inum r.1 t
      | none => t = s) (fun _ => True) s := by
  obtain ⟨loose, hinv⟩ := h.inv
  rw [Kernel.dirlookup, wp_bind, wp_inode]
  split
  · trivial
  · refine wp_post (wp_firstSome (fun _ t => t = s)
      (fun (r : Ino × Nat) t => ∃ inum, IgetAt s inum r.1 t) ?_ rfl) ?_
    · rintro off rest t rfl
      rw [wp_bind]
      refine wp_post ((h.readDirent hdp off _).run t rfl) ?_
      rintro de u rfl
      split
      · rfl
      · split
        · rw [hinv.dev dp hdp.1, wp_bind]
          refine wp_mono (iget_cases hinv.dev de.inum) ?_ fun _ _ => trivial
          exact fun k v hk => ⟨de.inum, hk⟩
        · rfl
    · intro r t ht
      cases r with
      | none => exact ht
      | some r => exact ht

theorem Sane.dirlinkSlot (h : Sane sb s) (hdp : Loaded s dp) :
    Maintains (· = s) (dirlinkSlot sb dp) :=
  .bind .read fun _ => .bind (.firstSome (fun off => .bind (h.readDirent hdp off _) fun _ => .pure)
    _) fun _ => .pure

theorem Sane.isdirempty (h : Sane sb s) (hdp : Loaded s dp) :
    Maintains (· = s) (isdirempty sb dp) :=
  .bind .read fun _ => .bind (.firstSome (fun off => .bind (h.readDirent hdp off _) fun _ => .pure)
    _) fun _ => .pure

/-! ### Writing -/

theorem NoHoles.mapped (h : NoHoles sb s) (hinv : Inv sb s loose) (hip : Loaded s ip) :
    Mapped s.disk (s.itable ip).toDinode := by
  intro bn hbn
  have hfull := h _ (hinv.alloc hip) bn (by rw [hinv.view_eq hip]; exact hbn)
  rwa [hinv.blockAt_eq hip] at hfull

/-- A file is rewritten, and the inode written to its dinode. -/
theorem Rewrite.mapped (h : Rewrite sb s t ip) (hs : Sane sb s) (hinv : Inv sb s loose)
    (hip : Loaded s ip) (hplace : ∀ i, i ≠ (s.itable ip).inum → Alloc sb (view sb s) i → ∀ p,
      placeOf (view sb s i) t.disk p = placeOf (view sb s i) s.disk p)
    (hcopy : Mapped t.disk (t.itable ip).toDinode) : AllMapped sb t := by
  rcases h.written with rfl | hw
  · exact hs.mapped
  · refine hs.mapped.frame (j := (s.itable ip).inum) hinv (fun k hk _ => hs.synced k hk) hplace
      (fun i hi hne => by rw [hw i hi, if_neg hne]) ?_ ?_ ?_
    · intro k hk hne
      have hkip : k ≠ ip := by
        rintro rfl
        exact hne (h.inum k)
      exact ⟨(h.loaded k).mp hk, (h.inum k).symm, by rw [h.of_ne hkip]⟩
    · intro hi _
      rw [hw _ hi, if_pos rfl]
      exact hcopy
    · intro k hk hinum
      rw [h.inum k] at hinum
      rw [hinv.uniq k ip ((h.loaded k).mp hk).1 hip.1 hinum]
      exact hcopy

/-- The places of the other inodes, from those that are seen. -/
theorem Rewrite.place_other (h : Rewrite sb s t ip) (hinv : Inv sb s loose)
    (ht : Inv sb t loose) {i : Nat} (hi : i ≠ (s.itable ip).inum) (halloc : Alloc sb (view sb s) i)
    {p : Nat} (hp : blockAt sb t (i, p) = blockAt sb s (i, p)) :
    placeOf (view sb s i) t.disk p = placeOf (view sb s i) s.disk p := by
  have hsees : blockAt sb s (i, p) = placeOf (view sb s i) s.disk p := held_of_alloc halloc p
  rw [← hsees, ← hp]
  rcases view_cases s i with ⟨k, hk, rfl⟩ | hnone
  · have hkip : k ≠ ip := by
      rintro rfl
      exact hi rfl
    have hsee := ht.blockAt_eq ((h.loaded k).mpr hk) p
    rw [h.of_ne hkip] at hsee
    rw [hinv.view_eq hk, hsee]
  · have hview : view sb t i = view sb s i := by
      rw [view_unloaded hnone, view_unloaded fun k hk => by
        rw [h.inum k]
        exact hnone k ((h.loaded k).mp hk)]
      rcases h.written with rfl | hw
      · rfl
      · rw [hw i halloc.1, if_neg hi]
    have hsee : blockAt sb t (i, p) = placeOf (view sb t i) t.disk p :=
      held_of_alloc ((alloc_congr hview).mpr halloc) p
    rw [hsee, hview]

theorem Sane.writei (hl : Layout sb) (h : Sane sb s) (hip : Loaded s ip) (copyin : CopyIn)
    (off n : Nat) :
    wp (writei sb ip copyin off n) (fun _ t => Sane sb t ∧ Rewrite sb s t ip) (fun _ => True)
      s := by
  obtain ⟨loose, hinv⟩ := h.inv
  have hspec := writei_spec hl hinv hip copyin off n
  by_cases hok : off ≤ (s.itable ip).size.toNat ∧ off + n ≤ MAXFILE * BSIZE
  · refine wp_mono (wp_both hspec (writei_fills hl copyin hinv hip hok.1 hok.2)) ?_
      fun _ _ => trivial
    rintro _ t ⟨⟨hrew, hinv', -⟩, k, hk, hsize, -, hfills⟩
    have hnone := noHoles_writei (h.mapped.noHoles hinv) hip hinv hinv' hrew hok.1 (by omega)
      hsize hfills
    refine ⟨⟨⟨loose, hinv'⟩, hrew.synced h.synced, hrew.mapped h hinv hip ?_
      (hnone.mapped hinv' ((hrew.loaded ip).mpr hip))⟩, hrew⟩
    exact fun i hi halloc p =>
      hrew.place_other hinv hinv' hi halloc (hfills.other (i, p) fun he => absurd he hi)
  · -- The write is refused.
    have hsame : wp (Kernel.writei sb ip copyin off n) (fun _ t => t = s) (fun _ => True) s := by
      rw [Kernel.writei, wp_bind, wp_inode]
      split
      · rfl
      · split
        · rfl
        · omega
    refine wp_mono (wp_both hspec hsame) ?_ fun _ _ => trivial
    rintro _ t ⟨⟨hrew, -⟩, rfl⟩
    exact ⟨h, hrew⟩

theorem Sane.itrunc (hl : Layout sb) (h : Sane sb s) (hip : Loaded s ip) :
    wp (itrunc sb ip) (fun _ t => Sane sb t) (fun _ => True) s := by
  obtain ⟨loose, hinv⟩ := h.inv
  refine wp_mono (wp_both (itrunc_spec hl hinv hip) (itrunc_data (hinv.placed hip))) ?_
    fun _ _ => trivial
  rintro _ t ⟨⟨hrew, hinv', -, hfile⟩, hdata⟩
  have hip' : Loaded t ip := (hrew.loaded ip).mpr hip
  have hzero : (t.itable ip).size = 0 := by
    rw [← hinv'.view_eq hip', ← files_size (hinv'.alloc hip').2, hrew.inum, hfile]
  exact ⟨⟨loose, hinv'⟩, hrew.synced h.synced, hrew.mapped h hinv hip
    (fun i _ halloc p => hdata.place hinv halloc p) (.of_size_zero hzero)⟩

/-- `iupdate` writes a copy to its dinode. The fields of the copy may be ahead. -/
theorem AllMapped.iupdate (hl : Layout sb) (h : AllMapped sb s) (hinv : Inv sb s loose)
    (hs : SyncedOff sb s ip) (hip : Loaded s ip) :
    wp (iupdate sb ip) (fun _ t => AllMapped sb t) (fun _ => True) s := by
  refine wp_mono (wp_both (iupdate_step hl hinv hip) (iupdate_data (hinv.cached ip hip).1)) ?_
    fun _ _ => trivial
  rintro _ t ⟨⟨htable, -, -, hdin, -⟩, hdata⟩
  have hload : ∀ k, Loaded t k ↔ Loaded s k := fun k => by
    unfold Loaded
    rw [htable]
  have hcopy : Mapped t.disk (s.itable ip).toDinode := by
    have hkept := hdata.place hinv (hinv.alloc hip)
    rw [hinv.view_eq hip] at hkept
    exact (h.copies ip hip).of_sub (Sub.refl _) hkept
  refine h.frame (j := (s.itable ip).inum) hinv
    (fun k hk hne => hs k (fun he => hne (by rw [he])) hk)
    (fun i _ halloc p => hdata.place hinv halloc p)
    (fun i _ hne => by rw [hdin i, if_neg hne]) ?_ ?_ ?_
  · intro k hk _
    exact ⟨(hload k).mp hk, by rw [htable], by rw [htable]⟩
  · intro _ _
    rw [hdin, if_pos rfl]
    exact hcopy
  · intro k hk hinum
    rw [htable] at hinum ⊢
    rw [hinv.uniq k ip ((hload k).mp hk).1 hip.1 hinum]
    exact hcopy

/-- The device numbers and the links of an inode change. -/
theorem Sane.update (hl : Layout sb) (h : Sane sb s) (hip : Loaded s ip) {f : Inode → Inode}
    {major minor nlink : Int16} (hf : f (s.itable ip) = { s.itable ip with toDinode :=
      { (s.itable ip).toDinode with major := major, minor := minor, nlink := nlink } }) :
    wp (setInode ip f >>= fun _ => iupdate sb ip) (fun _ t => Sane sb t ∧ Same s t ∧
      ∀ k, k ≠ ip → t.itable k = s.itable k) (fun _ => True) s := by
  obtain ⟨loose, hinv⟩ := h.inv
  have hspec := update_spec hl hinv hip hf
  obtain ⟨y, hy⟩ : ∃ y : Dinode, y = { (s.itable ip).toDinode with
    major := major, minor := minor, nlink := nlink } := ⟨_, rfl⟩
  rw [← hy] at hf
  obtain ⟨hinv', -, hsync⟩ := fields_step (y := y) hinv hip (by rw [hy]) (by rw [hy])
  have hip' : Loaded (withDinode s ip y) ip := (withDinode_loaded s ip ip y).mpr hip
  have hmapped : AllMapped sb (withDinode s ip y) := by
    refine ⟨h.mapped.dinodes, fun k hk => ?_⟩
    have hold := h.mapped.copies k ((withDinode_loaded s ip k y).mp hk)
    by_cases hkip : k = ip
    · subst hkip
      rw [withDinode_self, hy]
      exact hold
    · rw [withDinode_of_ne s y hkip]
      exact hold
  have hend : wp (setInode ip f >>= fun _ => iupdate sb ip) (fun _ t => AllMapped sb t)
      (fun _ => True) s := by
    rw [wp_bind, wp_withDinode hf]
    refine hmapped.iupdate hl hinv' (fun k hk hload => hsync k hk (h.synced k ?_)) hip'
    exact (withDinode_loaded s ip k y).mp hload
  refine wp_mono (wp_both hspec hend) ?_ fun _ _ => trivial
  rintro _ t ⟨⟨hinvt, hsame, hsynct, -, hothers, -⟩, hmap⟩
  exact ⟨⟨⟨loose, hinvt⟩, hsynct h.synced, hmap⟩, hsame, hothers⟩

/-! ### The inode table -/

theorem IgetAt.sane {inum : Nat} {k : Ino} (hg : IgetAt s inum k t) (h : Sane sb s) :
    Sane sb t := by
  obtain ⟨loose, hinv⟩ := h.inv
  obtain ⟨hinv', -, hsync⟩ := hg.step hinv
  refine ⟨⟨loose, hinv'⟩, h.synced.of_slots (fun _ => hg.loaded) hsync, ?_⟩
  have hload : Loaded t k → Loaded s k := hg.loaded
  cases hg with
  | hit => exact h.mapped.slot rfl hload
  | recycle => exact h.mapped.slot rfl hload

theorem Sane.ilock (h : Sane sb s) (harea : InArea sb (s.itable ip).inum) :
    wp (ilock sb ip) (fun _ t => Sane sb t ∧ LockedAt sb s t ip) (fun _ => True) s := by
  obtain ⟨loose, hinv⟩ := h.inv
  refine wp_mono (ilock_spec hinv harea) ?_ fun _ _ => trivial
  rintro _ t ⟨hinv', -, hsync, hlock⟩
  refine ⟨⟨⟨loose, hinv'⟩, hsync h.synced, ?_, fun k hk => ?_⟩, hlock⟩
  · rw [hlock.disk]
    exact h.mapped.dinodes
  · rw [hlock.disk]
    by_cases hkip : k = ip
    · -- The copy is the old one, or the dinode.
      subst hkip
      obtain ⟨-, htype, -⟩ := hinv'.cached k hlock.loaded
      rw [hlock.slot] at htype ⊢
      dsimp only at htype ⊢
      split at htype
      · rename_i hvalid
        rw [if_pos hvalid]
        exact h.mapped.copies k ⟨hlock.ref, hvalid⟩
      · rename_i hvalid
        rw [if_neg hvalid]
        exact h.mapped.dinodes _ harea htype
    · have hslot := hlock.others k hkip
      unfold Loaded at hk
      rw [hslot] at hk ⊢
      exact h.mapped.copies k hk

theorem Sane.iunlock (h : Sane sb s) :
    wp (iunlock ip) (fun _ t => Sane sb t ∧ 0 < (t.itable ip).ref ∧
      ∀ k, k ≠ ip → t.itable k = s.itable k) (fun _ => True) s := by
  obtain ⟨loose, hinv⟩ := h.inv
  refine wp_mono (iunlock_spec hinv) ?_ fun _ _ => trivial
  rintro _ t ⟨hinv', -, hsync, href, rfl⟩
  refine ⟨⟨⟨loose, hinv'⟩, hsync h.synced, h.mapped.slot rfl fun hk => ?_⟩, ?_,
    fun k hk => withSlot_of_ne s _ hk⟩
  · unfold Loaded at hk
    rw [withSlot_self] at hk
    exact hk
  · rw [withSlot_self]
    exact href

theorem Sane.iput (hl : Layout sb) (h : Sane sb s) (href : 0 < (s.itable ip).ref) :
    wp (iput sb ip) (fun _ t => Sane sb t ∧ ∀ k, k ≠ ip → t.itable k = s.itable k)
      (fun _ => True) s := by
  obtain ⟨loose, hinv⟩ := h.inv
  have hspec := iput_spec hl hinv h.synced href
  have hmapped : wp (Kernel.iput sb ip) (fun _ t => AllMapped sb t) (fun _ => True) s := by
    by_cases hf : Frees s ip
    · refine wp_mono (wp_both (iput_frees hl hinv hf) (iput_data hinv href)) ?_ fun _ _ => trivial
      rintro _ t ⟨⟨hinv', hfiles, -, hothers, hinum, hzero, -, hdin⟩, hdata⟩
      have hne : ∀ k, Loaded t k → k ≠ ip := by
        rintro k hk rfl
        exact absurd hk.1 (by rw [hzero]; decide)
      have hold : ∀ k, Loaded t k → Loaded s k := by
        intro k hk
        have hslot := hothers k (hne k hk)
        unfold Loaded at hk ⊢
        rwa [hslot] at hk
      -- No slot holds the freed inode.
      have hnone : ∀ k, Loaded t k → (t.itable k).inum ≠ (s.itable ip).inum := by
        intro k hk he
        rw [hothers k (hne k hk)] at he
        exact hne k hk (hinv.uniq k ip (hold k hk).1 href he)
      refine h.mapped.frame (j := (s.itable ip).inum) hinv (fun k hk _ => h.synced k hk)
        (fun i _ halloc p => hdata.place hinv halloc p) hdin ?_ ?_ ?_
      · intro k hk _
        rw [hothers k (hne k hk)]
        exact ⟨hold k hk, rfl, rfl⟩
      · intro hi htype
        refine absurd ?_ htype
        rw [← view_unloaded hnone, ← files_type, hfiles _ hi, if_pos rfl]
        rfl
      · exact fun k hk he => absurd he (hnone k hk)
    · rw [iput_keeps hf]
      refine h.mapped.slot rfl fun hk => ?_
      unfold Loaded at hk
      rw [withSlot_self] at hk
      exact ⟨href, hk.2⟩
  refine wp_mono (wp_both hspec hmapped) ?_ fun _ _ => trivial
  rintro _ t ⟨⟨hinv', hsync, -, hothers, -⟩, hmap⟩
  exact ⟨⟨hinv', hsync, hmap⟩, hothers⟩

theorem Sane.iunlockput (hl : Layout sb) (h : Sane sb s) :
    wp (iunlockput sb ip) (fun _ t => Sane sb t ∧ ∀ k, k ≠ ip → t.itable k = s.itable k)
      (fun _ => True) s := by
  rw [Kernel.iunlockput, wp_bind]
  refine wp_post h.iunlock ?_
  rintro _ t ⟨ht, href, hothers⟩
  refine wp_post (ht.iput hl href) ?_
  rintro _ u ⟨hu, hothers'⟩
  exact ⟨hu, fun k hk => (hothers' k hk).trans (hothers k hk)⟩

theorem Sane.ialloc (hl : Layout sb) (h : Sane sb s) (type : InodeType) :
    wp (ialloc sb ROOTDEV type) (fun _ t => Sane sb t) (fun _ => True) s := by
  obtain ⟨loose, hinv⟩ := h.inv
  have hdata : wp (Kernel.ialloc sb ROOTDEV type) (fun _ t => SameData sb s t) (fun _ => True)
      s := by
    rw [Kernel.ialloc, wp_bind, wp_read]
    split
    · rename_i i hfind
      have hi : i < sb.ninodes := List.mem_range.mp (List.mem_of_find?_eq_some hfind)
      rw [wp_bind]
      refine wp_post (logWrite_data (hl.inodes i hi).lt) ?_
      rintro _ u ⟨htable, hu⟩
      rw [wp_bind]
      refine wp_mono (iget_cases (fun k hk => ?_) i) ?_ fun _ _ => trivial
      · rw [htable] at hk ⊢
        exact hinv.dev k hk
      · exact fun k v hk c hc => by rw [hk.disk]; exact hu c hc
    · exact fun _ _ => rfl
  refine wp_mono (wp_both (ialloc_spec hl hinv type) hdata) ?_ fun _ _ => trivial
  rintro r t ⟨ht, hdata⟩
  cases r with
  | none =>
    obtain rfl : t = s := ht
    exact h
  | some k =>
    obtain ⟨i, -, -, hfree, -, ⟨u, htable, -, hget, hdin⟩, hinv', -, hsync⟩ := ht
    have hold : ∀ j, Loaded t j → Loaded s j ∧ (s.itable j).inum = (t.itable j).inum ∧
        (t.itable j).toDinode = (s.itable j).toDinode := by
      intro j hj
      have hju := hget.loaded hj
      obtain ⟨r, -, hslot⟩ := hget.in_use hju.1
      rw [← htable, hslot]
      refine ⟨?_, rfl, rfl⟩
      unfold Loaded at hju ⊢
      rwa [htable] at hju
    have hnone : ∀ j, Loaded t j → (t.itable j).inum ≠ i := by
      intro j hj
      rw [← (hold j hj).2.1]
      exact hinv.not_loaded hfree j (hold j hj).1
    refine ⟨⟨loose, hinv'⟩, hsync h.synced, h.mapped.frame (j := i) hinv
      (fun k hk _ => h.synced k hk) (fun i _ halloc p => hdata.place hinv halloc p) ?_
      (fun j hj _ => hold j hj) ?_ fun j hj he => absurd he (hnone j hj)⟩
    · intro j _ hne
      rw [hget.disk, hdin, if_neg hne]
    · intro _ _
      rw [hget.disk, hdin, if_pos rfl]
      exact .of_size_zero rfl

theorem Sane.dirlink (hl : Layout sb) (h : Sane sb s) (hdp : Loaded s dp) (name : List UInt8)
    (inum : Nat) : wp (dirlink sb dp name inum) (fun _ t => Sane sb t) (fun _ => True) s := by
  rw [Kernel.dirlink, wp_bind]
  refine wp_post (h.dirlookup hdp name) ?_
  intro r t ht
  cases r with
  | some r =>
    obtain ⟨i, hget⟩ := ht
    dsimp only
    rw [wp_bind]
    exact wp_post ((hget.sane h).iput hl hget.ref_pos) fun _ _ hu => hu.1
  | none =>
    obtain rfl : t = s := ht
    dsimp only
    rw [wp_bind]
    refine wp_post ((h.dirlinkSlot hdp).run t rfl) ?_
    rintro off u rfl
    rw [wp_bind]
    exact wp_post (h.writei hl hdp _ off DIRENTSIZE) fun _ _ hu => hu.1

/-! ### `unlink` -/

/-- `sys_unlink`, from the entry found on: the directory is locked, and the inode found lies in
the inode area. -/
theorem Sane.unlinkEntry (hl : Layout sb) (h : Sane sb s) (hdp : Loaded s dp)
    (hlock : (s.itable dp).locked = true) (harea : InArea sb (s.itable ip).inum) (off : Nat) :
    wp (unlinkEntry sb dp ip off) (fun _ t => Sane sb t) (fun _ => True) s := by
  rw [Kernel.unlinkEntry, wp_bind]
  refine wp_post (h.ilock harea) ?_
  rintro _ t ⟨ht, hlocked⟩
  have hne : dp ≠ ip := by
    rintro rfl
    rw [hlocked.free] at hlock
    cases hlock
  have hipt := hlocked.loaded
  have hdpt : Loaded t dp := by
    unfold Loaded
    rw [hlocked.others dp hne]
    exact hdp
  rw [wp_bind, wp_inode]
  split
  · trivial
  · rw [wp_bind]
    have hfull : Maintains (· = t) (if (t.itable ip).type = .dir then do
        let e ← Kernel.isdirempty sb ip
        Pure.pure (!e)
      else Pure.pure false) := .ite (.bind (ht.isdirempty hipt) fun _ => .pure) .pure
    refine wp_post (hfull.run t rfl) ?_
    rintro full u rfl
    split
    · rw [wp_bind]
      refine wp_post (ht.iunlockput hl) ?_
      rintro _ v ⟨hv, -⟩
      rw [wp_bind]
      exact wp_post (hv.iunlockput hl) fun _ _ hw => hw.1
    · rw [wp_bind]
      refine wp_post (ht.writei hl hdpt _ off DIRENTSIZE) ?_
      rintro _ v ⟨hv, hrew⟩
      have hdpv : Loaded v dp := (hrew.loaded dp).mpr hdpt
      have hipv : Loaded v ip := (hrew.loaded ip).mpr hipt
      split
      · trivial
      · rw [wp_bind, wp_inode, wp_bind]
        -- The directory loses the link of `..`.
        have hwhen : wp (Action.when ((v.itable ip).type = .dir) (do
            setInode dp fun n => { n with nlink := n.nlink - 1 }
            Kernel.iupdate sb dp)) (fun _ w => Sane sb w ∧ Loaded w ip) (fun _ => True) v := by
          rw [wp_when]
          refine ⟨fun _ => ?_, fun _ => ⟨hv, hipv⟩⟩
          refine wp_post (hv.update hl hdpv rfl) ?_
          exact fun _ w hw => ⟨hw.1, hw.2.1.loaded hipv⟩
        refine wp_post hwhen ?_
        rintro _ w ⟨hw, hipw⟩
        rw [wp_bind]
        refine wp_post (hw.iunlockput hl) ?_
        rintro _ x ⟨hx, hothers⟩
        have hipx : Loaded x ip := by
          unfold Loaded
          rw [hothers ip hne.symm]
          exact hipw
        refine wp_bind_assoc.mpr (wp_bind.mpr (wp_post (hx.update hl hipx rfl) ?_))
        rintro _ y ⟨hy, -⟩
        rw [wp_bind]
        exact wp_post (hy.iunlockput hl) fun _ _ hz => hz.1

/-! ### Every call -/

/-- The calls of the inode layer, `bmap` apart. -/
theorem Sane.call (hl : Layout sb) (h : Sane sb s) {c : Call} (hc : Permitted sb s c)
    (hb : ∀ ip bn, c ≠ .bmap ip bn) :
    wp (c.run sb) (fun _ t => Sane sb t) (fun _ => True) s := by
  obtain ⟨loose, hinv⟩ := h.inv
  cases c with
  | bmap ip bn => exact absurd rfl (hb ip bn)
  | readi ip copyout off n =>
    rw [Call.run, wp_bind]
    refine wp_mono (h.readi hc copyout off n) ?_ fun _ _ => trivial
    rintro _ t rfl
    exact h
  | writei ip copyin off n =>
    rw [Call.run, wp_bind]
    exact wp_post (h.writei hl hc copyin off n) fun _ _ ht => ht.1
  | itrunc ip => exact h.itrunc hl hc
  | dirlookup dp name =>
    rw [Call.run, wp_bind]
    refine wp_post (h.dirlookup hc name) fun r t ht => ?_
    cases r with
    | none =>
      obtain rfl : t = s := ht
      exact h
    | some r =>
      obtain ⟨inum, hget⟩ := ht
      exact hget.sane h
  | dirlink dp name inum =>
    rw [Call.run, wp_bind]
    exact h.dirlink hl hc name inum
  | ialloc type =>
    rw [Call.run, wp_bind]
    exact h.ialloc hl type
  | iget inum =>
    rw [Call.run, wp_bind]
    exact wp_mono (iget_cases hinv.dev inum) (fun _ _ hk => hk.sane h) fun _ _ => trivial
  | idup ip =>
    rw [Call.run, wp_bind]
    refine wp_mono (idup_spec hinv hc) ?_ fun _ _ => trivial
    rintro _ t ⟨-, hinv', -, hsync, rfl⟩
    refine ⟨⟨loose, hinv'⟩, hsync h.synced, h.mapped.slot rfl fun hk => ⟨hc, ?_⟩⟩
    have hvalid := hk.2
    rwa [withSlot_self] at hvalid
  | ilock ip => exact wp_post (h.ilock hc) fun _ _ ht => ht.1
  | iunlock ip => exact wp_post h.iunlock fun _ _ ht => ht.1
  | iput ip => exact wp_post (h.iput hl hc) fun _ _ ht => ht.1
  | iupdate ip =>
    refine wp_mono (wp_both (iupdate_step hl hinv hc)
      (h.mapped.iupdate hl hinv (h.synced.off ip) hc)) ?_ fun _ _ => trivial
    rintro _ t ⟨⟨-, hinv', -, -, hsync⟩, hmap⟩
    exact ⟨⟨loose, hinv'⟩, hsync (h.synced.off ip), hmap⟩
  | update ip major minor nlink => exact wp_post (h.update hl hc rfl) fun _ _ ht => ht.1

theorem bareState_sane : Sane Mkfs.superblock bareState := by
  obtain ⟨howned, hsound, hsynced⟩ := bareState_owned
  refine ⟨⟨_, Inv.of_blocksOwned howned hsound⟩, hsynced, fun i hi htype => ?_, fun k hk => ?_⟩
  · have hdin : dinodeAt Mkfs.superblock bareState.disk i = _ := bareDisk_dinode (fun _ _ => rfl) hi
    rw [hdin] at htype ⊢
    split at htype
    · rename_i hroot
      rw [if_pos hroot]
      exact .of_size_zero rfl
    · exact absurd bare_free htype
  · rw [bareState_slot hk.1, bareState_self]
    exact .of_size_zero rfl

end Xv6.Proofs.Fs
