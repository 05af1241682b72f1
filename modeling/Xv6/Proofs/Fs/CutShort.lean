import Xv6.Proofs.Fs.ByteFiles

/-!
# `Xv6.Proofs.Fs.CutShort`: a write that a bad user buffer cuts short

`either_copyin` copies page by page into the buffer of the block, and may have moved some bytes
when it fails. `writei` then leaves without `log_write` and reports the pieces before. The bytes
that were moved are in the cached block, past the count that the call returns: a later `readi`
sees them if they lie below the size, until the block is evicted and read again.

`cutAt` says how far a source goes and what the failing copy has moved. In the state after the
call the file has these bytes (`writei_cut`); with the block read again it has not, which is the
state after the same call whose failing copy moves nothing (`dropped`).
-/

set_option autoImplicit false

namespace Xv6.Proofs.Fs

open Lib Lib.Action Kernel

variable {sb : Superblock} {s t : FsState} {loose : Nat → Prop} {ip : Ino} {off left n tot : Nat}

/-- How far a source goes: the count that `writei` reaches, and the bytes that the copy that
failed has moved. -/
def cutAt (copyin : CopyIn) : Nat → Nat → Nat → Nat → Nat × List UInt8
  | 0, _, _, tot => (tot, [])
  | fuel + 1, off, left, tot =>
    if left = 0 then
      (tot, [])
    else
      let m := min left (BSIZE - off % BSIZE)
      if (copyin tot m).2 then cutAt copyin fuel (off + m) (left - m) (tot + m)
      else (tot, (copyin tot m).1.take m)

/-- The source whose failing copies move nothing. -/
def dropped (copyin : CopyIn) : CopyIn := fun tot m =>
  if (copyin tot m).2 then copyin tot m else ([], false)

variable {copyin : CopyIn}

theorem dropped_snd (tot m : Nat) : (dropped copyin tot m).2 = (copyin tot m).2 := by
  unfold dropped
  split
  · rfl
  · rename_i hfail
    exact (Bool.eq_false_of_not_eq_true hfail).symm

theorem cutAt_dropped (fuel off left tot : Nat) :
    cutAt (dropped copyin) fuel off left tot = ((cutAt copyin fuel off left tot).1, []) := by
  induction fuel generalizing off left tot with
  | zero => rfl
  | succ fuel ih =>
    unfold cutAt
    dsimp only
    split
    · rfl
    · rw [dropped_snd]
      split
      · exact ih _ _ _
      · rename_i hfail
        simp [dropped, hfail]

theorem le_cutAt (copyin : CopyIn) (fuel off left tot : Nat) :
    tot ≤ (cutAt copyin fuel off left tot).1 := by
  induction fuel generalizing off left tot with
  | zero => exact Nat.le_refl _
  | succ fuel ih =>
    unfold cutAt
    dsimp only
    split
    · exact Nat.le_refl _
    · split
      · exact Nat.le_trans (Nat.le_add_right _ _) (ih _ _ _)
      · exact Nat.le_refl _

/-- What the loop of `writei` leaves in the file past the bytes that it counts. -/
theorem writeiLoop_cut (hl : Layout sb) (copyin : CopyIn) (fuel : Nat) (h : Inv sb s loose)
    (hip : Loaded s ip) (off left tot : Nat) :
    wp (writeiLoop sb ip copyin fuel off left tot) (fun r t =>
      r.2 = (cutAt copyin fuel off left tot).1 ∧ r.1 + tot = off + r.2 ∧
      ∀ p, ¬ (off ≤ p ∧ p < r.1) → (files sb t (s.itable ip).inum).data p
        = ((files sb s (s.itable ip).inum).write r.1 (cutAt copyin fuel off left tot).2).data p)
      Benign s := by
  induction fuel generalizing s off left tot with
  | zero => exact ⟨rfl, rfl, fun p _ => by rw [cutAt, AFile.write_nil]⟩
  | succ fuel ih =>
    by_cases hleft : left = 0
    · rw [writeiLoop, cutAt, if_pos hleft, if_pos hleft]
      exact ⟨rfl, rfl, fun p _ => by rw [AFile.write_nil]⟩
    · obtain ⟨m, hm⟩ : ∃ m, m = min left (BSIZE - off % BSIZE) := ⟨_, rfl⟩
      rw [cutAt, if_neg hleft, ← hm]
      dsimp only
      refine writeiLoop_piece hl h hip hleft hm
        (wp_post (bmap_spec hl h hip (off / BSIZE)) fun _ _ _ => trivial) ?_
      intro b t d' _ _ _ _ _ _ hpiece
      have hlen : ((copyin tot m).1.take m).length ≤ m := by
        rw [List.length_take]
        exact Nat.min_le_left _ _
      split
      · have hloop := ih hpiece.inv hpiece.loaded (off + m) (left - m) (tot + m)
        rw [hpiece.inum, hpiece.file] at hloop
        refine wp_post hloop ?_
        rintro r u ⟨hr, hoff, hdata⟩
        have hle := le_cutAt copyin fuel (off + m) (left - m) (tot + m)
        refine ⟨hr, by omega, fun p hp => ?_⟩
        rw [hdata p (by omega)]
        -- a byte outside the range is outside this piece
        show (if _ then _ else if off ≤ p ∧ p < off + ((copyin tot m).1.take m).length then _ else _)
          = if _ then _ else _
        rw [if_neg (by omega : ¬ (off ≤ p ∧ p < off + ((copyin tot m).1.take m).length))]
      · exact ⟨rfl, rfl, fun p _ => by rw [hpiece.file]⟩

/-- What `writei` leaves in the file past the bytes that it reports. -/
theorem writei_cut (hl : Layout sb) (h : Inv sb s loose) (hip : Loaded s ip) (copyin : CopyIn)
    (hoff : off ≤ (s.itable ip).size.toNat) (hmax : off + n ≤ MAXFILE * BSIZE) :
    wp (writei sb ip copyin off n) (fun r t => r = (cutAt copyin n off n 0).1 ∧
      (files sb t (s.itable ip).inum).size.toNat
        = max (s.itable ip).size.toNat (off + (cutAt copyin n off n 0).1) ∧
      ∀ p, ¬ (off ≤ p ∧ p < off + (cutAt copyin n off n 0).1) →
        (files sb t (s.itable ip).inum).data p = ((files sb s (s.itable ip).inum).write
          (off + (cutAt copyin n off n 0).1) (cutAt copyin n off n 0).2).data p) Benign s := by
  have hbig : MAXFILE * BSIZE < 2 ^ 32 := by decide
  rw [writei, wp_bind, wp_inode, if_neg, if_neg (by omega), wp_bind]
  · refine wp_mono (wp_both (writeiLoop_spec hl copyin n h hip off n 0)
      (writeiLoop_cut hl copyin n h hip off n 0)) ?_ fun _ he => he.1
    rintro ⟨off', tot'⟩ t ⟨⟨hscr, hinv, hle, -⟩, htot, hend, hdata⟩
    obtain rfl : off' = off + (cutAt copyin n off n 0).1 := by
      rw [← htot]
      exact hend
    have hself : (t.itable ip).size = (s.itable ip).size := by
      obtain ⟨a, ha⟩ := hscr.self
      rw [ha]
    have hpub := publish_spec hl hscr hinv h hip (fun i =>
        if off + (cutAt copyin n off n 0).1 > i.size.toNat
        then { i with size := UInt32.ofNat (off + (cutAt copyin n off n 0).1) } else i)
      (newSize (t.itable ip).size (off + (cutAt copyin n off n 0).1))
      (by unfold newSize; split <;> rfl)
    rw [wp_bind] at hpub ⊢
    refine wp_mono hpub ?_ fun _ he => he.elim
    intro _ u hu
    rw [wp_bind]
    refine wp_mono hu ?_ fun _ he => he.elim
    rintro _ w ⟨-, -, -, hfile⟩
    have hle : off + (cutAt copyin n off n 0).1 ≤ off + n := hle
    refine ⟨congrArg Nat.cast htot, ?_, fun p hp => ?_⟩
    · rw [hfile, ← hself]
      exact newSize_toNat (by omega)
    · rw [hfile]
      exact hdata p hp
  · rw [Nat.mod_eq_of_lt (by omega)]
    omega

/-! ### The block read again -/

/-- The loop goes as far when its failing copy moves nothing. -/
theorem writeiLoop_dropped (copyin : CopyIn) (fuel off left tot : Nat) :
    wp (writeiLoop sb ip copyin fuel off left tot) (fun r _ =>
      wp (writeiLoop sb ip (dropped copyin) fuel off left tot) (fun r' _ => r' = r)
        (fun _ => False) s) (fun _ => True) s := by
  induction fuel generalizing s off left tot with
  | zero => exact rfl
  | succ fuel ih =>
    by_cases hleft : left = 0
    · unfold writeiLoop
      rw [if_pos hleft, if_pos hleft]
      exact rfl
    · rw [wp_writeiLoop_piece hleft rfl]
      refine wp_iff.mpr ⟨fun b u hb => ?_, fun _ _ => trivial⟩
      simp only [wp_writeiLoop_piece hleft rfl, wp_iff_of_ok hb, dropped_snd]
      by_cases hb0 : b = 0
      · rw [if_pos hb0]
        simp only [if_pos hb0]
        exact rfl
      · simp only [if_neg hb0]
        by_cases hcopy : (copyin tot (min left (BSIZE - off % BSIZE))).2 = true
        · -- before the copy that fails, both runs do the same
          have hsame : dropped copyin tot (min left (BSIZE - off % BSIZE))
              = copyin tot (min left (BSIZE - off % BSIZE)) := if_pos hcopy
          simp only [if_pos hcopy, hsame]
          exact ih _ _ _
        · simp only [if_neg hcopy]
          exact rfl

theorem writei_dropped {r : Int} (hrun : writei sb ip copyin off n s = .ok (r, t)) :
    ∃ t', writei sb ip (dropped copyin) off n s = .ok (r, t') := by
  have hend : ∀ {f : Inode → Inode} {r : Int} {post : Int → FsState → Prop} {err : Panic → Prop}
      {u : FsState}, (∀ w, post r w) →
      wp (setInode ip f >>= fun _ => iupdate sb ip >>= fun _ => Pure.pure r) post err u := by
    intro f r post err u hpost
    rw [wp_bind, wp_setInode, wp_bind, iupdate, wp_bind, wp_inode, wp_bind, wp_bread, wp_logWrite]
    exact hpost _
  have hsame : wp (writei sb ip copyin off n) (fun r _ => wp (writei sb ip (dropped copyin) off n)
      (fun r' _ => r' = r) (fun _ => False) s) (fun _ => True) s := by
    unfold writei
    simp only [wp_bind, wp_inode]
    split
    · exact rfl
    · split
      · exact rfl
      · simp only [wp_bind]
        refine wp_post (writeiLoop_dropped copyin n off n 0) fun r u hloop => ?_
        have htail := @hend
        simp only [wp_bind] at htail
        refine htail fun _ => wp_post hloop ?_
        rintro _ w rfl
        exact htail fun _ => rfl
  obtain ⟨_, t', ht', rfl⟩ := wp_returns (wp_ok hsame hrun) fun _ => id
  exact ⟨t', ht'⟩

/-! ### What a reader sees -/

/-- Outside the bytes that the call reports, `readi` returns what it returned before. -/
def SeenAsBefore (sb : Superblock) (ip : Ino) (s t : FsState) (off tot : Nat) : Prop :=
  ∀ p, ¬ (off ≤ p ∧ p < off + tot) → ∃ bytes,
    readi sb ip (fun _ => true) p 1 s = .ok (some bytes, s) ∧
    readi sb ip (fun _ => true) p 1 t = .ok (some bytes, t)

theorem AFile.read_one (f : AFile) (p : Nat) :
    f.read p 1 = if p < f.size.toNat then [f.data p] else [] := by
  have hsize : f.size.toNat < 2 ^ 32 := f.size.toNat_lt
  unfold AFile.read
  by_cases hp : p < f.size.toNat
  · rw [if_pos hp, if_neg (by rw [Nat.mod_eq_of_lt (by omega)]; omega),
      show min 1 (f.size.toNat - p) = 1 by omega]
    rfl
  · rw [if_neg hp, show min 1 (f.size.toNat - p) = 0 by omega]
    split
    · rfl
    · rfl

variable {stray : List UInt8}

/-- A reader sees the bytes that the failing copy has moved, below the old size. -/
theorem seenAsBefore_iff (hl : Layout sb) (h : Inv sb s loose) (hip : Loaded s ip)
    (hfull : NoHoles sb s) (ht : Inv sb t loose) (hip' : Loaded t ip) (hfull' : NoHoles sb t)
    (hinum : (t.itable ip).inum = (s.itable ip).inum) (hoff : off ≤ (s.itable ip).size.toNat)
    (hsize : (files sb t (s.itable ip).inum).size.toNat
      = max (s.itable ip).size.toNat (off + tot))
    (hdata : ∀ p, ¬ (off ≤ p ∧ p < off + tot) → (files sb t (s.itable ip).inum).data p
      = ((files sb s (s.itable ip).inum).write (off + tot) stray).data p) :
    SeenAsBefore sb ip s t off tot ↔ ∀ j b, stray[j]? = some b →
      off + tot + j < (s.itable ip).size.toNat →
      (files sb s (s.itable ip).inum).data (off + tot + j) = b := by
  have hread : ∀ p, readi sb ip (fun _ => true) p 1 s
      = .ok (some ((files sb s (s.itable ip).inum).read p 1), s) :=
    fun p => readi_filled hl h hip (hfull _ (h.alloc hip)) p 1
  have hread' : ∀ p, readi sb ip (fun _ => true) p 1 t
      = .ok (some ((files sb t (s.itable ip).inum).read p 1), t) := by
    intro p
    rw [← hinum]
    exact readi_filled hl ht hip' (hfull' _ (ht.alloc hip')) p 1
  have hold : (files sb s (s.itable ip).inum).size = (s.itable ip).size := by
    rw [files_size (h.alloc hip).2, h.view_eq hip]
  constructor
  · intro hseen j b hj hlt
    obtain ⟨hjlen, hget⟩ := List.getElem?_eq_some_iff.mp hj
    obtain ⟨bytes, hs, ht⟩ := hseen (off + tot + j) (by omega)
    rw [hread, AFile.read_one, hold, if_pos hlt] at hs
    rw [hread', AFile.read_one, hsize, if_pos (by omega), hdata _ (by omega)] at ht
    have hwrite : ((files sb s (s.itable ip).inum).write (off + tot) stray).data (off + tot + j)
        = b := by
      show (if _ then _ else _) = b
      rw [if_pos (by omega), show off + tot + j - (off + tot) = j by omega, List.getD_eq_getElem?_getD,
        hj]
      rfl
    rw [hwrite] at ht
    simp only [Except.ok.injEq, Prod.mk.injEq, Option.some.injEq, and_true] at hs ht
    exact List.singleton_inj.mp (hs.trans ht.symm)
  · intro hstray p hp
    refine ⟨_, hread p, ?_⟩
    rw [hread', AFile.read_one, AFile.read_one, hold, hsize, hdata p hp]
    by_cases hlt : p < (s.itable ip).size.toNat
    · rw [if_pos hlt, if_pos (by omega)]
      show Except.ok (some [if _ then _ else _], t) = _
      split
      · rename_i hin
        have hj : stray[p - (off + tot)]? = some (stray.getD (p - (off + tot)) 0) := by
          rw [List.getD_eq_getElem?_getD, List.getElem?_eq_getElem (by omega)]
          rfl
        have := hstray _ _ hj (by omega)
        rw [show off + tot + (p - (off + tot)) = p by omega] at this
        rw [this]
      · rfl
    · rw [if_neg hlt, if_neg (by omega)]

/-- A call of `writei` that returns a count was not refused. -/
theorem writei_accepted (hrun : writei sb ip copyin off n s = .ok ((tot : Int), t)) :
    off ≤ (s.itable ip).size.toNat ∧ off + n ≤ MAXFILE * BSIZE := by
  have hcases : wp (writei sb ip copyin off n) (fun r _ => r = -1 ∨
      off ≤ (s.itable ip).size.toNat ∧ off + n ≤ MAXFILE * BSIZE) (fun _ => True) s := by
    rw [writei, wp_bind, wp_inode]
    split
    · exact .inl rfl
    · split
      · exact .inl rfl
      · exact wp_iff.mpr ⟨fun _ _ _ => .inr ⟨by omega, by omega⟩, fun _ _ => trivial⟩
  rcases wp_ok hcases hrun with hbad | hok
  · omega
  · exact hok

/-- What a reader sees after a write. -/
theorem writei_seen_iff (hl : Layout sb) (h : Inv sb s loose) (hfull : NoHoles sb s)
    (hip : Loaded s ip) (hrun : writei sb ip copyin off n s = .ok ((tot : Int), t)) :
    (t.itable ip).size.toNat = max (s.itable ip).size.toNat (off + tot) ∧
      (SeenAsBefore sb ip s t off tot ↔ ∀ j b, (cutAt copyin n off n 0).2[j]? = some b →
        off + tot + j < (s.itable ip).size.toNat →
        (files sb s (s.itable ip).inum).data (off + tot + j) = b) := by
  obtain ⟨hoff, hmax⟩ := writei_accepted hrun
  have hspec : wp (writei sb ip copyin off n) (fun _ t => Rewrite sb s t ip ∧ Inv sb t loose ∧
      NoHoles sb t) (fun _ => True) s := by
    refine wp_mono (wp_both (writei_spec hl h hip copyin off n)
      (writei_fills hl copyin h hip hoff hmax)) ?_ fun _ _ => trivial
    rintro _ t ⟨⟨hrew, hinv, -⟩, k, hk, hsize, -, hfills⟩
    exact ⟨hrew, hinv, noHoles_writei hfull hip h hinv hrew hoff (by omega) hsize hfills⟩
  obtain ⟨hrew, hinv, hnone⟩ := wp_ok hspec hrun
  obtain ⟨htot, hsize, hdata⟩ := wp_ok (writei_cut hl h hip copyin hoff hmax) hrun
  rw [← Int.ofNat.inj htot] at hsize hdata
  have hip' : Loaded t ip := (hrew.loaded ip).mpr hip
  have hinum := hrew.inum ip
  have hself : (files sb t (s.itable ip).inum).size = (t.itable ip).size := by
    rw [← hinum, files_size (hinv.alloc hip').2, hinv.view_eq hip']
  refine ⟨by rw [← hself, hsize], ?_⟩
  exact seenAsBefore_iff hl h hip hfull hinv hip' hnone hinum hoff hsize hdata

/-- A write that is cut short is right, for a reader of the cached block and of the block read
again, exactly if the failing copy moved no byte that a reader can tell. -/
theorem writei_cut_short_iff (hl : Layout sb) (h : Inv sb s loose) (hfull : NoHoles sb s)
    (hip : Loaded s ip) (hrun : writei sb ip copyin off n s = .ok ((tot : Int), t)) :
    ((t.itable ip).size.toNat = max (s.itable ip).size.toNat (off + tot) ∧
      SeenAsBefore sb ip s t off tot ∧
      ∃ t', writei sb ip (dropped copyin) off n s = .ok ((tot : Int), t') ∧
        SeenAsBefore sb ip s t' off tot) ↔
    ∀ j b, (cutAt copyin n off n 0).2[j]? = some b →
      off + tot + j < (s.itable ip).size.toNat →
      (files sb s (s.itable ip).inum).data (off + tot + j) = b := by
  obtain ⟨hsize, hseen⟩ := writei_seen_iff hl h hfull hip hrun
  obtain ⟨t', hrun'⟩ := writei_dropped hrun
  obtain ⟨-, hseen'⟩ := writei_seen_iff hl h hfull hip hrun'
  rw [cutAt_dropped] at hseen'
  have hclean : SeenAsBefore sb ip s t' off tot := hseen'.mpr fun j b hj => nomatch hj
  exact ⟨fun hright => hseen.mp hright.2.1, fun hstray => ⟨hsize, hseen.mpr hstray, t', hrun', hclean⟩⟩

/-- The last byte of a page, before a page that is not mapped. -/
def lastByte : CopyIn := fun _ _ => ([9], false)

/-- A write from there to the empty root directory leaves no trace. -/
theorem writei_cut_short_bare : ∃ t, writei Mkfs.superblock slot0 lastByte 0 2 bareState
      = .ok (0, t) ∧ SeenAsBefore Mkfs.superblock slot0 bareState t 0 0 := by
  obtain ⟨howned, hsound, -⟩ := bareState_owned
  have hruns : ∀ s, s = bareState → wp (writei Mkfs.superblock slot0 lastByte 0 2)
      (fun r _ => r = 0) (fun _ => False) s := by
    rintro s rfl
    decide +kernel
  obtain ⟨s, hs⟩ : ∃ s, s = bareState := ⟨_, rfl⟩
  obtain ⟨r, t, hrun, hr⟩ := wp_returns (hruns s hs) fun _ => id
  rw [hr, hs] at hrun
  have hnone : writei Mkfs.superblock slot0 lastByte 0 2 bareState = .ok (((0 : Nat) : Int), t) :=
    hrun
  refine ⟨t, hrun, ((writei_cut_short_iff mkfs_layout (Inv.of_blocksOwned howned hsound)
    bareState_noHoles bareState_loaded hnone).mpr fun j b _ hlt => ?_).2.1⟩
  have hzero : (bareState.itable slot0).size.toNat = 0 := by
    rw [bareState_self]
    rfl
  omega

/-- Over the first of three bytes, the write reports nothing, and a reader sees the byte that it
moved. -/
theorem writei_cut_short_stray : ∃ s t,
    (∃ r, writei Mkfs.superblock slot0 (kernelSrc [1, 2, 3]) 0 3 bareState = .ok (r, s)) ∧
    writei Mkfs.superblock slot0 lastByte 0 2 s = .ok (0, t) ∧
    (∃ s', readi Mkfs.superblock slot0 (fun _ => true) 0 1 s = .ok (some [1], s')) ∧
    ∃ t', readi Mkfs.superblock slot0 (fun _ => true) 0 1 t = .ok (some [9], t') := by
  have hruns : ∀ s, s = bareState → wp (do
        let _ ← writei Mkfs.superblock slot0 (kernelSrc [1, 2, 3]) 0 3
        readi Mkfs.superblock slot0 (fun _ => true) 0 1) (fun a _ => a = some [1])
        (fun _ => False) s ∧
      wp (do
        let _ ← writei Mkfs.superblock slot0 (kernelSrc [1, 2, 3]) 0 3
        let r ← writei Mkfs.superblock slot0 lastByte 0 2
        let a ← readi Mkfs.superblock slot0 (fun _ => true) 0 1
        Pure.pure (r, a)) (fun x _ => x = (0, some [9])) (fun _ => False) s := by
    rintro s rfl
    decide +kernel
  obtain ⟨s₀, hs₀⟩ : ∃ s, s = bareState := ⟨_, rfl⟩
  obtain ⟨hbefore, hafter⟩ := hruns s₀ hs₀
  simp only [wp_bind, wp_pure, Prod.mk.injEq] at hbefore hafter
  obtain ⟨r, s, hs, hread⟩ := wp_returns hbefore fun _ => id
  obtain ⟨a, s', hs', ha⟩ := wp_returns hread fun _ => id
  obtain ⟨r', t, ht, hread'⟩ := wp_returns (wp_ok hafter hs) fun _ => id
  obtain ⟨a', t', ht', hr', ha'⟩ := wp_returns hread' fun _ => id
  rw [ha] at hs'
  rw [hr'] at ht
  rw [ha'] at ht'
  rw [hs₀] at hs
  exact ⟨s, t, ⟨r, hs⟩, ht, ⟨s', hs'⟩, t', ht'⟩

end Xv6.Proofs.Fs
