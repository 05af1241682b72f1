import Xv6.Proofs.Fs.Blocks
import Mathlib.Data.List.GetD

/-!
# `Xv6.Proofs.Fs.Contents`: `readi`, `writei` and `itrunc`

`readi` returns the bytes of the file (`readi_spec`). It may allocate blocks where the file
has holes, which shows in no file (`Fill`).

`writei` stores its bytes in the file of its inode and leaves every other file alone
(`writei_spec`). Its loop may stop midway, at a copy that fails. The blocks it has allocated
by then are in the in-memory inode, and the `iupdate` at its end publishes them, so the
inode is in step with its dinode again in every case.

`itrunc` frees the blocks of its inode. The proof moves the bookkeeping before the stores:
the inode forgets a block first, which makes the block loose, and `bfree` then takes a loose
block back. The state in between is the one the code reaches with the two stores in its own
order.
-/

set_option autoImplicit false

namespace Xv6.Proofs.Fs

open Lib Lib.Action Kernel

variable {sb : Superblock} {s t u : FsState} {loose : Nat → Prop} {ip : Ino}

/-! ### `readi` -/

/-- The bytes of a file from `off` on. -/
def AFile.bytes (f : AFile) (off n : Nat) : List UInt8 :=
  (List.range n).map fun j => f.data (off + j)

theorem AFile.bytes_add (f : AFile) (off m n : Nat) :
    f.bytes off (m + n) = f.bytes off m ++ f.bytes (off + m) n := by
  unfold AFile.bytes
  rw [List.range_add, List.map_append, List.map_map]
  simp only [Function.comp_def, Nat.add_assoc]

/-- The bytes of a file in one of its blocks. -/
theorem Inv.bytes_block (h : Inv sb s loose) (hip : Loaded s ip) {off m : Nat}
    (hm : off % BSIZE + m ≤ BSIZE) :
    (files sb s (s.itable ip).inum).bytes off m
      = (fileBlock (s.itable ip).toDinode s.disk (off / BSIZE)).getBytes (off % BSIZE) m := by
  have htype := (h.cached ip hip).2.1
  unfold AFile.bytes Bytes.getBytes
  rw [h.files_eq hip, absFile_of_alloc htype]
  apply List.map_congr_left
  intro j hj
  have hj : j < m := List.mem_range.mp hj
  have hbs : 0 < BSIZE := by decide
  -- Offset `off + j` lies in the same block as `off`.
  have hdecomp : off + j = (off % BSIZE + j) + BSIZE * (off / BSIZE) := by
    have := Nat.mod_add_div off BSIZE
    omega
  have hlt : off % BSIZE + j < BSIZE := by omega
  show (fileBlock _ _ ((off + j) / BSIZE)).get ((off + j) % BSIZE) = _
  rw [hdecomp, Nat.add_mul_div_left _ _ hbs, Nat.add_mul_mod_self_left,
    Nat.div_eq_of_lt hlt, Nat.mod_eq_of_lt hlt, Nat.zero_add]

theorem readiLoop_spec (hl : Layout sb) (copyout : Nat → Bool) (fuel : Nat)
    (h : Inv sb s loose) (hip : Loaded s ip) (off left : Nat) (acc : List UInt8) :
    wp (readiLoop sb ip copyout fuel off left acc) (fun r t => Fill sb s t ip ∧
      Inv sb t loose ∧ ((∀ n, copyout n = true) → left ≤ fuel →
        r = some (acc ++ (files sb s (s.itable ip).inum).bytes off left))) Benign s := by
  induction fuel generalizing s off left acc with
  | zero =>
    refine ⟨Fill.refl sb s ip, h, fun _ hle => ?_⟩
    rw [Nat.le_zero.mp hle]
    simp [AFile.bytes]
  | succ fuel ih =>
    unfold readiLoop
    split
    · rename_i hleft
      refine ⟨Fill.refl sb s ip, h, fun _ _ => ?_⟩
      rw [hleft]
      simp [AFile.bytes]
    · rename_i hleft
      rw [wp_bind]
      refine wp_post (bmap_spec hl h hip (off / BSIZE)) ?_
      rintro b t ⟨hfill, hinv, hb0, hb⟩
      have hip' : Loaded t ip := (hfill.loaded ip).mpr hip
      have hmod : off % BSIZE < BSIZE := Nat.mod_lt _ (by decide)
      rw [if_neg hb0, wp_bind, wp_bread]
      dsimp only
      split
      · -- The piece in this block, then the rest by induction.
        refine wp_post (ih hinv hip' _ _ _) ?_
        rintro r u ⟨hfill', hinv', hr⟩
        refine ⟨hfill.trans hfill', hinv', ?_⟩
        intro hcopy hle
        have hsplit : left = min left (BSIZE - off % BSIZE)
            + (left - min left (BSIZE - off % BSIZE)) := by omega
        have hblock : t.disk b = fileBlock (t.itable ip).toDinode t.disk (off / BSIZE) := by
          unfold fileBlock
          rw [if_neg (by rw [← hb]; exact hb0), ← hb]
        have hfile : files sb t (s.itable ip).inum = files sb s (s.itable ip).inum :=
          hfill.files _ (h.cached ip hip).1
        have hinum : (t.itable ip).inum = (s.itable ip).inum := hfill.inum ip
        rw [hr hcopy (by omega), hblock, ← hinv.bytes_block hip' (by omega), List.append_assoc,
          ← AFile.bytes_add, ← hsplit, hinum, hfile]
      · rename_i hfail
        refine ⟨hfill, hinv, ?_⟩
        intro hcopy _
        exact absurd (hcopy _) hfail

/-- What `readi` leaves, and the bytes it returns to a destination that takes them. -/
theorem readi_spec (hl : Layout sb) (h : Inv sb s loose) (hip : Loaded s ip)
    (copyout : Nat → Bool) (off n : Nat) :
    wp (readi sb ip copyout off n) (fun r t => Fill sb s t ip ∧ Inv sb t loose ∧
      ((∀ n, copyout n = true) → off + n < 2 ^ 32 → r = some
        ((files sb s (s.itable ip).inum).bytes off
          (min n ((s.itable ip).size.toNat - off))))) Benign s := by
  rw [readi, wp_bind, wp_inode]
  split
  · rename_i hout
    refine ⟨Fill.refl sb s ip, h, ?_⟩
    intro _ hlt
    rw [Nat.mod_eq_of_lt hlt] at hout
    have : min n ((s.itable ip).size.toNat - off) = 0 := by omega
    rw [this]
    simp [AFile.bytes]
  · rename_i hin
    refine wp_post (readiLoop_spec hl copyout _ h hip off _ []) ?_
    rintro r t ⟨hfill, hinv, hr⟩
    refine ⟨hfill, hinv, ?_⟩
    intro hcopy _
    have hmin : (if off + n > (s.itable ip).size.toNat then (s.itable ip).size.toNat - off else n)
        = min n ((s.itable ip).size.toNat - off) := by
      split
      · omega
      · omega
    rw [hr hcopy (Nat.le_refl _), hmin, List.nil_append]

/-! ### `writei` -/

/-- The effect of stores to the file of the inode behind `ip`, before `iupdate`: the inode
may have got or lost blocks in memory, and every dinode and every other file is as before. -/
structure Scribble (sb : Superblock) (s t : FsState) (ip : Ino) : Prop where
  table : ∃ addrs, t.itable = (withDinode s ip
    { (s.itable ip).toDinode with addrs := addrs }).itable
  dinodes : ∀ i, InArea sb i → dinodeAt sb t.disk i = dinodeAt sb s.disk i
  files : ∀ i, i ≠ (s.itable ip).inum → InArea sb i → files sb t i = files sb s i
  synced : ∀ k, k ≠ ip → Loaded s k → SyncedAt sb s k → SyncedAt sb t k

theorem Fill.scribble (h : Fill sb s t ip) : Scribble sb s t ip :=
  ⟨h.table, h.dinodes, fun i _ hi => h.files i hi, fun k _ => h.synced k⟩

namespace Scribble

theorem refl (sb : Superblock) (s : FsState) (ip : Ino) : Scribble sb s s ip :=
  (Fill.refl sb s ip).scribble

theorem inum (h : Scribble sb s t ip) (k : Ino) : (t.itable k).inum = (s.itable k).inum := by
  obtain ⟨a, ha⟩ := h.table
  rw [ha, withDinode_inum]

theorem loaded (h : Scribble sb s t ip) (k : Ino) : Loaded t k ↔ Loaded s k := by
  obtain ⟨a, ha⟩ := h.table
  unfold Loaded
  rw [ha, withDinode_ref, withDinode_valid]

theorem self (h : Scribble sb s t ip) : ∃ addrs, t.itable ip
    = { s.itable ip with toDinode := { (s.itable ip).toDinode with addrs := addrs } } := by
  obtain ⟨a, ha⟩ := h.table
  exact ⟨a, by rw [ha, withDinode_self]⟩

theorem trans (h : Scribble sb s t ip) (h' : Scribble sb t u ip) : Scribble sb s u ip := by
  obtain ⟨a, ha⟩ := h.table
  obtain ⟨b, hb⟩ := h'.table
  have hinum := h.inum ip
  refine ⟨⟨b, addrs_trans ha hb⟩, fun i hi => (h'.dinodes i hi).trans (h.dinodes i hi), ?_,
    fun k hk hkl hs => h'.synced k hk ((h.loaded k).mpr hkl) (h.synced k hk hkl hs)⟩
  intro i hne hi
  rw [h'.files i (by rw [hinum]; exact hne) hi, h.files i hne hi]

end Scribble

/-- A store to a block of the file of `ip`. -/
theorem data_step (hl : Layout sb) (h : Inv sb s loose) (hip : Loaded s ip) {bn b : Nat}
    (hb : b = placeOf (s.itable ip).toDinode s.disk (filePlace bn)) (hb0 : b ≠ 0)
    (blk : Block) {d' : Disk} (hd' : d' = Function.update s.disk b blk) :
    Inv sb { s with disk := d' } loose ∧ Scribble sb s { s with disk := d' } ip ∧
      files sb { s with disk := d' } (s.itable ip).inum
        = { files sb s (s.itable ip).inum with
            data := fun p => if p / BSIZE = bn then blk.get (p % BSIZE)
              else (files sb s (s.itable ip).inum).data p } := by
  have hview := h.view_eq hip
  have halloc := h.alloc hip
  have htype := (h.cached ip hip).2.1
  have hbv : b = placeOf (view sb s (s.itable ip).inum) s.disk (filePlace bn) := by rw [hview, hb]
  have hb0v : placeOf (view sb s (s.itable ip).inum) s.disk (filePlace bn) ≠ 0 := by
    rw [← hbv]
    exact hb0
  have hheld : held sb (view sb s) s.disk ((s.itable ip).inum, filePlace bn) = b := by
    rw [held_of_alloc halloc, ← hbv]
  have hlo := (h.owned.owns.area ((s.itable ip).inum, filePlace bn) (by rw [hheld]; exact hb0)).1
  rw [hheld] at hlo
  have hown := h.owned.update_data hl halloc (filePlace_ne bn) hb0v blk
  rw [← hbv, ← hd'] at hown
  have hdin : ∀ i, InArea sb i → dinodeAt sb d' i = dinodeAt sb s.disk i := by
    intro i hi
    rw [hd']
    refine dinodeAt_update_of_le ?_ hi _
    unfold dataStart at hlo
    omega
  -- Another inode does not hold the block.
  have hdata : DataKept sb s d' fun i => i ≠ (s.itable ip).inum := by
    rw [hd']
    refine dataKept_update ?_ blk
    intro i k hi hk he
    have := h.owned.owns.once (i, k) ((s.itable ip).inum, filePlace bn)
    rw [hheld] at this
    have := this he hk
    simp only [Prod.mk.injEq] at this
    exact hi this.1
  obtain ⟨hinv, hfiles, hsync⟩ := blocks_step_on h hdin hdata hown
  refine ⟨hinv, ⟨⟨(s.itable ip).addrs, by rw [withDinode_same]⟩, hdin, hfiles, ?_⟩, ?_⟩
  · intro k hk hkl hs
    exact hsync k (fun he => hk (h.uniq k ip hkl.1 hip.1 he)) hkl hs
  · have hip' : Loaded { s with disk := d' } ip := hip
    have hfile := hinv.files_eq hip'
    have hblocks : ∀ n, fileBlock (s.itable ip).toDinode d' n
        = if n = bn then blk else fileBlock (s.itable ip).toDinode s.disk n := by
      intro n
      have := h.owned.fileBlock_data halloc hb0v blk n
      rw [← hbv, ← hd', hview] at this
      exact this
    rw [show (s.itable ip).inum = (FsState.itable { s with disk := d' } ip).inum from rfl, hfile]
    show absFile (s.itable ip).toDinode d' = _
    rw [h.files_eq hip, absFile_of_alloc htype, absFile_of_alloc htype]
    refine AFile.ext rfl rfl rfl rfl rfl (funext fun p => ?_)
    show (fileBlock _ d' (p / BSIZE)).get (p % BSIZE) = _
    rw [hblocks]
    by_cases hp : p / BSIZE = bn
    · simp [hp]
    · simp [hp]

/-- A file with bytes stored from `off` on. -/
def AFile.write (f : AFile) (off : Nat) (src : List UInt8) : AFile :=
  { f with data := fun p => if off ≤ p ∧ p < off + src.length then src.getD (p - off) 0
      else f.data p }

theorem AFile.write_nil (f : AFile) (off : Nat) : f.write off [] = f := by
  refine AFile.ext rfl rfl rfl rfl rfl (funext fun p => ?_)
  show (if off ≤ p ∧ p < off + 0 then _ else f.data p) = f.data p
  rw [if_neg (by omega)]

theorem AFile.write_append (f : AFile) (off : Nat) (a b : List UInt8) :
    (f.write off a).write (off + a.length) b = f.write off (a ++ b) := by
  refine AFile.ext rfl rfl rfl rfl rfl (funext fun p => ?_)
  show (if off + a.length ≤ p ∧ p < off + a.length + b.length then b.getD (p - (off + a.length)) 0
      else if off ≤ p ∧ p < off + a.length then a.getD (p - off) 0 else f.data p)
    = if off ≤ p ∧ p < off + (a ++ b).length then (a ++ b).getD (p - off) 0 else f.data p
  rw [List.length_append]
  by_cases hb : off + a.length ≤ p ∧ p < off + a.length + b.length
  · rw [if_pos hb, if_pos (by omega), List.getD_append_right _ _ _ _ (by omega)]
    congr 1
    omega
  · rw [if_neg hb]
    by_cases ha : off ≤ p ∧ p < off + a.length
    · rw [if_pos ha, if_pos (by omega), List.getD_append _ _ _ _ (by omega)]
    · rw [if_neg ha, if_neg (by omega)]

/-- The file after one iteration of `writei`: the bytes of one block are stored. -/
theorem write_piece (f : AFile) {off m : Nat} {bp : Block} {src : List UInt8}
    (hm : off % BSIZE + m ≤ BSIZE) (hlen : src.length = m)
    (hbp : ∀ p, p / BSIZE = off / BSIZE → bp.get (p % BSIZE) = f.data p) :
    { f with data := fun p => if p / BSIZE = off / BSIZE
        then (bp.setBytes (off % BSIZE) src).get (p % BSIZE) else f.data p }
      = f.write off src := by
  refine AFile.ext rfl rfl rfl rfl rfl (funext fun p => ?_)
  show (if p / BSIZE = off / BSIZE then _ else f.data p)
    = if off ≤ p ∧ p < off + src.length then _ else f.data p
  have hp := Nat.mod_add_div p BSIZE
  have ho := Nat.mod_add_div off BSIZE
  have hpm : p % BSIZE < BSIZE := Nat.mod_lt _ (by decide)
  rw [hlen]
  by_cases hblk : p / BSIZE = off / BSIZE
  · rw [if_pos hblk, Bytes.get_setBytes, hlen]
    rw [hblk] at hp
    by_cases hin : off ≤ p ∧ p < off + m
    · rw [if_pos hin, if_pos (by omega)]
      congr 1
      omega
    · rw [if_neg hin, if_neg (by omega)]
      exact hbp p hblk
  · rw [if_neg hblk, if_neg]
    rintro ⟨hlo, hhi⟩
    -- A byte of the piece lies in the block of `off`.
    apply hblk
    have hdecomp : p = (p - BSIZE * (off / BSIZE)) + BSIZE * (off / BSIZE) := by omega
    rw [hdecomp, Nat.add_mul_div_left _ _ (by decide), Nat.div_eq_of_lt (by omega), Nat.zero_add]

/-- One piece of the loop of `writei`. -/
theorem wp_writeiLoop_piece {copyin : CopyIn} {fuel off left tot m : Nat}
    {post : Nat × Nat → FsState → Prop} {err : Panic → Prop} (hleft : left ≠ 0)
    (hm : m = min left (BSIZE - off % BSIZE)) :
    wp (writeiLoop sb ip copyin (fuel + 1) off left tot) post err s ↔
      wp (bmap sb ip (off / BSIZE)) (fun b u => wp (if b = 0 then Pure.pure (off, tot) else
        if (copyin tot m).2 then writeiLoop sb ip copyin fuel (off + m) (left - m) (tot + m)
        else Pure.pure (off, tot)) post err (if b = 0 then u else ⟨Function.update u.disk b
          ((u.disk b).setBytes (off % BSIZE) ((copyin tot m).1.take m)), u.itable⟩)) err s := by
  rw [writeiLoop, if_neg hleft, wp_bind]
  refine iff_of_eq (congrArg (fun post => wp _ post err s) (funext fun b => funext fun u => ?_))
  by_cases hb : b = 0
  · rw [if_pos hb, if_pos hb, if_pos hb]
  · rw [if_neg hb, if_neg hb, if_neg hb, wp_bind, wp_bread]
    dsimp only
    rw [wp_bind, wp_logWrite, ← hm]

/-- What a piece of the loop of `writei` leaves: its bytes are in the file. -/
structure Piece (sb : Superblock) (s u : FsState) (loose : Nat → Prop) (ip : Ino) (off : Nat)
    (bytes : List UInt8) : Prop where
  inv : Inv sb u loose
  loaded : Loaded u ip
  inum : (u.itable ip).inum = (s.itable ip).inum
  scribble : Scribble sb s u ip
  file : files sb u (s.itable ip).inum = (files sb s (s.itable ip).inum).write off bytes

/-- The loop stores a piece in the block that `bmap` finds, and goes on if the copy worked. -/
theorem writeiLoop_piece (hl : Layout sb) {copyin : CopyIn} {fuel off left tot m : Nat}
    {post : Nat × Nat → FsState → Prop} {err : Panic → Prop} {P : FsState → Prop}
    (h : Inv sb s loose) (hip : Loaded s ip) (hleft : left ≠ 0)
    (hm : m = min left (BSIZE - off % BSIZE))
    (hbmap : wp (bmap sb ip (off / BSIZE)) (fun _ => P) err s)
    (hrest : ∀ b t d', P t → Inv sb t loose → Loaded t ip →
      b = placeOf (t.itable ip).toDinode t.disk (filePlace (off / BSIZE)) → b ≠ 0 →
      d' = Function.update t.disk b
        ((t.disk b).setBytes (off % BSIZE) ((copyin tot m).1.take m)) →
      Piece sb s { t with disk := d' } loose ip off ((copyin tot m).1.take m) →
      wp (if (copyin tot m).2 then writeiLoop sb ip copyin fuel (off + m) (left - m) (tot + m)
        else Pure.pure (off, tot)) post err { t with disk := d' }) :
    wp (writeiLoop sb ip copyin (fuel + 1) off left tot) post err s := by
  rw [wp_writeiLoop_piece hleft hm]
  refine wp_mono (wp_both (bmap_spec hl h hip (off / BSIZE)) hbmap) ?_ fun _ he => he.2
  rintro b t ⟨⟨hfill, hinv, hb0, hb⟩, hP⟩
  have hip' : Loaded t ip := (hfill.loaded ip).mpr hip
  have hinum : (t.itable ip).inum = (s.itable ip).inum := hfill.inum ip
  have hmod : off % BSIZE < BSIZE := Nat.mod_lt _ (by decide)
  obtain ⟨bytes, hbytes⟩ : ∃ bytes, bytes = (copyin tot m).1.take m := ⟨_, rfl⟩
  have hlen : bytes.length ≤ m := by
    rw [hbytes, List.length_take]
    exact Nat.min_le_left _ _
  rw [if_neg hb0, if_neg hb0]
  rw [← hbytes] at hrest ⊢
  obtain ⟨d', hd'⟩ : ∃ d', d' = Function.update t.disk b
    ((t.disk b).setBytes (off % BSIZE) bytes) := ⟨_, rfl⟩
  rw [← hd']
  obtain ⟨hinv', hscr, hfile⟩ := data_step hl hinv hip' hb hb0 _ hd'
  -- the block as the file showed it before
  have hbp : ∀ p, p / BSIZE = off / BSIZE →
      (t.disk b).get (p % BSIZE) = (files sb t (t.itable ip).inum).data p := by
    intro p hp
    rw [hinv.files_eq hip', absFile_of_alloc (hinv.cached ip hip').2.1]
    show _ = (fileBlock (t.itable ip).toDinode t.disk (p / BSIZE)).get (p % BSIZE)
    unfold fileBlock
    rw [hp, ← hb, if_neg hb0]
  have hwrite : files sb { t with disk := d' } (s.itable ip).inum
      = (files sb s (s.itable ip).inum).write off bytes := by
    rw [← hinum, hfile, write_piece _ (by omega) rfl hbp, hinum,
      hfill.files _ (h.cached ip hip).1]
  exact hrest b t d' hP hinv hip' hb hb0 hd'
    ⟨hinv', hip', hinum, hfill.scribble.trans hscr, hwrite⟩

theorem writeiLoop_spec (hl : Layout sb) (copyin : CopyIn) (fuel : Nat)
    (h : Inv sb s loose) (hip : Loaded s ip) (off left tot : Nat) :
    wp (writeiLoop sb ip copyin fuel off left tot) (fun r t => Scribble sb s t ip ∧
      Inv sb t loose ∧ r.1 ≤ off + left ∧
      ∀ src, copyin = kernelSrc src → left ≤ fuel → tot + left ≤ src.length →
        r = (off + left, tot + left) ∧ files sb t (s.itable ip).inum
          = (files sb s (s.itable ip).inum).write off ((src.drop tot).take left)) Benign s := by
  induction fuel generalizing s off left tot with
  | zero =>
    refine ⟨Scribble.refl sb s ip, h, Nat.le_add_right _ _, ?_⟩
    intro src _ hle _
    rw [Nat.le_zero.mp hle, List.take_zero, AFile.write_nil]
    exact ⟨rfl, rfl⟩
  | succ fuel ih =>
    by_cases hleft : left = 0
    · rw [writeiLoop, if_pos hleft]
      refine ⟨Scribble.refl sb s ip, h, Nat.le_add_right _ _, ?_⟩
      intro src _ _ _
      rw [hleft, List.take_zero, AFile.write_nil]
      exact ⟨rfl, rfl⟩
    · obtain ⟨m, hm⟩ : ∃ m, m = min left (BSIZE - off % BSIZE) := ⟨_, rfl⟩
      refine writeiLoop_piece hl h hip hleft hm
        (wp_post (bmap_spec hl h hip (off / BSIZE)) fun _ _ _ => trivial) ?_
      intro b t d' _ _ _ _ _ _ hpiece
      have hmod : off % BSIZE < BSIZE := Nat.mod_lt _ (by decide)
      split
      · refine wp_post (ih hpiece.inv hpiece.loaded (off + m) (left - m) (tot + m)) ?_
        rintro r u ⟨hscru, hinvu, hle, hkernel⟩
        refine ⟨hpiece.scribble.trans hscru, hinvu, by omega, ?_⟩
        intro src hsrc hfuel hlen
        obtain ⟨hr, hu⟩ := hkernel src hsrc (by omega) (by omega)
        refine ⟨by rw [hr]; congr 1 <;> omega, ?_⟩
        have hbytes : (copyin tot m).1.take m = (src.drop tot).take m := by
          rw [hsrc]
          simp [kernelSrc]
        have hlenp : ((src.drop tot).take m).length = m := by
          rw [List.length_take, List.length_drop]
          omega
        have hsplit : (src.drop tot).take left
            = (src.drop tot).take m ++ (src.drop (tot + m)).take (left - m) := by
          have hlm : left = m + (left - m) := by omega
          rw [← List.drop_drop, ← List.take_add, ← hlm]
        rw [hpiece.inum] at hu
        rw [hu, hpiece.file, hbytes, hsplit, ← AFile.write_append, hlenp]
      · rename_i hfail
        refine ⟨hpiece.scribble, hpiece.inv, Nat.le_add_right _ _, ?_⟩
        intro src hsrc _ _
        rw [hsrc] at hfail
        exact absurd rfl hfail

/-- The effect of `writei` and `itrunc`: the file of the inode behind `ip` may have changed,
and every other file is as before. Either nothing at all has changed, or the inode has been
written to its dinode. -/
structure Rewrite (sb : Superblock) (s t : FsState) (ip : Ino) : Prop where
  table : ∃ addrs size, t.itable = (withDinode s ip
    { (s.itable ip).toDinode with addrs := addrs, size := size }).itable
  written : t = s ∨ ∀ i, InArea sb i → dinodeAt sb t.disk i
    = if i = (s.itable ip).inum then (t.itable ip).toDinode else dinodeAt sb s.disk i
  files : ∀ i, i ≠ (s.itable ip).inum → InArea sb i → files sb t i = files sb s i
  synced : Synced sb s → Synced sb t

namespace Rewrite

theorem of_ne (h : Rewrite sb s t ip) {k : Ino} (hk : k ≠ ip) : t.itable k = s.itable k := by
  obtain ⟨a, z, ha⟩ := h.table
  rw [ha, withDinode_of_ne s _ hk]

theorem inum (h : Rewrite sb s t ip) (k : Ino) : (t.itable k).inum = (s.itable k).inum := by
  obtain ⟨a, z, ha⟩ := h.table
  rw [ha, withDinode_inum]

theorem ref (h : Rewrite sb s t ip) (k : Ino) : (t.itable k).ref = (s.itable k).ref := by
  obtain ⟨a, z, ha⟩ := h.table
  rw [ha, withDinode_ref]

theorem loaded (h : Rewrite sb s t ip) (k : Ino) : Loaded t k ↔ Loaded s k := by
  obtain ⟨a, z, ha⟩ := h.table
  unfold Loaded
  rw [ha, withDinode_ref, withDinode_valid]

end Rewrite

/-- A change of the in-memory inode that keeps its type and its blocks. -/
theorem fields_step (h : Inv sb s loose) (hip : Loaded s ip) {y : Dinode}
    (hty : y.type = (s.itable ip).type) (haddrs : y.addrs = (s.itable ip).addrs) :
    Inv sb (withDinode s ip y) loose ∧
      (∀ i, files sb (withDinode s ip y) i = if i = (s.itable ip).inum
        then ⟨y.type, y.major, y.minor, y.nlink, y.size, (files sb s i).data⟩
        else files sb s i) ∧
      ∀ k, k ≠ ip → SyncedAt sb s k → SyncedAt sb (withDinode s ip y) k := by
  have hview := h.view_eq hip
  have htype := (h.cached ip hip).2.1
  have htypey : y.type ≠ .none := by rw [hty]; exact htype
  have hplace : ∀ k, placeOf y s.disk k = placeOf (s.itable ip).toDinode s.disk k := by
    intro k
    unfold placeOf Dinode.addr
    rw [haddrs]
  -- The blocks of the inode are the same.
  have hheld : ∀ p, held sb (Function.update (view sb s) (s.itable ip).inum y) s.disk p
      = held sb (view sb s) s.disk p := by
    rintro ⟨i, k⟩
    by_cases hi : i = (s.itable ip).inum
    · subst hi
      have halloc := h.alloc hip
      have halloc' : Alloc sb (Function.update (view sb s) (s.itable ip).inum y)
          (s.itable ip).inum := by
        refine ⟨halloc.1, ?_⟩
        rw [Function.update_self]
        exact htypey
      rw [held_of_alloc halloc, held_of_alloc halloc', Function.update_self, hview, hplace]
    · have heq : Function.update (view sb s) (s.itable ip).inum y i = view sb s i :=
        Function.update_of_ne hi _ _
      by_cases hal : Alloc sb (view sb s) i
      · rw [held_of_alloc hal, held_of_alloc ((alloc_congr heq).mpr hal), heq]
      · rw [held_of_not_alloc hal, held_of_not_alloc fun hn => hal ((alloc_congr heq).mp hn)]
  have hown : Owned sb (Function.update (view sb s) (s.itable ip).inum y) s.disk loose :=
    ⟨h.owned.owns.congr hheld (fun _ _ _ => Iff.rfl) fun _ => Iff.rfl, h.owned.metadata⟩
  obtain ⟨hinv, hfiles, hsync⟩ := table_step h hip hty hown
  refine ⟨hinv, ?_, hsync⟩
  intro i
  rw [hfiles i]
  by_cases hi : i = (s.itable ip).inum
  · subst hi
    rw [Function.update_self, if_pos rfl, h.files_eq hip, absFile_of_alloc htype,
      absFile_of_alloc htypey]
    unfold fileBlock
    simp only [hplace]
  · rw [Function.update_of_ne hi, if_neg hi]

/-- Storing the size and publishing the inode, the end of `writei` and of `itrunc`. -/
theorem publish_spec (hl : Layout sb) (hscr : Scribble sb s t ip) (h : Inv sb t loose)
    (hs : Inv sb s loose) (hip : Loaded s ip) (f : Inode → Inode) (size : UInt32)
    (hf : f (t.itable ip) = { t.itable ip with
      toDinode := { (t.itable ip).toDinode with size := size } }) :
    wp (setInode ip f >>= fun _ => iupdate sb ip) (fun _ u => Rewrite sb s u ip ∧
      Inv sb u loose ∧ (u.itable ip).addrs = (t.itable ip).addrs ∧
      files sb u (s.itable ip).inum = { files sb t (s.itable ip).inum with size := size })
      (fun _ => False) t := by
  have hip' : Loaded t ip := (hscr.loaded ip).mpr hip
  have hinum : (t.itable ip).inum = (s.itable ip).inum := hscr.inum ip
  obtain ⟨a, ha⟩ := hscr.table
  obtain ⟨hinv', hfiles, hsync⟩ := fields_step h hip'
    (y := { (t.itable ip).toDinode with size := size }) rfl rfl
  rw [wp_bind, wp_withDinode hf]
  have hip'' : Loaded (withDinode t ip { (t.itable ip).toDinode with size := size }) ip :=
    (withDinode_loaded t ip ip _).mpr hip'
  refine wp_post (iupdate_step hl hinv' hip'') ?_
  rintro _ u ⟨htable, hinvu, hfilesu, hdinu, hsyncu⟩
  have harea := (hs.cached ip hip).1
  refine ⟨⟨⟨a, size, ?_⟩, Or.inr ?_, ?_, ?_⟩, hinvu, by rw [htable, withDinode_self], ?_⟩
  · have hself : t.itable ip = { s.itable ip with
        toDinode := { (s.itable ip).toDinode with addrs := a } } := by rw [ha, withDinode_self]
    rw [htable]
    unfold withDinode
    show Function.update t.itable ip _ = Function.update s.itable ip _
    rw [hself, ha]
    unfold withDinode
    show Function.update (Function.update s.itable ip _) ip _ = _
    rw [Function.update_idem]
  · intro i hi
    rw [hdinu i, withDinode_inum, hinum, htable, withDinode_disk]
    split
    · rfl
    · exact hscr.dinodes i hi
  · intro i hne hi
    rw [hfilesu i hi, hfiles i, if_neg (by rw [hinum]; exact hne), hscr.files i hne hi]
  · intro hsy
    apply hsyncu
    intro k hk hkl
    rw [withDinode_loaded] at hkl
    exact hsync k hk (hscr.synced k hk ((hscr.loaded k).mp hkl) (hsy k ((hscr.loaded k).mp hkl)))
  · have htype := (h.cached ip hip').2.1
    rw [hfilesu _ harea, hfiles, if_pos hinum.symm, ← hinum, h.files_eq hip',
      absFile_of_alloc htype]

/-- The size of a file after bytes have been stored up to `off`. -/
def newSize (size : UInt32) (off : Nat) : UInt32 :=
  if off > size.toNat then UInt32.ofNat off else size

theorem newSize_toNat {size : UInt32} {off : Nat} (h : off < 2 ^ 32) :
    (newSize size off).toNat = max size.toNat off := by
  unfold newSize
  split
  · rw [UInt32.toNat_ofNat_of_lt' h]
    omega
  · omega

/-- What `writei` leaves. From kernel memory it stores every byte. -/
theorem writei_spec (hl : Layout sb) (h : Inv sb s loose) (hip : Loaded s ip)
    (copyin : CopyIn) (off n : Nat) :
    wp (writei sb ip copyin off n) (fun r t => Rewrite sb s t ip ∧ Inv sb t loose ∧
      ∀ src, copyin = kernelSrc src → src.length = n → off ≤ (s.itable ip).size.toNat →
        off + n ≤ MAXFILE * BSIZE → r = n ∧ files sb t (s.itable ip).inum
          = { (files sb s (s.itable ip).inum).write off src with
              size := newSize (s.itable ip).size (off + n) }) Benign s := by
  have hmax : MAXFILE * BSIZE < 2 ^ 32 := by decide
  have hsame : Rewrite sb s s ip :=
    ⟨⟨(s.itable ip).addrs, (s.itable ip).size, by rw [withDinode_same]⟩, Or.inl rfl,
      fun _ _ _ => rfl, id⟩
  rw [writei, wp_bind, wp_inode]
  split
  · rename_i hout
    refine ⟨hsame, h, ?_⟩
    intro src _ _ hoff hle
    rw [Nat.mod_eq_of_lt (by omega)] at hout
    omega
  · split
    · refine ⟨hsame, h, ?_⟩
      intro src _ _ _ hle
      omega
    · rename_i hfit
      rw [wp_bind]
      refine wp_post (writeiLoop_spec hl copyin n h hip off n 0) ?_
      rintro ⟨off', tot'⟩ t ⟨hscr, hinv, _, hkernel⟩
      have hself : (t.itable ip).size = (s.itable ip).size := by
        obtain ⟨a, ha⟩ := hscr.self
        rw [ha]
      have hpub := publish_spec hl hscr hinv h hip
        (fun i => if off' > i.size.toNat then { i with size := UInt32.ofNat off' } else i)
        (newSize (t.itable ip).size off') (by unfold newSize; split <;> rfl)
      rw [wp_bind] at hpub ⊢
      refine wp_mono hpub ?_ fun _ he => he.elim
      intro _ u hu
      rw [wp_bind]
      refine wp_mono hu ?_ fun _ he => he.elim
      rintro _ w ⟨hrew, hinvw, _, hfile⟩
      refine ⟨hrew, hinvw, ?_⟩
      intro src hsrc hlen _ _
      obtain ⟨hr, hdata⟩ := hkernel src hsrc (Nat.le_refl _) (by omega)
      simp only [Prod.mk.injEq] at hr
      refine ⟨by rw [hr.2, Nat.zero_add], ?_⟩
      rw [hfile, hdata, hr.1, hself, List.drop_zero, List.take_of_length_le (by omega)]

/-- `writei` refuses what does not fit in a file. -/
theorem writei_full (copyin : CopyIn) {off n : Nat} (hfull : MAXFILE * BSIZE < off + n)
    {post : Int → FsState → Prop} {err : Panic → Prop} :
    wp (writei sb ip copyin off n) post err s ↔ post (-1) s := by
  rw [writei, wp_bind, wp_inode]
  split
  · rfl
  · rfl

/-! ### `itrunc` -/

/-- The blocks that `x` holds and `y` does not. -/
def Lost (x y : Dinode) (d : Disk) (c : Nat) : Prop :=
  c ≠ 0 ∧ (∃ k, placeOf x d k = c) ∧ ∀ k, placeOf y d k ≠ c

/-- An inode forgets some of its addresses: the blocks it held there are loose. -/
theorem Owned.forget {v : Nat → Dinode} {d : Disk} (h : Owned sb v d loose) {i : Nat}
    {y : Dinode} (hi : Alloc sb v i) (htype : y.type = (v i).type) (hsub : Sub y (v i)) :
    Owned sb (Function.update v i y) d fun c => loose c ∨ Lost (v i) y d c := by
  have hi' : Alloc sb (Function.update v i y) i := by
    refine ⟨hi.1, ?_⟩
    rw [Function.update_self, htype]
    exact hi.2
  have hself : ∀ k, held sb (Function.update v i y) d (i, k) = placeOf y d k := by
    intro k
    rw [held_of_alloc hi', Function.update_self]
  have hother : ∀ j k, j ≠ i →
      held sb (Function.update v i y) d (j, k) = held sb v d (j, k) := by
    intro j k hj
    have heq : Function.update v i y j = v j := Function.update_of_ne hj _ _
    by_cases hal : Alloc sb v j
    · rw [held_of_alloc hal, held_of_alloc ((alloc_congr heq).mpr hal), heq]
    · rw [held_of_not_alloc hal, held_of_not_alloc fun hn => hal ((alloc_congr heq).mp hn)]
  refine (h.abandon ?_).loose_congr _ fun c => or_congr_right (and_congr_right fun hc => ?_)
  · rintro ⟨j, k⟩
    by_cases hj : j = i
    · subst hj
      rw [hself, held_of_alloc hi]
      exact hsub.place d k
    · exact Or.inr (hother j k hj)
  · constructor
    · rintro ⟨⟨k, hk⟩, hnone⟩
      have hheld : held sb v d (i, k) = c := by rw [held_of_alloc hi, hk]
      refine ⟨⟨(i, k), hheld⟩, ?_⟩
      rintro ⟨j, m⟩ hm
      by_cases hj : j = i
      · subst hj
        rw [hself] at hm
        exact hnone m hm
      · -- The block cannot be held by another inode as well.
        rw [hother j m hj] at hm
        have := h.owns.once (j, m) (i, k) (hm.trans hheld.symm) (by rw [hm]; exact hc)
        simp only [Prod.mk.injEq] at this
        exact hj this.1
    · rintro ⟨⟨⟨j, k⟩, hk⟩, hnone⟩
      have hj : j = i := by
        by_contra hj
        exact hnone (j, k) (by rw [hother j k hj, hk])
      subst hj
      refine ⟨⟨k, by rw [← hk, held_of_alloc hi]⟩, ?_⟩
      intro m hm
      exact hnone (j, m) (by rw [hself, hm])

/-- The in-memory inode forgets some of its addresses. -/
theorem forget_step (h : Inv sb s loose) (hip : Loaded s ip) {y : Dinode}
    (hy : ∃ a, y = { (s.itable ip).toDinode with addrs := a })
    (hsub : Sub y (s.itable ip).toDinode) :
    Inv sb (withDinode s ip y)
      (fun c => loose c ∨ Lost (s.itable ip).toDinode y s.disk c) ∧
      Scribble sb s (withDinode s ip y) ip := by
  obtain ⟨a, ha⟩ := hy
  have hview := h.view_eq hip
  have htype : y.type = (s.itable ip).type := by rw [ha]
  have hown := h.owned.forget (y := y) (h.alloc hip) (by rw [hview]; exact htype)
    (by rw [hview]; exact hsub)
  rw [hview] at hown
  obtain ⟨hinv, hfiles, hsync⟩ := table_step h hip htype hown
  refine ⟨hinv, ⟨a, by rw [ha]⟩, fun _ _ => rfl, ?_, fun k hk _ => hsync k hk⟩
  intro i hne _
  rw [hfiles i, Function.update_of_ne hne]

/-- `bfree` sees the blocks only: what it does in one state it does in every state with the
same blocks. -/
theorem bfree_frame {g : FsState} (hd : t.disk = g.disk) {b : Nat} {R : FsState → Prop}
    (h : wp (bfree sb b) (fun _ u => R u) (fun _ => False) g) :
    wp (bfree sb b) (fun _ u => u.itable = t.itable ∧ R { g with disk := u.disk })
      (fun _ => False) t := by
  rw [bfree, wp_bind, wp_read] at h ⊢
  rw [hd]
  split at h
  · rename_i hbit
    rw [if_pos hbit, wp_logWrite]
    refine ⟨rfl, ?_⟩
    show R { g with disk := Function.update t.disk _ _ }
    rw [hd]
    exact h
  · exact h.elim

/-- A step on the blocks that changes no file, as a `Scribble`. -/
theorem Scribble.of_blocks (htable : t.itable = s.itable)
    (hdin : ∀ i, InArea sb i → dinodeAt sb t.disk i = dinodeAt sb s.disk i)
    (hfiles : ∀ i, InArea sb i → Fs.files sb t i = Fs.files sb s i)
    (hsynced : ∀ k, Loaded s k → SyncedAt sb s k → SyncedAt sb t k) (ip : Ino) :
    Scribble sb s t ip :=
  (Fill.of_blocks htable hdin hfiles hsynced ip).scribble

/-- What one direct block of `itrunc` leaves. -/
theorem itruncDirect_spec (h : Inv sb s loose) (hip : Loaded s ip) {k : Nat}
    (hk : k < NDIRECT) :
    wp (itruncDirect sb ip k) (fun _ t => Inv sb t loose ∧ Scribble sb s t ip ∧
      ∀ j, (t.itable ip).addr j = if j = k then 0 else (s.itable ip).addr j)
      (fun _ => False) s := by
  have hk' : k < NDIRECT + 1 := Nat.lt_succ_of_lt hk
  rw [itruncDirect, wp_bind, wp_inode]
  split
  · rename_i hx
    refine ⟨h, Scribble.refl sb s ip, fun j => ?_⟩
    split
    · rename_i hj
      rw [hj]
      exact hx
    · rfl
  · rename_i hx
    obtain ⟨y, hy⟩ : ∃ y, y = (s.itable ip).setAddr k 0 := ⟨_, rfl⟩
    have haddr : ∀ j, y.addr j = if j = k then 0 else (s.itable ip).addr j := by
      intro j
      rw [hy, addr_setAddr _ _ hk' (by decide)]
    have hsub : Sub y (s.itable ip).toDinode := by
      intro j
      rw [haddr]
      split
      · exact Or.inl rfl
      · exact Or.inr rfl
    -- The other places are as before, since the indirect block is.
    have hplace : ∀ j, j ≠ k → placeOf y s.disk j = placeOf (s.itable ip).toDinode s.disk j := by
      intro j hj
      have hjy : y.addr j = (s.itable ip).addr j := by rw [haddr, if_neg hj]
      have hny : y.addr NDIRECT = (s.itable ip).addr NDIRECT := by rw [haddr, if_neg (by omega)]
      unfold placeOf
      rw [hjy, hny]
    have hview := h.view_eq hip
    have halloc := h.alloc hip
    have hself : placeOf (s.itable ip).toDinode s.disk k = (s.itable ip).addr k :=
      placeOf_addr _ _ hk'
    have harea := h.owned.owns.area ((s.itable ip).inum, k)
    rw [held_of_alloc halloc, hview, hself] at harea
    obtain ⟨hlo, hhi⟩ := harea hx
    have hlost : Lost (s.itable ip).toDinode y s.disk ((s.itable ip).addr k) := by
      refine ⟨hx, ⟨k, hself⟩, ?_⟩
      intro j hj
      by_cases hjk : j = k
      · rw [hjk, placeOf_addr _ _ hk', haddr, if_pos rfl] at hj
        exact hx hj.symm
      · rw [hplace j hjk] at hj
        have hne := h.owned.place_ne (k := k) (m := j) halloc halloc (by rw [hview, hself]; exact hx)
          (by simpa using Ne.symm hjk)
        rw [hview, hself] at hne
        exact hne hj.symm
    obtain ⟨hinv, hscr⟩ := forget_step h hip ⟨_, hy⟩ hsub
    have hfree := bfree_spec hinv (Or.inr hlost) hlo hhi
    rw [wp_bind]
    refine wp_post (bfree_frame (t := s) (g := withDinode s ip y) rfl hfree) ?_
    rintro _ u ⟨hutable, _, _, hdinu, _, hinvu, hfilesu, hsyncu⟩
    rw [wp_withDinode (y := y) (by rw [hutable, hy])]
    -- The state the code reaches is the one the bookkeeping reached.
    have hstate : withDinode u ip y = { withDinode s ip y with disk := u.disk } := by
      unfold withDinode
      rw [hutable]
    rw [hstate]
    have hloose : ∀ c, loose c ↔ c ≠ (s.itable ip).addr k ∧
        (loose c ∨ Lost (s.itable ip).toDinode y s.disk c) := by
      intro c
      constructor
      · intro hc
        refine ⟨?_, Or.inl hc⟩
        intro he
        have hap := h.owned.owns.apart ((s.itable ip).inum, k)
        rw [held_of_alloc halloc, hview, hself, ← he] at hap
        exact hap (by rw [he]; exact hx) hc
      · rintro ⟨hne, hc | ⟨_, ⟨j, hj⟩, hnone⟩⟩
        · exact hc
        · by_cases hjk : j = k
          · rw [hjk, hself] at hj
            exact absurd hj.symm hne
          · exact absurd (by rw [hplace j hjk, hj]) (hnone j)
    refine ⟨⟨hinvu.uniq, hinvu.dev, hinvu.cached, hinvu.owned.loose_congr loose hloose⟩,
      hscr.trans (Scribble.of_blocks (s := withDinode s ip y)
        (t := { withDinode s ip y with disk := u.disk }) rfl hdinu hfilesu hsyncu ip), ?_⟩
    intro j
    show ((withDinode s ip y).itable ip).addr j = _
    rw [withDinode_self]
    exact haddr j

/-- The blocks that an inode loses with its indirect block: the block and its entries. -/
theorem lost_indirect (h : Inv sb s loose) (hip : Loaded s ip)
    (hx : (s.itable ip).addr NDIRECT ≠ 0) (c : Nat) :
    Lost (s.itable ip).toDinode ((s.itable ip).setAddr NDIRECT 0) s.disk c ↔
      c = (s.itable ip).addr NDIRECT ∨ c ≠ 0 ∧ ∃ j ∈ List.range NINDIRECT,
        (s.disk ((s.itable ip).addr NDIRECT)).getWord 4 (4 * j) = c := by
  have hview := h.view_eq hip
  have halloc := h.alloc hip
  have haddr : ∀ j, ((s.itable ip).setAddr NDIRECT 0).addr j
      = if j = NDIRECT then 0 else (s.itable ip).addr j := fun j =>
    addr_setAddr _ _ (Nat.lt_succ_self _) (by decide)
  -- Two places of the inode hold different blocks.
  have hne : ∀ j k, j ≠ k → placeOf (s.itable ip).toDinode s.disk j ≠ 0 →
      placeOf (s.itable ip).toDinode s.disk j ≠ placeOf (s.itable ip).toDinode s.disk k := by
    intro j k hjk hj
    have := h.owned.place_ne (k := j) (m := k) halloc halloc (by rw [hview]; exact hj)
      (by simpa using hjk)
    rw [hview] at this
    exact this
  -- The places that remain are the direct ones.
  have hnone : ∀ k, NDIRECT ≤ k → placeOf ((s.itable ip).setAddr NDIRECT 0) s.disk k = 0 := by
    intro k hk
    unfold placeOf
    rw [haddr NDIRECT, if_pos rfl]
    split
    · rw [haddr k, if_pos (by omega)]
    · simp
  have hdirect : ∀ k, k < NDIRECT → placeOf ((s.itable ip).setAddr NDIRECT 0) s.disk k
      = placeOf (s.itable ip).toDinode s.disk k := by
    intro k hk
    rw [placeOf_addr _ _ (by omega), placeOf_addr _ _ (by omega), haddr, if_neg (by omega)]
  have hlost : ∀ m, NDIRECT ≤ m → placeOf (s.itable ip).toDinode s.disk m ≠ 0 → ∀ k,
      placeOf ((s.itable ip).setAddr NDIRECT 0) s.disk k
        ≠ placeOf (s.itable ip).toDinode s.disk m := by
    intro m hm h0 k
    by_cases hk : k < NDIRECT
    · rw [hdirect k hk]
      exact (hne m k (by omega) h0).symm
    · rw [hnone k (by omega)]
      exact h0.symm
  constructor
  · rintro ⟨hc0, ⟨k, hk⟩, hn⟩
    by_cases hkn : k < NDIRECT
    · exact absurd (by rw [hdirect k hkn, hk]) (hn k)
    · by_cases hke : k = NDIRECT
      · left
        rw [← hk, hke, placeOf_indirect]
      · right
        have hlt : k - (NDIRECT + 1) < NINDIRECT := by
          by_contra hbig
          have hz : placeOf (s.itable ip).toDinode s.disk k = 0 := by
            unfold placeOf NPLACE
            rw [if_neg (by omega), if_neg (by omega)]
          exact hc0 (by rw [← hk, hz])
        refine ⟨hc0, k - (NDIRECT + 1), List.mem_range.mpr hlt, ?_⟩
        rw [← hk, ← placeOf_entry _ _ hlt hx]
        congr 1
        omega
  · rintro (rfl | ⟨hc0, j, hj, rfl⟩)
    · have h0 : placeOf (s.itable ip).toDinode s.disk NDIRECT ≠ 0 := by
        rw [placeOf_indirect]
        exact hx
      refine ⟨hx, ⟨NDIRECT, placeOf_indirect _ _⟩, ?_⟩
      intro k
      have := hlost NDIRECT (Nat.le_refl _) h0 k
      rwa [placeOf_indirect _ s.disk] at this
    · have hplace := placeOf_entry (s.itable ip).toDinode s.disk (List.mem_range.mp hj) hx
      refine ⟨hc0, ⟨_, hplace⟩, ?_⟩
      intro k
      have := hlost (NDIRECT + 1 + j) (by omega) (by rw [hplace]; exact hc0) k
      rwa [hplace] at this

/-- The state while `itrunc` frees the entries of the indirect block `c₀`: the entries in
`rest` are still to be freed. The bookkeeping runs ahead of the table, where the inode still
has the block. -/
structure Freeing (sb : Superblock) (s : FsState) (ip : Ino) (loose : Nat → Prop)
    (y : Dinode) (c₀ : Nat) (rest : List Nat) (t : FsState) : Prop where
  nodup : rest.Nodup
  bound : ∀ j ∈ rest, j < NINDIRECT
  table : t.itable = s.itable
  inv : Inv sb { withDinode s ip y with disk := t.disk } fun c => (loose c ∨ c = c₀) ∨
    c ≠ 0 ∧ ∃ j ∈ rest, (s.disk c₀).getWord 4 (4 * j) = c
  scribble : Scribble sb s { withDinode s ip y with disk := t.disk } ip

/-- One entry of the indirect block is freed. -/
theorem Freeing.step (h : Inv sb s loose) (hip : Loaded s ip) {c₀ : Nat}
    (hc₀ : c₀ = (s.itable ip).addr NDIRECT) (hc0 : c₀ ≠ 0) {y : Dinode} {j : Nat}
    {rest : List Nat} (hf : Freeing sb s ip loose y c₀ (j :: rest) t) :
    wp (if (s.disk c₀).getWord 4 (4 * j) = 0 then Pure.pure ()
        else bfree sb ((s.disk c₀).getWord 4 (4 * j)))
      (fun _ u => Freeing sb s ip loose y c₀ rest u) (fun _ => False) t := by
  have hview := h.view_eq hip
  have halloc := h.alloc hip
  have hind : held sb (view sb s) s.disk ((s.itable ip).inum, NDIRECT) = c₀ := by
    rw [held_of_alloc halloc, placeOf_indirect, hview, hc₀]
  have hentry : ∀ m, m < NINDIRECT → held sb (view sb s) s.disk
      ((s.itable ip).inum, NDIRECT + 1 + m) = (s.disk c₀).getWord 4 (4 * m) := by
    intro m hm
    rw [held_of_alloc halloc, placeOf_entry _ _ hm (by rw [hview, ← hc₀]; exact hc0), hview,
      ← hc₀]
  obtain ⟨hj, hnodup⟩ := List.nodup_cons.mp hf.nodup
  have hjlt := hf.bound j List.mem_cons_self
  have hbound : ∀ m ∈ rest, m < NINDIRECT := fun m hm =>
    hf.bound m (List.mem_cons_of_mem _ hm)
  obtain ⟨a, ha⟩ : ∃ a, a = (s.disk c₀).getWord 4 (4 * j) := ⟨_, rfl⟩
  rw [← ha]
  have hinv := hf.inv
  simp only [List.mem_cons, exists_eq_or_imp, ← ha] at hinv
  split
  · -- No block in this entry.
    rename_i ha0
    refine ⟨hnodup, hbound, hf.table, ?_, hf.scribble⟩
    refine ⟨hinv.uniq, hinv.dev, hinv.cached, hinv.owned.loose_congr _ fun c => ?_⟩
    refine or_congr_right (and_congr_right fun hc => ⟨Or.inr, ?_⟩)
    rintro (he | hr)
    · exact absurd (he.symm.trans ha0) hc
    · exact hr
  · rename_i ha0
    have harea := h.owned.owns.area ((s.itable ip).inum, NDIRECT + 1 + j)
    rw [hentry j hjlt, ← ha] at harea
    obtain ⟨hlo, hhi⟩ := harea ha0
    have hfree := bfree_spec hinv (Or.inr ⟨ha0, Or.inl rfl⟩) hlo hhi
    refine wp_post (bfree_frame (t := t)
      (g := { withDinode s ip y with disk := t.disk }) rfl hfree) ?_
    rintro _ u ⟨hutable, _, _, hdinu, _, hinvu, hfilesu, hsyncu⟩
    refine ⟨hnodup, hbound, hutable.trans hf.table, ?_, hf.scribble.trans
      (Scribble.of_blocks (s := { withDinode s ip y with disk := t.disk })
        (t := { withDinode s ip y with disk := u.disk }) rfl hdinu hfilesu hsyncu ip)⟩
    refine ⟨hinvu.uniq, hinvu.dev, hinvu.cached, hinvu.owned.loose_congr _ fun c => ?_⟩
    -- The freed block is not loose otherwise, nor the indirect block, nor a later entry.
    have hnl : ¬ loose a := by
      have := h.owned.owns.apart ((s.itable ip).inum, NDIRECT + 1 + j)
      rw [hentry j hjlt, ← ha] at this
      exact this ha0
    have hne : a ≠ c₀ := by
      intro he
      have := h.owned.owns.once ((s.itable ip).inum, NDIRECT + 1 + j) ((s.itable ip).inum, NDIRECT)
      rw [hentry j hjlt, hind, ← ha] at this
      have := this he ha0
      simp only [Prod.mk.injEq, true_and] at this
      omega
    have hlater : ∀ m ∈ rest, (s.disk c₀).getWord 4 (4 * m) ≠ a := by
      intro m hm he
      have := h.owned.owns.once ((s.itable ip).inum, NDIRECT + 1 + j)
        ((s.itable ip).inum, NDIRECT + 1 + m)
      rw [hentry j hjlt, hentry m (hbound m hm), ← ha, he] at this
      have := this rfl ha0
      simp only [Prod.mk.injEq, true_and] at this
      have hjm : j = m := by omega
      rw [hjm] at hj
      exact hj hm
    constructor
    · rintro ((hl | he) | ⟨hc, m, hm, hw⟩)
      · exact ⟨fun hca => hnl (hca ▸ hl), Or.inl (Or.inl hl)⟩
      · exact ⟨fun hca => hne (hca ▸ he), Or.inl (Or.inr he)⟩
      · exact ⟨fun hca => hlater m hm (hw.trans hca), Or.inr ⟨hc, Or.inr ⟨m, hm, hw⟩⟩⟩
    · rintro ⟨hca, hl | ⟨hc, he | hr⟩⟩
      · exact Or.inl hl
      · exact absurd he.symm hca
      · exact Or.inr ⟨hc, hr⟩

/-- What the indirect block of `itrunc` leaves. -/
theorem itruncIndirect_spec (h : Inv sb s loose) (hip : Loaded s ip) :
    wp (itruncIndirect sb ip) (fun _ t => Inv sb t loose ∧ Scribble sb s t ip ∧
      ∀ j, (t.itable ip).addr j = if j = NDIRECT then 0 else (s.itable ip).addr j)
      (fun _ => False) s := by
  rw [itruncIndirect, wp_bind, wp_inode]
  split
  · rename_i hx
    refine ⟨h, Scribble.refl sb s ip, fun j => ?_⟩
    split
    · rename_i hj
      rw [hj]
      exact hx
    · rfl
  · rename_i hx
    rw [wp_bind, wp_bread]
    obtain ⟨y, hy⟩ : ∃ y, y = (s.itable ip).setAddr NDIRECT 0 := ⟨_, rfl⟩
    have haddr : ∀ j, y.addr j = if j = NDIRECT then 0 else (s.itable ip).addr j := by
      intro j
      rw [hy, addr_setAddr _ _ (Nat.lt_succ_self _) (by decide)]
    have hsub : Sub y (s.itable ip).toDinode := by
      intro j
      rw [haddr]
      split
      · exact Or.inl rfl
      · exact Or.inr rfl
    have hview := h.view_eq hip
    have halloc := h.alloc hip
    obtain ⟨hinv, hscr⟩ := forget_step h hip ⟨_, hy⟩ hsub
    have hstart : Freeing sb s ip loose y ((s.itable ip).addr NDIRECT) (List.range NINDIRECT) s := by
      refine ⟨List.nodup_range, fun j hj => List.mem_range.mp hj, rfl, ?_, hscr⟩
      refine ⟨hinv.uniq, hinv.dev, hinv.cached, hinv.owned.loose_congr _ fun c => ?_⟩
      rw [hy, lost_indirect h hip hx c, or_assoc]
    rw [wp_bind]
    refine wp_post (wp_forEach (Freeing sb s ip loose y ((s.itable ip).addr NDIRECT))
      (fun j rest t hf => hf.step h hip rfl hx) hstart) ?_
    intro _ t hf
    -- The indirect block itself.
    have hinvt := hf.inv
    simp only [List.not_mem_nil, false_and, exists_false, and_false, or_false] at hinvt
    obtain ⟨hlo, hhi⟩ := h.owned.indirect_area halloc (by rw [hview]; exact hx)
    rw [hview] at hlo hhi
    have hfree := bfree_spec hinvt (Or.inr rfl) hlo hhi
    rw [wp_bind]
    refine wp_post (bfree_frame (t := t)
      (g := { withDinode s ip y with disk := t.disk }) rfl hfree) ?_
    rintro _ u ⟨hutable, _, _, hdinu, _, hinvu, hfilesu, hsyncu⟩
    have hutable' := hutable.trans hf.table
    rw [wp_withDinode (y := y) (by rw [hutable', hy])]
    have hstate : withDinode u ip y = { withDinode s ip y with disk := u.disk } := by
      unfold withDinode
      rw [hutable']
    rw [hstate]
    have hnl : ¬ loose ((s.itable ip).addr NDIRECT) := by
      have := h.owned.owns.apart ((s.itable ip).inum, NDIRECT)
      rw [held_of_alloc halloc, placeOf_indirect, hview] at this
      exact this hx
    refine ⟨⟨hinvu.uniq, hinvu.dev, hinvu.cached, hinvu.owned.loose_congr loose fun c => ?_⟩,
      hf.scribble.trans (Scribble.of_blocks (s := { withDinode s ip y with disk := t.disk })
        (t := { withDinode s ip y with disk := u.disk }) rfl hdinu hfilesu hsyncu ip), ?_⟩
    · exact ⟨fun hc => ⟨fun he => hnl (he ▸ hc), Or.inl hc⟩, fun hc => hc.2.resolve_right hc.1⟩
    · intro j
      show ((withDinode s ip y).itable ip).addr j = _
      rw [withDinode_self]
      exact haddr j

/-- A file without blocks is all zero. -/
theorem absFile_no_blocks {x : Dinode} (hx : ∀ k, x.addr k = 0) (htype : x.type ≠ .none)
    (d : Disk) : absFile x d = ⟨x.type, x.major, x.minor, x.nlink, x.size, fun _ => 0⟩ := by
  have hplace : ∀ k, placeOf x d k = 0 := by
    intro k
    unfold placeOf
    simp [hx]
  rw [absFile_of_alloc htype]
  unfold fileBlock
  simp [hplace]

/-- What `itrunc` leaves: an empty file. It does not panic. -/
theorem itrunc_spec (hl : Layout sb) (h : Inv sb s loose) (hip : Loaded s ip) :
    wp (itrunc sb ip) (fun _ t => Rewrite sb s t ip ∧ Inv sb t loose ∧
      (∀ k, (t.itable ip).addr k = 0) ∧ files sb t (s.itable ip).inum
        = { files sb s (s.itable ip).inum with size := 0, data := fun _ => 0 })
      (fun _ => False) s := by
  rw [itrunc, wp_bind]
  refine wp_post (wp_forEach (fun rest t => (∀ k ∈ rest, k < NDIRECT) ∧ Inv sb t loose ∧
    Scribble sb s t ip ∧ ∀ k, k < NDIRECT → k ∉ rest → (t.itable ip).addr k = 0) ?_ ?_) ?_
  · rintro k rest t ⟨hbound, hinv, hscr, hzero⟩
    have hk := hbound k List.mem_cons_self
    refine wp_post (itruncDirect_spec hinv ((hscr.loaded ip).mpr hip) hk) ?_
    rintro _ u ⟨hinvu, hscru, haddr⟩
    refine ⟨fun m hm => hbound m (List.mem_cons_of_mem _ hm), hinvu, hscr.trans hscru, ?_⟩
    intro m hm hrest
    rw [haddr]
    split
    · rfl
    · rename_i hmk
      exact hzero m hm (by simp [hmk, hrest])
  · refine ⟨fun k hk => List.mem_range.mp hk, h, Scribble.refl sb s ip, ?_⟩
    intro k hk hrest
    exact absurd (List.mem_range.mpr hk) hrest
  · rintro _ t ⟨_, hinv, hscr, hzero⟩
    rw [wp_bind]
    refine wp_post (itruncIndirect_spec hinv ((hscr.loaded ip).mpr hip)) ?_
    rintro _ u ⟨hinvu, hscru, haddr⟩
    have hscr' := hscr.trans hscru
    have hall : ∀ k, (u.itable ip).addr k = 0 := by
      intro k
      rw [haddr]
      split
      · rfl
      · rename_i hkn
        by_cases hk : k < NDIRECT
        · exact hzero k hk List.not_mem_nil
        · unfold Dinode.addr
          rw [dif_neg (by omega)]
    have hipu : Loaded u ip := (hscr'.loaded ip).mpr hip
    have hinum : (u.itable ip).inum = (s.itable ip).inum := hscr'.inum ip
    have hpub := publish_spec hl hscr' hinvu h hip (fun n => { n with size := 0 }) 0 rfl
    refine wp_post hpub ?_
    rintro _ w ⟨hrew, hinvw, haddrs, hfile⟩
    refine ⟨hrew, hinvw, ?_, ?_⟩
    · intro k
      have := hall k
      unfold Dinode.addr at this ⊢
      rw [haddrs]
      exact this
    · obtain ⟨a, ha⟩ := hscr'.self
      have htype := (hinvu.cached ip hipu).2.1
      rw [hfile, ← hinum, hinvu.files_eq hipu, absFile_no_blocks hall htype, hinum,
        h.files_eq hip, absFile_of_alloc (h.cached ip hip).2.1, ha]

end Xv6.Proofs.Fs
