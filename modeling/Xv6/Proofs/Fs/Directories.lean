import Xv6.Proofs.Fs.Inodes

/-!
# `Xv6.Proofs.Fs.Directories`: `dirlookup` and `dirlink`

A directory is a file of 16-byte entries. `AFile.entry f off` is the entry at offset `off`,
read from the bytes of the file, and `Named f name off` says that it is in use under that
name.

`dirlookup` reads the entries in order and returns the inode of one that has the name
(`dirlookup_spec`). When it returns nothing, no entry has the name. `dirlink` writes an
entry at an offset that is not in use, and changes no other byte of any file
(`dirlink_spec`).

The reads may allocate blocks where the directory has holes, so the functions leave the
state up to `Fill`. The reference that `dirlookup` takes inside `dirlink` is given back by
an `iput` that frees nothing (`IgetAt.put_step`).
-/

set_option autoImplicit false

namespace Xv6.Proofs.Fs

open Lib Lib.Action Kernel

variable {sb : Superblock} {s t u : FsState} {loose : Nat → Prop} {dp : Ino}

/-! ### Entries -/

/-- The directory entry at offset `off` of a file. -/
def AFile.entry (f : AFile) (off : Nat) : Dirent := Dirent.ofBytes (f.bytes off DIRENTSIZE)

/-- The entry at offset `off` is in use, under the name `name`. -/
def Named (f : AFile) (name : List UInt8) (off : Nat) : Prop :=
  (f.entry off).inum ≠ 0 ∧ namecmp name (f.entry off).name = 0

/-- The offsets at which a file of that size has whole entries, and the next one. The bound
keeps the sums of the reads in 32 bits. -/
def SmallSize (size : UInt32) : Prop := size.toNat + 2 * DIRENTSIZE < 2 ^ 32

theorem mem_direntOffs {size off : Nat} :
    off ∈ direntOffs size ↔ off % DIRENTSIZE = 0 ∧ off < size := by
  have h16 : DIRENTSIZE = 16 := rfl
  unfold direntOffs
  simp only [List.mem_map, List.mem_range]
  constructor
  · rintro ⟨k, hk, rfl⟩
    rw [h16] at hk ⊢
    omega
  · rintro ⟨hmod, hlt⟩
    refine ⟨off / DIRENTSIZE, ?_, ?_⟩
    · rw [h16] at hmod ⊢
      omega
    · rw [h16] at hmod ⊢
      omega

theorem length_direntOffs (size : Nat) :
    (direntOffs size).length = (size + DIRENTSIZE - 1) / DIRENTSIZE := by
  simp [direntOffs]

theorem AFile.length_bytes (f : AFile) (off n : Nat) : (f.bytes off n).length = n := by
  simp [AFile.bytes]

/-- What the read of an entry leaves and returns. -/
theorem readDirent_spec (hl : Layout sb) (h : Inv sb s loose) (hdp : Loaded s dp) (off : Nat)
    {e : Panic} (he : Benign e) :
    wp (readDirent sb dp off e) (fun de t => Fill sb s t dp ∧ Inv sb t loose ∧
      (off + DIRENTSIZE < 2 ^ 32 → off + DIRENTSIZE ≤ (s.itable dp).size.toNat ∧
        de = (files sb s (s.itable dp).inum).entry off)) Benign s := by
  rw [readDirent, wp_bind]
  refine wp_post (readi_spec hl h hdp (fun _ => true) off DIRENTSIZE) ?_
  rintro r t ⟨hfill, hinv, hr⟩
  cases r with
  | none => exact he
  | some bs =>
    show wp (if bs.length = DIRENTSIZE then Pure.pure (Dirent.ofBytes bs)
      else Action.fail e) _ _ _
    split
    · rename_i hlen
      refine ⟨hfill, hinv, ?_⟩
      intro hoff
      have hbs := hr (fun _ => rfl) hoff
      simp only [Option.some.injEq] at hbs
      rw [hbs, AFile.length_bytes] at hlen
      have h16 : DIRENTSIZE = 16 := rfl
      refine ⟨by omega, ?_⟩
      rw [hbs, hlen]
      rfl
    · exact he

/-! ### `dirlookup` -/

/-- What `dirlookup` leaves and returns. -/
theorem dirlookup_spec (hl : Layout sb) (h : Inv sb s loose) (hdp : Loaded s dp)
    (name : List UInt8) :
    wp (dirlookup sb dp name) (fun r t => (s.itable dp).type = .dir ∧ match r with
      | none => Fill sb s t dp ∧ Inv sb t loose ∧ (SmallSize (s.itable dp).size →
          (s.itable dp).size.toNat % DIRENTSIZE = 0 ∧
          ∀ off ∈ direntOffs (s.itable dp).size.toNat,
            ¬ Named (files sb s (s.itable dp).inum) name off)
      | some (ip, off) => ∃ u inum, Fill sb s u dp ∧ Inv sb u loose ∧ IgetAt u inum ip t ∧
          Inv sb t loose ∧ off ∈ direntOffs (s.itable dp).size.toNat ∧
          (SmallSize (s.itable dp).size → off + DIRENTSIZE ≤ (s.itable dp).size.toNat ∧
            inum = ((files sb s (s.itable dp).inum).entry off).inum ∧
            Named (files sb s (s.itable dp).inum) name off)) Benign s := by
  obtain ⟨f, hf⟩ : ∃ f, f = files sb s (s.itable dp).inum := ⟨_, rfl⟩
  obtain ⟨size, hsize⟩ : ∃ z, z = (s.itable dp).size := ⟨_, rfl⟩
  rw [dirlookup, wp_bind, wp_inode, ← hf, ← hsize]
  split
  · exact ⟨by decide, by decide⟩
  · rename_i htype
    have htype : (s.itable dp).type = .dir := by simpa using htype
    have hdev : (s.itable dp).dev = ROOTDEV := h.dev dp hdp.1
    have h16 : DIRENTSIZE = 16 := rfl
    -- The offsets tried so far hold no entry of that name.
    refine wp_post (wp_firstSome (fun rest t => (∃ tried, tried ++ rest = direntOffs size.toNat ∧
        (SmallSize size → ∀ off ∈ tried, off + DIRENTSIZE ≤ size.toNat ∧ ¬ Named f name off)) ∧
          Fill sb s t dp ∧ Inv sb t loose)
      (fun r t => ∃ u inum, Fill sb s u dp ∧ Inv sb u loose ∧ IgetAt u inum r.1 t ∧
        Inv sb t loose ∧ r.2 ∈ direntOffs size.toNat ∧
        (SmallSize size → r.2 + DIRENTSIZE ≤ size.toNat ∧ inum = (f.entry r.2).inum ∧
          Named f name r.2))
      ?_ ⟨⟨[], rfl, fun _ off hoff => absurd hoff (by simp)⟩, Fill.refl sb s dp, h⟩) ?_
    · rintro off rest t ⟨⟨tried, hsplit, htried⟩, hfill, hinv⟩
      have hmem : off ∈ direntOffs size.toNat := by
        rw [← hsplit]
        simp
      rw [wp_bind]
      refine wp_post (readDirent_spec hl hinv ((hfill.loaded dp).mpr hdp) off
        ⟨by decide, by decide⟩) ?_
      rintro de u ⟨hfill', hinv', hde⟩
      have hfill'' := hfill.trans hfill'
      -- The entry is that of the directory before the call.
      have hread : SmallSize size → off + DIRENTSIZE ≤ size.toNat ∧ de = f.entry off := by
        intro hsmall
        have hoff := (mem_direntOffs.mp hmem).2
        unfold SmallSize at hsmall
        have := hde (by omega)
        rw [hfill.size, ← hsize, hfill.inum, hfill.files _ (h.cached dp hdp).1, ← hf] at this
        exact this
      -- One more offset without the name.
      have hnext : (SmallSize size → ¬ Named f name off) →
          (∃ tried, tried ++ rest = direntOffs size.toNat ∧ (SmallSize size →
            ∀ off ∈ tried, off + DIRENTSIZE ≤ size.toNat ∧ ¬ Named f name off)) := by
        intro hnot
        refine ⟨tried ++ [off], by simpa using hsplit, ?_⟩
        intro hsmall o ho
        rcases List.mem_append.mp ho with ho | ho
        · exact htried hsmall o ho
        · rw [List.mem_singleton.mp ho]
          exact ⟨(hread hsmall).1, hnot hsmall⟩
      split
      · rename_i hzero
        refine ⟨hnext fun hsmall hn => hn.1 ?_, hfill'', hinv'⟩
        rw [← (hread hsmall).2]
        exact hzero
      · split
        · rename_i hne hcmp
          rw [hdev, wp_bind]
          refine wp_post (iget_spec hinv' de.inum) ?_
          rintro ip v ⟨hget, hinv'', _⟩
          refine ⟨u, de.inum, hfill'', hinv', hget, hinv'', hmem, ?_⟩
          intro hsmall
          obtain ⟨hle, heq⟩ := hread hsmall
          unfold Named
          rw [← heq]
          exact ⟨hle, rfl, hne, hcmp⟩
        · rename_i hcmp
          refine ⟨hnext fun hsmall hn => hcmp ?_, hfill'', hinv'⟩
          rw [(hread hsmall).2]
          exact hn.2
    · intro r t ht
      refine ⟨htype, ?_⟩
      cases r with
      | none =>
        obtain ⟨⟨tried, hsplit, htried⟩, hfill, hinv⟩ := ht
        rw [List.append_nil] at hsplit
        rw [hsplit] at htried
        refine ⟨hfill, hinv, fun hsmall => ⟨?_, fun off ho => (htried hsmall off ho).2⟩⟩
        -- A last entry that is cut short would have stopped the kernel.
        by_contra hmod
        have hlast : size.toNat / 16 * 16 ∈ direntOffs size.toNat := by
          rw [mem_direntOffs, h16]
          rw [h16] at hmod
          omega
        have := (htried hsmall _ hlast).1
        rw [h16] at this hmod
        omega
      | some r =>
        obtain ⟨ip, off⟩ := r
        exact ht

/-! ### `dirlink` -/

/-- `Fill` keeps the copies in step. -/
theorem Fill.allSynced (h : Fill sb s t dp) (hs : Synced sb s) : Synced sb t :=
  fun k hk => h.synced k ((h.loaded k).mp hk) (hs k ((h.loaded k).mp hk))

theorem not_frees_of_last {k : Ino} (h : (t.itable k).ref = 1 → (t.itable k).valid = false) :
    ¬ Frees t k := by
  rintro ⟨hone, hvalid, _⟩
  rw [h hone] at hvalid
  exact Bool.false_ne_true hvalid

namespace IgetAt

variable {inum : Nat} {k : Ino}

/-- A copy has another reference. -/
theorem last (hg : IgetAt s inum k t) (hone : (t.itable k).ref = 1) :
    (t.itable k).valid = false := by
  cases hg with
  | hit href _ =>
    rw [withSlot_self] at hone
    have hone : (s.itable k).ref + 1 = 1 := hone
    omega
  | recycle => rw [withSlot_self]

/-- The slots after the reference is given back. -/
theorem given_back (hg : IgetAt s inum k t) (j : Ino) : (dropRef t k).itable j = s.itable j ∨
    (s.itable j).ref = 0 ∧ ((dropRef t k).itable j).ref = 0 := by
  unfold dropRef
  by_cases hj : j = k
  · subst hj
    rw [withSlot_self]
    cases hg with
    | hit =>
      rw [withSlot_self]
      exact .inl (by simp)
    | recycle href => exact .inr ⟨href, by rw [withSlot_self]; rfl⟩
  · rw [withSlot_of_ne t _ hj]
    cases hg with
    | hit => exact .inl (withSlot_of_ne s _ hj)
    | recycle => exact .inl (withSlot_of_ne s _ hj)

/-- The `iput` that gives back what `iget` took frees nothing and ends no copy. -/
theorem put_step (hg : IgetAt s inum k t) (h : Inv sb t loose) :
    wp (iput sb k) (fun _ u => Inv sb u loose ∧ (∀ i, files sb u i = files sb t i) ∧
      (Synced sb t → Synced sb u) ∧ Same s u) (fun _ => False) t := by
  rw [iput_keeps (not_frees_of_last hg.last)]
  obtain ⟨hinv, hfiles, hsync⟩ := dropRef_step h hg.ref_pos hg.last
  refine ⟨hinv, hfiles, hsync, ?_⟩
  intro j
  rcases hg.given_back j with hsame | ⟨hold, hnew⟩
  · rw [hsame]
    exact Same.refl s j
  · exact ⟨hnew.trans hold.symm, fun hlt => by omega⟩

end IgetAt

/-- The offset that `dirlink` writes to: of the first entry not in use, or the end. -/
theorem dirlinkSlot_spec (hl : Layout sb) (h : Inv sb s loose) (hdp : Loaded s dp) :
    wp (dirlinkSlot sb dp) (fun off t => Fill sb s t dp ∧ Inv sb t loose ∧
      (SmallSize (s.itable dp).size → (s.itable dp).size.toNat % DIRENTSIZE = 0 →
        off % DIRENTSIZE = 0 ∧ (off = (s.itable dp).size.toNat ∨
          off < (s.itable dp).size.toNat ∧
            ((files sb s (s.itable dp).inum).entry off).inum = 0))) Benign s := by
  obtain ⟨f, hf⟩ : ∃ f, f = files sb s (s.itable dp).inum := ⟨_, rfl⟩
  obtain ⟨size, hsize⟩ : ∃ z, z = (s.itable dp).size := ⟨_, rfl⟩
  rw [dirlinkSlot, wp_bind, wp_inode, ← hf, ← hsize, wp_bind]
  refine wp_post (wp_firstSome (fun rest t => (∀ off ∈ rest, off ∈ direntOffs size.toNat) ∧
      Fill sb s t dp ∧ Inv sb t loose)
    (fun off t => Fill sb s t dp ∧ Inv sb t loose ∧ off ∈ direntOffs size.toNat ∧
      (SmallSize size → (f.entry off).inum = 0))
    ?_ ⟨fun _ ho => ho, Fill.refl sb s dp, h⟩) ?_
  · rintro off rest t ⟨hrest, hfill, hinv⟩
    have hmem := hrest off List.mem_cons_self
    rw [wp_bind]
    refine wp_post (readDirent_spec hl hinv ((hfill.loaded dp).mpr hdp) off
      ⟨by decide, by decide⟩) ?_
    rintro de u ⟨hfill', hinv', hde⟩
    rw [wp_pure]
    by_cases hzero : de.inum = 0
    · rw [if_pos hzero]
      refine ⟨hfill.trans hfill', hinv', hmem, ?_⟩
      intro hsmall
      have hoff := (mem_direntOffs.mp hmem).2
      unfold SmallSize at hsmall
      have := (hde (by omega)).2
      rw [hfill.inum, hfill.files _ (h.cached dp hdp).1, ← hf] at this
      rw [← this]
      exact hzero
    · rw [if_neg hzero]
      exact ⟨fun o ho => hrest o (List.mem_cons_of_mem _ ho), hfill.trans hfill', hinv'⟩
  · intro r t ht
    rw [wp_pure]
    have h16 : DIRENTSIZE = 16 := rfl
    cases r with
    | none =>
      obtain ⟨_, hfill, hinv⟩ := ht
      refine ⟨hfill, hinv, ?_⟩
      intro _ hmod
      show (DIRENTSIZE * (direntOffs size.toNat).length) % DIRENTSIZE = 0 ∧
        (DIRENTSIZE * (direntOffs size.toNat).length = size.toNat ∨ _)
      rw [length_direntOffs, h16]
      rw [h16] at hmod
      exact ⟨by omega, Or.inl (by omega)⟩
    | some off =>
      obtain ⟨hfill, hinv, hmem, hzero⟩ := ht
      refine ⟨hfill, hinv, ?_⟩
      intro hsmall _
      obtain ⟨hmod, hlt⟩ := mem_direntOffs.mp hmem
      exact ⟨hmod, Or.inr ⟨hlt, hzero hsmall⟩⟩

/-- The directory after an entry has been written. -/
def AFile.link (f : AFile) (off : Nat) (name : List UInt8) (inum : Nat) : AFile :=
  { f.write off (Dirent.toBytes ⟨inum, name⟩) with size := newSize f.size (off + DIRENTSIZE) }

/-- What `dirlink` leaves: every file as it was, or one entry more. -/
theorem dirlink_spec (hl : Layout sb) (h : Inv sb s loose) (hdp : Loaded s dp)
    (name : List UInt8) (inum : Nat) :
    wp (dirlink sb dp name inum) (fun r t => Inv sb t loose ∧ Same s t ∧
      (Synced sb s → Synced sb t) ∧ (s.itable dp).type = .dir ∧
      (SmallSize (s.itable dp).size →
        (r = -1 ∧ ∀ i, InArea sb i → files sb t i = files sb s i) ∨
        (r = 0 ∧ (s.itable dp).size.toNat % DIRENTSIZE = 0 ∧
          (∀ off ∈ direntOffs (s.itable dp).size.toNat,
            ¬ Named (files sb s (s.itable dp).inum) name off) ∧
          ∃ off, off % DIRENTSIZE = 0 ∧ off + DIRENTSIZE ≤ MAXFILE * BSIZE ∧
            (off = (s.itable dp).size.toNat ∨ off < (s.itable dp).size.toNat ∧
              ((files sb s (s.itable dp).inum).entry off).inum = 0) ∧
            ∀ i, InArea sb i → files sb t i = if i = (s.itable dp).inum
              then (files sb s i).link off name inum else files sb s i))) Benign s := by
  rw [dirlink, wp_bind]
  refine wp_post (dirlookup_spec hl h hdp name) ?_
  rintro r t ⟨htype, ht⟩
  cases r with
  | some r =>
    -- The name is taken. The reference from `dirlookup` is given back.
    obtain ⟨ip, off⟩ := r
    obtain ⟨u, i, hfill, hinvu, hget, hinv, _⟩ := ht
    show wp (iput sb ip >>= fun _ => Pure.pure (-1)) _ _ _
    rw [wp_bind]
    refine wp_mono (hget.put_step hinv) ?_ fun _ he => he.elim
    rintro _ v ⟨hinv', hfiles, hsync, hsame⟩
    obtain ⟨_, hview, hsyncu⟩ := hget.step hinvu
    refine ⟨hinv', hfill.same.trans hsame, ?_, htype, fun _ => Or.inl ⟨rfl, ?_⟩⟩
    · intro hs
      exact hsync ((hfill.allSynced hs).of_slots (fun j => hget.loaded) hsyncu)
    · intro j hj
      rw [hfiles j, files_of_view hget.disk (hview j), hfill.files j hj]
  | none =>
    obtain ⟨hfill, hinv, hnone⟩ := ht
    have hdpt : Loaded t dp := (hfill.loaded dp).mpr hdp
    show wp (dirlinkSlot sb dp >>= fun off => _) _ _ _
    rw [wp_bind]
    refine wp_post (dirlinkSlot_spec hl hinv hdpt) ?_
    rintro off u ⟨hfill', hinvu, hoff⟩
    have hdpu : Loaded u dp := (hfill'.loaded dp).mpr hdpt
    have hfillu := hfill.trans hfill'
    rw [hfill.size, hfill.inum, hfill.files _ (h.cached dp hdp).1] at hoff
    rw [wp_bind]
    by_cases hfull : MAXFILE * BSIZE < off + DIRENTSIZE
    · -- The directory has no room left.
      rw [writei_full _ hfull, wp_pure]
      exact ⟨hinvu, hfillu.same, hfillu.allSynced, htype,
        fun _ => Or.inl ⟨rfl, fun i hi => hfillu.files i hi⟩⟩
    · refine wp_post (writei_spec hl hinvu hdpu (kernelSrc (Dirent.toBytes ⟨inum, name⟩)) off
        DIRENTSIZE) ?_
      rintro w v ⟨hrw, hinvv, hw⟩
      rw [wp_pure]
      refine ⟨hinvv, hfillu.same.trans hrw.same, fun hs => hrw.synced (hfillu.allSynced hs),
        htype, ?_⟩
      intro hsmall
      obtain ⟨hmod, hall⟩ := hnone hsmall
      obtain ⟨hoffmod, hslot⟩ := hoff hsmall hmod
      have hle : off ≤ (u.itable dp).size.toNat := by
        rw [hfillu.size]
        rcases hslot with he | ⟨hlt, _⟩
        · exact Nat.le_of_eq he
        · exact Nat.le_of_lt hlt
      obtain ⟨hwn, hfile⟩ := hw _ rfl (length_toBytes _) hle (by omega)
      refine Or.inr ⟨?_, hmod, hall, off, hoffmod, by omega, hslot, ?_⟩
      · rw [hwn]
        exact if_pos rfl
      · intro i hi
        by_cases hidp : i = (s.itable dp).inum
        · subst hidp
          rw [if_pos rfl]
          rw [hfillu.inum, hfillu.size] at hfile
          rw [hfile, hfillu.files _ hi]
          unfold AFile.link
          rw [h.files_eq hdp, absFile_of_alloc (h.cached dp hdp).2.1]
        · rw [if_neg hidp, hrw.files i (by rw [hfillu.inum]; exact hidp) hi,
            hfillu.files i hi]

end Xv6.Proofs.Fs
