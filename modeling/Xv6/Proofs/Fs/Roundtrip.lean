import Xv6.Proofs.Fs.Entries
import Xv6.Proofs.Fs.Mkfs
import Mathlib.Data.List.TakeWhile

/-!
# `Xv6.Proofs.Fs.Roundtrip`: the kernel reads back what `mkfs` has stored

`mkfs` and the kernel share a header and no code. Here the kernel boots on an image of
`mkfs`, looks up a file in the root directory, locks it and reads it.

A read of bytes whose blocks are all there changes nothing and cannot fail, so the lemmas of
the first part are equations for `wp`. `Stored` gives the blocks and the bytes. The lookup
reads the entries one after the other and stops at the first with the name. It never gets to
the end of the directory, where the rounded size can reach a block that is not there.
-/

set_option autoImplicit false

namespace Xv6.Proofs.Fs

open Lib Lib.Action Kernel

variable {sb : Superblock} {s t : FsState} {ip : Ino} {l : List UInt8}

/-! ### Reads of stored bytes -/

variable {err : Panic → Prop}

/-- `bmap` of a block that is there. -/
theorem wp_bmap_mapped {bn : Nat} (hbn : bn < MAXFILE)
    (hx : placeOf (s.itable ip).toDinode s.disk (filePlace bn) ≠ 0) {post : Nat → FsState → Prop} :
    wp (bmap sb ip bn) post err s
      ↔ post (placeOf (s.itable ip).toDinode s.disk (filePlace bn)) s := by
  have hmf : MAXFILE = NDIRECT + NINDIRECT := rfl
  rw [bmap]
  split
  · rename_i hdirect
    have hplace : placeOf (s.itable ip).toDinode s.disk (filePlace bn)
        = (s.itable ip).addr bn := by
      rw [filePlace, if_pos hdirect, placeOf_addr _ _ (Nat.lt_succ_of_lt hdirect)]
    rw [hplace] at hx ⊢
    rw [bmapSlot, wp_bind, wp_inode, if_neg hx, wp_pure]
  · rename_i hdirect
    obtain ⟨j, hj⟩ : ∃ j, j = bn - NDIRECT := ⟨_, rfl⟩
    have hjn : j < NINDIRECT := by omega
    have hfp : filePlace bn = NDIRECT + 1 + j := by
      rw [filePlace, if_neg hdirect]
      omega
    have hind : (s.itable ip).addr NDIRECT ≠ 0 := by
      intro hzero
      apply hx
      unfold placeOf
      rw [hfp, if_neg (by omega), if_neg fun hc => hc.2 hzero]
    have hplace : placeOf (s.itable ip).toDinode s.disk (filePlace bn)
        = (s.disk ((s.itable ip).addr NDIRECT)).getWord 4 (4 * j) := by
      rw [hfp, placeOf_entry _ _ hjn hind]
    rw [hplace] at hx ⊢
    rw [← hj, if_pos hjn, wp_bind, bmapSlot, wp_bind, wp_inode, if_neg hind, wp_pure,
      if_neg hind, wp_bind, wp_bread]
    dsimp only
    rw [if_neg hx, wp_pure]

variable {n off : Nat}

/-- The bytes of a file in one of its blocks. -/
theorem Stored.getBytes {x : Dinode} {d : Disk} {m : Nat} (h : Stored x d n l)
    (hm : off % BSIZE + m ≤ BSIZE) (hlen : off + m ≤ l.length) :
    (fileBlock x d (off / BSIZE)).getBytes (off % BSIZE) m = (l.drop off).take m := by
  refine List.ext_getElem ?_ ?_
  · rw [Bytes.length_getBytes, List.length_take, List.length_drop]
    omega
  · intro j hj hj'
    rw [Bytes.length_getBytes] at hj
    have hpos : 0 < BSIZE := by decide
    have hdecomp : off + j = (off % BSIZE + j) + BSIZE * (off / BSIZE) := by
      have := Nat.mod_add_div off BSIZE
      omega
    have hbyte := h.bytes (off + j)
    rw [hdecomp, Nat.add_mul_div_left _ _ hpos, Nat.add_mul_mod_self_left,
      Nat.div_eq_of_lt (by omega), Nat.mod_eq_of_lt (by omega), Nat.zero_add, ← hdecomp] at hbyte
    simp only [Bytes.getBytes, List.getElem_map, List.getElem_range, List.getElem_take,
      List.getElem_drop]
    rw [hbyte, List.getD_eq_getElem]

theorem wp_readiLoop_stored (h : Stored (s.itable ip).toDinode s.disk l.length l)
    (hmax : l.length ≤ MAXFILE * BSIZE) (fuel : Nat) {left : Nat} (acc : List UInt8)
    (hleft : left ≤ fuel) (hlen : off + left ≤ l.length)
    {post : Option (List UInt8) → FsState → Prop} :
    wp (readiLoop sb ip (fun _ => true) fuel off left acc) post err s
      ↔ post (some (acc ++ (l.drop off).take left)) s := by
  have hbs : BSIZE = 1024 := rfl
  have hmf : MAXFILE = 268 := rfl
  have hlast : MAXFILE * BSIZE = 274432 := rfl
  induction fuel generalizing off left acc with
  | zero =>
    rw [Nat.le_zero.mp hleft, List.take_zero, List.append_nil]
    rfl
  | succ fuel ih =>
    unfold readiLoop
    split
    · rename_i hzero
      rw [hzero, List.take_zero, List.append_nil, wp_pure]
    · rename_i hpos
      have hmod : off % BSIZE < BSIZE := Nat.mod_lt _ (by decide)
      have hbn : off / BSIZE < MAXFILE := by
        rw [hbs, hmf]
        omega
      have hx : placeOf (s.itable ip).toDinode s.disk (filePlace (off / BSIZE)) ≠ 0 := by
        rw [h.mapped _ hbn, hbs]
        omega
      obtain ⟨m, hm⟩ : ∃ m, m = min left (BSIZE - off % BSIZE) := ⟨_, rfl⟩
      have hblock : s.disk (placeOf (s.itable ip).toDinode s.disk (filePlace (off / BSIZE)))
          = fileBlock (s.itable ip).toDinode s.disk (off / BSIZE) := (if_neg hx).symm
      have hrest := @ih (off + m) (left - m) (acc ++ (l.drop off).take m) (by omega) (by omega)
      rw [wp_bind, wp_bmap_mapped hbn hx, if_neg hx, wp_bind, wp_bread]
      dsimp only
      rw [if_pos rfl, ← hm, hblock, h.getBytes (by omega) (by omega)]
      refine hrest.trans ?_
      rw [List.append_assoc, ← List.drop_drop, ← List.take_add, Nat.add_sub_cancel' (by omega)]

/-- `readi` of bytes that are stored. The file may be longer, if the read stays below. -/
theorem wp_readi_stored (h : Stored (s.itable ip).toDinode s.disk l.length l)
    (hmax : l.length ≤ MAXFILE * BSIZE) (hoff : off + n < 2 ^ 32)
    (hsize : l.length ≤ (s.itable ip).size.toNat)
    (hlen : l.length = (s.itable ip).size.toNat ∨ off + n ≤ l.length)
    {post : Option (List UInt8) → FsState → Prop} :
    wp (readi sb ip (fun _ => true) off n) post err s
      ↔ post (some ((l.drop off).take n)) s := by
  rw [readi, wp_bind, wp_inode, Nat.mod_eq_of_lt hoff]
  split
  · rename_i hout
    rw [wp_pure, List.drop_eq_nil_of_le (by omega), List.take_nil]
  · rename_i hin
    dsimp only
    split
    · rename_i hpast
      -- The read is cut at the end of the file.
      have hfull : l.length = (s.itable ip).size.toNat := by omega
      rw [← hfull, wp_readiLoop_stored h hmax _ _ (Nat.le_refl _) (by omega), List.nil_append,
        List.take_of_length_le (by rw [List.length_drop]),
        List.take_of_length_le (by rw [List.length_drop]; omega)]
    · rw [wp_readiLoop_stored h hmax _ _ (Nat.le_refl _) (by omega), List.nil_append]

/-! ### Directory entries -/

variable {k : Nat}

/-- The pieces of a list of pieces of one length. -/
theorem flatten_piece {L : List (List UInt8)} (hL : ∀ x ∈ L, x.length = n) {x : List UInt8}
    (hk : L[k]? = some x) : (L.flatten.drop (n * k)).take n = x := by
  induction L generalizing k with
  | nil => simp at hk
  | cons y L ih =>
    have hy : y.length = n := hL y List.mem_cons_self
    cases k with
    | zero =>
      obtain rfl : y = x := by simpa using hk
      rw [Nat.mul_zero, List.drop_zero, List.flatten_cons, List.take_left' hy]
    | succ k =>
      have hrest := ih (fun z hz => hL z (List.mem_cons_of_mem _ hz)) (k := k)
        (by simpa using hk)
      have hdrop : n * (k + 1) = y.length + n * k := by rw [hy, Nat.mul_succ, Nat.add_comm]
      rw [List.flatten_cons, hdrop, ← List.drop_drop, List.drop_left, hrest]

/-- The entries of the root directory of an image. -/
def rootEntries (fs : List Mkfs.HostFile) : List Dirent :=
  ⟨ROOTINO, [46]⟩ :: ⟨ROOTINO, [46, 46]⟩ ::
    fs.mapIdx fun k f => ⟨k + 2, Mkfs.shortName f.arg⟩

theorem rootBytes_eq (fs : List Mkfs.HostFile) :
    rootBytes fs = ((rootEntries fs).map Dirent.toBytes).flatten := by
  have hfiles : (fs.mapIdx fun k f => (⟨k + 2, Mkfs.shortName f.arg⟩ : Dirent)).map Dirent.toBytes
      = fs.mapIdx entryBytes := by
    refine List.ext_getElem (by simp) ?_
    intro k _ _
    simp [entryBytes]
  unfold rootBytes rootEntries
  rw [List.map_cons, List.map_cons, List.flatten_cons, List.flatten_cons, hfiles,
    List.append_assoc]

/-- A directory whose bytes are those entries. -/
structure Directory (s : FsState) (dp : Ino) (E : List Dirent) : Prop where
  type : (s.itable dp).type = .dir
  stored : Stored (s.itable dp).toDinode s.disk (E.map Dirent.toBytes).flatten.length
    (E.map Dirent.toBytes).flatten
  size : (E.map Dirent.toBytes).flatten.length ≤ (s.itable dp).size.toNat
  small : (E.map Dirent.toBytes).flatten.length ≤ MAXFILE * BSIZE
  inums : ∀ de ∈ E, de.inum ≠ 0 ∧ de.inum < 65536

theorem length_entries (E : List Dirent) :
    (E.map Dirent.toBytes).flatten.length = DIRENTSIZE * E.length := by
  have hde : DIRENTSIZE = 16 := rfl
  induction E with
  | nil => rfl
  | cons de E ih =>
    rw [List.map_cons, List.flatten_cons, List.length_append, length_toBytes, ih,
      List.length_cons, hde]
    omega

variable {dp : Ino} {E : List Dirent}

/-- The entry at index `k`. -/
theorem Directory.wp_readDirent (h : Directory s dp E) {de : Dirent} (hk : E[k]? = some de)
    (e : Panic) {post : Dirent → FsState → Prop} :
    wp (readDirent sb dp (DIRENTSIZE * k) e) post err s
      ↔ post ⟨de.inum, strncpy DIRSIZ de.name⟩ s := by
  have hde : DIRENTSIZE = 16 := rfl
  have hmax : MAXFILE * BSIZE = 274432 := rfl
  have hlt : k < E.length := (List.getElem?_eq_some_iff.mp hk).1
  have hlen := length_entries E
  have hsmall := h.small
  have hmem : de ∈ E := List.mem_of_getElem? hk
  have hpiece : ((E.map Dirent.toBytes).flatten.drop (DIRENTSIZE * k)).take DIRENTSIZE
      = de.toBytes := by
    refine flatten_piece ?_ (by rw [List.getElem?_map, hk]; rfl)
    intro x hx
    obtain ⟨de', _, rfl⟩ := List.mem_map.mp hx
    exact length_toBytes de'
  rw [readDirent, wp_bind, wp_readi_stored h.stored h.small (by rw [hde] at *; omega) h.size
    (Or.inr (by rw [hlen, hde]; omega)), hpiece]
  dsimp only
  rw [if_pos (length_toBytes de), wp_pure, Dirent.ofBytes_toBytes (h.inums de hmem).2]

/-- A list is searched up to the first element that gives a value, when the ones before
change nothing. -/
theorem wp_firstSome_skip {ι α : Type} {body : ι → FsM (Option α)}
    {post : Option α → FsState → Prop} {l₁ l₂ : List ι}
    (hskip : ∀ i ∈ l₁, ∀ q : Option α → FsState → Prop, q none s → wp (body i) q err s)
    (h : wp (Action.firstSome body l₂) post err s) :
    wp (Action.firstSome body (l₁ ++ l₂)) post err s := by
  induction l₁ with
  | nil => exact h
  | cons i l₁ ih =>
    rw [List.cons_append, Action.firstSome, wp_bind]
    refine hskip i List.mem_cons_self _ ?_
    exact ih fun j hj => hskip j (List.mem_cons_of_mem _ hj)

/-- `dirlookup` of the name of entry `k`, when no entry before has that name. -/
theorem Directory.wp_dirlookup (h : Directory s dp E) {k : Nat} {de : Dirent}
    (hk : E[k]? = some de) {name : List UInt8}
    (hname : namecmp name (strncpy DIRSIZ de.name) = 0)
    (hbefore : ∀ j de', j < k → E[j]? = some de' →
      namecmp name (strncpy DIRSIZ de'.name) ≠ 0)
    {post : Option (Ino × Nat) → FsState → Prop} {err : Panic → Prop}
    (hget : wp (iget (s.itable dp).dev de.inum)
      (fun ip t => post (some (ip, DIRENTSIZE * k)) t) err s) :
    wp (dirlookup sb dp name) post err s := by
  have hde : DIRENTSIZE = 16 := rfl
  have hlt : k < E.length := (List.getElem?_eq_some_iff.mp hk).1
  have hlen := length_entries E
  have hsize := h.size
  rw [dirlookup, wp_bind, wp_inode, if_neg (by simp [h.type])]
  -- The offsets before entry `k`, the entry, and the rest.
  obtain ⟨m, hm⟩ : ∃ m, ((s.itable dp).size.toNat + DIRENTSIZE - 1) / DIRENTSIZE
      = k + (m + 1) := by
    refine ⟨((s.itable dp).size.toNat + DIRENTSIZE - 1) / DIRENTSIZE - (k + 1), ?_⟩
    rw [hde] at *
    omega
  have hoffs : direntOffs (s.itable dp).size.toNat = (List.range k).map (DIRENTSIZE * ·) ++
      (DIRENTSIZE * k) :: ((List.range m).map fun j => DIRENTSIZE * (k + (j + 1))) := by
    unfold direntOffs
    rw [hm, List.range_add, List.map_append, List.range_succ_eq_map]
    simp
  rw [hoffs]
  refine wp_firstSome_skip ?_ ?_
  · intro off hoff q hq
    obtain ⟨j, hj, rfl⟩ := List.mem_map.mp hoff
    have hj : j < k := List.mem_range.mp hj
    obtain ⟨de', hde'⟩ : ∃ de', E[j]? = some de' := ⟨E[j], List.getElem?_eq_getElem (by omega)⟩
    have hinum := (h.inums de' (List.mem_of_getElem? hde')).1
    rw [wp_bind, h.wp_readDirent hde', if_neg hinum, if_neg (hbefore j de' hj hde'), wp_pure]
    exact hq
  · have hinum := (h.inums de (List.mem_of_getElem? hk)).1
    rw [Action.firstSome, wp_bind, wp_bind, h.wp_readDirent hk, if_neg hinum, if_pos hname,
      wp_bind]
    exact hget

/-! ### The walk from boot -/

/-- No slot of the inode table is in use. -/
def Idle (s : FsState) : Prop := ∀ k, (s.itable k).ref = 0 ∧ (s.itable k).locked = false

/-- `iget` of an inode that no slot has, when a slot is free. -/
theorem iget_recycles {inum : Nat} (dev : Nat)
    (hmiss : ∀ k, 0 < (s.itable k).ref → (s.itable k).inum ≠ inum)
    (hfree : ∃ k, (s.itable k).ref = 0) :
    wp (iget dev inum) (fun k t => (s.itable k).ref = 0 ∧
      t = withSlot s k { s.itable k with dev := dev, inum := inum, ref := 1, valid := false })
      (fun _ => False) s := by
  rw [iget, wp_bind, wp_read]
  split
  · rename_i k hk
    have hfound := List.find?_some hk
    simp only [decide_eq_true_eq] at hfound
    exact absurd hfound.2.2 (hmiss k hfound.1)
  · split
    · rename_i k hk
      have hempty := List.find?_some hk
      simp only [decide_eq_true_eq] at hempty
      exact ⟨hempty, rfl⟩
    · rename_i hnone
      obtain ⟨k, hk⟩ := hfree
      have := List.find?_eq_none.mp hnone k (List.mem_finRange k)
      simp [hk] at this

/-- The first `ilock` of a slot reads the dinode. -/
theorem wp_ilock_loads (href : 0 < (s.itable ip).ref) (hlock : (s.itable ip).locked = false)
    (hvalid : (s.itable ip).valid = false)
    (htype : (dinodeAt sb s.disk (s.itable ip).inum).type ≠ .none) {post : Unit → FsState → Prop} :
    wp (ilock sb ip) post err s ↔ post () (withSlot s ip { s.itable ip with
      toDinode := dinodeAt sb s.disk (s.itable ip).inum, locked := true, valid := true }) := by
  have hdin : readDinode (s.disk (IBLOCK sb (s.itable ip).inum)) ((s.itable ip).inum % IPB)
      = dinodeAt sb s.disk (s.itable ip).inum := rfl
  rw [ilock, wp_bind, wp_inode, if_neg (by omega), wp_bind, acquiresleep, wp_bind, wp_inode,
    if_neg (by simp [hlock]), wp_setInode, if_neg (by simp [hvalid]), wp_bind, wp_bread]
  dsimp only
  rw [hdin, wp_bind, wp_setInode, if_neg htype, wp_pure]
  dsimp only
  rw [Function.update_self, Function.update_idem]
  rfl

/-- `iunlockput` of a locked inode that has links. -/
theorem wp_iunlockput_linked (href : 0 < (s.itable ip).ref) (hlock : (s.itable ip).locked = true)
    (hnlink : (s.itable ip).nlink ≠ 0) {post : Unit → FsState → Prop} :
    wp (iunlockput sb ip) post err s ↔ post () (withSlot s ip { s.itable ip with
      ref := (s.itable ip).ref - 1, locked := false }) := by
  have hstate : ({ s with itable := (Function.update s.itable ip
      { s.itable ip with locked := false }) } : FsState)
      = withSlot s ip { s.itable ip with locked := false } := rfl
  rw [iunlockput, wp_bind, iunlock, wp_bind, wp_inode,
    if_neg (by rw [hlock]; simp; omega), wp_setInode, hstate, iput_keeps]
  · unfold dropRef
    rw [withSlot_self]
    unfold withSlot
    rw [Function.update_idem]
  · intro hf
    have := hf.2.2
    rw [withSlot_self] at this
    exact hnlink this

/-- The only component of the path `/name`. -/
theorem skipelem_root {name : List UInt8} (hne : name ≠ []) (hslash : slash ∉ name)
    (hlen : name.length ≤ DIRSIZ) : skipelem (slash :: name) = some (name, []) := by
  have hall : ∀ x ∈ name, decide (x ≠ slash) = true := by
    intro x hx
    exact decide_eq_true fun he => hslash (by rw [← he]; exact hx)
  have hdrop : (slash :: name).dropWhile (· = slash) = name := by
    rw [List.dropWhile_cons_of_pos (by simp)]
    cases name with
    | nil => rfl
    | cons x name =>
      have hx : x ≠ slash := of_decide_eq_true (hall x List.mem_cons_self)
      rw [List.dropWhile_cons_of_neg (by simpa using hx)]
  unfold skipelem
  rw [hdrop, if_neg hne, List.takeWhile_eq_self_iff.mpr hall, List.dropWhile_eq_nil_iff.mpr hall,
    List.take_of_length_le hlen, List.dropWhile_nil]

/-- The names under which `mkfs` stores the files are C strings that fit in an entry, and
each is a name of its own. -/
structure GoodNames (fs : List Mkfs.HostFile) : Prop where
  nonempty : ∀ f ∈ fs, Mkfs.shortName f.arg ≠ []
  slashFree : ∀ f ∈ fs, slash ∉ Mkfs.shortName f.arg
  string : ∀ f ∈ fs, 0 ∉ Mkfs.shortName f.arg
  fits : ∀ f ∈ fs, (Mkfs.shortName f.arg).length ≤ DIRSIZ
  dot : ∀ f ∈ fs, Mkfs.shortName f.arg ≠ [46] ∧ Mkfs.shortName f.arg ≠ [46, 46]
  distinct : (fs.map fun f => Mkfs.shortName f.arg).Nodup

variable {j : Nat} {f : Mkfs.HostFile}

section
variable {buf : Block} {m : Mkfs.State} {fs : List Mkfs.HostFile}

/-- The root directory, once its dinode has been read. -/
theorem Image.directory (h : Image buf m (fileSize fs) (contents fs)) (hdisk : m.disk = image m)
    (hfree : m.freeinode = fs.length + 2) (hlen : fs.length ≤ NINODES - 2)
    (hs : s.disk = m.disk)
    (hdin : (s.itable dp).toDinode = dinodeAt Mkfs.superblock (image m) ROOTINO) :
    Directory s dp (rootEntries fs) := by
  have hn : NINODES = 200 := rfl
  have hr : ROOTINO = 1 := rfl
  have hbs : BSIZE = 1024 := rfl
  have him : ROOTINO < m.freeinode := by omega
  have hin : InArea Mkfs.superblock ROOTINO := inArea_of_lt (by decide)
  have halloc := h.alloc (by decide) him hin
  have hbytes : contents fs ROOTINO = ((rootEntries fs).map Dirent.toBytes).flatten := by
    rw [← rootBytes_eq]
    exact if_pos rfl
  refine ⟨?_, ?_, ?_, ?_, ?_⟩
  · rw [hdin, h.type ROOTINO hin, hfree]
    unfold kindOf
    rw [if_neg (by omega), if_pos rfl]
  · rw [hdin, hs, hdisk, ← hbytes]
    exact h.writing.stored ROOTINO halloc
  · have hround : fileSize fs ROOTINO = ((contents fs ROOTINO).length / BSIZE + 1) * BSIZE :=
      if_pos rfl
    rw [hdin, (h.head ROOTINO (by decide) him hin).size, hround, ← hbytes, hbs]
    omega
  · rw [← hbytes]
    exact h.small ROOTINO
  · intro de hde
    unfold rootEntries at hde
    rcases List.mem_cons.mp hde with rfl | hde
    · exact ⟨by decide, by decide⟩
    rcases List.mem_cons.mp hde with rfl | hde
    · exact ⟨by decide, by decide⟩
    obtain ⟨k, hk, rfl⟩ := List.mem_mapIdx.mp hde
    exact ⟨Nat.succ_ne_zero _, by show k + 2 < 65536; omega⟩

/-- The entry of a file is the first with its name. -/
theorem GoodNames.first (h : GoodNames fs) (hf : fs[j]? = some f) :
    (rootEntries fs)[j + 2]? = some ⟨j + 2, Mkfs.shortName f.arg⟩ ∧
    namecmp (Mkfs.shortName f.arg) (strncpy DIRSIZ (Mkfs.shortName f.arg)) = 0 ∧
    ∀ i de, i < j + 2 → (rootEntries fs)[i]? = some de →
      namecmp (Mkfs.shortName f.arg) (strncpy DIRSIZ de.name) ≠ 0 := by
  have hmem : f ∈ fs := List.mem_of_getElem? hf
  have hcmp : ∀ {b : List UInt8}, b.length ≤ DIRSIZ → 0 ∉ b →
      (namecmp (Mkfs.shortName f.arg) (strncpy DIRSIZ b) = 0 ↔ Mkfs.shortName f.arg = b) :=
    fun hb hb0 => strncmp_strncpy (h.fits f hmem) hb (h.string f hmem) hb0
  refine ⟨?_, (hcmp (h.fits f hmem) (h.string f hmem)).mpr rfl, ?_⟩
  · show (fs.mapIdx fun k f => (⟨k + 2, Mkfs.shortName f.arg⟩ : Dirent))[j]? = _
    rw [List.getElem?_mapIdx, hf]
    rfl
  · intro i de hi hde
    match i, hi, hde with
    | 0, _, hde =>
      obtain rfl : (⟨ROOTINO, [46]⟩ : Dirent) = de := by simpa [rootEntries] using hde
      rw [ne_eq, hcmp (by decide) (by decide)]
      exact (h.dot f hmem).1
    | 1, _, hde =>
      obtain rfl : (⟨ROOTINO, [46, 46]⟩ : Dirent) = de := by simpa [rootEntries] using hde
      rw [ne_eq, hcmp (by decide) (by decide)]
      exact (h.dot f hmem).2
    | i + 2, hi, hde =>
      have hde : (fs.mapIdx fun k f => (⟨k + 2, Mkfs.shortName f.arg⟩ : Dirent))[i]? = some de :=
        hde
      rw [List.getElem?_mapIdx] at hde
      obtain ⟨g, hg, rfl⟩ := Option.map_eq_some_iff.mp hde
      have hgm : g ∈ fs := List.mem_of_getElem? hg
      rw [ne_eq, hcmp (h.fits g hgm) (h.string g hgm)]
      -- Two files of one name would be one file.
      intro he
      have hi' : (fs.map fun f => Mkfs.shortName f.arg)[i]? = some (Mkfs.shortName g.arg) := by
        rw [List.getElem?_map, hg]
        rfl
      have hj' : (fs.map fun f => Mkfs.shortName f.arg)[j]? = some (Mkfs.shortName g.arg) := by
        rw [List.getElem?_map, hf, ← he]
        rfl
      have := (List.getElem?_inj (List.getElem?_eq_some_iff.mp hi').1 h.distinct).mp
        (hi'.trans hj'.symm)
      omega

/-- `namei` of `/name`, on an image, at boot. -/
theorem namei_spec (h : Image buf m (fileSize fs) (contents fs)) (hdisk : m.disk = image m)
    (hfree : m.freeinode = fs.length + 2) (hlen : fs.length ≤ NINODES - 2) (hnames : GoodNames fs)
    (hs : s.disk = m.disk) (hidle : Idle s) (hf : fs[j]? = some f) (cwd : Option Ino) :
    wp (namei Mkfs.superblock cwd (slash :: Mkfs.shortName f.arg)) (fun r t => ∃ ip, r = some ip ∧
      t.disk = m.disk ∧ (t.itable ip).inum = j + 2 ∧ (t.itable ip).ref = 1 ∧
      (t.itable ip).locked = false ∧ (t.itable ip).valid = false) (fun _ => False) s := by
  have hn : NINODES = 200 := rfl
  have hr : ROOTINO = 1 := rfl
  have hmem : f ∈ fs := List.mem_of_getElem? hf
  obtain ⟨name, hname⟩ : ∃ name, name = Mkfs.shortName f.arg := ⟨_, rfl⟩
  obtain ⟨hentry, hmatch, hbefore⟩ := hnames.first hf
  rw [← hname] at hentry hmatch hbefore ⊢
  have hskip : skipelem (slash :: name) = some (name, []) := by
    rw [hname]
    exact skipelem_root (hnames.nonempty f hmem) (hnames.slashFree f hmem) (hnames.fits f hmem)
  have hin : InArea Mkfs.superblock ROOTINO := inArea_of_lt (by decide)
  have him : ROOTINO < m.freeinode := by omega
  have hhead := h.head ROOTINO (by decide) him hin
  have hstart : namexStart cwd (slash :: name) = iget ROOTDEV ROOTINO := by
    unfold namexStart
    exact if_pos rfl
  rw [namei, wp_bind, namex, wp_bind, hstart]
  refine wp_mono (iget_recycles ROOTDEV (fun k hk => ?_) ⟨⟨0, by decide⟩, (hidle _).1⟩) ?_
    fun _ he => he
  · have := (hidle k).1
    omega
  rintro k t ⟨hk, ht⟩
  obtain ⟨x, hx⟩ : ∃ x, x = dinodeAt Mkfs.superblock (image m) ROOTINO := ⟨_, rfl⟩
  have htk : t.itable k = { s.itable k with
      dev := ROOTDEV, inum := ROOTINO, ref := 1, valid := false } := by
    rw [ht, withSlot_self]
  have htref : (t.itable k).ref = 1 := by rw [htk]
  have hto : ∀ l, l ≠ k → (t.itable l).ref = 0 ∧ (t.itable l).locked = false := by
    intro l hl
    rw [ht, withSlot_of_ne _ _ hl]
    exact hidle l
  have htd : t.disk = m.disk := by rw [ht, withSlot_disk, hs]
  have hload : dinodeAt Mkfs.superblock t.disk (t.itable k).inum = x := by
    rw [htk, htd, hdisk, hx]
  have htype : x.type = .dir := by
    rw [hx, h.type ROOTINO hin, hfree]
    unfold kindOf
    rw [if_neg (by omega), if_pos rfl]
  -- The root directory is locked and read.
  rw [List.length_cons, namexLoop, hskip]
  dsimp only
  rw [wp_bind, wp_ilock_loads (by omega) (by rw [htk]; exact (hidle k).2) (by rw [htk])
    (by rw [hload, htype]; decide), hload]
  obtain ⟨u, hu⟩ : ∃ u, u = withSlot t k { t.itable k with
    toDinode := x, locked := true, valid := true } := ⟨_, rfl⟩
  rw [← hu]
  have huk : u.itable k = { t.itable k with toDinode := x, locked := true, valid := true } := by
    rw [hu, withSlot_self]
  have huref : (u.itable k).ref = 1 := by
    rw [huk]
    exact htref
  have huo : ∀ l, l ≠ k → (u.itable l).ref = 0 ∧ (u.itable l).locked = false := by
    intro l hl
    rw [hu, withSlot_of_ne _ _ hl]
    exact hto l hl
  have hud : u.disk = m.disk := by rw [hu, withSlot_disk, htd]
  have hdir : Directory u k (rootEntries fs) :=
    h.directory hdisk hfree hlen hud (by rw [huk, hx])
  rw [wp_bind, wp_inode, if_neg (by rw [hdir.type]; simp), if_neg (by simp), wp_bind]
  refine hdir.wp_dirlookup hentry hmatch hbefore ?_
  -- The file gets another slot.
  refine wp_mono (iget_recycles _ ?_ ?_) ?_ fun _ he => he
  · intro l hl he
    by_cases hlk : l = k
    · rw [hlk, huk, htk] at he
      have he : ROOTINO = j + 2 := he
      omega
    · have := (huo l hlk).1
      omega
  · by_cases hk0 : k = ⟨0, by decide⟩
    · exact ⟨⟨1, by decide⟩, (huo _ (by rw [hk0]; decide)).1⟩
    · exact ⟨⟨0, by decide⟩, (huo _ (Ne.symm hk0)).1⟩
  rintro ip w ⟨hip, hw⟩
  dsimp only
  have hne : k ≠ ip := by
    intro he
    rw [← he] at hip
    omega
  have hwk : w.itable k = u.itable k := by rw [hw, withSlot_of_ne _ _ hne]
  rw [wp_bind, wp_iunlockput_linked (by rw [hwk]; omega) (by rw [hwk, huk])
    (by rw [hwk, huk]; show x.nlink ≠ 0; rw [hx, hhead.nlink]; decide)]
  -- The path has no other component.
  have hend : skipelem [] = none := rfl
  rw [namexLoop, hend]
  dsimp only
  rw [if_neg (by simp), wp_pure, wp_pure]
  refine ⟨ip, rfl, ?_, ?_⟩
  · rw [withSlot_disk, hw, withSlot_disk, hud]
  · rw [withSlot_of_ne _ _ (Ne.symm hne), hw, withSlot_self]
    exact ⟨rfl, rfl, (huo ip (Ne.symm hne)).2, rfl⟩

end

/-- `mkfs` and the kernel agree on the superblock. -/
theorem ofBlock_toBlock : Superblock.ofBlock Mkfs.superblock.toBlock = Mkfs.superblock := by
  have hword : ∀ j, j < 8 → Mkfs.superblock.word j < 256 ^ 4 →
      Mkfs.superblock.toBlock.getWord 4 (0 + 4 * j) = Mkfs.superblock.word j :=
    fun j hj hv => Bytes.getWord_setWords (by decide) hj hv
  unfold Superblock.ofBlock
  rw [hword 0 (by decide) (by decide), hword 1 (by decide) (by decide),
    hword 2 (by decide) (by decide), hword 3 (by decide) (by decide),
    hword 4 (by decide) (by decide), hword 5 (by decide) (by decide),
    hword 6 (by decide) (by decide), hword 7 (by decide) (by decide)]
  rfl

theorem contents_file {fs : List Mkfs.HostFile} (hf : fs[j]? = some f) :
    contents fs (j + 2) = f.reads.flatten := by
  have hr : ROOTINO = 1 := rfl
  unfold contents
  rw [if_neg (by omega), if_neg (by omega), Nat.add_sub_cancel, List.getD_eq_getElem?_getD,
    List.getElem?_map, hf]
  rfl

/-- The kernel reads back what `mkfs` has stored. On the image of at most `NINODES - 2` files
with good names, at boot, `namei` of the name of a file returns an inode. Once locked it is a
file of the right size, and `readi` returns the bytes of the host file. -/
theorem kernel_reads_image {fs : List Mkfs.HostFile} {m : Mkfs.State} {s : FsState}
    (hrun : Mkfs.main fs (Mkfs.start Mkfs.superblock.toBlock) = .ok ((), m))
    (hlen : fs.length ≤ NINODES - 2) (hnames : GoodNames fs) (hs : s.disk = m.disk)
    (hidle : Idle s) (hf : f ∈ fs) (cwd : Option Ino) :
    ∃ sb ip t u, readsb s = .ok (sb, s) ∧
      namei sb cwd (slash :: Mkfs.shortName f.arg) s = .ok (some ip, t) ∧
      ilock sb ip t = .ok ((), u) ∧ (u.itable ip).type = .file ∧
      (u.itable ip).size.toNat = f.reads.flatten.length ∧
      ∀ off n, off + n < 2 ^ 32 → readi sb ip (fun _ => true) off n u
        = .ok (some ((f.reads.flatten.drop off).take n), u) := by
  have hn : NINODES = 200 := rfl
  have hr : ROOTINO = 1 := rfl
  obtain ⟨h, hfree, hdisk⟩ := main_image hlen hrun
  obtain ⟨j, hj⟩ := List.getElem?_of_mem hf
  have hjlt : j < fs.length := (List.getElem?_eq_some_iff.mp hj).1
  have hsuper : Superblock.ofBlock (s.disk 1) = Mkfs.superblock := by
    rw [hs, h.writing.low 1 (by decide)]
    exact ofBlock_toBlock
  obtain ⟨r, t, hnamei, ip, rfl, htd, hinum, href, hlock, hvalid⟩ := wp_returns
    (namei_spec h hdisk hfree hlen hnames hs hidle hj cwd) fun _ he => he
  -- The dinode of the file.
  have hin : InArea Mkfs.superblock (j + 2) := inArea_of_lt (by omega)
  have him : j + 2 < m.freeinode := by omega
  have halloc := h.alloc (Nat.le_add_left 1 _) him hin
  obtain ⟨x, hx⟩ : ∃ x, x = dinodeAt Mkfs.superblock (image m) (j + 2) := ⟨_, rfl⟩
  have htype : x.type = .file := by
    rw [hx, h.type _ hin]
    unfold kindOf
    rw [if_neg (by omega), if_neg (by omega)]
  have hcont := contents_file hj
  have hsize : x.size.toNat = f.reads.flatten.length := by
    rw [hx, (h.head _ (Nat.le_add_left 1 _) him hin).size, ← hcont]
    exact if_neg (by omega)
  have hstored : Stored x (image m) f.reads.flatten.length f.reads.flatten := by
    have := h.writing.stored _ halloc
    rw [hcont, ← hx] at this
    exact this
  have hsmall : f.reads.flatten.length ≤ MAXFILE * BSIZE := by
    rw [← hcont]
    exact h.small _
  have hload : dinodeAt Mkfs.superblock t.disk (t.itable ip).inum = x := by
    rw [hinum, htd, hdisk, hx]
  obtain ⟨u, hu⟩ : ∃ u, u = withSlot t ip { t.itable ip with
    toDinode := x, locked := true, valid := true } := ⟨_, rfl⟩
  have hilock : wp (ilock Mkfs.superblock ip) (fun _ v => v = u) (fun _ => False) t := by
    rw [wp_ilock_loads (by omega) hlock hvalid (by rw [hload, htype]; decide), hload, hu]
  obtain ⟨_, v, hok, rfl⟩ := wp_returns hilock fun _ he => he
  have huip : (v.itable ip).toDinode = x := by rw [hu, withSlot_self]
  have hud : v.disk = image m := by rw [hu, withSlot_disk, htd, hdisk]
  refine ⟨Mkfs.superblock, ip, t, v, ?_, hnamei, hok, ?_, ?_, ?_⟩
  · rw [← hsuper]
    rfl
  · rw [huip, htype]
  · rw [huip, hsize]
  · intro off n hoff
    have hread : wp (readi Mkfs.superblock ip (fun _ => true) off n)
        (fun r w => r = some ((f.reads.flatten.drop off).take n) ∧ w = v) (fun _ => False) v := by
      rw [wp_readi_stored (by rw [huip, hud]; exact hstored) hsmall hoff
        (by rw [huip, hsize]) (Or.inl (by rw [huip, hsize]))]
      exact ⟨rfl, rfl⟩
    obtain ⟨_, _, hret, rfl, rfl⟩ := wp_returns hread fun _ he => he
    exact hret

/-- A host file with one byte. -/
def byteFile : Mkfs.HostFile := ⟨[97], [[104]]⟩

/-- The kernel has booted on a disk. -/
def bootOn (d : Disk) : FsState := ⟨d, fun _ => freeSlot⟩

theorem byteFile_good : GoodNames [byteFile] := by
  have hone : ∀ {P : Mkfs.HostFile → Prop}, P byteFile → ∀ f ∈ [byteFile], P f := by
    intro P hP f hf
    rw [List.mem_singleton.mp hf]
    exact hP
  exact ⟨hone (by decide), hone (by decide), hone (by decide), hone (by decide),
    hone (by decide), by decide⟩

theorem byteFile_fits : Fits [byteFile] := by
  refine ⟨fun f hf => ?_, by decide⟩
  rw [List.mem_singleton.mp hf]
  exact ⟨by decide, by decide⟩

/-- The kernel reads the byte of a one-byte file. -/
theorem kernel_reads_byte : ∃ m,
    Mkfs.main [byteFile] (Mkfs.start Mkfs.superblock.toBlock) = .ok ((), m) ∧
    ∃ sb ip t u, namei sb none [slash, 97] (bootOn m.disk) = .ok (some ip, t) ∧
      ilock sb ip t = .ok ((), u) ∧
      readi sb ip (fun _ => true) 0 10 u = .ok (some [104], u) := by
  have hlen : [byteFile].length ≤ NINODES - 2 := by decide
  obtain ⟨m, hrun⟩ := main_returns Mkfs.superblock.toBlock hlen byteFile_fits
  have hmem : byteFile ∈ [byteFile] := List.mem_cons_self
  have hidle : Idle (bootOn m.disk) := fun _ => ⟨rfl, rfl⟩
  have hname : Mkfs.shortName byteFile.arg = [97] := by decide
  have hbytes : (byteFile.reads.flatten.drop 0).take 10 = [104] := by decide
  obtain ⟨sb, ip, t, u, _, hnamei, hilock, _, _, hread⟩ :=
    kernel_reads_image hrun hlen byteFile_good rfl hidle hmem none
  have hread := hread 0 10 (by decide)
  rw [hname] at hnamei
  rw [hbytes] at hread
  exact ⟨m, hrun, sb, ip, t, u, hnamei, hilock, hread⟩

end Xv6.Proofs.Fs
