import Xv6.Proofs.Log.Header

/-!
# `Xv6.Proofs.Log.CrashAtomic`: a crash never shows part of a transaction

The invariant is a relation between the header, the log blocks and the home area of one
disk. `replay sb d` is the home area that a complete recovery from `d` would leave: the
entries of the on-disk header copied from their log blocks. `Replays sb H d` says that
`replay sb d` agrees with `H` at home and that the header's entries are home blocks, few
enough to fit the log.

Every disk write of the log code either keeps `replay` or replaces it at one point:

* `write_log` writes log blocks only, and the header counts none of them, so `replay`
  still shows the state before the transaction;
* the first `write_head` switches `replay` to the state after the transaction;
* each write of `install_trans` does part of what `replay` would do, so it keeps `replay`
  (`applyWrites_take_all`), in `commit` and in recovery alike;
* the last `write_head` counts no entry, and by then the home area is what `replay` showed.

`crashes_replay` collects this over the whole sequence of transactions, and
`crash_atomicity` adds any number of interrupted recoveries before the last one.
-/

set_option autoImplicit false

namespace Xv6.Proofs.Log

open Xv6.Lib
open Xv6.Lib.Crash
open Xv6.Lib.Crash.Prog (read modify write forRange)
open Xv6.Kernel
open Xv6.Kernel.Log

/-! ### The two copy loops

`write_log` and `install_trans` share one loop: read block `src k`, copy it to block
`dst k`, write that block. -/

/-- The writes of a copy loop over `n` blocks, with the contents that `v` shows. -/
def copies (n : Nat) (src dst : Nat → Nat) (v : Disk) : List (Nat × Block) :=
  (List.range n).map fun i => (dst i, v (src i))

@[simp] theorem length_copies (n : Nat) (src dst : Nat → Nat) (v : Disk) :
    (copies n src dst v).length = n := by
  simp [copies]

@[simp] theorem getElem_copies (n : Nat) (src dst : Nat → Nat) (v : Disk) (k : Nat)
    (hk : k < (copies n src dst v).length) :
    (copies n src dst v)[k] = (dst k, v (src k)) := by
  simp [copies]

/-- A block written by a prefix of a copy loop is an earlier destination. -/
theorem mem_take_copies_fst {n k : Nat} {src dst : Nat → Nat} {v : Disk} {b : Nat}
    (h : b ∈ ((copies n src dst v).take k).map Prod.fst) : ∃ i, i < k ∧ i < n ∧ dst i = b := by
  obtain ⟨w, hw, rfl⟩ := List.mem_map.mp h
  obtain ⟨i, hi, rfl⟩ := List.mem_take_iff_getElem.mp hw
  rw [length_copies] at hi
  exact ⟨i, by omega, by omega, by simp⟩

/-- One iteration of a copy loop: one write, of the contents that the cache shows for the
source. -/
theorem copyBlock_eq (src dst : Nat) (m : Mem) (d : Disk) :
    (do
      let x ← bread src
      setData dst x
      bwrite dst : LogM Unit) m d
      = ⟨(), ⟨Function.update m.view dst (m.view src), m.lh⟩,
          Function.update d dst (m.view src), [Function.update d dst (m.view src)]⟩ := by
  have hself : Function.update m.view dst (m.view src) dst = m.view src :=
    Function.update_self ..
  show Outcome.mk () _ (Function.update d dst (Function.update m.view dst (m.view src) dst))
    [Function.update d dst (Function.update m.view dst (m.view src) dst)] = _
  rw [hself]
  rfl

/-- The copy loop performs `copies` on the cache and on the disk, one write after the
other, when no iteration reads a block that an earlier one wrote. -/
theorem copyLoop_triple (n : Nat) (src dst : Nat → Nat) (m₀ : Mem) (d₀ : Disk)
    (hsrc : ∀ i k, i < k → k < n → dst i ≠ src k) :
    Triple (fun m d => m = m₀ ∧ d = d₀)
      (forRange n fun k => do
        let x ← bread (src k)
        setData (dst k) x
        bwrite (dst k))
      (fun _ m d => m = ⟨applyWrites (copies n src dst m₀.view) m₀.view, m₀.lh⟩ ∧
        d = applyWrites (copies n src dst m₀.view) d₀)
      (fun c => ∃ k, k ≤ n ∧ c = applyWrites ((copies n src dst m₀.view).take k) d₀) := by
  let ws := copies n src dst m₀.view
  have hlen : ws.length = n := length_copies ..
  let inv : Nat → Mem → Disk → Prop := fun k m d =>
    m = ⟨applyWrites (ws.take k) m₀.view, m₀.lh⟩ ∧ d = applyWrites (ws.take k) d₀
  have hbody : ∀ k, k < n → Triple (inv k)
      (do
        let x ← bread (src k)
        setData (dst k) x
        bwrite (dst k))
      (fun _ => inv (k + 1)) (fun c => ∃ k, k ≤ n ∧ c = applyWrites (ws.take k) d₀) := by
    rintro k hk m d ⟨rfl, rfl⟩
    -- No earlier iteration wrote the block this one reads.
    have hread : applyWrites (ws.take k) m₀.view (src k) = m₀.view (src k) := by
      apply applyWrites_of_notMem
      intro hmem
      obtain ⟨i, hik, -, hi⟩ := mem_take_copies_fst hmem
      exact hsrc i k hik hk hi
    have hmem : applyWrites (ws.take (k + 1)) m₀.view
        = Function.update (applyWrites (ws.take k) m₀.view) (dst k) (m₀.view (src k)) := by
      rw [applyWrites_take_succ ws k (by omega), getElem_copies]
    have hdisk : applyWrites (ws.take (k + 1)) d₀
        = Function.update (applyWrites (ws.take k) d₀) (dst k) (m₀.view (src k)) := by
      rw [applyWrites_take_succ ws k (by omega), getElem_copies]
    rw [copyBlock_eq, Prog.crashPoints, copyBlock_eq]
    simp only [hread]
    refine ⟨⟨?_, ?_⟩, ?_⟩
    · rw [hmem]
    · rw [hdisk]
    · intro c hc
      rcases List.mem_cons.mp hc with rfl | hc
      · exact ⟨k, by omega, rfl⟩
      · exact ⟨k + 1, by omega, by rw [hdisk]; exact List.mem_singleton.mp hc⟩
  have hloop : Triple (inv 0) _ (fun _ => inv n) _ :=
    triple_forRange hbody fun m d h => ⟨0, by omega, h.2⟩
  refine hloop.consequence ?_ ?_ (fun c hc => hc)
  · rintro m d ⟨rfl, rfl⟩
    exact ⟨rfl, rfl⟩
  · intro _ m d h
    have hfull : ws.take n = ws := List.take_of_length_le (by omega)
    obtain ⟨hm, hd⟩ := h
    rw [hfull] at hm hd
    exact ⟨hm, hd⟩

/-! ### What a recovery would leave -/

/-- The writes of `write_log`: entry `i` of the header into log block `i`. -/
def logCopies (sb : Superblock) (lh : List Nat) (v : Disk) : List (Nat × Block) :=
  copies lh.length (fun i => lh.getD i 0) (fun i => sb.logstart + i + 1) v

/-- The writes of `install_trans`: log block `i` to entry `i` of the header. -/
def homeCopies (sb : Superblock) (lh : List Nat) (v : Disk) : List (Nat × Block) :=
  copies lh.length (fun i => sb.logstart + i + 1) (fun i => lh.getD i 0) v

/-- The home area that a complete recovery from `d` would leave. -/
def replay (sb : Superblock) (d : Disk) : Disk :=
  applyWrites (homeCopies sb (headBlocks (d sb.logstart)) d) d

/-- The header's entries are home blocks, and their log blocks lie inside the log. -/
structure EntriesOk (sb : Superblock) (lh : List Nat) : Prop where
  home : ∀ b ∈ lh, ¬ LogArea sb b
  fits : lh.length + 1 ≤ sb.nlog

/-- A recovery from `d` would leave the home area of `H`. -/
structure Replays (sb : Superblock) (H d : Disk) : Prop where
  entries : EntriesOk sb (headBlocks (d sb.logstart))
  home : HomeEq sb (replay sb d) H

variable {sb : Superblock}

theorem getD_mem {lh : List Nat} {i : Nat} (hi : i < lh.length) : lh.getD i 0 ∈ lh := by
  simp [List.getD, hi]

/-- The log blocks of the header's entries lie in the log area, after the header. -/
theorem EntriesOk.logArea {lh : List Nat} (h : EntriesOk sb lh) {i : Nat} (hi : i < lh.length) :
    LogArea sb (sb.logstart + i + 1) := by
  have := h.fits
  exact ⟨by omega, by omega⟩

theorem EntriesOk.logstart {lh : List Nat} (h : EntriesOk sb lh) : LogArea sb sb.logstart := by
  have := h.fits
  exact ⟨by omega, by omega⟩

/-- The destinations of `install_trans` are home blocks. -/
theorem EntriesOk.home_getD {lh : List Nat} (h : EntriesOk sb lh) {i : Nat}
    (hi : i < lh.length) : ¬ LogArea sb (lh.getD i 0) :=
  h.home _ (getD_mem hi)

/-- `install_trans`, wholly or in part, leaves the log area unchanged. -/
theorem applyWrites_take_homeCopies {lh : List Nat} (h : EntriesOk sb lh) (v d : Disk) (k : Nat)
    {b : Nat} (hb : LogArea sb b) : applyWrites ((homeCopies sb lh v).take k) d b = d b := by
  apply applyWrites_of_notMem
  intro hmem
  obtain ⟨i, -, hi, rfl⟩ := mem_take_copies_fst hmem
  exact h.home_getD hi hb

/-- `write_log`, wholly or in part, leaves the home area unchanged. -/
theorem applyWrites_take_logCopies {lh : List Nat} (h : EntriesOk sb lh) (v d : Disk) (k : Nat)
    {b : Nat} (hb : ¬ LogArea sb b) : applyWrites ((logCopies sb lh v).take k) d b = d b := by
  apply applyWrites_of_notMem
  intro hmem
  obtain ⟨i, -, hi, rfl⟩ := mem_take_copies_fst hmem
  exact hb (h.logArea hi)

/-- `write_log` leaves the header block unchanged. -/
theorem applyWrites_take_logCopies_logstart (lh : List Nat) (v d : Disk) (k : Nat) :
    applyWrites ((logCopies sb lh v).take k) d sb.logstart = d sb.logstart := by
  apply applyWrites_of_notMem
  intro hmem
  obtain ⟨i, -, -, hi⟩ := mem_take_copies_fst hmem
  omega

/-- The writes of `install_trans` depend on the log area only. -/
theorem homeCopies_congr {lh : List Nat} (h : EntriesOk sb lh) {v v' : Disk}
    (hv : ∀ b, LogArea sb b → v b = v' b) : homeCopies sb lh v = homeCopies sb lh v' := by
  apply List.map_congr_left
  intro i hi
  rw [hv _ (h.logArea (List.mem_range.mp hi))]

theorem homeEq_trans {d d' d'' : Disk} (h : HomeEq sb d d') (h' : HomeEq sb d' d'') :
    HomeEq sb d d'' := fun b hb => (h b hb).trans (h' b hb)

theorem Replays.congr {H H' d : Disk} (h : Replays sb H d) (hH : HomeEq sb H H') :
    Replays sb H' d := ⟨h.entries, homeEq_trans h.home hH⟩

/-- A partial `install_trans` keeps what a recovery would leave. -/
theorem Replays.partial_install {H d : Disk} (h : Replays sb H d) (k : Nat) :
    Replays sb H
      (applyWrites ((homeCopies sb (headBlocks (d sb.logstart)) d).take k) d) := by
  have hlog : ∀ b, LogArea sb b →
      applyWrites ((homeCopies sb (headBlocks (d sb.logstart)) d).take k) d b = d b :=
    fun b hb => applyWrites_take_homeCopies h.entries d d k hb
  have hhead := hlog _ h.entries.logstart
  refine ⟨by rw [hhead]; exact h.entries, ?_⟩
  intro b hb
  rw [replay, hhead, homeCopies_congr h.entries hlog, applyWrites_take_all]
  exact h.home b hb

/-- A header that counts no entry: a recovery leaves the home area as it is. -/
theorem replays_of_headN {H d : Disk} (hlog : 0 < sb.nlog) (hn : headN (d sb.logstart) = 0)
    (hd : HomeEq sb d H) : Replays sb H d := by
  have hnil := headBlocks_eq_nil hn
  refine ⟨by rw [hnil]; exact ⟨by simp, hlog⟩, ?_⟩
  rw [replay, hnil]
  exact hd

/-! ### The pieces of `log.c` -/

/-- `write_head` is one write, of the block `logstart`. -/
theorem writeHead_eq (m : Mem) (d : Disk) :
    writeHead sb m d
      = ⟨(), ⟨Function.update m.view sb.logstart (putHead (m.view sb.logstart) m.lh), m.lh⟩,
          Function.update d sb.logstart (putHead (m.view sb.logstart) m.lh),
          [Function.update d sb.logstart (putHead (m.view sb.logstart) m.lh)]⟩ := by
  show Outcome.mk () _
    (Function.update d sb.logstart
      (Function.update m.view sb.logstart (putHead (m.view sb.logstart) m.lh) sb.logstart))
    [Function.update d sb.logstart
      (Function.update m.view sb.logstart (putHead (m.view sb.logstart) m.lh) sb.logstart)] = _
  rw [Function.update_self]
  rfl

/-- `write_head` as a triple: its two crash points are the disks around its write. -/
theorem writeHead_triple (m₀ : Mem) (d₀ : Disk) :
    Triple (fun m d => m = m₀ ∧ d = d₀) (writeHead sb)
      (fun _ m d =>
        m = ⟨Function.update m₀.view sb.logstart (putHead (m₀.view sb.logstart) m₀.lh), m₀.lh⟩ ∧
        d = Function.update d₀ sb.logstart (putHead (m₀.view sb.logstart) m₀.lh))
      (fun c => c = d₀ ∨
        c = Function.update d₀ sb.logstart (putHead (m₀.view sb.logstart) m₀.lh)) := by
  rintro m d ⟨rfl, rfl⟩
  rw [Prog.crashPoints, writeHead_eq]
  refine ⟨⟨rfl, rfl⟩, ?_⟩
  intro c hc
  simpa using hc

theorem installTrans_triple (m₀ : Mem) (d₀ : Disk) (hlh : EntriesOk sb m₀.lh) :
    Triple (fun m d => m = m₀ ∧ d = d₀) (installTrans sb)
      (fun _ m d => m = ⟨applyWrites (homeCopies sb m₀.lh m₀.view) m₀.view, m₀.lh⟩ ∧
        d = applyWrites (homeCopies sb m₀.lh m₀.view) d₀)
      (fun c => ∃ k, c = applyWrites ((homeCopies sb m₀.lh m₀.view).take k) d₀) := by
  have hloop := copyLoop_triple m₀.lh.length (fun i => sb.logstart + i + 1)
    (fun i => m₀.lh.getD i 0) m₀ d₀ (fun i k hik hk heq =>
      hlh.home_getD (Nat.lt_trans hik hk) (heq ▸ hlh.logArea hk))
  rintro m d ⟨rfl, rfl⟩
  obtain ⟨hpost, hcrash⟩ := hloop m d ⟨rfl, rfl⟩
  exact ⟨hpost, fun c hc => (hcrash c hc).imp fun k h => h.2⟩

theorem writeLog_triple (m₀ : Mem) (d₀ : Disk) (hlh : EntriesOk sb m₀.lh) :
    Triple (fun m d => m = m₀ ∧ d = d₀) (writeLog sb)
      (fun _ m d => m = ⟨applyWrites (logCopies sb m₀.lh m₀.view) m₀.view, m₀.lh⟩ ∧
        d = applyWrites (logCopies sb m₀.lh m₀.view) d₀)
      (fun c => ∃ k, c = applyWrites ((logCopies sb m₀.lh m₀.view).take k) d₀) := by
  have hloop := copyLoop_triple m₀.lh.length (fun i => m₀.lh.getD i 0)
    (fun i => sb.logstart + i + 1) m₀ d₀ (fun i k hik hk heq =>
      hlh.home_getD hk (heq ▸ hlh.logArea (Nat.lt_trans hik hk)))
  rintro m d ⟨rfl, rfl⟩
  obtain ⟨hpost, hcrash⟩ := hloop m d ⟨rfl, rfl⟩
  exact ⟨hpost, fun c hc => (hcrash c hc).imp fun k h => h.2⟩

/-! ### Recovery -/

/-- `recover_from_log`: every crash point still replays to `H`, and at the end the home
area is that of `H` and the header counts no entry. -/
theorem recoverFromLog_triple {H d₀ : Disk} (h : Replays sb H d₀) :
    Triple (fun m d => m = boot d₀ ∧ d = d₀) (recoverFromLog sb)
      (fun _ _ d => HomeEq sb d H ∧ headN (d sb.logstart) = 0) (Replays sb H) := by
  obtain ⟨lh, hlh⟩ : ∃ lh, lh = headBlocks (d₀ sb.logstart) := ⟨_, rfl⟩
  obtain ⟨ws, hws⟩ : ∃ ws, ws = homeCopies sb lh d₀ := ⟨_, rfl⟩
  have hentries : EntriesOk sb lh := hlh ▸ h.entries
  have hpart : ∀ k, Replays sb H (applyWrites (ws.take k) d₀) := by
    intro k
    rw [hws, hlh]
    exact h.partial_install k
  have hread : Triple (fun m d => m = boot d₀ ∧ d = d₀) (readHead sb)
      (fun _ m d => m = ⟨d₀, lh⟩ ∧ d = d₀) (Replays sb H) := by
    rintro m d ⟨rfl, rfl⟩
    refine ⟨⟨by rw [hlh]; rfl, rfl⟩, ?_⟩
    intro c hc
    have htrace : (readHead sb (boot d) d).trace = [] := rfl
    rw [Prog.crashPoints, htrace, List.mem_singleton] at hc
    exact hc ▸ h
  have hinstall : Triple (fun m d => m = ⟨d₀, lh⟩ ∧ d = d₀) (installTrans sb)
      (fun _ m d => m = ⟨applyWrites ws d₀, lh⟩ ∧ d = applyWrites ws d₀) (Replays sb H) := by
    rw [hws] at hpart ⊢
    exact (installTrans_triple ⟨d₀, lh⟩ d₀ hentries).consequence (fun _ _ h => h)
      (fun _ _ _ h => h) (by rintro c ⟨k, rfl⟩; exact hpart k)
  have hdone : Replays sb H (applyWrites ws d₀) := by
    have := hpart ws.length
    rwa [List.take_length] at this
  have hclear : Triple (fun m d => m = ⟨applyWrites ws d₀, lh⟩ ∧ d = applyWrites ws d₀) clearHead
      (fun _ m d => m = ⟨applyWrites ws d₀, []⟩ ∧ d = applyWrites ws d₀) (Replays sb H) :=
    triple_modify _ (by rintro m d ⟨rfl, rfl⟩; exact ⟨rfl, rfl⟩)
      (by rintro m d ⟨-, rfl⟩; exact hdone)
  -- The cleared header, over a home area that is already installed.
  have hlast : ∀ buf, HomeEq sb (Function.update (applyWrites ws d₀) sb.logstart (putHead buf [])) H ∧
      headN (Function.update (applyWrites ws d₀) sb.logstart (putHead buf []) sb.logstart) = 0 := by
    intro buf
    refine ⟨fun b hb => ?_, ?_⟩
    · have hne : b ≠ sb.logstart := fun heq => hb (heq ▸ h.entries.logstart)
      rw [Function.update_of_ne hne, hws, hlh]
      exact h.home b hb
    · rw [Function.update_self, headN_putHead _ _ (by simp)]
      rfl
  have hwrite : Triple (fun m d => m = ⟨applyWrites ws d₀, []⟩ ∧ d = applyWrites ws d₀)
      (writeHead sb) (fun _ _ d => HomeEq sb d H ∧ headN (d sb.logstart) = 0) (Replays sb H) :=
    (writeHead_triple ⟨applyWrites ws d₀, []⟩ (applyWrites ws d₀)).consequence (fun _ _ h => h)
      (by rintro _ m d ⟨-, rfl⟩; exact hlast _)
      (by
        rintro c (rfl | rfl)
        · exact hdone
        · have hpos : 0 < sb.nlog := Nat.lt_of_lt_of_le (Nat.succ_pos _) h.entries.fits
          exact replays_of_headN hpos (hlast _).2 (hlast _).1)
  exact triple_bind hread fun _ => triple_bind hinstall fun _ => triple_bind hclear fun _ => hwrite

/-- Any number of interrupted recoveries keep what a recovery would leave. -/
theorem Replays.recovers {H d d' : Disk} (h : Replays sb H d)
    (hrec : Recovers (recoverFromLog sb) boot d d') : Replays sb H d' :=
  recovers_induction (fun _ _ hd hint => (recoverFromLog_triple hd _ _ ⟨rfl, rfl⟩).2 _ hint)
    hrec h

/-! ### A transaction -/

/-- `stage` puts the contents into the cache and, absorbing nothing, the block numbers into
the header. -/
theorem foldl_stage (ws : List (Nat × Block)) (v : Disk) (lh : List Nat)
    (hnd : (ws.map Prod.fst).Nodup) (hlh : ∀ w ∈ ws, w.1 ∉ lh) :
    ws.foldl (fun m w => (⟨Function.update m.view w.1 w.2, absorb m.lh w.1⟩ : Mem)) ⟨v, lh⟩
      = ⟨applyWrites ws v, lh ++ ws.map Prod.fst⟩ := by
  induction ws generalizing v lh with
  | nil => simp
  | cons w ws ih =>
    rw [List.map_cons, List.nodup_cons] at hnd
    have habsorb : absorb lh w.1 = lh ++ [w.1] := if_neg (hlh w List.mem_cons_self)
    rw [List.foldl_cons, habsorb, ih _ _ hnd.2 ?_, applyWrites_cons]
    · simp
    · intro u hu hmem
      rcases List.mem_append.mp hmem with hmem | hmem
      · exact hlh u (List.mem_cons_of_mem _ hu) hmem
      · rw [List.mem_singleton] at hmem
        exact hnd.1 (hmem ▸ List.mem_map_of_mem hu)

/-- The entries of a transaction's header. -/
theorem Txn.entriesOk (t : Txn sb) : EntriesOk sb (t.writes.map Prod.fst) := by
  refine ⟨fun b hb => ?_, by simpa using t.fits⟩
  obtain ⟨w, hw, rfl⟩ := List.mem_map.mp hb
  exact t.home w hw

/-- Once every log block holds its entry's new contents, `install_trans` performs exactly
the transaction's writes. -/
theorem homeCopies_eq_writes (t : Txn sb) (v : Disk)
    (hv : ∀ i (hi : i < t.writes.length), v (sb.logstart + i + 1) = (t.writes[i]).2) :
    homeCopies sb (t.writes.map Prod.fst) v = t.writes := by
  apply List.ext_getElem (by simp [homeCopies])
  intro i hi hi'
  simp only [homeCopies, getElem_copies, hv i hi']
  simp [List.getD, hi']

/-- After `write_log`, log block `i` holds the cache's contents of entry `i`, on the disk
and in the cache. -/
theorem applyWrites_logCopies (lh : List Nat) (v d : Disk) (i : Nat) (hi : i < lh.length) :
    applyWrites (logCopies sb lh v) d (sb.logstart + i + 1) = v (lh.getD i 0) := by
  have hnd : ((logCopies sb lh v).map Prod.fst).Nodup := by
    rw [logCopies, copies, List.map_map]
    exact List.Nodup.map (fun a b hab => by simpa using hab) List.nodup_range
  have hmem : (sb.logstart + i + 1, v (lh.getD i 0)) ∈ logCopies sb lh v :=
    List.mem_map.mpr ⟨i, List.mem_range.mpr hi, rfl⟩
  exact applyWrites_of_mem _ d hnd _ hmem

/-! ### The stages of a commit

`commit` takes the cache and the disk through the same four stages. Each stage is written
over a `base`, which is the cache (`staged t d`) or the disk (`d`). -/

section Stages
variable (t : Txn sb) (d : Disk)

/-- The cache when `commit` starts. -/
def staged : Disk := applyWrites t.writes d

/-- After `write_log`. -/
def logged (base : Disk) : Disk :=
  applyWrites (logCopies sb (t.writes.map Prod.fst) (staged t d)) base

/-- The header block that the first `write_head` writes. -/
def committedHead : Block :=
  putHead (logged t d (staged t d) sb.logstart) (t.writes.map Prod.fst)

/-- After the first `write_head`. -/
def headed (base : Disk) : Disk :=
  Function.update (logged t d base) sb.logstart (committedHead t d)

/-- After `install_trans`. -/
def installed (base : Disk) : Disk := applyWrites t.writes (headed t d base)

/-- After the last `write_head`. -/
def cleared (base : Disk) : Disk :=
  Function.update (installed t d base) sb.logstart
    (putHead (installed t d (staged t d) sb.logstart) [])

theorem headed_logstart (base : Disk) : headed t d base sb.logstart = committedHead t d :=
  Function.update_self ..

theorem headBlocks_committedHead : headBlocks (committedHead t d) = t.writes.map Prod.fst := by
  apply headBlocks_putHead _ _ (by simpa using t.loghead)
  intro b hb
  obtain ⟨w, hw, rfl⟩ := List.mem_map.mp hb
  exact t.uint w hw

/-- From the first `write_head` on, log block `i` holds the new contents of entry `i`. -/
theorem headed_logBlock (base : Disk) (i : Nat) (hi : i < t.writes.length) :
    headed t d base (sb.logstart + i + 1) = (t.writes[i]).2 := by
  have hmem : staged t d ((t.writes.map Prod.fst).getD i 0) = (t.writes[i]).2 := by
    have := applyWrites_of_mem t.writes d t.nodup _ (List.getElem_mem hi)
    simpa [staged, List.getD, hi] using this
  rw [headed, Function.update_of_ne (by omega), logged,
    applyWrites_logCopies _ _ _ _ (by simpa using hi), hmem]

theorem homeCopies_headed (base : Disk) :
    homeCopies sb (t.writes.map Prod.fst) (headed t d base) = t.writes :=
  homeCopies_eq_writes t _ (headed_logBlock t d base)

/-- Before the header write nothing is counted, so the old home area stands. -/
theorem replays_logging (hn : headN (d sb.logstart) = 0) (k : Nat) :
    Replays sb d
      (applyWrites ((logCopies sb (t.writes.map Prod.fst) (staged t d)).take k) d) := by
  apply replays_of_headN (Nat.lt_of_lt_of_le (Nat.succ_pos _) t.fits)
  · rw [applyWrites_take_logCopies_logstart]
    exact hn
  · intro b hb
    exact applyWrites_take_logCopies (Txn.entriesOk t) _ _ _ hb

theorem replays_logged (hn : headN (d sb.logstart) = 0) : Replays sb d (logged t d d) := by
  have := replays_logging t d hn (logCopies sb (t.writes.map Prod.fst) (staged t d)).length
  rwa [List.take_length] at this

/-- The header write is the commit point: from here on the new home area stands. -/
theorem replays_headed : Replays sb (staged t d) (headed t d d) := by
  have hok := Txn.entriesOk t
  refine ⟨by rw [headed_logstart, headBlocks_committedHead]; exact hok, ?_⟩
  intro b hb
  have hne : b ≠ sb.logstart := fun heq => hb (heq ▸ hok.logstart)
  rw [replay, headed_logstart, headBlocks_committedHead, homeCopies_headed]
  apply applyWrites_congr
  right
  have hlog := applyWrites_take_logCopies hok (staged t d) d
    (logCopies sb (t.writes.map Prod.fst) (staged t d)).length hb
  rw [List.take_length] at hlog
  exact (Function.update_of_ne hne ..).trans hlog

/-- The writes of `install_trans` are the writes that a recovery would do. -/
theorem replays_installing (k : Nat) :
    Replays sb (staged t d) (applyWrites (t.writes.take k) (headed t d d)) := by
  have := (replays_headed t d).partial_install k
  rwa [headed_logstart, headBlocks_committedHead, homeCopies_headed] at this

theorem replays_installed : Replays sb (staged t d) (installed t d d) := by
  have := replays_installing t d t.writes.length
  rwa [List.take_length] at this

/-- After `install_trans` the home area is the new one. -/
theorem homeEq_installed : HomeEq sb (installed t d d) (staged t d) := by
  have := (replays_headed t d).home
  rwa [replay, headed_logstart, headBlocks_committedHead, homeCopies_headed] at this

theorem headN_cleared (base : Disk) : headN (cleared t d base sb.logstart) = 0 := by
  rw [cleared, Function.update_self, headN_putHead _ _ (by simp)]
  rfl

theorem homeEq_cleared : HomeEq sb (cleared t d d) (staged t d) := by
  intro b hb
  have hne : b ≠ sb.logstart := fun heq => hb (heq ▸ (Txn.entriesOk t).logstart)
  rw [cleared, Function.update_of_ne hne]
  exact homeEq_installed t d b hb

/-- The cache and the disk went through the same writes, and differed at most on the
transaction's blocks. So they end equal. -/
theorem cleared_staged : cleared t d (staged t d) = cleared t d d := by
  funext b
  by_cases hb : b = sb.logstart
  · subst hb
    rw [cleared, cleared, Function.update_self, Function.update_self]
  · rw [cleared, cleared, Function.update_of_ne hb, Function.update_of_ne hb]
    apply applyWrites_congr
    by_cases hmem : b ∈ t.writes.map Prod.fst
    · exact Or.inl hmem
    · right
      rw [headed, headed, Function.update_of_ne hb, Function.update_of_ne hb]
      exact applyWrites_congr _ _ _ _ (Or.inr (applyWrites_of_notMem _ _ _ hmem))

end Stages

/-- What holds after `commit`: the cache shows the disk, the header counts no entry, and
the home area is the state after the transaction. -/
def Committed (t : Txn sb) (d₀ : Disk) (m : Mem) (d : Disk) : Prop :=
  m = boot d ∧ headN (d sb.logstart) = 0 ∧ HomeEq sb d (staged t d₀)

/-- What a crash in `commit` leaves: a disk that replays to the state before the transaction
or to the state after it. -/
def BeforeOrAfter (t : Txn sb) (d₀ c : Disk) : Prop :=
  Replays sb d₀ c ∨ Replays sb (staged t d₀) c

/-- `commit` of a staged transaction over a clean log. -/
theorem commit_triple (t : Txn sb) (d₀ : Disk) (hn : headN (d₀ sb.logstart) = 0) :
    Triple (fun m d => m = ⟨staged t d₀, t.writes.map Prod.fst⟩ ∧ d = d₀) (commit sb)
      (fun _ => Committed t d₀) (BeforeOrAfter t d₀) := by
  have hok := Txn.entriesOk t
  let lh := t.writes.map Prod.fst
  have hlog : Triple (fun m d => m = ⟨staged t d₀, lh⟩ ∧ d = d₀) (writeLog sb)
      (fun _ m d => m = ⟨logged t d₀ (staged t d₀), lh⟩ ∧ d = logged t d₀ d₀)
      (BeforeOrAfter t d₀) :=
    (writeLog_triple ⟨staged t d₀, lh⟩ d₀ hok).consequence (fun _ _ h => h) (fun _ _ _ h => h)
      (by rintro c ⟨k, rfl⟩; exact Or.inl (replays_logging t d₀ hn k))
  have hhead : Triple (fun m d => m = ⟨logged t d₀ (staged t d₀), lh⟩ ∧ d = logged t d₀ d₀)
      (writeHead sb)
      (fun _ m d => m = ⟨headed t d₀ (staged t d₀), lh⟩ ∧ d = headed t d₀ d₀)
      (BeforeOrAfter t d₀) :=
    (writeHead_triple ⟨logged t d₀ (staged t d₀), lh⟩ (logged t d₀ d₀)).consequence
      (fun _ _ h => h) (fun _ _ _ h => h) (by
        rintro c (rfl | rfl)
        · exact Or.inl (replays_logged t d₀ hn)
        · exact Or.inr (replays_headed t d₀))
  have hinstall : Triple (fun m d => m = ⟨headed t d₀ (staged t d₀), lh⟩ ∧ d = headed t d₀ d₀)
      (installTrans sb)
      (fun _ m d => m = ⟨installed t d₀ (staged t d₀), lh⟩ ∧ d = installed t d₀ d₀)
      (BeforeOrAfter t d₀) := by
    have h := installTrans_triple ⟨headed t d₀ (staged t d₀), lh⟩ (headed t d₀ d₀) hok
    simp only [lh, homeCopies_headed] at h
    exact h.consequence (fun _ _ h => h) (fun _ _ _ h => h)
      (by rintro c ⟨k, rfl⟩; exact Or.inr (replays_installing t d₀ k))
  have hclear : Triple
      (fun m d => m = ⟨installed t d₀ (staged t d₀), lh⟩ ∧ d = installed t d₀ d₀) clearHead
      (fun _ m d => m = ⟨installed t d₀ (staged t d₀), []⟩ ∧ d = installed t d₀ d₀)
      (BeforeOrAfter t d₀) :=
    triple_modify _ (by rintro m d ⟨rfl, rfl⟩; exact ⟨rfl, rfl⟩)
      (by rintro m d ⟨-, rfl⟩; exact Or.inr (replays_installed t d₀))
  have hlast : Triple
      (fun m d => m = ⟨installed t d₀ (staged t d₀), []⟩ ∧ d = installed t d₀ d₀) (writeHead sb)
      (fun _ => Committed t d₀) (BeforeOrAfter t d₀) := by
    refine (writeHead_triple ⟨installed t d₀ (staged t d₀), []⟩ (installed t d₀ d₀)).consequence
      (fun _ _ h => h) ?_ ?_
    · rintro _ m d ⟨rfl, rfl⟩
      exact ⟨congrArg (Mem.mk · []) (cleared_staged t d₀), headN_cleared t d₀ d₀,
        homeEq_cleared t d₀⟩
    · rintro c (rfl | rfl)
      · exact Or.inr (replays_installed t d₀)
      · exact Or.inr (replays_of_headN (Nat.lt_of_lt_of_le (Nat.succ_pos _) t.fits)
          (headN_cleared t d₀ d₀) (homeEq_cleared t d₀))
  have hbody := triple_bind hlog fun _ => triple_bind hhead fun _ => triple_bind hinstall fun _ =>
    triple_bind hclear fun _ => hlast
  rintro m d ⟨rfl, rfl⟩
  by_cases hlen : 0 < t.writes.length
  · -- `commit` reads `log.lh.n` and takes its only branch.
    have hrun : commit sb ⟨staged t d, lh⟩ d
        = (do
            writeLog sb
            writeHead sb
            installTrans sb
            clearHead
            writeHead sb : LogM Unit) ⟨staged t d, lh⟩ d := by
      have hlh : 0 < lh.length := by simpa [lh] using hlen
      show (if 0 < lh.length then _ else _ : LogM Unit) _ _ = _
      rw [if_pos hlh]
      rfl
    rw [Prog.crashPoints, hrun]
    exact hbody _ _ ⟨rfl, rfl⟩
  · -- An empty transaction: `commit` does nothing.
    have hnil : t.writes = [] := List.eq_nil_of_length_eq_zero (by omega)
    have hstaged : staged t d = d := by rw [staged, hnil]; rfl
    have hlh : lh = [] := by simp [lh, hnil]
    have hrun : commit sb ⟨staged t d, lh⟩ d = ⟨(), ⟨staged t d, lh⟩, d, []⟩ := by
      show (if 0 < lh.length then _ else _ : LogM Unit) _ _ = _
      rw [if_neg (by simp [hlh])]
      rfl
    rw [Prog.crashPoints, hrun]
    refine ⟨⟨by rw [hstaged, hlh]; rfl, hn, fun b _ => by rw [hstaged]⟩, ?_⟩
    intro c hc
    rw [List.mem_singleton.mp hc]
    exact Or.inl (replays_of_headN (Nat.lt_of_lt_of_le (Nat.succ_pos _) t.fits) hn fun _ _ => rfl)

/-- One transaction, from a booted memory over a clean log. -/
theorem runTxn_triple (t : Txn sb) (d₀ : Disk) (hn : headN (d₀ sb.logstart) = 0) :
    Triple (fun m d => m = boot d₀ ∧ d = d₀) (runTxn t) (fun _ => Committed t d₀)
      (BeforeOrAfter t d₀) := by
  have hstage : Triple (fun m d => m = boot d₀ ∧ d = d₀) (stage t.writes)
      (fun _ m d => m = ⟨staged t d₀, t.writes.map Prod.fst⟩ ∧ d = d₀) (BeforeOrAfter t d₀) := by
    refine triple_modify _ ?_ ?_
    · rintro m d ⟨rfl, rfl⟩
      refine ⟨?_, rfl⟩
      rw [boot, foldl_stage t.writes d [] t.nodup (by simp), List.nil_append]
      rfl
    · rintro m d ⟨-, rfl⟩
      exact Or.inl
        (replays_of_headN (Nat.lt_of_lt_of_le (Nat.succ_pos _) t.fits) hn fun _ _ => rfl)
  exact triple_bind hstage fun _ => commit_triple t d₀ hn

/-! ### The sequence of transactions -/

/-- The home area after some transactions depends on the home area before them only. -/
theorem applyTxns_congr (txns : List (Txn sb)) {d d' : Disk} (h : HomeEq sb d d') :
    HomeEq sb (applyTxns txns d) (applyTxns txns d') := by
  induction txns generalizing d d' with
  | nil => exact h
  | cons t ts ih =>
    apply ih
    intro b hb
    exact applyWrites_congr _ _ _ _ (Or.inr (h b hb))

/-- Each crash point of the run replays to a prefix of the transactions: those whose
`commit` had returned, and possibly the one in flight. -/
theorem crashes_replay (hlog : 0 < sb.nlog) (txns : List (Txn sb)) (d : Disk)
    (hn : headN (d sb.logstart) = 0) (j : Nat) (c : Disk)
    (hc : (j, c) ∈ crashes txns (boot d) d) :
    ∃ k, j ≤ k ∧ k ≤ j + 1 ∧ k ≤ txns.length ∧ Replays sb (applyTxns (txns.take k) d) c := by
  induction txns generalizing d j with
  | nil =>
    obtain ⟨rfl, rfl⟩ : j = 0 ∧ c = d := by simpa [crashes] using hc
    exact ⟨0, by omega, by omega, by simp, replays_of_headN hlog hn fun _ _ => rfl⟩
  | cons t ts ih =>
    obtain ⟨⟨hm, hn', hhome⟩, hcrash⟩ := runTxn_triple t d hn _ _ ⟨rfl, rfl⟩
    rw [crashes] at hc
    rcases List.mem_append.mp hc with hc | hc
    · -- The crash came while `t` was in flight.
      obtain ⟨c', hc', heq⟩ := List.mem_map.mp hc
      obtain ⟨rfl, rfl⟩ : 0 = j ∧ c' = c := by simpa using heq
      rcases hcrash c' hc' with hrep | hrep
      · exact ⟨0, by omega, by omega, by simp, hrep⟩
      · exact ⟨1, by omega, by omega, by simp, by simpa [applyTxns, staged] using hrep⟩
    · -- `t` had committed: the rest of the run starts from its disk.
      obtain ⟨⟨i, c'⟩, hic, heq⟩ := List.mem_map.mp hc
      obtain ⟨rfl, rfl⟩ : i + 1 = j ∧ c' = c := by simpa using heq
      rw [hm] at hic
      obtain ⟨k, hik, hki, hk, hrep⟩ := ih _ hn' i hic
      exact ⟨k + 1, by omega, by omega, by simpa using hk,
        hrep.congr (applyTxns_congr (ts.take k) hhome)⟩

/-- **Crash atomicity of the log.** The transactions run one after the other, from a disk
whose header counts no entry. A crash leaves the disk `c` after `j` transactions had
committed, any number of interrupted recoveries turn it into `c'`, and the next recovery
completes. Then the home area is that of a prefix of the transactions, applied in full. The
prefix contains the `j` committed ones and at most the one in flight, and the header counts
no entry. -/
theorem crash_atomicity (hlog : 0 < sb.nlog) (txns : List (Txn sb)) (d : Disk)
    (hn : headN (d sb.logstart) = 0) (j : Nat) (c c' : Disk)
    (hc : (j, c) ∈ crashes txns (boot d) d) (hrec : Recovers (recoverFromLog sb) boot c c') :
    (∃ k, j ≤ k ∧ k ≤ j + 1 ∧ k ≤ txns.length ∧
      HomeEq sb (recovered sb c') (applyTxns (txns.take k) d)) ∧
    headN (recovered sb c' sb.logstart) = 0 := by
  obtain ⟨k, hjk, hkj, hk, hrep⟩ := crashes_replay hlog txns d hn j c hc
  obtain ⟨⟨hhome, hhead⟩, -⟩ := recoverFromLog_triple (hrep.recovers hrec) _ _ ⟨rfl, rfl⟩
  exact ⟨⟨k, hjk, hkj, hk, hhome⟩, hhead⟩

/-- A transaction of one block on the layout of `mkfs`. -/
def oneBlockTxn : Txn Mkfs.superblock where
  writes := [(100, fun _ => 7)]
  nodup := by decide
  home := by decide
  uint := by decide
  fits := by decide
  loghead := by decide

/-- The disk after the commit point of `oneBlockTxn`, before `install_trans`. -/
def oneBlockCrash : Disk :=
  ((runTxn oneBlockTxn).crashPoints (boot fun _ => Bytes.zero BSIZE) fun _ => Bytes.zero BSIZE)[2]

/-- The theorem at a crash right after the commit point, with one recovery interrupted
before its own last write. -/
theorem crash_atomicity_oneBlock :
    (∃ k, 0 ≤ k ∧ k ≤ 0 + 1 ∧ k ≤ [oneBlockTxn].length ∧
      HomeEq Mkfs.superblock
        (recovered Mkfs.superblock
          ((recoverFromLog Mkfs.superblock).crashPoints (boot oneBlockCrash) oneBlockCrash)[0])
        (applyTxns ([oneBlockTxn].take k) fun _ => Bytes.zero BSIZE)) ∧
    headN (recovered Mkfs.superblock
      ((recoverFromLog Mkfs.superblock).crashPoints (boot oneBlockCrash) oneBlockCrash)[0]
        Mkfs.superblock.logstart) = 0 := by
  have hmem : (0, oneBlockCrash)
      ∈ crashes [oneBlockTxn] (boot fun _ => Bytes.zero BSIZE) fun _ => Bytes.zero BSIZE := by
    rw [crashes]
    exact List.mem_append_left _ (List.mem_map_of_mem (List.getElem_mem _))
  exact crash_atomicity (by decide) [oneBlockTxn] _ (by simp [headN, int32]) 0 oneBlockCrash _ hmem
    (Relation.ReflTransGen.single (List.getElem_mem _))

end Xv6.Proofs.Log
