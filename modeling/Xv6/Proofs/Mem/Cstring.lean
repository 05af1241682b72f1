import Xv6.Proofs.Mem.Buffer

/-!
# `Xv6.Proofs.Mem.Cstring`: `copyinstr`

`copyinstr` copies user memory into a buffer up to the first null byte. Its inner loop copies the
bytes of one page (`copyinstrBufPage_spec`), and the outer loop goes from page to page until it
has found the null byte, has copied `max` bytes, or meets a page that is not mapped. `Fetched`
says what the buffer has so far; none of these bytes is null as long as the loop goes on.
-/

set_option autoImplicit false

namespace Xv6.Proofs.Mem

open Lib Lib.Action Kernel

variable {m m' : Memory} {pt : Nat} {k : Kmem}

/-- The first `n` bytes from `p` on are at `dst`, and nothing else changed. -/
def Moved (m : Memory) (p dst n : Nat) (m' : Memory) : Prop :=
  (∀ i < n, m' (dst + i) = m (p + i)) ∧ ∀ a, ¬ (dst ≤ a ∧ a < dst + n) → m' a = m a

/-- The inner loop copies up to the null byte. -/
theorem copyinstrBufPage_spec (n : Nat) {p dst : Nat}
    (hapart : ∀ i < n, ¬ (dst ≤ p + i ∧ p + i < dst + n)) :
    wp (copyinstrBufPage n p dst) (fun got k' => k'.freelist = k.freelist ∧
      ((got = false ∧ (∀ i < n, k.mem (p + i) ≠ 0) ∧ Moved k.mem p dst n k'.mem) ∨
        got = true ∧ ∃ j < n, (∀ i < j, k.mem (p + i) ≠ 0) ∧ k.mem (p + j) = 0 ∧
          Moved k.mem p dst (j + 1) k'.mem)) (fun _ => False) k := by
  induction n generalizing p dst k with
  | zero =>
    refine ⟨rfl, .inl ⟨rfl, fun i hi => absurd hi (by omega), ?_⟩⟩
    exact ⟨fun i hi => absurd hi (by omega), fun _ _ => rfl⟩
  | succ n ih =>
    rw [copyinstrBufPage, wp_bind, readByte, wp_read]
    obtain ⟨m₁, hm₁⟩ : ∃ m₁, k.mem.write dst [k.mem p] = m₁ := ⟨_, rfl⟩
    have hstore : ∀ a, m₁ a = if a = dst then k.mem p else k.mem a := by
      intro a
      rw [← hm₁]
      unfold Memory.write
      rw [List.length_singleton]
      by_cases ha : a = dst
      · rw [if_pos (by omega), if_pos ha, ha, Nat.sub_self]
        rfl
      · rw [if_neg (by omega), if_neg ha]
    by_cases hnull : k.mem p = 0
    · rw [if_pos hnull, wp_bind, writeByte, wp_modify, wp_pure, ← hnull, hm₁]
      refine ⟨rfl, .inr ⟨rfl, 0, by omega, fun i hi => absurd hi (by omega), rfl,
        fun i hi => ?_, fun a ha => ?_⟩⟩
      · obtain rfl : i = 0 := by omega
        exact (hstore _).trans (if_pos rfl)
      · exact (hstore _).trans (if_neg (by omega))
    · rw [if_neg hnull, wp_bind, writeByte, wp_modify, hm₁]
      -- The rest of the page reads bytes that this round has not stored to.
      have hread : ∀ i < n, m₁ (p + 1 + i) = k.mem (p + (i + 1)) := by
        intro i hi
        have hne : p + 1 + i ≠ dst := fun heq => hapart (i + 1) (by omega) (by omega)
        rw [hstore, if_neg hne, Nat.add_assoc, Nat.add_comm 1]
      have hmoved : ∀ j ≤ n, ∀ k' : Kmem, Moved m₁ (p + 1) (dst + 1) j k'.mem →
          Moved k.mem p dst (j + 1) k'.mem := by
        rintro j hj k' ⟨hbytes, hframe⟩
        refine ⟨fun i hi => ?_, fun a ha => ?_⟩
        · cases i with
          | zero => rw [hframe _ (by omega), hstore, if_pos (Nat.add_zero dst), Nat.add_zero]
          | succ i =>
            rw [← hread i (by omega), ← hbytes i (by omega), Nat.add_assoc, Nat.add_comm 1]
        · rw [hframe a (by omega), hstore, if_neg (by omega)]
      have hnonzero : ∀ j ≤ n, (∀ i < j, m₁ (p + 1 + i) ≠ 0) →
          ∀ i < j + 1, k.mem (p + i) ≠ 0 := by
        intro j hj hall i hi
        cases i with
        | zero => exact hnull
        | succ i =>
          rw [← hread i (by omega)]
          exact hall i (by omega)
      refine wp_post (ih (k := { k with mem := m₁ })
        fun i hi hin => hapart (i + 1) (by omega) (by omega)) ?_
      rintro got k' ⟨hfree, ⟨rfl, hall, hM⟩ | ⟨rfl, j, hj, hall, hzero, hM⟩⟩
      · exact ⟨hfree, .inl ⟨rfl, hnonzero n (Nat.le_refl n) hall, hmoved n (Nat.le_refl n) k' hM⟩⟩
      · refine ⟨hfree, .inr ⟨rfl, j + 1, by omega, hnonzero j (by omega) hall, ?_,
          hmoved (j + 1) (by omega) k' hM⟩⟩
        rw [← hread j hj]
        exact hzero

theorem copyinstrBufLoop_fuel {fuel fuel' dst va max : Nat} (h : max ≤ fuel) (h' : max ≤ fuel') :
    copyinstrBufLoop pt fuel dst va max = copyinstrBufLoop pt fuel' dst va max := by
  refine fuel_congr (fun fuel _ _ => ?_) (fun _ _ dst va max hmax ih => ?_) h h'
  · cases fuel <;> rfl
  · have hpos := piece_pos va hmax
    rw [copyinstrBufLoop, copyinstrBufLoop, if_neg hmax, if_neg hmax]
    refine bind_congr fun pa0 => ?_
    by_cases hpa : pa0 = 0
    · rw [if_pos hpa, if_pos hpa]
    · rw [if_neg hpa, if_neg hpa]
      refine bind_congr fun got => ?_
      cases got with
      | true => rfl
      | false => exact ih _ _ _ (by omega)

/-- The buffer has `n` bytes. The last of them is the null byte if the string was found;
otherwise none is, and the copy has reached the limit or a page that is not mapped. -/
def StringRead (m : Memory) (pt va max : Nat) (r : Int) (n : Nat) : Prop :=
  r = 0 ∧ (∃ j, n = j + 1 ∧ (∀ i < j, m (userAddr m pt (va + i)) ≠ 0) ∧
      m (userAddr m pt (va + j)) = 0) ∨
    r = -1 ∧ (∀ i < n, m (userAddr m pt (va + i)) ≠ 0) ∧
      (n = max ∨ ¬ UserMapped m pt (va + n))

/-- A piece without a null byte, and the pieces after it. -/
theorem StringRead.append {va dst max n n' : Nat} {r : Int} {m₁ : Memory}
    (h : StringRead m₁ pt (va + n) (max - n) r n') (hdst : BufferFree m pt dst max) (hn : n ≤ max)
    (hpiece : Fetched m pt va dst n m₁) (hmapped : ∀ i < n', UserMapped m₁ pt (va + n + i))
    (hfirst : ∀ i < n, m (userAddr m pt (va + i)) ≠ 0) : StringRead m pt va max r (n + n') := by
  obtain ⟨-, hptes, huser⟩ := hdst.same fun a ha => hpiece.frame a (by omega)
  have hbyte : ∀ i < n', m₁ (userAddr m₁ pt (va + n + i)) = m (userAddr m pt (va + (n + i))) := by
    intro i hi
    have hva := (userMapped_congr hptes).mp (hmapped i hi)
    rw [Nat.add_assoc] at hva
    unfold userAddr
    rw [hptes, Nat.add_assoc]
    exact huser _ hva
  have hboth : ∀ j ≤ n', (∀ i < j, m₁ (userAddr m₁ pt (va + n + i)) ≠ 0) →
      ∀ i < n + j, m (userAddr m pt (va + i)) ≠ 0 := by
    intro j hj hall i hi
    by_cases hin : i < n
    · exact hfirst i hin
    · have := hall (i - n) (by omega)
      rwa [hbyte (i - n) (by omega), Nat.add_sub_cancel' (by omega)] at this
  rcases h with ⟨rfl, j, rfl, hall, hzero⟩ | ⟨rfl, hall, hend⟩
  · refine .inl ⟨rfl, n + j, by omega, hboth j (by omega) hall, ?_⟩
    rw [← hbyte j (by omega)]
    exact hzero
  · refine .inr ⟨rfl, hboth n' (Nat.le_refl n') hall, ?_⟩
    rcases hend with hall | hstop
    · exact .inl (by omega)
    · refine .inr fun hva => hstop ((userMapped_congr hptes).mpr ?_)
      rw [Nat.add_assoc]
      exact hva

/-- The loop of `copyinstr` into a buffer. -/
theorem copyinstrBufLoop_spec {fuel dst max : Nat} (va : Nat) (hfuel : max ≤ fuel)
    (hnull : ∀ va, UserMapped k.mem pt va → PTE2PA (pte k.mem pt va) ≠ 0)
    (hdst : BufferFree k.mem pt dst max) :
    wp (copyinstrBufLoop pt fuel dst va max) (fun r k' => k'.freelist = k.freelist ∧
      ∃ n ≤ max, Fetched k.mem pt va dst n k'.mem ∧ StringRead k.mem pt va max r n)
      (fun _ => False) k := by
  induction fuel generalizing va dst max k with
  | zero =>
    refine ⟨rfl, 0, Nat.zero_le _, Fetched.zero, .inr ⟨rfl, ?_, .inl (by omega)⟩⟩
    exact fun i hi => absurd hi (by omega)
  | succ fuel ih =>
    rw [copyinstrBufLoop]
    by_cases hmax : max = 0
    · rw [if_pos hmax]
      refine ⟨rfl, 0, Nat.zero_le _, Fetched.zero, .inr ⟨rfl, ?_, .inl hmax.symm⟩⟩
      exact fun i hi => absurd hi (by omega)
    · rw [if_neg hmax]
      show wp (walkaddr pt (PGROUNDDOWN va) >>= _) _ _ _
      rw [wp_bind, wp_walkaddr]
      by_cases hva : UserMapped k.mem pt va
      · have hpage := (userPage_ne_zero_iff hnull va).mpr hva
        have hmod : va % PGSIZE < PGSIZE := Nat.mod_lt _ (by decide)
        obtain ⟨n, hn⟩ : ∃ n, min (PGSIZE - va % PGSIZE) max = n := ⟨_, rfl⟩
        rw [if_neg hpage, userPage_mapped hva, sub_down, hn, wp_bind, next_page hva]
        have hadd : ∀ i < n, userAddr k.mem pt va + i = userAddr k.mem pt (va + i) :=
          fun i hi => (userAddr_add (by omega)).symm
        have hmapped : ∀ i < n, UserMapped k.mem pt (va + i) := by
          have hpg : PGSIZE = 4096 := rfl
          intro i hi
          refine userMapped_of_page ?_ hva
          rw [hpg] at hn hmod ⊢
          omega
        refine wp_mono (copyinstrBufPage_spec n fun i hi hin => ?_) ?_ fun _ => False.elim
        · have hin : dst ≤ userAddr k.mem pt va + i ∧ userAddr k.mem pt va + i < dst + n := hin
          rw [hadd i hi] at hin
          exact hdst.user _ (hmapped i hi) (by omega)
        rintro got k₁ ⟨hfree, ⟨rfl, hall, hbytes, hframe⟩ | ⟨rfl, j, hj, hall, hzero, hbytes, hframe⟩⟩
        · -- The page has no null byte: the loop goes on with the next one.
          have hpiece : Fetched k.mem pt va dst n k₁.mem :=
            fetched_piece hva (by omega) hbytes hframe
          obtain ⟨htables, hptes, -⟩ := hdst.same fun a ha => hpiece.frame a (by omega)
          have hnull₁ : ∀ va, UserMapped k₁.mem pt va → PTE2PA (pte k₁.mem pt va) ≠ 0 := by
            intro va hva
            rw [hptes va]
            exact hnull va ((userMapped_congr hptes).mp hva)
          show wp (copyinstrBufLoop pt fuel (dst + n) (PGROUNDDOWN va + PGSIZE) (max - n)) _ _ _
          refine wp_post (ih _ (by omega) hnull₁ (hdst.rest htables hptes)) ?_
          rintro r k' ⟨hfree', n', hn', hgot, hr⟩
          refine ⟨hfree'.trans hfree, n + n', by omega, ?_⟩
          have hfirst : ∀ i < n, k.mem (userAddr k.mem pt (va + i)) ≠ 0 := by
            intro i hi
            rw [← hadd i hi]
            exact hall i hi
          by_cases hlast : n = max
          · obtain rfl : n' = 0 := by omega
            have hsame : k'.mem = k₁.mem := funext fun a => hgot.frame a (by omega)
            rw [hsame]
            rcases hr with ⟨-, j, hj, -⟩ | ⟨rfl, -, -⟩
            · omega
            · exact ⟨hpiece, .inr ⟨rfl, hfirst, .inl (by omega)⟩⟩
          · have hnext : PGROUNDDOWN va + PGSIZE = va + n := by
              have := down_add va
              omega
            rw [hnext] at hgot hr
            have hwhole := hpiece.append hdst (by omega) hgot
            exact ⟨hwhole, hr.append hdst (by omega) hpiece hgot.mapped hfirst⟩
        · show Kmem.freelist k₁ = _ ∧ _
          refine ⟨hfree, j + 1, by omega, fetched_piece hva (by omega) hbytes hframe,
            .inl ⟨rfl, j, rfl, fun i hi => ?_, ?_⟩⟩
          · rw [← hadd i (by omega)]
            exact hall i hi
          · rw [← hadd j hj]
            exact hzero
      · have hpage : userPage k.mem pt (PGROUNDDOWN va) = 0 := by
          by_contra hne
          exact hva ((userPage_ne_zero_iff hnull va).mp hne)
        rw [if_pos hpage]
        refine ⟨rfl, 0, Nat.zero_le _, Fetched.zero, .inr ⟨rfl, ?_, .inr hva⟩⟩
        exact fun i hi => absurd hi (by omega)

/-- `copyinstr` copies the string at a user address with its null byte, if it ends within `max`
bytes and before the first page that is not mapped for user code. Otherwise it returns -1. -/
theorem copyinstr_exact (srcva : Nat) {dst max : Nat}
    (hnull : ∀ va, UserMapped k.mem pt va → PTE2PA (pte k.mem pt va) ≠ 0)
    (hdst : BufferFree k.mem pt dst max) :
    ∃ r k', (∀ fuel ≥ max, copyinstrBufLoop pt fuel dst srcva max k = .ok (r, k')) ∧
      copyinstrBuf pt dst srcva max k = .ok (r, k') ∧ (r = 0 ∨ r = -1) ∧
      (r = 0 ↔ ∃ j < max, (∀ i ≤ j, UserMapped k.mem pt (srcva + i)) ∧
        userByte k.mem pt (srcva + j) = some 0) ∧
      (r = 0 → ∃ j < max, (∀ i < j, userByte k.mem pt (srcva + i) ≠ some 0) ∧
        userByte k.mem pt (srcva + j) = some 0 ∧
        ∀ i ≤ j, some (k'.mem (dst + i)) = userByte k.mem pt (srcva + i)) ∧
      ∀ a, ¬ (dst ≤ a ∧ a < dst + max) → k'.mem a = k.mem a := by
  obtain ⟨r, k', hrun, -, n, hn, hgot, hr⟩ :=
    wp_returns (copyinstrBufLoop_spec srcva (Nat.le_refl max) hnull hdst) fun _ => id
  have hbyte : ∀ i < n, userByte k.mem pt (srcva + i) =
      some (k.mem (userAddr k.mem pt (srcva + i))) := fun i hi =>
    userByte_mapped hnull (hgot.mapped i hi)
  refine ⟨r, k', fun fuel hfuel => ?_, hrun, ?_, ⟨?_, ?_⟩, ?_, fun a ha => hgot.frame a (by omega)⟩
  · rw [copyinstrBufLoop_fuel hfuel (Nat.le_refl max)]
    exact hrun
  · rcases hr with ⟨hr, -⟩ | ⟨hr, -⟩
    · exact .inl hr
    · exact .inr hr
  · intro hzero
    rcases hr with ⟨-, j, rfl, -, hend⟩ | ⟨hbad, -⟩
    · refine ⟨j, by omega, fun i hi => hgot.mapped i (by omega), ?_⟩
      rw [hbyte j (by omega), hend]
    · rw [hzero] at hbad
      exact absurd hbad (by decide)
  · rintro ⟨j, hj, hmapped, hend⟩
    rcases hr with ⟨hr, -⟩ | ⟨-, hall, hstop⟩
    · exact hr
    · -- The copy would have gone past a null byte.
      exfalso
      have hjn : j < n := by
        rcases hstop with hall | hstop
        · omega
        · by_contra hge
          exact hstop (hmapped n (by omega))
      rw [hbyte j hjn] at hend
      exact hall j hjn (Option.some.inj hend)
  · intro hzero
    rcases hr with ⟨-, j, rfl, hall, hend⟩ | ⟨hbad, -⟩
    · refine ⟨j, by omega, fun i hi heq => ?_, ?_, fun i hi => ?_⟩
      · rw [hbyte i (by omega)] at heq
        exact hall i hi (Option.some.inj heq)
      · rw [hbyte j (by omega), hend]
      · rw [hbyte i (by omega), hgot.bytes i (by omega)]
    · rw [hzero] at hbad
      exact absurd hbad (by decide)

/-- The empty string, in the first page after `kinit`, `uvmcreate` and `uvmalloc`. -/
theorem copyinstr_exact_boot : ∃ k pt k' k'' k₃,
    kinit KERNBASE ⟨fun _ => 0, 0⟩ = .ok ((), k) ∧ uvmcreate k = .ok (pt, k') ∧
    uvmalloc KERNBASE pt 0 PGSIZE PTE_W k' = .ok (PGSIZE, k'') ∧
    BufferFree k''.mem pt 0 1 ∧ copyinstrBuf pt 0 0 1 k'' = .ok (0, k₃) := by
  obtain ⟨k, pt, k', k'', hinit, hcreate, hgrow, hP, hmapped, hbyte, -, htables⟩ :=
    boot_userPages (by decide : PTE_W < 1024)
  have hbase : KERNBASE = 2147483648 := rfl
  have hdst : BufferFree k''.mem pt 0 1 := by
    refine ⟨fun va hva hin => ?_, fun q hq b hlo hhi hin => ?_⟩
    · have hpage := hP.nonzero va hva
      have hlt := hin.2
      unfold userAddr at hlt
      omega
    · have := htables q hq
      omega
  obtain ⟨r, k₃, -, hrun, -, hiff, -⟩ := copyinstr_exact 0 hP.nonzero hdst
  obtain rfl : r = 0 := hiff.mpr ⟨0, by omega, fun i hi => by
    obtain rfl : i = 0 := by omega
    exact hmapped, hbyte⟩
  exact ⟨k, pt, k', k'', k₃, hinit, hcreate, hgrow, hdst, hrun⟩

end Xv6.Proofs.Mem
