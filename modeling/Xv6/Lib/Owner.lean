import Mathlib.Logic.Function.Basic

/-!
# `Xv6.Lib.Owner`: exclusive ownership of numbered resources

Resources are the numbers from `lo` up to `hi`. A place `p` holds the resource `f p`, or
nothing when `f p = 0`. An allocator marks the resources in `used`. Between the moment the
allocator hands a resource out and the moment a place records it, and again between the
moment a place forgets it and the moment the allocator takes it back, the resource is
`loose`.

`Owns lo hi f used loose` says that no resource is held twice or both held and loose, and
that the used resources are exactly the held and the loose ones. The four moves keep it:
`reserve` and `adopt` on the way in, `abandon` and `release` on the way out.
-/

set_option autoImplicit false

namespace Xv6.Lib

variable {ι : Type}

/-- The places hold disjoint resources of the range, and the used resources are the held
and the loose ones. -/
structure Owns (lo hi : Nat) (f : ι → Nat) (used loose : Nat → Prop) : Prop where
  pos : 0 < lo
  area : ∀ p, f p ≠ 0 → lo ≤ f p ∧ f p < hi
  once : ∀ p q, f p = f q → f p ≠ 0 → p = q
  used_iff : ∀ b, lo ≤ b → b < hi → (used b ↔ loose b ∨ ∃ p, f p = b)
  apart : ∀ p, f p ≠ 0 → ¬ loose (f p)

namespace Owns

variable {lo hi : Nat} {f f' : ι → Nat} {used used' loose loose' : Nat → Prop}

theorem congr (h : Owns lo hi f used loose) (hf : ∀ p, f' p = f p)
    (hused : ∀ b, lo ≤ b → b < hi → (used' b ↔ used b)) (hloose : ∀ b, loose' b ↔ loose b) :
    Owns lo hi f' used' loose' := by
  obtain rfl : f' = f := funext hf
  obtain rfl : loose' = loose := funext fun b => propext (hloose b)
  exact { h with used_iff := fun b hlo hhi => (hused b hlo hhi).trans (h.used_iff b hlo hhi) }

/-- A held resource is used. -/
theorem used_of_held (h : Owns lo hi f used loose) {p : ι} (hp : f p ≠ 0) : used (f p) :=
  (h.used_iff _ (h.area p hp).1 (h.area p hp).2).mpr (Or.inr ⟨p, rfl⟩)

/-- A resource that is not used is not held. -/
theorem ne_of_not_used (h : Owns lo hi f used loose) {b : Nat} (hb : ¬ used b) (p : ι)
    (hb0 : b ≠ 0) : f p ≠ b := by
  intro hp
  subst hp
  exact hb (h.used_of_held hb0)

/-- The allocator hands out a resource that is not used. -/
theorem reserve (h : Owns lo hi f used loose) {b : Nat} (hb : ¬ used b) (hlo : lo ≤ b) :
    Owns lo hi f (fun c => c = b ∨ used c) (fun c => c = b ∨ loose c) where
  pos := h.pos
  area := h.area
  once := h.once
  used_iff c hclo hchi := by
    rw [h.used_iff c hclo hchi, or_assoc]
  apart p hp := by
    have hb0 : b ≠ 0 := by
      have := h.pos
      omega
    rintro (he | hl)
    · exact h.ne_of_not_used hb p hb0 he
    · exact h.apart p hp hl

/-- A place that holds nothing records a loose resource. -/
theorem adopt [DecidableEq ι] (h : Owns lo hi f used loose) {p : ι} {b : Nat}
    (hp : f p = 0) (hb : loose b) (hlo : lo ≤ b) (hhi : b < hi) :
    Owns lo hi (Function.update f p b) used (fun c => c ≠ b ∧ loose c) := by
  have hb0 : b ≠ 0 := by
    have := h.pos
    omega
  -- The other places are as before, and none of them holds the resource.
  have hother : ∀ q, q ≠ p → Function.update f p b q = f q := fun q hq =>
    Function.update_of_ne hq _ _
  have hfree : ∀ q, f q ≠ b := by
    intro q hq
    have := h.apart q (by rw [hq]; exact hb0)
    rw [hq] at this
    exact this hb
  refine ⟨h.pos, ?_, ?_, ?_, ?_⟩
  · intro q hq
    by_cases hqp : q = p
    · subst hqp
      rw [Function.update_self]
      exact ⟨hlo, hhi⟩
    · rw [hother q hqp] at hq ⊢
      exact h.area q hq
  · intro q r hqr hq
    by_cases hqp : q = p
    · by_cases hrp : r = p
      · rw [hqp, hrp]
      · subst hqp
        rw [Function.update_self, hother r hrp] at hqr
        exact absurd hqr.symm (hfree r)
    · by_cases hrp : r = p
      · subst hrp
        rw [Function.update_self, hother q hqp] at hqr
        exact absurd hqr (hfree q)
      · rw [hother q hqp] at hqr hq
        rw [hother r hrp] at hqr
        exact h.once q r hqr hq
  · intro c hclo hchi
    rw [h.used_iff c hclo hchi]
    by_cases hcb : c = b
    · subst hcb
      exact ⟨fun _ => Or.inr ⟨p, Function.update_self ..⟩, fun _ => Or.inl hb⟩
    · have hplaces : (∃ q, f q = c) ↔ ∃ q, Function.update f p b q = c := by
        refine ⟨fun ⟨q, hq⟩ => ⟨q, ?_⟩, fun ⟨q, hq⟩ => ⟨q, ?_⟩⟩
        · have hqp : q ≠ p := by
            intro he
            rw [he, hp] at hq
            have := h.pos
            omega
          rw [hother q hqp, hq]
        · have hqp : q ≠ p := by
            intro he
            subst he
            rw [Function.update_self] at hq
            exact hcb hq.symm
          rw [← hother q hqp, hq]
      rw [hplaces]
      exact or_congr_left ⟨fun hl => ⟨hcb, hl⟩, fun hl => hl.2⟩
  · intro q hq
    by_cases hqp : q = p
    · subst hqp
      rw [Function.update_self]
      exact fun hl => hl.1 rfl
    · rw [hother q hqp] at hq ⊢
      exact fun hl => h.apart q hq hl.2

/-- Some places forget what they hold. -/
theorem abandon (h : Owns lo hi f used loose) (hf : ∀ p, f' p = 0 ∨ f' p = f p) :
    Owns lo hi f' used
      (fun c => loose c ∨ c ≠ 0 ∧ (∃ p, f p = c) ∧ ∀ p, f' p ≠ c) := by
  have hkept : ∀ p, f' p ≠ 0 → f' p = f p := fun p hp => (hf p).resolve_left hp
  refine ⟨h.pos, ?_, ?_, ?_, ?_⟩
  · intro p hp
    have hfp := hkept p hp
    rw [hfp] at hp ⊢
    exact h.area p hp
  · intro p q hpq hp
    have hq : f' q ≠ 0 := by rwa [← hpq]
    rw [hkept p hp, hkept q hq] at hpq
    rw [hkept p hp] at hp
    exact h.once p q hpq hp
  · intro c hclo hchi
    have hc0 : c ≠ 0 := by
      have := h.pos
      omega
    rw [h.used_iff c hclo hchi]
    constructor
    · rintro (hl | hp)
      · exact Or.inl (Or.inl hl)
      · by_cases hc : ∃ p, f' p = c
        · exact Or.inr hc
        · exact Or.inl (Or.inr ⟨hc0, hp, fun p hpc => hc ⟨p, hpc⟩⟩)
    · rintro ((hl | ⟨_, hp, _⟩) | ⟨p, hp⟩)
      · exact Or.inl hl
      · exact Or.inr hp
      · exact Or.inr ⟨p, by rw [← hkept p (by rw [hp]; exact hc0), hp]⟩
  · intro p hp
    rintro (hl | ⟨_, _, hnone⟩)
    · have hfp := hkept p hp
      rw [hfp] at hp hl
      exact h.apart p hp hl
    · exact hnone p rfl

/-- The allocator takes back a loose resource. -/
theorem release (h : Owns lo hi f used loose) {b : Nat} (hb : loose b) :
    Owns lo hi f (fun c => c ≠ b ∧ used c) (fun c => c ≠ b ∧ loose c) where
  pos := h.pos
  area := h.area
  once := h.once
  used_iff c hclo hchi := by
    have hc0 : c ≠ 0 := by
      have := h.pos
      omega
    rw [h.used_iff c hclo hchi, and_or_left]
    refine or_congr_right ⟨fun hc => hc.2, fun ⟨p, hp⟩ => ⟨?_, p, hp⟩⟩
    rintro rfl
    have := h.apart p (by rw [hp]; exact hc0)
    rw [hp] at this
    exact this hb
  apart p hp hl := h.apart p hp hl.2

end Owns

end Xv6.Lib
