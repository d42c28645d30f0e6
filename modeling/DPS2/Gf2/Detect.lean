import DPS2.Gf2.Bits

/-! Which error patterns a generator polynomial can never divide. The generator is
a parameter; only a nonzero constant term, a root at 1 and its degree are used. -/
namespace Gf2

open Polynomial

section Divisibility

variable {d f : (ZMod 2)[X]}

theorem coprime_X_pow (unit : d.coeff 0 ≠ 0) (k : Nat) : IsCoprime d (X ^ k) := by
  have outside : ¬ X ∣ d := fun h => unit (X_dvd_iff.mp h)
  exact ((irreducible_X.coprime_iff_not_dvd.mpr outside).pow_left).symm

theorem dvd_X_pow_mul (unit : d.coeff 0 ≠ 0) (k : Nat) : d ∣ X ^ k * f ↔ d ∣ f :=
  ⟨(coprime_X_pow unit k).dvd_of_dvd_mul_left, fun h => h.mul_left _⟩

/-- In characteristic two d ∣ f + g says that f and g are congruent modulo d. -/
theorem congr_trans {g r : (ZMod 2)[X]} (hf : d ∣ f + g) (hg : d ∣ g + r) : d ∣ f + r := by
  have sum : f + r = (f + g) + (g + r) := by
    rw [show f + g + (g + r) = f + (g + g) + r by ring, CharTwo.add_self_eq_zero, add_zero]
  rw [sum]
  exact dvd_add hf hg

theorem congr_add_multiple {m : (ZMod 2)[X]} (h : d ∣ m) : d ∣ f + (f + m) := by
  rwa [← add_assoc, CharTwo.add_self_eq_zero, zero_add]

theorem congr_dvd_iff {g : (ZMod 2)[X]} (h : d ∣ f + g) : d ∣ f ↔ d ∣ g :=
  ⟨fun hf => (dvd_add_right hf).mp h, fun hg => (dvd_add_left hg).mp h⟩

theorem congr_mul_add {g : (ZMod 2)[X]} (h : d ∣ f + g) (m r : (ZMod 2)[X]) :
    d ∣ (f * m + r) + (g * m + r) := by
  have cancel : (f * m + r) + (g * m + r) = (f + g) * m + (r + r) := by ring
  rw [cancel, CharTwo.add_self_eq_zero, add_zero]
  exact h.mul_right m

theorem eq_zero_of_dvd_of_low {n : Nat} (full : n ≤ d.natDegree) (low : f.degree < n)
    (h : d ∣ f) : f = 0 := by
  by_contra hf
  have upper : f.natDegree < n := (natDegree_lt_iff_degree_lt hf).mpr low
  have lower : d.natDegree ≤ f.natDegree := natDegree_le_of_dvd h hf
  omega

end Divisibility

/-- The flipped bits as a polynomial, each bit at the exponent it stands for. -/
noncomputable def pattern {α : Type} (exponent : α → Nat) (S : Finset α) : (ZMod 2)[X] :=
  ∑ p ∈ S, X ^ exponent p

variable {α : Type} {exponent : α → Nat} {S : Finset α} {d : (ZMod 2)[X]}

theorem eval_one_pattern : (pattern exponent S).eval 1 = (S.card : ZMod 2) := by
  simp [pattern, eval_finsetSum]

theorem odd_pattern_survives (root : d.eval 1 = 0) (odd : Odd S.card) :
    ¬ d ∣ pattern exponent S := by
  rintro ⟨q, hq⟩
  have one : (S.card : ZMod 2) = 1 := (ZMod.natCast_eq_one_iff_odd).mpr odd
  rw [← @eval_one_pattern _ exponent, hq, eval_mul, root, zero_mul] at one
  exact zero_ne_one one

theorem coeff_pattern (inj : Set.InjOn exponent S) {p : α} (member : p ∈ S) :
    (pattern exponent S).coeff (exponent p) = 1 := by
  simp only [pattern, finsetSum_coeff, coeff_X_pow]
  rw [Finset.sum_eq_single_of_mem p member, if_pos rfl]
  intro q hq hne
  exact if_neg (fun h => hne (inj hq member h.symm))

theorem pattern_shift (base : Nat) (above : ∀ p ∈ S, base ≤ exponent p) :
    pattern exponent S = X ^ base * pattern (fun p => exponent p - base) S := by
  rw [pattern, pattern, Finset.mul_sum]
  apply Finset.sum_congr rfl
  intro p hp
  rw [← pow_add, Nat.add_sub_cancel' (above p hp)]

theorem degree_pattern_lt {n : Nat} (below : ∀ p ∈ S, exponent p < n) :
    (pattern exponent S).degree < n := by
  rw [degree_lt_iff_coeff_zero]
  intro k hk
  simp only [pattern, finsetSum_coeff, coeff_X_pow]
  apply Finset.sum_eq_zero
  intro p hp
  exact if_neg (fun h => absurd (below p hp) (by omega))

theorem burst_survives {n : Nat} (unit : d.coeff 0 ≠ 0) (full : n ≤ d.natDegree)
    (inj : Set.InjOn exponent S) (nonempty : S.Nonempty) (base : Nat)
    (window : ∀ p ∈ S, base ≤ exponent p ∧ exponent p < base + n) :
    ¬ d ∣ pattern exponent S := by
  intro h
  rw [pattern_shift base (fun p hp => (window p hp).1), dvd_X_pow_mul unit] at h
  have low : (pattern (fun p => exponent p - base) S).degree < n :=
    degree_pattern_lt (fun p hp => by have := window p hp; omega)
  have zero := eq_zero_of_dvd_of_low full low h
  obtain ⟨p, hp⟩ := nonempty
  have shifted : Set.InjOn (fun p => exponent p - base) S := by
    intro a ha b hb hab
    have wa := window a ha
    have wb := window b hb
    exact inj ha hb (by simp only at hab; omega)
  have one := coeff_pattern shifted hp
  rw [zero, coeff_zero] at one
  exact zero_ne_one one

end Gf2
