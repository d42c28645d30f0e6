import Mathlib

/-! Bit vectors read as polynomials over GF(2), bit i being the coefficient of X^i.
A string of equally wide blocks is one polynomial, the first block holding the
highest coefficients. Exclusive or is addition; there is no carry to account for. -/
namespace Gf2

open Polynomial

def bit (b : Bool) : ZMod 2 := if b then 1 else 0

@[simp] theorem bit_false : bit false = 0 := rfl
theorem bit_xor (a b : Bool) : bit (a ^^ b) = bit a + bit b := by
  cases a <;> cases b <;> decide

@[simp] theorem bit_true : bit true = 1 := rfl

theorem bit_inj {a b : Bool} (h : bit a = bit b) : a = b := by
  revert h
  cases a <;> cases b <;> decide

noncomputable def ofBitVec {w : Nat} (v : BitVec w) : (ZMod 2)[X] :=
  ∑ i ∈ Finset.range w, C (bit (v.getLsbD i)) * X ^ i

theorem coeff_ofBitVec {w : Nat} (v : BitVec w) (k : Nat) :
    (ofBitVec v).coeff k = bit (v.getLsbD k) := by
  simp only [ofBitVec, finsetSum_coeff, coeff_C_mul_X_pow, Finset.sum_ite_eq, Finset.mem_range]
  by_cases hk : k < w
  · simp only [hk, if_true]
  · simp only [hk, if_false, BitVec.getLsbD_of_ge v k (Nat.le_of_not_lt hk), bit_false]

theorem ofBitVec_xor {w : Nat} (u v : BitVec w) :
    ofBitVec (u ^^^ v) = ofBitVec u + ofBitVec v := by
  ext k
  simp only [coeff_add, coeff_ofBitVec, BitVec.getLsbD_xor, bit_xor]

@[simp] theorem ofBitVec_zero (w : Nat) : ofBitVec (0#w) = 0 := by
  ext k
  simp [coeff_ofBitVec]

theorem ofBitVec_injective {w : Nat} : Function.Injective (@ofBitVec w) := by
  intro u v h
  apply BitVec.eq_of_getLsbD_eq
  intro k _
  apply bit_inj
  rw [← coeff_ofBitVec, ← coeff_ofBitVec, h]

theorem ofBitVec_eq_zero {w : Nat} {v : BitVec w} : ofBitVec v = 0 ↔ v = 0#w := by
  constructor
  · intro h
    exact ofBitVec_injective (h.trans (ofBitVec_zero w).symm)
  · rintro rfl
    exact ofBitVec_zero w

theorem degree_ofBitVec_lt {w : Nat} (v : BitVec w) : (ofBitVec v).degree < w := by
  rw [degree_lt_iff_coeff_zero]
  intro k hk
  rw [coeff_ofBitVec, BitVec.getLsbD_of_ge v k hk, bit_false]

theorem ofBitVec_shiftRight_one {w : Nat} (v : BitVec w) (low : v.getLsbD 0 = false) :
    X * ofBitVec (v >>> 1) = ofBitVec v := by
  ext k
  cases k with
  | zero => simp [coeff_ofBitVec, low]
  | succ k => simp [coeff_X_mul, coeff_ofBitVec, Nat.add_comm 1 k]

theorem ofBitVec_append {v w : Nat} (a : BitVec v) (b : BitVec w) :
    ofBitVec (a ++ b) = ofBitVec a * X ^ w + ofBitVec b := by
  ext k
  simp only [coeff_add, coeff_mul_X_pow', coeff_ofBitVec, BitVec.getLsbD_append]
  by_cases hk : k < w
  · simp [hk, Nat.not_le_of_lt hk]
  · have above : w ≤ k := Nat.le_of_not_lt hk
    simp [hk, above]

theorem ofBitVec_twoPow {w : Nat} {i : Nat} (h : i < w) :
    ofBitVec (BitVec.twoPow w i) = X ^ i := by
  ext k
  rw [coeff_ofBitVec, coeff_X_pow, BitVec.getLsbD_twoPow]
  by_cases hk : k = i
  · simp [hk, h]
  · simp [hk, Ne.symm hk]

noncomputable def ofBlocks {w : Nat} : List (BitVec w) → (ZMod 2)[X]
  | [] => 0
  | b :: bs => ofBitVec b * X ^ (w * bs.length) + ofBlocks bs

theorem ofBlocks_append {w : Nat} (xs ys : List (BitVec w)) :
    ofBlocks (xs ++ ys) = ofBlocks xs * X ^ (w * ys.length) + ofBlocks ys := by
  induction xs with
  | nil => simp [ofBlocks]
  | cons x xs ih =>
    simp only [List.cons_append, ofBlocks, ih, List.length_append, Nat.mul_add, pow_add]
    ring

theorem ofBlocks_singleton {w : Nat} (b : BitVec w) : ofBlocks [b] = ofBitVec b := by
  simp [ofBlocks]

end Gf2
