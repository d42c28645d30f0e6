import DPS2.Gf2.Detect

/-! The checksum code of the peer-to-peer layer. Blocks are 16-bit words read in
little-endian order, and the in-place buffer of the division is a list whose
processed blocks are dropped: the loop never looks back at them. -/
namespace DPS2

abbrev Byte := BitVec 8
abbrev Bytes := List Byte

end DPS2

namespace DPS2.P2P

abbrev PolyType := BitVec 16

def poly : PolyType := 0b1011101011010101

structure Dpoly where
  h : PolyType
  l : PolyType
  deriving DecidableEq

/-- The counting loop of calc_poly_len, from bit i on with n bits to go. -/
def countPolyLen (offset : Nat) : Nat → Nat → PolyType → Nat → Nat
  | 0, _, _, polyLen => polyLen
  | n + 1, i, val, polyLen =>
      countPolyLen offset n (i + 1) (val >>> 1)
        (if val &&& 1 ≠ 0 then offset + i + 1 else polyLen)

/-- The zero polynomial leaves the C variable unset; it reads 0 here. -/
def calcPolyLen (dp : Dpoly) : Nat :=
  if dp.h = 0 then countPolyLen 0 16 0 dp.l 0 else countPolyLen 16 16 0 dp.h 0

def sl (dp : Dpoly) : Nat → Dpoly
  | 0 => dp
  | n + 1 =>
      let carry := (dp.l >>> 15) &&& 1
      sl ⟨(dp.h <<< 1) ||| carry, dp.l <<< 1⟩ n

def sr (dp : Dpoly) : Nat → Dpoly
  | 0 => dp
  | n + 1 =>
      let carry := (dp.h &&& 1) <<< 15
      sr ⟨dp.h >>> 1, (dp.l >>> 1) ||| carry⟩ n

/-- The loop over the bits of data[q] = a, next to data[q + 1] = b. -/
def crcBits : Nat → PolyType → PolyType → Dpoly → PolyType × PolyType × Dpoly
  | 0, a, b, dp => (a, b, dp)
  | i + 1, a, b, dp =>
      if a &&& ((1 : PolyType) <<< i) ≠ 0 then crcBits i (a ^^^ dp.h) (b ^^^ dp.l) (sr dp 1)
      else crcBits i a b (sr dp 1)

/-- The loop over the blocks, the current one being a; the result is the last block. -/
def crcBlocks (dp : Dpoly) (a : PolyType) : List PolyType → PolyType
  | [] => a
  | b :: rest =>
      let s := crcBits 16 a b dp
      crcBlocks (sl s.2.2 16) s.2.1 rest

def calcCrc (dp : Dpoly) (data : List PolyType) : PolyType :=
  match data with
  | [] => 0
  | a :: rest => crcBlocks (sl dp (32 - calcPolyLen dp)) a rest

/-- A byte buffer seen through a POLY_TYPE pointer. -/
def toBlocks : Bytes → List PolyType
  | [] => []
  | [a] => [0#8 ++ a]
  | a :: b :: rest => (b ++ a) :: toBlocks rest

def getCrc (data : Bytes) : PolyType :=
  let nBlocks := (data.length + 2 - 1) / 2 + 1
  let tempLen := nBlocks * 2
  calcCrc ⟨poly, 0⟩ (toBlocks (data ++ List.replicate (tempLen - data.length) 0))

def crcBytes (crc : PolyType) : Bytes := [crc.extractLsb' 0 8, crc.extractLsb' 8 8]

def checkCrc (data : Bytes) (crc : PolyType) : Bool := getCrc (data ++ crcBytes crc) == 0

open Polynomial Gf2

/-! The double register is one 32-bit word, and a shift of it multiplies or divides by X. -/

def Dpoly.word (dp : Dpoly) : BitVec 32 := dp.h ++ dp.l

theorem sr_one_word (dp : Dpoly) : (sr dp 1).word = dp.word >>> 1 := by
  apply BitVec.eq_of_getLsbD_eq
  intro k hk
  simp only [sr, Dpoly.word, BitVec.getLsbD_append, BitVec.getLsbD_ushiftRight,
    BitVec.getLsbD_or, BitVec.getLsbD_shiftLeft, BitVec.getLsbD_and]
  rcases Nat.lt_trichotomy k 15 with low | rfl | high
  · have h1 : k < 16 := by omega
    have h2 : 1 + k < 16 := by omega
    simp [h1, h2, low]
  · simp
  · have h1 : ¬ k < 16 := by omega
    have h2 : ¬ 1 + k < 16 := by omega
    simp [h1, h2, Nat.add_sub_assoc (show 16 ≤ k by omega)]

noncomputable def generator : (ZMod 2)[X] := ofBitVec poly

theorem generator_unit : generator.coeff 0 ≠ 0 := by
  rw [generator, coeff_ofBitVec]
  decide

theorem generator_top : generator.coeff 15 = 1 := by
  rw [generator, coeff_ofBitVec]
  decide

theorem generator_above {k : Nat} (h : 15 < k) : generator.coeff k = 0 := by
  rw [generator, coeff_ofBitVec, BitVec.getLsbD_of_ge poly k h, bit_false]

theorem generator_natDegree : generator.natDegree = 15 := by
  apply natDegree_eq_of_le_of_coeff_ne_zero
  · exact natDegree_le_iff_coeff_eq_zero.mpr (fun k hk => generator_above hk)
  · rw [generator_top]
    exact one_ne_zero

theorem generator_root : generator.eval 1 = 0 := by
  simp only [generator, ofBitVec, eval_finsetSum, eval_mul, eval_C, eval_pow, eval_X, one_pow,
    mul_one]
  decide

theorem test_bit (a : PolyType) (i : Nat) :
    (a &&& ((1 : PolyType) <<< i) ≠ 0) ↔ a.getLsbD i = true := by
  have single : (1 : PolyType) <<< i = BitVec.twoPow 16 i := (BitVec.twoPow_eq 16 i).symm
  rw [single]
  constructor
  · intro h
    by_contra off
    apply h
    rw [BitVec.and_twoPow, if_neg off]
    rfl
  · intro on zero
    rw [BitVec.and_twoPow, if_pos on] at zero
    have read := congrArg (fun v : PolyType => v.getLsbD i) zero
    simp [BitVec.lt_of_getLsbD on] at read

/-- While i bits are left the register holds the generator shifted up by i places. -/
def Aligned (dp : Dpoly) (i : Nat) : Prop := ofBitVec dp.word = generator * X ^ i

theorem aligned_shift {dp : Dpoly} {i : Nat} (h : Aligned dp (i + 1)) : Aligned (sr dp 1) i := by
  have low : dp.word.getLsbD 0 = false := by
    apply bit_inj
    rw [← coeff_ofBitVec, h, pow_succ, ← mul_assoc, coeff_mul_X_zero, bit_false]
  have shifted := ofBitVec_shiftRight_one dp.word low
  rw [← sr_one_word, h, pow_succ, ← mul_assoc, mul_comm X] at shifted
  exact mul_right_cancel₀ X_ne_zero shifted

theorem aligned_bit {dp : Dpoly} {i : Nat} (h : Aligned dp i) (k : Nat) (hi : i ≤ 16 + k) :
    bit (dp.h.getLsbD k) = generator.coeff (16 + k - i) := by
  have read : dp.h.getLsbD k = dp.word.getLsbD (16 + k) := by
    rw [Dpoly.word, BitVec.getLsbD_append, if_neg (by omega), Nat.add_sub_cancel_left]
  rw [read, ← coeff_ofBitVec, h, coeff_mul_X_pow', if_pos hi]

theorem start_aligned : Aligned ⟨poly, 0⟩ 16 := by
  rw [Aligned, Dpoly.word, ofBitVec_append]
  exact (congrArg (_ + ·) (ofBitVec_zero 16)).trans (add_zero _)

/-- One pass over a block clears it and moves its remainder into the next block. -/
theorem crcBits_reduces (i : Nat) (hi : i ≤ 16) (a b : PolyType) (dp : Dpoly)
    (aligned : Aligned dp i) (clear : ∀ k, i ≤ k → a.getLsbD k = false) :
    (crcBits i a b dp).1 = 0 ∧ (crcBits i a b dp).2.2 = sr dp i ∧
      X * generator ∣ ofBitVec (a ++ b) + ofBitVec (crcBits i a b dp).2.1 := by
  induction i generalizing a b dp with
  | zero =>
    have ha : a = 0 := BitVec.eq_of_getLsbD_eq (fun k _ => by simp [clear k (Nat.zero_le k)])
    refine ⟨ha, rfl, ?_⟩
    subst ha
    rw [crcBits, ofBitVec_append]
    simp [CharTwo.add_self_eq_zero]
  | succ i ih =>
    have next := aligned_shift aligned
    unfold crcBits
    split
    · rename_i on
      have clear' : ∀ k, i ≤ k → (a ^^^ dp.h).getLsbD k = false := by
        intro k hk
        apply bit_inj
        rw [BitVec.getLsbD_xor, bit_xor, aligned_bit aligned k (by omega)]
        rcases Nat.eq_or_lt_of_le hk with rfl | above
        · rw [(test_bit a i).mp on, show 16 + i - (i + 1) = 15 by omega, generator_top]
          decide
        · rw [clear k above, generator_above (by omega)]
          decide
      obtain ⟨zero, register, divides⟩ := ih (by omega) _ (b ^^^ dp.l) _ next clear'
      refine ⟨zero, register, ?_⟩
      have added : ofBitVec ((a ^^^ dp.h) ++ (b ^^^ dp.l)) =
          ofBitVec (a ++ b) + X * generator * X ^ i := by
        rw [ofBitVec_append, ofBitVec_xor, ofBitVec_xor, ofBitVec_append]
        have value : ofBitVec dp.h * X ^ 16 + ofBitVec dp.l = generator * X ^ (i + 1) := by
          rw [← ofBitVec_append]
          exact aligned
        linear_combination value
      refine congr_trans ?_ divides
      rw [added]
      exact congr_add_multiple (dvd_mul_right _ _)
    · rename_i off
      have clear' : ∀ k, i ≤ k → a.getLsbD k = false := by
        intro k hk
        rcases Nat.eq_or_lt_of_le hk with rfl | above
        · exact Bool.eq_false_iff.mpr (fun h => off ((test_bit a i).mpr h))
        · exact clear k above
      exact ih (by omega) a b _ next clear'

theorem register_restored : sl (sr ⟨poly, 0⟩ 16) 16 = ⟨poly, 0⟩ := by decide

/-- The loop over the blocks is division by X times the generator. -/
theorem crcBlocks_congr (a : PolyType) (rest : List PolyType) :
    X * generator ∣ ofBlocks (a :: rest) + ofBitVec (crcBlocks ⟨poly, 0⟩ a rest) := by
  induction rest generalizing a with
  | nil =>
    rw [ofBlocks_singleton, crcBlocks, CharTwo.add_self_eq_zero]
    exact dvd_zero _
  | cons b rest ih =>
    obtain ⟨_, register, divides⟩ := crcBits_reduces 16 (Nat.le_refl _) a b ⟨poly, 0⟩
      start_aligned (fun k hk => BitVec.getLsbD_of_ge a k hk)
    rw [crcBlocks, register, register_restored]
    refine congr_trans ?_ (ih _)
    have first : ofBlocks (a :: b :: rest) =
        ofBitVec (a ++ b) * X ^ (16 * rest.length) + ofBlocks rest := by
      rw [ofBitVec_append, ofBlocks, ofBlocks, List.length_cons, Nat.mul_succ, pow_add]
      ring
    rw [first, ofBlocks]
    exact congr_mul_add divides _ _

theorem calcCrc_eq (a : PolyType) (rest : List PolyType) :
    calcCrc ⟨poly, 0⟩ (a :: rest) = crcBlocks ⟨poly, 0⟩ a rest := by
  have start : sl ⟨poly, 0⟩ (32 - calcPolyLen ⟨poly, 0⟩) = ⟨poly, 0⟩ := by decide
  rw [calcCrc, start]

/-! The bytes of a message as a polynomial, in the order in which the division consumes them. -/

noncomputable def message (data : Bytes) : (ZMod 2)[X] := ofBlocks (toBlocks data)

theorem toBlocks_length (data : Bytes) : (toBlocks data).length = (data.length + 1) / 2 := by
  induction data using toBlocks.induct with
  | case1 => rfl
  | case2 a => simp [toBlocks]
  | case3 a b rest ih =>
    rw [toBlocks, List.length_cons, ih, List.length_cons, List.length_cons]
    omega

theorem toBlocks_padded (data : Bytes) (n : Nat) (h : n = data.length % 2 + 2) :
    toBlocks (data ++ List.replicate n 0) = toBlocks data ++ [0] := by
  induction data using toBlocks.induct with
  | case1 =>
    subst h
    decide
  | case2 a =>
    subst h
    rfl
  | case3 a b rest ih =>
    simp only [List.cons_append, toBlocks]
    rw [ih (by simp only [List.length_cons] at h; omega)]

theorem getCrc_eq (data : Bytes) : getCrc data = calcCrc ⟨poly, 0⟩ (toBlocks data ++ [0]) := by
  rw [getCrc, toBlocks_padded]
  omega

/-- get_crc is congruent to the message times X^16, modulo X times the generator. -/
theorem getCrc_congr (data : Bytes) :
    X * generator ∣ message data * X ^ 16 + ofBitVec (getCrc data) := by
  have value : ofBlocks (toBlocks data ++ [0]) = message data * X ^ 16 := by
    rw [ofBlocks_append, ofBlocks_singleton]
    simp [message]
  rw [getCrc_eq, ← value]
  cases hb : toBlocks data ++ [0] with
  | nil => simp at hb
  | cons a rest =>
    rw [calcCrc_eq]
    exact crcBlocks_congr a rest

theorem natDegree_modulus : (X * generator).natDegree = 16 := by
  have nonzero : generator ≠ 0 := fun h => generator_unit (by rw [h, coeff_zero])
  rw [natDegree_mul X_ne_zero nonzero, natDegree_X, generator_natDegree]

theorem modulus_dvd_shifted (f : (ZMod 2)[X]) : X * generator ∣ f * X ^ 16 ↔ generator ∣ f := by
  rw [pow_succ', ← mul_assoc, mul_comm f, mul_assoc, mul_dvd_mul_iff_left X_ne_zero, mul_comm,
    dvd_X_pow_mul generator_unit]

theorem modulus_dvd_word (v : PolyType) : X * generator ∣ ofBitVec v ↔ v = 0 := by
  constructor
  · intro h
    exact ofBitVec_eq_zero.mp
      (eq_zero_of_dvd_of_low (Nat.le_of_eq natDegree_modulus.symm) (degree_ofBitVec_lt v) h)
  · rintro rfl
    exact (ofBitVec_zero 16).symm ▸ dvd_zero _

theorem getCrc_eq_zero (data : Bytes) : getCrc data = 0 ↔ generator ∣ message data := by
  rw [← modulus_dvd_word, ← modulus_dvd_shifted]
  exact (congr_dvd_iff (getCrc_congr data)).symm

/-- check_crc accepts exactly the strings divisible by the generator. -/
theorem checkCrc_iff (data : Bytes) (crc : PolyType) :
    checkCrc data crc = true ↔ generator ∣ message (data ++ crcBytes crc) := by
  rw [checkCrc, beq_iff_eq]
  exact getCrc_eq_zero _

end DPS2.P2P
