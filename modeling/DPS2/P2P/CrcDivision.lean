import DPS2.P2P.Crc

/-! The division as calc_crc runs it, in place on the buffer of get_crc, and the remainder
that it leaves in the last block. -/
namespace DPS2.P2P

open Polynomial Gf2

/-- The temporary buffer of get_crc. -/
def crcBuffer (data : Bytes) : List PolyType :=
  let nBlocks := (data.length + 2 - 1) / 2 + 1
  let tempLen := nBlocks * 2
  toBlocks (data ++ List.replicate (tempLen - data.length) 0)

structure CrcLoop where
  data : List PolyType
  dp : Dpoly

/-- Before the first iteration, the polynomial shifted to the top of the register. -/
def CrcLoop.start (data : Bytes) : CrcLoop :=
  ⟨crcBuffer data, sl ⟨poly, 0⟩ (32 - calcPolyLen ⟨poly, 0⟩)⟩

/-- The iteration of the outer loop for block q. -/
def CrcLoop.iterate (s : CrcLoop) (q : Nat) : CrcLoop :=
  let (a, b, dp) := crcBits 16 (s.data.getD q 0) (s.data.getD (q + 1) 0) s.dp
  ⟨(s.data.set q a).set (q + 1) b, sl dp 16⟩

def CrcLoop.after (s : CrcLoop) : Nat → CrcLoop
  | 0 => s
  | q + 1 => (s.after q).iterate q

theorem crcBuffer_eq (data : Bytes) : crcBuffer data = toBlocks data ++ [0] := by
  unfold crcBuffer
  dsimp only
  rw [toBlocks_padded]
  omega

theorem start_dp (data : Bytes) : (CrcLoop.start data).dp = ⟨poly, 0⟩ := by
  change sl ⟨poly, 0⟩ (32 - calcPolyLen ⟨poly, 0⟩) = ⟨poly, 0⟩
  decide

/-- One iteration clears its block, changes the next one and restores the register. -/
theorem iterate_block (done : List PolyType) (a b : PolyType) (rest : List PolyType) :
    CrcLoop.iterate ⟨done ++ a :: b :: rest, ⟨poly, 0⟩⟩ done.length =
      ⟨done ++ 0 :: (crcBits 16 a b ⟨poly, 0⟩).2.1 :: rest, ⟨poly, 0⟩⟩ := by
  obtain ⟨zero, register, _⟩ := crcBits_reduces 16 (Nat.le_refl _) a b ⟨poly, 0⟩ start_aligned
    (fun k above => BitVec.getLsbD_of_ge a k above)
  have block : (done ++ a :: b :: rest).getD done.length 0 = a := by simp
  have next : (done ++ a :: b :: rest).getD (done.length + 1) 0 = b := by simp
  unfold CrcLoop.iterate
  dsimp only
  rw [block, next, zero, register, register_restored]
  simp

/-- The blocks that have been processed are zero, the register is as at the start, and what is
left of the buffer has the remainder of the whole. -/
theorem after_iterations (data : Bytes) (q : Nat) (inside : q < (crcBuffer data).length) :
    ∃ (a : PolyType) (rest : List PolyType),
      (CrcLoop.start data).after q = ⟨List.replicate q 0 ++ a :: rest, ⟨poly, 0⟩⟩ ∧
      q + 1 + rest.length = (crcBuffer data).length ∧
      crcBlocks ⟨poly, 0⟩ a rest = getCrc data := by
  induction q with
  | zero =>
    cases buffer : crcBuffer data with
    | nil =>
      rw [buffer] at inside
      contradiction
    | cons a rest =>
      refine ⟨a, rest, ?_, by simp [Nat.add_comm], ?_⟩
      · have start : CrcLoop.start data = ⟨crcBuffer data, (CrcLoop.start data).dp⟩ := rfl
        rw [CrcLoop.after, start, start_dp, buffer]
        rfl
      · rw [← calcCrc_eq, ← buffer, crcBuffer_eq, getCrc_eq]
  | succ q ih =>
    obtain ⟨a, rest, state, length, remainder⟩ := ih (by omega)
    cases rest with
    | nil =>
      rw [List.length_nil] at length
      omega
    | cons b rest =>
      have step := iterate_block (List.replicate q 0) a b rest
      rw [List.length_replicate] at step
      refine ⟨(crcBits 16 a b ⟨poly, 0⟩).2.1, rest, ?_, ?_, ?_⟩
      · rw [CrcLoop.after, state, step, List.replicate_succ', List.append_assoc]
        rfl
      · rw [List.length_cons] at length
        omega
      · obtain ⟨_, register, _⟩ := crcBits_reduces 16 (Nat.le_refl _) a b ⟨poly, 0⟩
          start_aligned (fun k above => BitVec.getLsbD_of_ge a k above)
        rw [crcBlocks, register, register_restored] at remainder
        exact remainder

theorem modulus_monic : (X * generator).Monic := by
  refine monic_X.mul ?_
  rw [Monic, leadingCoeff, generator_natDegree, generator_top]

/-- get_crc is the remainder of the message times X^16 modulo X times the generator, and each
iteration of calc_crc leaves its block zero and the register as it was. -/
theorem getCrc_division (data : Bytes) :
    generator.natDegree = 15 ∧
    ofBitVec (getCrc data) = message data * X ^ 16 % (X * generator) ∧
    (∀ q, q + 1 < (crcBuffer data).length →
      (∀ p ≤ q, ((CrcLoop.start data).after (q + 1)).data[p]? = some 0) ∧
      ((CrcLoop.start data).after (q + 1)).dp = (CrcLoop.start data).dp) ∧
    ((CrcLoop.start data).after ((crcBuffer data).length - 1)).data.getLast? =
      some (getCrc data) := by
  refine ⟨generator_natDegree, ?_, ?_, ?_⟩
  · obtain ⟨quotient, division⟩ := getCrc_congr data
    have whole : ofBitVec (getCrc data) + X * generator * quotient = message data * X ^ 16 := by
      rw [← division, add_comm, add_assoc, CharTwo.add_self_eq_zero, add_zero]
    have small : (ofBitVec (getCrc data)).degree < (X * generator).degree := by
      rw [degree_eq_natDegree modulus_monic.ne_zero, natDegree_modulus]
      exact degree_ofBitVec_lt _
    rw [← modByMonic_eq_mod _ modulus_monic]
    exact (div_modByMonic_unique quotient _ modulus_monic ⟨whole, small⟩).2.symm
  · intro q inside
    obtain ⟨a, rest, state, _, _⟩ := after_iterations data (q + 1) inside
    rw [state, start_dp]
    refine ⟨fun p before => ?_, rfl⟩
    have processed : p < (List.replicate (q + 1) (0 : PolyType)).length := by
      rw [List.length_replicate]
      omega
    rw [List.getElem?_append_left processed, List.getElem?_replicate,
      if_pos (Nat.lt_succ_of_le before)]
  · have some_ : 0 < (crcBuffer data).length := by
      rw [crcBuffer_eq, List.length_append]
      exact Nat.succ_pos _
    obtain ⟨a, rest, state, length, remainder⟩ :=
      after_iterations data ((crcBuffer data).length - 1) (by omega)
    have last : rest = [] := List.length_eq_zero_iff.mp (by omega)
    rw [last, crcBlocks] at remainder
    rw [state, last, remainder]
    exact List.getLast?_append_of_ne_nil _ (List.cons_ne_nil _ _)

end DPS2.P2P
