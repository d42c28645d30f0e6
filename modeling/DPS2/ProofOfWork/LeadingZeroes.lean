import DPS2.ProofOfWork.HashCash
import Mathlib.Tactic.IntervalCases

/-! What count_zeroes tests. Its mask is a signed char, so shifting it adds a bit on the left
and keeps the bits there were: within a byte it covers the current bit and all bits before it. -/
namespace DPS2.ProofOfWork.HashCash

open Codec

/-- The bit at position j, from the highest bit of the first byte. -/
def bitAt (hash : Bytes) (j : Nat) : Bool := (hash.getD (j / 8) 0).getMsbD (j % 8)

def StartsWithZeroes (difficulty : Nat) (hash : Bytes) : Prop :=
  difficulty ≤ hash.length * 8 ∧ ∀ j < difficulty, bitAt hash j = false

instance (difficulty : Nat) (hash : Bytes) : Decidable (StartsWithZeroes difficulty hash) :=
  inferInstanceAs (Decidable (_ ∧ _))

/-- The mask at bit k of a byte. -/
def maskAt (k : Nat) : Byte := (0x80#8).sshiftRight k

theorem maskAt_succ (k : Nat) : (maskAt k).sshiftRight 1 = maskAt (k + 1) :=
  BitVec.sshiftRight_add.symm

theorem highest_bit (i : Nat) : (0x80#8).getMsbD i = decide (i = 0) := by
  by_cases inside : i < 8
  · interval_cases i <;> rfl
  · rw [BitVec.getMsbD_of_ge _ _ (by omega)]
    exact (decide_eq_false (by omega)).symm

theorem maskAt_bit {k i : Nat} (inside : i < 8) : (maskAt k).getMsbD i = decide (i ≤ k) := by
  have sign : (0x80#8).msb = true := rfl
  unfold maskAt
  rw [BitVec.getMsbD_sshiftRight, sign, highest_bit, decide_eq_true inside, Bool.true_and]
  by_cases before : i < k
  · rw [if_pos before]
    exact (decide_eq_true (by omega)).symm
  · rw [if_neg before]
    exact decide_eq_decide.mpr (by omega)

theorem mask_zero_iff {c : Byte} {k : Nat} (inside : k < 8) :
    c &&& maskAt k = 0 ↔ ∀ i ≤ k, c.getMsbD i = false := by
  constructor
  · intro zero i low
    have bit := congrArg (fun b : Byte => b.getMsbD i) zero
    simpa [maskAt_bit (show i < 8 by omega), low] using bit
  · intro zeroes
    apply BitVec.eq_of_getMsbD_eq
    intro i bound
    rw [BitVec.getMsbD_and, maskAt_bit bound]
    by_cases low : i ≤ k
    · simp [zeroes i low]
    · simp [low]

theorem bitAt_byte {j k : Nat} (hash : Bytes) (inside : k < 8) :
    bitAt hash (j / 8 * 8 + k) = (hash.getD (j / 8) 0).getMsbD k := by
  have byte : (j / 8 * 8 + k) / 8 = j / 8 := by omega
  have bit : (j / 8 * 8 + k) % 8 = k := by omega
  rw [bitAt, byte, bit]

/-- After zeroes only, the test at position j is the test of its own bit. -/
theorem bit_tested {hash : Bytes} {j : Nat} (before : ∀ i < j, bitAt hash i = false) :
    hash.getD (j / 8) 0 &&& maskAt (j % 8) = 0 ↔ bitAt hash j = false := by
  rw [mask_zero_iff (Nat.mod_lt j (by decide))]
  constructor
  · intro zeroes
    exact zeroes (j % 8) (Nat.le_refl _)
  · intro zero k low
    rw [← bitAt_byte hash (by omega)]
    by_cases last : k = j % 8
    · have here : j / 8 * 8 + k = j := by omega
      rw [here]
      exact zero
    · exact before _ (by omega)

/-- The loop at position j has counted j zeroes, and its mask is the one for j. -/
theorem countZeroesFrom_iff {difficulty : Nat} {hash : Bytes} (bits j : Nat) (mask : Byte)
    (left : j + bits = hash.length * 8) (low : j < difficulty)
    (before : ∀ i < j, bitAt hash i = false) (shifted : j % 8 ≠ 0 → mask = maskAt (j % 8)) :
    countZeroesFrom difficulty hash bits j j mask = true ↔ StartsWithZeroes difficulty hash := by
  induction bits generalizing j mask with
  | zero =>
    constructor
    · intro found
      cases found
    · rintro ⟨long, _⟩
      omega
  | succ bits ih =>
    have current : (if j % 8 = 0 then 0x80 else mask) = maskAt (j % 8) := by
      split
      · rename_i first
        rw [first]
        rfl
      · rename_i inner
        exact shifted inner
    rw [countZeroesFrom]
    simp only [current, bit_tested before]
    by_cases zero : bitAt hash j = false
    · have upto : ∀ i < j + 1, bitAt hash i = false := by
        intro i hi
        rcases Nat.lt_succ_iff_lt_or_eq.mp hi with earlier | rfl
        · exact before i earlier
        · exact zero
      rw [if_pos zero]
      by_cases enough : j + 1 ≥ difficulty
      · rw [if_pos enough]
        exact ⟨fun _ => ⟨by omega, fun i hi => upto i (by omega)⟩, fun _ => rfl⟩
      · rw [if_neg enough]
        apply ih (j + 1) _ (by omega) (by omega) upto
        intro inner
        have next : (j + 1) % 8 = j % 8 + 1 := by omega
        rw [maskAt_succ, next]
    · rw [if_neg zero]
      constructor
      · intro found
        cases found
      · rintro ⟨_, zeroes⟩
        exact absurd (zeroes j low) zero

theorem StartsWithZeroes.mono {difficulty easier : Nat} {hash : Bytes} (le : easier ≤ difficulty)
    (h : StartsWithZeroes difficulty hash) : StartsWithZeroes easier hash :=
  ⟨Nat.le_trans le h.1, fun j low => h.2 j (Nat.lt_of_lt_of_le low le)⟩

theorem countZeroes_iff {difficulty : Nat} (hash : Bytes) (positive : 0 < difficulty) :
    countZeroes difficulty hash = true ↔ StartsWithZeroes difficulty hash :=
  countZeroesFrom_iff (hash.length * 8) 0 0 (Nat.zero_add _) positive
    (fun i low => absurd low (Nat.not_lt_zero i)) (fun inner => absurd rfl inner)

/-- count_zeroes is the test for leading zero bits, and an accepted solution stays accepted at
every smaller difficulty. -/
theorem countZeroes_leading_zeroes (difficulty : Nat) (positive : 0 < difficulty) :
    (∀ hash, countZeroes difficulty hash = true ↔ StartsWithZeroes difficulty hash) ∧
    ∀ sha256 seed solution easier, 0 < easier → easier ≤ difficulty →
      checkSolution sha256 difficulty seed solution = true →
      checkSolution sha256 easier seed solution = true := by
  refine ⟨fun hash => countZeroes_iff hash positive, ?_⟩
  intro sha256 seed solution easier some le accepted
  have zeroes := (countZeroes_iff _ positive).mp accepted
  exact (countZeroes_iff _ some).mpr (zeroes.mono le)

/-- Three zero bytes are enough for difficulty 24, and then for difficulty 9. -/
theorem echo_easier :
    countZeroes 24 [0, 0, 0] = true ∧ countZeroes 24 [0, 0, 1] = false ∧
      checkSolution echo 9 [0, 0, 0] [1] = true := by
  obtain ⟨test, easier⟩ := countZeroes_leading_zeroes 24 (by decide)
  refine ⟨(test [0, 0, 0]).mpr (by decide), ?_, ?_⟩
  · rw [Bool.eq_false_iff]
    exact fun accepted => absurd ((test [0, 0, 1]).mp accepted) (by decide)
  · exact easier echo [0, 0, 0] [1] 9 (by decide) (by decide) (echo_solves (by decide))

end DPS2.ProofOfWork.HashCash
