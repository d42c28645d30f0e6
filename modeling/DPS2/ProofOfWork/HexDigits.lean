import DPS2.ProofOfWork.LeadingZeroes
import DPS2.Sha256.HexDigest

/-! What a difficulty asks of hexadecimal hashes. A hash is compared with the seed character by
character, and the highest bit of a difference of digits is always zero. -/
namespace DPS2.ProofOfWork.HashCash

open Sha256 (isHexDigit sha256)

/-- The hash function that the library is linked with. -/
def sha256Text (input : Bytes) : Bytes := (sha256 input).getD []

theorem digit_bit : ∀ c : Byte, isHexDigit c = true → c.getMsbD 0 = false := by
  decide

theorem byte_zero_iff (c : Byte) : c = 0 ↔ ∀ k < 8, c.getMsbD k = false := by
  constructor
  · rintro rfl k -
    simp
  · intro zeroes
    apply BitVec.eq_of_getMsbD_eq
    intro k inside
    rw [zeroes k inside]
    simp

/-- Eight leading zero bits for each leading zero byte. -/
theorem startsWithZeroes_bytes (q : Nat) (hash : Bytes) :
    StartsWithZeroes (8 * q) hash ↔ q ≤ hash.length ∧ ∀ i < q, hash.getD i 0 = 0 := by
  constructor
  · rintro ⟨long, zeroes⟩
    refine ⟨by omega, fun i low => (byte_zero_iff _).mpr fun k inside => ?_⟩
    have bit := zeroes (8 * i + k) (by omega)
    rwa [bitAt, Nat.mul_add_div (by norm_num), Nat.div_eq_of_lt inside, Nat.add_zero,
      Nat.mul_add_mod, Nat.mod_eq_of_lt inside] at bit
  · rintro ⟨long, zeroes⟩
    refine ⟨by omega, fun j low => ?_⟩
    exact (byte_zero_iff _).mp (zeroes (j / 8) (by omega)) (j % 8) (Nat.mod_lt j (by norm_num))

theorem startsWithZeroes_succ (n : Nat) (hash : Bytes) :
    StartsWithZeroes (n + 1) hash ↔
      StartsWithZeroes n hash ∧ n < hash.length * 8 ∧ bitAt hash n = false := by
  constructor
  · exact fun h => ⟨h.mono (Nat.le_succ n), h.1, h.2 n (Nat.lt_succ_self n)⟩
  · rintro ⟨⟨-, zeroes⟩, long, last⟩
    refine ⟨long, fun j low => ?_⟩
    rcases Nat.lt_succ_iff_lt_or_eq.mp low with earlier | rfl
    · exact zeroes j earlier
    · exact last

section Text

variable {text seed : Bytes}

theorem xorStrings_getD {i : Nat} (inside : i < text.length) :
    (xorStrings text seed).getD i 0 = text.getD i 0 ^^^ seed.getD i 0 := by
  simp [xorStrings, inside]

theorem xorStrings_length : (xorStrings text seed).length = text.length := by
  rw [xorStrings, List.length_mapIdx]

theorem take_eq_iff {q : Nat} (long : q ≤ text.length) (also : q ≤ seed.length) :
    text.take q = seed.take q ↔ ∀ i < q, text.getD i 0 = seed.getD i 0 := by
  constructor
  · intro same i low
    have here := congrArg (fun xs => xs.getD i 0) same
    simpa [List.getElem?_take, low] using here
  · intro same
    apply List.ext_getElem
    · rw [List.length_take_of_le long, List.length_take_of_le also]
    · intro i h1 h2
      have low : i < q := by
        rw [List.length_take_of_le long] at h1
        exact h1
      have here := same i low
      rw [List.getElem_take, List.getElem_take]
      simpa [show i < text.length by omega, show i < seed.length by omega] using here

theorem agrees_iff {q : Nat} (long : q ≤ text.length) (also : q ≤ seed.length) :
    StartsWithZeroes (8 * q) (xorStrings text seed) ↔ text.take q = seed.take q := by
  rw [startsWithZeroes_bytes, xorStrings_length, take_eq_iff long also]
  constructor
  · rintro ⟨-, zeroes⟩ i low
    have zero := zeroes i low
    rw [xorStrings_getD (by omega)] at zero
    exact BitVec.xor_eq_zero_iff.mp zero
  · intro same
    refine ⟨long, fun i low => ?_⟩
    rw [xorStrings_getD (by omega), same i low, BitVec.xor_self]
    rfl

/-- The bit after the last agreeing character is free. -/
theorem next_bit {q : Nat} (inside : q < text.length) (also : q < seed.length)
    (digits : ∀ c ∈ text, isHexDigit c = true) (seedDigits : ∀ c ∈ seed, isHexDigit c = true) :
    bitAt (xorStrings text seed) (8 * q) = false := by
  have first : (text.getD q 0).getMsbD 0 = false := by
    rw [List.getD_eq_getElem _ _ inside]
    exact digit_bit _ (digits _ (List.getElem_mem inside))
  have second : (seed.getD q 0).getMsbD 0 = false := by
    rw [List.getD_eq_getElem _ _ also]
    exact digit_bit _ (seedDigits _ (List.getElem_mem also))
  rw [bitAt, Nat.mul_div_cancel_left q (by norm_num), Nat.mul_mod_right, xorStrings_getD inside,
    BitVec.getMsbD_xor, first, second]
  rfl

end Text

/-- The seed is itself a hash. Its leading characters must come back, and one bit more than whole
characters costs nothing. -/
theorem checkSolution_characters {input solution : Bytes} (small : input.length < 2 ^ 29)
    (short : solution.length < 2 ^ 28) {q : Nat} (some : 0 < q) :
    let seed := sha256Text input
    let text := sha256Text (seed ++ solution)
    (q ≤ 64 → ((hashCash sha256Text (8 * q)).checkSolution seed solution = true ↔
      text.take q = seed.take q)) ∧
    (q < 64 → ((hashCash sha256Text (8 * q + 1)).checkSolution seed solution = true ↔
      text.take q = seed.take q)) := by
  obtain ⟨seed, hashed, length, digits⟩ := Sha256.sha256_text small
  have seedText : sha256Text input = seed := by rw [sha256Text, hashed, Option.getD_some]
  have below : (seed ++ solution).length < 2 ^ 29 := by
    rw [List.length_append]
    omega
  obtain ⟨text, again, textLength, textDigits⟩ := Sha256.sha256_text below
  have value : sha256Text (seed ++ solution) = text := by rw [sha256Text, again, Option.getD_some]
  dsimp only [hashCash]
  rw [seedText, value]
  constructor
  · intro within
    rw [checkSolution, value, countZeroes_iff _ (by omega), agrees_iff (by omega) (by omega)]
  · intro within
    rw [checkSolution, value, countZeroes_iff _ (by omega), startsWithZeroes_succ,
      agrees_iff (by omega) (by omega), xorStrings_length]
    refine and_iff_left ⟨by omega, next_bit (by omega) (by omega) textDigits digits⟩

theorem checkSolution_three_characters :
    let seed := sha256Text [97, 98, 99]
    (hashCash sha256Text 24).checkSolution seed [1] = true ↔
      (sha256Text (seed ++ [1])).take 3 = seed.take 3 :=
  (@checkSolution_characters [97, 98, 99] [1] (by decide) (by decide) 3 (by decide)).1 (by decide)

end DPS2.ProofOfWork.HashCash
