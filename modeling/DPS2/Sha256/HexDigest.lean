import DPS2.Sha256.Context

/-! The function sha256 on strings, and its hexadecimal text. -/
namespace DPS2.Sha256

open Standard

/-- The format %02x. -/
def hexDigit (x : Nat) : Byte := BitVec.ofNat 8 (if x < 10 then 48 + x else 87 + x)

def hex (digest : Bytes) : Bytes :=
  digest.flatMap fun b => [hexDigit (b.toNat / 16), hexDigit (b.toNat % 16)]

/-- The string's own terminating zero can be read as well. -/
def sha256 (input : Bytes) : Option Bytes := do
  let ctx ← update (init blank) (input ++ [0])
    (BitVec.ofNat 32 input.length)
  let digest ← final ctx
  some (hex digest)

section Hex

def isHexDigit (c : Byte) : Bool := (48 ≤ c && c ≤ 57) || (97 ≤ c && c ≤ 102)

theorem hexDigit_isHexDigit : ∀ x < 16, isHexDigit (hexDigit x) = true := by
  decide

theorem hexDigit_injective : ∀ x < 16, ∀ y < 16, hexDigit x = hexDigit y → x = y := by
  decide

theorem hex_length (digest : Bytes) : (hex digest).length = 2 * digest.length := by
  induction digest with
  | nil => rfl
  | cons b digest ih =>
    rw [hex, List.flatMap_cons, List.length_append, ← hex, ih, List.length_cons]
    exact (Nat.add_comm _ _).trans (Nat.mul_succ 2 _).symm

theorem hex_digits (digest : Bytes) : ∀ c ∈ hex digest, isHexDigit c = true := by
  intro c inside
  obtain ⟨b, -, digit⟩ := List.mem_flatMap.mp inside
  have bound := b.isLt
  rcases List.mem_pair.mp digit with rfl | rfl
  · exact hexDigit_isHexDigit _ (by omega)
  · exact hexDigit_isHexDigit _ (by omega)

theorem hex_injective : Function.Injective hex := by
  intro xs
  induction xs with
  | nil =>
    intro ys same
    cases ys with
    | nil => rfl
    | cons y ys => cases same
  | cons x xs ih =>
    intro ys same
    cases ys with
    | nil => cases same
    | cons y ys =>
      have hx := x.isLt
      have hy := y.isLt
      obtain ⟨high, low, rest⟩ : hexDigit (x.toNat / 16) = hexDigit (y.toNat / 16) ∧
          hexDigit (x.toNat % 16) = hexDigit (y.toNat % 16) ∧ hex xs = hex ys := by
        simpa only [hex, List.flatMap_cons, List.cons_append, List.nil_append,
          List.cons.injEq] using same
      have quotient := hexDigit_injective _ (by omega) _ (by omega) high
      have remainder := hexDigit_injective _ (by omega) _ (by omega) low
      rw [ih rest, BitVec.eq_of_toNat_eq (show x.toNat = y.toNat by omega)]

end Hex

section String

theorem sha256_digest {input : Bytes} (short : input.length < 2 ^ 29) :
    sha256 input = some (hex (digest input)) := by
  have len : (BitVec.ofNat 32 input.length).toNat = input.length := by
    rw [BitVec.toNat_ofNat]
    omega
  have start : Ready (init blank) := init_ready List.length_replicate
  obtain ⟨after, updated, absorbed⟩ := @update_absorbs _ (input ++ [0])
    (BitVec.ofNat 32 input.length) start (by rw [len]; simp) (by rw [len]; omega)
  rw [len, List.take_left' rfl] at absorbed
  rw [sha256, updated, Option.bind_eq_bind, Option.bind_some, final_absorbs absorbed,
    (wordPadding_standard (by omega)).mpr short]
  rfl

theorem hex_digest_length (input : Bytes) : (hex (digest input)).length = 64 := by
  rw [hex_length, digest, output_length]

theorem sha256_text {input : Bytes} (short : input.length < 2 ^ 29) :
    ∃ text, sha256 input = some text ∧ text.length = 64 ∧ ∀ c ∈ text, isHexDigit c = true :=
  ⟨hex (digest input), sha256_digest short, hex_digest_length input, hex_digits _⟩

/-- sha256 is the standard's digest in lower-case hexadecimal, 64 digits of which determine it. -/
theorem sha256_standard {input : Bytes} (short : input.length < 2 ^ 29) :
    ∃ text, sha256 input = some text ∧ text = hex (digest input) ∧ text.length = 64 ∧
      (∀ c ∈ text, isHexDigit c = true) ∧
      ∀ other, other.length < 2 ^ 29 → sha256 other = some text → digest other = digest input := by
  refine ⟨_, sha256_digest short, rfl, hex_digest_length input, hex_digits _, ?_⟩
  intro other below same
  rw [sha256_digest below] at same
  exact hex_injective (Option.some.inj same)

theorem sha256_abc : ∃ text, sha256 [97, 98, 99] = some text ∧
    text = hex (digest [97, 98, 99]) ∧ text.length = 64 := by
  obtain ⟨text, result, same, length, -⟩ := @sha256_standard [97, 98, 99] (by decide)
  exact ⟨text, result, same, length⟩

example : (sha256 [97, 98, 99]).map (List.take 8) = some [98, 97, 55, 56, 49, 54, 98, 102] := by
  decide +kernel

end String

end DPS2.Sha256
