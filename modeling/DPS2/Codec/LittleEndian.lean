import Mathlib.Data.List.Basic
import Mathlib.Tactic.Ring

/-! Fixed-width little-endian numbers, and reading fields back out of a
concatenation. A field is given by its offset and its length. -/
namespace Codec

def encode : Nat → Nat → List (BitVec 8)
  | 0, _ => []
  | n + 1, x => BitVec.ofNat 8 x :: encode n (x / 256)

def decode : List (BitVec 8) → Nat
  | [] => 0
  | b :: bs => b.toNat + 256 * decode bs

@[simp] theorem encode_length (n x : Nat) : (encode n x).length = n := by
  induction n generalizing x with
  | zero => rfl
  | succ n ih => rw [encode, List.length_cons, ih]

theorem decode_encode (n x : Nat) : decode (encode n x) = x % 256 ^ n := by
  induction n generalizing x with
  | zero => simp [encode, decode, Nat.mod_one]
  | succ n ih =>
    rw [encode, decode, ih, BitVec.toNat_ofNat]
    change x % 256 + 256 * (x / 256 % 256 ^ n) = x % 256 ^ (n + 1)
    rw [Nat.pow_succ', Nat.mod_mul]

theorem decode_encode_of_lt {n x : Nat} (h : x < 256 ^ n) : decode (encode n x) = x := by
  rw [decode_encode, Nat.mod_eq_of_lt h]

theorem decode_lt (bs : List (BitVec 8)) : decode bs < 256 ^ bs.length := by
  induction bs with
  | nil => exact Nat.one_pos
  | cons b bs ih =>
    have byte := b.isLt
    rw [decode, List.length_cons, Nat.pow_succ]
    omega

section Slice

variable {α : Type}

def slice (offset n : Nat) (xs : List α) : List α := (xs.drop offset).take n

theorem slice_length {offset n : Nat} {xs : List α} (h : offset + n ≤ xs.length) :
    (slice offset n xs).length = n := by
  rw [slice, List.length_take, List.length_drop]
  omega

end Slice

end Codec
