import DPS2.P2P.Crc
import DPS2.Codec.LittleEndian

/-! The proof of work. A key is read as a little-endian number that grows by one each
round and starts again, one byte longer, before its last byte would overflow. -/
namespace DPS2.ProofOfWork

open Codec

/-- The proof-of-work interface: problems of type T, solutions of type S. -/
structure IProofOfWork (T S : Type) where
  solveProblem : T → S
  checkSolution : T → S → Bool

namespace HashCash

/-- One round of the loop of count_zeroes for each bit left; mask is a signed char. -/
def countZeroesFrom (difficulty : Nat) (hash : Bytes) :
    (bits j zeroes : Nat) → (mask : Byte) → Bool
  | 0, _, _, _ => false
  | bits + 1, j, zeroes, mask =>
      let mask := if j % 8 = 0 then 0x80 else mask
      if hash.getD (j / 8) 0 &&& mask = 0 then
        if zeroes + 1 ≥ difficulty then true
        else countZeroesFrom difficulty hash bits (j + 1) (zeroes + 1) (mask.sshiftRight 1)
      else false

def countZeroes (difficulty : Nat) (hash : Bytes) : Bool :=
  countZeroesFrom difficulty hash (hash.length * 8) 0 0 0

def xorStrings (s1 s2 : Bytes) : Bytes :=
  s1.mapIdx (fun j c => c ^^^ s2.getD j 0)

/-- Adds one with carry. -/
def increment : Bytes → Bytes
  | [] => []
  | c :: key => if c = 0xFF then 0 :: increment key else (c + 1) :: key

def grow (key : Bytes) : Option Bytes :=
  if key.getLast? = some 0xFF then
    if key.length = 16 then none else some (List.replicate (key.length + 1) 0)
  else some key

theorem increment_length (key : Bytes) : (increment key).length = key.length := by
  induction key with
  | nil => rfl
  | cons c key ih =>
    unfold increment
    split <;> simp [ih]

theorem byte_succ {c : Byte} (h : c ≠ 0xFF) : (c + 1).toNat = c.toNat + 1 := by
  have bound := c.isLt
  have below : c.toNat ≠ 255 := fun same => h (BitVec.eq_of_toNat_eq same)
  rw [BitVec.toNat_add]
  exact Nat.mod_eq_of_lt (by simp; omega)

theorem decode_increment (key : Bytes) (room : key.getLast? ≠ some 0xFF) (some : key ≠ []) :
    decode (increment key) = decode key + 1 := by
  induction key with
  | nil => exact absurd rfl some
  | cons c key ih =>
    unfold increment
    split
    · rename_i full
      cases key with
      | nil => exact absurd (congrArg Option.some full) room
      | cons d key =>
        rw [List.getLast?_cons_cons] at room
        have tail := ih room (by simp)
        simp only [decode, full] at tail ⊢
        rw [tail]
        simp
        omega
    · rename_i low
      simp only [decode, byte_succ low]
      omega

theorem decode_lt (key : Bytes) : decode key < 256 ^ key.length := by
  induction key with
  | nil => simp [decode]
  | cons c key ih =>
    have := c.isLt
    simp only [decode, List.length_cons, Nat.pow_succ]
    omega

theorem decode_zeroes (n : Nat) : decode (List.replicate n 0) = 0 := by
  induction n with
  | zero => rfl
  | succ n ih =>
    rw [List.replicate_succ, decode, ih]
    rfl

/-- A key of SolveProblem: 1 to 16 bytes. -/
structure Key where
  bytes : Bytes
  started : bytes ≠ []
  short : bytes.length ≤ 16

def Key.first : Key := ⟨[0], by decide, by decide⟩

theorem grow_bounds {key key' : Bytes} (short : key.length ≤ 16) (started : key ≠ [])
    (h : grow key = some key') :
    key' ≠ [] ∧ key'.length ≤ 16 ∧ key'.getLast? ≠ some 0xFF ∧
      256 ^ key.length + decode key ≤ 256 ^ key'.length + decode key' := by
  unfold grow at h
  split at h
  · split at h
    · contradiction
    · cases Option.some.inj h
      have bound := decode_lt key
      refine ⟨by simp, by simp; omega, by simp [List.getLast?_replicate], ?_⟩
      rw [decode_zeroes, List.length_replicate, Nat.pow_succ]
      omega
  · rename_i room
    cases Option.some.inj h
    exact ⟨started, short, room, Nat.le_refl _⟩

def Key.next (key : Key) : Option Key :=
  match h : grow key.bytes with
  | none => none
  | some key' => some
      { bytes := increment key'
        started := by
          have bounds := grow_bounds key.short key.started h
          rw [← List.length_pos_iff, increment_length]
          exact List.length_pos_iff.mpr bounds.1
        short := by
          rw [increment_length]
          exact (grow_bounds key.short key.started h).2.1 }

/-- Longer keys rank above shorter ones, and greater numbers above smaller ones. -/
def Key.rank (key : Key) : Nat := 256 ^ key.bytes.length + decode key.bytes

theorem Key.rank_lt (key : Key) : key.rank < 2 * 256 ^ 16 := by
  have bound := decode_lt key.bytes
  have length : 256 ^ key.bytes.length ≤ 256 ^ 16 := Nat.pow_le_pow_right (by decide) key.short
  unfold rank
  omega

theorem Key.next_rank {key key' : Key} (h : key.next = some key') : key.rank < key'.rank := by
  unfold next at h
  split at h
  · contradiction
  · rename_i grown hgrow
    cases Option.some.inj h
    obtain ⟨started, _, room, below⟩ := grow_bounds key.short key.started hgrow
    simp only [rank, increment_length, decode_increment grown room started]
    omega

section Search

variable (sha256 : Bytes → Bytes) (difficulty : Nat)

def checkSolution (seed solution : Bytes) : Bool :=
  countZeroes difficulty (xorStrings (sha256 (seed ++ solution)) seed)

def solveFrom (seed : Bytes) (key : Key) : Bytes :=
  match _h : key.next with
  | none => key.bytes
  | some key' =>
      if checkSolution sha256 difficulty seed key'.bytes then key'.bytes
      else solveFrom seed key'
termination_by 2 * 256 ^ 16 - key.rank
decreasing_by
  have := Key.next_rank ‹key.next = some key'›
  have := key'.rank_lt
  omega

def solveProblem (seed : Bytes) : Bytes := solveFrom sha256 difficulty seed Key.first

theorem solveProblem_one (seed : Bytes)
    (found : checkSolution sha256 difficulty seed [1] = true) :
    solveProblem sha256 difficulty seed = [1] := by
  have next : Key.first.next = some ⟨[1], by decide, by decide⟩ := rfl
  unfold solveProblem solveFrom
  split
  · rename_i last
    rw [next] at last
    contradiction
  · rename_i key' h
    cases Option.some.inj (next.symm.trans h)
    rw [if_pos found]

end Search

/- Strings that start with zero bytes. -/

theorem mask_zero (c mask : Byte) (h : c = 0) : c &&& mask = 0 := by
  rw [h]
  exact BitVec.zero_and

theorem countZeroesFrom_zero {difficulty : Nat} {hash : Bytes}
    (zero : ∀ j < difficulty, hash.getD (j / 8) 0 = 0) (bits j : Nat) (mask : Byte)
    (low : j < difficulty) (enough : difficulty ≤ j + bits) :
    countZeroesFrom difficulty hash bits j j mask = true := by
  induction bits generalizing j mask with
  | zero => omega
  | succ bits ih =>
    have here : ∀ mask, hash.getD (j / 8) 0 &&& mask = 0 := fun mask => mask_zero _ _ (zero j low)
    simp only [countZeroesFrom, here, if_true]
    split
    · rfl
    · exact ih (j + 1) _ (by omega) (by omega)

/-- A key is accepted if the hash starts with the first three bytes of the seed. -/
theorem checkSolution_start {sha256 : Bytes → Bytes} {seed key : Bytes} (long : 3 ≤ seed.length)
    (same : (sha256 (seed ++ key)).take 3 = seed.take 3) :
    checkSolution sha256 24 seed key = true := by
  have size : 3 ≤ (sha256 (seed ++ key)).length := by
    have equal := congrArg List.length same
    rw [List.length_take, List.length_take] at equal
    omega
  apply countZeroesFrom_zero
  · intro j low
    have inside : j / 8 < seed.length := by omega
    have left : j / 8 < (sha256 (seed ++ key)).length := by omega
    have equal := congrArg (·[j / 8]?) same
    simp only [List.getElem?_take_of_lt (show j / 8 < 3 by omega),
      List.getElem?_eq_getElem inside, List.getElem?_eq_getElem left, Option.some.injEq] at equal
    rw [List.getD_eq_getElem _ _ (by simpa [xorStrings] using left)]
    simp only [xorStrings, List.getElem_mapIdx, List.getD_eq_getElem _ _ inside, equal]
    exact BitVec.xor_self
  · decide
  · simp only [xorStrings, List.length_mapIdx]
    omega

/-- A hash function without collisions, on which the first key solves every problem. -/
def echo (input : Bytes) : Bytes := input ++ [0x61]

theorem echo_solves {seed : Bytes} (long : 3 ≤ seed.length) :
    checkSolution echo 24 seed [1] = true :=
  checkSolution_start long (by rw [echo, List.append_assoc, List.take_append_of_le_length long])

theorem echo_solved {seed : Bytes} (long : 3 ≤ seed.length) :
    solveProblem echo 24 seed = [1] := solveProblem_one echo 24 seed (echo_solves long)

def strip (b : Byte) : Nat → Bytes → Option Bytes
  | 0, x => some x
  | _ + 1, [] => none
  | n + 1, c :: x => if c = b then strip b n x else none

theorem strip_eq_some {b : Byte} {n : Nat} {x rest : Bytes} (h : strip b n x = some rest) :
    x = List.replicate n b ++ rest := by
  induction n generalizing x with
  | zero => exact Option.some.inj h
  | succ n ih =>
    cases x with
    | nil => contradiction
    | cons c x =>
      unfold strip at h
      split at h
      · rename_i same
        rw [same, ih h]
        rfl
      · contradiction

/-- Another such function, which stores 1600 equal bytes at the front as one. -/
def squeeze (input : Bytes) : Bytes :=
  match strip (input.headD 0) 1600 input with
  | some rest => input.headD 0 :: rest ++ [1]
  | none => input ++ [0]

theorem squeeze_injective : Function.Injective squeeze := by
  intro x y same
  unfold squeeze at same
  split at same
  · rename_i rest stripped
    split at same
    · rename_i rest' stripped'
      obtain ⟨head, tail⟩ := List.cons.inj (List.append_cancel_right same)
      rw [strip_eq_some stripped, strip_eq_some stripped', head, tail]
    · exact absurd (List.append_inj_right' same rfl) (by decide)
  · split at same
    · exact absurd (List.append_inj_right' same rfl) (by decide)
    · exact List.append_cancel_right same

/-- A third one, as short, of which all hashes start alike: the first key solves every problem. -/
def stamp (input : Bytes) : Bytes := List.replicate 3 0x61 ++ squeeze input

theorem stamp_injective : Function.Injective stamp :=
  fun _ _ same => squeeze_injective (List.append_cancel_left same)

theorem stamp_solves (input : Bytes) : checkSolution stamp 24 (stamp input) [1] = true :=
  checkSolution_start (by simp [stamp]) rfl

end HashCash

/-- The proof-of-work handler of the application. -/
def hashCash (sha256 : Bytes → Bytes) (difficulty : Nat) : IProofOfWork Bytes Bytes where
  solveProblem := HashCash.solveProblem sha256 difficulty
  checkSolution := HashCash.checkSolution sha256 difficulty

end DPS2.ProofOfWork
