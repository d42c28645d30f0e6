import DPS2.ProofOfWork.HashCash
import DPS2.Lts.Search
import Mathlib.Data.List.Nodup

/-! The keys that SolveProblem goes through, and the one that it returns. -/
namespace DPS2.ProofOfWork.HashCash

open Codec Lts

/-- The keys of n bytes that are tested: the numbers from 1 to the first with the last byte 0xFF. -/
def keysOfLength (n : Nat) : List Bytes := (List.range' 1 (255 * 256 ^ (n - 1))).map (encode n)

def allKeys : List Bytes := (List.range' 1 16).flatMap keysOfLength

def nextKey (key : Bytes) : Option Bytes := (grow key).map increment

section Loop

variable (sha256 : Bytes → Bytes) (difficulty : Nat) (seed : Bytes)

/-- One iteration of the loop of SolveProblem, with a log of the keys it tests. -/
def solveRound (s : Search Bytes) : Search Bytes :=
  match grow s.key with
  | none => { s with returned := some s.key }
  | some grown =>
      let key := increment grown
      let hash := xorStrings (sha256 (seed ++ key)) seed
      { key
        tested := s.tested ++ [key]
        returned := if countZeroes difficulty hash then some key else none }

theorem solveRound_next :
    solveRound sha256 difficulty seed =
      Search.next nextKey (checkSolution sha256 difficulty seed) := by
  funext s
  unfold solveRound Search.next nextKey
  cases grow s.key <;> rfl

end Loop

section Keys

theorem increment_encode (n v : Nat) : increment (encode n v) = encode n (v + 1) := by
  induction n generalizing v with
  | zero => rfl
  | succ n ih =>
    have byte : BitVec.ofNat 8 (v + 1) = BitVec.ofNat 8 v + 1 := BitVec.ofNat_add v 1
    rw [encode, encode, increment]
    split
    · rename_i full
      have low : v % 256 = 255 := by simpa using congrArg BitVec.toNat full
      have carry : (v + 1) / 256 = v / 256 + 1 := by omega
      rw [ih, carry, byte, full]
      rfl
    · rename_i room
      have low : v % 256 ≠ 255 := fun full => room (BitVec.eq_of_toNat_eq (by simpa using full))
      have same : (v + 1) / 256 = v / 256 := by omega
      rw [same, byte]

theorem encode_getLast (n v : Nat) :
    (encode (n + 1) v).getLast? = some (BitVec.ofNat 8 (v / 256 ^ n)) := by
  induction n generalizing v with
  | zero => simp [encode]
  | succ n ih =>
    rw [encode, encode, List.getLast?_cons_cons, ← encode, ih, Nat.div_div_eq_div_mul,
      Nat.pow_succ']

theorem encode_zeroes (n : Nat) : encode n 0 = List.replicate n 0 := by
  induction n with
  | zero => rfl
  | succ n ih =>
    rw [encode, Nat.zero_div, ih]
    rfl

/-- Before the last byte is 0xFF the key is incremented. -/
theorem nextKey_encode {n v : Nat} (room : v < 255 * 256 ^ n) :
    nextKey (encode (n + 1) v) = some (encode (n + 1) (v + 1)) := by
  have low : v / 256 ^ n < 255 := Nat.div_lt_of_lt_mul (by rwa [Nat.mul_comm])
  have last : (encode (n + 1) v).getLast? ≠ some 0xFF := by
    rw [encode_getLast]
    intro full
    have byte := congrArg BitVec.toNat (Option.some.inj full)
    rw [BitVec.toNat_ofNat, Nat.mod_eq_of_lt (by omega)] at byte
    have : (255 : Nat) = v / 256 ^ n := byte.symm
    omega
  have same : grow (encode (n + 1) v) = some (encode (n + 1) v) := if_neg last
  rw [nextKey, same, Option.map_some, increment_encode]

theorem grow_top (n : Nat) :
    grow (encode (n + 1) (255 * 256 ^ n)) =
      if n = 15 then none else some (List.replicate (n + 2) 0) := by
  have last : (encode (n + 1) (255 * 256 ^ n)).getLast? = some 0xFF := by
    rw [encode_getLast, Nat.mul_div_cancel _ (Nat.pow_pos (by decide))]
    rfl
  simp [grow, last]

theorem nextKey_longest : nextKey (encode 16 (255 * 256 ^ 15)) = none := by
  rw [nextKey, grow_top 15]
  rfl

/-- A key that cannot be incremented is followed by what follows zero in one byte more. -/
theorem nextKey_longer {n : Nat} (short : n ≠ 15) :
    nextKey (encode (n + 1) (255 * 256 ^ n)) = nextKey (encode (n + 2) 0) := by
  have zero : nextKey (encode (n + 2) 0) = some (encode (n + 2) (0 + 1)) :=
    nextKey_encode (Nat.mul_pos (by decide) (Nat.pow_pos (by decide)))
  rw [zero, ← increment_encode, nextKey, grow_top, if_neg short, encode_zeroes]
  rfl

/-- The keys of one length, from the number v on. -/
theorem unfolds_length {n : Nat} {longer : List Bytes}
    (rest : Unfolds nextKey (encode (n + 1) (255 * 256 ^ n)) longer) (left v : Nat)
    (count : v + left = 255 * 256 ^ n) :
    Unfolds nextKey (encode (n + 1) v)
      ((List.range' (v + 1) left).map (encode (n + 1)) ++ longer) := by
  induction left generalizing v with
  | zero =>
    rw [Nat.add_zero] at count
    rw [count]
    exact rest
  | succ left ih =>
    rw [List.range'_succ, List.map_cons, List.cons_append]
    exact .more (nextKey_encode (by omega)) (ih (v + 1) (by omega))

theorem unfolds_lengths (left n : Nat) (count : n + left = 15) :
    Unfolds nextKey (encode (n + 1) 0) ((List.range' (n + 1) (left + 1)).flatMap keysOfLength) := by
  induction left generalizing n with
  | zero =>
    cases count
    have top : Unfolds nextKey (encode (15 + 1) (255 * 256 ^ 15)) [] := .last nextKey_longest
    exact unfolds_length top (255 * 256 ^ 15) 0 (Nat.zero_add _)
  | succ left ih =>
    have top := (ih (n + 1) (by omega)).congr (nextKey_longer (by omega))
    rw [List.range'_succ, List.flatMap_cons]
    exact unfolds_length top (255 * 256 ^ n) 0 (Nat.zero_add _)

theorem unfolds_allKeys : Unfolds nextKey [0] allKeys := unfolds_lengths 15 0 rfl

end Keys

section Answer

theorem keysOfLength_length {n : Nat} {key : Bytes} (h : key ∈ keysOfLength n) :
    key.length = n := by
  obtain ⟨v, _, rfl⟩ := List.mem_map.mp h
  exact encode_length n v

theorem keysOfLength_nodup {n : Nat} (positive : 0 < n) : (keysOfLength n).Nodup := by
  obtain ⟨n, rfl⟩ := Nat.exists_eq_succ_of_ne_zero (Nat.ne_of_gt positive)
  have small : ∀ v ∈ List.range' 1 (255 * 256 ^ n), v < 256 ^ (n + 1) := by
    intro v member
    have bounds := List.mem_range'_1.mp member
    have room : 0 < 256 ^ n := Nat.pow_pos (by decide)
    rw [Nat.pow_succ]
    omega
  refine List.Nodup.map_on (fun v hv w hw same => ?_) List.nodup_range'
  rw [← decode_encode_of_lt (small v hv), same, decode_encode_of_lt (small w hw)]

theorem allKeys_nodup : allKeys.Nodup := by
  refine List.nodup_flatMap.mpr ⟨fun n member => ?_, ?_⟩
  · exact keysOfLength_nodup (List.mem_range'_1.mp member).1
  · refine List.Pairwise.imp (fun {m n} different key left right => different ?_) List.nodup_range'
    rw [← keysOfLength_length left, keysOfLength_length right]

theorem allKeys_ne_nil : allKeys ≠ [] := by
  intro empty
  have unfolds := unfolds_allKeys
  rw [empty] at unfolds
  cases unfolds with
  | last ended => exact absurd ended (by decide)

theorem next_bytes (key : Key) : key.next.map Key.bytes = nextKey key.bytes := by
  unfold Key.next nextKey
  split
  · rename_i ended
    rw [ended]
    rfl
  · rename_i grown found
    exact (congrArg (Option.map increment) found).symm

/-- The recursion of solveProblem is the same search. -/
theorem solveFrom_eq (sha256 : Bytes → Bytes) (difficulty : Nat) (seed : Bytes) {keys : List Bytes}
    (key : Key) (unfolds : Unfolds nextKey key.bytes keys) :
    solveFrom sha256 difficulty seed key =
      (keys.find? (checkSolution sha256 difficulty seed)).getD (keys.getLastD key.bytes) := by
  generalize at_ : key.bytes = bytes at unfolds
  induction unfolds generalizing key with
  | last ended =>
    rw [← at_, ← next_bytes, Option.map_eq_none_iff] at ended
    unfold solveFrom
    split
    · exact at_
    · rename_i key' found
      rw [ended] at found
      contradiction
  | @more bytes bytes' keys found rest ih =>
    rw [← at_, ← next_bytes, Option.map_eq_some_iff] at found
    obtain ⟨key', next, rfl⟩ := found
    unfold solveFrom
    split
    · rename_i ended
      rw [next] at ended
      contradiction
    · rename_i key'' next'
      cases Option.some.inj (next.symm.trans next')
      rw [List.find?_cons, List.getLastD_cons]
      split
      · rename_i accepted
        rw [accepted]
        rfl
      · rename_i rejected
        rw [Bool.eq_false_iff.mpr rejected]
        exact ih key' rfl

/-- SolveProblem ends. It tests the keys in their order up to the first that CheckSolution accepts
and returns it; if there is none it tests them all and returns the last. -/
theorem solveProblem_search (sha256 : Bytes → Bytes) (difficulty : Nat) (seed : Bytes) :
    allKeys.Nodup ∧
    Ends (solveRound sha256 difficulty seed) Search.result (Search.start [0])
      (allKeys.takeWhile (fun key => !checkSolution sha256 difficulty seed key) ++
          (allKeys.find? (checkSolution sha256 difficulty seed)).toList,
        solveProblem sha256 difficulty seed) ∧
    (allKeys.find? (checkSolution sha256 difficulty seed) =
        some (solveProblem sha256 difficulty seed) ∨
      (∀ key ∈ allKeys, checkSolution sha256 difficulty seed key = false) ∧
        allKeys.getLast? = some (solveProblem sha256 difficulty seed)) := by
  have answer : solveProblem sha256 difficulty seed =
      (allKeys.find? (checkSolution sha256 difficulty seed)).getD (allKeys.getLastD [0]) :=
    solveFrom_eq sha256 difficulty seed Key.first unfolds_allKeys
  refine ⟨allKeys_nodup, ?_, ?_⟩
  · rw [solveRound_next, answer]
    exact unfolds_allKeys.search_ends []
  · cases found : allKeys.find? (checkSolution sha256 difficulty seed) with
    | some key =>
      left
      rw [answer, found]
      rfl
    | none =>
      right
      refine ⟨fun key member => ?_, ?_⟩
      · simpa using List.find?_eq_none.mp found key member
      · rw [answer, found, Option.getD_none, List.getLastD_eq_getLast?]
        cases last : allKeys.getLast? with
        | some key => rfl
        | none => exact absurd (List.getLast?_eq_none_iff.mp last) allKeys_ne_nil

end Answer

end DPS2.ProofOfWork.HashCash
