import Mathlib.Data.List.Basic

/-! Hashing a message block by block. What is kept between two pieces of a message is the state
after all its whole blocks and the rest that does not fill a block. -/
namespace BlockHash

variable {S α : Type}

/-- The state after k blocks of n elements from the front. -/
def compressBlocks (compress : S → List α → S) (n : Nat) : Nat → S → List α → S
  | 0, s, _ => s
  | k + 1, s, xs => compressBlocks compress n k (compress s (xs.take n)) (xs.drop n)

/-- The state after all whole blocks, and the rest. -/
def absorb (compress : S → List α → S) (n : Nat) (s : S) (xs : List α) : S × List α :=
  (compressBlocks compress n (xs.length / n) s xs, xs.drop (n * (xs.length / n)))

section Blocks

variable {compress : S → List α → S} {n : Nat}

theorem compressBlocks_append {k : Nat} {xs : List α} (enough : n * k ≤ xs.length) (s : S)
    (ys : List α) :
    compressBlocks compress n k s (xs ++ ys) = compressBlocks compress n k s xs := by
  induction k generalizing s xs with
  | zero => rfl
  | succ k ih =>
    rw [Nat.mul_succ] at enough
    have first : n ≤ xs.length := by omega
    have later : n * k ≤ (xs.drop n).length := by
      rw [List.length_drop]
      omega
    rw [compressBlocks, compressBlocks, List.take_append_of_le_length first,
      List.drop_append_of_le_length first, ih later]

theorem compressBlocks_take {k m : Nat} {xs : List α} (enough : n * k ≤ m) (inside : m ≤ xs.length)
    (s : S) : compressBlocks compress n k s (xs.take m) = compressBlocks compress n k s xs := by
  have split := @compressBlocks_append _ _ compress n k (xs.take m)
    (by rwa [List.length_take_of_le inside]) s (xs.drop m)
  rw [List.take_append_drop] at split
  exact split.symm

theorem compressBlocks_add (j k : Nat) (s : S) (xs : List α) :
    compressBlocks compress n (j + k) s xs =
      compressBlocks compress n k (compressBlocks compress n j s xs) (xs.drop (n * j)) := by
  induction j generalizing s xs with
  | zero => rw [Nat.zero_add, Nat.mul_zero, List.drop_zero, compressBlocks]
  | succ j ih =>
    rw [Nat.succ_add, compressBlocks, compressBlocks, ih, List.drop_drop, Nat.mul_succ,
      Nat.add_comm n]

theorem absorb_rest_length (s : S) (xs : List α) :
    (absorb compress n s xs).2.length = xs.length % n := by
  rw [absorb, List.length_drop]
  have parts := Nat.mod_add_div xs.length n
  omega

theorem absorb_short {xs : List α} (short : xs.length < n) (s : S) :
    absorb compress n s xs = (s, xs) := by
  rw [absorb, Nat.div_eq_of_lt short, Nat.mul_zero, List.drop_zero, compressBlocks]

/-- A full block in front is compressed first. -/
theorem absorb_block {xs : List α} (positive : 0 < n) (full : xs.length = n) (s : S)
    (ys : List α) : absorb compress n s (xs ++ ys) = absorb compress n (compress s xs) ys := by
  have count : (xs ++ ys).length / n = 1 + ys.length / n := by
    rw [List.length_append, full, Nat.add_div_left _ positive, Nat.add_comm]
  have first : (xs ++ ys).take n = xs := List.take_left' full
  have later : (xs ++ ys).drop n = ys := List.drop_left' full
  rw [absorb, absorb, count, compressBlocks_add, compressBlocks, compressBlocks, first,
    Nat.mul_add, Nat.mul_one, ← List.drop_drop, later]

/-- What has been absorbed can be replaced by the state and the rest it left. -/
theorem absorb_append (positive : 0 < n) (s : S) (xs ys : List α) :
    absorb compress n s (xs ++ ys) =
      absorb compress n (absorb compress n s xs).1 ((absorb compress n s xs).2 ++ ys) := by
  have whole : n * (xs.length / n) ≤ xs.length := Nat.mul_div_le _ _
  have rest : xs.drop (n * (xs.length / n)) ++ ys = (xs ++ ys).drop (n * (xs.length / n)) :=
    (List.drop_append_of_le_length whole).symm
  have count : (xs ++ ys).length / n =
      xs.length / n + ((xs ++ ys).drop (n * (xs.length / n))).length / n := by
    have more : n * (xs.length / n) ≤ (xs ++ ys).length := by
      rw [List.length_append]
      omega
    rw [List.length_drop, Nat.add_comm, ← Nat.add_mul_div_left _ _ positive,
      Nat.sub_add_cancel more]
  simp only [absorb, rest]
  rw [count, compressBlocks_add, compressBlocks_append whole, List.drop_drop, Nat.mul_add]

/-- A message whose length is a multiple of the block length leaves no rest. -/
theorem absorb_whole {k : Nat} {xs : List α} (positive : 0 < n) (whole : xs.length = n * k)
    (s : S) : absorb compress n s xs = (compressBlocks compress n k s xs, []) := by
  rw [absorb, whole, Nat.mul_div_cancel_left _ positive, ← whole, List.drop_length]

end Blocks

end BlockHash
