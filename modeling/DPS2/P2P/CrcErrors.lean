import DPS2.P2P.Crc

/-! Flipped bits and the checksum. A flip adds a pattern to the message polynomial,
so what check_crc detects is what the generator cannot divide. -/
namespace DPS2.P2P

open Polynomial Gf2

/-- The exponent of bit 0 of byte i in a string of n bytes. -/
def weight (n i : Nat) : Nat := 16 * ((n + 1) / 2 - 1 - i / 2) + 8 * (i % 2)

theorem message_sum (data : Bytes) :
    message data = ∑ i ∈ Finset.range data.length,
      ofBitVec (data.getD i 0) * X ^ weight data.length i := by
  induction data using toBlocks.induct with
  | case1 => simp [message, toBlocks, ofBlocks]
  | case2 a =>
    rw [message, toBlocks, ofBlocks_singleton, ofBitVec_append, ofBitVec_zero]
    simp [weight]
  | case3 a b rest ih =>
    have shift : ∀ i, weight (rest.length + 1 + 1) (i + 1 + 1) = weight rest.length i := by
      intro i
      simp only [weight]
      omega
    have low : weight (rest.length + 1 + 1) 0 = 16 * (toBlocks rest).length := by
      simp only [weight, toBlocks_length]
      omega
    have high : weight (rest.length + 1 + 1) 1 = 8 + 16 * (toBlocks rest).length := by
      simp only [weight, toBlocks_length]
      omega
    rw [List.length_cons, List.length_cons, Finset.sum_range_succ', Finset.sum_range_succ']
    simp only [List.getD_cons_succ, List.getD_cons_zero, shift, low, zero_add, high]
    rw [← ih, message, toBlocks, ofBlocks, ← message, ofBitVec_append, pow_add]
    ring

abbrev BitIndex := Nat × Fin 8

/-- The place of a bit in the order in which calc_crc consumes them. -/
def bitPosition (p : BitIndex) : Nat := 16 * (p.1 / 2) + (15 - (8 * (p.1 % 2) + p.2))

def flipMask (S : Finset BitIndex) (i : Nat) : Byte :=
  (List.finRange 8).foldl (fun m e => if (i, e) ∈ S then m ^^^ BitVec.twoPow 8 e else m) 0

def flipBits (S : Finset BitIndex) (data : Bytes) : Bytes :=
  data.mapIdx (fun i b => b ^^^ flipMask S i)

@[simp] theorem flipBits_length (S : Finset BitIndex) (data : Bytes) :
    (flipBits S data).length = data.length := by simp [flipBits]

theorem flipBits_getD (S : Finset BitIndex) (data : Bytes) {i : Nat} (h : i < data.length) :
    (flipBits S data).getD i 0 = data.getD i 0 ^^^ flipMask S i := by
  simp [flipBits, List.getD_eq_getElem?_getD, h]

theorem ofBitVec_flip_fold (S : Finset BitIndex) (i : Nat) (es : List (Fin 8)) (m : Byte) :
    ofBitVec (es.foldl (fun m e => if (i, e) ∈ S then m ^^^ BitVec.twoPow 8 e else m) m) =
      ofBitVec m +
        (es.map (fun e => if (i, e) ∈ S then (X : (ZMod 2)[X]) ^ (e : Nat) else 0)).sum := by
  induction es generalizing m with
  | nil => simp
  | cons e es ih =>
    rw [List.foldl_cons, ih, List.map_cons, List.sum_cons]
    split
    · rw [ofBitVec_xor, ofBitVec_twoPow e.isLt, add_assoc]
    · rw [zero_add]

theorem ofBitVec_flipMask (S : Finset BitIndex) (i : Nat) :
    ofBitVec (flipMask S i) = ∑ e : Fin 8, if (i, e) ∈ S then X ^ (e : Nat) else 0 := by
  rw [flipMask, ofBitVec_flip_fold, ← List.sum_toFinset _ (List.nodup_finRange 8),
    List.toFinset_finRange]
  exact (congrArg (· + _) (ofBitVec_zero 8)).trans (zero_add _)

/-- The exponent a bit stands for in a string of n bytes. -/
def exponent (n : Nat) (p : BitIndex) : Nat := weight n p.1 + p.2

theorem exponent_position (n : Nat) (p : BitIndex) (h : p.1 < n) :
    exponent n p + bitPosition p + 1 = 16 * ((n + 1) / 2) := by
  have := p.2.isLt
  simp only [exponent, weight, bitPosition]
  omega

theorem exponent_injective (n : Nat) {S : Finset BitIndex} (inside : ∀ p ∈ S, p.1 < n) :
    Set.InjOn (exponent n) S := by
  rintro ⟨i, e⟩ hp ⟨j, f⟩ hq h
  have he := exponent_position n (i, e) (inside _ hp)
  have hf := exponent_position n (j, f) (inside _ hq)
  simp only [bitPosition] at he hf
  have := e.isLt
  have := f.isLt
  have same : i = j ∧ e.val = f.val := by omega
  exact Prod.ext same.1 (Fin.ext same.2)

theorem message_flip (S : Finset BitIndex) (data : Bytes) (inside : ∀ p ∈ S, p.1 < data.length) :
    message (flipBits S data) = message data + pattern (exponent data.length) S := by
  rw [message_sum, message_sum, flipBits_length]
  have byte : ∀ i ∈ Finset.range data.length,
      ofBitVec ((flipBits S data).getD i 0) * X ^ weight data.length i =
        ofBitVec (data.getD i 0) * X ^ weight data.length i +
          ∑ e : Fin 8, if (i, e) ∈ S then X ^ exponent data.length (i, e) else 0 := by
    intro i hi
    rw [flipBits_getD S data (Finset.mem_range.mp hi), ofBitVec_xor, add_mul, ofBitVec_flipMask,
      Finset.sum_mul]
    congr 1
    apply Finset.sum_congr rfl
    intro e _
    split
    · rw [exponent, pow_add, mul_comm]
    · rw [zero_mul]
  rw [Finset.sum_congr rfl byte, Finset.sum_add_distrib, ← Finset.sum_product',
    Finset.sum_ite_mem]
  congr 1
  apply Finset.sum_congr _ (fun _ _ => rfl)
  ext p
  simp only [Finset.mem_inter, Finset.mem_product, Finset.mem_range, Finset.mem_univ, and_true,
    and_iff_right_iff_imp]
  exact inside p

/-- Flips that are odd in number or span at most 15 consumed bits cannot divide. -/
def Detectable (S : Finset BitIndex) : Prop :=
  Odd S.card ∨ ∃ first, ∀ p ∈ S, first ≤ bitPosition p ∧ bitPosition p < first + 15

theorem detectable_not_divisible {S : Finset BitIndex} {n : Nat} (nonempty : S.Nonempty)
    (inside : ∀ p ∈ S, p.1 < n) (detectable : Detectable S) :
    ¬ generator ∣ pattern (exponent n) S := by
  rcases detectable with odd | ⟨first, window⟩
  · exact odd_pattern_survives generator_root odd
  · apply burst_survives generator_unit (Nat.le_of_eq generator_natDegree.symm)
      (exponent_injective n inside) nonempty (16 * ((n + 1) / 2) - 15 - first)
    intro p hp
    have place := exponent_position n p (inside p hp)
    have := window p hp
    omega

theorem flipped_message {S : Finset BitIndex} {data : Bytes} (accepted : generator ∣ message data)
    (nonempty : S.Nonempty) (inside : ∀ p ∈ S, p.1 < data.length) (detectable : Detectable S) :
    ¬ generator ∣ message (flipBits S data) := by
  rw [message_flip S data inside, dvd_add_right accepted]
  exact detectable_not_divisible nonempty inside detectable

/-- The POLY_TYPE stored in two bytes. -/
def crcOfBytes : Bytes → PolyType
  | [lo, hi] => hi ++ lo
  | _ => 0

theorem crcBytes_crcOfBytes {bs : Bytes} (h : bs.length = 2) : crcBytes (crcOfBytes bs) = bs := by
  match bs, h with
  | [lo, hi], _ =>
    have hlo : (hi ++ lo).extractLsb' 0 8 = lo :=
      (BitVec.extractLsb'_append_eq_of_add_le (by omega)).trans BitVec.extractLsb'_eq_self
    have hhi : (hi ++ lo).extractLsb' 8 8 = hi :=
      (BitVec.extractLsb'_append_eq_of_le (by omega)).trans BitVec.extractLsb'_eq_self
    rw [crcOfBytes, crcBytes, hlo, hhi]

theorem crc_error_detection (data : Bytes) (crc : PolyType) (accepted : checkCrc data crc = true)
    (S : Finset BitIndex) (nonempty : S.Nonempty)
    (inside : ∀ p ∈ S, p.1 < (data ++ crcBytes crc).length) (detectable : Detectable S) :
    checkCrc ((flipBits S (data ++ crcBytes crc)).take data.length)
      (crcOfBytes ((flipBits S (data ++ crcBytes crc)).drop data.length)) = false := by
  rw [Bool.eq_false_iff, ne_eq, checkCrc_iff, crcBytes_crcOfBytes, List.take_append_drop]
  · exact flipped_message ((checkCrc_iff data crc).mp accepted) nonempty inside detectable
  · simp [crcBytes]

theorem crc_error_detection_first_bit :
    checkCrc ((flipBits {(0, 0)} ([1, 2] ++ crcBytes (getCrc [1, 2]))).take 2)
      (crcOfBytes ((flipBits {(0, 0)} ([1, 2] ++ crcBytes (getCrc [1, 2]))).drop 2)) = false :=
  crc_error_detection [1, 2] (getCrc [1, 2]) (by decide) {(0, 0)} (by simp) (by simp)
    (by simp [Detectable])

end DPS2.P2P
