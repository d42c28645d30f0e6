import DPS2.Sha256.Standard
import DPS2.P2P.Crc

/-! The macros of sha256.h, the loops of SHA256::transform, and why they compute the compression
function of the standard. -/
namespace DPS2.Sha256

open P2P Standard Codec

/- The macros. -/

def shfr (x : Word) (n : Nat) : Word := x >>> n

def rotr (x : Word) (n : Nat) : Word := (x >>> n) ||| (x <<< (32 - n))

def f1 (x : Word) : Word := rotr x 2 ^^^ rotr x 13 ^^^ rotr x 22

def f2 (x : Word) : Word := rotr x 6 ^^^ rotr x 11 ^^^ rotr x 25

def f3 (x : Word) : Word := rotr x 7 ^^^ rotr x 18 ^^^ shfr x 3

def f4 (x : Word) : Word := rotr x 17 ^^^ rotr x 19 ^^^ shfr x 10

def unpack32 (x : Word) : Bytes :=
  [(x >>> 24).setWidth 8, (x >>> 16).setWidth 8, (x >>> 8).setWidth 8, x.setWidth 8]

def pack32 (str : Bytes) : Word :=
  (str.getD 3 0).setWidth 32 ||| (str.getD 2 0).setWidth 32 <<< 8 |||
    (str.getD 1 0).setWidth 32 <<< 16 ||| (str.getD 0 0).setWidth 32 <<< 24

def sha256K : List Word := [
  0x428a2f98, 0x71374491, 0xb5c0fbcf, 0xe9b5dba5, 0x3956c25b, 0x59f111f1, 0x923f82a4, 0xab1c5ed5,
  0xd807aa98, 0x12835b01, 0x243185be, 0x550c7dc3, 0x72be5d74, 0x80deb1fe, 0x9bdc06a7, 0xc19bf174,
  0xe49b69c1, 0xefbe4786, 0x0fc19dc6, 0x240ca1cc, 0x2de92c6f, 0x4a7484aa, 0x5cb0a9dc, 0x76f988da,
  0x983e5152, 0xa831c66d, 0xb00327c8, 0xbf597fc7, 0xc6e00bf3, 0xd5a79147, 0x06ca6351, 0x14292967,
  0x27b70a85, 0x2e1b2138, 0x4d2c6dfc, 0x53380d13, 0x650a7354, 0x766a0abb, 0x81c2c92e, 0x92722c85,
  0xa2bfe8a1, 0xa81a664b, 0xc24b8b70, 0xc76c51a3, 0xd192e819, 0xd6990624, 0xf40e3585, 0x106aa070,
  0x19a4c116, 0x1e376c08, 0x2748774c, 0x34b0bcb5, 0x391c0cb3, 0x4ed8aa4a, 0x5b9cca4f, 0x682e6ff3,
  0x748f82ee, 0x78a5636f, 0x84c87814, 0x8cc70208, 0x90befffa, 0xa4506ceb, 0xbef9a3f7, 0xc67178f2]

/-- m_h, and the working variables wv. -/
abbrev Words := Vector Word 8

def initialWords : Words :=
  #v[0x6a09e667, 0xbb67ae85, 0x3c6ef372, 0xa54ff53a, 0x510e527f, 0x9b05688c, 0x1f83d9ab, 0x5be0cd19]

/- The loops over j. -/

def load (subBlock : Bytes) (w : List Word) (j : Nat) : List Word :=
  w.set j (pack32 (subBlock.drop (j <<< 2)))

def expand (w : List Word) (j : Nat) : List Word :=
  w.set j (f4 (w.getD (j - 2) 0) + w.getD (j - 7) 0 + f3 (w.getD (j - 15) 0) + w.getD (j - 16) 0)

def round (w : List Word) (wv : Words) (j : Nat) : Words :=
  let t1 := wv[7] + f2 wv[4] + ch wv[4] wv[5] wv[6] + sha256K.getD j 0 + w.getD j 0
  let t2 := f1 wv[0] + maj wv[0] wv[1] wv[2]
  #v[t1 + t2, wv[0], wv[1], wv[2], wv[3] + t1, wv[4], wv[5], wv[6]]

/-- The array w of 64 words is not initialised before. -/
def scheduleWords (w : List Word) (subBlock : Bytes) : List Word :=
  (List.range' 16 48).foldl expand ((List.range 16).foldl (load subBlock) w)

def transformBlock (mH : Words) (subBlock : Bytes) : Words :=
  let w := scheduleWords (List.replicate 64 0) subBlock
  let wv := (List.range 64).foldl (round w) mH
  mH.zipWith (· + ·) wv

/-- No result if it reads beyond the message, or shifts i out of an int. -/
def transform (mH : Words) (message : Bytes) (blockNb : Nat) : Option Words :=
  if blockNb ≤ 2 ^ 25 ∧ blockNb * 64 ≤ message.length then
    some ((List.range blockNb).foldl (fun mH i => transformBlock mH (message.drop (i <<< 6))) mH)
  else none

section Macros

theorem rotr_eq (x : Word) {n : Nat} (short : n < 32) :
    rotr x n = x.rotateRight n := by
  rw [rotr, BitVec.rotateRight_def, Nat.mod_eq_of_lt short]

theorem f1_eq (x : Word) : f1 x = upperSigma0 x := by
  simp [f1, upperSigma0, rotr_eq]

theorem f2_eq (x : Word) : f2 x = upperSigma1 x := by
  simp [f2, upperSigma1, rotr_eq]

theorem f3_eq (x : Word) : f3 x = lowerSigma0 x := by
  simp [f3, lowerSigma0, rotr_eq, shfr]

theorem f4_eq (x : Word) : f4 x = lowerSigma1 x := by
  simp [f4, lowerSigma1, rotr_eq, shfr]

theorem shifted_byte (x : Word) (n : Nat) :
    (x >>> n).setWidth 8 = BitVec.ofNat 8 (x.toNat / 2 ^ n) := by
  apply BitVec.eq_of_toNat_eq
  rw [BitVec.toNat_setWidth, BitVec.toNat_ushiftRight, BitVec.toNat_ofNat,
    Nat.shiftRight_eq_div_pow]

theorem unpack32_eq (x : Word) : unpack32 x = bigEndian 4 x.toNat := by
  have lowest : x.setWidth 8 = BitVec.ofNat 8 x.toNat := by
    apply BitVec.eq_of_toNat_eq
    rw [BitVec.toNat_setWidth, BitVec.toNat_ofNat]
  simp only [unpack32, shifted_byte, lowest, bigEndian, encode, List.reverse_cons,
    List.reverse_nil, List.nil_append, List.cons_append, Nat.div_div_eq_div_mul, Nat.reducePow,
    Nat.reduceMul]

theorem append_toNat (a b c d : Byte) : (a ++ b ++ c ++ d).toNat = decode [d, c, b, a] := by
  rw [BitVec.toNat_append, BitVec.toNat_append, BitVec.toNat_append,
    ← Nat.shiftLeft_add_eq_or_of_lt b.isLt, ← Nat.shiftLeft_add_eq_or_of_lt c.isLt,
    ← Nat.shiftLeft_add_eq_or_of_lt d.isLt]
  simp only [Nat.shiftLeft_eq, decode]
  omega

theorem pack32_eq {bs : Bytes} (h : 4 ≤ bs.length) :
    pack32 bs = BitVec.ofNat 32 (ofBigEndian (bs.take 4)) := by
  match bs, h with
  | a :: b :: c :: d :: rest, _ =>
    have joined : pack32 (a :: b :: c :: d :: rest) = a ++ b ++ c ++ d := by
      ext i h
      simp [pack32]
      grind
    rw [joined]
    apply BitVec.eq_of_toNat_eq
    have whole := append_toNat a b c d
    have small := (a ++ b ++ c ++ d).isLt
    rw [BitVec.toNat_ofNat]
    exact whole.trans (Nat.mod_eq_of_lt (whole ▸ small)).symm

end Macros

section Constants

/-- A root is known from one number and its successor. -/
theorem root_eq {e n r : Nat} (low : r ^ e ≤ n) (high : n < (r + 1) ^ e) : root e n = r := by
  have positive : 0 < e := by
    rcases Nat.eq_zero_or_pos e with rfl | positive
    · rw [Nat.pow_zero] at low high
      omega
    · exact positive
  rw [root, Nat.findGreatest_eq_iff]
  refine ⟨(Nat.le_self_pow positive.ne' r).trans low, fun _ => low, fun k above _ below => ?_⟩
  exact absurd (high.trans_le (Nat.pow_le_pow_left above e)) (by omega)

/-- The word follows the point in a root of p below 20. -/
def IsFraction (e p : Nat) (word : Word) : Prop :=
  ∃ q < 20, (q * 2 ^ 32 + word.toNat) ^ e ≤ p * 2 ^ (32 * e) ∧
    p * 2 ^ (32 * e) < (q * 2 ^ 32 + word.toNat + 1) ^ e

instance (e p : Nat) (word : Word) : Decidable (IsFraction e p word) :=
  inferInstanceAs (Decidable (∃ q < 20, _ ∧ _))

theorem fraction_eq {e p : Nat} {word : Word} (h : IsFraction e p word) :
    fraction e p = word := by
  obtain ⟨q, -, low, high⟩ := h
  rw [fraction, root_eq low high]
  apply BitVec.eq_of_toNat_eq
  rw [BitVec.toNat_ofNat, Nat.mul_comm, Nat.mul_add_mod, Nat.mod_eq_of_lt word.isLt]

theorem primes_eq : primes = [2, 3, 5, 7, 11, 13, 17, 19, 23, 29, 31, 37, 41, 43, 47, 53, 59, 61,
    67, 71, 73, 79, 83, 89, 97, 101, 103, 107, 109, 113, 127, 131, 137, 139, 149, 151, 157, 163,
    167, 173, 179, 181, 191, 193, 197, 199, 211, 223, 227, 229, 233, 239, 241, 251, 257, 263, 269,
    271, 277, 281, 283, 293, 307, 311] := by
  decide +kernel

theorem sha256K_eq {t : Nat} (below : t < 64) : sha256K.getD t 0 = constant t := by
  have entries : ∀ t < 64, IsFraction 3 (primes.getD t 0) (sha256K.getD t 0) := by
    rw [primes_eq]
    decide +kernel
  rw [constant, fraction_eq (entries t below)]

/-- The standard's name for each word. -/
def state (v : Words) : State := ⟨v[0], v[1], v[2], v[3], v[4], v[5], v[6], v[7]⟩

theorem state_initialWords : state initialWords = State.initial := by
  have entries : ∀ t : Fin 8, fraction 2 (primes.getD t 0) = initialWords[t] := by
    intro t
    apply fraction_eq
    rw [primes_eq]
    revert t
    decide +kernel
  exact (State.mk.injEq ..).mpr ⟨(entries 0).symm, (entries 1).symm, (entries 2).symm,
    (entries 3).symm, (entries 4).symm, (entries 5).symm, (entries 6).symm, (entries 7).symm⟩

end Constants

section Schedule

/-- The words before n are those of the standard's schedule. -/
def Scheduled (block : Nat → Word) (n : Nat) (w : List Word) : Prop :=
  w.length = 64 ∧ ∀ t < n, w.getD t 0 = schedule block t

theorem Scheduled.set {block : Nat → Word} {n : Nat} {w : List Word} (h : Scheduled block n w)
    (space : n < 64) {word : Word} (next : word = schedule block n) :
    Scheduled block (n + 1) (w.set n word) := by
  refine ⟨by rw [List.length_set, h.1], fun t below => ?_⟩
  rcases Nat.lt_succ_iff_lt_or_eq.mp below with earlier | rfl
  · rw [List.getD_eq_getElem?_getD, List.getElem?_set_ne (by omega), ← List.getD_eq_getElem?_getD,
      h.2 t earlier]
  · have inside : t < w.length := by rw [h.1]; exact space
    rw [List.getD_eq_getElem?_getD, List.getElem?_set_self inside, Option.getD_some, next]

variable {subBlock : Bytes}

theorem blockWord_take {t : Nat} (early : t < 16) (whole : 64 ≤ subBlock.length) :
    pack32 (subBlock.drop (t <<< 2)) = blockWord (subBlock.take 64) t := by
  have offset : t <<< 2 = 4 * t := by rw [Nat.shiftLeft_eq, Nat.mul_comm]
  have enough : 4 ≤ (subBlock.drop (4 * t)).length := by
    rw [List.length_drop]
    omega
  rw [offset, pack32_eq enough, blockWord, slice, List.drop_take, List.take_take,
    Nat.min_eq_left (by omega)]

theorem load_scheduled (whole : 64 ≤ subBlock.length) {n : Nat} {w : List Word}
    (early : n < 16) (h : Scheduled (blockWord (subBlock.take 64)) n w) :
    Scheduled (blockWord (subBlock.take 64)) (n + 1) (load subBlock w n) := by
  apply h.set (by omega)
  rw [schedule, if_pos early, blockWord_take early whole]

theorem expand_scheduled {block : Nat → Word} {n : Nat} {w : List Word} (late : 16 ≤ n)
    (space : n < 64) (h : Scheduled block n w) : Scheduled block (n + 1) (expand w n) := by
  apply h.set space
  rw [schedule, if_neg (by omega), h.2 _ (by omega), h.2 _ (by omega), h.2 _ (by omega),
    h.2 _ (by omega), f3_eq, f4_eq]

theorem load_loop (whole : 64 ≤ subBlock.length) {w : List Word} (size : w.length = 64) {n : Nat}
    (early : n ≤ 16) :
    Scheduled (blockWord (subBlock.take 64)) n ((List.range n).foldl (load subBlock) w) := by
  induction n with
  | zero => exact ⟨size, fun t below => absurd below t.not_lt_zero⟩
  | succ n ih =>
    rw [List.range_succ, List.foldl_concat]
    exact load_scheduled whole early (ih (Nat.le_of_succ_le early))

theorem expand_loop {block : Nat → Word} {w : List Word} (h : Scheduled block 16 w) {n : Nat}
    (space : n ≤ 48) : Scheduled block (16 + n) ((List.range' 16 n).foldl expand w) := by
  induction n with
  | zero => exact h
  | succ n ih =>
    have below : 16 + n < 64 := by omega
    rw [List.range'_concat, List.foldl_concat, Nat.one_mul]
    exact expand_scheduled (Nat.le_add_right 16 n) below (ih (Nat.le_of_succ_le space))

/-- Whatever the array held before. -/
theorem scheduleWords_scheduled (whole : 64 ≤ subBlock.length) {w : List Word}
    (size : w.length = 64) :
    Scheduled (blockWord (subBlock.take 64)) 64 (scheduleWords w subBlock) :=
  expand_loop (load_loop whole size (Nat.le_refl 16)) (Nat.le_refl 48)

end Schedule

section Compression

theorem round_state {w : List Word} {block : Nat → Word} (h : Scheduled block 64 w) {t : Nat}
    (below : t < 64) (wv : Words) :
    state (round w wv t) = (state wv).round (constant t) (schedule block t) := by
  rw [← h.2 t below, ← sha256K_eq below]
  simp only [state, round, State.round, f1_eq, f2_eq]
  rfl

theorem rounds_state {w : List Word} {block : Nat → Word} (h : Scheduled block 64 w) (wv : Words)
    {n : Nat} (few : n ≤ 64) :
    state ((List.range n).foldl (round w) wv) = State.rounds (schedule block) n (state wv) := by
  induction n with
  | zero => rfl
  | succ n ih =>
    rw [List.range_succ, List.foldl_concat, round_state h few, ih (Nat.le_of_succ_le few),
      State.rounds]

theorem transformBlock_state (mH : Words) {subBlock : Bytes} (whole : 64 ≤ subBlock.length) :
    state (transformBlock mH subBlock) = compress (state mH) (subBlock.take 64) := by
  have scheduled := scheduleWords_scheduled whole (w := List.replicate 64 0) (by simp)
  rw [compress, ← rounds_state scheduled mH (Nat.le_refl 64)]
  simp only [transformBlock, state, State.add, Vector.getElem_zipWith]

theorem transform_inside (mH : Words) {message : Bytes} {blockNb : Nat} (few : blockNb ≤ 2 ^ 25)
    (enough : blockNb * 64 ≤ message.length) : ∃ after, transform mH message blockNb = some after ∧
      state after = BlockHash.compressBlocks compress 64 blockNb (state mH) message := by
  refine ⟨_, if_pos ⟨few, enough⟩, ?_⟩
  induction blockNb with
  | zero => rfl
  | succ n ih =>
    have offset : n <<< 6 = 64 * n := by rw [Nat.shiftLeft_eq, Nat.mul_comm]
    rw [List.range_succ, List.foldl_concat, BlockHash.compressBlocks_add,
      ← ih (Nat.le_of_succ_le few) (by omega),
      BlockHash.compressBlocks, BlockHash.compressBlocks, offset]
    apply transformBlock_state
    rw [List.length_drop]
    omega

end Compression
end DPS2.Sha256

