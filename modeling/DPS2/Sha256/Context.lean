import DPS2.Sha256.Transform

/-! The context that SHA256::update and SHA256::final change. It represents the message so far: its
whole blocks are in m_h, the rest is at the front of m_block. -/
namespace DPS2.Sha256

open P2P Standard Codec BlockHash

structure Context where
  mTotLen : Word
  mLen : Word
  mBlock : Bytes
  mH : Words

def blockSize : Word := 64

/-- A write into an array, none if it leaves the array. -/
def store (dest : Bytes) (offset : Nat) (src : Bytes) : Option Bytes :=
  if offset + src.length ≤ dest.length then
    some (dest.take offset ++ src ++ dest.drop (offset + src.length))
  else none

def memcpy (dest : Bytes) (offset : Nat) (src : Bytes) (n : Nat) : Option Bytes :=
  if n ≤ src.length then store dest offset (src.take n) else none

def memset (dest : Bytes) (offset : Nat) (value : Byte) (n : Nat) : Option Bytes :=
  store dest offset (List.replicate n value)

def init (ctx : Context) : Context :=
  { ctx with mH := initialWords, mLen := 0, mTotLen := 0 }

/-- The message is what can be read from the pointer, len of it is hashed. -/
def update (ctx : Context) (message : Bytes) (len : Word) : Option Context := do
  let tmpLen := blockSize - ctx.mLen
  let remLen := if len < tmpLen then len else tmpLen
  let mBlock ← memcpy ctx.mBlock ctx.mLen.toNat message remLen.toNat
  if ctx.mLen + len < blockSize then
    some { ctx with mBlock := mBlock, mLen := ctx.mLen + len }
  else
    let newLen := len - remLen
    let blockNb := newLen / blockSize
    let shiftedMessage := message.drop remLen.toNat
    let mH ← transform ctx.mH mBlock 1
    let mH ← transform mH shiftedMessage blockNb.toNat
    let remLen := newLen % blockSize
    let mBlock ← memcpy mBlock 0 (shiftedMessage.drop (blockNb <<< 6).toNat) remLen.toNat
    some ⟨ctx.mTotLen + (blockNb + 1) <<< 6, remLen, mBlock, mH⟩

def final (ctx : Context) : Option Bytes := do
  let blockNb : Word := 1 + if blockSize - 9 < ctx.mLen % blockSize then 1 else 0
  let lenB := (ctx.mTotLen + ctx.mLen) <<< 3
  let pmLen := blockNb <<< 6
  let mBlock ← memset ctx.mBlock ctx.mLen.toNat 0 (pmLen - ctx.mLen).toNat
  let mBlock ← store mBlock ctx.mLen.toNat [0x80]
  let mBlock ← store mBlock (pmLen.toNat - 4) (unpack32 lenB)
  let mH ← transform ctx.mH mBlock blockNb.toNat
  some (mH.toList.flatMap unpack32)

section Store

theorem memcpy_inside (dest src : Bytes) (offset : Nat) {n : Nat} (readable : n ≤ src.length)
    (inside : offset + n ≤ dest.length) : ∃ written,
      memcpy dest offset src n = some written ∧ written.length = dest.length ∧
        written.take (offset + n) = dest.take offset ++ src.take n := by
  have length : (src.take n).length = n := List.length_take_of_le readable
  have front : (dest.take offset ++ src.take n).length = offset + n := by
    rw [List.length_append, List.length_take, length]
    omega
  refine ⟨dest.take offset ++ src.take n ++ dest.drop (offset + n), ?_, ?_,
    List.take_left' front⟩
  · rw [memcpy, if_pos readable, store, length, if_pos inside]
  · rw [List.length_append, front, List.length_drop]
    omega

end Store

section Update

/-- What SHA256 keeps of every context: the rest of a message lies in the first of two blocks. -/
structure Ready (ctx : Context) : Prop where
  size : ctx.mBlock.length = 128
  short : ctx.mLen.toNat < 64

def Context.rest (ctx : Context) : Bytes := ctx.mBlock.take ctx.mLen.toNat

theorem Ready.rest_length {ctx : Context} (ready : Ready ctx) :
    ctx.rest.length = ctx.mLen.toNat := by
  have size := ready.size
  have short := ready.short
  rw [Context.rest, List.length_take]
  omega

/-- The context after the message, whatever was hashed before it. -/
structure Absorbs (ctx : Context) (message : Bytes) (after : Context) : Prop where
  ready : Ready after
  absorb : (state after.mH, after.rest) =
    absorb compress 64 (state ctx.mH) (ctx.rest ++ message)
  count : after.mTotLen + after.mLen = ctx.mTotLen + ctx.mLen + BitVec.ofNat 32 message.length

variable {ctx : Context} {message : Bytes} {len : Word}

theorem room_toNat (ready : Ready ctx) : (blockSize - ctx.mLen).toNat = 64 - ctx.mLen.toNat := by
  have short := ready.short
  simp only [blockSize]
  bv_omega

theorem remLen_toNat (ready : Ready ctx) :
    (if len < blockSize - ctx.mLen then len else blockSize - ctx.mLen).toNat =
      min len.toNat (64 - ctx.mLen.toNat) := by
  have room := room_toNat ready
  split <;> rename_i h <;> rw [BitVec.lt_def] at h <;> omega

theorem update_short (ready : Ready ctx) (readable : len.toNat ≤ message.length)
    (fits : ctx.mLen.toNat + len.toNat < 64) :
    ∃ after, update ctx message len = some after ∧
      Absorbs ctx (message.take len.toNat) after := by
  have size := ready.size
  have whole : min len.toNat (64 - ctx.mLen.toNat) = len.toNat := by omega
  have sum : (ctx.mLen + len).toNat = ctx.mLen.toNat + len.toNat := by
    rw [BitVec.toNat_add]
    omega
  have stays : ctx.mLen + len < blockSize := by
    rw [BitVec.lt_def, sum]
    exact fits
  obtain ⟨mBlock, copied, same, front⟩ :=
    memcpy_inside ctx.mBlock message ctx.mLen.toNat readable (by omega)
  refine ⟨{ ctx with mBlock := mBlock, mLen := ctx.mLen + len }, ?_, ⟨?_, ?_⟩, ?_, ?_⟩
  · simp only [update, remLen_toNat ready, whole, copied, Option.bind_eq_bind, Option.bind_some,
      if_pos stays]
  · exact same.trans size
  · rw [sum]
    exact fits
  · rw [absorb_short]
    · simp only [Context.rest, sum, front]
    · rw [List.length_append, ready.rest_length, List.length_take]
      omega
  · rw [List.length_take_of_le readable, BitVec.ofNat_toNat, BitVec.setWidth_eq, BitVec.add_assoc]

/-- The whole blocks of a length, and what is left. -/
theorem blocks_toNat (w : Word) :
    (w / blockSize).toNat = w.toNat / 64 ∧ (w % blockSize).toNat = w.toNat % 64 ∧
      ((w / blockSize) <<< 6).toNat = 64 * (w.toNat / 64) := by
  have blockNb : (w / blockSize).toNat = w.toNat / 64 := BitVec.toNat_udiv
  refine ⟨blockNb, BitVec.toNat_umod, ?_⟩
  rw [BitVec.toNat_shiftLeft, blockNb, Nat.shiftLeft_eq]
  omega

theorem blocks_count (w : Word) : (w / blockSize + 1) <<< 6 + w % blockSize = w + 64 := by
  obtain ⟨blockNb, left, _⟩ := blocks_toNat w
  apply BitVec.eq_of_toNat_eq
  rw [BitVec.toNat_add, BitVec.toNat_shiftLeft, BitVec.toNat_add, BitVec.toNat_add, blockNb, left,
    Nat.shiftLeft_eq]
  change ((w.toNat / 64 + 1) % 2 ^ 32 * 64 % 2 ^ 32 + w.toNat % 64) % 2 ^ 32 =
    (w.toNat + 64) % 2 ^ 32
  omega

/-- The block in m_block is filled up and compressed, the other blocks are read where they are. -/
theorem update_long (ready : Ready ctx) (readable : len.toNat ≤ message.length)
    (small : len.toNat < 2 ^ 31) (fills : 64 ≤ ctx.mLen.toNat + len.toNat) :
    ∃ after, update ctx message len = some after ∧
      Absorbs ctx (message.take len.toNat) after := by
  have size := ready.size
  have short := ready.short
  have leaves : ¬ctx.mLen + len < blockSize := by
    rw [BitVec.lt_def, BitVec.toNat_add]
    change ¬(ctx.mLen.toNat + len.toNat) % 2 ^ 32 < 64
    omega
  have room := room_toNat ready
  have full : ¬len < blockSize - ctx.mLen := by
    rw [BitVec.lt_def, room]
    omega
  have added : len - (blockSize - ctx.mLen) + 64 = ctx.mLen + len := by
    simp only [blockSize]
    bv_omega
  generalize hrem : blockSize - ctx.mLen = rem at room full added
  obtain ⟨more, hmore⟩ : ∃ more, (len - rem).toNat = more := ⟨_, rfl⟩
  have total : len.toNat = rem.toNat + more := by
    rw [BitVec.toNat_sub_of_le (by rw [BitVec.le_def]; omega)] at hmore
    omega
  obtain ⟨blockNb, left, offset⟩ := blocks_toNat (len - rem)
  rw [hmore] at blockNb left offset
  have shifted : (message.drop rem.toNat).length = message.length - rem.toNat := List.length_drop
  obtain ⟨mBlock, copied, same, front⟩ :=
    @memcpy_inside ctx.mBlock message ctx.mLen.toNat rem.toNat (by omega) (by omega)
  obtain ⟨first, transformed, hfirst⟩ := @transform_inside ctx.mH mBlock 1 (by norm_num) (by omega)
  obtain ⟨last, finished, hlast⟩ :=
    @transform_inside first (message.drop rem.toNat) (more / 64) (by omega) (by omega)
  obtain ⟨rest, kept, restSize, restFront⟩ :=
    @memcpy_inside mBlock ((message.drop rem.toNat).drop (64 * (more / 64))) 0 (more % 64)
      (by rw [List.length_drop]; omega) (by omega)
  refine ⟨⟨ctx.mTotLen + ((len - rem) / blockSize + 1) <<< 6, (len - rem) % blockSize, rest, last⟩,
    ?_, ⟨?_, ?_⟩, ?_, ?_⟩
  · simp only [update, hrem, if_neg full, copied, Option.bind_eq_bind, Option.bind_some,
      if_neg leaves, transformed, blockNb, finished, offset, left, kept]
  · rw [restSize, same, size]
  · rw [left]
    omega
  · have filled : (ctx.rest ++ message.take rem.toNat).length = 64 := by
      rw [List.length_append, ready.rest_length, List.length_take]
      omega
    have block : mBlock.take 64 = ctx.rest ++ message.take rem.toNat := by
      rw [← show ctx.mLen.toNat + rem.toNat = 64 by omega]
      exact front
    have length : ((message.drop rem.toNat).take more).length = more := by
      rw [List.length_take]
      omega
    have behind : rest.take (more % 64) =
        ((message.drop rem.toNat).take more).drop (64 * (more / 64)) := by
      rw [Nat.zero_add] at restFront
      rw [restFront, List.take_zero, List.nil_append, List.drop_take]
      congr 1
      omega
    rw [total, List.take_add, ← List.append_assoc, absorb_block (by norm_num) filled, absorb,
      length, compressBlocks_take (by omega) (by omega), Context.rest, left, behind, hlast, hfirst,
      ← block]
    rfl
  · rw [List.length_take_of_le readable, BitVec.ofNat_toNat, BitVec.setWidth_eq, BitVec.add_assoc,
      BitVec.add_assoc, blocks_count, added]

end Update

section Final

theorem store_middle (a c : Bytes) {b src : Bytes} {offset : Nat} (front : a.length = offset)
    (width : b.length = src.length) : store (a ++ b ++ c) offset src = some (a ++ src ++ c) := by
  have inside : offset + src.length ≤ (a ++ b ++ c).length := by
    simp only [List.length_append]
    omega
  have past : (a ++ b).length = offset + src.length := by
    rw [List.length_append, front, width]
  have before : (a ++ b ++ c).take offset = a := by
    rw [List.append_assoc]
    exact List.take_left' front
  rw [store, if_pos inside, List.drop_left' past, before]

/-- The padding of final: the length in bits is a word after four zeroes. -/
def wordPadding (zeros : Nat) (lenB : Word) : Bytes :=
  0x80 :: (List.replicate (zeros + 4) 0 ++ unpack32 lenB)

theorem wordPadding_length (zeros : Nat) (lenB : Word) :
    (wordPadding zeros lenB).length = 1 + (zeros + 4) + 4 := by
  rw [wordPadding, List.length_cons, List.length_append, List.length_replicate, Nat.add_comm,
    ← Nat.add_assoc]
  rfl

variable {ctx : Context}

theorem final_blocks (ready : Ready ctx) :
    let zeros := zeroes ctx.mLen.toNat
    let blockNb : Word := 1 + if blockSize - 9 < ctx.mLen % blockSize then 1 else 0
    blockNb.toNat ≤ 2 ∧ (blockNb <<< 6).toNat = 64 * blockNb.toNat ∧
      64 * blockNb.toNat = ctx.mLen.toNat + (1 + (zeros + 4) + 4) := by
  have short := ready.short
  have whole : (ctx.mLen % blockSize).toNat = ctx.mLen.toNat := by
    rw [BitVec.toNat_umod]
    exact Nat.mod_eq_of_lt short
  have limit : blockSize - 9 < ctx.mLen % blockSize ↔ 55 < ctx.mLen.toNat := by
    rw [BitVec.lt_def, whole]
    rfl
  dsimp only
  simp only [zeroes, limit]
  split
  · refine ⟨by decide, by decide, ?_⟩
    change 64 * 2 = _
    omega
  · refine ⟨by decide, by decide, ?_⟩
    change 64 * 1 = _
    omega

theorem padding_written {dest rest : Bytes} (zeros : Nat) (lenB : Word)
    (front : dest.take rest.length = rest)
    (inside : rest.length + (1 + (zeros + 4) + 4) ≤ dest.length) : ∃ cleared marked tail,
      memset dest rest.length 0 (1 + (zeros + 4) + 4) = some cleared ∧
      store cleared rest.length [0x80] = some marked ∧
      store marked (rest.length + (1 + (zeros + 4))) (unpack32 lenB) =
        some (rest ++ wordPadding zeros lenB ++ tail) := by
  obtain ⟨gap, tail, parts, gapLength⟩ : ∃ gap tail, dest = rest ++ gap ++ tail ∧
      gap.length = 1 + (zeros + 4) + 4 := by
    refine ⟨(dest.drop rest.length).take (1 + (zeros + 4) + 4),
      (dest.drop rest.length).drop (1 + (zeros + 4) + 4), ?_, ?_⟩
    · rw [List.append_assoc, List.take_append_drop]
      conv => rhs; lhs; rw [← front]
      exact (List.take_append_drop _ _).symm
    · rw [List.length_take, List.length_drop]
      omega
  have zeroed : List.replicate (1 + (zeros + 4) + 4) (0 : Byte) =
      [0] ++ (List.replicate (zeros + 4) 0 ++ List.replicate 4 0) := by
    rw [List.replicate_append_replicate, Nat.add_assoc, List.replicate_add]
    rfl
  refine ⟨rest ++ List.replicate (1 + (zeros + 4) + 4) 0 ++ tail,
    rest ++ [0x80] ++ (List.replicate (zeros + 4) 0 ++ List.replicate 4 0 ++ tail), tail,
    ?_, ?_, ?_⟩
  · rw [parts]
    exact store_middle _ _ rfl (by rw [gapLength, List.length_replicate])
  · rw [zeroed, ← List.append_assoc, List.append_assoc]
    exact store_middle _ _ rfl rfl
  · have place : (rest ++ [0x80] ++ List.replicate (zeros + 4) (0 : Byte)).length =
        rest.length + (1 + (zeros + 4)) := by
      simp
      omega
    have width : (List.replicate 4 (0 : Byte)).length = (unpack32 lenB).length := rfl
    simpa [wordPadding] using store_middle _ tail place width

theorem digest_output (v : Words) : v.toList.flatMap unpack32 = output (state v) := by
  have words : v.toList = (state v).words := by
    obtain ⟨⟨words⟩, size⟩ := v
    match words, size with
    | [_, _, _, _, _, _, _, _], _ => rfl
  rw [output, ← words]
  congr 1
  funext word
  exact unpack32_eq word

theorem final_pads (ready : Ready ctx) : final ctx = some (output (absorb compress 64
    (state ctx.mH) (ctx.rest ++ wordPadding (zeroes ctx.mLen.toNat)
      ((ctx.mTotLen + ctx.mLen) <<< 3))).1) := by
  have size := ready.size
  have short := ready.short
  obtain ⟨two, shift, blocks⟩ := final_blocks ready
  have front : ctx.mBlock.take ctx.rest.length = ctx.rest := by rw [ready.rest_length, Context.rest]
  obtain ⟨cleared, marked, tail, hcleared, hmarked, hwritten⟩ := padding_written
    (zeroes ctx.mLen.toNat) ((ctx.mTotLen + ctx.mLen) <<< 3) front
    (by rw [ready.rest_length]; omega)
  rw [ready.rest_length] at hcleared hmarked hwritten
  have length := wordPadding_length (zeroes ctx.mLen.toNat) ((ctx.mTotLen + ctx.mLen) <<< 3)
  generalize wordPadding _ _ = padding at hwritten length ⊢
  generalize hnb : (1 + if blockSize - 9 < ctx.mLen % blockSize then 1 else 0 : Word) = blockNb
    at two shift blocks
  have whole : (ctx.rest ++ padding).length = 64 * blockNb.toNat := by
    rw [List.length_append, ready.rest_length, length, blocks]
  have room : (blockNb <<< 6 - ctx.mLen).toNat = 1 + (zeroes ctx.mLen.toNat + 4) + 4 := by
    rw [BitVec.toNat_sub_of_le (by rw [BitVec.le_def]; omega)]
    omega
  have place : (blockNb <<< 6).toNat - 4 =
      ctx.mLen.toNat + (1 + (zeroes ctx.mLen.toNat + 4)) := by omega
  obtain ⟨last, finished, hlast⟩ := @transform_inside ctx.mH
    (ctx.rest ++ padding ++ tail) blockNb.toNat (by omega)
    (by rw [List.length_append, whole]; omega)
  rw [absorb_whole (by norm_num) whole, ← compressBlocks_append (by rw [whole]) (state ctx.mH) tail,
    ← hlast]
  simp only [final, hnb, room, hcleared, hmarked, place, hwritten, finished, Option.bind_eq_bind,
    Option.bind_some, digest_output]

end Final

section Stream

/-- Calls of update, each with the memory it can read and the length it is given. -/
def updates (ctx : Context) : List (Bytes × Word) → Option Context
  | [] => some ctx
  | (message, len) :: rest => (update ctx message len).bind fun after => updates after rest

/-- Lengths that can be read, and for which no block index leaves an int. -/
def Readable (pieces : List (Bytes × Word)) : Prop :=
  ∀ piece ∈ pieces, piece.2.toNat ≤ piece.1.length ∧ piece.2.toNat < 2 ^ 31

def hashed : List (Bytes × Word) → Bytes
  | [] => []
  | (message, len) :: rest => message.take len.toNat ++ hashed rest

variable {ctx after last : Context} {message more : Bytes}

theorem update_absorbs {len : Word} (ready : Ready ctx) (readable : len.toNat ≤ message.length)
    (small : len.toNat < 2 ^ 31) :
    ∃ after, update ctx message len = some after ∧
      Absorbs ctx (message.take len.toNat) after := by
  rcases Nat.lt_or_ge (ctx.mLen.toNat + len.toNat) 64 with fits | fills
  · exact update_short ready readable fits
  · exact update_long ready readable small fills

theorem Absorbs.nothing (ready : Ready ctx) : Absorbs ctx [] ctx := by
  refine ⟨ready, ?_, by simp⟩
  rw [List.append_nil, absorb_short (by rw [ready.rest_length]; exact ready.short)]

theorem Absorbs.append (first : Absorbs ctx message after) (second : Absorbs after more last) :
    Absorbs ctx (message ++ more) last := by
  refine ⟨second.ready, ?_, ?_⟩
  · rw [second.absorb, ← List.append_assoc, absorb_append (by norm_num) _ (ctx.rest ++ message),
      ← first.absorb]
  · rw [second.count, first.count, List.length_append, BitVec.ofNat_add, BitVec.add_assoc]

theorem updates_absorb (ready : Ready ctx) {pieces : List (Bytes × Word)}
    (readable : Readable pieces) :
    ∃ after, updates ctx pieces = some after ∧ Absorbs ctx (hashed pieces) after := by
  induction pieces generalizing ctx with
  | nil => exact ⟨ctx, rfl, Absorbs.nothing ready⟩
  | cons piece rest ih =>
    obtain ⟨within, small⟩ := readable piece List.mem_cons_self
    obtain ⟨next, updated, first⟩ := update_absorbs ready within small
    obtain ⟨after, done, later⟩ :=
      ih first.ready fun piece inside => readable piece (List.mem_cons_of_mem _ inside)
    refine ⟨after, ?_, first.append later⟩
    rw [updates, updated, Option.bind_some, done]

theorem init_ready (size : ctx.mBlock.length = 128) : Ready (init ctx) :=
  ⟨size, Nat.zero_lt_succ _⟩

theorem final_absorbs (absorbed : Absorbs (init ctx) message after) : final after =
    some (output (chain (message ++ wordPadding (zeroes message.length)
      (BitVec.ofNat 32 message.length <<< 3)))) := by
  have start : (state after.mH, after.rest) = absorb compress 64 State.initial message := by
    rw [absorbed.absorb, ← state_initialWords]
    rfl
  have rest : after.mLen.toNat = message.length % 64 := by
    have left := congrArg (fun parts => parts.2.length) start
    rw [← absorbed.ready.rest_length]
    exact left.trans (absorb_rest_length _ _)
  have zeros : zeroes after.mLen.toNat = zeroes message.length := by
    rw [zeroes, zeroes, rest, Nat.mod_mod]
  have count : after.mTotLen + after.mLen = BitVec.ofNat 32 message.length := by
    simp [absorbed.count, init]
  have chained (blocks : Bytes) : (absorb compress 64 State.initial blocks).1 = chain blocks := rfl
  rw [final_pads absorbed.ready, zeros, count, ← chained,
    absorb_append (by norm_num) State.initial message, ← start]

end Stream

section Standard

theorem encode_mod (n x : Nat) : encode n (x % 256 ^ n) = encode n x := by
  induction n generalizing x with
  | zero => rfl
  | succ n ih =>
    have low : BitVec.ofNat 8 (x % 256 ^ (n + 1)) = BitVec.ofNat 8 x := by
      apply BitVec.eq_of_toNat_eq
      rw [BitVec.toNat_ofNat, BitVec.toNat_ofNat]
      exact Nat.mod_mod_of_dvd x (Dvd.intro_left (256 ^ n) rfl)
    rw [encode, encode, low, Nat.pow_succ', Nat.mod_mul_right_div_self, ih]

theorem bigEndian_halves (n : Nat) :
    bigEndian 8 n = bigEndian 4 (n / 2 ^ 32) ++ bigEndian 4 n := by
  simp only [bigEndian, encode, Nat.div_div_eq_div_mul, Nat.reducePow, Nat.reduceMul,
    List.reverse_cons, List.reverse_nil, List.nil_append, List.cons_append]

/-- The length in bits fits into the word. -/
theorem wordPadding_standard {length : Nat} (representable : length < 2 ^ 61) :
    wordPadding (zeroes length) (BitVec.ofNat 32 length <<< 3) = padding length ↔
      length < 2 ^ 29 := by
  have low : unpack32 (BitVec.ofNat 32 length <<< 3) = bigEndian 4 (8 * length) := by
    have shifted : (BitVec.ofNat 32 length <<< 3).toNat = 8 * length % 2 ^ 32 := by
      rw [BitVec.toNat_shiftLeft, BitVec.toNat_ofNat, Nat.shiftLeft_eq]
      omega
    rw [unpack32_eq, shifted, bigEndian, bigEndian, ← encode_mod 4 (8 * length)]
    rfl
  have high : List.replicate 4 (0 : Byte) = bigEndian 4 (8 * length / 2 ^ 32) ↔
      length < 2 ^ 29 := by
    have value : decode (List.replicate 4 (0 : Byte)).reverse = 0 := rfl
    constructor
    · intro same
      rw [same, bigEndian, List.reverse_reverse, decode_encode] at value
      omega
    · intro small
      rw [Nat.div_eq_of_lt (by omega)]
      rfl
  rw [← high, wordPadding, padding, bigEndian_halves, low, List.replicate_add]
  simp only [List.append_assoc, List.cons.injEq, true_and, List.append_cancel_left_eq,
    List.append_cancel_right_eq]

/-- However a message is split over calls of update, final gives the digest of the whole message
under a padding that is the standard's exactly below 2 ^ 29 bytes. -/
theorem updates_final {pieces : List (Bytes × Word)} (readable : Readable pieces)
    (size : ctx.mBlock.length = 128) :
    let message := hashed pieces
    let padding := wordPadding (zeroes message.length) (BitVec.ofNat 32 message.length <<< 3)
    (updates (init ctx) pieces).bind final = some (output (chain (message ++ padding))) ∧
      (message.length < 2 ^ 61 →
        (padding = Standard.padding message.length ↔ message.length < 2 ^ 29)) := by
  obtain ⟨after, updated, absorbed⟩ := updates_absorb (init_ready size) readable
  refine ⟨?_, wordPadding_standard⟩
  rw [updated, Option.bind_some, final_absorbs absorbed]

/-- The value-initialised object. -/
def blank : Context := ⟨0, 0, List.replicate 128 0, Vector.replicate 8 0⟩

theorem updates_abc : (updates (init blank) [([97, 98], 1), ([98, 99, 0], 2)]).bind final =
    some (digest [97, 98, 99]) := by
  have pieces : Readable [([97, 98], 1), ([98, 99, 0], 2)] := by
    intro piece inside
    rcases List.mem_pair.mp inside with rfl | rfl
    · exact ⟨by decide, by decide⟩
    · exact ⟨by decide, by decide⟩
  obtain ⟨result, exact_below⟩ := @updates_final blank _ pieces List.length_replicate
  rw [result, (exact_below (by decide)).mpr (by decide)]
  rfl

end Standard

end DPS2.Sha256
