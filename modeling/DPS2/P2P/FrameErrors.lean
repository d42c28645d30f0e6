import DPS2.P2P.Frames

/-! The checks of a frame as divisibility, and single flipped bits. Every string that
is checked has an even number of ones when it was built, whatever its length, and the
generator has the root 1: one flip is always seen, also where an undamaged frame fails. -/
namespace DPS2.P2P

open Polynomial Gf2 Codec

theorem toBlocks_append_even (as bs : Bytes) (even : as.length % 2 = 0) :
    toBlocks (as ++ bs) = toBlocks as ++ toBlocks bs := by
  induction as using toBlocks.induct with
  | case1 => rfl
  | case2 a => simp at even
  | case3 a b rest ih =>
    simp only [List.cons_append, toBlocks]
    rw [ih (by simp only [List.length_cons] at even; omega)]

theorem message_append_even (as bs : Bytes) (even : as.length % 2 = 0) :
    message (as ++ bs) = message as * X ^ (16 * (toBlocks bs).length) + message bs := by
  rw [message, toBlocks_append_even as bs even, ofBlocks_append]
  rfl

theorem crc_split (crc : PolyType) : crc.extractLsb' 8 8 ++ crc.extractLsb' 0 8 = crc :=
  BitVec.extractLsb'_append_extractLsb'

theorem message_crcBytes (crc : PolyType) : message (crcBytes crc) = ofBitVec crc := by
  rw [message, crcBytes, toBlocks, toBlocks, ofBlocks_singleton]
  exact congrArg ofBitVec (crc_split crc)

theorem generator_congr (data : Bytes) :
    generator ∣ message data * X ^ 16 + ofBitVec (getCrc data) :=
  (dvd_mul_left generator X).trans (getCrc_congr data)

theorem even_accepted (data : Bytes) (even : data.length % 2 = 0) :
    generator ∣ message (data ++ crcBytes (getCrc data)) := by
  rw [message_append_even data _ even, message_crcBytes]
  exact generator_congr data

/- The number of ones modulo two. -/
noncomputable def parity (data : Bytes) : ZMod 2 := (message data).eval 1

noncomputable def byteParity (b : Byte) : ZMod 2 := (ofBitVec b).eval 1

theorem parity_sum (data : Bytes) : parity data = (data.map byteParity).sum := by
  induction data using toBlocks.induct with
  | case1 => simp [parity, message, toBlocks, ofBlocks]
  | case2 a =>
    rw [parity, message, toBlocks, ofBlocks_singleton, ofBitVec_append, ofBitVec_zero]
    simp [byteParity]
  | case3 a b rest ih =>
    rw [List.map_cons, List.map_cons, List.sum_cons, List.sum_cons, ← ih, parity, message,
      toBlocks, ofBlocks, ofBitVec_append]
    simp only [eval_add, eval_mul, eval_pow, eval_X, one_pow, mul_one]
    rw [add_comm (eval 1 (ofBitVec b)), add_assoc]
    rfl

theorem parity_append (as bs : Bytes) : parity (as ++ bs) = parity as + parity bs := by
  simp only [parity_sum, List.map_append, List.sum_append]

theorem parity_take_drop (n : Nat) (data : Bytes) :
    parity (data.take n) + parity (data.drop n) = parity data := by
  rw [← parity_append, List.take_append_drop]

theorem byteParity_flip (b : Byte) {e : Nat} (he : e < 8) :
    byteParity (b ^^^ ((1 : Byte) <<< e)) = byteParity b + 1 := by
  have single : (1 : Byte) <<< e = BitVec.twoPow 8 e := (BitVec.twoPow_eq 8 e).symm
  rw [byteParity, single, ofBitVec_xor, ofBitVec_twoPow he, eval_add, eval_pow, eval_X, one_pow]
  rfl

theorem parity_flip (data : Bytes) {r e : Nat} (hr : r < data.length) (he : e < 8) :
    parity (data.modify r (fun b => b ^^^ ((1 : Byte) <<< e))) = parity data + 1 := by
  have whole := parity_take_drop r data
  rw [List.drop_eq_getElem_cons hr] at whole
  rw [List.modify_eq_take_cons_drop hr, parity_append, ← whole]
  simp only [parity_sum, List.map_cons, List.sum_cons, byteParity_flip _ he]
  ring

theorem parity_of_divisible {data : Bytes} (h : generator ∣ message data) : parity data = 0 := by
  obtain ⟨q, hq⟩ := h
  rw [parity, hq, eval_mul, generator_root, zero_mul]

theorem odd_not_divisible {data : Bytes} (h : parity data = 1) : ¬ generator ∣ message data :=
  fun divides => zero_ne_one ((parity_of_divisible divides).symm.trans h)

/-- Data followed by its own checksum has an even number of ones, for either parity
of the length, although check_crc need not accept it. -/
theorem parity_with_crc (data : Bytes) : parity (data ++ crcBytes (getCrc data)) = 0 := by
  obtain ⟨q, hq⟩ := generator_congr data
  have value := congrArg (eval 1) hq
  rw [eval_mul, generator_root, zero_mul, eval_add, eval_mul, eval_pow, eval_X, one_pow, mul_one,
    ← message_crcBytes] at value
  rw [parity_append]
  exact value

/- The two strings that check_message_crc divides. -/

def headerString (data : Bytes) : Bytes :=
  (clearHeaderChecksum data).take (headerSize - 2) ++ slice 18 2 data

def payloadString (data : Bytes) : Bytes := data.drop headerSize ++ slice 16 2 data

theorem clear_take (data : Bytes) {n : Nat} (h : n ≤ 18) (long : 18 ≤ data.length) :
    (clearHeaderChecksum data).take n = data.take n := by
  rw [clearHeaderChecksum, List.append_assoc, List.take_append_of_le_length
    (by rw [List.length_take]; omega), List.take_take, Nat.min_eq_left h]

theorem clear_drop (data : Bytes) {n : Nat} (h : 20 ≤ n) (long : 20 ≤ data.length) :
    (clearHeaderChecksum data).drop n = data.drop n := by
  have front : (data.take 18 ++ List.replicate 2 (0 : Byte)).length = 20 := by
    rw [List.length_append, List.length_take, List.length_replicate]
    omega
  rw [clearHeaderChecksum, List.drop_append, front, List.drop_eq_nil_of_le (by omega),
    List.nil_append, List.drop_drop]
  congr 1
  omega

theorem header_check_iff (data : Bytes) (long : headerSize ≤ data.length) :
    checkMessageCrc data headerSize = true ↔ generator ∣ message (headerString data) := by
  have field : (slice 18 2 data).length = 2 := slice_length (by unfold headerSize at long; omega)
  rw [checkMessageCrc, beq_self_eq_true, Bool.true_or, Bool.and_true, checkCrc_iff,
    headerChecksumField, crcBytes_crcOfBytes field, headerString]

theorem frame_check_iff (data : Bytes) (long : headerSize ≤ data.length)
    (fits : data.length < 2 ^ 64) :
    checkMessageCrc data data.length = true ↔ generator ∣ message (headerString data) ∧
      (data.length = headerSize ∨ generator ∣ message (payloadString data)) := by
  unfold headerSize at long
  have field : (slice 18 2 data).length = 2 := slice_length (by omega)
  have checksum : (slice 16 2 data).length = 2 := slice_length (by omega)
  have kept : slice 16 2 (clearHeaderChecksum data) = slice 16 2 data := by
    rw [slice, slice, List.take_drop, List.take_drop, clear_take data (by omega) (by omega)]
  have rest : slice headerSize (sizeSub data.length headerSize) (clearHeaderChecksum data) =
      data.drop headerSize := by
    unfold headerSize
    have count : sizeSub data.length 24 = (data.drop 24).length := by
      rw [sizeSub, List.length_drop]
      omega
    rw [slice, clear_drop data (by omega) (by omega), count, List.take_length]
  rw [checkMessageCrc, Bool.and_eq_true, Bool.or_eq_true, beq_iff_eq, checkCrc_iff, checkCrc_iff,
    rest, headerChecksumField, dataChecksumField, kept, crcBytes_crcOfBytes field,
    crcBytes_crcOfBytes checksum, headerString, payloadString]

theorem parity_headerString (data : Bytes) (long : headerSize ≤ data.length) :
    parity (headerString data) = parity (data.take 22) := by
  unfold headerSize at long
  have front : (clearHeaderChecksum data).take 22 =
      data.take 18 ++ List.replicate 2 0 ++ slice 20 2 data := by
    rw [clearHeaderChecksum, List.take_append]
    have size : (data.take 18 ++ List.replicate 2 (0 : Byte)).length = 20 := by
      rw [List.length_append, List.length_take, List.length_replicate]
      omega
    rw [List.take_of_length_le (by omega), size]
    rfl
  have zeros : parity (List.replicate 2 0) = 0 := by simp [parity_sum, byteParity]
  have pieces : data.take 22 = data.take 18 ++ (slice 18 2 data ++ slice 20 2 data) := by
    have h20 : data.take 20 = data.take 18 ++ slice 18 2 data := by
      rw [slice, ← List.take_add]
    rw [← List.append_assoc, ← h20, slice, ← List.take_add]
  rw [headerString, headerSize, front, pieces]
  simp only [parity_append, zeros]
  ring

/- The fields of a header, read back from its bytes. -/

section Layout

variable (h : MessageHeader) (rest : Bytes)

@[simp] theorem toBytes_length : h.toBytes.length = headerSize := by
  simp [MessageHeader.toBytes, crcBytes, headerSize]

theorem typeField_toBytes : typeField (h.toBytes ++ rest) = h.type.code := by
  have read : slice 0 4 (h.toBytes ++ rest) = encode 4 h.type.code := by
    simp [MessageHeader.toBytes, slice, encode]
  rw [typeField, read, decode_encode_of_lt]
  cases h.type <;> decide

theorem lenField_toBytes (fits : h.len < 2 ^ 64) : lenField (h.toBytes ++ rest) = h.len := by
  have read : slice 8 8 (h.toBytes ++ rest) = encode 8 h.len := by
    simp [MessageHeader.toBytes, slice, encode]
  rw [lenField, read, decode_encode_of_lt fits]

theorem dataChecksum_toBytes :
    slice 16 2 (h.toBytes ++ rest) = crcBytes h.messageDataChecksum := by
  simp [MessageHeader.toBytes, slice, encode, crcBytes]

theorem headerChecksum_toBytes :
    slice 18 2 (h.toBytes ++ rest) = crcBytes h.messageHeaderChecksum := by
  simp [MessageHeader.toBytes, slice, encode, crcBytes]

theorem clear_toBytes :
    (clearHeaderChecksum (h.toBytes ++ rest)).take (headerSize - 2) =
      (MessageHeader.mk h.type h.len h.messageDataChecksum 0).toBytes.take (headerSize - 2) := by
  simp [clearHeaderChecksum, MessageHeader.toBytes, encode, crcBytes, headerSize]

end Layout

section Frame

variable (type : MessageType) (data : Payload)

@[simp] theorem initMessageHeader_type (len : Nat) (crc : PolyType) :
    (initMessageHeader type len crc).type = type := rfl

@[simp] theorem initMessageHeader_len (len : Nat) (crc : PolyType) :
    (initMessageHeader type len crc).len = len := rfl

@[simp] theorem initMessageHeader_dataChecksum (len : Nat) (crc : PolyType) :
    (initMessageHeader type len crc).messageDataChecksum = crc := rfl

theorem initMessageHeader_headerChecksum (len : Nat) (crc : PolyType) :
    (initMessageHeader type len crc).messageHeaderChecksum =
      getCrc ((MessageHeader.mk type len crc 0).toBytes.take (headerSize - 2)) := by
  simp only [initMessageHeader]

theorem frame_length : (frame type data).length = headerSize + data.bytes.length := by
  rw [frame, List.length_append, toBytes_length]

theorem frame_payload : (frame type data).drop headerSize = data.bytes :=
  List.drop_left' (toBytes_length _)

theorem frame_type : typeField (frame type data) = type.code := by
  rw [frame, typeField_toBytes, initMessageHeader_type]

theorem frame_len : lenField (frame type data) = (frame type data).length := by
  rw [frame_length, frame, lenField_toBytes, initMessageHeader_len]
  rw [initMessageHeader_len]
  exact data.fits

theorem frame_payloadString :
    payloadString (frame type data) = data.bytes ++ crcBytes (getCrc data.bytes) := by
  rw [payloadString, frame_payload, frame, dataChecksum_toBytes, initMessageHeader_dataChecksum]

theorem frame_header_divisible : generator ∣ message (headerString (frame type data)) := by
  rw [headerString, frame, clear_toBytes, headerChecksum_toBytes, initMessageHeader_headerChecksum,
    initMessageHeader_type, initMessageHeader_len, initMessageHeader_dataChecksum]
  apply even_accepted
  rw [List.length_take, toBytes_length]
  rfl

end Frame

/-- A frame together with its payload, from any of the four places that build one. -/
inductive Built : Bytes → Payload → Prop where
  | broadcast (data : Payload) : Built (broadcastFrame data) data
  | respond (message : Payload) : Built (respondFrame message) message
  | networkInformation (data : Payload) : Built (initNetworkInformation data).1 data
  | peerAddressHeader (pa : PeerAddress) (mtype : MessageType) :
      Built (initPeerAddressHeader pa mtype) pa.payload

theorem Built.eq_frame {bytes : Bytes} {data : Payload} (h : Built bytes data) :
    ∃ type, bytes = frame type data := by
  cases h with
  | broadcast => exact ⟨.p2p, rfl⟩
  | respond => exact ⟨.p2p, rfl⟩
  | networkInformation => exact ⟨.netinfo, rfl⟩
  | peerAddressHeader pa mtype => exact ⟨mtype, rfl⟩

/- One flipped bit, by where it lies. -/

section Flip

variable {data : Bytes} {r e : Nat}

theorem slice_modify {offset n : Nat} (f : Byte → Byte) (h : r < offset ∨ offset + n ≤ r) :
    slice offset n (data.modify r f) = slice offset n data := by
  rcases h with before | after
  · rw [slice, List.drop_modify_of_lt f r offset data before, slice]
  · rw [slice, List.drop_modify_of_ge f r offset data (by omega), List.take_modify, slice,
      List.modify_eq_self]
    rw [List.length_take]
    omega

theorem header_flip_rejected (divisible : generator ∣ message (headerString data))
    (long : headerSize ≤ data.length) (he : e < 8) (hr : r < 22) :
    ¬ generator ∣ message
      (headerString ((data.modify r (fun b => b ^^^ ((1 : Byte) <<< e))).take headerSize)) := by
  unfold headerSize at long
  apply odd_not_divisible
  rw [parity_headerString _ (by simp [headerSize]; omega), List.take_take, List.take_modify,
    parity_flip _ (by rw [List.length_take]; unfold headerSize; omega) he]
  have even := parity_of_divisible divisible
  rw [parity_headerString _ long] at even
  rw [headerSize, Nat.min_eq_left (by omega), even, zero_add]

theorem payload_flip_rejected (even : parity (payloadString data) = 0) (he : e < 8)
    (behind : headerSize ≤ r) (hr : r < data.length) :
    ¬ generator ∣ message
      (payloadString (data.modify r (fun b => b ^^^ ((1 : Byte) <<< e)))) := by
  apply odd_not_divisible
  unfold headerSize at behind
  rw [payloadString, headerSize, List.drop_modify_of_ge _ r 24 data behind, parity_append,
    parity_flip _ (by rw [List.length_drop]; omega) he, slice_modify _ (Or.inr (by omega))]
  rw [payloadString, headerSize, parity_append] at even
  linear_combination even

end Flip

theorem every_flip_caught (bytes : Bytes) (data : Payload) (built : Built bytes data)
    (rand1 rand2 : Nat) :
    checkMessageCrc ((flipRandomBit bytes rand1 rand2).take headerSize) headerSize = false ∨
    checkMessageCrc (flipRandomBit bytes rand1 rand2)
      (lenField (flipRandomBit bytes rand1 rand2)) = false ∨
    ((rand2 % bytes.length = 22 ∨ rand2 % bytes.length = 23) ∧
      typeField (flipRandomBit bytes rand1 rand2) = typeField bytes ∧
      lenField (flipRandomBit bytes rand1 rand2) = lenField bytes ∧
      (flipRandomBit bytes rand1 rand2).drop headerSize = data.bytes) := by
  obtain ⟨type, rfl⟩ := built.eq_frame
  have size := frame_length type data
  have len := frame_len type data
  have fits := data.fits
  unfold headerSize at size fits
  have inside : rand2 % (frame type data).length < (frame type data).length :=
    Nat.mod_lt _ (by omega)
  have bitInside : rand1 % 8 < 8 := Nat.mod_lt _ (by decide)
  simp only [flipRandomBit]
  generalize rand2 % (frame type data).length = r at inside ⊢
  rcases Nat.lt_or_ge r 22 with header | after
  · left
    rw [Bool.eq_false_iff, ne_eq, header_check_iff _ (by simp [headerSize]; omega)]
    exact header_flip_rejected (frame_header_divisible type data) (by unfold headerSize; omega)
      bitInside header
  · have sameLen : lenField
          ((frame type data).modify r (fun b => b ^^^ ((1 : Byte) <<< (rand1 % 8)))) =
        lenField (frame type data) := by
      rw [lenField, slice_modify _ (Or.inr (by omega)), lenField]
    rcases Nat.lt_or_ge r 24 with padding | behind
    · right; right
      refine ⟨by omega, ?_, sameLen, ?_⟩
      · rw [typeField, slice_modify _ (Or.inr (by omega)), typeField]
      · rw [List.drop_modify_of_lt _ r headerSize _ padding, frame_payload]
    · right; left
      have even : parity (payloadString (frame type data)) = 0 := by
        rw [frame_payloadString]
        exact parity_with_crc _
      have rejected := payload_flip_rejected even bitInside behind inside
      rw [sameLen, len, ← List.length_modify, Bool.eq_false_iff, ne_eq,
        frame_check_iff _ (by rw [List.length_modify]; unfold headerSize; omega)
          (by rw [List.length_modify]; omega)]
      rintro ⟨_, short | divides⟩
      · rw [List.length_modify] at short
        unfold headerSize at short
        omega
      · exact rejected divides

theorem heartbeat_flip_caught :
    let sent := initPeerAddressHeader ⟨2, 80, 1⟩ .heartbeat
    let damaged := flipRandomBit sent 3 9
    checkMessageCrc (damaged.take headerSize) headerSize = false ∨
    checkMessageCrc damaged (lenField damaged) = false ∨
    ((9 % sent.length = 22 ∨ 9 % sent.length = 23) ∧ typeField damaged = typeField sent ∧
      lenField damaged = lenField sent ∧
      damaged.drop headerSize = (PeerAddress.payload ⟨2, 80, 1⟩).bytes) :=
  every_flip_caught _ _ (.peerAddressHeader ⟨2, 80, 1⟩ .heartbeat) 3 9

end DPS2.P2P
