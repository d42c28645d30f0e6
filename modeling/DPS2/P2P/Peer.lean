import DPS2.P2P.FrameErrors

/-! The receiving side of a peer, and which undamaged frames it delivers. The checksum
of a payload of odd length is stored at an odd offset, where check_crc reads its two
bytes into different blocks; only two remainders survive that. -/
namespace DPS2.P2P

open Polynomial Gf2 Codec

/-- The out-parameters message and message_len of receive. -/
structure Received where
  message : Option Bytes
  messageLen : Nat
  deriving DecidableEq

/-- The ioctl FIONREAD reports the size of the first waiting datagram. -/
def isDataAvailable : List Bytes → Bool
  | [] => false
  | datagram :: _ => decide (0 < datagram.length)

/-- One call of receive on the datagrams waiting at own_sockfd. A receive call copies
at most the requested bytes and drops the rest of the datagram. -/
def receive (sock : List Bytes) (out : Received) : List Bytes × Received :=
  if isDataAvailable sock then
    match sock with
    | [] => (sock, ⟨none, 0⟩)
    | datagram :: rest =>
        -- MSG_PEEK leaves the datagram in the socket
        let header := datagram.take headerSize
        if checkMessageCrc header headerSize then
          let data := datagram.take (lenField header)
          if checkMessageCrc data (lenField header) && typeField header == MessageType.p2p.code then
            let messageLen := sizeSub (lenField header) headerSize
            (rest, ⟨some (slice headerSize messageLen data), messageLen⟩)
          else (rest, ⟨none, 0⟩)
        else
          -- the datagram is skipped; message and message_len are not written
          (rest, out)
  else (sock, ⟨none, 0⟩)

def accepted (datagram : Bytes) : Bool :=
  checkMessageCrc (datagram.take headerSize) headerSize &&
    checkMessageCrc datagram (lenField datagram) && typeField datagram == MessageType.p2p.code

theorem field_take (datagram : Bytes) {offset n : Nat} (h : offset + n ≤ headerSize) :
    slice offset n (datagram.take headerSize) = slice offset n datagram := by
  rw [slice, slice, List.take_drop, List.take_take, Nat.min_eq_left h, List.take_drop]

theorem lenField_take (datagram : Bytes) :
    lenField (datagram.take headerSize) = lenField datagram :=
  congrArg decode (field_take datagram (by decide))

theorem typeField_take (datagram : Bytes) :
    typeField (datagram.take headerSize) = typeField datagram :=
  congrArg decode (field_take datagram (by decide))

/-- A header, and a length that is the len of the header when the header checks. -/
structure WellFormed (datagram : Bytes) : Prop where
  long : headerSize ≤ datagram.length
  fits : datagram.length < 2 ^ 64
  sized : checkMessageCrc (datagram.take headerSize) headerSize = true →
    lenField datagram = datagram.length

section Receive

variable {datagram : Bytes} (rest : List Bytes) (out : Received)

theorem receive_accepted (wf : WellFormed datagram) (h : accepted datagram = true) :
    receive (datagram :: rest) out =
      (rest, ⟨some (datagram.drop headerSize), datagram.length - headerSize⟩) := by
  simp only [accepted, Bool.and_eq_true] at h
  obtain ⟨⟨header, whole⟩, type⟩ := h
  have long := wf.long
  have fits := wf.fits
  have sized := wf.sized header
  unfold headerSize at long
  have data : isDataAvailable (datagram :: rest) = true := decide_eq_true (by omega)
  have count : sizeSub datagram.length headerSize = datagram.length - headerSize := by
    unfold sizeSub headerSize
    omega
  have copied : slice headerSize (datagram.length - headerSize) datagram =
      datagram.drop headerSize := by
    rw [slice, List.take_of_length_le (Nat.le_of_eq (List.length_drop ..))]
  rw [sized] at whole
  simp only [receive, data, if_true, header, lenField_take, typeField_take, sized,
    List.take_length, whole, type, Bool.and_true, count, copied]

theorem receive_body_rejected (wf : WellFormed datagram)
    (header : checkMessageCrc (datagram.take headerSize) headerSize = true)
    (h : accepted datagram = false) : receive (datagram :: rest) out = (rest, ⟨none, 0⟩) := by
  have long := wf.long
  unfold headerSize at long
  have data : isDataAvailable (datagram :: rest) = true := decide_eq_true (by omega)
  have sized := wf.sized header
  simp only [accepted, header, Bool.true_and, sized] at h
  simp only [receive, data, if_true, header, lenField_take, typeField_take, sized,
    List.take_length, h, Bool.false_eq_true, if_false]

theorem receive_header_rejected (wf : WellFormed datagram)
    (h : checkMessageCrc (datagram.take headerSize) headerSize = false) :
    receive (datagram :: rest) out = (rest, out) := by
  have long := wf.long
  unfold headerSize at long
  have data : isDataAvailable (datagram :: rest) = true := decide_eq_true (by omega)
  simp only [receive, data, if_true, h, Bool.false_eq_true, if_false]

end Receive

theorem frame_wellFormed (type : MessageType) (data : Payload) : WellFormed (frame type data) where
  long := by rw [frame_length]; omega
  fits := by rw [frame_length]; exact data.fits
  sized := fun _ => frame_len type data

/- What check_crc divides when the checksum follows data of odd length. -/

theorem message_append_odd (data : Bytes) (lo hi : Byte) (odd : data.length % 2 = 1) :
    message (data ++ [lo, hi]) =
      message data * X ^ 16 + (ofBitVec lo * X ^ 24 + ofBitVec hi) := by
  induction data using toBlocks.induct with
  | case1 => simp at odd
  | case2 a =>
    simp only [List.cons_append, List.nil_append, message, toBlocks, ofBlocks, ofBitVec_append,
      ofBitVec_zero, List.length_cons, List.length_nil]
    ring
  | case3 a b rest ih =>
    have tail := ih (by simp only [List.length_cons] at odd; omega)
    have size : (toBlocks (rest ++ [lo, hi])).length = (toBlocks rest).length + 1 := by
      rw [toBlocks_length, toBlocks_length, List.length_append]
      simp only [List.length_cons, List.length_nil]
      omega
    simp only [message] at tail
    simp only [List.cons_append, message, toBlocks, ofBlocks, tail, size]
    ring

theorem odd_check_iff (data : Bytes) (lo hi : Byte) (odd : data.length % 2 = 1)
    (crc : getCrc data = hi ++ lo) :
    generator ∣ message (data ++ [lo, hi]) ↔
      generator ∣ message [0, lo, lo, 0] + message [0, 0, hi, hi] := by
  have value := generator_congr data
  rw [crc, ofBitVec_append] at value
  have crossed : message [0, lo, lo, 0] + message [0, 0, hi, hi] =
      (ofBitVec hi * X ^ 8 + ofBitVec lo) + (ofBitVec lo * X ^ 24 + ofBitVec hi) := by
    have zero : ofBitVec (0 : Byte) = 0 := ofBitVec_zero 8
    simp only [message, toBlocks, ofBlocks, ofBitVec_append, zero, List.length_cons,
      List.length_nil]
    ring
  rw [message_append_odd data lo hi odd, crossed]
  have shifted := congr_mul_add value 1 (ofBitVec lo * X ^ 24 + ofBitVec hi)
  rw [mul_one, mul_one] at shifted
  exact congr_dvd_iff shifted

theorem getCrc_eq_iff (as bs : Bytes) :
    getCrc as = getCrc bs ↔ generator ∣ message as + message bs := by
  have sum : X * generator ∣ (message as + message bs) * X ^ 16 +
      ofBitVec (getCrc as ^^^ getCrc bs) := by
    have regroup : (message as + message bs) * X ^ 16 +
        (ofBitVec (getCrc as) + ofBitVec (getCrc bs)) =
        (message as * X ^ 16 + ofBitVec (getCrc as)) +
          (message bs * X ^ 16 + ofBitVec (getCrc bs)) := by ring
    rw [ofBitVec_xor, regroup]
    exact dvd_add (getCrc_congr as) (getCrc_congr bs)
  rw [← modulus_dvd_shifted, congr_dvd_iff sum, modulus_dvd_word]
  exact BitVec.xor_eq_zero_iff.symm

theorem getCrc_low (data : Bytes) : (getCrc data).getLsbD 0 = false := by
  have sum : X ∣ message data * X ^ 16 + ofBitVec (getCrc data) :=
    (dvd_mul_right X generator).trans (getCrc_congr data)
  have shifted : X ∣ message data * X ^ 16 := (dvd_pow_self X (by decide)).mul_left _
  have word := X_dvd_iff.mp ((dvd_add_right shifted).mp sum)
  rw [coeff_ofBitVec] at word
  exact bit_inj word

/-- Reads the high checksum byte back out of its misplaced contribution. -/
def uncross (v : PolyType) : Byte :=
  ([0xa1, 0x69, 0xd2, 0x8f, 0x35, 0x6a, 0xdb, 0x92] : List Byte).zipIdx.foldl
    (fun m c => if v.getLsbD (c.2 + 1) then m ^^^ c.1 else m) 0

theorem uncross_high : ∀ hi : Byte, uncross (getCrc [0, 0, hi, hi]) = hi := by decide +kernel

theorem uncross_low : ∀ lo : Byte, lo.getLsbD 0 = false →
    getCrc [0, lo, lo, 0] =
      getCrc [0, 0, uncross (getCrc [0, lo, lo, 0]), uncross (getCrc [0, lo, lo, 0])] →
    lo = 0 ∨ lo = 0x92 := by decide +kernel

theorem uncross_values : uncross (getCrc [0, 0, 0, 0]) = 0 ∧
    uncross (getCrc [0, 0x92, 0x92, 0]) = 0x51 := by decide

theorem crossing_values :
    getCrc [0, 0x92, 0x92, 0] = getCrc [0, 0, 0x51, 0x51] := by decide

theorem odd_check_values (data : Bytes) (odd : data.length % 2 = 1) :
    generator ∣ message (data ++ crcBytes (getCrc data)) ↔
      getCrc data = 0 ∨ getCrc data = 0x5192 := by
  obtain ⟨lo, hi, crc⟩ : ∃ lo hi : Byte, getCrc data = hi ++ lo :=
    ⟨(getCrc data).extractLsb' 0 8, (getCrc data).extractLsb' 8 8, (crc_split _).symm⟩
  have bytes : crcBytes (getCrc data) = [lo, hi] := by
    rw [crc]
    exact @crcBytes_crcOfBytes [lo, hi] rfl
  have low : lo.getLsbD 0 = false := by
    have := getCrc_low data
    rw [crc, BitVec.getLsbD_append] at this
    simpa using this
  rw [bytes, odd_check_iff data lo hi odd crc, ← getCrc_eq_iff, crc]
  constructor
  · intro same
    have high : uncross (getCrc [0, lo, lo, 0]) = hi := by rw [same, uncross_high]
    have even := uncross_low lo low (by rw [high, same])
    rcases even with rfl | rfl
    · rw [← high, uncross_values.1]
      decide
    · rw [← high, uncross_values.2]
      decide
  · have split : ∀ v : PolyType, hi ++ lo = v →
        lo = v.extractLsb' 0 8 ∧ hi = v.extractLsb' 8 8 := by
      rintro v rfl
      exact ⟨((BitVec.extractLsb'_append_eq_of_add_le (by omega)).trans
        BitVec.extractLsb'_eq_self).symm, ((BitVec.extractLsb'_append_eq_of_le (by omega)).trans
        BitVec.extractLsb'_eq_self).symm⟩
    rintro (zero | exception)
    · obtain ⟨rfl, rfl⟩ := split _ zero
      rfl
    · obtain ⟨rfl, rfl⟩ := split _ exception
      exact crossing_values

theorem getCrc_exception (data : Bytes) :
    getCrc data = 0x5192 ↔ generator ∣ message data + ofBitVec (0x5D16 : PolyType) := by
  have word : message [0x16, 0x5D] = ofBitVec (0x5D16 : PolyType) := by
    rw [message, toBlocks, toBlocks, ofBlocks_singleton]
    rfl
  have value : getCrc [0x16, 0x5D] = 0x5192 := by decide
  rw [← word, ← getCrc_eq_iff, value]

/-- An even length, or a payload whose remainder modulo POLY is 0 or 0x5D16. -/
def Deliverable (data : Bytes) : Prop :=
  data.length % 2 = 0 ∨ generator ∣ message data ∨
    generator ∣ message data + ofBitVec (0x5D16 : PolyType)

theorem payload_check_iff (data : Bytes) :
    generator ∣ message (data ++ crcBytes (getCrc data)) ↔ Deliverable data := by
  rcases Nat.mod_two_eq_zero_or_one data.length with even | odd
  · exact ⟨fun _ => Or.inl even, fun _ => even_accepted data even⟩
  · rw [odd_check_values data odd, getCrc_eq_zero, getCrc_exception, Deliverable, odd]
    simp

def Delivered (datagram : Bytes) (data : Payload) : Prop :=
  checkMessageCrc (datagram.take headerSize) headerSize = true ∧
  checkMessageCrc datagram datagram.length = true ∧
  ∀ (rest : List Bytes) (out : Received),
    receive (datagram :: rest) out = (rest, ⟨some data.bytes, data.bytes.length⟩)

/-- The peeked header and the whole frame give the header check the same bytes. -/
theorem headerString_take (data : Bytes) (long : headerSize ≤ data.length) :
    headerString (data.take headerSize) = headerString data := by
  unfold headerSize at long
  have field : slice 18 2 (data.take 24) = slice 18 2 data := field_take data (by decide)
  have cleared : clearHeaderChecksum (data.take 24) = (clearHeaderChecksum data).take 24 := by
    have front : (data.take 18 ++ List.replicate 2 (0 : Byte)).length = 20 := by
      rw [List.length_append, List.length_take, List.length_replicate]
      omega
    have whole := List.take_of_length_le (Nat.le_trans (Nat.le_of_eq front) (by decide : 20 ≤ 24))
    rw [clearHeaderChecksum, clearHeaderChecksum, List.take_append, front, whole, List.take_take,
      List.drop_take]
    rfl
  rw [headerString, headerString, headerSize, cleared, field, List.take_take]
  rfl

section Frame

variable (type : MessageType) (data : Payload)

theorem frame_header_checks :
    checkMessageCrc ((frame type data).take headerSize) headerSize = true := by
  have long : headerSize ≤ (frame type data).length := by rw [frame_length]; omega
  rw [header_check_iff _ (by simp; omega), headerString_take _ long]
  exact frame_header_divisible type data

theorem frame_checks_iff :
    checkMessageCrc (frame type data) (frame type data).length = true ↔ Deliverable data.bytes := by
  have size := frame_length type data
  have long : headerSize ≤ (frame type data).length := by omega
  rw [frame_check_iff _ long (frame_wellFormed type data).fits, size, frame_payloadString,
    payload_check_iff]
  constructor
  · rintro ⟨_, short | deliverable⟩
    · exact Or.inl (by omega)
    · exact deliverable
  · exact fun deliverable => ⟨frame_header_divisible type data, Or.inr deliverable⟩

end Frame

theorem frame_delivered_iff (data : Payload) :
    Delivered (frame .p2p data) data ↔ Deliverable data.bytes := by
  constructor
  · rintro ⟨_, whole, _⟩
    exact (frame_checks_iff .p2p data).mp whole
  · intro deliverable
    have header := frame_header_checks .p2p data
    have whole := (frame_checks_iff .p2p data).mpr deliverable
    refine ⟨header, whole, fun rest out => ?_⟩
    have good : accepted (frame .p2p data) = true := by
      rw [accepted, header, frame_len, whole, frame_type]
      rfl
    rw [receive_accepted rest out (frame_wellFormed .p2p data) good, frame_payload, frame_length,
      Nat.add_sub_cancel_left]

/-- An undamaged frame arrives exactly when the checksum of its payload is readable. -/
theorem undamaged_frame_delivered (data : Payload) :
    (Delivered (broadcastFrame data) data ↔ Deliverable data.bytes) ∧
    (Delivered (respondFrame data) data ↔ Deliverable data.bytes) :=
  ⟨frame_delivered_iff data, frame_delivered_iff data⟩

theorem odd_payload_dropped :
    ∃ data : Payload, data.bytes = [1] ∧ ¬ Delivered (broadcastFrame data) data := by
  refine ⟨⟨[1], by decide⟩, rfl, ?_⟩
  rintro ⟨_, whole, _⟩
  revert whole
  decide +kernel

end DPS2.P2P
