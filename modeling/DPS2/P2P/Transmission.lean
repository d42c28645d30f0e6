import DPS2.P2P.Inbox

/-! Frames on their way through send_message, which may flip a bit. What passes the checks of a
receiver is what was framed; a flipped bit goes unnoticed only in the padding of the header. -/
namespace DPS2.P2P

open Polynomial Gf2 Codec

/-- The results of rand in one call of send_message. -/
structure Rands where
  chance : Nat
  bit : Nat
  byte : Nat

/-- BITFLIP_CHANCE is a parameter. -/
def sendMessage (bitflipChance : Nat) (data : Bytes) (rands : Rands) : Bytes :=
  if rands.chance % 100 < bitflipChance then flipRandomBit data rands.bit rands.byte else data

/-- No bit is flipped, or one in the padding behind the checksums of the header. -/
def Harmless (bitflipChance length : Nat) (rands : Rands) : Prop :=
  rands.chance % 100 < bitflipChance → rands.byte % length = 22 ∨ rands.byte % length = 23

instance (bitflipChance length : Nat) (rands : Rands) :
    Decidable (Harmless bitflipChance length rands) :=
  inferInstanceAs (Decidable (_ → _))

section Padding

variable {data : Bytes} {r : Nat} (f : Byte → Byte)

theorem headerString_padding (behind : 22 ≤ r) (long : headerSize ≤ data.length) :
    headerString (data.modify r f) = headerString data := by
  unfold headerSize at long
  have field : slice 18 2 (data.modify r f) = slice 18 2 data := slice_modify f (Or.inr (by omega))
  have size : (data.take 18).length = 18 := by
    rw [List.length_take]
    omega
  have cleared : (clearHeaderChecksum (data.modify r f)).take 22 =
      (clearHeaderChecksum data).take 22 := by
    have first : (data.modify r f).take 18 = data.take 18 := by
      rw [List.take_modify, List.modify_eq_self (by omega)]
    have last : (data.modify r f).drop 20 = (data.drop 20).modify (r - 20) f :=
      List.drop_modify_of_ge f r 20 data (by omega)
    have cut : ∀ rest, (data.take 18 ++ List.replicate 2 (0 : Byte) ++ rest).take 22 =
        data.take 18 ++ List.replicate 2 0 ++ rest.take 2 := by
      intro rest
      have front : (data.take 18 ++ List.replicate 2 (0 : Byte)).length = 20 := by
        rw [List.length_append, size, List.length_replicate]
      rw [show 22 = (data.take 18 ++ List.replicate 2 (0 : Byte)).length + 2 by rw [front],
        List.take_length_add_append]
    have kept : ((data.drop 20).take 2).modify (r - 20) f = (data.drop 20).take 2 := by
      rw [List.modify_eq_self]
      rw [List.length_take]
      omega
    rw [clearHeaderChecksum, clearHeaderChecksum, first, last, cut, cut, List.take_modify, kept]
  rw [headerString, headerString, headerSize, cleared, field]

theorem payloadString_padding (behind : 22 ≤ r) (before : r < headerSize) :
    payloadString (data.modify r f) = payloadString data := by
  rw [payloadString, payloadString, List.drop_modify_of_lt f r headerSize data before,
    slice_modify f (Or.inr (by omega))]

end Padding

section Sent

variable (bitflipChance : Nat) (type : MessageType) (data : Payload) (rands : Rands)

theorem sendMessage_length :
    (sendMessage bitflipChance (frame type data) rands).length =
      headerSize + data.bytes.length := by
  unfold sendMessage flipRandomBit
  split
  · rw [List.length_modify, frame_length]
  · exact frame_length type data

variable {type data}

/-- A flipped bit outside the padding is noticed. -/
theorem flip_rejected {r e : Nat} (inside : r < (frame type data).length) (bit : e < 8)
    (checked : r ≠ 22 ∧ r ≠ 23) :
    let sent := (frame type data).modify r fun b => b ^^^ ((1 : Byte) <<< e)
    checkMessageCrc (sent.take headerSize) headerSize = false ∨
      checkMessageCrc sent sent.length = false ∧ lenField sent = sent.length := by
  have size := frame_length type data
  have long : headerSize ≤ (frame type data).length := by omega
  have header := frame_header_divisible type data
  rcases Nat.lt_or_ge r 22 with before | after
  · left
    rw [Bool.eq_false_iff, ne_eq, header_check_iff _ (by simp [headerSize] at *; omega)]
    exact header_flip_rejected header long bit before
  · right
    have behind : headerSize ≤ r := by
      unfold headerSize
      omega
    have even : parity (payloadString (frame type data)) = 0 := by
      rw [frame_payloadString]
      exact parity_with_crc _
    have rejected := payload_flip_rejected even bit behind inside
    constructor
    · rw [Bool.eq_false_iff, ne_eq, frame_check_iff _ (by rwa [List.length_modify])
        (by rw [List.length_modify]; exact (frame_wellFormed type data).fits)]
      rintro ⟨_, short | divides⟩
      · rw [List.length_modify] at short
        omega
      · exact rejected divides
    · rw [lenField, slice_modify _ (Or.inr (by unfold headerSize at behind; omega)), ← lenField,
        frame_len, List.length_modify]

/-- A flipped bit in the padding changes nothing that is read. -/
theorem flip_unnoticed {r e : Nat} (padding : r = 22 ∨ r = 23) :
    let sent := (frame type data).modify r fun b => b ^^^ ((1 : Byte) <<< e)
    checkMessageCrc (sent.take headerSize) headerSize = true ∧
      (checkMessageCrc sent sent.length = true ↔ Deliverable data.bytes) ∧
      lenField sent = sent.length ∧ typeField sent = type.code ∧
      sent.drop headerSize = data.bytes := by
  have size := frame_length type data
  have long : headerSize ≤ (frame type data).length := by omega
  have before : r < headerSize := by
    unfold headerSize
    omega
  have divisible := frame_header_divisible type data
  intro sent
  have sentLong : headerSize ≤ sent.length := by rwa [List.length_modify]
  have string : headerString sent = headerString (frame type data) :=
    headerString_padding _ (by omega) long
  refine ⟨?_, ?_, ?_, ?_, ?_⟩
  · rw [header_check_iff _ (by simp only [List.length_take]; omega), headerString_take _ sentLong,
      string]
    exact divisible
  · rw [← frame_checks_iff type data, frame_check_iff _ sentLong, frame_check_iff _ long,
      string, payloadString_padding _ (by omega) before, List.length_modify]
    · exact (frame_wellFormed type data).fits
    · rw [List.length_modify]
      exact (frame_wellFormed type data).fits
  · rw [lenField, slice_modify _ (Or.inr (by omega)), ← lenField, frame_len, List.length_modify]
  · rw [typeField, slice_modify _ (Or.inr (by omega)), ← typeField, frame_type]
  · rw [List.drop_modify_of_lt _ r headerSize _ before, frame_payload]

variable (type data)

/-- What is sent passes the checks exactly if its payload is readable and no flipped bit matters,
and then it is read as it was framed. -/
theorem sent_checks :
    let sent := sendMessage bitflipChance (frame type data) rands
    let length := headerSize + data.bytes.length
    WellFormed sent ∧ sent.length = length ∧
      (checkMessageCrc (sent.take headerSize) headerSize = true ∧
        checkMessageCrc sent sent.length = true ↔
          Deliverable data.bytes ∧ Harmless bitflipChance length rands) ∧
      (Harmless bitflipChance length rands →
        typeField sent = type.code ∧ sent.drop headerSize = data.bytes) := by
  have size := frame_length type data
  intro sent length
  have sentLength : sent.length = length := sendMessage_length _ _ _ _
  have whole (sized : checkMessageCrc (sent.take headerSize) headerSize = true →
      lenField sent = sent.length) : WellFormed sent :=
    ⟨by omega, by rw [sentLength]; exact data.fits, sized⟩
  by_cases flips : rands.chance % 100 < bitflipChance
  · have inside : rands.byte % length < length := Nat.mod_lt _ (by unfold length headerSize; omega)
    have bit : rands.bit % 8 < 8 := Nat.mod_lt _ (by decide)
    have flipped : sent = (frame type data).modify (rands.byte % length)
        fun b => b ^^^ ((1 : Byte) <<< (rands.bit % 8)) := by
      simp only [sent, sendMessage, flips, if_true, flipRandomBit, size, length]
    by_cases padding : rands.byte % length = 22 ∨ rands.byte % length = 23
    · obtain ⟨header, body, len, code, bytes⟩ :=
        @flip_unnoticed type data _ (rands.bit % 8) padding
      rw [← flipped] at header body len code bytes
      refine ⟨whole fun _ => len, sentLength, ?_, fun _ => ⟨code, bytes⟩⟩
      rw [body]
      exact ⟨fun h => ⟨h.2, fun _ => padding⟩, fun h => ⟨header, h.1⟩⟩
    · have rejected := @flip_rejected type data _ _ (by rwa [size]) bit
        (not_or.mp padding)
      rw [← flipped] at rejected
      have harmful : ¬ Harmless bitflipChance length rands := fun h => padding (h flips)
      refine ⟨whole fun header => ?_, sentLength, ?_, fun h => absurd h harmful⟩
      · rcases rejected with failed | ⟨_, len⟩
        · rw [failed] at header
          cases header
        · exact len
      · refine iff_of_false ?_ fun h => harmful h.2
        rintro ⟨header, body⟩
        rcases rejected with failed | ⟨failed, _⟩
        · rw [failed] at header
          cases header
        · rw [failed] at body
          cases body
  · have same : sent = frame type data := by simp only [sent, sendMessage, flips, if_false]
    have harmless : Harmless bitflipChance length rands := fun h => absurd h flips
    rw [same, frame_checks_iff, frame_type, frame_payload]
    refine ⟨frame_wellFormed type data, size, ?_, fun _ => ⟨rfl, rfl⟩⟩
    exact ⟨fun h => ⟨h.2, harmless⟩, fun h => ⟨frame_header_checks type data, h.1⟩⟩

end Sent

section Inbox

variable (bitflipChance : Nat) (data : Payload) (rands : Rands)

/-- The datagram of one call of send_message in broadcast or respond. -/
def sentDatagram : Bytes := sendMessage bitflipChance (broadcastFrame data) rands

theorem sent_accepted : accepted (sentDatagram bitflipChance data rands) = true ↔
    Deliverable data.bytes ∧ Harmless bitflipChance (headerSize + data.bytes.length) rands := by
  obtain ⟨wf, -, checks, fields⟩ :=
    sent_checks bitflipChance .p2p data rands
  rw [accepted, Bool.and_eq_true, Bool.and_eq_true, beq_iff_eq, ← checks]
  constructor
  · rintro ⟨⟨header, body⟩, _⟩
    rw [sentDatagram, broadcastFrame, wf.sized header] at body
    exact ⟨header, body⟩
  · rintro ⟨header, body⟩
    refine ⟨⟨header, ?_⟩, (fields (checks.mp ⟨header, body⟩).2).1⟩
    rw [sentDatagram, broadcastFrame, wf.sized header]
    exact body

theorem sent_delivery (taken : accepted (sentDatagram bitflipChance data rands) = true) :
    delivery (sentDatagram bitflipChance data rands) = some (data.bytes, data.bytes.length) := by
  obtain ⟨wf, size, checks, fields⟩ :=
    sent_checks bitflipChance .p2p data rands
  have harmless := ((sent_accepted bitflipChance data rands).mp taken).2
  rw [delivery, if_pos taken, sentDatagram, broadcastFrame, (fields harmless).2, size,
    Nat.add_sub_cancel_left]

variable {t : InboxThread}

/-- An iteration that is not stale pushes nothing or the payload of a datagram on the socket. -/
theorem iterate_pushes (wf : ∀ d ∈ t.sock, WellFormed d) (fresh : t.stale = false) :
    t.iterate.pushed = t.pushed ∨ ∃ d ∈ t.sock, ∃ item, delivery d = some item ∧
      t.iterate.pushed = t.pushed ++ [item] := by
  rw [iterate_fresh wf fresh]
  rcases sock : t.sock with _ | ⟨datagram, rest⟩
  · exact Or.inl (List.append_nil _)
  · cases taken : delivery datagram with
    | none => simp [taken]
    | some item => exact Or.inr ⟨datagram, List.mem_cons_self, item, taken, by simp [taken]⟩

theorem arrivals_append (es fs : List SocketEvent) :
    arrivals (es ++ fs) = arrivals es ++ arrivals fs := by
  induction es with
  | nil => rfl
  | cons e es ih =>
    cases e with
    | arrive datagram => rw [List.cons_append, arrivals, ih, arrivals, List.cons_append]
    | iterate => exact ih

/-- What waits on the socket has arrived. -/
theorem run_sock (es : List SocketEvent) (P : Bytes → Prop) (wf : ∀ d, P d → WellFormed d)
    (start : ∀ d ∈ t.sock, P d) (arrived : ∀ d ∈ arrivals es, P d) :
    ∀ d ∈ (t.run es).sock, P d := by
  induction es generalizing t with
  | nil => exact start
  | cons e es ih =>
    cases e with
    | arrive datagram =>
      obtain ⟨first, later⟩ := List.forall_mem_cons.mp arrived
      exact ih (List.forall_mem_append.mpr ⟨start, List.forall_mem_singleton.mpr first⟩) later
    | iterate =>
      have left : (t.step .iterate).sock = t.sock.tail :=
        iterate_sock fun d member => wf d (start d member)
      refine ih (fun d member => ?_) arrived
      rw [left] at member
      exact start d (List.mem_of_mem_tail member)

end Inbox

end DPS2.P2P
