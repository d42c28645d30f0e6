import DPS2.Codec.Memory
import DPS2.P2P.Peer

/-! Messages in memory. A receive call fills only as much of a buffer as has arrived, and the
code reads on behind that. -/
namespace DPS2.P2P

open Codec

/- Fields of a message behind a pointer, which may lie beyond what was allocated for it. -/

def typeAt (data : Memory) : Nat := data.number 4
def lenAt (data : Memory) : Nat := (data.shift 8).number 8

def peerAddressAt (data : Memory) : PeerAddress where
  family := BitVec.ofNat 16 ((data.shift 24).number 2)
  port := BitVec.ofNat 16 ((data.shift 26).number 2)
  addr := BitVec.ofNat 32 ((data.shift 28).number 4)

/-- The function check_message_crc on a buffer. Below the size of a header the length of the
second range wraps around, and once the header matches, copying that range faults. -/
def checkMessageCrcAt (data : Memory) (dataLen : Nat) : Option Bool :=
  if dataLen < headerSize then
    if checkMessageCrc (data.read headerSize) headerSize then none else some false
  else some (checkMessageCrc (data.read dataLen) dataLen)

/-- A receive call copies at most n bytes of the datagram. -/
def recvMessage (datagram : Bytes) (data : Memory) (n : Nat) : Memory :=
  data.write (datagram.take n)

section Received

variable {datagram : Bytes} {data : Memory} {n k : Nat}

theorem read_recv (requested : k ≤ n) (arrived : k ≤ datagram.length) :
    (recvMessage datagram data n).read k = datagram.take k := by
  apply List.ext_getElem
  · rw [read_length, List.length_take, Nat.min_eq_left arrived]
  · intro i inside _
    rw [read_length] at inside
    have within : i < (datagram.take n).length := by
      rw [List.length_take]
      omega
    simp only [Memory.read, List.getElem_map, List.getElem_range, recvMessage]
    rw [write_below within, List.getElem_take, List.getElem_take]

theorem typeAt_recv (requested : 4 ≤ n) (arrived : 4 ≤ datagram.length) :
    typeAt (recvMessage datagram data n) = typeField datagram :=
  congrArg decode (read_recv requested arrived)

theorem lenAt_recv (requested : 16 ≤ n) (arrived : 16 ≤ datagram.length) :
    lenAt (recvMessage datagram data n) = lenField datagram := by
  have whole := @read_recv datagram data n 16 requested arrived
  have front : ((recvMessage datagram data n).read 8).length = 8 := read_length 8
  have field := congrArg (List.drop 8) whole
  rw [show (16 : Nat) = 8 + 8 from rfl, read_add, List.drop_left' front, List.drop_take] at field
  exact congrArg decode field

theorem lenAt_lt (data : Memory) : lenAt data < 2 ^ 64 := by
  have bound := decode_lt ((data.shift 8).read 8)
  rw [read_length] at bound
  exact bound

theorem lenField_lt (xs : Bytes) : lenField xs < 2 ^ 64 := by
  have bound := decode_lt (slice 8 8 xs)
  have short : (slice 8 8 xs).length ≤ 8 := by
    rw [slice, List.length_take]
    omega
  exact Nat.lt_of_lt_of_le bound (Nat.pow_le_pow_right (by decide) short)

theorem header_check_take {xs : Bytes} (long : 22 ≤ xs.length) :
    checkMessageCrc xs headerSize = checkMessageCrc (xs.take 22) headerSize := by
  have checksum : headerChecksumField (xs.take 22) = headerChecksumField xs := by
    rw [headerChecksumField, headerChecksumField, slice, slice, List.drop_take, List.take_take]
    rfl
  have first : (xs.take 22).take 18 = xs.take 18 := by rw [List.take_take]; rfl
  have last : (xs.take 22).drop 20 = (xs.drop 20).take 2 := by rw [List.drop_take]
  have front : (xs.take 18 ++ List.replicate 2 (0 : Byte)).length = 20 := by
    rw [List.length_append, List.length_take, List.length_replicate]
    omega
  have cut : ∀ behind, (xs.take 18 ++ List.replicate 2 (0 : Byte) ++ behind).take 22 =
      xs.take 18 ++ List.replicate 2 0 ++ behind.take 2 := by
    intro behind
    have split :=
      @List.take_length_add_append _ (xs.take 18 ++ List.replicate 2 (0 : Byte)) behind 2
    rw [front] at split
    exact split
  have cleared : (clearHeaderChecksum (xs.take 22)).take 22 = (clearHeaderChecksum xs).take 22 := by
    rw [clearHeaderChecksum, clearHeaderChecksum, first, last, cut, cut, List.take_take]
    rfl
  rw [checkMessageCrc, checkMessageCrc, checksum]
  simp only [beq_self_eq_true, Bool.true_or, Bool.and_true]
  exact congrArg (checkCrc · _) cleared.symm

theorem header_check_recv (requested : 22 ≤ n) (arrived : 22 ≤ datagram.length) :
    checkMessageCrc ((recvMessage datagram data n).read headerSize) headerSize =
      checkMessageCrc (datagram.take headerSize) headerSize := by
  have front : ((recvMessage datagram data n).read headerSize).take 22 = datagram.take 22 := by
    rw [show headerSize = 22 + 2 from rfl, read_add, List.take_left' (read_length 22),
      read_recv requested arrived]
  have short : (datagram.take headerSize).take 22 = datagram.take 22 := by
    rw [List.take_take]
    rfl
  have buffer : 22 ≤ ((recvMessage datagram data n).read headerSize).length := by
    rw [read_length]
    decide
  have string : 22 ≤ (datagram.take headerSize).length := by
    rw [List.length_take]
    unfold headerSize
    omega
  rw [header_check_take buffer, front, header_check_take string, short]

end Received

theorem checked_covers_header {data : Memory} {dataLen : Nat}
    (passed : checkMessageCrcAt data dataLen = some true) : headerSize ≤ dataLen := by
  by_contra short
  rw [checkMessageCrcAt, if_pos (Nat.lt_of_not_le short)] at passed
  split at passed <;> cases passed

end DPS2.P2P
