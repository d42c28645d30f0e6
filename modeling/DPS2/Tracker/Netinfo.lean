import DPS2.Codec.Memory
import DPS2.P2P.Peer
import DPS2.Tracker.Table

/-! The network information on its way from the table of the tracker to a peer: blobs, an
array of struct peer_address, a frame, and the array of the peer. -/
namespace DPS2.Tracker

open P2P Codec

/- Blobs, read through pointers to char, which is signed. -/

def bytosui (bytes : Memory) : BitVec 16 :=
  let r : BitVec 16 := 0
  let r := (r.setWidth 32 + ((bytes 0).signExtend 32 &&& 0xFF)).setWidth 16
  (r.setWidth 32 + (((bytes 1).signExtend 32 &&& 0xFF) <<< 8)).setWidth 16

def bytoui (bytes : Memory) : BitVec 32 :=
  let r : BitVec 32 := 0
  let r := r + ((bytosui bytes).setWidth 32 &&& 0xFFFF)
  r + (((bytosui (bytes.shift 2)).setWidth 32 &&& 0xFFFF) <<< 16)

/-- The three columns of a row that make up its address. -/
structure Blobs where
  peerFamily : Bytes
  peerPort : Bytes
  peerAddr : Bytes

/-- What _bind_sqlite3_peeraddress stores: the fields as they lie in memory. -/
def bindPeeraddress (pa : PeerAddress) : Blobs where
  peerFamily := encode 2 pa.family.toNat
  peerPort := encode 2 pa.port.toNat
  peerAddr := encode 4 pa.addr.toNat

/-- The entry that the callback makes of the blobs of a row. -/
def peeraddressOfBlobs (argv : Blobs) : PeerAddress where
  family := bytosui (Memory.of argv.peerFamily)
  port := bytosui (Memory.of argv.peerPort)
  addr := bytoui (Memory.of argv.peerAddr)

/-- The bytes of the array; an entry that was not written holds garbage. -/
def PeerAddresses.bytes (r : PeerAddresses) (garbage : PeerAddress) : Bytes :=
  r.entries.flatMap fun entry => (entry.getD garbage).toBytes

/- The array of the peer. -/

def peeraddressOfBytes (bytes : Bytes) : PeerAddress where
  family := BitVec.ofNat 16 (decode (slice 0 2 bytes))
  port := BitVec.ofNat 16 (decode (slice 2 2 bytes))
  addr := BitVec.ofNat 32 (decode (slice 4 4 bytes))

def peerAddressSize : Nat := 8

/-- The variables behind a netinfo_lock. -/
structure NetinfoLock where
  networkInfo : Option Bytes
  nPeers : Nat

def NetinfoLock.peers (lock : NetinfoLock) : List PeerAddress :=
  (List.range lock.nPeers).map fun i =>
    peeraddressOfBytes ((lock.networkInfo.getD []).drop (peerAddressSize * i))

/-- One call of receive_netinfo. Without a datagram it waits. -/
def receiveNetinfo (sock : List Bytes) (lock : NetinfoLock) : List Bytes × NetinfoLock :=
  match sock with
  | [] => (sock, lock)
  | datagram :: rest =>
      let header := datagram.take headerSize
      if checkMessageCrc header headerSize && typeField header == MessageType.netinfo.code then
        let message := datagram.take (lenField header)
        if checkMessageCrc message (lenField header) then
          let dataLen := sizeSub (lenField header) headerSize
          (rest, ⟨some (slice headerSize dataLen message), dataLen / peerAddressSize⟩)
        else (rest, lock)
      else (rest, lock)

/- The round trips. -/

theorem unsigned_byte : ∀ b : BitVec 8, b.signExtend 32 &&& 0xFF = b.setWidth 32 := by
  decide +kernel

theorem unsigned_short (v : BitVec 16) : v.setWidth 32 &&& 0xFFFF = v.setWidth 32 := by
  have fits := v.isLt
  have mask := Nat.and_two_pow_sub_one_eq_mod v.toNat 16
  apply BitVec.eq_of_toNat_eq
  rw [BitVec.toNat_and, BitVec.toNat_setWidth, Nat.mod_eq_of_lt (by omega)]
  exact mask.trans (Nat.mod_eq_of_lt fits)

theorem bytosui_toNat (bytes : Memory) : (bytosui bytes).toNat = bytes.number 2 := by
  have low := (bytes 0).isLt
  have high := (bytes 1).isLt
  have value : bytes.number 2 = (bytes 0).toNat + 256 * (bytes 1).toNat := rfl
  rw [value]
  simp only [bytosui, unsigned_byte]
  simp
  omega

theorem bytoui_toNat (bytes : Memory) : (bytoui bytes).toNat = bytes.number 4 := by
  have low := bytosui_toNat bytes
  have high := bytosui_toNat (bytes.shift 2)
  have value : bytes.number 4 = bytes.number 2 + 65536 * (bytes.shift 2).number 2 := by
    change (bytes 0).toNat + 256 * ((bytes 1).toNat + 256 * ((bytes 2).toNat +
      256 * ((bytes 3).toNat + 256 * 0))) = (bytes 0).toNat + 256 * ((bytes 1).toNat + 256 * 0) +
        65536 * ((bytes 2).toNat + 256 * ((bytes 3).toNat + 256 * 0))
    omega
  have lowFits := (bytosui bytes).isLt
  have highFits := (bytosui (bytes.shift 2)).isLt
  rw [value, ← low, ← high]
  simp only [bytoui, unsigned_short]
  simp
  omega

theorem blobs_decoded (pa : PeerAddress) : peeraddressOfBlobs (bindPeeraddress pa) = pa := by
  have short : ∀ x : BitVec 16, bytosui (Memory.of (encode 2 x.toNat)) = x := by
    intro x
    apply BitVec.eq_of_toNat_eq
    rw [bytosui_toNat, (holds_of _).number x.isLt]
  have long : bytoui (Memory.of (encode 4 pa.addr.toNat)) = pa.addr := by
    apply BitVec.eq_of_toNat_eq
    rw [bytoui_toNat, (holds_of _).number pa.addr.isLt]
  rw [peeraddressOfBlobs, bindPeeraddress]
  simp only [short, long]

theorem address_decoded (pa : PeerAddress) (rest : Bytes) :
    peeraddressOfBytes (pa.toBytes ++ rest) = pa := by
  have family : slice 0 2 (pa.toBytes ++ rest) = encode 2 pa.family.toNat := rfl
  have port : slice 2 2 (pa.toBytes ++ rest) = encode 2 pa.port.toNat := rfl
  have addr : slice 4 4 (pa.toBytes ++ rest) = encode 4 pa.addr.toNat := rfl
  rw [peeraddressOfBytes, family, port, addr, decode_encode_of_lt pa.family.isLt,
    decode_encode_of_lt pa.port.isLt, decode_encode_of_lt pa.addr.isLt]
  simp only [BitVec.ofNat_toNat, BitVec.setWidth_eq]

theorem addresses_decoded (pas : List PeerAddress) :
    (List.range pas.length).map (fun i =>
      peeraddressOfBytes ((pas.flatMap PeerAddress.toBytes).drop (peerAddressSize * i))) = pas := by
  induction pas with
  | nil => rfl
  | cons pa pas ih =>
    have next : ∀ i,
        (pa.toBytes ++ pas.flatMap PeerAddress.toBytes).drop (peerAddressSize * (i + 1)) =
        (pas.flatMap PeerAddress.toBytes).drop (peerAddressSize * i) := by
      intro i
      rw [Nat.mul_succ, Nat.add_comm, ← List.drop_drop]
      rfl
    rw [List.length_cons, List.range_succ_eq_map, List.map_cons, List.map_map, List.flatMap_cons]
    refine congrArg₂ List.cons (address_decoded pa _) ?_
    refine Eq.trans (List.map_congr_left fun i _ => ?_) ih
    exact congrArg peeraddressOfBytes (next i)

structure PeerList where
  addresses : List PeerAddress
  fits : headerSize + peerAddressSize * addresses.length < 2 ^ 64

namespace PeerList

variable (l : PeerList) (garbage : PeerAddress)

/-- The array that the callback fills from the blobs of these addresses. -/
def reply : PeerAddresses where
  nItems := l.addresses.length
  rows := l.addresses.map fun pa => peeraddressOfBlobs (bindPeeraddress pa)

theorem reply_rows : l.reply.rows = l.addresses :=
  List.map_id'' blobs_decoded l.addresses

theorem reply_bytes : l.reply.bytes garbage = l.addresses.flatMap PeerAddress.toBytes := by
  have filled : l.reply.entries = l.addresses.map some := by
    rw [← l.reply_rows]
    exact ((PeerAddresses.exact_iff _).mpr (List.length_map _)).2
  rw [PeerAddresses.bytes, filled, List.flatMap_map]
  rfl

theorem bytes_length :
    (l.addresses.flatMap PeerAddress.toBytes).length = peerAddressSize * l.addresses.length := by
  generalize l.addresses = pas
  induction pas with
  | nil => rfl
  | cons pa pas ih =>
    have one : pa.toBytes.length = peerAddressSize := by
      simp [PeerAddress.toBytes, peerAddressSize]
    rw [List.flatMap_cons, List.length_append, ih, one, List.length_cons, Nat.mul_succ,
      Nat.add_comm]

def payload : Payload where
  bytes := l.reply.bytes garbage
  fits := by
    rw [reply_bytes, bytes_length]
    exact l.fits

end PeerList

theorem receiveNetinfo_frame (data : Payload) (deliverable : Deliverable data.bytes)
    (rest : List Bytes) (lock : NetinfoLock) :
    receiveNetinfo (frame .netinfo data :: rest) lock =
      (rest, ⟨some data.bytes, data.bytes.length / peerAddressSize⟩) := by
  have header := frame_header_checks .netinfo data
  have whole := (frame_checks_iff .netinfo data).mpr deliverable
  have size := frame_length .netinfo data
  have fits := data.fits
  have count : sizeSub (headerSize + data.bytes.length) headerSize = data.bytes.length := by
    unfold sizeSub headerSize at *
    omega
  have copied : slice headerSize data.bytes.length (frame .netinfo data) = data.bytes := by
    rw [slice, frame_payload, List.take_length]
  have taken : (frame .netinfo data).take (headerSize + data.bytes.length) =
      frame .netinfo data := by rw [← size, List.take_length]
  rw [size] at whole
  simp only [receiveNetinfo, header, typeField_take, frame_type, lenField_take, frame_len,
    beq_self_eq_true, Bool.and_true, if_true, size, taken, whole, count, copied]

/-- Whatever lies in entries that were not written, the addresses arrive as they were stored. -/
theorem network_information_survives (l : PeerList) (garbage : PeerAddress) (rest : List Bytes)
    (lock : NetinfoLock) :
    checkMessageCrc ((initNetworkInformation (l.payload garbage)).1.take headerSize) headerSize =
      true ∧
    checkMessageCrc (initNetworkInformation (l.payload garbage)).1
      (initNetworkInformation (l.payload garbage)).2 = true ∧
    (receiveNetinfo ((initNetworkInformation (l.payload garbage)).1 :: rest) lock).1 = rest ∧
    (receiveNetinfo ((initNetworkInformation (l.payload garbage)).1 :: rest) lock).2.peers =
      l.addresses ∧
    (receiveNetinfo ((initNetworkInformation (l.payload garbage)).1 :: rest) lock).2.nPeers =
      l.addresses.length := by
  have bytes : (l.payload garbage).bytes = l.addresses.flatMap PeerAddress.toBytes :=
    l.reply_bytes garbage
  have size : (l.payload garbage).bytes.length = peerAddressSize * l.addresses.length := by
    rw [bytes, l.bytes_length]
  have even : Deliverable (l.payload garbage).bytes := by
    left
    rw [size, peerAddressSize]
    omega
  have count : (l.payload garbage).bytes.length / peerAddressSize = l.addresses.length := by
    rw [size, Nat.mul_div_cancel_left _ (by decide)]
  have received := receiveNetinfo_frame (l.payload garbage) even rest lock
  have whole := (frame_checks_iff .netinfo (l.payload garbage)).mpr even
  rw [frame_length] at whole
  rw [initNetworkInformation]
  refine ⟨frame_header_checks .netinfo _, whole, ?_, ?_, ?_⟩
  · rw [received]
  · rw [received, count, bytes]
    exact addresses_decoded l.addresses
  · rw [received, count]

end DPS2.Tracker
