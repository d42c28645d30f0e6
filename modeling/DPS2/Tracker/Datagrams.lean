import DPS2.Application.Messages
import DPS2.P2P.Transmission
import DPS2.Tracker.Mailbox
import DPS2.Tracker.Netinfo

/-! The datagrams between a peer and the tracker when send_message flips a bit. A request that
handle_mailbox accepts, and network information that receive_netinfo accepts, is what was sent. -/
namespace DPS2.Tracker

open P2P Codec

section Request

variable {pa : PeerAddress} {mtype : MessageType} {bitflipChance : Nat} {rands : Rands}

/-- A datagram of send_netinfo. -/
def requestDatagram (bitflipChance : Nat) (pa : PeerAddress) (mtype : MessageType)
    (rands : Rands) : Bytes :=
  sendMessage bitflipChance (initPeerAddressHeader pa mtype) rands

def requestSize : Nat := 32

theorem payload_length (pa : PeerAddress) : headerSize + pa.payload.bytes.length = requestSize := by
  rw [PeerAddress.payload, Application.peerAddress_length]
  rfl

theorem payload_deliverable (pa : PeerAddress) : Deliverable pa.payload.bytes := by
  left
  rw [PeerAddress.payload, Application.peerAddress_length]

theorem peerAddressAt_holds {data : Memory} (h : (data.shift 24).Holds pa.toBytes) :
    peerAddressAt data = pa := by
  rw [← Application.readPeerAddress_toBytes h]
  simp only [peerAddressAt, Application.readPeerAddress, shift_shift]

section Checks

variable {datagram : Bytes} (size : datagram.length = requestSize)
include size

theorem request_bytes (garbage : Memory) :
    (recvMessage datagram garbage requestSize).read requestSize = datagram := by
  rw [read_recv (Nat.le_refl _) (Nat.le_of_eq size.symm), ← size, List.take_length]

theorem request_address (bytes : datagram.drop headerSize = pa.toBytes) (garbage : Memory) :
    peerAddressAt (recvMessage datagram garbage requestSize) = pa := by
  apply peerAddressAt_holds
  have read := request_bytes size garbage
  rw [show requestSize = headerSize + 8 from rfl, read_add] at read
  have rest := congrArg (List.drop headerSize) read
  rw [List.drop_left' (read_length _), bytes] at rest
  rw [Memory.Holds, Application.peerAddress_length]
  exact rest

theorem request_peeked (header : Memory) :
    checkMessageCrc ((recvMessage datagram header headerSize).read headerSize) headerSize =
      checkMessageCrc (datagram.take headerSize) headerSize := by
  apply header_check_recv (by decide)
  rw [size]
  decide

theorem request_len (wf : WellFormed datagram) (header : Memory)
    (checked : checkMessageCrc (datagram.take headerSize) headerSize = true) :
    lenAt (recvMessage datagram header headerSize) = requestSize := by
  rw [lenAt_recv (by decide) (by rw [size]; decide), wf.sized checked, size]

theorem request_checked (garbage : Memory) :
    checkMessageCrcAt (recvMessage datagram garbage requestSize) requestSize =
      some (checkMessageCrc datagram datagram.length) := by
  rw [checkMessageCrcAt, if_neg (by decide), request_bytes size, size]

end Checks

/-- A request passes exactly if no flipped bit matters, and then with its type and address. -/
theorem request_accepted {s : Mailbox} {rest : List Bytes}
    (sock : s.sock = requestDatagram bitflipChance pa mtype rands :: rest) (garbage : Memory) :
    ((s.accepts garbage).isSome ↔ Harmless bitflipChance requestSize rands) ∧
      ∀ header message, s.accepts garbage = some (header, message) →
        typeAt header = mtype.code ∧ lenAt header = requestSize ∧ peerAddressAt message = pa := by
  obtain ⟨wf, size, checks, fields⟩ := sent_checks bitflipChance mtype pa.payload rands
  rw [payload_length] at size checks fields
  have sent : sendMessage bitflipChance (frame mtype pa.payload) rands =
      requestDatagram bitflipChance pa mtype rands := rfl
  rw [sent] at wf size checks fields
  generalize requestDatagram bitflipChance pa mtype rands = datagram at sock wf size checks fields
  constructor
  · have available : isDataAvailable (datagram :: rest) = true := by
      rw [isDataAvailable, size]
      rfl
    rw [Mailbox.accepts, sock, if_pos available]
    simp only [request_peeked size]
    cases header : checkMessageCrc (datagram.take headerSize) headerSize with
    | true =>
      rw [request_len size wf _ header, request_checked size, Bool.true_and]
      have body : checkMessageCrc datagram datagram.length = true ↔
          Harmless bitflipChance requestSize rands := by
        rw [header] at checks
        simpa [payload_deliverable pa] using checks
      rw [← body]
      cases checkMessageCrc datagram datagram.length <;> simp
    | false =>
      rw [header] at checks
      have harmful : ¬ Harmless bitflipChance requestSize rands := by
        simpa [payload_deliverable pa] using checks
      simpa using harmful
  · intro header message taken
    obtain ⟨datagram', rest', sock', rfl, rfl, headerCheck, bodyCheck⟩ := accepts_some taken
    rw [sock] at sock'
    obtain ⟨rfl, rfl⟩ := List.cons.inj sock'
    rw [request_peeked size] at headerCheck
    have len := request_len size wf s.header headerCheck
    rw [len, request_checked size, Option.some.injEq] at bodyCheck
    obtain ⟨code, bytes⟩ := fields (checks.mp ⟨headerCheck, bodyCheck⟩).2
    rw [len]
    refine ⟨?_, rfl, request_address size bytes garbage⟩
    rw [typeAt_recv (by decide) (by rw [size]; decide), code]

end Request

section Reply

variable {bitflipChance : Nat} {rands : Rands}

theorem receiveNetinfo_checked {datagram : Bytes} (wf : WellFormed datagram)
    (header : checkMessageCrc (datagram.take headerSize) headerSize = true)
    (body : checkMessageCrc datagram datagram.length = true)
    (type : typeField datagram = MessageType.netinfo.code) (rest : List Bytes)
    (lock : NetinfoLock) : receiveNetinfo (datagram :: rest) lock =
      (rest, ⟨some (datagram.drop headerSize),
        (datagram.length - headerSize) / peerAddressSize⟩) := by
  have long := wf.long
  have fits := wf.fits
  unfold headerSize at long
  have count : sizeSub datagram.length headerSize = datagram.length - headerSize := by
    unfold sizeSub headerSize
    omega
  have copied : slice headerSize (datagram.length - headerSize) datagram =
      datagram.drop headerSize := by
    rw [slice, List.take_of_length_le (Nat.le_of_eq List.length_drop)]
  simp only [receiveNetinfo, header, typeField_take, type, lenField_take, wf.sized header,
    beq_self_eq_true, Bool.and_true, if_true, List.take_length, body, count, copied]

theorem receiveNetinfo_failed {datagram : Bytes} (wf : WellFormed datagram)
    (failed : ¬ (checkMessageCrc (datagram.take headerSize) headerSize = true ∧
      checkMessageCrc datagram datagram.length = true)) (rest : List Bytes) (lock : NetinfoLock) :
    receiveNetinfo (datagram :: rest) lock = (rest, lock) := by
  unfold receiveNetinfo
  dsimp only
  split
  · rename_i peeked
    have header := (Bool.and_eq_true_iff.mp peeked).1
    rw [lenField_take, wf.sized header, List.take_length]
    split
    · rename_i body
      exact absurd ⟨header, body⟩ failed
    · rfl
  · rfl

variable (l : PeerList) (garbage : PeerAddress)

/-- Network information is replaced by the list that was sent, or not at all. -/
theorem netinfo_accepted (rest : List Bytes) (lock : NetinfoLock) :
    receiveNetinfo
        (sendMessage bitflipChance (initNetworkInformation (l.payload garbage)).1 rands :: rest)
        lock =
      (rest, if Harmless bitflipChance
          (headerSize + peerAddressSize * l.addresses.length) rands then
        ⟨some (l.addresses.flatMap PeerAddress.toBytes), l.addresses.length⟩ else lock) := by
  obtain ⟨wf, size, checks, fields⟩ := sent_checks bitflipChance .netinfo
    (l.payload garbage) rands
  have bytes : (l.payload garbage).bytes = l.addresses.flatMap PeerAddress.toBytes :=
    l.reply_bytes garbage
  have deliverable : Deliverable (l.payload garbage).bytes := by
    left
    rw [bytes, l.bytes_length, peerAddressSize]
    omega
  rw [bytes, l.bytes_length] at size checks fields
  rw [bytes] at deliverable
  rw [initNetworkInformation]
  by_cases harmless : Harmless bitflipChance
      (headerSize + peerAddressSize * l.addresses.length) rands
  · obtain ⟨header, body⟩ := checks.mpr ⟨deliverable, harmless⟩
    obtain ⟨type, payload⟩ := fields harmless
    rw [if_pos harmless, receiveNetinfo_checked wf header body type, payload, size,
      Nat.add_sub_cancel_left, Nat.mul_div_cancel_left _ (by decide)]
  · rw [if_neg harmless, receiveNetinfo_failed wf fun passed => harmless (checks.mp passed).2]

end Reply

/-- In both directions a datagram is read as it was meant or leaves no trace, and which of both
depends only on the flipped bit. -/
theorem tracker_datagrams (bitflipChance : Nat) (rands : Rands) :
    (∀ (s : Mailbox) (pa : PeerAddress) (mtype : MessageType) (rest : List Bytes)
      (garbage : Memory), s.sock = requestDatagram bitflipChance pa mtype rands :: rest →
        ((s.accepts garbage).isSome ↔ Harmless bitflipChance requestSize rands) ∧
        ∀ header message, s.accepts garbage = some (header, message) →
          typeAt header = mtype.code ∧ lenAt header = requestSize ∧
            peerAddressAt message = pa) ∧
    ∀ (l : PeerList) (garbage : PeerAddress) (rest : List Bytes) (lock : NetinfoLock),
      let datagram := sendMessage bitflipChance (initNetworkInformation (l.payload garbage)).1 rands
      let harmless :=
        Harmless bitflipChance (headerSize + peerAddressSize * l.addresses.length) rands
      (receiveNetinfo (datagram :: rest) lock).1 = rest ∧
        (harmless → (receiveNetinfo (datagram :: rest) lock).2.peers = l.addresses) ∧
        (¬ harmless → (receiveNetinfo (datagram :: rest) lock).2 = lock) := by
  refine ⟨fun s pa mtype rest garbage sock => request_accepted sock garbage, ?_⟩
  intro l garbage rest lock datagram harmless
  rw [netinfo_accepted]
  refine ⟨rfl, fun h => ?_, fun h => if_neg h⟩
  rw [if_pos h]
  exact addresses_decoded l.addresses

end DPS2.Tracker
