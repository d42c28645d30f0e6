import DPS2.P2P.CrcErrors
import DPS2.Codec.LittleEndian

/-! Message headers and frames. A header is its 24 bytes, padding included:
type 0..3, len 8..15, data checksum 16..17, header checksum 18..19. -/
namespace DPS2.P2P

open Codec

inductive MessageType where
  | heartbeat | netinfo | p2p | exit | acknowledgeNetinfo
  deriving DecidableEq

def MessageType.code : MessageType → Nat
  | .heartbeat => 0
  | .netinfo => 1
  | .p2p => 2
  | .exit => 3
  | .acknowledgeNetinfo => 4

structure MessageHeader where
  type : MessageType
  len : Nat
  messageDataChecksum : PolyType
  messageHeaderChecksum : PolyType

def MessageHeader.toBytes (h : MessageHeader) : Bytes :=
  encode 4 h.type.code ++ List.replicate 4 0 ++ encode 8 h.len ++
    crcBytes h.messageDataChecksum ++ crcBytes h.messageHeaderChecksum ++ List.replicate 4 0

def headerSize : Nat := 24

/- Fields of a header in a byte buffer. -/

def typeField (data : Bytes) : Nat := decode (slice 0 4 data)
def lenField (data : Bytes) : Nat := decode (slice 8 8 data)
def dataChecksumField (data : Bytes) : PolyType := crcOfBytes (slice 16 2 data)
def headerChecksumField (data : Bytes) : PolyType := crcOfBytes (slice 18 2 data)

def sizeSub (a b : Nat) : Nat := (a + 2 ^ 64 - b) % 2 ^ 64

def initMessageHeader (type : MessageType) (len : Nat) (dataChecksum : PolyType) :
    MessageHeader :=
  let header : MessageHeader := ⟨type, len, dataChecksum, 0⟩
  { header with messageHeaderChecksum := getCrc (header.toBytes.take (headerSize - 2)) }

/-- The header checksum field set to zero while the header is checked. -/
def clearHeaderChecksum (data : Bytes) : Bytes :=
  data.take 18 ++ List.replicate 2 0 ++ data.drop 20

def checkMessageCrc (data : Bytes) (dataLen : Nat) : Bool :=
  let crc := headerChecksumField data
  let data := clearHeaderChecksum data
  checkCrc (data.take (headerSize - 2)) crc &&
    (dataLen == headerSize ||
      checkCrc (slice headerSize (sizeSub dataLen headerSize) data) (dataChecksumField data))

structure PeerAddress where
  family : BitVec 16
  port : BitVec 16
  addr : BitVec 32
  deriving DecidableEq

def PeerAddress.toBytes (pa : PeerAddress) : Bytes :=
  encode 2 pa.family.toNat ++ encode 2 pa.port.toNat ++ encode 4 pa.addr.toNat

def cmpPeerAddress (pa1 pa2 : PeerAddress) : Bool :=
  pa1.family == pa2.family && pa1.port == pa2.port && pa1.addr == pa2.addr

theorem cmpPeerAddress_iff {pa1 pa2 : PeerAddress} :
    cmpPeerAddress pa1 pa2 = true ↔ pa1 = pa2 := by
  cases pa1
  cases pa2
  simp [cmpPeerAddress, and_assoc]

/-- Data that together with a header fits into memory, so that len is its true length. -/
structure Payload where
  bytes : Bytes
  fits : headerSize + bytes.length < 2 ^ 64

def frame (type : MessageType) (data : Payload) : Bytes :=
  (initMessageHeader type (headerSize + data.bytes.length) (getCrc data.bytes)).toBytes ++
    data.bytes

/- The four places that build a frame. -/

def broadcastFrame (data : Payload) : Bytes := frame .p2p data
def respondFrame (message : Payload) : Bytes := frame .p2p message
def initNetworkInformation (data : Payload) : Bytes × Nat :=
  (frame .netinfo data, headerSize + data.bytes.length)

def PeerAddress.payload (pa : PeerAddress) : Payload where
  bytes := pa.toBytes
  fits := by
    have : pa.toBytes.length = 8 := by simp [PeerAddress.toBytes]
    rw [this, headerSize]
    omega

def initPeerAddressHeader (pa : PeerAddress) (mtype : MessageType) : Bytes :=
  frame mtype pa.payload

/-- The random bit of one sent frame, drawn by two calls of rand. -/
def flipRandomBit (data : Bytes) (rand1 rand2 : Nat) : Bytes :=
  let e := rand1 % 8
  let r := rand2 % data.length
  data.modify r (fun b => b ^^^ ((1 : Byte) <<< e))

end DPS2.P2P
