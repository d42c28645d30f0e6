import DPS2.P2P.Frames
import DPS2.Codec.Memory
import DPS2.Blockchain.Blockchain

/-! The messages of the application, as they lie in memory on the sending side and as
they are read through the message pointer on the receiving side. -/
namespace DPS2.Application

open Codec P2P

/-- The memory of a Transactions<char, 100>: a hundred entries of 16 bytes. -/
structure Transactions where
  bytes : Bytes
  size : bytes.length = 1600
  deriving DecidableEq

instance : Inhabited Transactions := ⟨⟨List.replicate 1600 0, List.length_replicate⟩⟩

/-- B_TYPE: the hashes are strings. -/
abbrev BType := Block Transactions Bytes

inductive BlockchainMessageType where
  | block | requestBlock | noBlock | vote | addRequest
  deriving DecidableEq

def BlockchainMessageType.code : BlockchainMessageType → Nat
  | .block => 0
  | .requestBlock => 1
  | .noBlock => 2
  | .vote => 3
  | .addRequest => 4

/-- What follows the message header, by the type in the header. -/
inductive Body where
  | block (b : BType)
  | requestBlock
  | noBlock
  | vote (agree : Bool) (hash : Bytes)
  | addRequest (pow : Bytes) (b : BType)
  | unrecognized
  deriving DecidableEq

structure Message where
  peerAddress : PeerAddress
  index : Nat
  body : Body
  deriving DecidableEq

/- Reading. -/

def blockFromData (data : Memory) : BType :=
  let hashSize := data.number 8
  let prevHashSize := (data.shift 8).number 8
  { data := ⟨(data.shift (24 + hashSize + prevHashSize)).read 1600, read_length _⟩
    hash := (data.shift 24).read hashSize
    prevHash := (data.shift (24 + hashSize)).read prevHashSize }

def readPeerAddress (data : Memory) : PeerAddress where
  family := BitVec.ofNat 16 (data.number 2)
  port := BitVec.ofNat 16 ((data.shift 2).number 2)
  addr := BitVec.ofNat 32 ((data.shift 4).number 4)

def readVote (data : Memory) : Body :=
  .vote ((data.shift 24).number 1 != 0) ((data.shift 40).read ((data.shift 32).number 8))

def readAdditionRequest (data : Memory) : Body :=
  let powSize := (data.shift 24).number 8
  .addRequest ((data.shift 32).read powSize) (blockFromData (data.shift (32 + powSize)))

/-- Every field of a message that some function of the application reads. -/
def readMessage (msg : Memory) : Message where
  peerAddress := readPeerAddress (msg.shift 4)
  index := (msg.shift 16).number 8
  body :=
    match msg.number 4 with
    | 0 => .block (blockFromData (msg.shift 24))
    | 1 => .requestBlock
    | 2 => .noBlock
    | 3 => readVote msg
    | 4 => readAdditionRequest msg
    | _ => .unrecognized

/- Writing. -/

/-- The serialized block; its length is the value DataFromBlock returns. -/
def dataFromBlock (b : BType) : Bytes :=
  encode 8 b.hash.length ++ (encode 8 b.prevHash.length ++ (encode 8 1600 ++
    (b.hash ++ (b.prevHash ++ b.data.bytes))))

def messageHeader (type : BlockchainMessageType) (pa : PeerAddress) (index : Nat) : Bytes :=
  encode 4 type.code ++ (pa.toBytes ++ (List.replicate 4 0 ++ encode 8 index))

/-- The bytes handed to broadcast or respond; memset has cleared the padding. -/
def Message.toBytes (m : Message) : Bytes :=
  match m.body with
  | .block b => messageHeader .block m.peerAddress m.index ++ dataFromBlock b
  | .requestBlock => messageHeader .requestBlock m.peerAddress m.index
  | .noBlock => messageHeader .noBlock m.peerAddress m.index
  | .vote agree hash =>
      messageHeader .vote m.peerAddress m.index ++ (encode 1 agree.toNat ++
        (List.replicate 7 0 ++ (encode 8 hash.length ++ hash)))
  | .addRequest pow b =>
      messageHeader .addRequest m.peerAddress m.index ++ (encode 8 pow.length ++
        (pow ++ dataFromBlock b))
  | .unrecognized => []

/- What was written is read back. -/

def SizedBlock (b : BType) : Prop := b.hash.length < 2 ^ 64 ∧ b.prevHash.length < 2 ^ 64

def Sized (m : Message) : Prop :=
  m.index < 2 ^ 64 ∧
    match m.body with
    | .block b => SizedBlock b
    | .requestBlock => True
    | .noBlock => True
    | .vote _ hash => hash.length < 2 ^ 64
    | .addRequest pow b => pow.length < 2 ^ 64 ∧ SizedBlock b
    | .unrecognized => False

/-- The two parts of a serialized block that are read. -/
def BlockParts (data : Memory) (b : BType) : Prop :=
  data.Holds (encode 8 b.hash.length ++ encode 8 b.prevHash.length) ∧
    (data.shift 24).Holds (b.hash ++ (b.prevHash ++ b.data.bytes))

section RoundTrip

variable {data : Memory}

theorem blockParts_of_holds {b : BType} (h : data.Holds (dataFromBlock b)) : BlockParts data b := by
  simp only [dataFromBlock, holds_append, encode_length, shift_shift] at h
  obtain ⟨hashSize, prevHashSize, _, strings⟩ := h
  simp only [BlockParts, holds_append, encode_length, shift_shift]
  exact ⟨⟨hashSize, prevHashSize⟩, strings⟩

theorem blockFromData_of_parts {b : BType} (sized : SizedBlock b) (h : BlockParts data b) :
    blockFromData data = b := by
  obtain ⟨hashFits, prevFits⟩ := sized
  simp only [BlockParts, holds_append, encode_length, shift_shift] at h
  obtain ⟨⟨hashSize, prevHashSize⟩, hash, prevHash, rest⟩ := h
  have count : data.number 8 = b.hash.length := hashSize.number hashFits
  have prevCount : (data.shift 8).number 8 = b.prevHash.length := prevHashSize.number prevFits
  obtain ⟨⟨bytes, size⟩, hashString, prevString⟩ := b
  simp only [blockFromData, count, prevCount, Block.mk.injEq, Transactions.mk.injEq]
  exact ⟨rest.read size, hash, prevHash⟩

theorem blockFromData_dataFromBlock {b : BType} (sized : SizedBlock b)
    (h : data.Holds (dataFromBlock b)) : blockFromData data = b :=
  blockFromData_of_parts sized (blockParts_of_holds h)

theorem readPeerAddress_toBytes {pa : PeerAddress} (h : data.Holds pa.toBytes) :
    readPeerAddress data = pa := by
  simp only [PeerAddress.toBytes, List.append_assoc, holds_append, encode_length, shift_shift] at h
  obtain ⟨family, port, addr⟩ := h
  have hf := family.number (show pa.family.toNat < 256 ^ 2 from pa.family.isLt)
  have hp := port.number (show pa.port.toNat < 256 ^ 2 from pa.port.isLt)
  have ha := addr.number (show pa.addr.toNat < 256 ^ 4 from pa.addr.isLt)
  simp only [readPeerAddress, hf, hp, ha, BitVec.ofNat_toNat, BitVec.setWidth_eq]

theorem peerAddress_length (pa : PeerAddress) : pa.toBytes.length = 8 := by
  simp [PeerAddress.toBytes]

theorem messageHeader_length (type : BlockchainMessageType) (pa : PeerAddress) (index : Nat) :
    (messageHeader type pa index).length = 24 := by
  simp [messageHeader, peerAddress_length]

theorem readHeader {type : BlockchainMessageType} {pa : PeerAddress} {index : Nat}
    (fits : index < 2 ^ 64) (h : data.Holds (messageHeader type pa index)) :
    data.number 4 = type.code ∧ readPeerAddress (data.shift 4) = pa ∧
      (data.shift 16).number 8 = index := by
  simp only [messageHeader, holds_append, encode_length, peerAddress_length, List.length_replicate,
    shift_shift] at h
  obtain ⟨code, address, _, number⟩ := h
  refine ⟨code.number ?_, readPeerAddress_toBytes address, number.number fits⟩
  cases type <;> decide

/-- Whatever follows the bytes of a message in memory, it is read as it was written. -/
theorem readMessage_toBytes {m : Message} (sized : Sized m) (h : data.Holds m.toBytes) :
    readMessage data = m := by
  obtain ⟨pa, index, body⟩ := m
  obtain ⟨fits, sized⟩ := sized
  cases body with
  | block b =>
    simp only [Message.toBytes, holds_append, messageHeader_length] at h
    obtain ⟨code, address, number⟩ := readHeader fits h.1
    simp only [readMessage, code, address, number, BlockchainMessageType.code,
      blockFromData_dataFromBlock sized h.2]
  | requestBlock =>
    obtain ⟨code, address, number⟩ := readHeader fits h
    simp only [readMessage, code, address, number, BlockchainMessageType.code]
  | noBlock =>
    obtain ⟨code, address, number⟩ := readHeader fits h
    simp only [readMessage, code, address, number, BlockchainMessageType.code]
  | vote agree hash =>
    simp only [Message.toBytes, holds_append, messageHeader_length, encode_length,
      List.length_replicate, shift_shift] at h
    obtain ⟨header, flag, _, hashSize, hashString⟩ := h
    obtain ⟨code, address, number⟩ := readHeader fits header
    have agreed : (data.shift 24).number 1 = agree.toNat :=
      flag.number (by cases agree <;> decide)
    have count : (data.shift 32).number 8 = hash.length := hashSize.number sized
    have string : (data.shift 40).read hash.length = hash := hashString
    simp only [readMessage, readVote, code, address, number, BlockchainMessageType.code, agreed,
      count, string]
    cases agree <;> rfl
  | addRequest pow b =>
    simp only [Message.toBytes, holds_append, messageHeader_length, encode_length, shift_shift] at h
    obtain ⟨header, powSize, key, block⟩ := h
    obtain ⟨code, address, number⟩ := readHeader fits header
    have count : (data.shift 24).number 8 = pow.length := powSize.number sized.1
    have string : (data.shift 32).read pow.length = pow := key
    simp only [readMessage, readAdditionRequest, code, address, number,
      BlockchainMessageType.code, count, string, blockFromData_dataFromBlock sized.2 block]
  | unrecognized => exact sized.elim

end RoundTrip

end DPS2.Application
