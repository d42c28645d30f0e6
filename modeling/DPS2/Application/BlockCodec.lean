import DPS2.Application.Machine
import DPS2.Codec.Dependence

/-! The block codec at each place where a block is decoded. DataFromBlock writes three lengths
before the strings and the data; BlockFromData uses the first two of them. -/
namespace DPS2.Application

open Codec P2P ProofOfWork

/-- The bytes of a serialized block without those of data_size. -/
def bytesRead (b : BType) : Finset Nat :=
  Finset.range (dataFromBlock b).length \ Finset.Ico 16 24

/-- BlockFromData gets this block from here, and depends on exactly the bytes above: on all that
DataFromBlock wrote but eight. -/
structure Decodes (data : Memory) (b : BType) : Prop where
  same : blockFromData data = b
  reads : ReadsExactly blockFromData data (bytesRead b)
  count : Set.ncard {k | DependsAt blockFromData data k} + 8 = (dataFromBlock b).length

section Block

variable {data : Memory} {b : BType}

theorem dataFromBlock_length (b : BType) :
    (dataFromBlock b).length = 24 + (b.hash.length + b.prevHash.length + 1600) := by
  simp only [dataFromBlock, List.length_append, encode_length, b.data.size]
  omega

/-- Whatever memory is decoded, the block's parts are those in memory. -/
theorem parts_of_blockFromData (data : Memory) : BlockParts data (blockFromData data) := by
  simp only [BlockParts, blockFromData, holds_append, encode_length, read_length, shift_shift]
  exact ⟨⟨holds_number _ _, holds_number _ _⟩, holds_read _ _, holds_read _ _, holds_read _ _⟩

theorem blockFromData_eq_iff (sized : SizedBlock b) :
    blockFromData data = b ↔ BlockParts data b := by
  constructor
  · rintro rfl
    exact parts_of_blockFromData data
  · exact blockFromData_of_parts sized

theorem mem_bytesRead (b : BType) (k : Nat) :
    k ∈ bytesRead b ↔ k < (dataFromBlock b).length ∧ ¬(16 ≤ k ∧ k < 24) := by
  rw [bytesRead, Finset.mem_sdiff, Finset.mem_range, Finset.mem_Ico]

theorem bytesRead_card (b : BType) : (bytesRead b).card + 8 = (dataFromBlock b).length := by
  have inside : Finset.Ico 16 24 ⊆ Finset.range (dataFromBlock b).length := by
    intro k member
    rw [Finset.mem_Ico] at member
    rw [Finset.mem_range, dataFromBlock_length]
    omega
  have size := Finset.card_sdiff_add_card_eq_card inside
  rw [Finset.card_range] at size
  exact size

theorem blockParts_iff_same {data' : Memory} (h : BlockParts data b) :
    BlockParts data' b ↔ ∀ k ∈ bytesRead b, data' k = data k := by
  unfold BlockParts
  rw [h.1.iff_same, h.2.iff_same]
  simp only [mem_bytesRead, dataFromBlock_length, List.length_append, encode_length, b.data.size]
  constructor
  · rintro ⟨sizes, strings⟩ k ⟨inside, read⟩
    by_cases low : k < 16
    · exact sizes k low
    · have place : 24 + (k - 24) = k := by omega
      have byte := strings (k - 24) (by omega)
      simp only [Memory.shift, place] at byte
      exact byte
  · intro same
    refine ⟨fun i inside => same i (by omega), fun i inside => ?_⟩
    exact same (24 + i) (by omega)

theorem decodes_of_holds (sized : SizedBlock b) (h : data.Holds (dataFromBlock b)) :
    Decodes data b := by
  have parts := blockParts_of_holds h
  have same := blockFromData_of_parts sized parts
  have reads : ReadsExactly blockFromData data (bytesRead b) := by
    intro data'
    rw [same, blockFromData_eq_iff sized, blockParts_iff_same parts]
  refine ⟨same, reads, ?_⟩
  rw [reads.count]
  exact bytesRead_card b

end Block

/- The places where a block is decoded, with the pointer block_data of each. -/

def RequestBlockchainBlock.blockData (msg : Memory) : Memory :=
  let sizeofBlockchainMessageHeader := 24
  msg.shift sizeofBlockchainMessageHeader

def HandleBlockAdditionRequest.blockData (requestMessage : Memory) : Memory :=
  let sizeofBlockchainAdditionRequest := 32
  let powSize := (requestMessage.shift 24).number 8
  requestMessage.shift (sizeofBlockchainAdditionRequest + powSize)

def HandleBlockAdditionRequest.key (requestMessage : Memory) : Bytes :=
  let sizeofBlockchainAdditionRequest := 32
  let powSize := (requestMessage.shift 24).number 8
  (requestMessage.shift sizeofBlockchainAdditionRequest).read powSize

def CheckVotesForBlock.blockData (msg : Memory) : Memory :=
  let sizeofBlockchainAdditionRequest := 32
  let powSize := (msg.shift 24).number 8
  msg.shift (sizeofBlockchainAdditionRequest + powSize)

/-- A BLOCK message is read as this block. -/
structure ReadAsBlock (msg : Memory) (b : BType) : Prop where
  body : (readMessage msg).body = .block b
  block : Decodes (RequestBlockchainBlock.blockData msg) b

/-- An ADDREQUEST message is read as a request with this key for this block. -/
structure ReadAsRequest (msg : Memory) (pow : Bytes) (b : BType) : Prop where
  body : (readMessage msg).body = .addRequest pow b
  key : HandleBlockAdditionRequest.key msg = pow
  handled : Decodes (HandleBlockAdditionRequest.blockData msg) b
  compared : Decodes (CheckVotesForBlock.blockData msg) b

section Envelopes

variable {b : BType} {msg : Memory} {pa : PeerAddress} {index : Nat}

theorem header_code {type : BlockchainMessageType} (h : msg.Holds (messageHeader type pa index)) :
    msg.number 4 = type.code := by
  have code := (holds_append.mp h).1
  apply code.number
  cases type <;> decide

theorem readAsBlock (sized : SizedBlock b) (h : msg.Holds (Message.toBytes ⟨pa, index, .block b⟩)) :
    ReadAsBlock msg b := by
  obtain ⟨header, block⟩ := holds_append.mp h
  rw [messageHeader_length] at block
  have decodes := decodes_of_holds sized block
  refine ⟨?_, decodes⟩
  simp only [readMessage, header_code header, BlockchainMessageType.code, decodes.same]

theorem readAsRequest {pow : Bytes} (sized : SizedBlock b) (fits : pow.length < 2 ^ 64)
    (h : msg.Holds (Message.toBytes ⟨pa, index, .addRequest pow b⟩)) :
    ReadAsRequest msg pow b := by
  simp only [Message.toBytes, holds_append, messageHeader_length, encode_length, shift_shift] at h
  obtain ⟨header, powSize, key, block⟩ := h
  have count : (msg.shift 24).number 8 = pow.length := powSize.number fits
  have string : (msg.shift 32).read pow.length = pow := key
  have decodes : Decodes (msg.shift (32 + pow.length)) b := decodes_of_holds sized block
  refine ⟨?_, ?_, ?_, ?_⟩
  · simp only [readMessage, readAdditionRequest, header_code header, BlockchainMessageType.code,
      count, string, decodes.same]
  · rw [HandleBlockAdditionRequest.key, count, string]
  · rw [HandleBlockAdditionRequest.blockData, count]
    exact decodes
  · rw [CheckVotesForBlock.blockData, count]
    exact decodes

/-- A block is decoded as it was encoded: at once, behind the header of a BLOCK message, as
SendBlockchain sends it, and behind the key of an ADDREQUEST, as AddBlockToBlockchain does. -/
theorem block_codec {b : BType} (sized : SizedBlock b) :
    (∀ data : Memory, data.Holds (dataFromBlock b) → Decodes data b) ∧
    (∀ pa index msg, Memory.Holds msg (Message.toBytes ⟨pa, index, .block b⟩) →
      ReadAsBlock msg b) ∧
    (∀ pa index pow msg, pow.length < 2 ^ 64 →
      Memory.Holds msg (Message.toBytes ⟨pa, index, .addRequest pow b⟩) →
      ReadAsRequest msg pow b) ∧
    (∀ (sha256 : Bytes → Bytes) (s : PeerState sha256) bmh,
      s.bc.getBlockFromIndex bmh.index = some b →
      ∃ m, sendBlockchain s bmh = .respond m bmh.peerAddress ∧
        ∀ msg : Memory, msg.Holds m.toBytes → ReadAsBlock msg b) ∧
    (∀ (sha256 : Bytes → Bytes) (s : PeerState sha256) powGroup data pow,
      s.bc.sneakPeekBlock data = b →
      powGroup.solveProblem (sha256FromBlock sha256 b) = pow → pow.length < 2 ^ 64 →
      ∃ m, (addBlockToBlockchain powGroup s data).2 = [.broadcast m] ∧
        ∀ msg : Memory, msg.Holds m.toBytes → ReadAsRequest msg pow b) := by
  refine ⟨?_, ?_, ?_, ?_, ?_⟩
  · intro data h
    exact decodes_of_holds sized h
  · intro pa index msg h
    exact readAsBlock sized h
  · intro pa index pow msg fits h
    exact readAsRequest sized fits h
  · intro sha256 s bmh found
    unfold sendBlockchain
    rw [found]
    exact ⟨_, rfl, fun msg h => readAsBlock sized h⟩
  · intro sha256 s powGroup data pow proposed solved fits
    simp only [addBlockToBlockchain, proposed, solved]
    exact ⟨_, rfl, fun msg h => readAsRequest sized fits h⟩

def echoGenesis : BType := ⟨default, sha256FromDataAndHash HashCash.echo default [], []⟩

theorem echoGenesis_sized : SizedBlock echoGenesis := by
  refine ⟨?_, by decide⟩
  simp [echoGenesis, sha256FromDataAndHash, HashCash.echo, Transactions.size]

theorem echoGenesis_codec :
    Decodes (Memory.of (dataFromBlock echoGenesis)) echoGenesis ∧
    ReadAsRequest (Memory.of (Message.toBytes ⟨⟨2, 80, 1⟩, 1, .addRequest [1] echoGenesis⟩)) [1]
      echoGenesis ∧
    ∃ m, sendBlockchain (@PeerState.ready HashCash.echo ⟨2, 80, 0⟩ [] Blockchain.new [])
        ⟨⟨2, 80, 1⟩, 0, .requestBlock⟩ = .respond m ⟨2, 80, 1⟩ ∧
      ∀ msg : Memory, msg.Holds m.toBytes → ReadAsBlock msg echoGenesis := by
  obtain ⟨decoded, _, behindKey, sent, _⟩ := block_codec echoGenesis_sized
  refine ⟨decoded _ (holds_of _), behindKey _ _ _ _ (by decide) (holds_of _), ?_⟩
  exact sent HashCash.echo _ ⟨⟨2, 80, 1⟩, 0, .requestBlock⟩ rfl

/-- The bytes of data_size are written but not read. -/
theorem data_size_unread :
    ¬ ∀ b : BType, SizedBlock b → ∀ data : Memory, data.Holds (dataFromBlock b) →
      Set.ncard {k | DependsAt blockFromData data k} = (dataFromBlock b).length := by
  intro counted
  have claimed := counted echoGenesis echoGenesis_sized _ (holds_of _)
  have count := (decodes_of_holds echoGenesis_sized (holds_of _)).count
  omega

end Envelopes

end DPS2.Application
