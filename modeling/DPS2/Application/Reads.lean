import DPS2.Application.Machine
import DPS2.Codec.Trace
import DPS2.P2P.Peer

/-! What the handlers of the application read of an item of the inbox. They take every length from
the item itself, and never look at its msg_len. -/
namespace DPS2.Application

open P2P Codec

variable {sha256 : Bytes → Bytes}

/-- An inbox item: the heap from msg on, and msg_len; no object has half of all addresses. -/
structure Item where
  msg : Memory
  msgLen : Nat
  fits : msgLen < 2 ^ 63

/-- Addresses are calculated modulo 2^64. -/
def wrap (offset : Nat) : Nat := offset % 2 ^ 64

namespace Item

variable (item : Item)

def type : Nat := item.msg.number 4

def index : Nat := (item.msg.shift 16).number 8

def powSize : Nat := (item.msg.shift 24).number 8

def voteHashSize : Nat := (item.msg.shift 32).number 8

def hashSize (data : Nat) : Nat := (item.msg.shift data).number 8

def prevHashSize (data : Nat) : Nat := (item.msg.shift (wrap (data + 8))).number 8

/-- Where the block of an addition request begins. -/
def requestBlockData : Nat := wrap (32 + item.powSize)

end Item

/- The reads, in the order of the source; the fields of a struct that are read again are listed
once. -/

section Reads

variable (alloc : Nat → Bool) (item : Item)

/-- std::string of n bytes; it throws before it reads anything if it cannot have this size. -/
def stringReads (offset n : Nat) : Trace :=
  (Trace.check (alloc n)).andThen (.read (wrap offset) n)

def blockFromDataReads (data : Nat) : Trace :=
  let hashSize := item.hashSize data
  let prevHashSize := item.prevHashSize data
  (Trace.read (wrap data) 8).andThen <|
  (stringReads alloc (data + 24) hashSize).andThen <|
  (Trace.read (wrap (data + 8)) 8).andThen <|
  (stringReads alloc (data + 24 + hashSize) prevHashSize).andThen <|
  Trace.read (wrap (data + 24 + hashSize + prevHashSize)) 1600

def typeReads : Trace := .read 0 4

def indexReads : Trace := .read 16 8

def peerAddressReads : Trace := .read 4 8

def sendBlockchainReads : Trace := indexReads.andThen peerAddressReads

def handleBlockAdditionRequestReads (s : PeerState sha256) : Trace :=
  indexReads.andThen <|
  if item.index > s.bc.size then .nothing
  else
    (Trace.read 24 8).andThen <|
    (blockFromDataReads alloc item item.requestBlockData).andThen <|
    stringReads alloc 32 item.powSize

def requestBlockchainBlockReads (f : BlockFrame) : Trace :=
  typeReads.andThen <|
  if item.type = BlockchainMessageType.noBlock.code then peerAddressReads
  else if item.type = BlockchainMessageType.block.code then
    (blockFromDataReads alloc item 24).andThen peerAddressReads
  else if item.type = BlockchainMessageType.requestBlock.code then
    indexReads.andThen <|
    if item.index = f.index then peerAddressReads
    else if item.index < f.index then sendBlockchainReads
    else .nothing
  -- the index is printed
  else if item.type = BlockchainMessageType.vote.code then indexReads
  else if item.type = BlockchainMessageType.addRequest.code then indexReads
  else .nothing

def voteReads (f : VoteFrame) : Trace :=
  (Trace.read 32 8).andThen <|
  (stringReads alloc 40 item.voteHashSize).andThen <|
  peerAddressReads.andThen <|
  if clientFound (readPeerAddress (item.msg.shift 4)) f.clientsSeen then .nothing
  else if (item.msg.shift 40).read item.voteHashSize = f.reqBlock.hash then .read 24 1
  else .nothing

def checkVotesForBlockReads (s : PeerState sha256) (f : VoteFrame) : Trace :=
  typeReads.andThen <|
  if item.type = BlockchainMessageType.vote.code then
    indexReads.andThen <|
    if item.index = s.bc.size then voteReads alloc item f else .nothing
  else if item.type = BlockchainMessageType.requestBlock.code then
    indexReads.andThen <|
    if item.index ≤ s.bc.size then sendBlockchainReads else .nothing
  else if item.type = BlockchainMessageType.addRequest.code then
    indexReads.andThen <|
    if item.index = s.bc.size then
      (Trace.read 24 8).andThen <|
      (blockFromDataReads alloc item item.requestBlockData).andThen <|
      handleBlockAdditionRequestReads alloc item s
    else .nothing
  else .nothing

def handleAllBlockAdditionRequestsReads (s : PeerState sha256) : Trace :=
  typeReads.andThen <|
  if item.type = BlockchainMessageType.addRequest.code then
    indexReads.andThen <|
    if item.index = s.bc.size then handleBlockAdditionRequestReads alloc item s else .nothing
  else .nothing

/-- Run, with the state s when it calls HandleBlockAdditionRequest. -/
def runReads (s : PeerState sha256) : Trace :=
  typeReads.andThen <|
  if item.type = BlockchainMessageType.requestBlock.code then sendBlockchainReads
  else if item.type = BlockchainMessageType.addRequest.code then
    handleBlockAdditionRequestReads alloc item s
  else .nothing

end Reads

/- The items that cover what is read. -/

section Fits

variable (alloc : Nat → Bool) (item : Item)

/-- A block from here on: both lengths, both strings and the data, as far as strings of these
lengths can be built. -/
def BlockFits (data : Nat) : Prop :=
  data + 8 ≤ item.msgLen ∧ (alloc (item.hashSize data) = true →
    data + 16 ≤ item.msgLen ∧
    (item.hashSize data = 0 ∨ data + 24 + item.hashSize data ≤ item.msgLen) ∧
    (alloc (item.prevHashSize data) = true →
      data + 24 + item.hashSize data + item.prevHashSize data + 1600 ≤ item.msgLen))

/-- An addition request: the header, and for an index up to the size the length of the key, the
block and the key. -/
def AdditionFits (size : Nat) : Prop :=
  24 ≤ item.msgLen ∧ (item.index ≤ size → 32 ≤ item.msgLen ∧
    BlockFits alloc item item.requestBlockData ∧
    (alloc (item.hashSize item.requestBlockData) = true →
      alloc (item.prevHashSize item.requestBlockData) = true →
      alloc item.powSize = true → 32 + item.powSize ≤ item.msgLen))

def VoteFits : Prop :=
  40 ≤ item.msgLen ∧ (alloc item.voteHashSize = true → 40 + item.voteHashSize ≤ item.msgLen)

end Fits

section Inside

variable {alloc : Nat → Bool} {item : Item} {s : PeerState sha256}

@[simp] theorem type_inside : typeReads.Inside item.msgLen ↔ 4 ≤ item.msgLen := by
  simp [typeReads]

@[simp] theorem index_inside : indexReads.Inside item.msgLen ↔ 24 ≤ item.msgLen := by
  simp [indexReads]

@[simp] theorem peerAddress_inside : peerAddressReads.Inside item.msgLen ↔ 12 ≤ item.msgLen := by
  simp [peerAddressReads]

@[simp] theorem type_stopped : typeReads.stopped = false := rfl

@[simp] theorem index_stopped : indexReads.stopped = false := rfl

@[simp] theorem peerAddress_stopped : peerAddressReads.stopped = false := rfl

@[simp] theorem send_inside : sendBlockchainReads.Inside item.msgLen ↔ 24 ≤ item.msgLen := by
  simp only [sendBlockchainReads, Trace.inside_andThen, index_inside, peerAddress_inside]
  omega

theorem string_inside {offset n : Nat} : (stringReads alloc offset n).Inside item.msgLen ↔
    (alloc n = true → n = 0 ∨ wrap offset + n ≤ item.msgLen) := by
  simp [stringReads]

theorem string_stopped {offset n : Nat} : (stringReads alloc offset n).stopped = !alloc n := by
  simp [stringReads]

theorem block_inside {data : Nat} (pointer : data < 2 ^ 64) :
    (blockFromDataReads alloc item data).Inside item.msgLen ↔ BlockFits alloc item data := by
  have fits := item.fits
  unfold blockFromDataReads BlockFits
  simp only [Trace.inside_andThen, Trace.inside_read, string_inside, string_stopped,
    Trace.stopped_read, Bool.not_eq_false', true_implies]
  generalize item.hashSize data = hashSize
  generalize item.prevHashSize data = prevHashSize
  cases alloc hashSize with
  | false =>
    simp only [wrap, Bool.false_eq_true, false_implies, and_true]
    omega
  | true =>
    cases alloc prevHashSize with
    | false =>
      simp only [wrap, Bool.false_eq_true, false_implies, and_true, true_implies]
      omega
    | true =>
      simp only [wrap, true_implies]
      omega

theorem block_stopped {data : Nat} : (blockFromDataReads alloc item data).stopped =
    !(alloc (item.hashSize data) && alloc (item.prevHashSize data)) := by
  simp [blockFromDataReads, string_stopped]

theorem addition_inside : (handleBlockAdditionRequestReads alloc item s).Inside item.msgLen ↔
    AdditionFits alloc item s.bc.size := by
  have pointer : item.requestBlockData < 2 ^ 64 := Nat.mod_lt _ (by decide)
  unfold handleBlockAdditionRequestReads AdditionFits
  rw [Trace.inside_andThen, index_inside]
  by_cases early : item.index > s.bc.size
  · simp [early, Nat.not_le_of_lt early]
  · have inTime : item.index ≤ s.bc.size := Nat.le_of_not_lt early
    simp only [if_neg early, inTime, true_implies, Trace.inside_andThen, Trace.inside_read,
      block_inside pointer, block_stopped, string_inside, Trace.stopped_read, indexReads]
    have key : (item.powSize = 0 ∨ wrap 32 + item.powSize ≤ item.msgLen) ↔
        item.powSize = 0 ∨ 32 + item.powSize ≤ item.msgLen := by simp [wrap]
    rw [key]
    simp only [Bool.not_eq_false', Bool.and_eq_true]
    constructor
    · rintro ⟨header, length, block, string⟩
      refine ⟨header, by omega, block, fun hash prevHash pow => ?_⟩
      have covered := string ⟨hash, prevHash⟩ pow
      omega
    · rintro ⟨header, length, block, string⟩
      exact ⟨header, Or.inr length, block, fun both pow => Or.inr (string both.1 both.2 pow)⟩

/-- CheckVotesForBlock decodes the block, and HandleBlockAdditionRequest does so again. -/
theorem addition_again (current : item.index = s.bc.size) :
    ((Trace.read 24 8).andThen <| (blockFromDataReads alloc item item.requestBlockData).andThen <|
        handleBlockAdditionRequestReads alloc item s).Inside item.msgLen ↔
      32 ≤ item.msgLen ∧ AdditionFits alloc item s.bc.size := by
  have pointer : item.requestBlockData < 2 ^ 64 := Nat.mod_lt _ (by decide)
  have inTime : item.index ≤ s.bc.size := Nat.le_of_eq current
  simp only [Trace.inside_andThen, Trace.inside_read, block_inside pointer, block_stopped,
    Trace.stopped_read, addition_inside, Bool.not_eq_false', Bool.and_eq_true, true_implies]
  constructor
  · rintro ⟨length, block, later⟩
    refine ⟨by omega, by omega, fun _ => ⟨by omega, block, fun hash prevHash pow => ?_⟩⟩
    exact ((later ⟨hash, prevHash⟩).2 inTime).2.2 hash prevHash pow
  · rintro ⟨length, fits⟩
    exact ⟨Or.inr length, (fits.2 inTime).2.1, fun _ => fits⟩

theorem vote_inside (f : VoteFrame) :
    (voteReads alloc item f).Inside item.msgLen ↔ VoteFits alloc item := by
  unfold voteReads VoteFits
  have last : ∀ c d : Prop, ∀ [Decidable c] [Decidable d],
      (if c then Trace.nothing else if d then .read 24 1 else .nothing).Inside item.msgLen ↔
        c ∨ ¬ d ∨ 25 ≤ item.msgLen := by
    intro c d _ _
    by_cases hc : c <;> by_cases hd : d <;> simp [hc, hd]
  simp only [Trace.inside_andThen, Trace.inside_read, string_inside, string_stopped,
    Trace.stopped_read, peerAddress_inside, last, true_implies]
  have string : wrap 40 = 40 := rfl
  rw [string]
  cases alloc item.voteHashSize with
  | false => simp
  | true =>
    simp only [Bool.not_true, true_implies]
    omega

end Inside

/- One condition for each handler. -/

section Handlers

variable (alloc : Nat → Bool) (item : Item) (size : Nat)

def RequestedFits : Prop :=
  4 ≤ item.msgLen ∧
    (item.type = BlockchainMessageType.noBlock.code → 12 ≤ item.msgLen) ∧
    (item.type = BlockchainMessageType.block.code → BlockFits alloc item 24) ∧
    (item.type ∈ [BlockchainMessageType.requestBlock.code, BlockchainMessageType.vote.code,
      BlockchainMessageType.addRequest.code] → 24 ≤ item.msgLen)

def CheckedFits : Prop :=
  4 ≤ item.msgLen ∧
    (item.type = BlockchainMessageType.vote.code →
      24 ≤ item.msgLen ∧ (item.index = size → VoteFits alloc item)) ∧
    (item.type = BlockchainMessageType.requestBlock.code → 24 ≤ item.msgLen) ∧
    (item.type = BlockchainMessageType.addRequest.code →
      24 ≤ item.msgLen ∧ (item.index = size → AdditionFits alloc item size))

def CollectedFits : Prop :=
  4 ≤ item.msgLen ∧ (item.type = BlockchainMessageType.addRequest.code →
    24 ≤ item.msgLen ∧ (item.index = size → AdditionFits alloc item size))

def RunFits : Prop :=
  4 ≤ item.msgLen ∧
    (item.type = BlockchainMessageType.requestBlock.code → 24 ≤ item.msgLen) ∧
    (item.type = BlockchainMessageType.addRequest.code → AdditionFits alloc item size)

end Handlers

section Handlers

variable {alloc : Nat → Bool} {item : Item} {s : PeerState sha256}

theorem runReads_inside :
    (runReads alloc item s).Inside item.msgLen ↔ RunFits alloc item s.bc.size := by
  unfold runReads RunFits
  by_cases request : item.type = BlockchainMessageType.requestBlock.code
  · simp [request, BlockchainMessageType.code]
  · by_cases addition : item.type = BlockchainMessageType.addRequest.code
    · simp [addition, BlockchainMessageType.code, addition_inside]
    · simp [request, addition]

theorem handleAllReads_inside :
    (handleAllBlockAdditionRequestsReads alloc item s).Inside item.msgLen ↔
      CollectedFits alloc item s.bc.size := by
  unfold handleAllBlockAdditionRequestsReads CollectedFits
  by_cases addition : item.type = BlockchainMessageType.addRequest.code
  · by_cases current : item.index = s.bc.size
    · simp [addition, current, addition_inside]
    · simp [addition, current]
  · simp [addition]

theorem requestReads_inside (f : BlockFrame) :
    (requestBlockchainBlockReads alloc item f).Inside item.msgLen ↔ RequestedFits alloc item := by
  unfold requestBlockchainBlockReads RequestedFits
  by_cases noBlock : item.type = BlockchainMessageType.noBlock.code
  · simp [noBlock, BlockchainMessageType.code]
  · by_cases block : item.type = BlockchainMessageType.block.code
    · have whole := @block_inside alloc item 24 (by decide)
      have behind : BlockFits alloc item 24 → 12 ≤ item.msgLen := fun fits => by
        have length := fits.1
        omega
      simp [block, BlockchainMessageType.code, whole]
      exact fun _ fits _ => behind fits
    · by_cases request : item.type = BlockchainMessageType.requestBlock.code
      · by_cases same : item.index = f.index
        · simp [request, same, BlockchainMessageType.code]
          omega
        · by_cases earlier : item.index < f.index
          · simp [request, same, earlier, BlockchainMessageType.code]
          · simp [request, same, earlier, BlockchainMessageType.code]
      · by_cases vote : item.type = BlockchainMessageType.vote.code
        · simp [vote, BlockchainMessageType.code]
        · by_cases addition : item.type = BlockchainMessageType.addRequest.code
          · simp [addition, BlockchainMessageType.code]
          · simp [noBlock, block, request, vote, addition]

theorem checkReads_inside (f : VoteFrame) :
    (checkVotesForBlockReads alloc item s f).Inside item.msgLen ↔
      CheckedFits alloc item s.bc.size := by
  unfold checkVotesForBlockReads CheckedFits
  by_cases vote : item.type = BlockchainMessageType.vote.code
  · by_cases current : item.index = s.bc.size
    · simp [vote, current, BlockchainMessageType.code, vote_inside]
    · simp [vote, current, BlockchainMessageType.code]
  · by_cases request : item.type = BlockchainMessageType.requestBlock.code
    · by_cases inTime : item.index ≤ s.bc.size
      · simp [request, inTime, BlockchainMessageType.code]
      · simp [request, inTime, BlockchainMessageType.code]
    · by_cases addition : item.type = BlockchainMessageType.addRequest.code
      · by_cases current : item.index = s.bc.size
        · rw [if_neg vote, if_neg request, if_pos addition, if_pos current, Trace.inside_andThen,
            Trace.inside_andThen, addition_again current]
          simp [addition, current, BlockchainMessageType.code, AdditionFits]
          exact fun _ header length => ⟨fun fits => fits.2.2, fun rest => ⟨header, length, rest⟩⟩
        · simp [addition, current, BlockchainMessageType.code]
      · simp [vote, request, addition]

end Handlers

/- What a peer sends covers what is read of it. -/

section Honest

variable {alloc : Nat → Bool} {item : Item}

/-- The message is as long as its type and its lengths say. -/
structure Covered (alloc : Nat → Bool) (item : Item) : Prop where
  header : 24 ≤ item.msgLen
  block : item.type = BlockchainMessageType.block.code → BlockFits alloc item 24
  vote : item.type = BlockchainMessageType.vote.code → VoteFits alloc item
  addRequest : item.type = BlockchainMessageType.addRequest.code →
    ∀ size, AdditionFits alloc item size

theorem Covered.fits (h : Covered alloc item) (size : Nat) :
    RunFits alloc item size ∧ RequestedFits alloc item ∧ CheckedFits alloc item size ∧
      CollectedFits alloc item size := by
  have header := h.header
  have type : 4 ≤ item.msgLen := by omega
  refine ⟨⟨type, fun _ => header, fun addition => h.addRequest addition size⟩,
    ⟨type, fun _ => by omega, h.block, fun _ => header⟩,
    ⟨type, fun vote => ⟨header, fun _ => h.vote vote⟩, fun _ => header, ?_⟩, type, ?_⟩
  · exact fun addition => ⟨header, fun _ => h.addRequest addition size⟩
  · exact fun addition => ⟨header, fun _ => h.addRequest addition size⟩

theorem block_fits {b : BType} {data : Nat} (sized : SizedBlock b)
    (held : (item.msg.shift data).Holds (dataFromBlock b))
    (covers : item.msgLen = data + (dataFromBlock b).length) : BlockFits alloc item data := by
  have fits := item.fits
  have length : (dataFromBlock b).length = 24 + b.hash.length + b.prevHash.length + 1600 := by
    simp [dataFromBlock, b.data.size]
    omega
  obtain ⟨hashFits, prevFits⟩ := sized
  simp only [dataFromBlock, holds_append, encode_length, shift_shift] at held
  obtain ⟨hashSize, prevHashSize, _⟩ := held
  have pointer : wrap (data + 8) = data + 8 := Nat.mod_eq_of_lt (by omega)
  have count : item.hashSize data = b.hash.length := hashSize.number hashFits
  have prevCount : item.prevHashSize data = b.prevHash.length := by
    unfold Item.prevHashSize
    rw [pointer]
    exact prevHashSize.number prevFits
  unfold BlockFits
  rw [count, prevCount]
  exact ⟨by omega, fun _ => ⟨by omega, by omega, fun _ => by omega⟩⟩

theorem honest_covered {m : Message} (sized : Sized m) (held : item.msg.Holds m.toBytes)
    (covers : item.msgLen = m.toBytes.length) : Covered alloc item := by
  have bounded := item.fits
  obtain ⟨pa, index, body⟩ := m
  obtain ⟨fits, sized⟩ := sized
  have typed : ∀ {type}, item.msg.Holds (messageHeader type pa index) → item.type = type.code :=
    fun header => (readHeader fits header).1
  cases body with
  | block b =>
    simp only [Message.toBytes, holds_append, messageHeader_length, List.length_append]
      at held covers
    have type := typed held.1
    refine ⟨by omega, fun _ => block_fits sized held.2 covers, ?_, ?_⟩
    · exact fun vote => by cases type.symm.trans vote
    · exact fun addition => by cases type.symm.trans addition
  | requestBlock =>
    have type := typed held
    simp only [Message.toBytes, messageHeader_length] at covers
    refine ⟨by omega, ?_, ?_, ?_⟩
    · exact fun block => by cases type.symm.trans block
    · exact fun vote => by cases type.symm.trans vote
    · exact fun addition => by cases type.symm.trans addition
  | noBlock =>
    have type := typed held
    simp only [Message.toBytes, messageHeader_length] at covers
    refine ⟨by omega, ?_, ?_, ?_⟩
    · exact fun block => by cases type.symm.trans block
    · exact fun vote => by cases type.symm.trans vote
    · exact fun addition => by cases type.symm.trans addition
  | vote agree hash =>
    simp only [Message.toBytes, holds_append, messageHeader_length, encode_length,
      List.length_replicate, List.length_append, shift_shift] at held covers
    obtain ⟨header, _, _, hashSize, _⟩ := held
    have type := typed header
    have count : item.voteHashSize = hash.length := hashSize.number sized
    refine ⟨by omega, ?_, fun _ => ⟨by omega, fun _ => by omega⟩, ?_⟩
    · exact fun block => by cases type.symm.trans block
    · exact fun addition => by cases type.symm.trans addition
  | addRequest pow b =>
    simp only [Message.toBytes, holds_append, messageHeader_length, encode_length,
      List.length_append, shift_shift] at held covers
    obtain ⟨header, powSize, _, block⟩ := held
    have type := typed header
    have count : item.powSize = pow.length := powSize.number sized.1
    have pointer : item.requestBlockData = 32 + pow.length := by
      unfold Item.requestBlockData
      rw [count]
      exact Nat.mod_eq_of_lt (by omega)
    refine ⟨by omega, ?_, ?_, fun _ size => ⟨by omega, fun _ => ⟨by omega, ?_, ?_⟩⟩⟩
    · exact fun block => by cases type.symm.trans block
    · exact fun vote => by cases type.symm.trans vote
    · rw [pointer]
      exact block_fits sized.2 block (by omega)
    · intro _ _ _
      omega
  | unrecognized => exact sized.elim

/-- No handler reads beyond a message as it was sent. -/
theorem honest_reads_inside {m : Message} (sized : Sized m) (held : item.msg.Holds m.toBytes)
    (covers : item.msgLen = m.toBytes.length) (s : PeerState sha256) (f : BlockFrame)
    (g : VoteFrame) :
    (runReads alloc item s).Inside item.msgLen ∧
      (requestBlockchainBlockReads alloc item f).Inside item.msgLen ∧
      (checkVotesForBlockReads alloc item s g).Inside item.msgLen ∧
      (handleAllBlockAdditionRequestsReads alloc item s).Inside item.msgLen := by
  obtain ⟨run, requested, checked, collected⟩ :=
    (@honest_covered alloc item m sized held covers).fits s.bc.size
  exact ⟨runReads_inside.mpr run, (requestReads_inside f).mpr requested,
    (checkReads_inside g).mpr checked, handleAllReads_inside.mpr collected⟩

end Honest

/-- Each function reads only the item, whatever follows it in memory, exactly if msg_len covers
the header, the lengths in it and what they announce, as far as the function gets. -/
theorem item_reads_inside_iff (alloc : Nat → Bool) (item : Item) (s : PeerState sha256) :
    ((runReads alloc item s).Inside item.msgLen ↔ RunFits alloc item s.bc.size) ∧
    (∀ f, (requestBlockchainBlockReads alloc item f).Inside item.msgLen ↔
      RequestedFits alloc item) ∧
    (∀ f, (checkVotesForBlockReads alloc item s f).Inside item.msgLen ↔
      CheckedFits alloc item s.bc.size) ∧
    ((handleAllBlockAdditionRequestsReads alloc item s).Inside item.msgLen ↔
      CollectedFits alloc item s.bc.size) ∧
    ((handleBlockAdditionRequestReads alloc item s).Inside item.msgLen ↔
      AdditionFits alloc item s.bc.size) ∧
    (sendBlockchainReads.Inside item.msgLen ↔ 24 ≤ item.msgLen) :=
  ⟨runReads_inside, requestReads_inside, checkReads_inside, handleAllReads_inside, addition_inside,
    send_inside⟩

/-- A message that is the type of a REQUESTBLOCK and nothing else. -/
def bareRequest : Payload := ⟨[1, 0, 0, 0], by decide⟩

/-- It is delivered, and Run reads its index and its address behind it. -/
theorem bare_request_overread :
    ¬ ∀ (datagram : Bytes) (out : Received) (message : Bytes) (alloc : Nat → Bool) (item : Item)
        (s : PeerState ProofOfWork.HashCash.echo),
      (receive [datagram] out).2 = ⟨some message, item.msgLen⟩ → item.msg.Holds message →
        (runReads alloc item s).Inside item.msgLen := by
  intro inside
  have delivered := ((frame_delivered_iff bareRequest).mpr (Or.inl rfl)).2.2 [] ⟨none, 0⟩
  have index := inside _ ⟨none, 0⟩ bareRequest.bytes (fun _ => true)
    ⟨Memory.of bareRequest.bytes, 4, by decide⟩ (.ready ⟨2, 80, 0⟩ [] Blockchain.new [])
    (congrArg Prod.snd delivered) (holds_of _)
  rw [runReads_inside] at index
  have header := index.2.1 (by decide)
  revert header
  decide

end DPS2.Application
