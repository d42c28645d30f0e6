import DPS2.Application.Messages
import DPS2.ProofOfWork.HashCash

/-! Application::Run as a machine. The control of a peer is the place in the code where
its thread stands, with the local variables alive there; one turn takes the thread from
one poll of the inbox or one call to the next. The inbox thread pushes between turns. -/
namespace DPS2.Application

open P2P ProofOfWork

/-- Number of tries before trying to request a block again. -/
def nTries : Nat := 10

/-- The order of std::string, by unsigned characters. -/
def compareStrings : Bytes → Bytes → Ordering
  | [], [] => .eq
  | [], _ :: _ => .lt
  | _ :: _, [] => .gt
  | a :: as, b :: bs => (compare a.toNat b.toNat).then (compareStrings as bs)

def clientFound (clnt : PeerAddress) (clientsSeen : List PeerAddress) : Bool :=
  clientsSeen.any (cmpPeerAddress clnt)

structure AdditionRequest where
  peerAddress : PeerAddress
  index : Nat
  pow : Bytes
  block : BType
  deriving DecidableEq

def AdditionRequest.toMessage (r : AdditionRequest) : Message :=
  ⟨r.peerAddress, r.index, .addRequest r.pow r.block⟩

/-- The map from hashes to a block and its count, in the order of the map. -/
abbrev BlockCounts := List (BType × Nat)

/-- Locals of RequestBlockchainBlock. -/
structure BlockFrame where
  index : Nat
  nPeers : Nat
  messages : BlockCounts
  clientsSeen : List PeerAddress
  noBlock : Nat
  tries : Nat
  readMessages : List Message
  deriving DecidableEq

/-- Where RequestBlockchain is called in Run, with what Run holds meanwhile. -/
inductive Caller where
  | refresh
  | addRequest (r : AdditionRequest)
  | transactions (ts : Transactions)
  | noMessages
  deriving DecidableEq

/-- The caller of CheckVotesForBlock, with what it still needs afterwards. -/
inductive Origin where
  | addBlockToBlockchain (index : Nat) (pow : Bytes)
  | handleBlockAdditionRequest (agree : Bool)
  deriving DecidableEq

/-- Locals of CheckVotesForBlock. -/
structure VoteFrame where
  origin : Origin
  reqBlock : BType
  nPeers : Nat
  tries : Nat
  nAgrees : Nat
  nDisagrees : Nat
  clientsSeen : List PeerAddress
  readMessages : List Message
  deriving DecidableEq

/-- In the states of the vote, below are the calls that wait for a nested request, and
read is what HandleAllBlockAdditionRequests has read. -/
inductive Control where
  -- the head of the loop of Run
  | run
  -- RequestBlockchain is about to call RequestBlockchainBlock
  | requestBlockchain (caller : Caller)
  -- the head of the loop of RequestBlockchainBlock
  | awaitBlock (f : BlockFrame) (caller : Caller)
  -- Run is about to call HandleBlockAdditionRequest
  | handleRequest (r : AdditionRequest)
  -- Run is about to call AddBlockToBlockchain
  | addBlock (ts : Transactions)
  -- the head of the loop of CheckVotesForBlock
  | awaitVotes (f : VoteFrame) (below : List VoteFrame) (read : List Message)
  -- the check for a majority after a message
  | majority (f : VoteFrame) (below : List VoteFrame) (read : List Message)
  -- CheckVotesForBlock has returned
  | checked (result : Bool) (f : VoteFrame) (below : List VoteFrame) (read : List Message)
  -- HandleBlockAdditionRequest has returned
  | handled (agree : Bool) (below : List VoteFrame) (read : List Message)
  -- the loop of HandleAllBlockAdditionRequests
  | handleAll (read : List Message)
  deriving DecidableEq

/-- A pointer in addblock_candidates; own marks the one that AddBlockToBlockchain returns. -/
structure Candidate where
  block : BType
  own : Bool
  deriving DecidableEq

section Hashes

variable (sha256 : Bytes → Bytes)

def sha256FromBlock (b : BType) : Bytes := sha256 (b.data.bytes ++ b.hash ++ b.prevHash)

def sha256FromDataAndHash (data : Transactions) (hash : Bytes) : Bytes :=
  sha256 (data.bytes ++ hash)

end Hashes

structure PeerState (sha256 : Bytes → Bytes) where
  ownPa : PeerAddress
  networkInfo : List PeerAddress
  isOnline : Bool
  wasOffline : Bool
  bc : Blockchain (sha256FromDataAndHash sha256)
  transactions : List Transactions
  inbox : List Message
  addblockCandidates : List Candidate
  control : Control

inductive Output where
  | broadcast (m : Message)
  | respond (m : Message) (pa : PeerAddress)
  deriving DecidableEq

variable {sha256 : Bytes → Bytes}

namespace PeerState

/-- Before Run, with this chain and these transactions. -/
def ready (ownPa : PeerAddress) (networkInfo : List PeerAddress)
    (bc : Blockchain (sha256FromDataAndHash sha256)) (transactions : List Transactions) :
    PeerState sha256 :=
  ⟨ownPa, networkInfo, false, true, bc, transactions, [], [], .run⟩

/-- The constructor; init loads the transactions into the chain. -/
def application (ownPa : PeerAddress) (transactions : List Transactions) (init : Bool) :
    PeerState sha256 :=
  if init then ready ownPa [] (transactions.foldl Blockchain.addBlock Blockchain.new) []
  else ready ownPa [] Blockchain.new transactions

/-- The peers a broadcast is sent to; their number is what broadcast returns. -/
def addressees (s : PeerState sha256) : List PeerAddress :=
  s.networkInfo.filter (fun pa => !cmpPeerAddress pa s.ownPa)

def placeBack (s : PeerState sha256) (messages : List Message) : PeerState sha256 :=
  { s with inbox := s.inbox ++ messages }

def goto (s : PeerState sha256) (control : Control) : PeerState sha256 :=
  { s with control }

end PeerState

/- Synchronisation. -/

/-- The scan of checkMajority: the block with the most votes, its votes, the next most. -/
def mostVotes (noBlock : Nat) : BlockCounts → Option BType × Nat × Nat
  | [] => (none, noBlock, 0)
  | (first, count) :: rest =>
      let start : Option BType × Nat × Nat :=
        if count = noBlock then (none, noBlock, count)
        else if count > noBlock then (some first, count, noBlock)
        else (none, noBlock, count)
      rest.foldl (fun acc entry =>
        let (largestBlock, largest, secondLargest) := acc
        if entry.2 > largest then (some entry.1, entry.2, largest)
        else if entry.2 > secondLargest then (largestBlock, largest, entry.2)
        else acc) start

/-- The value some b is true with largest_block b, where none stands for NULL. -/
def checkMajority (i nPeers noBlock : Nat) (messages : BlockCounts) : Option (Option BType) :=
  if i ≥ nPeers / 2 then
    if messages = [] then some none
    else
      let (largestBlock, largest, secondLargest) := mostVotes noBlock messages
      if largest > secondLargest + (nPeers - i) then some largestBlock else none
  else none

/-- One more vote for the hash of a block; a new hash is inserted in order. -/
def countBlock (b : BType) : BlockCounts → BlockCounts
  | [] => [(b, 1)]
  | (first, count) :: rest =>
      match compareStrings b.hash first.hash with
      | .lt => (b, 1) :: (first, count) :: rest
      | .eq => (first, count + 1) :: rest
      | .gt => (first, count) :: countBlock b rest

def sendBlockchain (s : PeerState sha256) (bmh : Message) : Output :=
  match s.bc.getBlockFromIndex bmh.index with
  | some b => .respond ⟨s.ownPa, bmh.index, .block b⟩ bmh.peerAddress
  | none => .respond ⟨s.ownPa, bmh.index, .noBlock⟩ bmh.peerAddress

/-- What RequestBlockchainBlock does with one message. -/
def readBlockMessage (s : PeerState sha256) (f : BlockFrame) (msg : Message) :
    BlockFrame × List Output :=
  let found := clientFound msg.peerAddress f.clientsSeen
  let seen := f.clientsSeen ++ [msg.peerAddress]
  match msg.body with
  | .noBlock =>
      if found then (f, []) else ({ f with noBlock := f.noBlock + 1, clientsSeen := seen }, [])
  | .block b =>
      if found then (f, [])
      else if sha256FromDataAndHash sha256 b.data b.prevHash = b.hash ∧
          b.prevHash = s.bc.getTopHash then
        ({ f with clientsSeen := seen, messages := countBlock b f.messages }, [])
      else ({ f with clientsSeen := seen }, [])
  | .requestBlock =>
      if msg.index = f.index then
        if found then (f, []) else ({ f with clientsSeen := seen }, [])
      else if msg.index < f.index then (f, [sendBlockchain s msg])
      else ({ f with readMessages := f.readMessages ++ [msg] }, [])
  -- votes and addition requests are freed as well
  | _ => (f, [])

def Caller.resume : Caller → Control
  | .refresh => .run
  | .addRequest r => .handleRequest r
  | .transactions ts => .addBlock ts
  | .noMessages => .run

/-- RequestBlockchain with the result of a successful RequestBlockchainBlock. -/
def requestedBlock (s : PeerState sha256) (caller : Caller) (largestBlock : Option BType) :
    PeerState sha256 :=
  match largestBlock with
  | some b => { s with bc := s.bc.addBlock b.data, control := .requestBlockchain caller }
  | none => s.goto caller.resume

def requestBlockchainBlock (s : PeerState sha256) (caller : Caller) :
    PeerState sha256 × List Output :=
  let nPeers := s.addressees.length
  let request : Message := ⟨s.ownPa, s.bc.size, .requestBlock⟩
  if nPeers = 0 then (requestedBlock s caller none, [.broadcast request])
  else (s.goto (.awaitBlock ⟨s.bc.size, nPeers, [], [], 0, 0, []⟩ caller), [.broadcast request])

def awaitBlock (s : PeerState sha256) (f : BlockFrame) (caller : Caller) :
    PeerState sha256 × List Output :=
  if f.clientsSeen.length < f.nPeers then
    match s.inbox with
    | msg :: inbox =>
        let (f, out) := readBlockMessage s f msg
        let s := { s with inbox }
        match checkMajority f.clientsSeen.length f.nPeers f.noBlock f.messages with
        | some largestBlock =>
            (requestedBlock (s.placeBack f.readMessages) caller largestBlock, out)
        | none =>
            if f.tries ≥ nTries then
              ((s.placeBack f.readMessages).goto (.requestBlockchain caller), out)
            else (s.goto (.awaitBlock f caller), out)
    | [] =>
        let f := { f with tries := f.tries + 1 }
        if f.tries ≥ nTries then
          ((s.placeBack f.readMessages).goto (.requestBlockchain caller), [])
        else (s.goto (.awaitBlock f caller), [])
  else ((s.placeBack f.readMessages).goto (.requestBlockchain caller), [])

/- Votes. -/

/-- The frame of a call of CheckVotesForBlock after its first lines. -/
def VoteFrame.start (origin : Origin) (reqBlock : BType) (nPeers : Nat) (ownVote : Bool) :
    VoteFrame :=
  ⟨origin, reqBlock, nPeers + 1, 0, ownVote.toNat, (!ownVote).toNat, [], []⟩

/-- The vote of HandleBlockAdditionRequest on a request that is not too early. -/
def voteOn (powGroup : IProofOfWork Bytes Bytes)
    (bc : Blockchain (sha256FromDataAndHash sha256)) (r : AdditionRequest) (allowAgree : Bool) :
    Bool :=
  let b := r.block
  if r.index < bc.size then false
  else if b.prevHash ≠ bc.getTopHash then false
  else if b.hash ≠ sha256FromDataAndHash sha256 b.data b.prevHash then false
  else if powGroup.checkSolution (sha256FromBlock sha256 b) r.pow = false then false
  else allowAgree

def handleBlockAdditionRequest (powGroup : IProofOfWork Bytes Bytes) (s : PeerState sha256)
    (r : AdditionRequest) (allowAgree : Bool) (below : List VoteFrame) (read : List Message) :
    PeerState sha256 × List Output :=
  if r.index > s.bc.size then
    ((s.placeBack [r.toMessage]).goto (.handled false below read), [])
  else
    let agree := voteOn powGroup s.bc r allowAgree
    let vote : Message := ⟨s.ownPa, r.index, .vote agree r.block.hash⟩
    if allowAgree then
      let f := VoteFrame.start (.handleBlockAdditionRequest agree) r.block s.addressees.length agree
      (s.goto (.awaitVotes f below read), [.broadcast vote])
    else (s.goto (.handled agree below read), [.broadcast vote])

/-- A vote for the current index from a new client, if its hash matches. -/
def VoteFrame.countVote (f : VoteFrame) (pa : PeerAddress) (agree : Bool) (hash : Bytes) :
    VoteFrame :=
  if clientFound pa f.clientsSeen then f
  else if hash = f.reqBlock.hash then
    { f with
      nAgrees := f.nAgrees + agree.toNat
      nDisagrees := f.nDisagrees + (!agree).toNat
      clientsSeen := f.clientsSeen ++ [pa] }
  else f

def VoteFrame.defer (f : VoteFrame) (msg : Message) : VoteFrame :=
  { f with readMessages := f.readMessages ++ [msg] }

/-- What CheckVotesForBlock does with one message, up to the check for a majority. -/
def readVoteMessage (powGroup : IProofOfWork Bytes Bytes) (s : PeerState sha256) (f : VoteFrame)
    (below : List VoteFrame) (read : List Message) (msg : Message) :
    PeerState sha256 × List Output :=
  match msg.body with
  | .vote agree hash =>
      if msg.index ≤ s.bc.size then
        if msg.index = s.bc.size then
          (s.goto (.majority (f.countVote msg.peerAddress agree hash) below read), [])
        else (s.goto (.majority f below read), [])
      else (s.goto (.majority (f.defer msg) below read), [])
  | .requestBlock =>
      if msg.index ≤ s.bc.size then
        (s.goto (.majority f below read), [sendBlockchain s msg])
      else (s.goto (.majority (f.defer msg) below read), [])
  | .addRequest pow b =>
      if msg.index = s.bc.size then
        let r : AdditionRequest := ⟨msg.peerAddress, msg.index, pow, b⟩
        if compareStrings b.hash f.reqBlock.hash ≠ .gt then
          handleBlockAdditionRequest powGroup s r true (f :: below) read
        else handleBlockAdditionRequest powGroup s r false (f :: below) read
      else (s.goto (.majority (f.defer msg) below read), [])
  | _ => (s.goto (.majority f below read), [])

def awaitVotes (powGroup : IProofOfWork Bytes Bytes) (s : PeerState sha256) (f : VoteFrame)
    (below : List VoteFrame) (read : List Message) : PeerState sha256 × List Output :=
  if f.clientsSeen.length + 1 < f.nPeers then
    match s.inbox with
    | msg :: inbox => readVoteMessage powGroup { s with inbox } f below read msg
    | [] =>
        let f := { f with tries := f.tries + 1 }
        if f.tries ≥ f.nPeers * nTries then
          ((s.placeBack f.readMessages).goto (.checked false f below read), [])
        else (s.goto (.awaitVotes f below read), [])
  else
    let result := decide (f.nAgrees > f.nDisagrees + f.nPeers - (f.clientsSeen.length + 1))
    ((s.placeBack f.readMessages).goto (.checked result f below read), [])

def majority (s : PeerState sha256) (f : VoteFrame) (below : List VoteFrame)
    (read : List Message) : PeerState sha256 × List Output :=
  if f.nAgrees > f.nPeers / 2 then
    ((s.placeBack f.readMessages).goto (.checked true f below read), [])
  else if f.nDisagrees > f.nPeers / 2 then
    ((s.placeBack f.readMessages).goto (.checked false f below read), [])
  else if f.tries ≥ f.nPeers * nTries then
    ((s.placeBack f.readMessages).goto (.checked false f below read), [])
  else (s.goto (.awaitVotes f below read), [])

def checked (s : PeerState sha256) (result : Bool) (f : VoteFrame) (below : List VoteFrame)
    (read : List Message) : PeerState sha256 × List Output :=
  match f.origin with
  | .addBlockToBlockchain index _ =>
      let vote : Message := ⟨s.ownPa, index, .vote result f.reqBlock.hash⟩
      let added := if result then [Candidate.mk f.reqBlock true] else []
      ({ s with
          addblockCandidates := s.addblockCandidates ++ added
          control := .handleAll [] }, [.broadcast vote])
  | .handleBlockAdditionRequest agree =>
      let added := if result then [Candidate.mk f.reqBlock false] else []
      ({ s with
          addblockCandidates := s.addblockCandidates ++ added
          control := .handled agree below read }, [])

/-- The caller of HandleBlockAdditionRequest goes on. An agreeing nested call makes the
waiting CheckVotesForBlock return at once, without placing its messages back. -/
def handled (s : PeerState sha256) (agree : Bool) (below : List VoteFrame)
    (read : List Message) : PeerState sha256 :=
  match below with
  | [] => s.goto (.handleAll read)
  | f :: below =>
      if agree then s.goto (.checked false f below read)
      else s.goto (.majority f below read)

/- Proposals and commits. -/

def addBlockToBlockchain (powGroup : IProofOfWork Bytes Bytes) (s : PeerState sha256)
    (data : Transactions) : PeerState sha256 × List Output :=
  let newBlock := s.bc.sneakPeekBlock data
  let pow := powGroup.solveProblem (sha256FromBlock sha256 newBlock)
  let request : AdditionRequest := ⟨s.ownPa, s.bc.size, pow, newBlock⟩
  let f := VoteFrame.start (.addBlockToBlockchain s.bc.size pow) newBlock s.addressees.length true
  (s.goto (.awaitVotes f [] []), [.broadcast request.toMessage])

/-- The candidate with the lowest hash, the last one of equals. -/
def lowestHash : List Candidate → Option Candidate
  | [] => none
  | first :: rest => some (rest.foldl (fun best it =>
      if compareStrings it.block.hash best.block.hash ≠ .gt then it else best) first)

/-- The end of HandleAllBlockAdditionRequests, and what Run does with its result. -/
def commit (s : PeerState sha256) (read : List Message) : PeerState sha256 :=
  let best := lowestHash s.addblockCandidates
  let s := { s.placeBack read with addblockCandidates := [], control := .run }
  match best with
  | none => s
  | some best =>
      { s with
        bc := s.bc.addBlock best.block.data
        transactions := if best.own then s.transactions.tail else s.transactions }

def handleAllBlockAdditionRequests (powGroup : IProofOfWork Bytes Bytes) (s : PeerState sha256)
    (read : List Message) : PeerState sha256 × List Output :=
  match s.inbox with
  | [] => (commit s read, [])
  | msg :: inbox =>
      let s := { s with inbox }
      match msg.body with
      | .addRequest pow b =>
          if msg.index = s.bc.size then
            handleBlockAdditionRequest powGroup s ⟨msg.peerAddress, msg.index, pow, b⟩ true [] read
          else (s.goto (.handleAll (read ++ [msg])), [])
      | _ => (s.goto (.handleAll (read ++ [msg])), [])

def runLoop (s : PeerState sha256) : PeerState sha256 × List Output :=
  if s.isOnline then
    if s.wasOffline then
      ({ s with wasOffline := false, control := .requestBlockchain .refresh }, [])
    else
      match s.inbox with
      | msg :: inbox =>
          let s := { s with inbox }
          match msg.body with
          | .requestBlock => (s, [sendBlockchain s msg])
          | .addRequest pow b =>
              (s.goto (.requestBlockchain
                (.addRequest ⟨msg.peerAddress, msg.index, pow, b⟩)), [])
          | _ => (s, [])
      | [] =>
          match s.transactions with
          | ts :: _ => (s.goto (.requestBlockchain (.transactions ts)), [])
          | [] => (s.goto (.requestBlockchain .noMessages), [])
  else (s, [])

/-- One turn of the thread that executes Run. -/
def turn (powGroup : IProofOfWork Bytes Bytes) (s : PeerState sha256) :
    PeerState sha256 × List Output :=
  match s.control with
  | .run => runLoop s
  | .requestBlockchain caller => requestBlockchainBlock s caller
  | .awaitBlock f caller => awaitBlock s f caller
  | .handleRequest r => handleBlockAdditionRequest powGroup s r true [] []
  | .addBlock ts => addBlockToBlockchain powGroup s ts
  | .awaitVotes f below read => awaitVotes powGroup s f below read
  | .majority f below read => majority s f below read
  | .checked result f below read => checked s result f below read
  | .handled agree below read => (handled s agree below read, [])
  | .handleAll read => handleAllBlockAdditionRequests powGroup s read

/- What the other threads of a peer do between two turns. -/

/-- The inbox thread has received a message. -/
def deliver (s : PeerState sha256) (msg : Message) : PeerState sha256 := s.placeBack [msg]

/-- The tracker thread has received network information. -/
def receiveNetinfo (s : PeerState sha256) (info : List PeerAddress) : PeerState sha256 :=
  if info.any (fun pa => cmpPeerAddress pa s.ownPa) then
    { s with networkInfo := info, isOnline := true }
  else { s with networkInfo := info, isOnline := false, wasOffline := true }

inductive PeerEvent where
  | turn
  | deliver (msg : Message)
  | netinfo (info : List PeerAddress)
  deriving DecidableEq

def react (powGroup : IProofOfWork Bytes Bytes) (s : PeerState sha256) :
    PeerEvent → PeerState sha256
  | .turn => (turn powGroup s).1
  | .deliver msg => deliver s msg
  | .netinfo info => receiveNetinfo s info

end DPS2.Application
