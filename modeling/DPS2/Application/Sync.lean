import DPS2.Application.BlockTurns

/-! Synchronising with peers that all hold one chain. An answer to an earlier request is
read during a later one: its block is not counted, but its sender counts as seen. -/
namespace DPS2.Application

open P2P ProofOfWork

variable {sha256 : Bytes → Bytes}

/-- The requester, and the answers on their way to it. -/
structure SyncState (sha256 : Bytes → Bytes) where
  peer : PeerState sha256
  flight : List Message

inductive SyncEvent where
  | turn
  | deliver (k : Nat)
  deriving DecidableEq

def Output.message : Output → Message
  | .broadcast m => m
  | .respond m _ => m

section Environment

variable (powGroup : IProofOfWork Bytes Bytes) (C : Blockchain (sha256FromDataAndHash sha256))

/-- What SendBlockchain responds at a peer with the chain C. -/
def answer (request : Message) (pa : PeerAddress) : Message :=
  (sendBlockchain (PeerState.ready pa [] C []) request).message

/-- Every other peer answers a request once; nothing else is answered. -/
def answers (others : List PeerAddress) : Output → List Message
  | .broadcast m => if m.body = .requestBlock then others.map (answer C m) else []
  | .respond _ _ => []

def syncStep (s : SyncState sha256) : SyncEvent → SyncState sha256
  | .turn =>
      let (peer, out) := turn powGroup s.peer
      ⟨peer, s.flight ++ out.flatMap (answers C s.peer.addressees)⟩
  | .deliver k =>
      match s.flight[k]? with
      | some msg => ⟨deliver s.peer msg, s.flight.eraseIdx k⟩
      | none => s

end Environment

/-- The run has not gone beyond the return of the call. -/
def InCall (s : SyncState sha256) (_ : SyncEvent) : Prop := s.peer.control.syncing = true

def inTime (s : SyncState sha256) : Bool :=
  match s.peer.control, s.peer.inbox with
  | .awaitBlock f _, [] => decide (f.tries + 1 < nTries)
  | _, _ => true

/-- A step of the call in which the waiting loop does not run out of tries. -/
def Patient (s : SyncState sha256) (e : SyncEvent) : Prop :=
  s.peer.control.syncing = true ∧ (e = .turn → inTime s = true)

instance (s : SyncState sha256) (e : SyncEvent) : Decidable (InCall s e) :=
  inferInstanceAs (Decidable (s.peer.control.syncing = true))

instance (s : SyncState sha256) (e : SyncEvent) : Decidable (Patient s e) :=
  inferInstanceAs (Decidable (s.peer.control.syncing = true ∧ (e = .turn → inTime s = true)))

/-- While no block for the requested index has been received, although C has one, an answer
to an earlier request makes the senders seen so far reach half of the peers. -/
def Wasted (C : Blockchain (sha256FromDataAndHash sha256)) (s : SyncState sha256)
    (e : SyncEvent) : Prop :=
  e = .turn ∧ ∃ f caller msg inbox, s.peer.control = .awaitBlock f caller ∧
    s.peer.inbox = msg :: inbox ∧ msg.index < f.index ∧ f.index < C.size ∧ f.messages = [] ∧
    clientFound msg.peerAddress f.clientsSeen = false ∧
    f.nPeers / 2 ≤ f.clientsSeen.length + 1

instance (C : Blockchain (sha256FromDataAndHash sha256)) (s : SyncState sha256) (e : SyncEvent) :
    Decidable (Wasted C s e) :=
  match hc : s.peer.control with
  | .awaitBlock f caller =>
    match hi : s.peer.inbox with
    | [] => isFalse fun ⟨_, _, _, _, _, _, inbox, _⟩ => by cases hi.symm.trans inbox
    | msg :: inbox =>
      decidable_of_iff (e = .turn ∧ msg.index < f.index ∧ f.index < C.size ∧ f.messages = [] ∧
          clientFound msg.peerAddress f.clientsSeen = false ∧
          f.nPeers / 2 ≤ f.clientsSeen.length + 1)
        ⟨fun h => ⟨h.1, f, caller, msg, inbox, hc, hi, h.2⟩, fun ⟨turns, _, _, _, _, c, i, h⟩ => by
          cases hc.symm.trans c
          cases hi.symm.trans i
          exact ⟨turns, h⟩⟩
  | .run | .requestBlockchain _ | .handleRequest _ | .addBlock _ | .awaitVotes _ _ _
  | .majority _ _ _ | .checked _ _ _ _ | .handled _ _ _ | .handleAll _ =>
    isFalse fun ⟨_, _, _, _, _, c, _⟩ => by cases hc.symm.trans c

/-- No two blocks of the chain have the same hash. -/
def DistinctHashes (C : Blockchain (sha256FromDataAndHash sha256)) : Prop :=
  ∀ i j b c, C.getBlockFromIndex i = some b → C.getBlockFromIndex j = some c →
    b.hash = c.hash → i = j

theorem distinctHashes (free : CollisionFree sha256)
    (C : Blockchain (sha256FromDataAndHash sha256)) : DistinctHashes C := by
  intro i j b c hb hc same
  have inside : ∀ {n d}, C.getBlockFromIndex n = some d → n ≤ C.size := by
    intro n d hd
    by_contra beyond
    rw [Blockchain.getBlockFromIndex_eq_none.mpr (by omega)] at hd
    contradiction
  have hi := inside hb
  have hj := inside hc
  rw [(Blockchain.upTo_succ hb).2, (Blockchain.upTo_succ hc).2] at same
  obtain ⟨chains, _⟩ := Blockchain.sneakPeekBlock_hash free.chain same
  have sizes := congrArg Blockchain.size chains
  rw [Blockchain.size_upTo hi, Blockchain.size_upTo hj] at sizes
  exact sizes

section Answers

variable (C : Blockchain (sha256FromDataAndHash sha256)) (first n i : Nat)

def held (index : Nat) : Body :=
  match C.getBlockFromIndex index with
  | some b => .block b
  | none => .noBlock

/-- An answer to one of the requests made so far. -/
def IsAnswer (m : Message) : Prop := first ≤ m.index ∧ m.index ≤ i ∧ m.body = held C m.index

/-- The locals while the block with index i is requested: all blocks counted are the one
of C, and as long as there is none less than half of the peers have been seen. -/
structure Requesting (f : BlockFrame) : Prop where
  index : f.index = i
  nPeers : f.nPeers = n
  deferred : f.readMessages = []
  missing : i < C.size → f.noBlock = 0 ∧
    (f.messages = [] ∧ (f.clientsSeen = [] ∨ f.clientsSeen.length < n / 2) ∨
      ∃ b count, C.getBlockFromIndex i = some b ∧ f.messages = [(b, count + 1)])
  complete : i = C.size → f.messages = []

end Answers

section Blocks

variable {C : Blockchain (sha256FromDataAndHash sha256)} {s : PeerState sha256} {i j : Nat}
  {b : BType}

theorem answer_held (request : Message) (pa : PeerAddress) :
    answer C request pa = ⟨pa, request.index, held C request.index⟩ := by
  have same : (PeerState.ready pa [] C []).bc.getBlockFromIndex request.index =
      C.getBlockFromIndex request.index := rfl
  simp only [answer, sendBlockchain, same, held]
  cases C.getBlockFromIndex request.index <;> rfl

theorem held_cases (C : Blockchain (sha256FromDataAndHash sha256)) (index : Nat) :
    held C index = .noBlock ∨ ∃ b, held C index = .block b := by
  unfold held
  cases C.getBlockFromIndex index with
  | none => exact Or.inl rfl
  | some b => exact Or.inr ⟨b, rfl⟩

/-- A block of C does not extend a longer prefix of C. -/
theorem late_block (distinct : DistinctHashes C) (chain : s.bc = C.upTo i) (late : j < i)
    (known : i ≤ C.size) (started : 0 < j) (hb : C.getBlockFromIndex j = some b) :
    ¬ b.prevHash = s.bc.getTopHash := by
  obtain ⟨j, rfl⟩ := Nat.exists_eq_succ_of_ne_zero (Nat.ne_of_gt started)
  obtain ⟨i, rfl⟩ := Nat.exists_eq_succ_of_ne_zero (Nat.ne_of_gt (Nat.lt_trans started late))
  have inside : j < C.blocks.length := by
    have := known
    unfold Blockchain.size at this
    omega
  have inside' : i < C.blocks.length := known
  obtain ⟨_, block⟩ := Blockchain.upTo_succ hb
  have before : C.getBlockFromIndex j = some C.blocks[j] := List.getElem?_eq_getElem inside
  have top : C.getBlockFromIndex i = some C.blocks[i] := List.getElem?_eq_getElem inside'
  intro same
  have prev : b.prevHash = (C.upTo (j + 1)).getTopHash := by rw [block]; rfl
  rw [prev, chain, Blockchain.getTopHash_upTo_succ before,
    Blockchain.getTopHash_upTo_succ top] at same
  have := distinct j i _ _ before top same
  omega

theorem requested_block (chain : s.bc = C.upTo i) (hb : C.getBlockFromIndex i = some b) :
    sha256FromDataAndHash sha256 b.data b.prevHash = b.hash ∧ b.prevHash = s.bc.getTopHash ∧
      s.bc.addBlock b.data = C.upTo (i + 1) := by
  obtain ⟨next, block⟩ := Blockchain.upTo_succ hb
  rw [chain]
  refine ⟨?_, ?_, next.symm⟩
  · rw [block]
    rfl
  · rw [block]
    rfl

theorem checkMajority_empty (seen nPeers noBlock : Nat) :
    checkMajority seen nPeers noBlock [] = if seen ≥ nPeers / 2 then some none else none := by
  simp [checkMajority]

theorem checkMajority_one (seen nPeers count : Nat) (b : BType) :
    checkMajority seen nPeers 0 [(b, count + 1)] = some (some b) ∨
      checkMajority seen nPeers 0 [(b, count + 1)] = none := by
  unfold checkMajority
  split
  · simp only [List.cons_ne_nil, if_false, mostVotes, List.foldl_nil, Nat.add_eq_zero_iff,
      Nat.one_ne_zero, and_false, gt_iff_lt, Nat.zero_lt_succ, if_true]
    split
    · exact Or.inl rfl
    · exact Or.inr rfl
  · exact Or.inr rfl

end Blocks

section Requester

variable {C : Blockchain (sha256FromDataAndHash sha256)} {s : PeerState sha256} {first n i : Nat}
  {f : BlockFrame} {msg : Message}

/-- An answer leaves the frame as it should be, unless it is a wasted one. -/
theorem readBlockMessage_requesting (distinct : DistinctHashes C) (started : 0 < first)
    (known : i ≤ C.size) (chain : s.bc = C.upTo i) (frame : Requesting C n i f)
    (reply : IsAnswer C first i msg) (f' : BlockFrame) (read : f' = (readBlockMessage s f msg).1) :
    (f'.index = i ∧ f'.nPeers = n ∧ f'.readMessages = []) ∧
    (clientFound msg.peerAddress f.clientsSeen = false →
      f'.clientsSeen.length = f.clientsSeen.length + 1) ∧
    (msg.index < i → f'.messages = f.messages) ∧
    (i = C.size → f'.messages = []) ∧
    (i < C.size → f'.noBlock = 0 ∧
      (f'.messages = [] ∧ (f'.clientsSeen.length < n / 2 ∨
          msg.index < i ∧ clientFound msg.peerAddress f.clientsSeen = false) ∨
        ∃ b count, C.getBlockFromIndex i = some b ∧ f'.messages = [(b, count + 1)])) := by
  obtain ⟨hindex, hpeers, hdeferred, hmissing, hcomplete⟩ := frame
  obtain ⟨from_, upTo, body⟩ := reply
  cases found : clientFound msg.peerAddress f.clientsSeen with
  | true =>
    -- whatever it is, the answer changes nothing
    have same : f' = f := by
      rw [read]
      apply answer_again _ found
      rw [body]
      exact held_cases C msg.index
    subst same
    refine ⟨⟨hindex, hpeers, hdeferred⟩, by simp, fun _ => rfl, hcomplete, fun below => ?_⟩
    obtain ⟨none, blocks⟩ := hmissing below
    refine ⟨none, ?_⟩
    rcases blocks with ⟨empty, unseen | few⟩ | counted
    · simp [clientFound, unseen] at found
    · exact Or.inl ⟨empty, Or.inl few⟩
    · exact Or.inr counted
  | false =>
    cases block : C.getBlockFromIndex msg.index with
    | none =>
      have last : i = C.size := by
        have := Blockchain.getBlockFromIndex_eq_none.mp block
        omega
      simp only [held, block] at body
      simp only [readBlockMessage, body, found, Bool.false_eq_true, if_false] at read
      subst read
      exact ⟨⟨hindex, hpeers, hdeferred⟩, by simp, fun _ => rfl, hcomplete, fun below => by omega⟩
    | some b =>
      simp only [held, block] at body
      rcases Nat.lt_or_ge msg.index i with late | current
      · have old := late_block distinct chain late known (Nat.lt_of_lt_of_le started from_) block
        have invalid : ¬ (sha256FromDataAndHash sha256 b.data b.prevHash = b.hash ∧
            b.prevHash = s.bc.getTopHash) := fun h => old h.2
        simp only [readBlockMessage, body, found, Bool.false_eq_true, if_false, invalid] at read
        subst read
        refine ⟨⟨hindex, hpeers, hdeferred⟩, by simp, fun _ => rfl, hcomplete, fun below => ?_⟩
        obtain ⟨none, blocks⟩ := hmissing below
        refine ⟨none, ?_⟩
        rcases blocks with ⟨empty, _⟩ | counted
        · exact Or.inl ⟨empty, Or.inr ⟨late, rfl⟩⟩
        · exact Or.inr counted
      · have same : msg.index = i := Nat.le_antisymm upTo current
        rw [same] at block
        obtain ⟨right, prev, _⟩ := requested_block chain block
        have below : i < C.size := by
          by_contra beyond
          rw [Blockchain.getBlockFromIndex_eq_none.mpr (by omega)] at block
          contradiction
        simp only [readBlockMessage, body, found, Bool.false_eq_true, if_false] at read
        rw [if_pos ⟨right, prev⟩] at read
        subst read
        refine ⟨⟨hindex, hpeers, hdeferred⟩, by simp, fun late => by omega, fun last => by omega,
          fun _ => ?_⟩
        obtain ⟨none, blocks⟩ := hmissing below
        refine ⟨none, Or.inr ?_⟩
        rcases blocks with ⟨empty, _⟩ | ⟨b', count, block', counted⟩
        · exact ⟨b, 0, block, by simp [empty, countBlock]⟩
        · cases Option.some.inj (block.symm.trans block')
          exact ⟨b, count + 1, block, by simp [counted, countBlock, compareStrings_self]⟩

end Requester

/-- The state during the call, at a requester whose chain is a prefix of C. -/
structure Synchronising (C : Blockchain (sha256FromDataAndHash sha256))
    (others : List PeerAddress) (first : Nat) (s : SyncState sha256) : Prop where
  syncing : s.peer.control.syncing = true
  addressees : s.peer.addressees = others
  started : first ≤ s.peer.bc.size
  known : s.peer.bc.size ≤ C.size
  chain : s.peer.bc = C.upTo s.peer.bc.size
  replies : ∀ m ∈ s.flight ++ s.peer.inbox, IsAnswer C first s.peer.bc.size m
  frame : ∀ f caller, s.peer.control = .awaitBlock f caller →
    Requesting C others.length s.peer.bc.size f

def Complete (C : Blockchain (sha256FromDataAndHash sha256)) (s : SyncState sha256) : Prop :=
  s.peer.control.syncing = false ∧ s.peer.bc = C

theorem resume_returned (caller : Caller) : caller.resume.syncing = false := by
  cases caller <;> rfl

section Step

variable {powGroup : IProofOfWork Bytes Bytes} {C : Blockchain (sha256FromDataAndHash sha256)}
  {others : List PeerAddress} {first : Nat} {s : SyncState sha256}

/-- A state with the same chain, whose answers were there before. -/
theorem Synchronising.next (h : Synchronising C others first s) (peer : PeerState sha256)
    (flight : List Message) (bc : peer.bc = s.peer.bc) (identity : peer.identity = s.peer.identity)
    (replies : ∀ m ∈ flight ++ peer.inbox, IsAnswer C first s.peer.bc.size m)
    (syncing : peer.control.syncing = true)
    (frame : ∀ f caller, peer.control = .awaitBlock f caller →
      Requesting C others.length s.peer.bc.size f) :
    Synchronising C others first ⟨peer, flight⟩ := by
  have addressees : peer.addressees = s.peer.addressees := by
    simp only [PeerState.identity, Prod.mk.injEq] at identity
    simp only [PeerState.addressees, identity]
  refine ⟨syncing, addressees.trans h.addressees, ?_, ?_, ?_, ?_, ?_⟩ <;> simp only [bc]
  · exact h.started
  · exact h.known
  · exact h.chain
  · exact replies
  · exact frame

theorem readBlockMessage_silent (peer : PeerState sha256) (f : BlockFrame) (msg : Message) :
    (readBlockMessage peer f msg).2.flatMap (answers C others) = [] := by
  have responds : answers C others (sendBlockchain peer msg) = [] := by
    unfold sendBlockchain
    split <;> rfl
  unfold readBlockMessage
  simp only
  split
  · split <;> rfl
  · split
    · rfl
    · split <;> rfl
  · split
    · split <;> rfl
    · split
      · simp [responds]
      · rfl
  · rfl

theorem awaitBlock_silent (f : BlockFrame) (caller : Caller) :
    (awaitBlock s.peer f caller).2.flatMap (answers C others) = [] := by
  unfold awaitBlock
  split
  · split
    · rename_i msg inbox _
      have silent : (readBlockMessage s.peer f msg).2.flatMap (answers C others) = [] :=
        readBlockMessage_silent s.peer f msg
      simp only
      split
      · exact silent
      · split <;> exact silent
    · simp only
      split <;> rfl
  · rfl

theorem requestBlock_synchronising (h : Synchronising C others first s) (some : others ≠ [])
    {caller : Caller} (hc : s.peer.control = .requestBlockchain caller) :
    Synchronising C others first (syncStep powGroup C s .turn) := by
  have count : s.peer.addressees.length ≠ 0 := by
    rw [h.addressees]
    simpa using some
  have sent : turn powGroup s.peer = (s.peer.goto (.awaitBlock
      ⟨s.peer.bc.size, s.peer.addressees.length, [], [], 0, 0, []⟩ caller),
        [.broadcast ⟨s.peer.ownPa, s.peer.bc.size, .requestBlock⟩]) := by
    simp only [turn, hc, requestBlockchainBlock, count, if_false]
  simp only [syncStep, sent]
  refine h.next _ _ ?_ ?_ ?_ ?_ ?_
  · rfl
  · rfl
  · intro m member
    simp only [List.mem_append, List.flatMap_cons, List.flatMap_nil, List.append_nil, answers,
      if_true, List.mem_map] at member
    rcases member with (old | ⟨pa, _, rfl⟩) | waiting
    · exact h.replies m (by simp [old])
    · rw [answer_held]
      exact ⟨h.started, Nat.le_refl _, rfl⟩
    · exact h.replies m (List.mem_append_right _ waiting)
  · rfl
  · intro f caller' hf
    cases hf
    rw [h.addressees]
    exact ⟨rfl, rfl, rfl, fun _ => ⟨rfl, Or.inl ⟨rfl, Or.inl rfl⟩⟩, fun _ => rfl⟩

section Message

variable {f : BlockFrame} {caller : Caller} {msg : Message} {inbox : List Message}

/-- The block is requested again. -/
theorem again_synchronising (h : Synchronising C others first s) (deferred : f.readMessages = [])
    (rest : ∀ m ∈ s.flight ++ inbox, IsAnswer C first s.peer.bc.size m) :
    Synchronising C others first
      ⟨({ s.peer with inbox }.placeBack f.readMessages).goto (.requestBlockchain caller),
        s.flight⟩ := by
  refine h.next _ _ ?_ ?_ ?_ ?_ ?_
  · rfl
  · rfl
  · simpa [PeerState.goto, PeerState.placeBack, deferred] using rest
  · rfl
  · intro g c hg
    cases hg

theorem wasted_iff (hc : s.peer.control = .awaitBlock f caller)
    (waiting : s.peer.inbox = msg :: inbox)
    (frame : Requesting C others.length s.peer.bc.size f) :
    Wasted C s .turn ↔ msg.index < s.peer.bc.size ∧ s.peer.bc.size < C.size ∧ f.messages = [] ∧
      clientFound msg.peerAddress f.clientsSeen = false ∧
        others.length / 2 ≤ f.clientsSeen.length + 1 := by
  rw [← frame.index, ← frame.nPeers]
  constructor
  · rintro ⟨_, g, c, m, later, hg, hm, wasted⟩
    cases hc.symm.trans hg
    cases waiting.symm.trans hm
    exact wasted
  · intro wasted
    exact ⟨rfl, f, caller, msg, inbox, hc, waiting, wasted⟩

/-- Without a majority the thread stays in the loop, or requests the block again. -/
theorem undecided_synchronising (h : Synchronising C others first s)
    (rest : ∀ m ∈ s.flight ++ inbox, IsAnswer C first s.peer.bc.size m)
    (requesting : Requesting C others.length s.peer.bc.size f) (out : List Output) :
    Synchronising C others first
      ⟨(if f.tries ≥ nTries then
        (({ s.peer with inbox }.placeBack f.readMessages).goto (.requestBlockchain caller), out)
        else ({ s.peer with inbox }.goto (.awaitBlock f caller), out)).1, s.flight⟩ := by
  split
  · exact again_synchronising h requesting.deferred rest
  · refine h.next _ _ ?_ ?_ rest ?_ ?_
    · rfl
    · rfl
    · rfl
    · intro g c hg
      cases hg
      exact requesting

/-- The block of C is added. -/
theorem requestedBlock_synchronising (h : Synchronising C others first s)
    (rest : ∀ m ∈ s.flight ++ inbox, IsAnswer C first s.peer.bc.size m)
    (below : s.peer.bc.size < C.size) {b : BType}
    (block : C.getBlockFromIndex s.peer.bc.size = some b) :
    Synchronising C others first
      ⟨requestedBlock ({ s.peer with inbox }.placeBack []) caller (some b), s.flight⟩ := by
  obtain ⟨_, _, next⟩ := requested_block h.chain block
  have size : (s.peer.bc.addBlock b.data).size = s.peer.bc.size + 1 :=
    Blockchain.size_addBlock _ _
  refine ⟨rfl, h.addressees, ?_, ?_, ?_, ?_, ?_⟩ <;>
    simp only [requestedBlock, PeerState.placeBack, size]
  · exact Nat.le_succ_of_le h.started
  · exact below
  · exact next
  · intro m member
    rw [List.append_nil] at member
    obtain ⟨from_, upTo, body⟩ := rest m member
    exact ⟨from_, Nat.le_succ_of_le upTo, body⟩
  · intro g c hg
    cases hg

/-- One message during the call. Only a wasted answer makes the call return too early. -/
theorem message_synchronising (distinct : DistinctHashes C) (started : 0 < first)
    (h : Synchronising C others first s) (hc : s.peer.control = .awaitBlock f caller)
    (waiting : s.peer.inbox = msg :: inbox) (more : f.clientsSeen.length < f.nPeers) :
    (¬ Wasted C s .turn → Synchronising C others first (syncStep powGroup C s .turn) ∨
      Complete C (syncStep powGroup C s .turn)) ∧
    (Wasted C s .turn → (syncStep powGroup C s .turn).peer.control.syncing = false ∧
      (syncStep powGroup C s .turn).peer.bc.size < C.size) := by
  have frame := h.frame f caller hc
  have reply : IsAnswer C first s.peer.bc.size msg := h.replies msg (by simp [waiting])
  obtain ⟨⟨index, nPeers, deferred⟩, grown, kept, complete, missing⟩ :=
    readBlockMessage_requesting distinct started h.known h.chain frame reply _ rfl
  have rest : ∀ m ∈ s.flight ++ inbox, IsAnswer C first s.peer.bc.size m := fun m member =>
    h.replies m (by
      rw [waiting]
      rcases List.mem_append.mp member with old | old
      · exact List.mem_append_left _ old
      · exact List.mem_append_right _ (List.mem_cons_of_mem _ old))
  have wasted := wasted_iff hc waiting frame
  have step : syncStep powGroup C s .turn = ⟨(awaitBlock s.peer f caller).1, s.flight⟩ := by
    simp only [syncStep, turn, hc, awaitBlock_silent, List.append_nil]
  rw [step]
  simp only [awaitBlock, more, if_true, waiting]
  generalize (readBlockMessage s.peer f msg).1 = f' at *
  have stays := fun requesting => @undecided_synchronising _ C others first s f' caller inbox h rest
    requesting
  rcases Nat.lt_or_ge s.peer.bc.size C.size with below | reached
  · obtain ⟨none, ⟨empty, decision⟩ | ⟨b, count, block, counted⟩⟩ := missing below
    · rcases Nat.lt_or_ge f'.clientsSeen.length (others.length / 2) with few | half
      · -- nothing received for this index, and too few seen for a decision
        have undecided : checkMajority f'.clientsSeen.length f'.nPeers f'.noBlock f'.messages =
            Option.none := by
          rw [empty, checkMajority_empty, nPeers, if_neg (by omega)]
        rw [undecided]
        constructor
        · intro _
          exact Or.inl (stays ⟨index, nPeers, deferred, fun _ => ⟨none, Or.inl ⟨empty, Or.inr few⟩⟩,
            complete⟩ _)
        · intro waste
          obtain ⟨_, _, _, unseen, half⟩ := wasted.mp waste
          have := grown unseen
          omega
      · -- the answer was wasted: the empty map is taken for the end of the chain
        obtain ⟨late, unseen⟩ : msg.index < s.peer.bc.size ∧
            clientFound msg.peerAddress f.clientsSeen = false := by
          rcases decision with few | waste
          · omega
          · exact waste
        have size := grown unseen
        have unread : f.messages = [] := (kept late).symm.trans empty
        have waste := wasted.mpr ⟨late, below, unread, unseen, by omega⟩
        have ended : checkMajority f'.clientsSeen.length f'.nPeers f'.noBlock f'.messages =
            some Option.none := by
          rw [empty, checkMajority_empty, nPeers, if_pos half]
        rw [ended]
        exact ⟨fun unwasted => absurd waste unwasted, fun _ => ⟨resume_returned caller, below⟩⟩
    · have unwasted : ¬ Wasted C s .turn := by
        intro waste
        obtain ⟨late, _, unread, _⟩ := wasted.mp waste
        rw [kept late, unread] at counted
        contradiction
      refine ⟨fun _ => Or.inl ?_, fun waste => absurd waste unwasted⟩
      rcases checkMajority_one f'.clientsSeen.length f'.nPeers count b with decided | undecided
      · rw [none, counted, decided, deferred]
        exact requestedBlock_synchronising h rest below block
      · rw [none, counted, undecided]
        exact stays ⟨index, nPeers, deferred, fun _ => ⟨none, Or.inr ⟨b, count, block, counted⟩⟩,
          complete⟩ _
  · -- the chain is complete: no answer carries a further block
    have last : s.peer.bc.size = C.size := Nat.le_antisymm h.known reached
    have unwasted : ¬ Wasted C s .turn := by
      intro waste
      have := (wasted.mp waste).2.1
      omega
    refine ⟨fun _ => ?_, fun waste => absurd waste unwasted⟩
    rw [complete last, checkMajority_empty]
    split
    · rename_i largestBlock decided
      right
      split at decided
      · cases Option.some.inj decided
        refine ⟨resume_returned caller, ?_⟩
        have whole := h.chain
        rw [last, Blockchain.upTo_size] at whole
        exact whole
      · contradiction
    · left
      exact stays ⟨index, nPeers, deferred, fun below => by omega, complete⟩ _

end Message

theorem turn_synchronising (distinct : DistinctHashes C) (started : 0 < first)
    (some : others ≠ []) (h : Synchronising C others first s) :
    (¬ Wasted C s .turn → Synchronising C others first (syncStep powGroup C s .turn) ∨
      Complete C (syncStep powGroup C s .turn)) ∧
    (Wasted C s .turn → (syncStep powGroup C s .turn).peer.control.syncing = false ∧
      (syncStep powGroup C s .turn).peer.bc.size < C.size) := by
  have syncing := h.syncing
  cases hc : s.peer.control with
  | requestBlockchain caller =>
    have unwasted : ¬ Wasted C s .turn := by
      rintro ⟨_, f, c, m, inbox, hf, _⟩
      cases hc.symm.trans hf
    exact ⟨fun _ => Or.inl (requestBlock_synchronising h some hc),
      fun waste => absurd waste unwasted⟩
  | awaitBlock f caller =>
    have frame := h.frame f caller hc
    have step : syncStep powGroup C s .turn = ⟨(awaitBlock s.peer f caller).1, s.flight⟩ := by
      simp only [syncStep, turn, hc, awaitBlock_silent, List.append_nil]
    have again : Synchronising C others first
        ⟨(s.peer.placeBack f.readMessages).goto (.requestBlockchain caller), s.flight⟩ :=
      again_synchronising h frame.deferred h.replies
    rcases Nat.lt_or_ge f.clientsSeen.length f.nPeers with more | all
    · cases waiting : s.peer.inbox with
      | cons msg inbox => exact message_synchronising distinct started h hc waiting more
      | nil =>
        have unwasted : ¬ Wasted C s .turn := by
          rintro ⟨_, g, c, m, inbox, _, hm, _⟩
          rw [waiting] at hm
          contradiction
        refine ⟨fun _ => Or.inl ?_, fun waste => absurd waste unwasted⟩
        rw [step]
        simp only [awaitBlock, more, if_true, waiting]
        split
        · exact again
        · refine h.next _ _ ?_ ?_ h.replies ?_ ?_
          · rfl
          · rfl
          · rfl
          · intro g c hg
            cases hg
            exact ⟨frame.index, frame.nPeers, frame.deferred, frame.missing, frame.complete⟩
    · have unwasted : ¬ Wasted C s .turn := by
        rintro ⟨_, g, c, m, inbox, hg, hm, late, known, unread, unseen, half⟩
        cases hc.symm.trans hg
        rw [frame.index] at late known
        obtain ⟨_, ⟨_, none | few⟩ | ⟨b, count, _, counted⟩⟩ := frame.missing known
        · rw [none, frame.nPeers] at all
          exact some (List.length_eq_zero_iff.mp (Nat.le_zero.mp all))
        · rw [frame.nPeers] at all
          omega
        · rw [unread] at counted
          contradiction
      refine ⟨fun _ => Or.inl ?_, fun waste => absurd waste unwasted⟩
      rw [step]
      simp only [awaitBlock, Nat.not_lt.mpr all, if_false]
      exact again
  | run | handleRequest | addBlock | awaitVotes | majority | checked | handled | handleAll =>
    simp [hc, Control.syncing] at syncing

theorem deliver_synchronising (h : Synchronising C others first s) (k : Nat) :
    Synchronising C others first (syncStep powGroup C s (.deliver k)) := by
  unfold syncStep
  simp only
  split
  · rename_i msg found
    refine h.next _ _ ?_ ?_ ?_ h.syncing h.frame
    · rfl
    · rfl
    · intro m member
      simp only [deliver, PeerState.placeBack, List.mem_append, List.mem_singleton] at member
      rcases member with old | old | rfl
      · exact h.replies m (List.mem_append_left _ (List.mem_of_mem_eraseIdx old))
      · exact h.replies m (List.mem_append_right _ old)
      · exact h.replies m (List.mem_append_left _ (List.mem_of_getElem? found))
  · exact h

/-- The first state after the call, if the run ends there. -/
theorem run_synchronising (distinct : DistinctHashes C) (started : 0 < first)
    (some : others ≠ []) (es : List SyncEvent) (h : Synchronising C others first s)
    (calling : Lts.Throughout (syncStep powGroup C) InCall s es)
    (returned : (Lts.run (syncStep powGroup C) s es).peer.control.syncing = false) :
    (Lts.run (syncStep powGroup C) s es).peer.bc = C ↔
      Lts.Throughout (syncStep powGroup C) (fun s e => ¬ Wasted C s e) s es := by
  induction es generalizing s with
  | nil =>
    have syncing := h.syncing
    rw [Lts.run] at returned
    rw [returned] at syncing
    contradiction
  | cons e es ih =>
    obtain ⟨_, later⟩ := calling
    -- once the call has returned the run is over
    have finished : ∀ s', s' = syncStep powGroup C s e → s'.peer.control.syncing = false →
        es = [] := by
      rintro _ rfl ended
      cases es with
      | nil => rfl
      | cons e' es =>
        have going := later.1
        rw [InCall, ended] at going
        contradiction
    cases e with
    | deliver k =>
      have unwasted : ¬ Wasted C s (.deliver k) := by
        rintro ⟨same, _⟩
        contradiction
      rw [Lts.run, Lts.Throughout, ih (deliver_synchronising h k) later returned]
      exact ⟨fun tail => ⟨unwasted, tail⟩, fun both => both.2⟩
    | turn =>
      obtain ⟨fine, early⟩ : (¬ Wasted C s .turn →
          Synchronising C others first (syncStep powGroup C s .turn) ∨ _) ∧ _ :=
        turn_synchronising distinct started some h
      by_cases waste : Wasted C s .turn
      · obtain ⟨ended, small⟩ := early waste
        cases finished _ rfl ended
        constructor
        · intro whole
          rw [Lts.run, Lts.run] at whole
          rw [whole] at small
          omega
        · exact fun both => absurd waste both.1
      · rcases fine waste with going | ⟨ended, whole⟩
        · rw [Lts.run, Lts.Throughout, ih going later returned]
          exact ⟨fun tail => ⟨waste, tail⟩, fun both => both.2⟩
        · cases finished _ rfl ended
          exact ⟨fun _ => ⟨waste, trivial⟩, fun _ => whole⟩

end Step

/-- RequestBlockchain, called with a prefix of the chain C that all other peers hold and
run up to its return, returns with C exactly if no answer is wasted. It may run out of
tries in between and request a block again. -/
theorem synchronisation_complete_iff (powGroup : IProofOfWork Bytes Bytes)
    (C : Blockchain (sha256FromDataAndHash sha256)) (distinct : DistinctHashes C)
    (peer : PeerState sha256) (caller : Caller) (calling : peer.control = .requestBlockchain caller)
    (others : peer.addressees ≠ []) (started : 0 < peer.bc.size) (known : peer.bc.size ≤ C.size)
    (chain : peer.bc = C.upTo peer.bc.size) (empty : peer.inbox = []) (es : List SyncEvent)
    (inCall : Lts.Throughout (syncStep powGroup C) InCall ⟨peer, []⟩ es)
    (returned : (Lts.run (syncStep powGroup C) ⟨peer, []⟩ es).peer.control.syncing = false) :
    (Lts.run (syncStep powGroup C) ⟨peer, []⟩ es).peer.bc = C ↔
      Lts.Throughout (syncStep powGroup C) (fun s e => ¬ Wasted C s e) ⟨peer, []⟩ es := by
  have h : Synchronising C peer.addressees peer.bc.size ⟨peer, []⟩ := by
    refine ⟨by rw [calling]; rfl, rfl, Nat.le_refl _, known, chain, by simp [empty], ?_⟩
    intro f c hf
    cases calling.symm.trans hf
  exact run_synchronising distinct started others es h inCall returned

def echoChain : Nat → Blockchain (sha256FromDataAndHash HashCash.echo)
  | 0 => Blockchain.new
  | n + 1 => (echoChain n).addBlock default

theorem echoChain_size (n : Nat) : (echoChain n).size = n + 1 := by
  induction n with
  | zero => rfl
  | succ n ih => rw [echoChain, Blockchain.size_addBlock, ih]

def echoRequester (others : List PeerAddress) : PeerState HashCash.echo :=
  (PeerState.ready ⟨2, 80, 0⟩ others Blockchain.new []).goto (.requestBlockchain .refresh)

def squeezeChain : Blockchain (sha256FromDataAndHash HashCash.squeeze) :=
  (Blockchain.new.addBlock default).addBlock default

def squeezeRequester : PeerState HashCash.squeeze :=
  (PeerState.ready ⟨2, 80, 0⟩ [⟨2, 80, 1⟩, ⟨2, 80, 2⟩, ⟨2, 80, 3⟩] Blockchain.new []).goto
    (.requestBlockchain .refresh)

/-- Three other peers have two blocks more. The late third answer for block 1 is read after an
answer for block 2, and wastes nothing. -/
theorem late_answer_harmless :
    (Lts.run (syncStep (hashCash HashCash.squeeze 24) squeezeChain) ⟨squeezeRequester, []⟩
      [.turn, .deliver 0, .deliver 0, .turn, .turn, .turn, .deliver 1, .turn, .deliver 0, .turn,
        .deliver 0, .turn, .turn, .deliver 1, .turn]).peer.bc = squeezeChain := by
  have first : Blockchain.new = squeezeChain.upTo 1 := by
    rw [squeezeChain, Blockchain.upTo_addBlock _ (by decide),
      Blockchain.upTo_addBlock _ (by decide)]
    exact (Blockchain.upTo_size _).symm
  exact (synchronisation_complete_iff _ squeezeChain (distinctHashes squeeze_collisionFree _)
    squeezeRequester .refresh rfl (by decide) (by decide) (by decide) first rfl _
    (by decide +kernel) (by decide +kernel)).mpr (by decide +kernel)

/-- With three other peers the late third answer for block 1, read first while block 2 is
requested, ends the call: the requester misses block 2. -/
theorem late_answer_ends_call :
    let others : List PeerAddress := [⟨2, 80, 1⟩, ⟨2, 80, 2⟩, ⟨2, 80, 3⟩]
    let step := syncStep (hashCash HashCash.echo 24) (echoChain 2)
    let s : SyncState HashCash.echo := ⟨echoRequester others, []⟩
    let es := [.turn, .deliver 0, .deliver 0, .turn, .turn, .turn, .deliver 0, .turn]
    Lts.Throughout step Patient s es ∧ (Lts.run step s es).peer.control.syncing = false ∧
      (Lts.run step s es).peer.bc.size = 2 ∧ (Lts.run step s es).peer.bc ≠ echoChain 2 := by
  intro others step s es
  have ended : Lts.Throughout step Patient s es ∧
      (Lts.run step s es).peer.control.syncing = false ∧
      (Lts.run step s es).peer.bc.size = 2 := by
    decide +kernel
  refine ⟨ended.1, ended.2.1, ended.2.2, fun whole => ?_⟩
  have size := congrArg Blockchain.size whole
  rw [ended.2.2, echoChain_size] at size
  omega

end DPS2.Application
