import DPS2.Application.Turns

/-! What a turn shows to the outside: the messages it sends and the block it adds. -/
namespace DPS2.Application

open P2P ProofOfWork

variable {sha256 : Bytes → Bytes}

inductive Emits (powGroup : IProofOfWork Bytes Bytes) (s : PeerState sha256) : Output → Prop where
  | request : Emits powGroup s (.broadcast ⟨s.ownPa, s.bc.size, .requestBlock⟩)
  | answer (msg : Message) : Emits powGroup s (sendBlockchain s msg)
  | proposal (ts : Transactions) (hc : s.control = .addBlock ts) :
      Emits powGroup s (.broadcast (AdditionRequest.mk s.ownPa s.bc.size
        (powGroup.solveProblem (sha256FromBlock sha256 (s.bc.sneakPeekBlock ts)))
        (s.bc.sneakPeekBlock ts)).toMessage)
  | vote (r : AdditionRequest) (allowAgree : Bool) (inTime : r.index ≤ s.bc.size)
      (taken : r.toMessage ∈ s.inbox ∨ s.control = .handleRequest r) :
      Emits powGroup s (.broadcast
        ⟨s.ownPa, r.index, .vote (voteOn powGroup s.bc r allowAgree) r.block.hash⟩)
  | closing (result : Bool) (f : VoteFrame) (below : List VoteFrame) (read : List Message)
      (index : Nat) (pow : Bytes) (hc : s.control = .checked result f below read)
      (origin : f.origin = .addBlockToBlockchain index pow) :
      Emits powGroup s (.broadcast ⟨s.ownPa, index, .vote result f.reqBlock.hash⟩)

/-- At most one message is sent. -/
def Sends (powGroup : IProofOfWork Bytes Bytes) (s : PeerState sha256) (sent : List Output) :
    Prop := sent.length ≤ 1 ∧ ∀ o ∈ sent, Emits powGroup s o

section Turn

variable {powGroup : IProofOfWork Bytes Bytes} {s : PeerState sha256}

theorem sends_nothing : Sends powGroup s [] := ⟨Nat.zero_le 1, List.forall_mem_nil _⟩

theorem sends_one {o : Output} (emitted : Emits powGroup s o) : Sends powGroup s [o] :=
  ⟨Nat.le_refl 1, List.forall_mem_singleton.mpr emitted⟩

theorem readBlockMessage_sends (f : BlockFrame) (msg : Message) :
    Sends powGroup s (readBlockMessage s f msg).2 := by
  unfold readBlockMessage
  dsimp only
  split
  · split <;> exact sends_nothing
  · split
    · exact sends_nothing
    · split <;> exact sends_nothing
  · split
    · split <;> exact sends_nothing
    · split
      · exact sends_one (.answer msg)
      · exact sends_nothing
  · exact sends_nothing

theorem awaitBlock_sends (f : BlockFrame) (caller : Caller) :
    Sends powGroup s (awaitBlock s f caller).2 := by
  unfold awaitBlock
  split
  · split
    · rename_i msg inbox _
      have read : Sends powGroup s (readBlockMessage s f msg).2 := readBlockMessage_sends f msg
      dsimp only
      split
      · exact read
      · split <;> exact read
    · dsimp only
      split <;> exact sends_nothing
  · exact sends_nothing

theorem handleRequest_sends (inbox : List Message) {r : AdditionRequest}
    (taken : r.toMessage ∈ s.inbox ∨ s.control = .handleRequest r) (allowAgree : Bool)
    (below : List VoteFrame) (read : List Message) :
    Sends powGroup s
      (handleBlockAdditionRequest powGroup { s with inbox } r allowAgree below read).2 := by
  unfold handleBlockAdditionRequest
  split
  · exact sends_nothing
  · rename_i inTime
    have voted := @Emits.vote _ powGroup s r allowAgree (Nat.le_of_not_lt inTime) taken
    cases allowAgree <;> exact sends_one voted

theorem awaitVotes_sends (f : VoteFrame) (below : List VoteFrame) (read : List Message) :
    Sends powGroup s (awaitVotes powGroup s f below read).2 := by
  unfold awaitVotes
  split
  · split
    · rename_i msg inbox waiting
      unfold readVoteMessage
      split
      · split
        · split <;> exact sends_nothing
        · exact sends_nothing
      · split
        · exact sends_one (.answer msg)
        · exact sends_nothing
      · rename_i pow b body
        have taken : (AdditionRequest.mk msg.peerAddress msg.index pow b).toMessage ∈ s.inbox := by
          simp only [AdditionRequest.toMessage, ← body, waiting]
          exact List.mem_cons_self
        split
        · dsimp only
          split <;> exact handleRequest_sends inbox (Or.inl taken) _ _ _
        · exact sends_nothing
      · exact sends_nothing
    · dsimp only
      split <;> exact sends_nothing
  · exact sends_nothing

theorem handleAll_sends (read : List Message) :
    Sends powGroup s (handleAllBlockAdditionRequests powGroup s read).2 := by
  unfold handleAllBlockAdditionRequests
  split
  · exact sends_nothing
  · rename_i msg inbox waiting
    dsimp only
    split
    · rename_i pow b body
      have taken : (AdditionRequest.mk msg.peerAddress msg.index pow b).toMessage ∈ s.inbox := by
        simp only [AdditionRequest.toMessage, ← body, waiting]
        exact List.mem_cons_self
      split
      · exact handleRequest_sends inbox (Or.inl taken) _ _ _
      · exact sends_nothing
    · exact sends_nothing

theorem runLoop_sends : Sends powGroup s (runLoop s).2 := by
  unfold runLoop
  split
  · split
    · exact sends_nothing
    · split
      · rename_i msg inbox _
        dsimp only
        split
        · exact sends_one (.answer msg)
        · exact sends_nothing
        · exact sends_nothing
      · split <;> exact sends_nothing
  · exact sends_nothing

theorem turn_sends : Sends powGroup s (turn powGroup s).2 := by
  unfold turn
  split
  · exact runLoop_sends
  · unfold requestBlockchainBlock
    dsimp only
    split <;> exact sends_one .request
  · exact awaitBlock_sends _ _
  · rename_i r hc
    exact handleRequest_sends s.inbox (Or.inr hc) _ _ _
  · rename_i ts hc
    exact sends_one (.proposal ts hc)
  · exact awaitVotes_sends _ _ _
  · unfold majority
    split
    · exact sends_nothing
    · split
      · exact sends_nothing
      · split <;> exact sends_nothing
  · rename_i result f below read hc
    unfold checked
    split
    · rename_i index pow origin
      exact sends_one (.closing result f below read index pow hc origin)
    · exact sends_nothing
  · exact sends_nothing
  · exact handleAll_sends _

theorem turn_emits : ∀ o ∈ (turn powGroup s).2, Emits powGroup s o := turn_sends.2

/-- What no turn changes. -/
def PeerState.identity (s : PeerState sha256) : PeerAddress × List PeerAddress × Bool :=
  (s.ownPa, s.networkInfo, s.isOnline)

theorem requestedBlock_identity (caller : Caller) (largestBlock : Option BType) :
    (requestedBlock s caller largestBlock).identity = s.identity := by
  cases largestBlock <;> rfl

theorem awaitBlock_identity (f : BlockFrame) (caller : Caller) :
    (awaitBlock s f caller).1.identity = s.identity := by
  unfold awaitBlock
  split
  · split
    · simp only
      split
      · exact requestedBlock_identity _ _
      · split <;> rfl
    · simp only
      split <;> rfl
  · rfl

theorem handleRequest_static (inbox : List Message) (r : AdditionRequest) (allowAgree : Bool)
    (below : List VoteFrame) (read : List Message) :
    (handleBlockAdditionRequest powGroup { s with inbox } r allowAgree below read).1.identity =
        s.identity ∧
      (handleBlockAdditionRequest powGroup { s with inbox } r allowAgree below read).1.books =
        s.books := by
  unfold handleBlockAdditionRequest
  split
  · exact ⟨rfl, rfl⟩
  · cases allowAgree <;> exact ⟨rfl, rfl⟩

theorem awaitVotes_static (f : VoteFrame) (below : List VoteFrame) (read : List Message) :
    (awaitVotes powGroup s f below read).1.identity = s.identity ∧
      (awaitVotes powGroup s f below read).1.books = s.books := by
  unfold awaitVotes
  split
  · split
    · unfold readVoteMessage
      split
      · split
        · split <;> exact ⟨rfl, rfl⟩
        · exact ⟨rfl, rfl⟩
      · split <;> exact ⟨rfl, rfl⟩
      · split
        · simp only
          split <;> exact handleRequest_static _ _ _ _ _
        · exact ⟨rfl, rfl⟩
      · exact ⟨rfl, rfl⟩
    · simp only
      split <;> exact ⟨rfl, rfl⟩
  · exact ⟨rfl, rfl⟩

theorem majority_static (f : VoteFrame) (below : List VoteFrame) (read : List Message) :
    (majority s f below read).1.identity = s.identity ∧
      (majority s f below read).1.books = s.books := by
  unfold majority
  split
  · exact ⟨rfl, rfl⟩
  · split
    · exact ⟨rfl, rfl⟩
    · split <;> exact ⟨rfl, rfl⟩

theorem checked_static (result : Bool) (f : VoteFrame) (below : List VoteFrame)
    (read : List Message) : (checked s result f below read).1.identity = s.identity ∧
      (checked s result f below read).1.books = s.books := by
  unfold checked
  split <;> exact ⟨rfl, rfl⟩

theorem handled_static (agree : Bool) (below : List VoteFrame) (read : List Message) :
    (handled s agree below read).identity = s.identity ∧
      (handled s agree below read).books = s.books := by
  unfold handled
  split
  · exact ⟨rfl, rfl⟩
  · split <;> exact ⟨rfl, rfl⟩

theorem runLoop_static : (runLoop s).1.identity = s.identity ∧ (runLoop s).1.books = s.books := by
  unfold runLoop
  split
  · split
    · exact ⟨rfl, rfl⟩
    · split
      · simp only
        split <;> exact ⟨rfl, rfl⟩
      · split <;> exact ⟨rfl, rfl⟩
  · exact ⟨rfl, rfl⟩

theorem commit_identity (read : List Message) : (commit s read).identity = s.identity := by
  unfold commit
  simp only
  split <;> rfl

theorem turn_identity : (turn powGroup s).1.identity = s.identity := by
  unfold turn
  split
  · exact runLoop_static.1
  · unfold requestBlockchainBlock
    simp only
    split
    · exact requestedBlock_identity _ _
    · rfl
  · exact awaitBlock_identity _ _
  · exact (handleRequest_static s.inbox _ _ _ _).1
  · rfl
  · exact (awaitVotes_static _ _ _).1
  · exact (majority_static _ _ _).1
  · exact (checked_static _ _ _ _).1
  · exact (handled_static _ _ _).1
  · unfold handleAllBlockAdditionRequests
    split
    · exact commit_identity _
    · simp only
      split
      · split
        · exact (handleRequest_static _ _ _ _ _).1
        · rfl
      · rfl

/- The block that a turn adds. -/

theorem mostVotes_mem (noBlock : Nat) (messages : BlockCounts) :
    ∀ b, (mostVotes noBlock messages).1 = some b → ∃ e ∈ messages, e.1 = b := by
  cases messages with
  | nil => simp [mostVotes]
  | cons entry rest =>
    obtain ⟨first, count⟩ := entry
    unfold mostVotes
    dsimp only
    -- the scan only ever changes to the block of an entry
    apply List.foldlRecOn (motive := fun acc : Option BType × Nat × Nat =>
      ∀ b, acc.1 = some b → ∃ e ∈ (first, count) :: rest, e.1 = b)
    · intro b
      split
      · simp
      · split
        · exact fun same => ⟨(first, count), by simp, Option.some.inj same⟩
        · simp
    · intro acc known e inside b
      split
      · exact fun same => ⟨e, by simp [inside], Option.some.inj same⟩
      · split <;> exact known b

theorem checkMajority_mem {i nPeers noBlock : Nat} {messages : BlockCounts} {b : BType}
    (h : checkMajority i nPeers noBlock messages = some (some b)) : ∃ e ∈ messages, e.1 = b := by
  unfold checkMajority at h
  split at h
  · split at h
    · simp at h
    · simp only at h
      split at h
      · exact mostVotes_mem noBlock messages b (Option.some.inj h)
      · contradiction
  · contradiction

theorem lowestHash_mem {candidates : List Candidate} {best : Candidate}
    (h : lowestHash candidates = some best) : best ∈ candidates := by
  cases candidates with
  | nil => contradiction
  | cons first rest =>
    rw [← Option.some.inj h]
    apply List.foldlRecOn (motive := fun best => best ∈ first :: rest)
    · exact List.mem_cons_self
    · intro best member it inside
      split
      · exact List.mem_cons_of_mem _ inside
      · exact member

/-- The block that RequestBlockchain has a majority for after the next message. -/
def PeerState.requested (s : PeerState sha256) : Option BType :=
  match s.control, s.inbox with
  | .awaitBlock f _, msg :: _ =>
      if f.clientsSeen.length < f.nPeers then
        let f := (readBlockMessage s f msg).1
        (checkMajority f.clientsSeen.length f.nPeers f.noBlock f.messages).join
      else none
  | _, _ => none

/-- The frame whose vote was just won. -/
def PeerState.accepted (s : PeerState sha256) : Option VoteFrame :=
  match s.control with
  | .checked true f _ _ => some f
  | _ => none

/-- How the books of a peer can change in one turn. -/
inductive Books.Turned (F : Facts sha256) (s : PeerState sha256) : Books sha256 → Prop where
  | same : Turned F s s.books
  | synchronised (b : BType) (requested : s.requested = some b) (received : F.entry s.books b) :
      Turned F s ⟨s.bc.addBlock b.data, s.transactions⟩
  | committed (read : List Message) (best : Candidate) (hc : s.control = .handleAll read)
      (drained : s.inbox = []) (lowest : lowestHash s.addblockCandidates = some best) :
      Turned F s ⟨s.bc.addBlock best.block.data,
        if best.own then s.transactions.tail else s.transactions⟩

theorem awaitBlock_books {F : Facts sha256} (closed : Closed powGroup F s) (h : Holds F s)
    {f : BlockFrame} {caller : Caller} (hc : s.control = .awaitBlock f caller) :
    Books.Turned F s (awaitBlock s f caller).1.books := by
  have hcontrol := h.control
  rw [hc] at hcontrol
  obtain ⟨hread, hentries, _⟩ := hcontrol
  unfold awaitBlock
  split
  · rename_i asking
    split
    · rename_i msg inbox waiting
      have hm : F.message msg := h.inbox msg (by simp [waiting])
      obtain ⟨_, entries'⟩ := readBlockMessage_holds closed hm hread hentries
      simp only
      split
      · rename_i largestBlock majority
        cases largestBlock with
        | none => exact .same
        | some b =>
          have requested : s.requested = some b := by
            simp only [PeerState.requested, hc, waiting, asking, if_true, majority, Option.join,
              Option.bind_some, id_eq]
          obtain ⟨e, member, rfl⟩ := checkMajority_mem majority
          exact .synchronised e.1 requested (entries' e member)
      · split <;> exact .same
    · simp only
      split <;> exact .same
  · exact .same

theorem turn_books {F : Facts sha256} (closed : Closed powGroup F s) (h : Holds F s) :
    Books.Turned F s (turn powGroup s).1.books := by
  have kept : ∀ {books : Books sha256}, books = s.books → Books.Turned F s books := by
    rintro _ rfl
    exact .same
  unfold turn
  split
  · exact kept runLoop_static.2
  · unfold requestBlockchainBlock
    simp only
    split <;> exact kept rfl
  · rename_i f caller hc
    exact awaitBlock_books closed h hc
  · exact kept (handleRequest_static s.inbox _ _ _ _).2
  · exact kept rfl
  · exact kept (awaitVotes_static _ _ _).2
  · exact kept (majority_static _ _ _).2
  · exact kept (checked_static _ _ _ _).2
  · exact kept (handled_static _ _ _).2
  · rename_i read hc
    unfold handleAllBlockAdditionRequests
    split
    · rename_i drained
      unfold commit
      simp only
      split
      · exact kept rfl
      · rename_i best lowest
        exact .committed read best hc drained lowest
    · simp only
      split
      · split
        · exact kept (handleRequest_static _ _ _ _ _).2
        · exact kept rfl
      · exact kept rfl

theorem receiveNetinfo_static (info : List PeerAddress) :
    (receiveNetinfo s info).control = s.control ∧ (receiveNetinfo s info).inbox = s.inbox ∧
      (receiveNetinfo s info).books = s.books := by
  unfold receiveNetinfo
  split <;> exact ⟨rfl, rfl, rfl⟩

end Turn

end DPS2.Application
