import DPS2.Application.Votes

/-! What one turn can do while RequestBlockchain runs. -/
namespace DPS2.Application

open P2P ProofOfWork

variable {sha256 : Bytes → Bytes}

def Control.syncing : Control → Bool
  | .requestBlockchain _ => true
  | .awaitBlock _ _ => true
  | _ => false

/-- What the sender of a message is heard to say about the requested block. -/
inductive Answer where
  | noBlock
  | block (hash : Bytes)
  -- a malformed block, or a request for the same block
  | neither
  deriving DecidableEq

/-- The answer that RequestBlockchainBlock hears in a message, whatever the index of a BLOCK or
NOBLOCK. -/
def hearing (bc : Blockchain (sha256FromDataAndHash sha256)) (index : Nat) (m : Message) :
    Option (PeerAddress × Answer) :=
  match m.body with
  | .noBlock => some (m.peerAddress, .noBlock)
  | .block b => some (m.peerAddress, if Extends bc b then .block b.hash else .neither)
  | .requestBlock => if m.index = index then some (m.peerAddress, .neither) else none
  | _ => none

/-- The messages RequestBlockchainBlock puts into read_messages. -/
def isPostponed (index : Nat) (m : Message) : Bool :=
  match m.body with
  | .requestBlock => decide (index < m.index)
  | _ => false

/-- What becomes of the frame when a message is read. -/
inductive Hears (bc : Blockchain (sha256FromDataAndHash sha256)) (f : BlockFrame) (msg : Message) :
    BlockFrame → Prop where
  | noBlock (pa : PeerAddress) (heard : hearing bc f.index msg = some (pa, .noBlock))
      (fresh : pa ∉ f.clientsSeen) :
      Hears bc f msg { f with noBlock := f.noBlock + 1, clientsSeen := f.clientsSeen ++ [pa] }
  | block (pa : PeerAddress) (b : BType) (body : msg.body = .block b) (valid : Extends bc b)
      (heard : hearing bc f.index msg = some (pa, .block b.hash)) (fresh : pa ∉ f.clientsSeen) :
      Hears bc f msg
        { f with clientsSeen := f.clientsSeen ++ [pa], messages := countBlock b f.messages }
  | neither (pa : PeerAddress) (heard : hearing bc f.index msg = some (pa, .neither))
      (fresh : pa ∉ f.clientsSeen) :
      Hears bc f msg { f with clientsSeen := f.clientsSeen ++ [pa] }
  | again (pa : PeerAddress) (answer : Answer) (heard : hearing bc f.index msg = some (pa, answer))
      (seen : pa ∈ f.clientsSeen) : Hears bc f msg f
  | silent (unheard : hearing bc f.index msg = none) (now : isPostponed f.index msg = false) :
      Hears bc f msg f
  | postponed (unheard : hearing bc f.index msg = none) (later : isPostponed f.index msg = true) :
      Hears bc f msg { f with readMessages := f.readMessages ++ [msg] }

inductive BlockTurn (s t : PeerState sha256) : Prop where
  | request (caller : Caller) (before : s.control = .requestBlockchain caller)
      (kept : t.inbox = s.inbox) (same : t.bc = s.bc) (others : s.addressees ≠ [])
      (after : t.control =
        .awaitBlock ⟨s.bc.size, s.addressees.length, [], [], 0, 0, []⟩ caller)
  | alone (caller : Caller) (before : s.control = .requestBlockchain caller)
      (kept : t.inbox = s.inbox) (same : t.bc = s.bc) (nobody : s.addressees = [])
      (after : t.control = caller.resume)
  | read (f g : BlockFrame) (caller : Caller) (msg : Message)
      (before : s.control = .awaitBlock f caller) (asking : f.clientsSeen.length < f.nPeers)
      (waiting : s.inbox = msg :: t.inbox) (same : t.bc = s.bc) (hears : Hears s.bc f msg g)
      (undecided : checkMajority g.clientsSeen.length g.nPeers g.noBlock g.messages = none)
      (inTime : f.tries < nTries) (after : t.control = .awaitBlock g caller)
  | decided (f g : BlockFrame) (caller : Caller) (msg : Message) (inbox : List Message)
      (largestBlock : Option BType)
      (before : s.control = .awaitBlock f caller) (asking : f.clientsSeen.length < f.nPeers)
      (waiting : s.inbox = msg :: inbox) (hears : Hears s.bc f msg g)
      (decision :
        checkMajority g.clientsSeen.length g.nPeers g.noBlock g.messages = some largestBlock)
      (placed : t.inbox = inbox ++ g.readMessages)
      (after : largestBlock = none ∧ t.bc = s.bc ∧ t.control = caller.resume ∨
        ∃ b, largestBlock = some b ∧ t.bc = s.bc.addBlock b.data ∧
          t.control = .requestBlockchain caller)
  | poll (f : BlockFrame) (caller : Caller) (before : s.control = .awaitBlock f caller)
      (asking : f.clientsSeen.length < f.nPeers) (waiting : s.inbox = [])
      (kept : t.inbox = s.inbox) (same : t.bc = s.bc) (inTime : f.tries + 1 < nTries)
      (after : t.control = .awaitBlock { f with tries := f.tries + 1 } caller)
  | readLate (f g : BlockFrame) (caller : Caller) (msg : Message) (inbox : List Message)
      (before : s.control = .awaitBlock f caller) (asking : f.clientsSeen.length < f.nPeers)
      (waiting : s.inbox = msg :: inbox) (hears : Hears s.bc f msg g) (late : nTries ≤ f.tries)
      (same : t.bc = s.bc) (placed : t.inbox = inbox ++ g.readMessages)
      (after : t.control = .requestBlockchain caller)
  | failed (f : BlockFrame) (caller : Caller) (before : s.control = .awaitBlock f caller)
      (waiting : s.inbox = [] ∧ nTries ≤ f.tries + 1 ∨ ¬ f.clientsSeen.length < f.nPeers)
      (same : t.bc = s.bc) (placed : t.inbox = s.inbox ++ f.readMessages)
      (after : t.control = .requestBlockchain caller)

section Turns

variable {powGroup : IProofOfWork Bytes Bytes} {s : PeerState sha256} {f : BlockFrame}
  {caller : Caller}

theorem readBlockMessage_hears (f : BlockFrame) (msg : Message) :
    Hears s.bc f msg (readBlockMessage s f msg).1 := by
  unfold readBlockMessage
  dsimp only
  split
  · rename_i body
    have heard : hearing s.bc f.index msg = some (msg.peerAddress, .noBlock) := by
      simp [hearing, body]
    split
    · rename_i found
      exact .again _ _ heard (clientFound_iff.mp found)
    · rename_i unseen
      rw [clientFound_iff] at unseen
      exact .noBlock _ heard unseen
  · rename_i b body
    have heard : hearing s.bc f.index msg =
        some (msg.peerAddress, if Extends s.bc b then .block b.hash else .neither) := by
      simp [hearing, body]
    split
    · rename_i found
      exact .again _ _ heard (clientFound_iff.mp found)
    · rename_i unseen
      rw [clientFound_iff] at unseen
      split
      · rename_i valid
        have extends_ : Extends s.bc b := ⟨valid.2, valid.1.symm⟩
        rw [if_pos extends_] at heard
        exact .block _ b body extends_ heard unseen
      · rename_i malformed
        rw [if_neg fun extends_ : Extends s.bc b => malformed ⟨extends_.2.symm, extends_.1⟩]
          at heard
        exact .neither _ heard unseen
  · rename_i body
    split
    · rename_i same
      have heard : hearing s.bc f.index msg = some (msg.peerAddress, .neither) := by
        simp [hearing, body, same]
      split
      · rename_i found
        exact .again _ _ heard (clientFound_iff.mp found)
      · rename_i unseen
        rw [clientFound_iff] at unseen
        exact .neither _ heard unseen
    · rename_i different
      have unheard : hearing s.bc f.index msg = none := by simp [hearing, body, different]
      split
      · rename_i earlier
        refine .silent unheard ?_
        simp only [isPostponed, body, decide_eq_false_iff_not]
        omega
      · rename_i notEarlier
        refine .postponed unheard ?_
        simp only [isPostponed, body, decide_eq_true_eq]
        omega
  · rename_i noNoBlock noBlock noRequest
    refine .silent ?_ ?_
    · unfold hearing
      split
      · rename_i body
        exact absurd body noNoBlock
      · rename_i b body
        exact absurd body (noBlock b)
      · rename_i body
        exact absurd body noRequest
      · rfl
    · unfold isPostponed
      split
      · rename_i body
        exact absurd body noRequest
      · rfl

/-- A BLOCK or NOBLOCK of a peer that is already seen changes nothing. -/
theorem answer_again {msg : Message} (answer : msg.body = .noBlock ∨ ∃ b, msg.body = .block b)
    (found : clientFound msg.peerAddress f.clientsSeen = true) :
    (readBlockMessage s f msg).1 = f := by
  rcases answer with body | ⟨b, body⟩
  · simp [readBlockMessage, body, found]
  · simp [readBlockMessage, body, found]

theorem hears_tries {bc : Blockchain (sha256FromDataAndHash sha256)} {g : BlockFrame}
    {msg : Message} (hears : Hears bc f msg g) :
    g.tries = f.tries ∧ g.index = f.index ∧ g.nPeers = f.nPeers := by
  cases hears <;> exact ⟨rfl, rfl, rfl⟩

theorem awaitBlock_turn (hc : s.control = .awaitBlock f caller) :
    BlockTurn s (awaitBlock s f caller).1 := by
  unfold awaitBlock
  split
  · rename_i asking
    split
    · rename_i msg inbox waiting
      have hears := @readBlockMessage_hears _ s f msg
      generalize readBlockMessage s f msg = read at hears
      obtain ⟨g, out⟩ := read
      dsimp only at hears ⊢
      split
      · rename_i largestBlock decision
        refine .decided f g caller msg inbox largestBlock hc asking waiting hears decision ?_ ?_
        · cases largestBlock <;> rfl
        · cases largestBlock with
          | none => exact Or.inl ⟨rfl, rfl, rfl⟩
          | some b => exact Or.inr ⟨b, rfl, rfl, rfl⟩
      · rename_i undecided
        split
        · rename_i late
          rw [(hears_tries hears).1] at late
          exact .readLate f g caller msg inbox hc asking waiting hears late rfl rfl rfl
        · rename_i inTime
          rw [(hears_tries hears).1] at inTime
          exact .read f g caller msg hc asking waiting rfl hears undecided
            (Nat.lt_of_not_le inTime) rfl
    · rename_i empty
      dsimp only
      split
      · rename_i late
        exact .failed f caller hc (Or.inl ⟨empty, late⟩) rfl rfl rfl
      · rename_i inTime
        exact .poll f caller hc asking empty rfl rfl (Nat.lt_of_not_le inTime) rfl
  · rename_i heard
    exact .failed f caller hc (Or.inr heard) rfl rfl rfl

theorem requestBlockchainBlock_turn (hc : s.control = .requestBlockchain caller) :
    BlockTurn s (requestBlockchainBlock s caller).1 := by
  unfold requestBlockchainBlock
  dsimp only
  split
  · rename_i nobody
    exact .alone caller hc rfl rfl (List.length_eq_zero_iff.mp nobody) rfl
  · rename_i some_
    exact .request caller hc rfl rfl (fun nobody => some_ (by rw [nobody]; rfl)) rfl

/-- Every turn that is taken while RequestBlockchain runs. -/
theorem block_turn (running : s.control.syncing = true) : BlockTurn s (turn powGroup s).1 := by
  cases hc : s.control with
  | requestBlockchain caller =>
    simp only [turn, hc]
    exact requestBlockchainBlock_turn hc
  | awaitBlock f caller =>
    simp only [turn, hc]
    exact awaitBlock_turn hc
  | run | handleRequest | addBlock | awaitVotes | majority | checked | handled | handleAll =>
    rw [hc] at running
    cases running

end Turns

end DPS2.Application
