import DPS2.Application.Votes

/-! An honest proposal at a peer with the same chain: the block is rebuilt from the bytes
of the request, the vote agrees, and the call returns once no more messages arrive. -/
namespace DPS2.Application

open P2P ProofOfWork Codec

variable {sha256 : Bytes → Bytes}

/- The stack of vote frames during one call of HandleBlockAdditionRequest. -/

/-- The stack of a call that agreed: its own frame on top of the frames it was called
from, and above it the frames of nested requests. -/
def Above (below stack : List VoteFrame) : Prop :=
  ∃ (inner : List VoteFrame) (base : VoteFrame), stack = inner ++ base :: below ∧
    base.origin = .handleBlockAdditionRequest true ∧ ∀ f ∈ inner, f.origin.own = false

section Above

variable {below rest : List VoteFrame} {f g : VoteFrame}

theorem above_push (h : Above below rest) (nested : f.origin.own = false) :
    Above below (f :: rest) := by
  obtain ⟨inner, base, rfl, agreed, others⟩ := h
  exact ⟨f :: inner, base, rfl, agreed, by simpa using ⟨nested, others⟩⟩

theorem above_replace (h : Above below (f :: rest)) (same : g.origin = f.origin) :
    Above below (g :: rest) := by
  obtain ⟨inner, base, shape, agreed, others⟩ := h
  cases inner with
  | nil =>
    obtain ⟨rfl, rfl⟩ := List.cons.inj shape
    exact ⟨[], g, rfl, same.trans agreed, by simp⟩
  | cons f' inner =>
    obtain ⟨rfl, rfl⟩ := List.cons.inj shape
    refine ⟨g :: inner, base, rfl, agreed, all_cons ?_ fun a ha => others a (by simp [ha])⟩
    rw [same]
    exact others f (by simp)

theorem above_pop (h : Above below (f :: rest)) :
    (f.origin = .handleBlockAdditionRequest true ∧ rest = below) ∨
      (∃ agree, f.origin = .handleBlockAdditionRequest agree) ∧ Above below rest := by
  obtain ⟨inner, base, shape, agreed, others⟩ := h
  cases inner with
  | nil =>
    obtain ⟨rfl, rfl⟩ := List.cons.inj shape
    exact Or.inl ⟨agreed, rfl⟩
  | cons f' inner =>
    obtain ⟨rfl, rfl⟩ := List.cons.inj shape
    refine Or.inr ⟨?_, inner, base, rfl, agreed, fun a ha => others a (by simp [ha])⟩
    have nested := others f (by simp)
    cases origin : f.origin with
    | addBlockToBlockchain => simp [origin, Origin.own] at nested
    | handleBlockAdditionRequest agree => exact ⟨agree, rfl⟩

theorem above_ne (h : Above below rest) : rest ≠ below := by
  obtain ⟨inner, base, rfl, _⟩ := h
  intro same
  have := congrArg List.length same
  simp at this
  omega

end Above

def Inside (below : List VoteFrame) (read : List Message) (s : PeerState sha256) : Prop :=
  match s.control with
  | .awaitVotes f rest read' => Above below (f :: rest) ∧ read' = read
  | .majority f rest read' => Above below (f :: rest) ∧ read' = read
  | .checked _ f rest read' => Above below (f :: rest) ∧ read' = read
  | .handled _ rest read' => Above below rest ∧ read' = read
  | _ => False

def isCurrent (size : Nat) (m : Message) : Bool :=
  match m.body with
  | .addRequest _ _ => m.index == size
  | _ => false

def currentRequests (s : PeerState sha256) (stack : List VoteFrame) : Nat :=
  s.inbox.countP (isCurrent s.bc.size) +
    (stack.flatMap VoteFrame.readMessages).countP (isCurrent s.bc.size)

/-- Falls lexicographically. Each request costs a frame, so it outweighs two frames; within
one stack a round takes a message out of the inbox, or there is one try less. -/
def callRank (s : PeerState sha256) : Nat × Nat × Nat × Nat :=
  match s.control with
  | .awaitVotes f rest _ =>
      (3 * currentRequests s (f :: rest) + 2 * (rest.length + 1), s.inbox.length, 0,
        f.nPeers * nTries - f.tries)
  | .majority f rest _ =>
      (3 * currentRequests s (f :: rest) + 2 * (rest.length + 1), s.inbox.length, 1, 0)
  | .checked _ _ rest _ => (3 * currentRequests s rest + 2 * rest.length + 1, s.inbox.length, 0, 0)
  | .handled _ rest _ => (3 * currentRequests s rest + 2 * rest.length, s.inbox.length, 2, 0)
  | _ => (0, 0, 0, 0)

def rankLt : Nat × Nat × Nat × Nat → Nat × Nat × Nat × Nat → Prop :=
  Prod.Lex (· < ·) (Prod.Lex (· < ·) (Prod.Lex (· < ·) (· < ·)))

theorem rankLt_wf : WellFounded rankLt :=
  have wf := Nat.lt_wfRel.wf
  wf.prod_lex (wf.prod_lex (wf.prod_lex wf))

theorem rankLt_iff (a b c d a' b' c' d' : Nat) :
    rankLt (a', b', c', d') (a, b, c, d) ↔
      a' < a ∨ a' = a ∧ (b' < b ∨ b' = b ∧ (c' < c ∨ c' = c ∧ d' < d)) := by
  simp only [rankLt, Prod.lex_def]

section Call

variable {powGroup : IProofOfWork Bytes Bytes} {s : PeerState sha256} {f : VoteFrame}
  {below rest : List VoteFrame} {read : List Message}

def Progress (below : List VoteFrame) (read : List Message) (s s' : PeerState sha256) : Prop :=
  s'.control = .handled true below read ∨
    Inside below read s' ∧ rankLt (callRank s') (callRank s)

theorem progress_returned (hc : s.control = .awaitVotes f rest read ∨
      s.control = .majority f rest read) (above : Above below (f :: rest)) (g : VoteFrame)
    (same : g.origin = f.origin) (reads : g.readMessages = f.readMessages) (result : Bool) :
    Progress below read s
      ((s.placeBack g.readMessages).goto (.checked result g rest read)) := by
  refine Or.inr ⟨⟨above_replace above same, rfl⟩, ?_⟩
  rcases hc with hc | hc <;>
  · simp only [callRank, hc, PeerState.goto, PeerState.placeBack, currentRequests, rankLt_iff,
      true_and, List.flatMap_cons, List.countP_append, reads]
    omega

theorem progress_message {msg : Message} {inbox : List Message}
    (hc : s.control = .awaitVotes f rest read) (waiting : s.inbox = msg :: inbox)
    (above : Above below (f :: rest)) (g : VoteFrame) (same : g.origin = f.origin)
    (reads : g.readMessages = f.readMessages ∨ g.readMessages = f.readMessages ++ [msg]) :
    Progress below read s ({ s with inbox }.goto (.majority g rest read)) := by
  refine Or.inr ⟨⟨above_replace above same, rfl⟩, ?_⟩
  rcases reads with reads | reads
  · simp only [callRank, hc, waiting, PeerState.goto, currentRequests, rankLt_iff,
      List.flatMap_cons, List.countP_append, reads, List.countP_cons, List.length_cons]
    omega
  · simp only [callRank, hc, waiting, PeerState.goto, currentRequests, rankLt_iff,
      List.flatMap_cons, List.countP_append, reads, List.countP_cons, List.length_cons,
      List.countP_nil]
    omega

theorem progress_request {r : AdditionRequest} {inbox : List Message}
    (hc : s.control = .awaitVotes f rest read) (waiting : s.inbox = r.toMessage :: inbox)
    (current : r.index = s.bc.size) (above : Above below (f :: rest)) (allowAgree : Bool) :
    Progress below read s
      (handleBlockAdditionRequest powGroup { s with inbox } r allowAgree (f :: rest) read).1 := by
  have one : isCurrent s.bc.size r.toMessage = true := by
    simp [isCurrent, AdditionRequest.toMessage, current]
  have inTime : ¬ r.index > s.bc.size := by omega
  right
  unfold handleBlockAdditionRequest
  rw [if_neg inTime]
  cases allowAgree with
  | true =>
    refine ⟨⟨above_push above rfl, rfl⟩, ?_⟩
    simp only [if_true, callRank, hc, waiting, PeerState.goto, currentRequests, rankLt_iff,
      true_and, List.flatMap_cons, List.countP_append, List.countP_cons, one, VoteFrame.start,
      List.countP_nil, List.length_cons]
    omega
  | false =>
    refine ⟨⟨above, rfl⟩, ?_⟩
    simp only [Bool.false_eq_true, if_false, callRank, hc, waiting, PeerState.goto,
      currentRequests, rankLt_iff, List.flatMap_cons, List.countP_append, List.countP_cons, one,
      List.length_cons, if_true]
    omega

theorem awaitVotes_progress (hc : s.control = .awaitVotes f rest read)
    (above : Above below (f :: rest)) :
    Progress below read s (awaitVotes powGroup s f rest read).1 := by
  unfold awaitVotes
  split
  · split
    · rename_i msg inbox waiting
      have kept := progress_message hc waiting above f rfl (Or.inl rfl)
      have deferred := progress_message hc waiting above (f.defer msg) rfl (Or.inr rfl)
      unfold readVoteMessage
      split
      · rename_i agree hash body
        split
        · split
          · exact progress_message hc waiting above _ (countVote_same f _ _ _).1
              (Or.inl (countVote_read f _ _ _))
          · exact kept
        · exact deferred
      · split
        · exact kept
        · exact deferred
      · rename_i pow b body
        split
        · rename_i current
          have request : s.inbox =
              (AdditionRequest.mk msg.peerAddress msg.index pow b).toMessage :: inbox := by
            rw [waiting, AdditionRequest.toMessage, ← body]
          simp only
          split <;> exact progress_request hc request current above _
        · exact deferred
      · exact kept
    · rename_i empty
      simp only
      split
      · exact progress_returned (Or.inl hc) above { f with tries := f.tries + 1 } rfl rfl false
      · rename_i more
        refine Or.inr ⟨⟨above_replace above rfl, rfl⟩, ?_⟩
        simp only [callRank, hc, PeerState.goto, currentRequests, rankLt_iff, true_and,
          List.flatMap_cons, List.countP_append]
        omega
  · exact progress_returned (Or.inl hc) above f rfl rfl _

theorem majority_progress (hc : s.control = .majority f rest read)
    (above : Above below (f :: rest)) : Progress below read s (majority s f rest read).1 := by
  have returned := progress_returned (Or.inr hc) above f rfl rfl
  unfold majority
  split
  · exact returned true
  · split
    · exact returned false
    · split
      · exact returned false
      · refine Or.inr ⟨⟨above, rfl⟩, ?_⟩
        simp only [callRank, hc, PeerState.goto, currentRequests, rankLt_iff, true_and]
        omega

theorem checked_progress {result : Bool} (hc : s.control = .checked result f rest read)
    (above : Above below (f :: rest)) :
    Progress below read s (checked s result f rest read).1 := by
  unfold checked
  rcases above_pop above with ⟨agreed, rfl⟩ | ⟨⟨agree, nested⟩, above⟩
  · left
    simp only [agreed]
  · right
    simp only [nested]
    refine ⟨⟨above, rfl⟩, ?_⟩
    simp only [callRank, hc, currentRequests, rankLt_iff, true_and]
    omega

theorem handled_progress {agree : Bool} (hc : s.control = .handled agree rest read)
    (above : Above below rest) : Progress below read s (handled s agree rest read) := by
  cases rest with
  | nil =>
    obtain ⟨inner, base, shape, _⟩ := above
    simp at shape
  | cons f rest =>
    right
    cases agree with
    | true =>
      refine ⟨⟨above, rfl⟩, ?_⟩
      simp only [handled, if_true, callRank, hc, PeerState.goto, currentRequests, rankLt_iff,
        true_and, List.flatMap_cons, List.countP_append, List.length_cons]
      omega
    | false =>
      refine ⟨⟨above, rfl⟩, ?_⟩
      simp only [handled, Bool.false_eq_true, if_false, callRank, hc, PeerState.goto,
        currentRequests, rankLt_iff, true_and, List.length_cons]
      omega

theorem turn_progress (h : Inside below read s) :
    Progress below read s (turn powGroup s).1 := by
  unfold Inside at h
  split at h
  · rename_i f rest read' hc
    obtain ⟨above, rfl⟩ := h
    simp only [turn, hc]
    exact awaitVotes_progress hc above
  · rename_i f rest read' hc
    obtain ⟨above, rfl⟩ := h
    simp only [turn, hc]
    exact majority_progress hc above
  · rename_i result f rest read' hc
    obtain ⟨above, rfl⟩ := h
    simp only [turn, hc]
    exact checked_progress hc above
  · rename_i agree rest read' hc
    obtain ⟨above, rfl⟩ := h
    simp only [turn, hc]
    exact handled_progress hc above
  · exact h.elim

theorem inside_not_returned (h : Inside below read s) (agree : Bool) :
    s.control ≠ .handled agree below read := by
  intro returned
  simp only [Inside, returned] at h
  exact above_ne h.1 rfl

theorem react_inside (h : Inside below read s) (e : PeerEvent) :
    Inside below read (react powGroup s e) ∨
      (react powGroup s e).control = .handled true below read := by
  cases e with
  | turn =>
    rcases turn_progress h with returned | ⟨inside, _⟩
    · exact Or.inr returned
    · exact Or.inl inside
  | deliver msg => exact Or.inl h
  | netinfo info =>
    left
    unfold react receiveNetinfo
    simp only
    split <;> exact h

theorem run_inside (h : Inside below read s) (es : List PeerEvent)
    (waiting : ∀ pre, pre <+: es → pre ≠ es → ∀ agree,
      (Lts.run (react powGroup) s pre).control ≠ .handled agree below read) :
    Inside below read (Lts.run (react powGroup) s es) ∨
      (Lts.run (react powGroup) s es).control = .handled true below read := by
  induction es generalizing s with
  | nil => exact Or.inl h
  | cons e es ih =>
    rcases react_inside h e with inside | returned
    · apply ih inside
      intro pre sub proper agree
      exact waiting (e :: pre) (List.cons_prefix_cons.mpr ⟨rfl, sub⟩) (by simp [proper]) agree
    · cases es with
      | nil => exact Or.inr returned
      | cons e' es =>
        exact absurd returned (waiting [e] (by simp) (by simp) true)

end Call

/-- The call that is going on in a state returns this value: its first return, whatever
arrives before, has this value, and it comes once no more messages arrive. -/
def CallReturns (powGroup : IProofOfWork Bytes Bytes) (below : List VoteFrame)
    (read : List Message) (s : PeerState sha256) (value : Bool) : Prop :=
  ∀ es : List PeerEvent,
    (∀ pre, pre <+: es → pre ≠ es → ∀ agree,
      (Lts.run (react powGroup) s pre).control ≠ .handled agree below read) →
    (∀ agree, (Lts.run (react powGroup) s es).control = .handled agree below read →
      agree = value) ∧
    ∃ k, (Lts.run (react powGroup) s (es ++ List.replicate k .turn)).control =
      .handled value below read

theorem inside_returns {powGroup : IProofOfWork Bytes Bytes} {below : List VoteFrame}
    {read : List Message} {s : PeerState sha256} (h : Inside below read s) :
    CallReturns powGroup below read s true := by
  intro es waiting
  rcases run_inside h es waiting with inside | returned
  · refine ⟨fun agree ended => absurd ended (inside_not_returned inside agree), ?_⟩
    obtain ⟨k, ended⟩ := @Lts.eventually _ _ (react powGroup) _ _ rankLt_wf callRank
      (Inside below read) (fun s => s.control = .handled true below read) .turn
      (fun s inside => turn_progress inside) _ inside
    refine ⟨k, ?_⟩
    rw [Lts.run_append]
    exact ended
  · constructor
    · intro agree ended
      rw [returned] at ended
      injection ended with same
      exact same.symm
    · refine ⟨0, ?_⟩
      rw [List.replicate_zero, List.append_nil]
      exact returned

theorem agreeing_call_inside {powGroup : IProofOfWork Bytes Bytes} {s : PeerState sha256}
    {r : AdditionRequest} (inTime : r.index ≤ s.bc.size)
    (agree : voteOn powGroup s.bc r true = true) (below : List VoteFrame) (read : List Message) :
    Inside below read (handleBlockAdditionRequest powGroup s r true below read).1 ∧
      (handleBlockAdditionRequest powGroup s r true below read).2 =
        [.broadcast ⟨s.ownPa, r.index, .vote true r.block.hash⟩] := by
  unfold handleBlockAdditionRequest
  rw [if_neg (by omega)]
  simp only [agree, if_true]
  exact ⟨⟨⟨[], _, rfl, rfl, by simp⟩, rfl⟩, trivial⟩

/-- The request that a proposer p broadcasts, read and handled by a peer s whose chain has
the same size and top hash: the block and the key come out as they went in, s broadcasts an
agree vote for them, and the call returns true. -/
theorem honest_proposal_accepted (powGroup : IProofOfWork Bytes Bytes) (p s : PeerState sha256)
    (ts : Transactions) (proposing : p.control = .addBlock ts)
    (solved : powGroup.checkSolution (sha256FromBlock sha256 (p.bc.sneakPeekBlock ts))
      (powGroup.solveProblem (sha256FromBlock sha256 (p.bc.sneakPeekBlock ts))) = true)
    (sized : Sized (ownRequest powGroup p.ownPa p.bc ts).toMessage)
    (sameSize : s.bc.size = p.bc.size) (sameTop : s.bc.getTopHash = p.bc.getTopHash)
    (below : List VoteFrame) (read : List Message) :
    ∃ request : Message, (turn powGroup p).2 = [.broadcast request] ∧
      ∀ msg : Memory, msg.Holds request.toBytes →
        ∃ r : AdditionRequest, readMessage msg = r.toMessage ∧
          r.block = p.bc.sneakPeekBlock ts ∧
          r.pow = powGroup.solveProblem (sha256FromBlock sha256 (p.bc.sneakPeekBlock ts)) ∧
          (handleBlockAdditionRequest powGroup s r true below read).2 =
            [.broadcast ⟨s.ownPa, p.bc.size, .vote true r.block.hash⟩] ∧
          CallReturns powGroup below read
            (handleBlockAdditionRequest powGroup s r true below read).1 true := by
  refine ⟨(ownRequest powGroup p.ownPa p.bc ts).toMessage, ?_, fun msg h => ?_⟩
  · simp only [turn, proposing]
    rfl
  · have agree : voteOn powGroup s.bc (ownRequest powGroup p.ownPa p.bc ts) true = true := by
      rw [voteOn_iff]
      exact ⟨Nat.le_of_eq sameSize, ⟨sameTop.symm, rfl⟩, solved, rfl⟩
    obtain ⟨inside, sent⟩ :=
      agreeing_call_inside (Nat.le_of_eq sameSize.symm) agree below read
    exact ⟨_, readMessage_toBytes sized h, rfl, rfl, sent, inside_returns inside⟩

def echoPeer (ownPa : PeerAddress) (control : Control) : PeerState HashCash.echo :=
  (PeerState.ready ownPa [] Blockchain.new []).goto control

def echoProposer : PeerState HashCash.echo := echoPeer ⟨2, 80, 1⟩ (.addBlock default)

theorem echo_request_sized :
    Sized (ownRequest (hashCash HashCash.echo 24) echoProposer.ownPa echoProposer.bc
      default).toMessage := by
  have long : 3 ≤ (sha256FromBlock HashCash.echo
      (echoProposer.bc.sneakPeekBlock default)).length := by
    have size := (echoProposer.bc.sneakPeekBlock default).data.size
    simp only [sha256FromBlock, HashCash.echo, List.length_append]
    omega
  refine ⟨by decide, ?_, ?_, ?_⟩
  · simp only [ownRequest, hashCash, HashCash.echo_solved long]
    decide
  · decide +kernel
  · decide +kernel

theorem echo_proposal_accepted :
    ∃ request : Message,
      (turn (hashCash HashCash.echo 24) echoProposer).2 = [.broadcast request] ∧
      ∀ msg : Memory, msg.Holds request.toBytes →
        ∃ r : AdditionRequest, readMessage msg = r.toMessage ∧
          r.block = echoProposer.bc.sneakPeekBlock default ∧
          r.pow = (hashCash HashCash.echo 24).solveProblem (sha256FromBlock HashCash.echo
            (echoProposer.bc.sneakPeekBlock default)) ∧
          (handleBlockAdditionRequest (hashCash HashCash.echo 24) (echoPeer ⟨2, 80, 2⟩ .run) r
            true [] []).2 = [.broadcast ⟨⟨2, 80, 2⟩, 1, .vote true r.block.hash⟩] ∧
          CallReturns (hashCash HashCash.echo 24) [] []
            (handleBlockAdditionRequest (hashCash HashCash.echo 24) (echoPeer ⟨2, 80, 2⟩ .run) r
              true [] []).1 true :=
  honest_proposal_accepted _ echoProposer (echoPeer ⟨2, 80, 2⟩ .run) default rfl
    (echo_proposal_solved _ _) echo_request_sized rfl rfl [] []

end DPS2.Application
