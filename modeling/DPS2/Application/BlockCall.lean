import DPS2.Application.BlockVotes

/-! One call of RequestBlockchainBlock, from the request to the return: which block it comes to,
and what it leaves in the inbox. -/
namespace DPS2.Application

open P2P ProofOfWork Quorum

variable {sha256 : Bytes → Bytes}

/-- A peer during the call, all messages that were in the inbox or have arrived, and those that
the call has taken out. -/
structure BlockCall (sha256 : Bytes → Bytes) where
  peer : PeerState sha256
  arrived : List Message
  taken : List Message

def Control.awaiting : Control → Bool
  | .awaitBlock _ _ => true
  | _ => false

def PeerState.takes (s : PeerState sha256) : List Message :=
  match s.control with
  | .awaitBlock f _ => if f.clientsSeen.length < f.nPeers then s.inbox.take 1 else []
  | _ => []

section Call

variable (powGroup : IProofOfWork Bytes Bytes)

/-- After the turn that sends the request. -/
def BlockCall.start (s : PeerState sha256) : BlockCall sha256 := ⟨(turn powGroup s).1, s.inbox, []⟩

def BlockCall.step (c : BlockCall sha256) (e : PeerEvent) : BlockCall sha256 where
  peer := react powGroup c.peer e
  arrived := c.arrived ++ match e with
    | .deliver msg => [msg]
    | _ => []
  taken := c.taken ++ match e with
    | .turn => c.peer.takes
    | _ => []

def Waiting (c : BlockCall sha256) (_ : PeerEvent) : Prop := c.peer.control.awaiting = true

instance decidableWaiting (c : BlockCall sha256) (e : PeerEvent) : Decidable (Waiting c e) :=
  inferInstanceAs (Decidable (_ = _))

variable (s : PeerState sha256) (es : List PeerEvent)

/-- The call that begins in this state has not returned before the end of these events. -/
def PeerState.Requests : Prop :=
  Lts.Throughout (BlockCall.step powGroup) Waiting (BlockCall.start powGroup s) es

def PeerState.request : BlockCall sha256 :=
  Lts.run (BlockCall.step powGroup) (BlockCall.start powGroup s) es

instance decidableRequests : Decidable (s.Requests powGroup es) :=
  inferInstanceAs (Decidable (Lts.Throughout _ _ _ _))

end Call

/-- A majority for the hash of a block that was received and extends the chain. -/
structure MajorityFor (bc : Blockchain (sha256FromDataAndHash sha256)) (nPeers : Nat)
    (taken : List Message) (b : BType) : Prop where
  received : ∃ m ∈ taken, m.body = .block b
  valid : Extends bc b
  heard : (voters (hearings bc taken)).card ≤ nPeers
  noBlock : support (hearings bc taken) .noBlock +
      (nPeers - (voters (hearings bc taken)).card) < support (hearings bc taken) (.block b.hash)
  others : ∀ hash, hash ≠ b.hash → support (hearings bc taken) (.block hash) +
      (nPeers - (voters (hearings bc taken)).card) < support (hearings bc taken) (.block b.hash)

theorem decided_majority {bc : Blockchain (sha256FromDataAndHash sha256)} {nPeers : Nat}
    {taken : List Message} {f : BlockFrame} {b : BType} (h : BlockTally bc nPeers taken f)
    (decision : checkMajority f.clientsSeen.length f.nPeers f.noBlock f.messages = some (some b)) :
    MajorityFor bc nPeers taken b := by
  obtain ⟨e, inside, rfl⟩ := checkMajority_mem decision
  obtain ⟨valid, received⟩ := h.received e inside
  have ahead := checkMajority_ahead (sorted_keys h.sorted) (List.ne_nil_of_mem inside) decision
  have lead : tally f.noBlock f.messages ((some e.1).map Block.hash) =
      support (hearings bc taken) (.block e.1.hash) := h.votes e.1.hash
  rw [lead, h.heard, h.nPeers] at ahead
  refine ⟨received, valid, ?_, ?_, fun hash other => ?_⟩
  · rw [← h.heard]
    exact h.within
  · have behind := ahead none (Option.some_ne_none _).symm
    rw [← h.noBlock]
    exact behind
  · have behind := ahead (some hash) fun same => other (Option.some.inj same)
    rw [h.votes] at behind
    exact behind

/-- How the chain of the peer can change in the call. -/
def Outcome (bc : Blockchain (sha256FromDataAndHash sha256)) (nPeers : Nat)
    (taken : List Message) (after : Blockchain (sha256FromDataAndHash sha256)) : Prop :=
  after = bc ∨ ∃ b, MajorityFor bc nPeers taken b ∧ after.blocks = bc.blocks ++ [b]

/-- The call is still waiting, or it has placed back what it has postponed. -/
inductive CallStage (bc : Blockchain (sha256FromDataAndHash sha256)) (n : Nat)
    (c : BlockCall sha256) : Prop where
  | waiting (f : BlockFrame) (caller : Caller) (at_ : c.peer.control = .awaitBlock f caller)
      (chain : c.peer.bc = bc) (tallied : BlockTally bc n c.taken f)
      (order : c.taken ++ c.peer.inbox = c.arrived)
  | returned (rest : List Message) (left : c.peer.control.awaiting = false)
      (order : c.taken ++ rest = c.arrived)
      (placed : c.peer.inbox = rest ++ c.taken.filter (isPostponed bc.size))
      (outcome : Outcome bc n c.taken c.peer.bc)

section CallStage

variable {powGroup : IProofOfWork Bytes Bytes} {bc : Blockchain (sha256FromDataAndHash sha256)}
  {nPeers : Nat} {c : BlockCall sha256}

theorem resume_left (caller : Caller) : caller.resume.awaiting = false := by
  cases caller <;> rfl

theorem takes_first {s : PeerState sha256} {f : BlockFrame} {caller : Caller} {msg : Message}
    {inbox : List Message} (at_ : s.control = .awaitBlock f caller)
    (asking : f.clientsSeen.length < f.nPeers) (waiting : s.inbox = msg :: inbox) :
    s.takes = [msg] := by
  unfold PeerState.takes
  rw [at_, waiting]
  exact if_pos asking

theorem takes_nothing {s : PeerState sha256} {f : BlockFrame} {caller : Caller}
    (at_ : s.control = .awaitBlock f caller)
    (none_ : s.inbox = [] ∨ ¬ f.clientsSeen.length < f.nPeers) : s.takes = [] := by
  unfold PeerState.takes
  rw [at_]
  dsimp only
  split
  · rcases none_ with empty | heard
    · rw [empty]
      rfl
    · contradiction
  · rfl

theorem stage_turn (h : CallStage bc nPeers c) (running : c.peer.control.awaiting = true) :
    CallStage bc nPeers (c.step powGroup .turn) := by
  cases h with
  | returned _ left =>
    rw [left] at running
    contradiction
  | waiting f caller at_ chain tallied order =>
    have turned := @block_turn _ powGroup c.peer (by rw [at_]; rfl)
    unfold BlockCall.step
    dsimp only [react]
    rw [List.append_nil]
    generalize (turn powGroup c.peer).1 = t at turned
    cases turned with
    | request caller before | alone caller before =>
      rw [at_] at before
      cases before
    | read f₀ g caller₀ msg before asking first same hears undecided inTime after =>
      rw [at_] at before
      cases before
      rw [chain] at hears
      rw [takes_first at_ asking first]
      refine .waiting g caller after (same.trans chain) (tallied_hears tallied asking hears) ?_
      rw [← order, first, List.append_assoc]
      rfl
    | decided f₀ g caller₀ msg inbox largestBlock before asking first hears decision placed after =>
      rw [at_] at before
      cases before
      rw [chain] at hears
      have next := tallied_hears tallied asking hears
      rw [takes_first at_ asking first]
      refine .returned inbox ?_ ?_ ?_ ?_
      · rcases after with ⟨_, _, next⟩ | ⟨_, _, _, next⟩
        · dsimp only
          rw [next, resume_left]
        · dsimp only
          rw [next]
          rfl
      · rw [← order, first, List.append_assoc]
        rfl
      · dsimp only
        rw [placed, next.postponed]
      · rcases after with ⟨_, same, _⟩ | ⟨b, rfl, grown, _⟩
        · exact Or.inl (same.trans chain)
        · have lead := decided_majority next decision
          refine Or.inr ⟨b, lead, ?_⟩
          dsimp only
          rw [grown, Blockchain.addBlock_blocks, chain, ← lead.valid.eq_sneakPeekBlock]
    | poll f₀ caller₀ before asking empty kept same inTime after =>
      rw [at_] at before
      cases before
      rw [takes_nothing at_ (Or.inl empty), List.append_nil]
      refine .waiting _ caller after (same.trans chain) ?_ (by dsimp only; rw [kept]; exact order)
      obtain ⟨index, peers, sorted, noBlock, votes, received, seen, once, within, postponed⟩ :=
        tallied
      exact ⟨index, peers, sorted, noBlock, votes, received, seen, once, within, postponed⟩
    | readLate f₀ g caller₀ msg inbox before asking first hears late same placed after =>
      rw [at_] at before
      cases before
      rw [chain] at hears
      have next := tallied_hears tallied asking hears
      rw [takes_first at_ asking first]
      refine .returned inbox (by dsimp only; rw [after]; rfl) ?_ ?_ (Or.inl (same.trans chain))
      · rw [← order, first, List.append_assoc]
        rfl
      · dsimp only
        rw [placed, next.postponed]
    | failed f₀ caller₀ before ended same placed after =>
      rw [at_] at before
      cases before
      rw [takes_nothing at_ (ended.imp_left And.left), List.append_nil]
      refine .returned c.peer.inbox (by dsimp only; rw [after]; rfl) order ?_
        (Or.inl (same.trans chain))
      dsimp only
      rw [placed, tallied.postponed]

theorem stage_step (h : CallStage bc nPeers c) (e : PeerEvent) (running : Waiting c e) :
    CallStage bc nPeers (c.step powGroup e) := by
  cases e with
  | turn => exact stage_turn h running
  | deliver msg =>
    unfold BlockCall.step
    dsimp only [react]
    cases h with
    | returned _ left =>
      rw [Waiting, left] at running
      contradiction
    | waiting f caller at_ chain tallied order =>
      rw [List.append_nil]
      refine .waiting f caller at_ chain tallied ?_
      dsimp only [deliver, PeerState.placeBack]
      rw [← order, List.append_assoc]
  | netinfo info =>
    unfold BlockCall.step
    dsimp only [react]
    rw [List.append_nil, List.append_nil]
    cases h with
    | returned _ left =>
      rw [Waiting, left] at running
      contradiction
    | waiting f caller at_ chain tallied order =>
      unfold receiveNetinfo
      split <;> exact .waiting f caller at_ chain tallied order

theorem stage_start {s : PeerState sha256} {caller : Caller}
    (calling : s.control = .requestBlockchain caller) :
    CallStage s.bc s.addressees.length (BlockCall.start powGroup s) := by
  have turned := @block_turn _ powGroup s (by rw [calling]; rfl)
  unfold BlockCall.start
  generalize (turn powGroup s).1 = t at turned
  cases turned with
  | request caller₀ before kept same others after =>
    exact .waiting _ caller₀ after same tallied_start kept
  | alone caller₀ before kept same nobody after =>
    refine .returned s.inbox ?_ rfl ?_ (Or.inl same)
    · dsimp only
      rw [after, resume_left]
    · rw [List.filter_nil, List.append_nil]
      exact kept
  | read f g caller₀ msg before | decided f g caller₀ msg inbox largestBlock before
  | poll f caller₀ before | readLate f g caller₀ msg inbox before | failed f caller₀ before =>
    rw [calling] at before
    cases before

theorem stage_request {s : PeerState sha256} {caller : Caller}
    (calling : s.control = .requestBlockchain caller) {es : List PeerEvent}
    (requests : s.Requests powGroup es) :
    CallStage s.bc s.addressees.length (s.request powGroup es) :=
  @Lts.invariant_run _ _ _ _ (CallStage s.bc s.addressees.length)
    (fun _ e h running => stage_step h e running) _ _ (stage_start calling) requests

theorem arrived_request (s : PeerState sha256) (es : List PeerEvent) :
    (s.request powGroup es).arrived = s.inbox ++ delivered es := by
  have any : ∀ c : BlockCall sha256,
      (Lts.run (BlockCall.step powGroup) c es).arrived = c.arrived ++ delivered es := by
    induction es with
    | nil => exact fun c => (List.append_nil _).symm
    | cons e es ih =>
      intro c
      rw [Lts.run, ih]
      cases e <;> simp [BlockCall.step, delivered]
  exact any _

end CallStage

/-- A call of RequestBlockchainBlock leaves the chain as it was, or makes it one block longer: by
a block that it has received and that extends the chain, with more votes than NOBLOCK and than
any other hash, even if all peers that have not answered are added to these. -/
theorem appended_block_majority {powGroup : IProofOfWork Bytes Bytes} {s : PeerState sha256}
    {caller : Caller} (calling : s.control = .requestBlockchain caller) {es : List PeerEvent}
    (requests : s.Requests powGroup es) (appended : (s.request powGroup es).peer.bc ≠ s.bc) :
    let taken := (s.request powGroup es).taken
    let log := hearings s.bc taken
    (∃ rest, taken ++ rest = s.inbox ++ delivered es) ∧
    ∃ b, (s.request powGroup es).peer.bc.blocks = s.bc.blocks ++ [b] ∧
      (∃ m ∈ taken, m.body = .block b) ∧
      b.hash = sha256FromDataAndHash sha256 b.data b.prevHash ∧ b.prevHash = s.bc.getTopHash ∧
      (voters log).card ≤ s.addressees.length ∧
      support log .noBlock + (s.addressees.length - (voters log).card) <
        support log (.block b.hash) ∧
      ∀ hash, hash ≠ b.hash →
        support log (.block hash) + (s.addressees.length - (voters log).card) <
          support log (.block b.hash) := by
  have all := @arrived_request _ powGroup s es
  cases stage_request calling requests with
  | waiting f caller at_ chain => exact absurd chain appended
  | returned rest left order placed outcome =>
    rcases outcome with same | ⟨b, lead, grown⟩
    · exact absurd same appended
    · exact ⟨⟨rest, order.trans all⟩, b, grown, lead.received, lead.valid.2, lead.valid.1,
        lead.heard, lead.noBlock, lead.others⟩

def echoNext : BType :=
  (Blockchain.new : Blockchain (sha256FromDataAndHash HashCash.echo)).sneakPeekBlock default

/-- One other peer, whose answer is a block that extends the chain. -/
def blockRequester : PeerState HashCash.echo :=
  { PeerState.ready ⟨2, 80, 0⟩ [⟨2, 80, 1⟩] Blockchain.new [] with
    inbox := [⟨⟨2, 80, 1⟩, 1, .block echoNext⟩]
    control := .requestBlockchain .refresh }

theorem only_answer_appended :
    ∃ b, (blockRequester.request (hashCash HashCash.echo 24) [.turn]).peer.bc.blocks =
        blockRequester.bc.blocks ++ [b] ∧ b.prevHash = blockRequester.bc.getTopHash := by
  have grown : (blockRequester.request (hashCash HashCash.echo 24) [.turn]).peer.bc ≠
      blockRequester.bc := by
    intro same
    have size := congrArg Blockchain.size same
    revert size
    decide +kernel
  obtain ⟨_, b, longer, _, _, link, _⟩ := @appended_block_majority _ (hashCash HashCash.echo 24)
    blockRequester .refresh rfl [.turn] (by decide +kernel) grown
  exact ⟨b, longer, link⟩

end DPS2.Application
