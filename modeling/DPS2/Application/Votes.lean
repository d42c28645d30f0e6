import DPS2.Application.Effects
import DPS2.Lts.Run

/-! The votes of one peer in an arbitrary environment: whatever arrives, and in whatever
order, it agrees only to blocks that extend its own chain. -/
namespace DPS2.Application

open P2P ProofOfWork

variable {sha256 : Bytes → Bytes}

/-- The block continues the chain: its prev_hash is the top hash, and its hash is right. -/
def Extends (bc : Blockchain (sha256FromDataAndHash sha256)) (b : BType) : Prop :=
  b.prevHash = bc.getTopHash ∧ b.hash = sha256FromDataAndHash sha256 b.data b.prevHash

instance (bc : Blockchain (sha256FromDataAndHash sha256)) (b : BType) : Decidable (Extends bc b) :=
  inferInstanceAs (Decidable (_ ∧ _))

theorem sneakPeekBlock_extends (bc : Blockchain (sha256FromDataAndHash sha256))
    (data : Transactions) : Extends bc (bc.sneakPeekBlock data) := ⟨rfl, rfl⟩

theorem Extends.eq_sneakPeekBlock {bc : Blockchain (sha256FromDataAndHash sha256)} {b : BType}
    (h : Extends bc b) : b = bc.sneakPeekBlock b.data := by
  obtain ⟨data, hash, prevHash⟩ := b
  obtain ⟨prev, right⟩ := h
  simp only at prev right
  subst prev right
  rfl

/-- sha256 is injective and its results are not empty. -/
structure CollisionFree (sha256 : Bytes → Bytes) : Prop where
  injective : Function.Injective sha256
  nonempty : ∀ x, sha256 x ≠ []

theorem CollisionFree.chain (h : CollisionFree sha256) :
    HashChain.NoCollisions (sha256FromDataAndHash sha256) default where
  injective x y p q same := by
    have strings := h.injective same
    obtain ⟨bytes, rest⟩ := List.append_inj strings (x.size.trans y.size.symm)
    obtain ⟨_, _⟩ := x
    obtain ⟨_, _⟩ := y
    simp only at bytes
    subst bytes
    exact ⟨rfl, rest⟩
  fresh x p := h.nonempty (x.bytes ++ p)

theorem echo_collisionFree : CollisionFree HashCash.echo where
  injective _ _ same := List.append_cancel_right same
  nonempty x := by simp [HashCash.echo]

theorem squeeze_collisionFree : CollisionFree HashCash.squeeze where
  injective := HashCash.squeeze_injective
  nonempty x := by
    unfold HashCash.squeeze
    split <;> simp

theorem stamp_collisionFree : CollisionFree HashCash.stamp where
  injective := HashCash.stamp_injective
  nonempty x := by simp [HashCash.stamp]

theorem voteOn_iff (powGroup : IProofOfWork Bytes Bytes)
    (bc : Blockchain (sha256FromDataAndHash sha256)) (r : AdditionRequest) (allowAgree : Bool) :
    voteOn powGroup bc r allowAgree = true ↔
      bc.size ≤ r.index ∧ Extends bc r.block ∧
        powGroup.checkSolution (sha256FromBlock sha256 r.block) r.pow = true ∧
        allowAgree = true := by
  unfold voteOn Extends
  simp only
  split
  · rename_i outdated
    simp only [Bool.false_eq_true, false_iff]
    omega
  · rename_i inTime
    split
    · rename_i prev
      simp [prev]
    · split
      · rename_i hash
        simp [hash]
      · rename_i prev hash
        rw [ne_eq, not_not] at prev hash
        split
        · rename_i unsolved
          simp [unsolved]
        · rename_i solved
          rw [Bool.not_eq_false] at solved
          exact ⟨fun allowed => ⟨Nat.le_of_not_lt inTime, ⟨prev, hash⟩, solved, allowed⟩,
            fun h => h.2.2.2⟩

def delivered : List PeerEvent → List Message
  | [] => []
  | .deliver msg :: es => msg :: delivered es
  | _ :: es => delivered es

def ownRequest (powGroup : IProofOfWork Bytes Bytes) (ownPa : PeerAddress)
    (bc : Blockchain (sha256FromDataAndHash sha256)) (ts : Transactions) : AdditionRequest :=
  ⟨ownPa, bc.size, powGroup.solveProblem (sha256FromBlock sha256 (bc.sneakPeekBlock ts)),
    bc.sneakPeekBlock ts⟩

/-- Stored messages come from D; a proposal is the peer's own request for a batch of T. -/
def voteFacts (powGroup : IProofOfWork Bytes Bytes) (D : List Message) (T : List Transactions) :
    Facts sha256 where
  message m := m ∈ D
  batch _ ts := ts ∈ T
  entry _ _ := True
  frame books f :=
    match f.origin with
    | .addBlockToBlockchain index pow =>
        index = books.bc.size ∧ ∃ ts ∈ T, f.reqBlock = books.bc.sneakPeekBlock ts ∧
          pow = powGroup.solveProblem (sha256FromBlock sha256 (books.bc.sneakPeekBlock ts))
    | .handleBlockAdditionRequest _ => True
  won _ _ := True
  candidate _ _ := True

section Safety

variable {powGroup : IProofOfWork Bytes Bytes} {D : List Message} {T : List Transactions}
  {s : PeerState sha256}

theorem countVote_same (f : VoteFrame) (pa : PeerAddress) (agree : Bool) (hash : Bytes) :
    (f.countVote pa agree hash).origin = f.origin ∧
      (f.countVote pa agree hash).reqBlock = f.reqBlock ∧
      (f.countVote pa agree hash).nPeers = f.nPeers := by
  unfold VoteFrame.countVote
  split
  · exact ⟨rfl, rfl, rfl⟩
  · split <;> exact ⟨rfl, rfl, rfl⟩

theorem voteFacts_closed (pending : ∀ ts ∈ s.transactions, ts ∈ T) :
    Closed powGroup (voteFacts powGroup D T) s where
  request _ _ _ _ := trivial
  proposal ts _ batch := ⟨rfl, ts, batch, rfl, rfl⟩
  vote f m agree hash hf _ _ _ := by
    obtain ⟨origin, block, _⟩ := countVote_same f m.peerAddress agree hash
    simp only [voteFacts, origin, block] at hf ⊢
    exact hf
  waiting _ _ _ hf := hf
  won _ _ _ := trivial
  accepted _ _ _ _ _ _ := trivial
  entry _ _ _ _ _ _ := trivial
  front ts rest h := pending ts (by simp [h])
  grown _ _ h := h

theorem transactions_turn {F : Facts sha256} (closed : Closed powGroup F s) (h : Holds F s) :
    ∀ ts ∈ (turn powGroup s).1.transactions, ts ∈ s.transactions := by
  intro ts member
  have turned := turn_books closed h
  generalize books : (turn powGroup s).1.books = after at turned
  have same : (turn powGroup s).1.transactions = after.transactions := by rw [← books]; rfl
  rw [same] at member
  cases turned with
  | same => exact member
  | synchronised => exact member
  | committed read best _ _ _ =>
    simp only at member
    split at member
    · exact List.mem_of_mem_tail member
    · exact member

theorem voteFacts_react (e : PeerEvent) (arrived : ∀ msg, e = .deliver msg → msg ∈ D)
    (inv : Holds (voteFacts powGroup D T) s ∧ ∀ ts ∈ s.transactions, ts ∈ T) :
    Holds (voteFacts powGroup D T) (react powGroup s e) ∧
      ∀ ts ∈ (react powGroup s e).transactions, ts ∈ T := by
  obtain ⟨h, pending⟩ := inv
  cases e with
  | turn =>
    have closed : Closed powGroup (voteFacts powGroup D T) s := voteFacts_closed pending
    exact ⟨turn_holds closed h, fun ts member => pending ts (transactions_turn closed h ts member)⟩
  | deliver msg => exact ⟨deliver_holds h (arrived msg rfl), pending⟩
  | netinfo info =>
    refine ⟨netinfo_holds h info, ?_⟩
    unfold react receiveNetinfo
    simp only
    split <;> exact pending

theorem delivered_throughout (es : List PeerEvent) (sub : ∀ m ∈ delivered es, m ∈ D)
    (s : PeerState sha256) : Lts.Throughout (react powGroup)
      (fun _ e => ∀ msg, e = .deliver msg → msg ∈ D) s es := by
  induction es generalizing s with
  | nil => trivial
  | cons e es ih =>
    cases e with
    | deliver msg =>
      refine ⟨fun m same => ?_, ih (fun m member => sub m (by simp [delivered, member])) _⟩
      cases same
      exact sub msg (by simp [delivered])
    | turn | netinfo => exact ⟨by simp, ih sub _⟩

end Safety

/-- Every agree vote that a peer broadcasts, in any state it can reach, names a block
that extends its chain and whose key solves the problem. -/
theorem agree_votes_valid (powGroup : IProofOfWork Bytes Bytes) (ownPa : PeerAddress)
    (info : List PeerAddress) (bc : Blockchain (sha256FromDataAndHash sha256))
    (transactions : List Transactions)
    (solved : ∀ ts ∈ transactions, ∀ bc' : Blockchain (sha256FromDataAndHash sha256),
      powGroup.checkSolution (sha256FromBlock sha256 (bc'.sneakPeekBlock ts))
        (powGroup.solveProblem (sha256FromBlock sha256 (bc'.sneakPeekBlock ts))) = true)
    (es : List PeerEvent) (s : PeerState sha256)
    (reached : s = Lts.run (react powGroup) (.ready ownPa info bc transactions) es)
    (vote : Message) (hash : Bytes) (sent : .broadcast vote ∈ (turn powGroup s).2)
    (agrees : vote.body = .vote true hash) :
    vote.index = s.bc.size ∧ ∃ r : AdditionRequest, r.index = vote.index ∧ r.block.hash = hash ∧
      Extends s.bc r.block ∧
      powGroup.checkSolution (sha256FromBlock sha256 r.block) r.pow = true ∧
      (r.toMessage ∈ delivered es ∨
        ∃ ts ∈ transactions, r = ownRequest powGroup s.ownPa s.bc ts) := by
  have inv : Holds (voteFacts powGroup (delivered es) transactions) s ∧
      ∀ ts ∈ s.transactions, ts ∈ transactions := by
    rw [reached]
    exact @Lts.invariant_run _ _ _ _ (fun s => Holds (voteFacts powGroup (delivered es)
        transactions) s ∧ ∀ ts ∈ s.transactions, ts ∈ transactions)
      (fun _ e inv arrived => voteFacts_react e arrived inv) _ _
      ⟨ready_holds ownPa info bc transactions, fun ts member => member⟩
      (delivered_throughout es (fun m member => member) _)
  have emitted := turn_emits _ sent
  generalize output : Output.broadcast vote = o at emitted
  cases emitted with
  | request =>
    cases output
    contradiction
  | answer msg =>
    unfold sendBlockchain at output
    split at output <;> contradiction
  | proposal ts hc =>
    cases output
    contradiction
  | vote r allowAgree inTime taken =>
    cases output
    simp only [Body.vote.injEq] at agrees
    obtain ⟨agree, rfl⟩ := agrees
    obtain ⟨current, extends_, key, _⟩ := (voteOn_iff powGroup s.bc r allowAgree).mp agree
    have arrived : r.toMessage ∈ delivered es := by
      rcases taken with waiting | hc
      · exact inv.1.inbox _ waiting
      · have held := inv.1.control
        rw [hc] at held
        exact held
    exact ⟨Nat.le_antisymm inTime current, r, rfl, rfl, extends_, key, Or.inl arrived⟩
  | closing result f below read index pow hc origin =>
    cases output
    simp only [Body.vote.injEq] at agrees
    obtain ⟨_, rfl⟩ := agrees
    have held := inv.1.control
    rw [hc] at held
    obtain ⟨_, ⟨own, _⟩, _⟩ := held
    simp only [voteFacts, origin] at own
    obtain ⟨rfl, ts, member, block, _⟩ := own
    refine ⟨rfl, ownRequest powGroup s.ownPa s.bc ts, rfl, ?_, sneakPeekBlock_extends s.bc ts,
      solved ts member s.bc, Or.inr ⟨ts, member, rfl⟩⟩
    rw [block]
    rfl

theorem echo_proposal_solved (bc : Blockchain (sha256FromDataAndHash HashCash.echo))
    (ts : Transactions) :
    (hashCash HashCash.echo 24).checkSolution
      (sha256FromBlock HashCash.echo (bc.sneakPeekBlock ts))
      ((hashCash HashCash.echo 24).solveProblem
        (sha256FromBlock HashCash.echo (bc.sneakPeekBlock ts))) = true := by
  have long : 3 ≤ (sha256FromBlock HashCash.echo (bc.sneakPeekBlock ts)).length := by
    have size := (bc.sneakPeekBlock ts).data.size
    simp only [sha256FromBlock, HashCash.echo, List.length_append]
    omega
  simp only [hashCash, HashCash.echo_solved long, HashCash.echo_solves long]

theorem stamp_proposal_solved (bc : Blockchain (sha256FromDataAndHash HashCash.stamp))
    (ts : Transactions) :
    (hashCash HashCash.stamp 24).checkSolution
      (sha256FromBlock HashCash.stamp (bc.sneakPeekBlock ts))
      ((hashCash HashCash.stamp 24).solveProblem
        (sha256FromBlock HashCash.stamp (bc.sneakPeekBlock ts))) = true := by
  have solved := HashCash.stamp_solves ((bc.sneakPeekBlock ts).data.bytes ++
    (bc.sneakPeekBlock ts).hash ++ (bc.sneakPeekBlock ts).prevHash)
  simp only [hashCash, sha256FromBlock, HashCash.solveProblem_one _ _ _ solved, solved]

/- A request of one of two other peers arrives at a peer that has only the first block. -/

def otherRequest : AdditionRequest :=
  @ownRequest HashCash.squeeze (hashCash HashCash.squeeze 24) ⟨2, 80, 1⟩ Blockchain.new default

def otherProposes : List PeerEvent :=
  [.netinfo [⟨2, 80, 0⟩, ⟨2, 80, 1⟩, ⟨2, 80, 2⟩], .turn, .turn,
    .deliver ⟨⟨2, 80, 1⟩, 1, .noBlock⟩, .turn, .deliver otherRequest.toMessage, .turn, .turn,
    .deliver ⟨⟨2, 80, 1⟩, 1, .noBlock⟩, .turn]

theorem received_request_vote_valid :
    let powGroup := hashCash HashCash.squeeze 24
    let bc : Blockchain (sha256FromDataAndHash HashCash.squeeze) := Blockchain.new
    let s := Lts.run (react powGroup) (.ready ⟨2, 80, 0⟩ [] bc []) otherProposes
    1 = s.bc.size ∧ ∃ r : AdditionRequest, r.index = 1 ∧ r.block.hash = otherRequest.block.hash ∧
      Extends s.bc r.block ∧
      powGroup.checkSolution (sha256FromBlock HashCash.squeeze r.block) r.pow = true ∧
      (r.toMessage ∈ delivered otherProposes ∨
        ∃ ts ∈ [], r = ownRequest powGroup s.ownPa s.bc ts) :=
  agree_votes_valid (hashCash HashCash.squeeze 24) ⟨2, 80, 0⟩ [] Blockchain.new []
    (List.forall_mem_nil _) otherProposes _ rfl
    ⟨⟨2, 80, 0⟩, 1, .vote true otherRequest.block.hash⟩ _ (by decide +kernel) rfl

end DPS2.Application
