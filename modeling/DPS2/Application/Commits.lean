import DPS2.Application.Votes

/-! What Run commits. AddBlock only takes the data of the chosen candidate and computes both
hashes anew, so the block on the chain is the candidate if that one extends the chain. A
majority can make a candidate of a block that this peer itself found not to. -/
namespace DPS2.Application

open P2P ProofOfWork

variable {sha256 : Bytes → Bytes}

/-- A received block has won its vote, although it does not extend the chain. -/
def Overruled (s : PeerState sha256) : Prop :=
  ∃ (f : VoteFrame) (below : List VoteFrame) (read : List Message),
    s.control = .checked true f below read ∧ f.origin.own = false ∧ ¬ Extends s.bc f.reqBlock

instance (s : PeerState sha256) : Decidable (Overruled s) :=
  match hc : s.control with
  | .checked true f below read =>
    decidable_of_iff (f.origin.own = false ∧ ¬ Extends s.bc f.reqBlock)
      ⟨fun h => ⟨f, below, read, hc, h⟩, fun ⟨_, _, _, same, h⟩ => by
        cases hc.symm.trans same
        exact h⟩
  | .checked false _ _ _ | .run | .requestBlockchain _ | .awaitBlock _ _ | .handleRequest _
  | .addBlock _ | .awaitVotes _ _ _ | .majority _ _ _ | .handled _ _ _ | .handleAll _ =>
    isFalse fun ⟨_, _, _, same, _⟩ => by cases hc.symm.trans same

/-- Proposals and candidates extend the chain. -/
def commitFacts : Facts sha256 where
  message _ := True
  batch _ _ := True
  entry _ _ := True
  frame books f := f.origin.own = true → Extends books.bc f.reqBlock
  won _ _ := True
  candidate books c := Extends books.bc c.block

section Commit

variable {powGroup : IProofOfWork Bytes Bytes} {s : PeerState sha256}

theorem commitFacts_closed (valid : ¬ Overruled s) : Closed powGroup commitFacts s where
  request _ _ _ _ received := by simp [VoteFrame.start, Origin.own] at received
  proposal ts _ _ _ := sneakPeekBlock_extends s.bc ts
  vote f m agree hash hf _ _ _ own := by
    obtain ⟨origin, block, _⟩ := countVote_same f m.peerAddress agree hash
    rw [origin] at own
    rw [block]
    exact hf own
  waiting _ _ _ hf := hf
  won _ _ _ := trivial
  accepted f below read hc hf _ := by
    cases own : f.origin.own with
    | true => exact hf own
    | false =>
      by_contra broken
      exact valid ⟨f, below, read, hc, own, broken⟩
  entry _ _ _ _ _ _ := trivial
  front _ _ _ := trivial
  grown _ _ _ := trivial

theorem commitFacts_react (e : PeerEvent) (valid : e = .turn → ¬ Overruled s)
    (h : Holds commitFacts s) : Holds commitFacts (react powGroup s e) := by
  cases e with
  | turn => exact turn_holds (commitFacts_closed (valid rfl)) h
  | deliver msg => exact deliver_holds h trivial
  | netinfo info => exact netinfo_holds h info

theorem commit_extends {read : List Message} {best : Candidate}
    (hc : s.control = .handleAll read) (drained : s.inbox = [])
    (lowest : lowestHash s.addblockCandidates = some best) (valid : Extends s.bc best.block) :
    (turn powGroup s).1.bc.blocks = s.bc.blocks ++ [best.block] ∧
      (turn powGroup s).1.bc.getTopHash = best.block.hash := by
  have grown : (turn powGroup s).1.bc = s.bc.addBlock best.block.data := by
    simp only [turn, hc, handleAllBlockAdditionRequests, drained, commit, lowest]
    rfl
  have same := valid.eq_sneakPeekBlock
  rw [grown, Blockchain.addBlock_blocks, Blockchain.getTopHash_addBlock, ← same]
  refine ⟨rfl, ?_⟩
  rw [valid.2, valid.1]

end Commit

/-- In a run in which no vote overrules the peer's own checks, every commit appends the
chosen candidate itself. -/
theorem committed_is_voted (powGroup : IProofOfWork Bytes Bytes) (ownPa : PeerAddress)
    (info : List PeerAddress) (bc : Blockchain (sha256FromDataAndHash sha256))
    (transactions : List Transactions) (es : List PeerEvent)
    (valid : Lts.Throughout (react powGroup) (fun s e => e = .turn → ¬ Overruled s)
      (.ready ownPa info bc transactions) es)
    (s : PeerState sha256)
    (reached : s = Lts.run (react powGroup) (.ready ownPa info bc transactions) es)
    (read : List Message) (best : Candidate) (hc : s.control = .handleAll read)
    (drained : s.inbox = []) (lowest : lowestHash s.addblockCandidates = some best) :
    (turn powGroup s).1.bc.blocks = s.bc.blocks ++ [best.block] ∧
      (turn powGroup s).1.bc.getTopHash = best.block.hash := by
  have inv : Holds commitFacts s := by
    rw [reached]
    exact Lts.invariant_run (fun _ e h valid => commitFacts_react e valid h)
      (ready_holds ownPa info bc transactions) valid
  exact commit_extends hc drained lowest (inv.candidates best (lowestHash_mem lowest))

/-- A peer commits the block of another one, after a vote of that peer. -/
theorem received_block_commit :
    let powGroup := hashCash HashCash.squeeze 24
    let bc : Blockchain (sha256FromDataAndHash HashCash.squeeze) := Blockchain.new
    let es := otherProposes ++ [.turn, .deliver ⟨⟨2, 80, 1⟩, 1, .vote true otherRequest.block.hash⟩,
      .turn, .turn, .turn, .turn]
    let s := Lts.run (react powGroup) (.ready ⟨2, 80, 0⟩ [] bc []) es
    (turn powGroup s).1.bc.blocks = s.bc.blocks ++ [otherRequest.block] ∧
      (turn powGroup s).1.bc.getTopHash = otherRequest.block.hash :=
  committed_is_voted _ ⟨2, 80, 0⟩ [] Blockchain.new [] _ (by decide +kernel) _ rfl []
    ⟨otherRequest.block, false⟩ (by decide +kernel) (by decide +kernel) (by decide +kernel)

/-- Two agree votes from other peers commit a block that was voted under the hash [1] and
has no prev_hash: the block on the chain has the top hash as its prev_hash. -/
theorem overruled_commit_differs :
    let powGroup := hashCash HashCash.echo 24
    let bc : Blockchain (sha256FromDataAndHash HashCash.echo) := Blockchain.new
    let broken : BType := ⟨default, [1], []⟩
    let es := [.netinfo [⟨2, 80, 0⟩, ⟨2, 80, 1⟩, ⟨2, 80, 2⟩], .turn, .turn,
      .deliver ⟨⟨2, 80, 1⟩, 1, .noBlock⟩, .turn,
      .deliver ⟨⟨2, 80, 1⟩, 1, .addRequest [1] broken⟩, .turn, .turn,
      .deliver ⟨⟨2, 80, 1⟩, 1, .noBlock⟩, .turn, .turn,
      .deliver ⟨⟨2, 80, 1⟩, 1, .vote true [1]⟩, .turn, .turn,
      .deliver ⟨⟨2, 80, 2⟩, 1, .vote true [1]⟩, .turn, .turn, .turn, .turn]
    let s := Lts.run (react powGroup) (.ready ⟨2, 80, 0⟩ [] bc []) es
    s.control = .handleAll [] ∧ s.inbox = [] ∧
      lowestHash s.addblockCandidates = some ⟨broken, false⟩ ∧
      (turn powGroup s).1.bc.blocks.length = s.bc.blocks.length + 1 ∧
      (turn powGroup s).1.bc.getTopHash ≠ broken.hash := by
  exact ⟨rfl, rfl, rfl, by decide +kernel, by decide +kernel⟩

end DPS2.Application
