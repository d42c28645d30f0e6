import DPS2.Network.Agreement
import DPS2.Network.Batches

/-! Proof of work across the network. RequestBlockchain checks no key. Still every block that is
added was proposed with a key that solves its problem, since the peers that agreed to it checked. -/
namespace DPS2.Network

open P2P ProofOfWork Application

variable {sha256 : Bytes → Bytes} {n : Nat}

section Facts

variable (sha256) (powGroup : IProofOfWork Bytes Bytes) (record : List (Fin n × Message))

/-- The block was requested for this index with a key that solves its problem. -/
def Mined (index : Nat) (b : BType) : Prop :=
  ∃ p ∈ record, ∃ pow, p.2.index = index ∧ p.2.body = .addRequest pow b ∧
    powGroup.checkSolution (sha256FromBlock sha256 b) pow = true

/-- Requests were broadcast, and the block that a peer proposes is mined. -/
def minedFacts : Facts sha256 where
  message m :=
    match m.body with
    | .addRequest _ _ => ∃ j, (j, m) ∈ record
    | _ => True
  batch _ _ := True
  entry _ _ := True
  frame _ f := ∀ index pow, f.origin = .addBlockToBlockchain index pow →
    Proposed sha256 f.reqBlock ∧ Mined sha256 powGroup record index f.reqBlock
  won _ _ := True
  candidate _ _ := True

/-- Agree votes were given to mined blocks. -/
def MinedVotes : Prop :=
  ∀ i vote, Agreed record i vote → ∃ b, Proposed sha256 b ∧ b.hash = vote.2 ∧
    Mined sha256 powGroup record vote.1 b

end Facts

/-- Whatever the batch and the chain, SolveProblem finds a key. -/
def Solves (sha256 : Bytes → Bytes) (powGroup : IProofOfWork Bytes Bytes) : Prop :=
  ∀ (bc : Blockchain (sha256FromDataAndHash sha256)) (ts : Transactions),
    powGroup.checkSolution (sha256FromBlock sha256 (bc.sneakPeekBlock ts))
      (powGroup.solveProblem (sha256FromBlock sha256 (bc.sneakPeekBlock ts))) = true

section Peer

variable {powGroup : IProofOfWork Bytes Bytes} {s : PeerState sha256}
  {record record' : List (Fin n × Message)} {i : Fin n} {index : Nat} {b : BType}

theorem Mined.mono (more : record ⊆ record') (h : Mined sha256 powGroup record index b) :
    Mined sha256 powGroup record' index b := by
  obtain ⟨p, member, rest⟩ := h
  exact ⟨p, more member, rest⟩

theorem minedFacts_mono (more : record ⊆ record')
    (h : Application.Holds (minedFacts sha256 powGroup record) s) :
    Application.Holds (minedFacts sha256 powGroup record') s := by
  refine h.imp (fun m hm => ?_) (fun _ batch => batch) (fun _ entry => entry)
    (fun f hf index pow origin => ?_) (fun _ won => won) (fun _ candidate => candidate)
  · simp only [minedFacts] at hm ⊢
    split at hm
    · obtain ⟨j, member⟩ := hm
      exact ⟨j, more member⟩
    · trivial
  · obtain ⟨proposed, mined⟩ := hf index pow origin
    exact ⟨proposed, mined.mono more⟩

theorem minedFacts_closed (solves : Solves sha256 powGroup)
    (sent : ∀ m, .broadcast m ∈ (turn powGroup s).2 → (i, m) ∈ record) :
    Closed powGroup (minedFacts sha256 powGroup record) s where
  request _ _ _ _ _ _ origin := by cases origin
  proposal ts hc _ := by
    intro index pow origin
    cases origin
    have requested : .broadcast (ownRequest powGroup s.ownPa s.bc ts).toMessage ∈
        (turn powGroup s).2 := by
      simp only [turn, hc]
      exact List.mem_singleton.mpr rfl
    exact ⟨⟨s.bc, sneakPeekBlock_extends s.bc ts⟩, _, sent _ requested, _, rfl, rfl,
      solves s.bc ts⟩
  vote f m agree hash hf _ _ _ := by
    obtain ⟨origin, same, _⟩ := countVote_same f m.peerAddress agree hash
    simp only [minedFacts, origin, same]
    exact hf
  waiting _ _ _ hf := hf
  won _ _ _ := trivial
  accepted _ _ _ _ _ _ := trivial
  entry _ _ _ _ _ _ := trivial
  front _ _ _ := trivial
  grown _ _ _ := trivial

theorem no_request_responded {m : Message} {pa : PeerAddress} {pow : Bytes}
    (body : m.body = .addRequest pow b) : .respond m pa ∉ (turn powGroup s).2 := by
  intro sent
  have emitted := turn_emits _ sent
  generalize output : Output.respond m pa = o at emitted
  cases emitted with
  | answer msg =>
    unfold sendBlockchain at output
    split at output
    · cases output
      cases body
    · cases output
      cases body
  | request | proposal | vote | closing => contradiction

/-- A peer agrees to what it has checked, or has proposed itself. -/
theorem vote_mined (h : Application.Holds (minedFacts sha256 powGroup record) s) {m : Message}
    (sent : .broadcast m ∈ (turn powGroup s).2) {vote : Nat × Bytes}
    (agrees : agreesTo m = some vote) :
    ∃ b, Proposed sha256 b ∧ b.hash = vote.2 ∧ Mined sha256 powGroup record vote.1 b := by
  have emitted := turn_emits _ sent
  generalize output : Output.broadcast m = o at emitted
  cases emitted with
  | request | proposal =>
    cases output
    contradiction
  | answer msg =>
    unfold sendBlockchain at output
    split at output <;> contradiction
  | vote r allowAgree inTime taken =>
    cases output
    unfold agreesTo at agrees
    split at agrees
    · rename_i hash body
      obtain ⟨agree, rfl⟩ := Body.vote.inj body
      cases agrees
      obtain ⟨_, extends_, solved, _⟩ := (voteOn_iff powGroup s.bc r allowAgree).mp agree
      have requested : ∃ j, (j, r.toMessage) ∈ record := by
        rcases taken with waiting | hc
        · exact h.inbox _ waiting
        · have held := h.control
          rw [hc] at held
          exact held
      obtain ⟨j, member⟩ := requested
      exact ⟨r.block, ⟨s.bc, extends_⟩, rfl, _, member, r.pow, rfl, rfl, solved⟩
    · contradiction
  | closing result f below read index pow hc origin =>
    cases output
    unfold agreesTo at agrees
    split at agrees
    · rename_i hash body
      obtain ⟨_, rfl⟩ := Body.vote.inj body
      cases agrees
      have held := h.control
      rw [hc] at held
      obtain ⟨proposed, mined⟩ := held.2.1.1 index pow origin
      exact ⟨f.reqBlock, proposed, rfl, mined⟩
    · contradiction

end Peer

section Run

variable {powGroup : IProofOfWork Bytes Bytes} {net : State sha256 n}
  {first : Blockchain (sha256FromDataAndHash sha256)} {ownPa : Fin n → PeerAddress} {i : Fin n}

structure AllMined (powGroup : IProofOfWork Bytes Bytes) (net : State sha256 n) : Prop where
  holds : Holds (fun _ => minedFacts sha256 powGroup net.record) net
  votes : MinedVotes sha256 powGroup net.record

theorem mined_turn (solves : Solves sha256 powGroup) (inv : AllMined powGroup net) :
    AllMined powGroup (step powGroup net (.turn i)) := by
  have more : net.record ⊆ net.recordAfter powGroup i := recordAfter_more
  have sent : ∀ m, .broadcast m ∈ (turn powGroup (net.peers i)).2 →
      (i, m) ∈ net.recordAfter powGroup i := recordAfter_sent
  have holds : Holds (fun _ => minedFacts sha256 powGroup (net.recordAfter powGroup i)) net := by
    refine ⟨fun j => minedFacts_mono more (inv.holds.peers j), fun p member => ?_⟩
    have before := inv.holds.flight p member
    simp only [minedFacts] at before ⊢
    split at before
    · obtain ⟨j, old⟩ := before
      exact ⟨j, more old⟩
    · trivial
  constructor
  · refine holds_step holds (.turn i) (fun j same => ?_) (fun j same o emitted p posted => ?_)
    · cases same
      exact minedFacts_closed solves sent
    · cases same
      simp only [minedFacts]
      split
      · rename_i pow b body
        rcases mem_post posted with ⟨rfl, _⟩ | ⟨pa, rfl, _⟩
        · exact ⟨i, sent _ emitted⟩
        · exact absurd emitted (no_request_responded body)
      · trivial
  · rintro j vote ⟨p, member, rfl, agrees⟩
    rcases List.mem_append.mp member with old | new
    · obtain ⟨b, proposed, hash, mined⟩ := inv.votes p.1 vote ⟨p, old, rfl, agrees⟩
      exact ⟨b, proposed, hash, mined.mono more⟩
    · obtain ⟨o, emitted, noted⟩ := List.mem_flatMap.mp new
      obtain ⟨_, rfl⟩ := noted_iff.mp noted
      exact vote_mined (holds.peers i) emitted agrees

theorem mined_still {e : Event n} (still : ∀ i, e ≠ .turn i) (inv : AllMined powGroup net) :
    AllMined powGroup (step powGroup net e) := by
  have record : (step powGroup net e).record = net.record := record_still still
  constructor
  · rw [record]
    exact holds_step inv.holds e (fun i same => absurd same (still i))
      (fun i same => absurd same (still i))
  · rw [record]
    exact inv.votes

theorem mined_step (solves : Solves sha256 powGroup) (e : Event n) (inv : AllMined powGroup net) :
    AllMined powGroup (step powGroup net e) := by
  cases e with
  | turn i => exact mined_turn solves inv
  | deliver | lose | netinfo => exact mined_still (by simp) inv

theorem mined_start (batches : Fin n → List Transactions) (info : Fin n → List PeerAddress) :
    AllMined powGroup (start fun i => .ready (ownPa i) (info i) first (batches i)) := by
  refine ⟨⟨fun i => ready_holds _ _ _ _, by simp [start]⟩, ?_⟩
  rintro i vote ⟨p, member, _⟩
  cases member

/-- A block of a certified chain is one that a majority agreed to. -/
theorem certified_block {record : List (Fin n × Message)}
    {bc : Blockchain (sha256FromDataAndHash sha256)} (h : Certified first record bc) {k : Nat}
    {b : BType} (new : first.size ≤ k) (found : bc.getBlockFromIndex k = some b) :
    Quorum.Supported (Agreed record) (k, b.hash) := by
  induction h with
  | start =>
    have below := Blockchain.getBlockFromIndex_lt found
    omega
  | @grow bc data before supported ih =>
    by_cases inside : k < bc.size
    · rw [Blockchain.getBlockFromIndex, Blockchain.addBlock_blocks,
        List.getElem?_append_left inside] at found
      exact ih found
    · have below := Blockchain.getBlockFromIndex_lt found
      rw [Blockchain.size_addBlock] at below
      have last : k = bc.blocks.length := by
        unfold Blockchain.size at inside below
        omega
      rw [Blockchain.getBlockFromIndex, Blockchain.addBlock_blocks, last,
        List.getElem?_concat_length] at found
      rw [← Option.some.inj found, last]
      exact supported

/-- In a run in which no peer agrees to two blocks of one index, every block that is added to any
chain, be it by a vote or by synchronisation, was proposed by a peer at this index with a key that
solves its problem. -/
theorem blocks_mined (powGroup : IProofOfWork Bytes Bytes) (free : CollisionFree sha256)
    (solves : Solves sha256 powGroup) (ownPa : Fin n → PeerAddress)
    (distinct : Function.Injective ownPa)
    (first : Blockchain (sha256FromDataAndHash sha256)) (batches : Fin n → List Transactions)
    (info : Fin n → List PeerAddress) (listed : ∀ i, Listed ownPa (info i)) (es : List (Event n))
    (run : Lts.Throughout (step powGroup)
      (fun net e => e.Listed ownPa ∧ ¬ VotesTwice powGroup net e)
      (start fun i => .ready (ownPa i) (info i) first (batches i)) es) (net : State sha256 n)
    (reached : net = Lts.run (step powGroup)
      (start fun i => .ready (ownPa i) (info i) first (batches i)) es)
    (i : Fin n) (k : Nat) (b : BType) (new : first.size ≤ k)
    (found : (net.peers i).bc.getBlockFromIndex k = some b) :
    Mined sha256 powGroup net.record k b := by
  have inv : Agrees first ownPa net ∧ AllMined powGroup net := by
    rw [reached]
    exact @Lts.invariant_run _ _ _ _ (fun net => Agrees first ownPa net ∧ AllMined powGroup net)
      (fun _ e inv cond => ⟨agrees_step free distinct e cond.1 cond.2 inv.1,
        mined_step solves e inv.2⟩) _ _
      ⟨agrees_start batches listed, mined_start batches info⟩ run
  have supported := certified_block (inv.1.certified i) new found
  obtain ⟨voter, agreed, _⟩ := Quorum.common_voter supported supported
  obtain ⟨c, ⟨bc, extends_⟩, hash, mined⟩ := inv.2.votes voter _ agreed
  -- a block is determined by its hash
  obtain ⟨_, made⟩ := Blockchain.upTo_succ found
  rw [made, extends_.eq_sneakPeekBlock] at hash
  obtain ⟨chain, data⟩ := Blockchain.sneakPeekBlock_hash free.chain hash
  have same : c = b := by
    rw [made, extends_.eq_sneakPeekBlock, chain, data]
  rw [← same]
  exact mined

/-- The first of three peers has given up on its batch and fetches the block from the two others,
which have accepted it. -/
def fetchedBack : List (Event 3) := List.flatten [
  acceptedByOthers, List.replicate 35 (.turn 0),
  [.deliver 0, .deliver 0, .turn 1, .turn 2, .deliver 10, .deliver 10, .turn 0, .turn 0]]

theorem fetched_block_mined :
    let powGroup := hashCash HashCash.stamp 24
    let net : State HashCash.stamp 3 := Lts.run (step powGroup)
      (start fun i => .ready (address i) (members 3) .new (firstBatch i)) fetchedBack
    let new : Blockchain (sha256FromDataAndHash HashCash.stamp) := .new
    Mined HashCash.stamp powGroup net.record 1 (new.sneakPeekBlock (repeated 1)) :=
  blocks_mined (hashCash HashCash.stamp 24) stamp_collisionFree stamp_proposal_solved address
    (by decide) .new firstBatch (fun _ => members 3) (by decide) fetchedBack (by decide +kernel)
    _ rfl 0 1 _ (by decide) (by decide +kernel)

end Run

end DPS2.Network
