import DPS2.Application.Votes
import DPS2.Network.Network
import DPS2.Quorum.Majority

/-! Agreement. A committed block was agreed to by a majority of the peers, so chains can
only fork at an index at which some peer agreed to two blocks. The handling of the
requests that are left in the inbox lets a peer do that. -/
namespace DPS2.Network

open P2P ProofOfWork Application

variable {sha256 : Bytes → Bytes} {n : Nat}

/-- The index and the hash that an agree vote is for. -/
def agreesTo (m : Message) : Option (Nat × Bytes) :=
  match m.body with
  | .vote true hash => some (m.index, hash)
  | _ => none

def Agreed (record : List (Fin n × Message)) (i : Fin n) (vote : Nat × Bytes) : Prop :=
  ∃ p ∈ record, p.1 = i ∧ agreesTo p.2 = some vote

/-- Two agree votes of one peer for different hashes at one index. -/
def Conflict (p q : Fin n × Message) : Prop :=
  p.1 = q.1 ∧ ∃ v ∈ agreesTo p.2, ∃ w ∈ agreesTo q.2, v.1 = w.1 ∧ v ≠ w

/-- In this turn the peer agrees to another block than the one it agreed to before. -/
def VotesTwice (powGroup : IProofOfWork Bytes Bytes) (net : State sha256 n) : Event n → Prop
  | .turn i => ∃ p ∈ (turn powGroup (net.peers i)).2.flatMap (noted i),
      ∃ q ∈ net.record, Conflict p q
  | _ => False

instance (p q : Fin n × Message) : Decidable (Conflict p q) :=
  inferInstanceAs (Decidable (_ ∧ _))

instance (powGroup : IProofOfWork Bytes Bytes) (net : State sha256 n) (e : Event n) :
    Decidable (VotesTwice powGroup net e) :=
  match e with
  | .turn i => inferInstanceAs (Decidable (∃ p ∈ (turn powGroup (net.peers i)).2.flatMap (noted i),
      ∃ q ∈ net.record, Conflict p q))
  | .deliver _ | .lose _ | .netinfo _ _ => isFalse not_false

/-- The network information names every peer once. -/
def Listed (ownPa : Fin n → PeerAddress) (info : List PeerAddress) : Prop :=
  info.Perm ((List.finRange n).map ownPa)

instance (ownPa : Fin n → PeerAddress) (info : List PeerAddress) : Decidable (Listed ownPa info) :=
  inferInstanceAs (Decidable (List.Perm _ _))

def Event.Listed (ownPa : Fin n → PeerAddress) : Event n → Prop
  | .netinfo _ info => Network.Listed ownPa info
  | _ => True

instance (ownPa : Fin n → PeerAddress) (e : Event n) : Decidable (e.Listed ownPa) :=
  match e with
  | .netinfo _ info => inferInstanceAs (Decidable (Network.Listed ownPa info))
  | .turn _ | .deliver _ | .lose _ => isTrue trivial

/-- No fork: where two chains both have a block, it is the same one. -/
def Agreement (net : State sha256 n) : Prop :=
  ∀ i j k, k < (net.peers i).bc.size → k < (net.peers j).bc.size →
    (net.peers i).bc.getBlockFromIndex k = (net.peers j).bc.getBlockFromIndex k

/- Certified chains. -/

/-- What an agree vote for the next block of a chain says. -/
def nextVote (bc : Blockchain (sha256FromDataAndHash sha256)) (data : Transactions) :
    Nat × Bytes := (bc.size, (bc.sneakPeekBlock data).hash)

/-- Every block after the start chain has a majority of recorded votes. -/
abbrev Certified (first : Blockchain (sha256FromDataAndHash sha256))
    (record : List (Fin n × Message)) (bc : Blockchain (sha256FromDataAndHash sha256)) : Prop :=
  Quorum.Certified Blockchain.addBlock nextVote (Agreed record) first bc

abbrev SingleVote (record : List (Fin n × Message)) : Prop :=
  Quorum.Single Prod.fst (Agreed record)

section Certificates

variable {record record' : List (Fin n × Message)}
  {first bc cc : Blockchain (sha256FromDataAndHash sha256)}

theorem agreed_mono (more : record ⊆ record') (i : Fin n) (vote : Nat × Bytes)
    (h : Agreed record i vote) : Agreed record' i vote := by
  obtain ⟨p, member, agreed⟩ := h
  exact ⟨p, more member, agreed⟩

theorem nextVote_inj (free : CollisionFree sha256) (x y : Transactions)
    (same : nextVote bc x = nextVote cc y) : bc = cc ∧ x = y :=
  Blockchain.sneakPeekBlock_hash free.chain (congrArg Prod.snd same)

theorem certified_unique (free : CollisionFree sha256) (single : SingleVote record)
    (hb : Certified first record bc) (hc : Certified first record cc)
    (same : bc.size = cc.size) : bc = cc :=
  Quorum.Certified.unique Blockchain.size Prod.fst Blockchain.size_addBlock (fun _ _ => rfl)
    (fun _ x _ y => nextVote_inj free x y) single hb hc same

theorem certified_upTo (h : Certified first record bc) {k : Nat} (lower : first.size ≤ k)
    (upper : k ≤ bc.size) : Certified first record (bc.upTo k) := by
  induction h with
  | start =>
    have whole : k = first.size := Nat.le_antisymm upper lower
    rw [whole, Blockchain.upTo_size]
    exact .start
  | @grow bc data before supported ih =>
    by_cases whole : k = (bc.addBlock data).size
    · rw [whole, Blockchain.upTo_size]
      exact .grow data before supported
    · have inside : k ≤ bc.size := by
        rw [Blockchain.size_addBlock] at upper whole
        omega
      rw [Blockchain.upTo_addBlock data inside]
      exact ih inside

theorem first_le_certified (h : Certified first record bc) : first.size ≤ bc.size :=
  h.start_le Blockchain.size Blockchain.size_addBlock

theorem certified_agree (free : CollisionFree sha256) (single : SingleVote record)
    (hb : Certified first record bc) (hc : Certified first record cc) {k : Nat}
    (inB : k < bc.size) (inC : k < cc.size) :
    bc.getBlockFromIndex k = cc.getBlockFromIndex k := by
  have firstB := first_le_certified hb
  have firstC := first_le_certified hc
  generalize length : min bc.size cc.size = m
  have shortB : m ≤ bc.size := by omega
  have shortC : m ≤ cc.size := by omega
  have cut : bc.upTo m = cc.upTo m := by
    refine certified_unique free single (certified_upTo hb (by omega) shortB)
      (certified_upTo hc (by omega) shortC) ?_
    rw [Blockchain.size_upTo shortB, Blockchain.size_upTo shortC]
  have below : k < m := by omega
  rw [← Blockchain.getBlockFromIndex_upTo below, cut, Blockchain.getBlockFromIndex_upTo below]

/-- A block of a certified chain that continues another one keeps it certified. -/
theorem certified_next (free : CollisionFree sha256) (hb : Certified first record bc)
    (hc : Certified first record cc) {k : Nat} {b : BType}
    (found : cc.getBlockFromIndex k = some b) (prev : b.prevHash = bc.getTopHash) :
    Certified first record (bc.addBlock b.data) := by
  obtain ⟨longer, made⟩ := Blockchain.upTo_succ found
  have below := Blockchain.getBlockFromIndex_lt found
  rw [made] at prev
  have same := Blockchain.sneakPeekBlock_prevHash free.chain prev
  have size : k = bc.size := by
    rw [← same, Blockchain.size_upTo (Nat.le_of_lt below)]
  have start := first_le_certified hb
  rw [← same, ← longer]
  exact certified_upTo hc (by omega) below

end Certificates

/- Votes that are being counted. -/

/-- A and D are the peers whose agree and disagree votes peer i has counted so far. Its own
agree vote for its own proposal is broadcast later. -/
structure Tally (record : List (Fin n × Message)) (ownPa : Fin n → PeerAddress) (i : Fin n)
    (index : Nat) (f : VoteFrame) (A D : Finset (Fin n)) : Prop where
  apart : Disjoint A D
  agrees : A.card = f.nAgrees
  disagrees : D.card = f.nDisagrees
  seen : A.card + D.card = f.clientsSeen.length + 1
  voters : ∀ j, j ∈ A ∨ j ∈ D ↔ j = i ∨ ownPa j ∈ f.clientsSeen
  voted : ∀ j ∈ A, Agreed record j (index, f.reqBlock.hash) ∨ j = i ∧ f.origin.own = true

section Counting

variable {record record' : List (Fin n × Message)} {ownPa : Fin n → PeerAddress} {i : Fin n}
  {index : Nat} {f : VoteFrame} {A D : Finset (Fin n)}

theorem Tally.mono (more : record ⊆ record') (h : Tally record ownPa i index f A D) :
    Tally record' ownPa i index f A D where
  apart := h.apart
  agrees := h.agrees
  disagrees := h.disagrees
  seen := h.seen
  voters := h.voters
  voted j member := (h.voted j member).imp_left (agreed_mono more j _)

theorem tally_start (origin : Origin) (b : BType) (nPeers : Nat) (ownVote : Bool)
    (voted : ownVote = true → Agreed record i (index, b.hash) ∨ origin.own = true) :
    ∃ A D, Tally record ownPa i index (VoteFrame.start origin b nPeers ownVote) A D := by
  cases ownVote with
  | true => exact ⟨{i}, ∅, by simp, by simp [VoteFrame.start], by simp [VoteFrame.start],
      by simp [VoteFrame.start], by simp [VoteFrame.start], fun j member => by
        rw [Finset.mem_singleton.mp member]
        exact (voted rfl).imp_right fun own => ⟨rfl, own⟩⟩
  | false => exact ⟨∅, {i}, by simp, by simp [VoteFrame.start], by simp [VoteFrame.start],
      by simp [VoteFrame.start], by simp [VoteFrame.start], by simp⟩

theorem tally_count (distinct : Function.Injective ownPa) {j : Fin n} (other : j ≠ i)
    {agree : Bool} {hash : Bytes} (voted : agree = true → Agreed record j (index, hash))
    (h : ∃ A D, Tally record ownPa i index f A D) :
    ∃ A D, Tally record ownPa i index (f.countVote (ownPa j) agree hash) A D := by
  obtain ⟨A, D, h⟩ := h
  unfold VoteFrame.countVote
  split
  · exact ⟨A, D, h⟩
  · rename_i unseen
    split
    · rename_i same
      rw [clientFound_iff] at unseen
      have absent : ¬ (j ∈ A ∨ j ∈ D) := fun counted =>
        ((h.voters j).mp counted).elim other unseen
      rw [not_or] at absent
      have seen := h.seen
      cases agree with
      | true =>
        refine ⟨insert j A, D, ?_, ?_, h.disagrees, ?_, fun k => ?_, fun k member => ?_⟩
        · exact Finset.disjoint_insert_left.mpr ⟨absent.2, h.apart⟩
        · simp [Finset.card_insert_of_notMem absent.1, h.agrees]
        · simp only [Finset.card_insert_of_notMem absent.1, List.length_append,
            List.length_singleton]
          omega
        · simp only [Finset.mem_insert, List.mem_append, List.mem_singleton, distinct.eq_iff]
          rw [or_assoc, h.voters k, or_comm, or_assoc]
        · rcases Finset.mem_insert.mp member with rfl | old
          · rw [← same]
            exact Or.inl (voted rfl)
          · exact h.voted k old
      | false =>
        refine ⟨A, insert j D, ?_, h.agrees, ?_, ?_, fun k => ?_, h.voted⟩
        · exact Finset.disjoint_insert_right.mpr ⟨absent.1, h.apart⟩
        · simp [Finset.card_insert_of_notMem absent.2, h.disagrees]
        · simp only [Finset.card_insert_of_notMem absent.2, List.length_append,
            List.length_singleton]
          omega
        · simp only [Finset.mem_insert, List.mem_append, List.mem_singleton, distinct.eq_iff]
          rw [or_left_comm, h.voters k, or_comm, or_assoc]
    · exact ⟨A, D, h⟩

theorem Tally.majority (h : Tally record ownPa i index f A D) (peers : f.nPeers = n)
    (wins : f.Wins) : Quorum.Majority A := by
  have total : (A ∪ D).card ≤ n := by simpa using Finset.card_le_univ (A ∪ D)
  rw [Finset.card_union_of_disjoint h.apart] at total
  have seen := h.seen
  have agrees := h.agrees
  have disagrees := h.disagrees
  unfold Quorum.Majority
  rw [Fintype.card_fin]
  rcases wins with most | ⟨all, more⟩ <;> omega

end Counting

/- What holds of each peer. -/

def Proposed (sha256 : Bytes → Bytes) (b : BType) : Prop :=
  ∃ bc : Blockchain (sha256FromDataAndHash sha256), Extends bc b

section Facts

variable (first : Blockchain (sha256FromDataAndHash sha256)) (ownPa : Fin n → PeerAddress)
  (record : List (Fin n × Message))

/-- Votes were broadcast by the peer they name, and not by the receiver; requested blocks
have right hashes; blocks that are sent come from certified chains. -/
def agreementFacts (i : Fin n) : Facts sha256 where
  message m :=
    match m.body with
    | .vote agree hash => ∃ j, j ≠ i ∧ m.peerAddress = ownPa j ∧
        (agree = true → Agreed record j (m.index, hash))
    | .addRequest _ b => Proposed sha256 b
    | .block b => ∃ bc k, Certified first record bc ∧ bc.getBlockFromIndex k = some b
    | _ => True
  batch _ _ := True
  entry books b := Certified first record (books.bc.addBlock b.data)
  frame books f := f.nPeers = n ∧ Proposed sha256 f.reqBlock ∧
    (∀ index pow, f.origin = .addBlockToBlockchain index pow →
      index = books.bc.size ∧ Extends books.bc f.reqBlock) ∧
    ∃ A D, Tally record ownPa i books.bc.size f A D
  won _ f := f.Wins
  candidate books c := Certified first record (books.bc.addBlock c.block.data)

/-- Agree votes were given to the next block of a certified chain. -/
def ValidVotes : Prop :=
  ∀ i vote, Agreed record i vote → ∃ bc data, Certified first record bc ∧ vote = nextVote bc data

structure Agrees (net : State sha256 n) : Prop where
  holds : Holds (agreementFacts first ownPa net.record) net
  own : ∀ i, (net.peers i).ownPa = ownPa i
  listed : ∀ i, Listed ownPa (net.peers i).networkInfo
  certified : ∀ i, Certified first net.record (net.peers i).bc
  valid : ValidVotes first net.record
  single : SingleVote net.record

end Facts

section Peer

variable {powGroup : IProofOfWork Bytes Bytes} {s : PeerState sha256}
  {first : Blockchain (sha256FromDataAndHash sha256)} {ownPa : Fin n → PeerAddress}
  {record record' : List (Fin n × Message)} {i : Fin n}

theorem addressees_length (distinct : Function.Injective ownPa) (own : s.ownPa = ownPa i)
    (listed : Listed ownPa s.networkInfo) : s.addressees.length + 1 = n := by
  have nodup : s.networkInfo.Nodup :=
    listed.nodup_iff.mpr ((List.nodup_finRange n).map distinct)
  have member : s.ownPa ∈ s.networkInfo :=
    listed.mem_iff.mpr (List.mem_map.mpr ⟨i, List.mem_finRange i, own.symm⟩)
  have once : s.networkInfo.countP (fun pa => cmpPeerAddress pa s.ownPa) = 1 := by
    rw [← List.count_eq_one_of_mem nodup member, List.count]
    congr 1
    funext pa
    rw [Bool.eq_iff_iff, cmpPeerAddress_iff, beq_iff_eq]
  have parts : s.networkInfo.length = _ :=
    List.length_eq_countP_add_countP (fun pa => cmpPeerAddress pa s.ownPa)
  have length : s.networkInfo.length = n := by
    rw [listed.length_eq, List.length_map, List.length_finRange]
  have rest : s.addressees.length =
      s.networkInfo.countP (fun pa => decide (¬ cmpPeerAddress pa s.ownPa = true)) := by
    rw [PeerState.addressees, ← List.countP_eq_length_filter]
    simp
  omega

theorem message_mono (more : record ⊆ record') (m : Message)
    (h : (agreementFacts first ownPa record i).message m) :
    (agreementFacts first ownPa record' i).message m := by
  simp only [agreementFacts] at h ⊢
  split at h
  · obtain ⟨j, other, address, voted⟩ := h
    exact ⟨j, other, address, fun agree => agreed_mono more _ _ (voted agree)⟩
  · exact h
  · obtain ⟨bc, k, chain, found⟩ := h
    exact ⟨bc, k, chain.mono (agreed_mono more), found⟩
  · trivial

theorem agreementFacts_mono (more : record ⊆ record')
    (h : Application.Holds (agreementFacts first ownPa record i) s) :
    Application.Holds (agreementFacts first ownPa record' i) s := by
  have certified : ∀ bc, Certified first record bc → Certified first record' bc :=
    fun bc => Quorum.Certified.mono (agreed_mono more)
  refine h.imp (message_mono more) (fun _ batch => batch) (fun _ entry => certified _ entry) ?_
    (fun _ won => won) (fun _ candidate => certified _ candidate)
  rintro f ⟨peers, block, proposal, A, D, tally⟩
  exact ⟨peers, block, proposal, A, D, tally.mono more⟩

/-- A block that a majority agreed to continues the chain, also if this peer did not
find so. -/
theorem supported_next (free : CollisionFree sha256) (single : SingleVote record)
    (valid : ValidVotes first record) (certified : Certified first record s.bc) {b : BType}
    (block : Proposed sha256 b)
    (supported : Quorum.Supported (Agreed record) (s.bc.size, b.hash)) :
    Certified first record (s.bc.addBlock b.data) := by
  obtain ⟨voter, agreed, _⟩ := Quorum.common_voter supported supported
  obtain ⟨bc, data, chain, vote⟩ := valid voter _ agreed
  obtain ⟨size, hash⟩ := Prod.mk.inj vote
  have same : s.bc = bc := certified_unique free single certified chain size
  obtain ⟨base, extends_⟩ := block
  have made := extends_.eq_sneakPeekBlock
  rw [made] at hash
  obtain ⟨rfl, rfl⟩ := Blockchain.sneakPeekBlock_hash free.chain hash
  refine .grow b.data certified ?_
  rw [nextVote, same, ← made]
  rw [same] at supported
  exact supported

theorem agreementFacts_closed (free : CollisionFree sha256) (distinct : Function.Injective ownPa)
    (own : s.ownPa = ownPa i) (listed : Listed ownPa s.networkInfo)
    (certified : Certified first record s.bc) (valid : ValidVotes first record)
    (single : SingleVote record)
    (sent : ∀ m, .broadcast m ∈ (turn powGroup s).2 → (i, m) ∈ record) :
    Closed powGroup (agreementFacts first ownPa record i) s where
  request r received inTime voted := by
    refine ⟨addressees_length distinct own listed, received, by simp [VoteFrame.start], ?_⟩
    refine tally_start _ _ _ _ fun agree => Or.inl ?_
    have current : s.bc.size ≤ r.index := ((voteOn_iff powGroup s.bc r true).mp agree).1
    refine ⟨_, sent _ voted, rfl, ?_⟩
    rw [agree]
    simp only [agreesTo, Nat.le_antisymm inTime current, PeerState.books]
  proposal ts _ _ := by
    refine ⟨addressees_length distinct own listed, ⟨s.bc, sneakPeekBlock_extends s.bc ts⟩, ?_, ?_⟩
    · rintro index pow same
      cases same
      exact ⟨rfl, sneakPeekBlock_extends s.bc ts⟩
    · exact tally_start _ _ _ _ fun _ => Or.inr rfl
  vote f m agree hash hf received body current := by
    obtain ⟨peers, block, proposal, tally⟩ := hf
    obtain ⟨origin, same, nPeers⟩ := countVote_same f m.peerAddress agree hash
    simp only [agreementFacts, body] at received
    obtain ⟨j, other, address, voted⟩ := received
    refine ⟨nPeers.trans peers, ?_, ?_, ?_⟩
    · rw [same]
      exact block
    · rw [origin, same]
      exact proposal
    · rw [address]
      rw [current] at voted
      exact tally_count distinct other voted tally
  waiting f tries readMessages hf := by
    obtain ⟨peers, block, proposal, A, D, tally⟩ := hf
    exact ⟨peers, block, proposal, A, D, tally.apart, tally.agrees, tally.disagrees, tally.seen,
      tally.voters, tally.voted⟩
  won f _ wins := wins
  accepted f below read hc hf wins := by
    obtain ⟨peers, block, proposal, A, D, tally⟩ := hf
    refine supported_next free single valid certified block
      ⟨A, tally.majority peers wins, fun j member => ?_⟩
    rcases tally.voted j member with agreed | ⟨rfl, mine⟩
    · exact agreed
    · -- the proposer's own vote is broadcast in this turn
      cases origin : f.origin with
      | handleBlockAdditionRequest agree => simp [origin, Origin.own] at mine
      | addBlockToBlockchain index pow =>
        obtain ⟨current, _⟩ := proposal index pow origin
        refine ⟨(j, ⟨s.ownPa, index, .vote true f.reqBlock.hash⟩), sent _ ?_, rfl, ?_⟩
        · simp [turn, hc, checked, origin]
        · simp only [agreesTo, current]
          rfl
  entry m b received body _ prev := by
    simp only [agreementFacts, body] at received
    obtain ⟨bc, k, chain, found⟩ := received
    exact certified_next free certified chain found prev
  front _ _ _ := trivial
  grown _ _ _ := trivial

theorem chain_turn (closed : Closed powGroup (agreementFacts first ownPa record i) s)
    (h : Application.Holds (agreementFacts first ownPa record i) s)
    (certified : Certified first record s.bc) :
    Certified first record (turn powGroup s).1.bc := by
  have turned := turn_books closed h
  have same : (turn powGroup s).1.bc = (turn powGroup s).1.books.bc := rfl
  rw [same]
  generalize (turn powGroup s).1.books = after at turned ⊢
  cases turned with
  | same => exact certified
  | synchronised b requested received => exact received
  | committed read best hc drained lowest => exact h.candidates best (lowestHash_mem lowest)

theorem sent_fine (own : s.ownPa = ownPa i) (certified : Certified first record s.bc)
    (sent : ∀ m, .broadcast m ∈ (turn powGroup s).2 → (i, m) ∈ record) {j : Fin n} {m : Message}
    (h : .broadcast m ∈ (turn powGroup s).2 ∧ j ≠ i ∨
      ∃ pa, .respond m pa ∈ (turn powGroup s).2) :
    (agreementFacts first ownPa record j).message m := by
  have voted : ∀ (index : Nat) (agree : Bool) (hash : Bytes),
      .broadcast ⟨s.ownPa, index, .vote agree hash⟩ ∈ (turn powGroup s).2 → j ≠ i →
      (agreementFacts first ownPa record j).message ⟨s.ownPa, index, .vote agree hash⟩ := by
    intro index agree hash broadcast other
    refine ⟨i, other.symm, own, ?_⟩
    rintro rfl
    exact ⟨_, sent _ broadcast, rfl, rfl⟩
  rcases h with ⟨broadcast, other⟩ | ⟨pa, responded⟩
  · have emitted := turn_emits _ broadcast
    generalize output : Output.broadcast m = o at emitted
    cases emitted with
    | request =>
      cases output
      trivial
    | answer msg =>
      unfold sendBlockchain at output
      split at output <;> contradiction
    | proposal ts hc =>
      cases output
      exact ⟨s.bc, sneakPeekBlock_extends s.bc ts⟩
    | vote | closing =>
      cases output
      exact voted _ _ _ broadcast other
  · have emitted := turn_emits _ responded
    generalize output : Output.respond m pa = o at emitted
    cases emitted with
    | answer msg =>
      unfold sendBlockchain at output
      split at output
      · rename_i b found
        cases output
        exact ⟨s.bc, msg.index, certified, found⟩
      · cases output
        trivial
    | request | proposal | vote | closing => contradiction

theorem vote_next (h : Application.Holds (agreementFacts first ownPa record i) s) {m : Message}
    (sent : .broadcast m ∈ (turn powGroup s).2) {vote : Nat × Bytes}
    (agrees : agreesTo m = some vote) : ∃ data, vote = nextVote s.bc data := by
  have emitted := turn_emits _ sent
  generalize output : Output.broadcast m = o at emitted
  cases emitted with
  | request | proposal =>
    cases output
    contradiction
  | answer msg =>
    unfold sendBlockchain at output
    split at output <;> contradiction
  | vote r allowAgree inTime taken =>
    cases output
    unfold agreesTo at agrees
    split at agrees
    · rename_i hash body
      obtain ⟨agree, rfl⟩ := Body.vote.inj body
      obtain ⟨current, extends_, _⟩ := (voteOn_iff powGroup s.bc r allowAgree).mp agree
      cases agrees
      refine ⟨r.block.data, ?_⟩
      rw [nextVote, ← extends_.eq_sneakPeekBlock, Nat.le_antisymm inTime current]
    · contradiction
  | closing result f below read index pow hc origin =>
    cases output
    unfold agreesTo at agrees
    split at agrees
    · rename_i hash body
      obtain ⟨_, rfl⟩ := Body.vote.inj body
      cases agrees
      have held := h.control
      rw [hc] at held
      obtain ⟨_, _, proposal, _⟩ := held.2.1.1
      obtain ⟨rfl, extends_⟩ := proposal index pow origin
      have made : f.reqBlock = s.bc.sneakPeekBlock f.reqBlock.data := extends_.eq_sneakPeekBlock
      refine ⟨f.reqBlock.data, ?_⟩
      rw [nextVote, ← made]
      rfl
    · contradiction

end Peer

section Run

variable {powGroup : IProofOfWork Bytes Bytes} {net : State sha256 n}
  {first : Blockchain (sha256FromDataAndHash sha256)} {ownPa : Fin n → PeerAddress} {i : Fin n}

def State.recordAfter (powGroup : IProofOfWork Bytes Bytes) (net : State sha256 n) (i : Fin n) :
    List (Fin n × Message) :=
  net.record ++ (turn powGroup (net.peers i)).2.flatMap (noted i)

theorem noted_iff {o : Output} {p : Fin n × Message} :
    p ∈ noted i o ↔ p.1 = i ∧ o = .broadcast p.2 := by
  obtain ⟨j, m⟩ := p
  cases o with
  | broadcast m' => simp [noted, eq_comm, and_comm]
  | respond m' pa => simp [noted]

theorem noted_one {p q : Fin n × Message}
    (hp : p ∈ (turn powGroup (net.peers i)).2.flatMap (noted i))
    (hq : q ∈ (turn powGroup (net.peers i)).2.flatMap (noted i)) : p = q := by
  obtain ⟨o, sent, notedP⟩ := List.mem_flatMap.mp hp
  obtain ⟨o', sent', notedQ⟩ := List.mem_flatMap.mp hq
  have same : o = o' := by
    have one : (turn powGroup (net.peers i)).2.length ≤ 1 := turn_sends.1
    generalize (turn powGroup (net.peers i)).2 = out at one sent sent'
    match out, one with
    | [], _ => contradiction
    | [only], _ => exact (List.mem_singleton.mp sent).trans (List.mem_singleton.mp sent').symm
  obtain ⟨senderP, rfl⟩ := noted_iff.mp notedP
  obtain ⟨senderQ, output⟩ := noted_iff.mp notedQ
  exact Prod.ext (senderP.trans senderQ.symm) (Output.broadcast.inj (same.trans output))

theorem single_after (single : SingleVote net.record) (once : ¬ VotesTwice powGroup net (.turn i)) :
    SingleVote (net.recordAfter powGroup i) := by
  -- a new vote against an old one
  have apart : ∀ j v w, (∃ p ∈ (turn powGroup (net.peers i)).2.flatMap (noted i), p.1 = j ∧
      agreesTo p.2 = some v) → Agreed net.record j w → v.1 = w.1 → v = w := by
    rintro j v w ⟨p, new, rfl, votedP⟩ ⟨q, old, sender, votedQ⟩ slot
    by_contra other
    exact once ⟨p, new, q, old, sender.symm, v, votedP, w, votedQ, slot, other⟩
  rintro j v w ⟨p, hp, senderP, votedP⟩ ⟨q, hq, senderQ, votedQ⟩ slot
  rcases List.mem_append.mp hp with oldP | newP
  · rcases List.mem_append.mp hq with oldQ | newQ
    · exact single j v w ⟨p, oldP, senderP, votedP⟩ ⟨q, oldQ, senderQ, votedQ⟩ slot
    · exact (apart j w v ⟨q, newQ, senderQ, votedQ⟩ ⟨p, oldP, senderP, votedP⟩ slot.symm).symm
  · rcases List.mem_append.mp hq with oldQ | newQ
    · exact apart j v w ⟨p, newP, senderP, votedP⟩ ⟨q, oldQ, senderQ, votedQ⟩ slot
    · rw [noted_one newP newQ, votedQ] at votedP
      exact (Option.some.inj votedP).symm

theorem recordAfter_more : net.record ⊆ net.recordAfter powGroup i :=
  fun _ old => List.mem_append_left _ old

theorem recordAfter_sent (m : Message) (sent : .broadcast m ∈ (turn powGroup (net.peers i)).2) :
    (i, m) ∈ net.recordAfter powGroup i :=
  List.mem_append_right _ (List.mem_flatMap.mpr ⟨_, sent, noted_iff.mpr ⟨rfl, rfl⟩⟩)

theorem valid_after (inv : Agrees first ownPa net) :
    ValidVotes first (net.recordAfter powGroup i) := by
  have certified : ∀ bc, Certified first net.record bc →
      Certified first (net.recordAfter powGroup i) bc :=
    fun bc => Quorum.Certified.mono (agreed_mono recordAfter_more)
  rintro j vote ⟨p, member, rfl, voted⟩
  rcases List.mem_append.mp member with old | new
  · obtain ⟨bc, data, chain, next⟩ := inv.valid p.1 vote ⟨p, old, rfl, voted⟩
    exact ⟨bc, data, certified bc chain, next⟩
  · obtain ⟨o, sent, noted⟩ := List.mem_flatMap.mp new
    obtain ⟨_, rfl⟩ := noted_iff.mp noted
    obtain ⟨data, next⟩ := vote_next (inv.holds.peers i) sent voted
    exact ⟨_, data, certified _ (inv.certified i), next⟩

theorem agrees_turn (free : CollisionFree sha256) (distinct : Function.Injective ownPa)
    (once : ¬ VotesTwice powGroup net (.turn i)) (inv : Agrees first ownPa net) :
    Agrees first ownPa (step powGroup net (.turn i)) := by
  have single := single_after inv.single once
  have valid : ValidVotes first (net.recordAfter powGroup i) := valid_after inv
  have certified : ∀ j, Certified first (net.recordAfter powGroup i) (net.peers j).bc :=
    fun j => (inv.certified j).mono (agreed_mono recordAfter_more)
  have sent : ∀ m, .broadcast m ∈ (turn powGroup (net.peers i)).2 →
      (i, m) ∈ net.recordAfter powGroup i := recordAfter_sent
  have holds : Holds (agreementFacts first ownPa (net.recordAfter powGroup i)) net :=
    ⟨fun j => agreementFacts_mono recordAfter_more (inv.holds.peers j),
      fun p member => message_mono recordAfter_more p.2 (inv.holds.flight p member)⟩
  have closed : Closed powGroup
      (agreementFacts first ownPa (net.recordAfter powGroup i) i) (net.peers i) :=
    agreementFacts_closed free distinct (inv.own i) (inv.listed i) (certified i) valid single sent
  have identity : (turn powGroup (net.peers i)).1.identity = (net.peers i).identity :=
    turn_identity
  obtain ⟨ownSame, listedSame, _⟩ : _ ∧ _ ∧ _ := by
    simpa only [PeerState.identity, Prod.mk.injEq] using identity
  refine ⟨?_, update_all (fun i s => s.ownPa = ownPa i) inv.own (ownSame.trans (inv.own i)),
    update_all (fun _ s => Listed ownPa s.networkInfo) inv.listed (listedSame ▸ inv.listed i),
    update_all (fun _ s => Certified first _ s.bc) certified ?_, valid, single⟩
  · refine holds_step holds (.turn i) (fun j same => ?_) (fun j same o emitted p posted => ?_)
    · cases same
      exact closed
    · cases same
      refine sent_fine (inv.own i) (certified i) sent ?_
      rcases mem_post posted with ⟨rfl, _⟩ | ⟨pa, rfl, _⟩
      · exact Or.inl ⟨emitted, (broadcast_ne_sender posted).2⟩
      · exact Or.inr ⟨pa, emitted⟩
  · exact chain_turn closed (holds.peers i) (certified i)

theorem record_still {e : Event n} (still : ∀ i, e ≠ .turn i) :
    (step powGroup net e).record = net.record := by
  cases e with
  | turn i => exact absurd rfl (still i)
  | deliver k =>
    unfold step
    simp only
    split <;> rfl
  | lose | netinfo => rfl

theorem agrees_still {e : Event n} (still : ∀ i, e ≠ .turn i) (listed : e.Listed ownPa)
    (inv : Agrees first ownPa net) : Agrees first ownPa (step powGroup net e) := by
  have record : (step powGroup net e).record = net.record := record_still still
  have peers : ∀ j, ((step powGroup net e).peers j).ownPa = ownPa j ∧
      Listed ownPa ((step powGroup net e).peers j).networkInfo ∧
      Certified first net.record ((step powGroup net e).peers j).bc :=
    step_all (fun i s => s.ownPa = ownPa i ∧ Listed ownPa s.networkInfo ∧
      Certified first net.record s.bc) (fun j => ⟨inv.own j, inv.listed j, inv.certified j⟩) e
    (fun i same => absurd same (still i)) (fun j m => ⟨inv.own j, inv.listed j, inv.certified j⟩)
    (fun i info same => by
      rw [same] at listed
      unfold receiveNetinfo
      split <;> exact ⟨inv.own i, listed, inv.certified i⟩)
  constructor
  · rw [record]
    exact holds_step inv.holds e (fun i same => absurd same (still i))
      (fun i same => absurd same (still i))
  · exact fun j => (peers j).1
  · exact fun j => (peers j).2.1
  · rw [record]
    exact fun j => (peers j).2.2
  · rw [record]
    exact inv.valid
  · rw [record]
    exact inv.single

theorem agrees_step (free : CollisionFree sha256) (distinct : Function.Injective ownPa)
    (e : Event n) (listed : e.Listed ownPa) (once : ¬ VotesTwice powGroup net e)
    (inv : Agrees first ownPa net) : Agrees first ownPa (step powGroup net e) := by
  cases e with
  | turn i => exact agrees_turn free distinct once inv
  | deliver | lose | netinfo => exact agrees_still (by simp) listed inv

theorem agrees_start (batches : Fin n → List Transactions) {info : Fin n → List PeerAddress}
    (listed : ∀ i, Listed ownPa (info i)) :
    Agrees first ownPa (start fun i => .ready (ownPa i) (info i) first (batches i)) where
  holds := ⟨fun i => ready_holds _ _ _ _, by simp [start]⟩
  own _ := rfl
  listed := listed
  certified _ := .start
  valid := by
    rintro i vote ⟨p, member, _⟩
    cases member
  single := by
    rintro i v w ⟨p, member, _⟩
    cases member

theorem Agrees.agreement (free : CollisionFree sha256) (inv : Agrees first ownPa net) :
    Agreement net :=
  fun i j _ inI inJ => certified_agree free inv.single (inv.certified i) (inv.certified j) inI inJ

end Run

/-- In a run in which no peer agrees to two blocks of one index, no chains fork, whatever
is lost and whoever gives up. -/
theorem chains_agree (powGroup : IProofOfWork Bytes Bytes) (free : CollisionFree sha256)
    (ownPa : Fin n → PeerAddress) (distinct : Function.Injective ownPa)
    (first : Blockchain (sha256FromDataAndHash sha256)) (batches : Fin n → List Transactions)
    (info : Fin n → List PeerAddress) (listed : ∀ i, Listed ownPa (info i)) (es : List (Event n))
    (run : Lts.Throughout (step powGroup)
      (fun net e => e.Listed ownPa ∧ ¬ VotesTwice powGroup net e)
      (start fun i => .ready (ownPa i) (info i) first (batches i)) es) :
    Agreement (Lts.run (step powGroup)
      (start fun i => .ready (ownPa i) (info i) first (batches i)) es) := by
  have inv : Agrees first ownPa (Lts.run (step powGroup)
      (start fun i => .ready (ownPa i) (info i) first (batches i)) es) :=
    Lts.invariant_run (fun _ e inv cond => agrees_step free distinct e cond.1 cond.2 inv)
      (agrees_start batches listed) run
  exact inv.agreement free

/- Three peers, of which the first two propose at the same time. -/

def twoBatches (i : Fin 3) : List Transactions :=
  if i = 0 then [repeated 1] else if i = 1 then [repeated 2] else []

def threePeers : State HashCash.squeeze 3 :=
  start fun i => .ready (address i) (members 3) .new (twoBatches i)

def secondCommits : List (Event 3) := List.flatten [
  online, [.turn 0, .turn 0, .deliver 1, .turn 0, .turn 0],
  [.turn 1, .turn 1, .deliver 1, .turn 1, .turn 1],
  [.deliver 8, .turn 2, .turn 2, .deliver 0, .turn 2, .turn 2],
  [.deliver 10, .turn 1, .turn 1, .turn 1, .turn 1]]

/-- The third peer accepts that block too. Before it commits, it finds the request of the
first peer in its inbox and agrees to it as well. -/
def firstCommits : List (Event 3) := List.flatten [
  secondCommits, [.deliver 11, .deliver 3, .turn 2, .turn 2, .turn 2, .turn 2, .turn 2],
  [.deliver 10, .turn 0, .turn 0, .turn 0, .turn 0]]

theorem second_commits_agree :
    Agreement (Lts.run (step (hashCash HashCash.squeeze 24)) threePeers secondCommits) :=
  chains_agree (hashCash HashCash.squeeze 24) squeeze_collisionFree address (by decide) .new
    twoBatches (fun _ => members 3) (by decide) secondCommits (by decide +kernel)

theorem two_votes_fork :
    ¬ Agreement (Lts.run (step (hashCash HashCash.squeeze 24)) threePeers firstCommits) := by
  intro agreement
  have fork : let net := Lts.run (step (hashCash HashCash.squeeze 24)) threePeers firstCommits
      1 < (net.peers 0).bc.size ∧ 1 < (net.peers 1).bc.size ∧
        (net.peers 0).bc.getBlockFromIndex 1 ≠ (net.peers 1).bc.getBlockFromIndex 1 := by
    decide +kernel
  exact fork.2.2 (agreement 0 1 1 fork.1 fork.2.1)

end DPS2.Network
