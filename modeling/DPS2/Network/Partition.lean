import DPS2.Application.Majority
import DPS2.Application.Waiting
import DPS2.Network.Network

/-! A partition of the network. Peers that hear from nobody outside a group, and list at least twice
as many peers as the group has, neither add a block nor give up a batch, whatever the messages
say. -/
namespace DPS2.Network

open P2P ProofOfWork Application

variable {sha256 : Bytes → Bytes} {n : Nat}

/-- Votes are only counted for addresses that are heard, once for each. -/
def partitionFacts (sha256 : Bytes → Bytes) (heard : Finset PeerAddress) : Facts sha256 where
  message m := m.peerAddress ∈ heard
  batch _ _ := True
  entry _ _ := True
  frame _ f := f.clientsSeen.Nodup ∧ (∀ pa ∈ f.clientsSeen, pa ∈ heard) ∧
    f.nAgrees ≤ f.clientsSeen.length + 1 ∧ 2 * heard.card + 1 < f.nPeers
  won _ _ := False
  candidate _ _ := False

/-- So are answers while synchronising. -/
structure Polls (heard : Finset PeerAddress) (f : BlockFrame) : Prop where
  once : f.clientsSeen.Nodup
  senders : ∀ pa ∈ f.clientsSeen, pa ∈ heard
  counts : ∀ e ∈ f.messages, e.2 ≤ f.clientsSeen.length
  asked : 2 * heard.card < f.nPeers

/-- The peer knows more than twice as many others as it hears, or is not online yet. -/
structure Outnumbered (heard : Finset PeerAddress) (s : PeerState sha256) : Prop where
  known : 2 * heard.card < s.addressees.length ∨ s.isOnline = false ∧ s.control = .run
  holds : Application.Holds (partitionFacts sha256 heard) s
  polls : ∀ f caller, s.control = .awaitBlock f caller → Polls heard f

section Peer

variable {powGroup : IProofOfWork Bytes Bytes} {s : PeerState sha256} {heard : Finset PeerAddress}
  {f g : BlockFrame} {msg : Message}

theorem heard_length {seen : List PeerAddress} (once : seen.Nodup)
    (senders : ∀ pa ∈ seen, pa ∈ heard) : seen.length ≤ heard.card := by
  rw [← List.toFinset_card_of_nodup once]
  exact Finset.card_le_card fun pa member => senders pa (List.mem_toFinset.mp member)

theorem nodup_snoc {seen : List PeerAddress} {pa : PeerAddress} (once : seen.Nodup)
    (fresh : pa ∉ seen) : (seen ++ [pa]).Nodup := by
  rw [List.nodup_append_comm]
  exact List.nodup_cons.mpr ⟨fresh, once⟩

theorem partitionFacts_closed (known : 2 * heard.card < s.addressees.length) :
    Closed powGroup (partitionFacts sha256 heard) s where
  request r _ _ _ := by
    refine ⟨List.nodup_nil, List.forall_mem_nil _, Bool.toNat_le _, Nat.succ_lt_succ known⟩
  proposal _ _ _ :=
    ⟨List.nodup_nil, List.forall_mem_nil _, Nat.le_refl _, Nat.succ_lt_succ known⟩
  vote f m agree hash hf received _ _ := by
    obtain ⟨once, senders, agrees, peers⟩ := hf
    unfold VoteFrame.countVote
    split
    · exact ⟨once, senders, agrees, peers⟩
    · rename_i unseen
      split
      · rw [clientFound_iff] at unseen
        refine ⟨nodup_snoc once unseen, all_snoc senders received, ?_, peers⟩
        have one := Bool.toNat_le agree
        rw [List.length_append, List.length_singleton]
        dsimp only
        omega
      · exact ⟨once, senders, agrees, peers⟩
  waiting _ _ _ hf := hf
  won f hf wins := by
    obtain ⟨once, senders, agrees, peers⟩ := hf
    have few := heard_length once senders
    rcases wins with most | ⟨all, _⟩
    · omega
    · omega
  accepted _ _ _ _ _ wins := wins.elim
  entry _ _ _ _ _ _ := trivial
  front _ _ _ := trivial
  grown _ _ _ := trivial

theorem hearing_sender {bc : Blockchain (sha256FromDataAndHash sha256)} {index : Nat}
    {pa : PeerAddress} {answer : Application.Answer}
    (h : hearing bc index msg = some (pa, answer)) :
    pa = msg.peerAddress := by
  unfold hearing at h
  split at h
  · cases h
    rfl
  · cases h
    rfl
  · split at h
    · cases h
      rfl
    · contradiction
  · contradiction

theorem countBlock_counts (b : BType) {messages : BlockCounts} {most : Nat}
    (counts : ∀ e ∈ messages, e.2 ≤ most) : ∀ e ∈ countBlock b messages, e.2 ≤ most + 1 := by
  induction messages with
  | nil => simp [countBlock]
  | cons entry rest ih =>
    have first := counts entry List.mem_cons_self
    have others : ∀ e ∈ rest, e.2 ≤ most := fun e member => counts e (List.mem_cons_of_mem _ member)
    have raised : ∀ e ∈ rest, e.2 ≤ most + 1 := fun e member => Nat.le_succ_of_le (others e member)
    unfold countBlock
    split
    · exact all_cons (Nat.le_add_left 1 most) (all_cons (Nat.le_succ_of_le first) raised)
    · exact all_cons (Nat.succ_le_succ first) raised
    · exact all_cons (Nat.le_succ_of_le first) (ih others)

theorem polls_hears {bc : Blockchain (sha256FromDataAndHash sha256)} (hears : Hears bc f msg g)
    (received : msg.peerAddress ∈ heard) (h : Polls heard f) : Polls heard g := by
  obtain ⟨once, senders, counts, asked⟩ := h
  have longer : ∀ pa : PeerAddress, ∀ e ∈ f.messages, e.2 ≤ (f.clientsSeen ++ [pa]).length := by
    intro pa e member
    rw [List.length_append]
    exact Nat.le_trans (counts e member) (Nat.le_add_right _ _)
  have snoc : ∀ {pa answer}, hearing bc f.index msg = some (pa, answer) →
      ∀ pa' ∈ f.clientsSeen ++ [pa], pa' ∈ heard := by
    intro pa answer said
    rw [hearing_sender said]
    exact all_snoc senders received
  cases hears with
  | noBlock pa said fresh => exact ⟨nodup_snoc once fresh, snoc said, longer pa, asked⟩
  | block pa b body valid said fresh =>
    refine ⟨nodup_snoc once fresh, snoc said, ?_, asked⟩
    rw [List.length_append]
    exact countBlock_counts b counts
  | neither pa said fresh => exact ⟨nodup_snoc once fresh, snoc said, longer pa, asked⟩
  | again | silent | postponed => exact ⟨once, senders, counts, asked⟩

/-- No block gets ahead of the peers that are not heard. -/
theorem polls_undecided (h : Polls heard f) (b : BType) :
    checkMajority f.clientsSeen.length f.nPeers f.noBlock f.messages ≠ some (some b) := by
  have few := heard_length h.once h.senders
  have asked := h.asked
  unfold checkMajority
  split
  · split
    · simp
    · rename_i some_
      have top : Top f.noBlock f.messages (mostVotes f.noBlock f.messages) := mostVotes_top some_
      generalize mostVotes f.noBlock f.messages = acc at top
      obtain ⟨block, largest, second⟩ := acc
      dsimp only
      split
      · rename_i ahead
        intro same
        have counted := h.counts _ (top.block b (Option.some.inj same)).1
        dsimp only at counted
        omega
      · simp
  · simp

/-- The frame of RequestBlockchainBlock after a turn is new, or the one before with a message or
a try more. -/
theorem awaitBlock_next {caller : Caller}
    (next : (turn powGroup s).1.control = .awaitBlock g caller) :
    s.control = .requestBlockchain caller ∧ s.addressees.length = g.nPeers ∧ g.messages = [] ∧
        g.clientsSeen = [] ∨
      ∃ f, s.control = .awaitBlock f caller ∧ (g = { f with tries := f.tries + 1 } ∨
        ∃ msg ∈ s.inbox, Hears s.bc f msg g) := by
  by_cases syncing : s.control.syncing = true
  · have turned : BlockTurn s (turn powGroup s).1 := block_turn syncing
    generalize (turn powGroup s).1 = t at turned next
    cases turned with
    | request caller' before kept same others after =>
      rw [after] at next
      cases next
      exact Or.inl ⟨before, rfl, rfl, rfl⟩
    | alone caller' before kept same nobody after =>
      rw [after] at next
      cases caller' <;> cases next
    | read f g' caller' msg before asking waiting same hears undecided inTime after =>
      rw [after] at next
      cases next
      exact Or.inr ⟨f, before, Or.inr ⟨msg, by simp [waiting], hears⟩⟩
    | decided f g' caller' msg inbox largestBlock before asking waiting hears decision placed
        after =>
      rcases after with ⟨_, _, after⟩ | ⟨b, _, _, after⟩
      · rw [after] at next
        cases caller' <;> cases next
      · rw [after] at next
        cases next
    | poll f caller' before asking waiting kept same inTime after =>
      rw [after] at next
      cases next
      exact Or.inr ⟨f, before, Or.inl rfl⟩
    | readLate f g' caller' msg inbox before asking waiting hears late same placed after =>
      rw [after] at next
      cases next
    | failed f caller' before waiting same placed after =>
      rw [after] at next
      cases next
  · by_cases deciding : s.control.deciding = true
    · rcases @deciding_turn _ powGroup _ deciding with ended | lowers
      · rw [ended] at next
        cases next
      · have still := lowers.deciding
        rw [next] at still
        cases still
    · cases hc : s.control with
      | run =>
        simp only [turn, hc, runLoop] at next
        split at next
        · split at next
          · cases next
          · split at next
            · split at next <;> cases next
            · split at next <;> cases next
        · rw [hc] at next
          cases next
      | requestBlockchain | awaitBlock => exact absurd (by rw [hc]; rfl) syncing
      | handleRequest | addBlock | awaitVotes | majority | checked | handled | handleAll =>
        exact absurd (by rw [hc]; rfl) deciding

theorem outnumbered_turn (h : Outnumbered heard s) :
    Outnumbered heard (turn powGroup s).1 ∧ (turn powGroup s).1.books = s.books := by
  rcases h.known with known | ⟨offline, idle⟩
  · have closed : Closed powGroup (partitionFacts sha256 heard) s := partitionFacts_closed known
    have same : (turn powGroup s).1.identity = s.identity := turn_identity
    simp only [PeerState.identity, Prod.mk.injEq] at same
    refine ⟨⟨?_, turn_holds closed h.holds, fun g caller next => ?_⟩, ?_⟩
    · left
      rw [PeerState.addressees, same.1, same.2.1]
      exact known
    · rcases awaitBlock_next next with ⟨_, asked, none_, unseen⟩ | ⟨f, before, moved⟩
      · constructor
        · rw [unseen]
          exact List.nodup_nil
        · rw [unseen]
          exact List.forall_mem_nil _
        · rw [none_]
          exact List.forall_mem_nil _
        · rw [← asked]
          exact known
      · have polls := h.polls f caller before
        rcases moved with rfl | ⟨msg, waiting, hears⟩
        · exact ⟨polls.once, polls.senders, polls.counts, polls.asked⟩
        · exact polls_hears hears (h.holds.inbox msg waiting) polls
    · have turned := turn_books closed h.holds
      generalize (turn powGroup s).1.books = after at turned
      cases turned with
      | same => rfl
      | synchronised b requested received =>
        unfold PeerState.requested at requested
        split at requested
        · rename_i f caller msg rest hc waiting
          split at requested
          · have polls : Polls heard (readBlockMessage s f msg).1 :=
              polls_hears (readBlockMessage_hears f msg)
                (h.holds.inbox msg (by simp [waiting])) (h.polls f caller hc)
            exact absurd (Option.join_eq_some_iff.mp requested) (polls_undecided polls b)
          · contradiction
        · contradiction
      | committed read best hc drained lowest =>
        exact (h.holds.candidates best (lowestHash_mem lowest)).elim
  · have same : (turn powGroup s).1 = s := by
      simp [turn, idle, runLoop, offline]
    rw [same]
    exact ⟨h, rfl⟩

theorem outnumbered_deliver (h : Outnumbered heard s) (received : msg.peerAddress ∈ heard) :
    Outnumbered heard (deliver s msg) :=
  ⟨h.known, deliver_holds h.holds received, h.polls⟩

theorem outnumbered_netinfo (h : Outnumbered heard s) {info : List PeerAddress}
    (known : 2 * heard.card < (receiveNetinfo s info).addressees.length) :
    Outnumbered heard (receiveNetinfo s info) := by
  refine ⟨Or.inl known, netinfo_holds h.holds info, fun f caller at_ => h.polls f caller ?_⟩
  rw [← at_, (receiveNetinfo_static info).1]

end Peer

section Run

variable {powGroup : IProofOfWork Bytes Bytes} {net : State sha256 n} {ownPa : Fin n → PeerAddress}
  {group : Finset (Fin n)}

/-- Between two calls of Run, with nothing to read and, once online, at least twice as many peers on
the list, the peer itself included, as the group has. -/
structure Idle (group : Finset (Fin n)) (s : PeerState sha256) : Prop where
  control : s.control = .run
  inbox : s.inbox = []
  candidates : s.addblockCandidates = []
  known : s.isOnline = true → 2 * group.card ≤ s.addressees.length + 1

/-- Members of the group only receive messages of other members, and network information that lists
at least twice as many peers, the member itself included, as the group has. -/
def CutOff (ownPa : Fin n → PeerAddress) (group : Finset (Fin n)) (net : State sha256 n) :
    Event n → Prop
  | .deliver k => ∀ p ∈ net.flight[k]?, p.1 ∈ group →
      ∃ j ∈ group, j ≠ p.1 ∧ p.2.peerAddress = ownPa j
  | .netinfo i info => i ∈ group →
      2 * group.card ≤ (receiveNetinfo (net.peers i) info).addressees.length + 1
  | _ => True

instance (net : State sha256 n) (e : Event n) : Decidable (CutOff ownPa group net e) :=
  match e with
  | .deliver k => inferInstanceAs (Decidable (∀ p ∈ net.flight[k]?, p.1 ∈ group →
      ∃ j ∈ group, j ≠ p.1 ∧ p.2.peerAddress = ownPa j))
  | .netinfo i info => inferInstanceAs (Decidable (i ∈ group →
      2 * group.card ≤ (receiveNetinfo (net.peers i) info).addressees.length + 1))
  | .turn _ | .lose _ => isTrue trivial

/-- The addresses of the other members. -/
def companions (ownPa : Fin n → PeerAddress) (group : Finset (Fin n)) (i : Fin n) :
    Finset PeerAddress := (group.erase i).image ownPa

theorem companions_card {i : Fin n} (member : i ∈ group) :
    (companions ownPa group i).card + 1 ≤ group.card := by
  have erased := Finset.card_erase_add_one member
  have image : (companions ownPa group i).card ≤ (group.erase i).card := Finset.card_image_le
  omega

/-- Every member of the group is outnumbered and has the books it had. -/
def Frozen (ownPa : Fin n → PeerAddress) (group : Finset (Fin n)) (before net : State sha256 n) :
    Prop :=
  ∀ i ∈ group, Outnumbered (companions ownPa group i) (net.peers i) ∧
    (net.peers i).books = (before.peers i).books

theorem frozen_step {before : State sha256 n} (frozen : Frozen ownPa group before net)
    (e : Event n) (cut : CutOff ownPa group net e) :
    Frozen ownPa group before (step powGroup net e) := by
  cases e with
  | turn i =>
    refine update_all (fun i s => i ∈ group → Outnumbered (companions ownPa group i) s ∧
      s.books = (before.peers i).books) frozen fun member => ?_
    obtain ⟨h, books⟩ := frozen i member
    obtain ⟨turned, same⟩ := @outnumbered_turn _ powGroup _ _ h
    exact ⟨turned, same.trans books⟩
  | deliver k =>
    unfold step
    dsimp only
    split
    · rename_i i m arrived
      refine update_all (fun i s => i ∈ group → Outnumbered (companions ownPa group i) s ∧
        s.books = (before.peers i).books) frozen fun member => ?_
      obtain ⟨h, books⟩ := frozen i member
      obtain ⟨j, inside, other, sender⟩ := cut (i, m) arrived member
      refine ⟨outnumbered_deliver h ?_, books⟩
      rw [sender]
      exact Finset.mem_image_of_mem ownPa (Finset.mem_erase.mpr ⟨other, inside⟩)
    · exact frozen
  | lose k => exact frozen
  | netinfo i info =>
    refine update_all (fun i s => i ∈ group → Outnumbered (companions ownPa group i) s ∧
      s.books = (before.peers i).books) frozen fun member => ?_
    obtain ⟨h, books⟩ := frozen i member
    have enough := cut member
    have few := @companions_card _ ownPa _ _ member
    refine ⟨outnumbered_netinfo h (by omega), ?_⟩
    rw [← books]
    exact (receiveNetinfo_static info).2.2

theorem frozen_start (idle : ∀ i ∈ group, Idle group (net.peers i)) :
    Frozen ownPa group net net := by
  intro i member
  have here := idle i member
  have few := @companions_card _ ownPa _ _ member
  refine ⟨⟨?_, ⟨?_, ?_, ?_, fun _ => here.candidates⟩, ?_⟩, rfl⟩
  · cases online : (net.peers i).isOnline with
    | true =>
      have known := here.known online
      exact Or.inl (by omega)
    | false => exact Or.inr ⟨rfl, here.control⟩
  · rw [here.inbox]
    exact List.forall_mem_nil _
  · rw [here.control]
    trivial
  · rw [here.candidates]
    exact List.forall_mem_nil _
  · rw [here.control]
    exact nofun

/-- A group of peers that hears from nobody else, and of which each member lists at least twice as
many peers, itself included, as the group has, adds no block and gives up no batch. -/
theorem minority_frozen (powGroup : IProofOfWork Bytes Bytes) (ownPa : Fin n → PeerAddress)
    (group : Finset (Fin n)) (net : State sha256 n)
    (idle : ∀ i ∈ group, Idle group (net.peers i)) (es : List (Event n))
    (cut : Lts.Throughout (step powGroup) (CutOff ownPa group) net es) (i : Fin n)
    (member : i ∈ group) :
    ((Lts.run (step powGroup) net es).peers i).bc = (net.peers i).bc ∧
      ((Lts.run (step powGroup) net es).peers i).transactions = (net.peers i).transactions := by
  have frozen : Frozen ownPa group net (Lts.run (step powGroup) net es) :=
    @Lts.invariant_run _ _ _ _ (Frozen ownPa group net)
      (fun _ e frozen cut => frozen_step frozen e cut) _ _ (frozen_start idle) cut
  have books := (frozen i member).2
  exact ⟨congrArg Books.bc books, congrArg Books.transactions books⟩

/-- Two of four peers hear from each other only. The first proposes its batch, the second agrees,
and both wait for more votes. -/
def halfAgrees : List (Event 4) := List.flatten [
  [.netinfo 0 (members 4), .netinfo 1 (members 4), .turn 0, .turn 0, .turn 1, .turn 1],
  [.deliver 0, .turn 1, .deliver 2, .turn 0, .turn 0, .turn 0, .deliver 4, .turn 1],
  -- the request, and the vote on it
  [.deliver 6, .turn 0, .turn 0, .deliver 6, .turn 1, .turn 1, .deliver 8, .turn 0, .turn 0],
  [.deliver 10, .turn 1, .turn 1, .deliver 10, .turn 0],
  List.replicate 45 (.turn 0), List.replicate 45 (.turn 1)]

theorem half_frozen :
    let net : State HashCash.squeeze 4 := launch HashCash.squeeze address
      (fun i => if i = 0 then [repeated 1] else []) fun _ => false
    let after := Lts.run (step (hashCash HashCash.squeeze 24)) net halfAgrees
    (after.peers 0).bc = (net.peers 0).bc ∧
      (after.peers 0).transactions = (net.peers 0).transactions :=
  minority_frozen (hashCash HashCash.squeeze 24) address {0, 1} _
    (fun _ _ => ⟨rfl, rfl, rfl, fun online => absurd online Bool.false_ne_true⟩) _
    (by decide +kernel) 0 (by decide)

end Run

end DPS2.Network
