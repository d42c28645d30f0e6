import DPS2.Application.Votes
import DPS2.Network.Network

/-! Batches in a network. A batch is erased only where its own proposal is committed, so a
peer that fetches its own block from the others proposes the batch once more. Otherwise,
unless a majority overrules a peer, no batch gets onto a chain twice. -/
namespace DPS2.Network

open P2P ProofOfWork Application

variable {sha256 : Bytes → Bytes} {n : Nat}

/-- RequestBlockchain appends a block whose batch this peer still wants to propose. -/
def FetchesPending (s : PeerState sha256) : Prop :=
  ∃ b ∈ s.requested, b.data ∈ s.transactions

/-- The others accept a block that does not extend this peer's chain, and whose batch is
already on it. -/
def OverruledAgain (s : PeerState sha256) : Prop :=
  ∃ f ∈ s.accepted, f.origin.own = false ∧ ¬ Extends s.bc f.reqBlock ∧ f.reqBlock.data ∈ s.bc.data

instance (s : PeerState sha256) : Decidable (FetchesPending s) :=
  inferInstanceAs (Decidable (∃ b ∈ s.requested, b.data ∈ s.transactions))

instance (s : PeerState sha256) : Decidable (OverruledAgain s) :=
  inferInstanceAs (Decidable (∃ f ∈ s.accepted, f.origin.own = false ∧
    ¬ Extends s.bc f.reqBlock ∧ f.reqBlock.data ∈ s.bc.data))

/-- No peer takes one of the two steps that can repeat a batch. -/
def Careful (net : State sha256 n) : Event n → Prop
  | .turn i => ¬ FetchesPending (net.peers i) ∧ ¬ OverruledAgain (net.peers i)
  | _ => True

instance (net : State sha256 n) (e : Event n) : Decidable (Careful net e) :=
  match e with
  | .turn i => inferInstanceAs
      (Decidable (¬ FetchesPending (net.peers i) ∧ ¬ OverruledAgain (net.peers i)))
  | .deliver _ | .lose _ | .netinfo _ _ => isTrue trivial

def Fresh (sha256 : Bytes → Bytes) (b : BType) : Prop :=
  ∃ bc : Blockchain (sha256FromDataAndHash sha256),
    b = bc.sneakPeekBlock b.data ∧ b.data ∉ bc.data

/-- A candidate or a vote frame is the peer's own next batch, or a batch of another peer. -/
def NextOrForeign (own : List Transactions) (books : Books sha256) (mine : Bool)
    (data : Transactions) : Prop :=
  if mine then books.transactions.head? = some data else data ∉ own

def batchFacts (sha256 : Bytes → Bytes) (own : List Transactions) : Facts sha256 where
  message m :=
    match m.body with
    | .addRequest _ b => Fresh sha256 b ∧ b.data ∉ own
    | .block b => Fresh sha256 b
    | _ => True
  batch books ts := books.transactions.head? = some ts
  entry books b := b.data ∉ books.bc.data
  frame books f := NextOrForeign own books f.origin.own f.reqBlock.data ∧
    (f.origin.own = false → Fresh sha256 f.reqBlock)
  won _ _ := True
  candidate books c := NextOrForeign own books c.own c.block.data ∧ c.block.data ∉ books.bc.data

/-- The chain has each batch once, and none of those that are still pending. -/
structure Once (own : List Transactions) (books : Books sha256) : Prop where
  chain : books.bc.data.Nodup
  distinct : books.transactions.Nodup
  owned : ∀ ts ∈ books.transactions, ts ∈ own
  pending : ∀ ts ∈ books.transactions, ts ∉ books.bc.data

section Peer

variable {powGroup : IProofOfWork Bytes Bytes} {own : List Transactions} {s : PeerState sha256}

theorem Fresh.new_batch (free : CollisionFree sha256) {b : BType} (h : Fresh sha256 b)
    (prev : b.prevHash = s.bc.getTopHash) : b.data ∉ s.bc.data := by
  obtain ⟨bc, made, absent⟩ := h
  rw [made] at prev
  rw [← Blockchain.sneakPeekBlock_prevHash free.chain prev]
  exact absent

theorem batchFacts_closed (free : CollisionFree sha256) (once : Once own s.books)
    (careful : ¬ OverruledAgain s) : Closed powGroup (batchFacts sha256 own) s where
  request r received _ _ := ⟨received.2, fun _ => received.1⟩
  proposal ts _ next := ⟨next, by simp [VoteFrame.start, Origin.own]⟩
  vote f m agree hash hf _ _ _ := by
    obtain ⟨origin, block, _⟩ := countVote_same f m.peerAddress agree hash
    simp only [batchFacts, origin, block] at hf ⊢
    exact hf
  waiting _ _ _ hf := hf
  won _ _ _ := trivial
  accepted f below read hc hf _ := by
    refine ⟨hf.1, ?_⟩
    cases origin : f.origin.own with
    | true =>
      have next := hf.1
      simp only [NextOrForeign, origin, if_true] at next
      exact once.pending _ (List.mem_of_head? next)
    | false =>
      by_cases continues : Extends s.bc f.reqBlock
      · exact (hf.2 origin).new_batch free continues.1
      · have won : f ∈ s.accepted := by simp [PeerState.accepted, hc]
        exact fun again => careful ⟨f, won, origin, continues, again⟩
  entry m b received body _ prev := by
    simp only [batchFacts, body] at received
    exact received.new_batch free prev
  front ts rest h := by simp [batchFacts, PeerState.books, h]
  grown _ _ h := h

theorem Once.append {books : Books sha256} (once : Once own books) {data : Transactions}
    (absent : data ∉ books.bc.data) {transactions : List Transactions}
    (left : transactions.Sublist books.transactions) (other : data ∉ transactions) :
    Once own ⟨books.bc.addBlock data, transactions⟩ where
  chain := by
    rw [Blockchain.data_addBlock, ← List.concat_eq_append]
    exact once.chain.concat absent
  distinct := once.distinct.sublist left
  owned ts member := once.owned ts (left.subset member)
  pending ts member := by
    rw [Blockchain.data_addBlock]
    intro onChain
    rcases List.mem_append.mp onChain with before | last
    · exact once.pending ts (left.subset member) before
    · rw [List.mem_singleton.mp last] at member
      exact other member

theorem once_turn (free : CollisionFree sha256) (once : Once own s.books)
    (h : Application.Holds (batchFacts sha256 own) s) (fetch : ¬ FetchesPending s)
    (careful : ¬ OverruledAgain s) : Once own (turn powGroup s).1.books := by
  have closed : Closed powGroup (batchFacts sha256 own) s := batchFacts_closed free once careful
  have turned := turn_books closed h
  generalize (turn powGroup s).1.books = after at turned ⊢
  cases turned with
  | same => exact once
  | synchronised b requested received =>
    exact once.append received (List.Sublist.refl _) fun waits => fetch ⟨b, requested, waits⟩
  | committed read best hc drained lowest =>
    obtain ⟨origin, absent⟩ := h.candidates best (lowestHash_mem lowest)
    cases mine : best.own with
    | true =>
      simp only [NextOrForeign, mine, if_true] at origin
      have order : s.transactions = best.block.data :: s.transactions.tail :=
        (List.cons_head?_tail origin).symm
      have distinct := once.distinct
      rw [PeerState.books, order] at distinct
      exact once.append absent (List.tail_sublist _) (List.nodup_cons.mp distinct).1
    | false =>
      simp only [NextOrForeign, mine] at origin
      exact once.append absent (List.Sublist.refl _) fun waits => origin (once.owned _ waits)

theorem fresh_of_nodup {bc : Blockchain (sha256FromDataAndHash sha256)} (nodup : bc.data.Nodup)
    {k : Nat} {b : BType} (found : bc.getBlockFromIndex k = some b) : Fresh sha256 b := by
  obtain ⟨longer, made⟩ := Blockchain.upTo_succ found
  have distinct : (bc.upTo (k + 1)).data.Nodup := by
    rw [Blockchain.data_upTo]
    exact nodup.sublist (List.take_sublist _ _)
  rw [longer, Blockchain.data_addBlock] at distinct
  refine ⟨bc.upTo k, made, fun again => ?_⟩
  exact (List.disjoint_of_nodup_append distinct) again (List.mem_singleton.mpr rfl)

theorem answer_fresh (once : Once own s.books) {foreign : List Transactions} {msg m : Message}
    {pa : PeerAddress} (answer : sendBlockchain s msg = .respond m pa) :
    (batchFacts sha256 foreign).message m := by
  unfold sendBlockchain at answer
  split at answer
  · rename_i b found
    cases answer
    exact fresh_of_nodup once.chain found
  · cases answer
    trivial

theorem broadcast_fresh (once : Once own s.books) (h : Application.Holds (batchFacts sha256 own) s)
    {foreign : List Transactions} (apart : ∀ ts ∈ own, ts ∉ foreign) {m : Message}
    (sent : .broadcast m ∈ (turn powGroup s).2) :
    (batchFacts sha256 foreign).message m := by
  have emitted := turn_emits _ sent
  generalize output : Output.broadcast m = o at emitted
  cases emitted with
  | request =>
    cases output
    trivial
  | answer msg =>
    unfold sendBlockchain at output
    split at output <;> contradiction
  | proposal ts hc =>
    cases output
    have next := h.control
    rw [hc] at next
    have member := List.mem_of_head? next
    exact ⟨⟨s.bc, rfl, once.pending ts member⟩, apart ts (once.owned ts member)⟩
  | vote r allowAgree inTime taken =>
    cases output
    trivial
  | closing result f below read index pow hc origin =>
    cases output
    trivial

end Peer

section Run

variable {powGroup : IProofOfWork Bytes Bytes} {own : Fin n → List Transactions}
  {net : State sha256 n}

structure BatchesOnce (own : Fin n → List Transactions) (net : State sha256 n) : Prop where
  holds : Holds (fun i => batchFacts sha256 (own i)) net
  once : ∀ i, Once (own i) (net.peers i).books

theorem batchesOnce_step (free : CollisionFree sha256)
    (apart : ∀ i j, i ≠ j → ∀ ts ∈ own i, ts ∉ own j) (e : Event n) (careful : Careful net e)
    (inv : BatchesOnce own net) : BatchesOnce own (step powGroup net e) := by
  constructor
  · refine holds_step inv.holds e ?_ ?_
    · rintro i rfl
      exact batchFacts_closed free (inv.once i) careful.2
    · rintro i rfl o sent p posted
      rcases mem_post posted with ⟨rfl, _⟩ | ⟨pa, rfl, _⟩
      · have other := (broadcast_ne_sender posted).2
        exact broadcast_fresh (inv.once i) (inv.holds.peers i) (apart i p.1 other.symm) sent
      · have emitted := turn_emits _ sent
        generalize output : Output.respond p.2 pa = o at emitted
        cases emitted with
        | answer msg => exact answer_fresh (inv.once i) output.symm
        | request | proposal | vote | closing => contradiction
  · refine step_all (fun i s => Once (own i) s.books) inv.once e ?_ ?_ ?_
    · rintro i rfl
      exact once_turn free (inv.once i) (inv.holds.peers i) careful.1 careful.2
    · exact fun j m => inv.once j
    · rintro i info rfl
      unfold receiveNetinfo
      split <;> exact inv.once i

theorem once_application (ownPa : PeerAddress) {batches : List Transactions}
    (distinct : batches.Nodup) (fresh : default ∉ batches) (init : Bool) :
    Once batches (PeerState.application ownPa batches init : PeerState sha256).books := by
  cases init with
  | false =>
    refine ⟨List.nodup_singleton _, distinct, fun _ member => member, fun ts member first => ?_⟩
    rw [List.mem_singleton.mp first] at member
    exact fresh member
  | true =>
    refine ⟨?_, List.nodup_nil, by simp [PeerState.application, PeerState.ready, PeerState.books],
      by simp [PeerState.application, PeerState.ready, PeerState.books]⟩
    simp only [PeerState.application, PeerState.ready, PeerState.books, if_true,
      Blockchain.data_foldl_addBlock, Blockchain.data_new, List.singleton_append]
    exact List.nodup_cons.mpr ⟨fresh, distinct⟩

end Run

def firstBatch (i : Fin 3) : List Transactions := if i = 0 then [repeated 1] else []

def acceptedByOthers : List (Event 3) := List.flatten [
  online, [.turn 0, .turn 0, .deliver 1, .turn 0, .turn 0],
  -- the second and the third peer vote
  [.deliver 4, .turn 1, .turn 1, .deliver 1, .turn 1, .turn 1],
  [.deliver 3, .turn 2, .turn 2, .deliver 0, .turn 2, .turn 2],
  -- each counts the vote of the other
  [.deliver 9, .deliver 5, .turn 1, .turn 1, .turn 1, .turn 1, .turn 1],
  [.turn 2, .turn 2, .turn 2, .turn 2, .turn 2]]

/-- Their votes do not reach the first peer, which gives up, fetches its own block from
them and proposes the batch again. -/
def proposedAgain : List (Event 3) := List.flatten [
  acceptedByOthers, List.replicate 35 (.turn 0),
  -- the block from both, then the end of the chain from one
  [.deliver 0, .deliver 0, .turn 1, .turn 2, .deliver 10, .deliver 10, .turn 0, .turn 0],
  [.turn 0, .deliver 10, .turn 1, .deliver 11, .turn 0, .turn 0],
  -- the second peer agrees
  [.deliver 11, .turn 1, .turn 1, .deliver 13, .turn 2, .deliver 13, .turn 1, .turn 1],
  [.deliver 13, .turn 0, .turn 0, .turn 0, .turn 0]]

end DPS2.Network
