import DPS2.Application.Votes
import DPS2.Network.Network

/-! Where the batches on the chains come from, and what becomes of the batches of a peer. A batch
is erased only in the step that puts it onto the chain, and every block holds a batch that some
peer was started with. -/
namespace DPS2.Network

open P2P ProofOfWork Application

variable {sha256 : Bytes → Bytes} {n : Nat}

/-- The batch that a message brings along. -/
def carried (m : Message) : Option Transactions :=
  match m.body with
  | .block b => some b.data
  | .addRequest _ b => some b.data
  | _ => none

/-- An own frame or candidate is for the first pending batch. -/
def supplyFacts (sha256 : Bytes → Bytes) (Supplied : Transactions → Prop) : Facts sha256 where
  message m := ∀ ts, carried m = some ts → Supplied ts
  batch books ts := books.transactions.head? = some ts
  entry _ b := Supplied b.data
  frame books f := Supplied f.reqBlock.data ∧
    (f.origin.own = true → books.transactions.head? = some f.reqBlock.data)
  won _ _ := True
  candidate books c := Supplied c.block.data ∧
    (c.own = true → books.transactions.head? = some c.block.data)

structure Stocked (Supplied : Transactions → Prop) (books : Books sha256) : Prop where
  chain : ∀ ts ∈ books.bc.data, Supplied ts
  pending : ∀ ts ∈ books.transactions, Supplied ts

/-- Blocks were appended, and the erased batches are among their data, in this order. -/
def Accounted (before after : Books sha256) : Prop :=
  ∃ added done, after.bc.blocks = before.bc.blocks ++ added ∧
    before.transactions = done ++ after.transactions ∧ done.Sublist (added.map Block.data)

section Accounts

variable {before books after : Books sha256}

theorem Accounted.refl (books : Books sha256) : Accounted books books :=
  ⟨[], [], (List.append_nil _).symm, rfl, List.Sublist.refl _⟩

theorem Accounted.trans (first : Accounted before books) (second : Accounted books after) :
    Accounted before after := by
  obtain ⟨added, done, blocks, erased, sub⟩ := first
  obtain ⟨more, also, longer, shorter, within⟩ := second
  refine ⟨added ++ more, done ++ also, ?_, ?_, ?_⟩
  · rw [longer, blocks, List.append_assoc]
  · rw [erased, shorter, List.append_assoc]
  · rw [List.map_append]
    exact sub.append within

theorem Accounted.addBlock (books : Books sha256) (data : Transactions) :
    Accounted books ⟨books.bc.addBlock data, books.transactions⟩ :=
  ⟨[books.bc.sneakPeekBlock data], [], rfl, rfl, List.nil_sublist _⟩

/-- The first batch is erased with the block that holds it. -/
theorem Accounted.erase {data : Transactions} (first : books.transactions.head? = some data) :
    Accounted books ⟨books.bc.addBlock data, books.transactions.tail⟩ :=
  ⟨[books.bc.sneakPeekBlock data], [data], rfl, (List.cons_head?_tail first).symm,
    List.Sublist.refl _⟩

end Accounts

section Turn

variable {powGroup : IProofOfWork Bytes Bytes} {Supplied : Transactions → Prop}
  {s : PeerState sha256}

theorem supplyFacts_closed (stocked : Stocked Supplied s.books) :
    Closed powGroup (supplyFacts sha256 Supplied) s where
  request r received _ _ := ⟨received _ rfl, by rintro ⟨⟩⟩
  proposal ts _ next := ⟨stocked.pending ts (List.mem_of_head? next), fun _ => next⟩
  vote f m agree hash hf _ _ _ := by
    obtain ⟨origin, block, _⟩ := countVote_same f m.peerAddress agree hash
    simp only [supplyFacts, origin, block] at hf ⊢
    exact hf
  waiting _ _ _ hf := hf
  won _ _ _ := trivial
  accepted _ _ _ _ hf _ := hf
  entry m b received body _ _ := received b.data (by rw [carried, body])
  front ts rest pending := by simp [supplyFacts, PeerState.books, pending]
  grown _ _ next := next

theorem Stocked.addBlock {books : Books sha256} (stocked : Stocked Supplied books)
    {data : Transactions} (supplied : Supplied data) {transactions : List Transactions}
    (left : transactions ⊆ books.transactions) :
    Stocked Supplied ⟨books.bc.addBlock data, transactions⟩ where
  chain := by
    rw [Blockchain.data_addBlock]
    exact all_snoc stocked.chain supplied
  pending ts member := stocked.pending ts (left member)

theorem supply_turn (stocked : Stocked Supplied s.books)
    (h : Application.Holds (supplyFacts sha256 Supplied) s) :
    Stocked Supplied (turn powGroup s).1.books ∧ Accounted s.books (turn powGroup s).1.books := by
  have turned := @turn_books _ powGroup _ _ (supplyFacts_closed stocked) h
  generalize (turn powGroup s).1.books = after at turned ⊢
  cases turned with
  | same => exact ⟨stocked, Accounted.refl _⟩
  | synchronised b requested received =>
    exact ⟨stocked.addBlock received (List.Subset.refl _), Accounted.addBlock s.books b.data⟩
  | committed read best hc drained lowest =>
    obtain ⟨supplied, next⟩ := h.candidates best (lowestHash_mem lowest)
    cases own : best.own with
    | true =>
      exact ⟨stocked.addBlock supplied (List.tail_subset _), Accounted.erase (next own)⟩
    | false =>
      exact ⟨stocked.addBlock supplied (List.Subset.refl _),
        Accounted.addBlock s.books best.block.data⟩

theorem answer_supplied (stocked : Stocked Supplied s.books) {msg m : Message} {pa : PeerAddress}
    (answer : sendBlockchain s msg = .respond m pa) :
    (supplyFacts sha256 Supplied).message m := by
  unfold sendBlockchain at answer
  split at answer
  · rename_i b found
    cases answer
    rintro ts ⟨⟩
    exact stocked.chain b.data (List.mem_map_of_mem (List.mem_of_getElem? found))
  · cases answer
    rintro ts ⟨⟩

theorem sent_supplied (stocked : Stocked Supplied s.books)
    (h : Application.Holds (supplyFacts sha256 Supplied) s) {o : Output}
    (sent : o ∈ (turn powGroup s).2) :
    (∀ m, o = .broadcast m → (supplyFacts sha256 Supplied).message m) ∧
      ∀ m pa, o = .respond m pa → (supplyFacts sha256 Supplied).message m := by
  have emitted := turn_emits _ sent
  cases emitted with
  | answer msg =>
    refine ⟨fun m broadcast => ?_, fun m pa answer => answer_supplied stocked answer⟩
    unfold sendBlockchain at broadcast
    split at broadcast <;> cases broadcast
  | proposal ts hc =>
    have next := h.control
    rw [hc] at next
    refine ⟨?_, by rintro m pa ⟨⟩⟩
    rintro m ⟨⟩ batch ⟨⟩
    exact stocked.pending ts (List.mem_of_head? next)
  | request => exact ⟨by rintro m ⟨⟩ ts ⟨⟩, by rintro m pa ⟨⟩⟩
  | vote r allowAgree inTime taken => exact ⟨by rintro m ⟨⟩ ts ⟨⟩, by rintro m pa ⟨⟩⟩
  | closing result f below read index pow hc origin =>
    exact ⟨by rintro m ⟨⟩ ts ⟨⟩, by rintro m pa ⟨⟩⟩

end Turn

section Run

variable {powGroup : IProofOfWork Bytes Bytes} {Supplied : Transactions → Prop}
  {before net : State sha256 n}

structure Supply (Supplied : Transactions → Prop) (before net : State sha256 n) : Prop where
  holds : Holds (fun _ => supplyFacts sha256 Supplied) net
  stocked : ∀ i, Stocked Supplied (net.peers i).books
  accounted : ∀ i, Accounted (before.peers i).books (net.peers i).books

theorem supply_step (inv : Supply Supplied before net) (e : Event n) :
    Supply Supplied before (step powGroup net e) := by
  have informed : ∀ i info, (receiveNetinfo (net.peers i) info).books = (net.peers i).books :=
    fun _ info => (receiveNetinfo_static info).2.2
  constructor
  · apply holds_step inv.holds e
    · exact fun i _ => supplyFacts_closed (inv.stocked i)
    · rintro i - o sent p posted
      obtain ⟨broadcast, respond⟩ := sent_supplied (inv.stocked i) (inv.holds.peers i) sent
      rcases mem_post posted with ⟨same, _⟩ | ⟨pa, same, _⟩
      · exact broadcast p.2 same
      · exact respond p.2 pa same
  · apply step_all (fun _ s => Stocked Supplied s.books) inv.stocked e
    · exact fun i _ => (supply_turn (inv.stocked i) (inv.holds.peers i)).1
    · exact fun j _ => inv.stocked j
    · rintro i info -
      rw [informed]
      exact inv.stocked i
  · apply step_all (fun i s => Accounted (before.peers i).books s.books) inv.accounted e
    · exact fun i _ => (inv.accounted i).trans
        (supply_turn (inv.stocked i) (inv.holds.peers i)).2
    · exact fun j _ => inv.accounted j
    · rintro i info -
      rw [informed]
      exact inv.accounted i

/-- The genesis batch, and the batches of all peers. -/
def Batched (batches : Fin n → List Transactions) (ts : Transactions) : Prop :=
  ts = default ∨ ∃ i, ts ∈ batches i

theorem launch_supply (ownPa : Fin n → PeerAddress) (batches : Fin n → List Transactions)
    (init : Fin n → Bool) : Supply (Batched batches) (launch sha256 ownPa batches init)
      (launch sha256 ownPa batches init) := by
  refine ⟨⟨fun i => application_holds _ _ _, by simp [launch, start]⟩, fun i => ?_,
    fun i => Accounted.refl _⟩
  have own : ∀ ts ∈ batches i, Batched batches ts := fun ts member => Or.inr ⟨i, member⟩
  simp only [launch, start, PeerState.application]
  cases init i with
  | false => exact ⟨by simp [PeerState.ready, PeerState.books, Batched], own⟩
  | true =>
    refine ⟨?_, by simp [PeerState.ready, PeerState.books]⟩
    simp only [PeerState.ready, PeerState.books, if_true, Blockchain.data_foldl_addBlock,
      Blockchain.data_new]
    exact all_append (List.forall_mem_singleton.mpr (Or.inl rfl)) own

theorem supply_run (inv : Supply Supplied before net) (es : List (Event n)) :
    Supply Supplied before (Lts.run (step powGroup) net es) := by
  have preserved : ∀ s e, Supply Supplied before s → Supply Supplied before (step powGroup s e) :=
    fun _ e h => supply_step h e
  exact Lts.invariant_always preserved inv es

end Run

/-- Between any two states of a run the chain of a peer only grows, and the batches that are no
longer pending are in the new blocks, in the order in which they were pending. -/
theorem batches_conserved (powGroup : IProofOfWork Bytes Bytes) (ownPa : Fin n → PeerAddress)
    (batches : Fin n → List Transactions) (init : Fin n → Bool) (es fs : List (Event n))
    (i : Fin n) :
    let before := Lts.run (step powGroup) (launch sha256 ownPa batches init) es
    let after := Lts.run (step powGroup) before fs
    ∃ added done, (after.peers i).bc.blocks = (before.peers i).bc.blocks ++ added ∧
      (before.peers i).transactions = done ++ (after.peers i).transactions ∧
      done.Sublist (added.map Block.data) := by
  intro before after
  obtain ⟨holds, stocked, _⟩ : Supply (Batched batches) _ before :=
    supply_run (launch_supply ownPa batches init) es
  exact (supply_run ⟨holds, stocked, fun i => Accounted.refl _⟩ fs).accounted i

/-- No step of a run invents a batch: all that is on a chain, pending or on its way was given to
some peer at its start, or is the empty batch of the genesis block. -/
theorem batches_supplied (powGroup : IProofOfWork Bytes Bytes) (ownPa : Fin n → PeerAddress)
    (batches : Fin n → List Transactions) (init : Fin n → Bool) (es : List (Event n)) :
    let net := Lts.run (step powGroup) (launch sha256 ownPa batches init) es
    (∀ i, ∀ ts ∈ (net.peers i).bc.data ++ (net.peers i).transactions,
      ts = default ∨ ∃ j, ts ∈ batches j) ∧
    ∀ p ∈ net.flight, ∀ ts, carried p.2 = some ts → ts = default ∨ ∃ j, ts ∈ batches j := by
  intro net
  have inv : Supply (Batched batches) _ net := supply_run (launch_supply ownPa batches init) es
  exact ⟨fun i => all_append (inv.stocked i).chain (inv.stocked i).pending, inv.holds.flight⟩

end DPS2.Network
