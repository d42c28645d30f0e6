import DPS2.Application.Effects
import DPS2.Lts.Run
import Mathlib.Data.List.FinRange

/-! A network of peers. A message in flight is addressed to one peer; it is delivered in
any order or lost. The record of the broadcasts is history that no step reads. -/
namespace DPS2.Network

open P2P ProofOfWork Application

variable {sha256 : Bytes → Bytes} {n : Nat}

structure State (sha256 : Bytes → Bytes) (n : Nat) where
  peers : Fin n → PeerState sha256
  flight : List (Fin n × Message)
  record : List (Fin n × Message)

inductive Event (n : Nat) where
  | turn (i : Fin n)
  | deliver (k : Nat)
  | lose (k : Nat)
  | netinfo (i : Fin n) (info : List PeerAddress)

def State.bound (net : State sha256 n) (pa : PeerAddress) : List (Fin n) :=
  (List.finRange n).filter fun j => cmpPeerAddress (net.peers j).ownPa pa

def State.post (net : State sha256 n) (i : Fin n) : Output → List (Fin n × Message)
  | .broadcast m => (net.peers i).addressees.flatMap fun pa => (net.bound pa).map (·, m)
  | .respond m pa => (net.bound pa).map (·, m)

def noted (i : Fin n) : Output → List (Fin n × Message)
  | .broadcast m => [(i, m)]
  | .respond _ _ => []

def step (powGroup : IProofOfWork Bytes Bytes) (net : State sha256 n) :
    Event n → State sha256 n
  | .turn i =>
      let (s, out) := turn powGroup (net.peers i)
      { peers := Function.update net.peers i s
        flight := net.flight ++ out.flatMap (net.post i)
        record := net.record ++ out.flatMap (noted i) }
  | .deliver k =>
      match net.flight[k]? with
      | some (j, m) =>
          { net with
            peers := Function.update net.peers j (deliver (net.peers j) m)
            flight := net.flight.eraseIdx k }
      | none => net
  | .lose k => { net with flight := net.flight.eraseIdx k }
  | .netinfo i info =>
      { net with peers := Function.update net.peers i (receiveNetinfo (net.peers i) info) }

def start (peers : Fin n → PeerState sha256) : State sha256 n := ⟨peers, [], []⟩

/-- Every peer has been constructed with its own transactions list. -/
def launch (sha256 : Bytes → Bytes) (ownPa : Fin n → PeerAddress)
    (batches : Fin n → List Transactions) (init : Fin n → Bool) : State sha256 n :=
  start fun i => .application (ownPa i) (batches i) (init i)

/- Peers with addresses 0, 1, ... and batches that repeat one byte, for runs. -/

def address (i : Fin n) : PeerAddress := ⟨2, 80, BitVec.ofNat 32 i⟩

def members (n : Nat) : List PeerAddress := (List.finRange n).map address

def repeated (b : Byte) : Transactions := ⟨List.replicate 1600 b, List.length_replicate⟩

instance threePeers_neZero : NeZero 3 := ⟨by decide⟩

/-- Three peers come online and refresh their chains of one block. -/
def online : List (Event 3) :=
  [.netinfo 0 (members 3), .netinfo 1 (members 3), .netinfo 2 (members 3), .turn 0, .turn 0,
    .turn 1, .turn 1, .turn 2, .turn 2, .deliver 2, .deliver 0, .deliver 0, .turn 0, .turn 1,
    .turn 2]

/-- Each peer satisfies its own facts, and so does what is on the way to it. -/
structure Holds (F : Fin n → Facts sha256) (net : State sha256 n) : Prop where
  peers : ∀ i, Application.Holds (F i) (net.peers i)
  flight : ∀ p ∈ net.flight, (F p.1).message p.2

section Step

variable {powGroup : IProofOfWork Bytes Bytes} {net : State sha256 n}

theorem update_all (P : Fin n → PeerState sha256 → Prop) (h : ∀ j, P j (net.peers j))
    {i : Fin n} {s : PeerState sha256} (moved : P i s) (j : Fin n) :
    P j (Function.update net.peers i s j) := by
  by_cases same : j = i
  · subst same
    rw [Function.update_self]
    exact moved
  · rw [Function.update_of_ne same]
    exact h j

/-- What a turn of one peer, a delivery and new network information preserve at each
peer is preserved by every step. -/
theorem step_all (P : Fin n → PeerState sha256 → Prop) (h : ∀ j, P j (net.peers j)) (e : Event n)
    (turned : ∀ i, e = .turn i → P i (turn powGroup (net.peers i)).1)
    (delivered : ∀ j m, P j (deliver (net.peers j) m))
    (informed : ∀ i info, e = .netinfo i info → P i (receiveNetinfo (net.peers i) info)) :
    ∀ j, P j ((step powGroup net e).peers j) := by
  cases e with
  | turn i => exact update_all P h (turned i rfl)
  | deliver k =>
    unfold step
    simp only
    split
    · exact update_all P h (delivered _ _)
    · exact h
  | lose k => exact h
  | netinfo i info => exact update_all P h (informed i info rfl)

theorem mem_bound {pa : PeerAddress} {j : Fin n} :
    j ∈ net.bound pa ↔ cmpPeerAddress (net.peers j).ownPa pa = true := by
  simp [State.bound]

theorem mem_post {i : Fin n} {o : Output} {p : Fin n × Message} (h : p ∈ net.post i o) :
    (o = .broadcast p.2 ∧ ∃ pa ∈ (net.peers i).addressees, p.1 ∈ net.bound pa) ∨
      ∃ pa, o = .respond p.2 pa ∧ p.1 ∈ net.bound pa := by
  cases o with
  | broadcast m =>
    simp only [State.post, List.mem_flatMap, List.mem_map] at h
    obtain ⟨pa, member, j, bound, rfl⟩ := h
    exact Or.inl ⟨rfl, pa, member, bound⟩
  | respond m pa =>
    simp only [State.post, List.mem_map] at h
    obtain ⟨j, bound, rfl⟩ := h
    exact Or.inr ⟨pa, rfl, bound⟩

theorem broadcast_ne_sender {i : Fin n} {m : Message} {p : Fin n × Message}
    (h : p ∈ net.post i (.broadcast m)) : p.2 = m ∧ p.1 ≠ i := by
  rcases mem_post h with ⟨same, pa, addressed, bound⟩ | ⟨pa, same, _⟩
  · refine ⟨(Output.broadcast.inj same).symm, ?_⟩
    rintro own
    rw [own, mem_bound] at bound
    simp only [PeerState.addressees, List.mem_filter, Bool.not_eq_true',
      Bool.eq_false_iff] at addressed
    rw [cmpPeerAddress_iff] at bound
    exact addressed.2 (cmpPeerAddress_iff.mpr bound.symm)
  · contradiction

theorem holds_step {F : Fin n → Facts sha256} (h : Holds F net) (e : Event n)
    (closed : ∀ i, e = .turn i → Closed powGroup (F i) (net.peers i))
    (posted : ∀ i, e = .turn i → ∀ o ∈ (turn powGroup (net.peers i)).2,
      ∀ p ∈ net.post i o, (F p.1).message p.2) : Holds F (step powGroup net e) := by
  cases e with
  | turn i =>
    have peers := update_all (fun i => Application.Holds (F i)) h.peers
      (turn_holds (closed i rfl) (h.peers i))
    refine ⟨peers, all_append h.flight ?_⟩
    intro p hp
    obtain ⟨o, sent, member⟩ := List.mem_flatMap.mp hp
    exact posted i rfl o sent p member
  | deliver k =>
    unfold step
    simp only
    split
    · rename_i j m waiting
      have arrived := h.flight (j, m) (List.mem_of_getElem? waiting)
      have peers := update_all (fun i => Application.Holds (F i)) h.peers
        (deliver_holds (h.peers j) arrived)
      exact ⟨peers, fun p hp => h.flight p (List.mem_of_mem_eraseIdx hp)⟩
    · exact h
  | lose k => exact ⟨h.peers, fun p hp => h.flight p (List.mem_of_mem_eraseIdx hp)⟩
  | netinfo i info =>
    have peers := update_all (fun i => Application.Holds (F i)) h.peers
      (netinfo_holds (h.peers i) info)
    exact ⟨peers, h.flight⟩

end Step

end DPS2.Network
