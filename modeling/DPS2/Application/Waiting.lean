import DPS2.Application.BlockTurns
import DPS2.Application.VoteLosses
import DPS2.Lts.Progress

/-! How long a peer waits. Every call of RequestBlockchainBlock returns, and from the call of
HandleBlockAdditionRequest or AddBlockToBlockchain on a peer gets back to the head of the loop of
Run, in a number of turns that depends on what it holds and on what is still to arrive. -/
namespace DPS2.Application

open P2P ProofOfWork

variable {sha256 : Bytes → Bytes}

/-- From the call that decides on requests until the block is added. -/
def Control.deciding : Control → Bool
  | .handleRequest _ | .addBlock _ => true
  | control => control.voting

/-- A request or proposal that is about to be handled. -/
def Control.pending : Control → Nat
  | .handleRequest _ | .addBlock _ => 1
  | _ => 0

/-- What HandleAllBlockAdditionRequests has read. -/
def Control.read : Control → List Message
  | .awaitVotes _ _ read | .majority _ _ read | .checked _ _ _ read | .handled _ _ read => read
  | .handleAll read => read
  | _ => []

def VoteFrame.left (f : VoteFrame) : Nat := f.nPeers * nTries - f.tries

/-- The tries that are left to the call that reads the inbox, or will next. -/
def Control.left (control : Control) : Nat :=
  match control.holding with
  | f :: _ => f.left
  | [] => 0

/-- The steps from a return of CheckVotesForBlock to the next poll. -/
def Control.phase : Control → Nat
  | .checked .. => 3
  | .handled .. => 2
  | .majority .. => 1
  | _ => 0

namespace PeerState

def held (s : PeerState sha256) : Nat :=
  s.inbox.length + (heldBy s.control.holding).length + s.control.read.length + s.control.pending

/-- A nested call costs a message, and a return brings none. -/
def level (s : PeerState sha256) : Nat :=
  2 * s.held + s.control.holding.length + s.control.pending

/-- What is left to do before the level changes. -/
def remaining (s : PeerState sha256) : Nat :=
  2 * s.inbox.length + s.control.left + s.control.phase

/-- With so many peers and arrivals, the turns until the head of the loop of Run. -/
def turnsLeft (peers arrivals : Nat) (s : PeerState sha256) : Nat :=
  (2 * (s.held + arrivals) + (peers + 1) * nTries + 4) * (s.level + 3 * arrivals) + s.remaining

end PeerState

/-- The level falls, or the same messages are held and less remains to be done. -/
structure Lowers (s t : PeerState sha256) : Prop where
  deciding : t.control.deciding = true
  held : t.held ≤ s.held
  lower : t.level < s.level ∨ t.level = s.level ∧ t.remaining < s.remaining

section Turn

variable {powGroup : IProofOfWork Bytes Bytes} {s t : PeerState sha256}

attribute [local simp] PeerState.held PeerState.level PeerState.remaining Control.holding
  Control.read Control.pending Control.left Control.phase Control.deciding Control.voting
  PeerState.goto PeerState.placeBack heldBy

theorem reads_left {size : Nat} {f g : VoteFrame} {msg : Message} (reads : Reads size f msg g) :
    g.left = f.left ∧ (g.readMessages.length = f.readMessages.length ∨
      g.readMessages.length = f.readMessages.length + 1) := by
  cases reads with
  | deferred => exact ⟨rfl, Or.inr (by simp [VoteFrame.defer])⟩
  | counted | repeated | ignored => exact ⟨rfl, Or.inl rfl⟩

theorem voteTurn_lowers (turned : VoteTurn s t)
    (busy : ∀ f below read, s.control = .awaitVotes f below read →
      f.clientsSeen.length + 1 < f.nPeers → s.inbox ≠ []) : Lowers s t := by
  cases turned with
  | read f g below read msg before asking waiting own reads after =>
    obtain ⟨left, freed | deferred⟩ := reads_left reads
    · constructor
      · simp [after]
      · simp [before, after, waiting, freed]
      · left
        simp [before, after, waiting, freed]
    · constructor
      · simp [after]
      · simp [before, after, waiting, deferred]
        omega
      · right
        simp [before, after, waiting, left, deferred]
        omega
  | request f below read msg before asking waiting nested after =>
    rcases after with ⟨agree, b, nPeers, after⟩ | ⟨agree, after⟩
    · constructor
      · simp [after]
      · simp [before, after, waiting, VoteFrame.start]
      · left
        simp [before, after, waiting, VoteFrame.start]
        omega
    · constructor
      · simp [after]
      · simp [before, after, waiting]
      · left
        simp [before, after, waiting]
  | poll f below read before asking waiting kept after =>
    exact absurd waiting (busy f below read before asking)
  | again f below read before kept undecided after =>
    constructor <;> simp [before, after, kept]
  | placedBack result f g below read before same wins loses returned after =>
    have top : s.control.holding = f :: below ∧ s.control.read = read ∧ s.control.pending = 0 := by
      rcases before with ⟨before, _⟩ | before <;> simp [before]
    obtain ⟨calls, kept, none⟩ := top
    constructor
    · simp [after]
    · simp only [PeerState.held, calls, kept, none]
      simp [after, returned]
      omega
    · left
      simp only [PeerState.level, PeerState.held, calls, kept, none]
      simp [after, returned]
      omega
  | closed result agree f below read before kept after =>
    constructor <;> simp [before, after, kept]
  | yielded f below read before kept after =>
    constructor
    · simp [after]
    · simp [before, after, kept]
    · left
      simp [before, after, kept]
      omega
  | resumed f below read before kept after =>
    constructor <;> simp [before, after, kept]

theorem poll_lowers {f : VoteFrame} {below : List VoteFrame} {read : List Message}
    (hc : s.control = .awaitVotes f below read) (asking : f.clientsSeen.length + 1 < f.nPeers)
    (silent : s.inbox = []) : Lowers s (turn powGroup s).1 := by
  simp only [turn, hc, awaitVotes, if_pos asking, silent]
  split
  · constructor
    · simp
    · simp [hc, silent]
    · left
      simp [hc, silent]
  · rename_i inTime
    constructor
    · simp
    · simp [hc, silent]
    · right
      simp [hc, silent, VoteFrame.left] at inTime ⊢
      omega

/-- The message in hand goes back to the inbox if it is too early, and opens a call else. -/
theorem request_lowers {inbox : List Message} {r : AdditionRequest} {read : List Message}
    (full : s.held = inbox.length + 1 + read.length)
    (room : s.control.pending = 1 ∨ r.index ≤ s.bc.size) :
    Lowers s (handleBlockAdditionRequest powGroup { s with inbox } r true [] read).1 := by
  have level : 2 * s.held + s.control.pending ≤ s.level := by
    unfold PeerState.level
    omega
  rw [full] at level
  unfold handleBlockAdditionRequest
  split
  · rename_i early
    rcases room with pending | inTime
    · rw [pending] at level
      constructor
      · simp
      · rw [full]
        simp
      · left
        refine Nat.lt_of_lt_of_le ?_ level
        simp
    · exact absurd early (Nat.not_lt_of_le inTime)
  · constructor
    · simp
    · rw [full]
      simp [VoteFrame.start]
    · left
      refine Nat.lt_of_lt_of_le ?_ level
      simp [VoteFrame.start]
      omega

theorem checked_lowers {result : Bool} {f : VoteFrame} {below : List VoteFrame}
    {read : List Message} (hc : s.control = .checked result f below read) :
    Lowers s (checked s result f below read).1 := by
  unfold checked
  split
  · constructor <;> simp [hc] <;> omega
  · constructor <;> simp [hc]

theorem handleAll_lowers {read : List Message} (hc : s.control = .handleAll read) :
    (handleAllBlockAdditionRequests powGroup s read).1.control = .run ∨
      Lowers s (handleAllBlockAdditionRequests powGroup s read).1 := by
  unfold handleAllBlockAdditionRequests
  split
  · left
    unfold commit
    dsimp only
    split <;> rfl
  · rename_i msg inbox waiting
    right
    have deferred : Lowers s ({ s with inbox }.goto (.handleAll (read ++ [msg]))) := by
      constructor <;> simp [hc, waiting] <;> omega
    dsimp only
    split
    · split
      · rename_i current
        refine request_lowers ?_ (Or.inr (Nat.le_of_eq current))
        simp [hc, waiting]
      · exact deferred
    · exact deferred

/-- Every turn gets closer to the head of the loop of Run. -/
theorem deciding_turn (deciding : s.control.deciding = true) :
    (turn powGroup s).1.control = .run ∨ Lowers s (turn powGroup s).1 := by
  cases hc : s.control with
  | run | requestBlockchain | awaitBlock =>
    rw [hc] at deciding
    cases deciding
  | handleRequest r =>
    right
    simp only [turn, hc]
    exact request_lowers (by simp [hc]) (Or.inl (by simp [hc]))
  | addBlock ts =>
    right
    simp only [turn, hc, addBlockToBlockchain]
    constructor <;> simp [hc, VoteFrame.start]
  | awaitVotes f below read =>
    right
    by_cases silent : f.clientsSeen.length + 1 < f.nPeers ∧ s.inbox = []
    · exact poll_lowers hc silent.1 silent.2
    · simp only [turn, hc]
      refine voteTurn_lowers (awaitVotes_turn hc) fun f' below' read' before asking empty => ?_
      rw [hc] at before
      cases before
      exact silent ⟨asking, empty⟩
  | majority f below read =>
    right
    simp only [turn, hc]
    refine voteTurn_lowers (majority_turn hc) fun f' below' read' before => ?_
    rw [hc] at before
    cases before
  | checked result f below read =>
    right
    simp only [turn, hc]
    exact checked_lowers hc
  | handled agree below read =>
    right
    simp only [turn, hc, handled]
    split
    · constructor <;> simp [hc]
    · split
      · constructor
        · simp
        · simp [hc]
        · left
          simp [hc]
          omega
      · constructor <;> simp [hc]
  | handleAll read =>
    simp only [turn, hc]
    exact handleAll_lowers hc

end Turn

/-- No call of CheckVotesForBlock waits for more than so many peers. -/
def peersFacts (sha256 : Bytes → Bytes) (peers : Nat) : Facts sha256 where
  message _ := True
  batch _ _ := True
  entry _ _ := True
  frame _ f := f.nPeers ≤ peers + 1
  won _ _ := True
  candidate _ _ := True

/-- Waiting with a bounded number of peers. -/
structure Deciding (peers : Nat) (s : PeerState sha256) : Prop where
  deciding : s.control.deciding = true
  known : s.networkInfo.length ≤ peers
  holds : Holds (peersFacts sha256 peers) s

section Measure

variable {powGroup : IProofOfWork Bytes Bytes} {s t : PeerState sha256} {peers : Nat}

theorem addressees_le (known : s.networkInfo.length ≤ peers) : s.addressees.length ≤ peers :=
  Nat.le_trans (List.length_filter_le _ _) known

theorem peersFacts_closed (known : s.networkInfo.length ≤ peers) :
    Closed powGroup (peersFacts sha256 peers) s where
  request _ _ _ _ := Nat.succ_le_succ (addressees_le known)
  proposal _ _ _ := Nat.succ_le_succ (addressees_le known)
  vote f m agree hash hf _ _ _ := by
    simp only [peersFacts, (countVote_same f m.peerAddress agree hash).2.2]
    exact hf
  waiting _ _ _ hf := hf
  won _ _ _ := trivial
  accepted _ _ _ _ _ _ := trivial
  entry _ _ _ _ _ _ := trivial
  front _ _ _ := trivial
  grown _ _ _ := trivial

theorem left_le (h : Holds (peersFacts sha256 peers) s) :
    s.control.left ≤ (peers + 1) * nTries := by
  have frames : ∀ f ∈ s.control.holding, f.nPeers ≤ peers + 1 := by
    have held := h.control
    generalize s.control = control at held
    cases control with
    | awaitVotes f below read | majority f below read =>
      exact all_cons held.1.1 fun g member => (held.2.1 g member).1
    | checked result f below read => exact fun g member => (held.2.2.1 g member).1
    | handled agree below read => exact fun g member => (held.1 g member).1
    | run | requestBlockchain | awaitBlock | handleRequest | addBlock | handleAll =>
      exact List.forall_mem_nil _
  unfold Control.left
  split
  · rename_i f rest top
    rw [top] at frames
    exact Nat.le_trans (Nat.sub_le _ _) (Nat.mul_le_mul_right _ (frames f List.mem_cons_self))
  · exact Nat.zero_le _

theorem remaining_le (h : Holds (peersFacts sha256 peers) s) :
    s.remaining < 2 * s.held + (peers + 1) * nTries + 4 := by
  have left := left_le h
  have phase : s.control.phase ≤ 3 := by
    cases s.control <;> simp [Control.phase]
  unfold PeerState.remaining PeerState.held
  omega

theorem turnsLeft_lowers (h : Holds (peersFacts sha256 peers) t) (lowers : Lowers s t)
    (arrivals : Nat) : t.turnsLeft peers arrivals < s.turnsLeft peers arrivals := by
  have small := remaining_le h
  have held := lowers.held
  have most : 2 * (t.held + arrivals) + (peers + 1) * nTries + 4 ≤
      2 * (s.held + arrivals) + (peers + 1) * nTries + 4 := by omega
  unfold PeerState.turnsLeft
  rcases lowers.lower with lower | ⟨same, less⟩
  · have less : t.level + 3 * arrivals + 1 ≤ s.level + 3 * arrivals := by omega
    have product := Nat.mul_le_mul most less
    rw [Nat.mul_add, Nat.mul_one] at product
    omega
  · have product := Nat.mul_le_mul_right (t.level + 3 * arrivals) most
    rw [same] at product ⊢
    omega

theorem deliver_turnsLeft (msg : Message) (arrivals : Nat) :
    (deliver s msg).turnsLeft peers arrivals ≤ s.turnsLeft peers (arrivals + 1) := by
  have held : (deliver s msg).held = s.held + 1 := by
    simp [deliver, PeerState.held, PeerState.placeBack]
    omega
  have remaining : (deliver s msg).remaining = s.remaining + 2 := by
    simp [deliver, PeerState.remaining, PeerState.placeBack]
    omega
  have level : (deliver s msg).level = s.level + 2 := by
    unfold PeerState.level
    rw [held]
    simp only [deliver, PeerState.placeBack]
    omega
  unfold PeerState.turnsLeft
  rw [held, remaining, level, Nat.add_right_comm s.held, Nat.add_assoc s.held arrivals 1,
    show s.level + 3 * (arrivals + 1) = s.level + 2 + 3 * arrivals + 1 by omega, Nat.mul_add _ _ 1]
  omega

end Measure

section Run

def PeerEvent.turns : PeerEvent → Nat
  | .turn => 1
  | _ => 0

def PeerEvent.arrivals : PeerEvent → Nat
  | .deliver _ => 1
  | _ => 0

/-- New network information names no more than so many peers. -/
def PeerEvent.Informs (peers : Nat) : PeerEvent → Prop
  | .netinfo info => info.length ≤ peers
  | _ => True

instance (peers : Nat) (e : PeerEvent) : Decidable (e.Informs peers) :=
  match e with
  | .netinfo info => inferInstanceAs (Decidable (info.length ≤ peers))
  | .turn | .deliver _ => isTrue trivial

variable {powGroup : IProofOfWork Bytes Bytes} {s : PeerState sha256} {peers : Nat} {e : PeerEvent}

theorem bounded_react (informs : e.Informs peers) (known : s.networkInfo.length ≤ peers)
    (h : Holds (peersFacts sha256 peers) s) :
    (react powGroup s e).networkInfo.length ≤ peers ∧
      Holds (peersFacts sha256 peers) (react powGroup s e) := by
  cases e with
  | turn =>
    have same : (turn powGroup s).1.identity = s.identity := turn_identity
    simp only [PeerState.identity, Prod.mk.injEq] at same
    refine ⟨?_, turn_holds (peersFacts_closed known) h⟩
    simp only [react, same.2.1]
    exact known
  | deliver msg => exact ⟨known, deliver_holds h trivial⟩
  | netinfo info =>
    refine ⟨?_, netinfo_holds h info⟩
    simp only [react, receiveNetinfo]
    split <;> exact informs

theorem deciding_progress (inside : Deciding peers s) (informs : e.Informs peers) :
    (react powGroup s e).control = .run ∨
      Deciding peers (react powGroup s e) ∧ ∀ a,
        (react powGroup s e).turnsLeft peers a + e.turns ≤ s.turnsLeft peers (a + e.arrivals) := by
  obtain ⟨known, holds⟩ := @bounded_react _ powGroup _ _ _ informs inside.known inside.holds
  cases e with
  | turn =>
    rcases @deciding_turn _ powGroup _ inside.deciding with ended | lowers
    · exact Or.inl ended
    · exact Or.inr ⟨⟨lowers.deciding, known, holds⟩, turnsLeft_lowers holds lowers⟩
  | deliver msg => exact Or.inr ⟨⟨inside.deciding, known, holds⟩, deliver_turnsLeft msg⟩
  | netinfo info =>
    obtain ⟨control, inbox, -⟩ := receiveNetinfo_static (s := s) info
    refine Or.inr ⟨⟨?_, known, holds⟩, fun a => Nat.le_of_eq ?_⟩
    · rw [react, control]
      exact inside.deciding
    · simp only [react, PeerState.turnsLeft, PeerState.level, PeerState.remaining, PeerState.held,
        control, inbox, PeerEvent.turns, PeerEvent.arrivals, Nat.add_zero]

/-- The turns until RequestBlockchainBlock returns. -/
def PeerState.pollsLeft (arrivals : Nat) (s : PeerState sha256) : Nat :=
  match s.control with
  | .awaitBlock f _ => s.inbox.length + arrivals + (nTries - f.tries)
  | _ => 0

def Control.Asking (control : Control) : Prop := ∃ f caller, control = .awaitBlock f caller

theorem asking_progress (inside : s.control.Asking) :
    ¬ (react powGroup s e).control.Asking ∨
      (react powGroup s e).control.Asking ∧ ∀ a,
        (react powGroup s e).pollsLeft a + e.turns ≤ s.pollsLeft (a + e.arrivals) := by
  obtain ⟨f, caller, hc⟩ := inside
  cases e with
  | turn =>
    have turned : BlockTurn s (turn powGroup s).1 := block_turn (by rw [hc]; rfl)
    cases turned with
    | request caller' before => rw [hc] at before; cases before
    | alone caller' before => rw [hc] at before; cases before
    | read f' g caller' msg before asking waiting same hears undecided inTime after =>
      rw [hc] at before
      cases before
      refine Or.inr ⟨⟨g, caller, after⟩, fun a => ?_⟩
      have tries := (hears_tries hears).1
      simp only [react, PeerState.pollsLeft, after, hc, waiting, List.length_cons, tries,
        PeerEvent.turns, PeerEvent.arrivals]
      omega
    | decided f' g caller' msg inbox largestBlock before asking waiting hears decision placed
        after =>
      left
      rcases after with ⟨_, _, after⟩ | ⟨b, _, _, after⟩
      · rintro ⟨f, caller, again⟩
        rw [react, after] at again
        cases caller' <;> cases again
      · rintro ⟨f, caller, again⟩
        rw [react, after] at again
        cases again
    | poll f' caller' before asking waiting kept same inTime after =>
      rw [hc] at before
      cases before
      refine Or.inr ⟨⟨_, caller, after⟩, fun a => ?_⟩
      simp only [react, PeerState.pollsLeft, after, hc, kept, PeerEvent.turns, PeerEvent.arrivals]
      omega
    | readLate f' g caller' msg inbox before asking waiting hears late same placed after =>
      left
      rintro ⟨f, caller, again⟩
      rw [react, after] at again
      cases again
    | failed f' caller' before waiting same placed after =>
      left
      rintro ⟨f, caller, again⟩
      rw [react, after] at again
      cases again
  | deliver msg =>
    refine Or.inr ⟨⟨f, caller, hc⟩, fun a => ?_⟩
    simp only [react, deliver, PeerState.placeBack, PeerState.pollsLeft, hc, List.length_append,
      List.length_singleton, PeerEvent.turns, PeerEvent.arrivals]
    omega
  | netinfo info =>
    obtain ⟨control, inbox, -⟩ := receiveNetinfo_static (s := s) info
    refine Or.inr ⟨⟨f, caller, ?_⟩, fun a => Nat.le_of_eq ?_⟩
    · rw [react, control, hc]
    · simp only [react, PeerState.pollsLeft, control, inbox, hc, PeerEvent.turns,
        PeerEvent.arrivals, Nat.add_zero]

/-- Whatever arrives in between, a call of RequestBlockchainBlock returns, and a peer that decides
on requests or on its own batch gets back to the head of the loop of Run, within this many turns. -/
theorem waits_end (powGroup : IProofOfWork Bytes Bytes) (ownPa : PeerAddress)
    (info : List PeerAddress) (bc : Blockchain (sha256FromDataAndHash sha256))
    (transactions : List Transactions) (peers : Nat) (few : info.length ≤ peers)
    (es fs : List PeerEvent) (informed : ∀ e ∈ es ++ fs, e.Informs peers) (s : PeerState sha256)
    (reached : s = Lts.run (react powGroup) (.ready ownPa info bc transactions) es) :
    (s.control.Asking →
      s.pollsLeft (Lts.total PeerEvent.arrivals fs) < Lts.total PeerEvent.turns fs →
      ∃ k ≤ fs.length, ¬ (Lts.run (react powGroup) s (fs.take k)).control.Asking) ∧
    (s.control.deciding = true →
      s.turnsLeft peers (Lts.total PeerEvent.arrivals fs) < Lts.total PeerEvent.turns fs →
      ∃ k ≤ fs.length, (Lts.run (react powGroup) s (fs.take k)).control = .run) := by
  have bounded : s.networkInfo.length ≤ peers ∧ Holds (peersFacts sha256 peers) s := by
    rw [reached]
    exact @Lts.invariant_run _ _ _ _
      (fun s => s.networkInfo.length ≤ peers ∧ Holds (peersFacts sha256 peers) s)
      (fun _ _ inv informs => bounded_react informs inv.1 inv.2) _ _
      ⟨few, ready_holds ownPa info bc transactions⟩
      (Lts.throughout_of_all (fun e member => informed e (List.mem_append_left _ member)) _)
  have later : Lts.Throughout (react powGroup) (fun _ e => e.Informs peers) s fs :=
    Lts.throughout_of_all (fun e member => informed e (List.mem_append_right _ member)) s
  constructor
  · intro asking enough
    exact @Lts.ends_within _ _ _ _ (fun s => s.control.Asking) (fun s => ¬ s.control.Asking)
      PeerEvent.turns PeerEvent.arrivals PeerState.pollsLeft
      (fun _ _ inside _ => asking_progress inside) _ _ asking later enough
  · intro deciding enough
    exact @Lts.ends_within _ _ _ _ (Deciding peers) (fun s => s.control = .run)
      PeerEvent.turns PeerEvent.arrivals (PeerState.turnsLeft peers)
      (fun _ _ inside informs => deciding_progress inside informs) _ _
      ⟨deciding, bounded.1, bounded.2⟩ later enough

/-- One of three peers, with a batch, starts to refresh its chain, and later to collect votes. -/
def refreshing : List PeerEvent :=
  [.netinfo [⟨2, 80, 0⟩, ⟨2, 80, 1⟩, ⟨2, 80, 2⟩], .turn, .turn]

def collecting : List PeerEvent :=
  refreshing ++ [.deliver ⟨⟨2, 80, 1⟩, 1, .noBlock⟩, .turn, .turn, .turn,
    .deliver ⟨⟨2, 80, 1⟩, 1, .noBlock⟩, .turn, .turn]

theorem others_silent_ends :
    let powGroup := hashCash HashCash.squeeze 24
    let start : PeerState HashCash.squeeze := .ready ⟨2, 80, 0⟩ [] Blockchain.new [default]
    (∃ k ≤ 13, ¬ (Lts.run (react powGroup) (Lts.run (react powGroup) start refreshing)
      ((.deliver ⟨⟨2, 80, 2⟩, 0, .requestBlock⟩ :: List.replicate 12 .turn).take
        k)).control.Asking) ∧
    ∃ k ≤ 221, (Lts.run (react powGroup) (Lts.run (react powGroup) start collecting)
      ((.deliver ⟨⟨2, 80, 2⟩, 1, .vote false []⟩ :: List.replicate 220 .turn).take
        k)).control = .run :=
  ⟨(waits_end (hashCash HashCash.squeeze 24) ⟨2, 80, 0⟩ [] Blockchain.new [default] 3 (by decide)
      refreshing (.deliver ⟨⟨2, 80, 2⟩, 0, .requestBlock⟩ :: List.replicate 12 .turn)
      (by decide) _ rfl).1 ⟨_, _, rfl⟩ (by decide +kernel),
    (waits_end (hashCash HashCash.squeeze 24) ⟨2, 80, 0⟩ [] Blockchain.new [default] 3 (by decide)
      collecting (.deliver ⟨⟨2, 80, 2⟩, 1, .vote false []⟩ :: List.replicate 220 .turn)
      (by decide +kernel) _ rfl).2 (by decide +kernel)
      (by decide +kernel)⟩

end Run

end DPS2.Application
