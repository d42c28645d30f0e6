import DPS2.Application.VoteCount

/-! Which messages a call of CheckVotesForBlock hands back. Every exit places back what was
deferred, except the one that yields to a request with a smaller hash. -/
namespace DPS2.Application

open P2P ProofOfWork

variable {sha256 : Bytes → Bytes}

/-- A peer during a call of CheckVotesForBlock, all messages that were in the inbox or have
arrived, and those that a call has deferred and not placed back when it yielded. -/
structure VoteAccount (sha256 : Bytes → Bytes) where
  peer : PeerState sha256
  arrived : List Message
  lost : List Message

/-- What the call that yields in the next turn has deferred. -/
def PeerState.forgets (s : PeerState sha256) : List Message :=
  match s.control with
  | .handled true (f :: _) _ => f.readMessages
  | _ => []

/-- The frames whose deferred messages are not in the inbox. -/
def Control.holding : Control → List VoteFrame
  | .awaitVotes f below _ => f :: below
  | .majority f below _ => f :: below
  | .checked _ _ below _ => below
  | .handled _ below _ => below
  | _ => []

section Account

variable (powGroup : IProofOfWork Bytes Bytes) (depth : Nat)

def VoteAccount.start (s : PeerState sha256) : VoteAccount sha256 := ⟨s, s.inbox, []⟩

def VoteAccount.step (c : VoteAccount sha256) (e : PeerEvent) : VoteAccount sha256 where
  peer := react powGroup c.peer e
  arrived := c.arrived ++ match e with
    | .deliver msg => [msg]
    | _ => []
  lost := c.lost ++ match e with
    | .turn => c.peer.forgets
    | _ => []

def Undecided (c : VoteAccount sha256) (_ : PeerEvent) : Prop := c.peer.voteResult depth = none

instance decidableUndecided (c : VoteAccount sha256) (e : PeerEvent) :
    Decidable (Undecided depth c e) := inferInstanceAs (Decidable (_ = _))

/-- The step is no turn in which a call yields that has deferred a message. -/
def Remembers (c : VoteAccount sha256) (e : PeerEvent) : Prop :=
  match e with
  | .turn => c.peer.forgets = []
  | _ => True

instance decidableRemembers (c : VoteAccount sha256) (e : PeerEvent) :
    Decidable (Remembers c e) := by
  cases e with
  | turn => exact inferInstanceAs (Decidable (c.peer.forgets = []))
  | deliver | netinfo => exact isTrue trivial

end Account

/- The stack of the calls. -/

/-- The frame of the call is on the stack above the calls that wait for it, and only frames of
nested calls are above it. -/
def Stacked (P : VoteFrame → Prop) (below frames : List VoteFrame) : Prop :=
  ∃ inner f, frames = inner ++ f :: below ∧ (∀ g ∈ inner, g.origin.own = false) ∧
    ∀ g ∈ inner ++ [f], P g

section Stack

variable {P : VoteFrame → Prop} {below rest frames : List VoteFrame} {f g : VoteFrame}

theorem Stacked.replace (h : Stacked P below (f :: rest)) (same : g.origin = f.origin)
    (next : P f → P g) : Stacked P below (g :: rest) := by
  obtain ⟨inner, f', stack, nested, all⟩ := h
  cases inner with
  | nil =>
    cases stack
    exact ⟨[], g, rfl, nested, by simpa using next (all _ (by simp))⟩
  | cons g' inner =>
    cases stack
    refine ⟨g :: inner, f', rfl, all_cons ?_ ?_, all_cons (next (all _ (by simp))) ?_⟩
    · rw [same]
      exact nested f (by simp)
    · exact fun a inside => nested a (by simp [inside])
    · exact fun a inside => all a (List.mem_cons_of_mem _ inside)

theorem Stacked.push (h : Stacked P below frames) (nested : g.origin.own = false) (new : P g) :
    Stacked P below (g :: frames) := by
  obtain ⟨inner, f', rfl, others, all⟩ := h
  exact ⟨g :: inner, f', rfl, all_cons nested others, all_cons new all⟩

theorem Stacked.pop (h : Stacked P below (f :: rest)) (deeper : rest.length ≠ below.length) :
    Stacked P below rest := by
  obtain ⟨inner, f', stack, nested, all⟩ := h
  cases inner with
  | nil =>
    cases stack
    exact absurd rfl deeper
  | cons g inner =>
    cases stack
    exact ⟨inner, f', rfl, fun a inside => nested a (by simp [inside]),
      fun a inside => all a (List.mem_cons_of_mem _ inside)⟩

theorem Stacked.top (h : Stacked P below (f :: rest)) : P f := by
  obtain ⟨inner, f', stack, _, all⟩ := h
  cases inner with
  | nil =>
    cases stack
    exact all _ (by simp)
  | cons g inner =>
    cases stack
    exact all _ (by simp)

/-- A frame with no frames of nested calls on it is that of the call. -/
theorem Stacked.bottom (h : Stacked P below (f :: rest)) (same : rest.length = below.length) :
    rest = below := by
  obtain ⟨inner, f', stack, _, _⟩ := h
  cases inner with
  | nil =>
    cases stack
    rfl
  | cons g inner =>
    cases stack
    simp at same
    omega

theorem Stacked.nested (h : Stacked P below (f :: rest)) (deeper : rest.length ≠ below.length) :
    f.origin.own = false := by
  obtain ⟨inner, f', stack, nested, _⟩ := h
  cases inner with
  | nil =>
    cases stack
    exact absurd rfl deeper
  | cons g inner =>
    cases stack
    exact nested _ (by simp)

end Stack

/- The account of the deferred messages. -/

def Defers (size : Nat) (f : VoteFrame) : Prop := ∀ m ∈ f.readMessages, isDeferred size m = true

def heldBy (frames : List VoteFrame) : List Message := frames.flatMap VoteFrame.readMessages

/-- Whatever is to be deferred is in the inbox, in a frame or lost. -/
structure Balanced (bc : Blockchain (sha256FromDataAndHash sha256)) (below : List VoteFrame)
    (c : VoteAccount sha256) : Prop where
  chain : c.peer.bc = bc
  stack : Stacked (Defers bc.size) below c.peer.control.frames
  dropped : ∀ m ∈ c.lost, isDeferred bc.size m = true
  balance : ∀ m, isDeferred bc.size m = true →
    c.peer.inbox.count m + (heldBy c.peer.control.holding).count m + c.lost.count m =
      c.arrived.count m + (heldBy below).count m

section Balance

variable {powGroup : IProofOfWork Bytes Bytes} {bc : Blockchain (sha256FromDataAndHash sha256)}
  {below rest : List VoteFrame} {c : VoteAccount sha256} {f g : VoteFrame} {size : Nat}
  {msg m : Message} {read : List Message}

@[simp] theorem heldBy_cons : heldBy (f :: rest) = f.readMessages ++ heldBy rest := rfl

theorem ballot_now {hash : Bytes} {vote : PeerAddress × Bool}
    (h : ballot size hash msg = some vote) :
    isDeferred size msg = false := by
  unfold ballot at h
  split at h
  · rename_i agree h body
    split at h
    · rename_i current
      simp [isDeferred, body, current.1]
    · contradiction
  · contradiction

theorem current_now (current : isCurrent size msg = true) : isDeferred size msg = false := by
  unfold isCurrent at current
  split at current
  · rename_i body
    simpa [isDeferred, body] using current
  · contradiction

theorem count_now (now : isDeferred size msg = false) (deferred : isDeferred size m = true)
    (inbox : List Message) : (msg :: inbox).count m = inbox.count m := by
  refine List.count_cons_of_ne fun same => ?_
  rw [same, deferred] at now
  contradiction

theorem Reads.defers (reads : Reads size f msg g) (h : Defers size f) : Defers size g := by
  cases reads with
  | counted | repeated | ignored => exact h
  | deferred other later => exact all_snoc h later

/-- A message to be deferred goes from the inbox into the frame. -/
theorem Reads.balance (reads : Reads size f msg g) (deferred : isDeferred size m = true)
    (inbox : List Message) :
    (msg :: inbox).count m + f.readMessages.count m = inbox.count m + g.readMessages.count m := by
  cases reads with
  | counted pa agree vote | repeated pa agree vote => rw [count_now (ballot_now vote) deferred]
  | ignored other now => rw [count_now now deferred]
  | deferred other later =>
    simp only [VoteFrame.defer, List.count_append, List.count_cons, List.count_nil]
    omega

theorem forgets_elsewhere {s : PeerState sha256}
    (other : ∀ f rest read, s.control ≠ .handled true (f :: rest) read) : s.forgets = [] := by
  unfold PeerState.forgets
  split
  · rename_i f rest read hc
    exact absurd hc (other f rest read)
  · rfl

/-- A turn that takes nothing and leaves the calls on the stack as they are. -/
theorem Balanced.same_frames (h : Balanced bc below c) {t : PeerState sha256}
    (chain : t.bc = bc) (inbox : t.inbox = c.peer.inbox)
    (frames : t.control.frames = c.peer.control.frames)
    (holding : t.control.holding = c.peer.control.holding) (forgets : c.peer.forgets = []) :
    Balanced bc below ⟨t, c.arrived, c.lost ++ c.peer.forgets⟩ := by
  rw [forgets, List.append_nil]
  refine ⟨chain, ?_, h.dropped, fun m deferred => ?_⟩
  · rw [frames]
    exact h.stack
  · rw [inbox, holding]
    exact h.balance m deferred

theorem balanced_turn (h : Balanced bc below c)
    (undecided : c.peer.voteResult below.length = none) :
    Balanced bc below (c.step powGroup .turn) := by
  have ⟨chain, stack, dropped, balance⟩ := h
  have deeper : ∀ result f rest read, c.peer.control = .checked result f rest read →
      rest.length ≠ below.length := by
    intro result f rest read hc same
    simp [PeerState.voteResult, hc, same] at undecided
  obtain ⟨turned, books⟩ := @vote_turn _ powGroup c.peer
    (by
      obtain ⟨inner, f, frames, _, _⟩ := stack
      simp [frames])
    (fun result f rest read hc => by
      rw [hc] at stack
      exact stack.nested (deeper result f rest read hc))
  have still : (turn powGroup c.peer).1.bc = bc := (congrArg Books.bc books).trans chain
  unfold VoteAccount.step
  dsimp only [react]
  rw [List.append_nil]
  generalize (turn powGroup c.peer).1 = t at turned still
  cases turned with
  | read f g rest read msg before asking waiting own reads after =>
    rw [chain] at reads
    rw [before] at stack balance
    rw [forgets_elsewhere (by simp [before]), List.append_nil]
    refine ⟨still, ?_, dropped, fun m deferred => ?_⟩
    · rw [after]
      exact stack.replace (reads_origin reads) reads.defers
    · have total := balance m deferred
      have moved := reads.balance deferred t.inbox
      rw [waiting] at total
      simp only [after, Control.holding, heldBy_cons, List.count_append] at total ⊢
      omega
  | request f rest read msg before asking waiting current after =>
    rw [chain] at current
    rw [before] at stack balance
    rw [forgets_elsewhere (by simp [before]), List.append_nil]
    have kept : ∀ m, isDeferred bc.size m = true →
        t.inbox.count m + (heldBy (f :: rest)).count m + c.lost.count m =
          c.arrived.count m + (heldBy below).count m := by
      intro m deferred
      rw [← balance m deferred, waiting, count_now (current_now current) deferred]
      rfl
    rcases after with ⟨agree, b, nPeers, after⟩ | ⟨agree, after⟩
    · refine ⟨still, ?_, dropped, fun m deferred => ?_⟩
      · rw [after]
        exact Stacked.push stack rfl (by simp [Defers, VoteFrame.start])
      · rw [after]
        exact kept m deferred
    · refine ⟨still, ?_, dropped, fun m deferred => ?_⟩
      · rw [after]
        exact stack
      · rw [after]
        exact kept m deferred
  | poll f rest read before asking waiting kept after =>
    rw [before] at stack balance
    rw [forgets_elsewhere (by simp [before]), List.append_nil]
    refine ⟨still, ?_, dropped, fun m deferred => ?_⟩
    · rw [after]
      exact stack.replace rfl id
    · rw [after, kept]
      exact balance m deferred
  | again f rest read before kept undecided after =>
    exact h.same_frames still kept (by rw [before, after]; rfl) (by rw [before, after]; rfl)
      (forgets_elsewhere (by simp [before]))
  | placedBack result f g rest read before same wins loses placed after =>
    have frames : c.peer.control.frames = f :: rest ∧ c.peer.control.holding = f :: rest ∧
        c.peer.forgets = [] := by
      rcases before with ⟨hc, _⟩ | hc
      · exact ⟨by rw [hc]; rfl, by rw [hc]; rfl, forgets_elsewhere (by simp [hc])⟩
      · exact ⟨by rw [hc]; rfl, by rw [hc]; rfl, forgets_elsewhere (by simp [hc])⟩
    obtain ⟨onTop, held, forgets⟩ := frames
    rw [onTop] at stack
    rw [forgets, List.append_nil]
    refine ⟨still, ?_, dropped, fun m deferred => ?_⟩
    · rw [after]
      rcases same with rfl | rfl
      · exact stack
      · exact stack.replace rfl id
    · have total := balance m deferred
      rw [held] at total
      simp only [after, placed, Control.holding, heldBy_cons, List.count_append] at total ⊢
      omega
  | closed result agree f rest read before kept after =>
    have popped := deeper result f rest read before
    rw [before] at stack balance
    rw [forgets_elsewhere (by simp [before]), List.append_nil]
    refine ⟨still, ?_, dropped, fun m deferred => ?_⟩
    · rw [after]
      exact stack.pop popped
    · rw [after, kept]
      exact balance m deferred
  | yielded f rest read before kept after =>
    have forgets : c.peer.forgets = f.readMessages := by simp [PeerState.forgets, before]
    rw [before] at stack balance
    rw [forgets]
    refine ⟨still, ?_, all_append dropped stack.top, fun m deferred => ?_⟩
    · rw [after]
      exact stack
    · have total := balance m deferred
      simp only [after, kept, Control.holding, heldBy_cons, List.count_append] at total ⊢
      omega
  | resumed f rest read before kept after =>
    exact h.same_frames still kept (by rw [before, after]; rfl) (by rw [before, after]; rfl)
      (forgets_elsewhere (by simp [before]))

theorem balanced_step (h : Balanced bc below c) (e : PeerEvent)
    (undecided : Undecided below.length c e) : Balanced bc below (c.step powGroup e) := by
  cases e with
  | turn => exact balanced_turn h undecided
  | deliver msg =>
    obtain ⟨chain, stack, dropped, balance⟩ := h
    unfold VoteAccount.step
    dsimp only [react]
    rw [List.append_nil]
    refine ⟨chain, stack, dropped, fun m deferred => ?_⟩
    have total := balance m deferred
    simp only [deliver, PeerState.placeBack, List.count_append] at total ⊢
    omega
  | netinfo info =>
    obtain ⟨chain, stack, dropped, balance⟩ := h
    unfold VoteAccount.step
    dsimp only [react]
    rw [List.append_nil, List.append_nil]
    unfold receiveNetinfo
    split <;> exact ⟨chain, stack, dropped, balance⟩

theorem balanced_start {s : PeerState sha256} {origin : Origin} {b : BType} {nPeers : Nat}
    {ownVote : Bool}
    (called : s.control = .awaitVotes (.start origin b nPeers ownVote) below read) :
    Balanced s.bc below (VoteAccount.start s) := by
  refine ⟨rfl, ⟨[], .start origin b nPeers ownVote, ?_, by simp, by simp [Defers, VoteFrame.start]⟩,
    List.forall_mem_nil _, fun m deferred => ?_⟩
  · simp [VoteAccount.start, called, Control.frames]
  · simp [VoteAccount.start, called, Control.holding, VoteFrame.start]

/-- When the call has returned, what is missing in the inbox has been lost. -/
theorem Balanced.returned (h : Balanced bc below c) {result : Bool}
    (returned : c.peer.voteResult below.length = some result)
    (deferred : isDeferred bc.size m = true) :
    c.peer.inbox.count m + c.lost.count m = c.arrived.count m := by
  obtain ⟨_, stack, _, balance⟩ := h
  unfold PeerState.voteResult at returned
  split at returned
  · rename_i hc
    split at returned
    · rename_i same
      rw [hc] at stack
      have total := balance m deferred
      rw [hc] at total
      simp only [Control.holding, stack.bottom same] at total
      omega
    · contradiction
  · contradiction

theorem lost_step (c : VoteAccount sha256) (e : PeerEvent) :
    (c.step powGroup e).lost = [] ↔ c.lost = [] ∧ Remembers c e := by
  cases e <;> simp [VoteAccount.step, Remembers]

theorem arrived_account (c : VoteAccount sha256) (es : List PeerEvent) :
    (Lts.run (VoteAccount.step powGroup) c es).arrived = c.arrived ++ delivered es := by
  induction es generalizing c with
  | nil => exact (List.append_nil _).symm
  | cons e es ih =>
    rw [Lts.run, ih]
    cases e <;> simp [VoteAccount.step, delivered]

end Balance

/-- When the call has returned, every message that it or a nested call has deferred is in the
inbox, each as often as it was there or has arrived, exactly if no call has yielded to a request
while it had deferred a message. -/
theorem deferred_kept_iff {powGroup : IProofOfWork Bytes Bytes} {s : PeerState sha256}
    {origin : Origin} {b : BType} {nPeers : Nat} {ownVote : Bool} {below : List VoteFrame}
    {read : List Message}
    (called : s.control = .awaitVotes (.start origin b nPeers ownVote) below read)
    {es : List PeerEvent}
    (undecided : Lts.Throughout (VoteAccount.step powGroup) (Undecided below.length)
      (VoteAccount.start s) es) {result : Bool}
    (returned : (Lts.run (VoteAccount.step powGroup) (VoteAccount.start s) es).peer.voteResult
      below.length = some result) :
    (∀ m, isDeferred s.bc.size m = true →
      (Lts.run (VoteAccount.step powGroup) (VoteAccount.start s) es).peer.inbox.count m =
        (s.inbox ++ delivered es).count m) ↔
      Lts.Throughout (VoteAccount.step powGroup) Remembers (VoteAccount.start s) es := by
  have balanced :
      Balanced s.bc below (Lts.run (VoteAccount.step powGroup) (VoteAccount.start s) es) :=
    @Lts.invariant_run _ _ _ _ (Balanced s.bc below)
      (fun _ e h running => balanced_step h e running) _ _ (balanced_start called) undecided
  have clean : (Lts.run (VoteAccount.step powGroup) (VoteAccount.start s) es).lost = [] ↔
      (VoteAccount.start s).lost = [] ∧
        Lts.Throughout (VoteAccount.step powGroup) Remembers (VoteAccount.start s) es :=
    @Lts.clean_iff _ _ _ _ _ (fun c => c.lost = []) (fun c e _ => lost_step c e) _ _ undecided
  have arrived := @arrived_account _ powGroup (VoteAccount.start s) es
  have remembered := clean.trans (and_iff_right rfl)
  rw [← remembered]
  generalize Lts.run (VoteAccount.step powGroup) (VoteAccount.start s) es = c
    at returned balanced arrived ⊢
  change c.arrived = s.inbox ++ delivered es at arrived
  rw [← arrived]
  constructor
  · intro kept
    refine List.eq_nil_iff_forall_not_mem.mpr fun m inside => ?_
    have deferred := balanced.dropped m inside
    have total := balanced.returned returned deferred
    have some_ := List.count_pos_iff.mpr inside
    rw [kept m deferred] at total
    omega
  · intro empty m deferred
    have total := balanced.returned returned deferred
    rw [empty] at total
    simpa using total

/-- Another peer's request for the block that this peer proposes itself. -/
def sameRequest : AdditionRequest :=
  @ownRequest HashCash.squeeze (hashCash HashCash.squeeze 24) ⟨2, 80, 1⟩ Blockchain.new default

/-- A proposer that finds a request for a later block, the request of the other peer and an
agreeing vote for it. -/
def yieldingProposer (early : List Message) : PeerState HashCash.squeeze :=
  { PeerState.ready ⟨2, 80, 0⟩ [⟨2, 80, 1⟩, ⟨2, 80, 2⟩] Blockchain.new [] with
    inbox := early ++ [sameRequest.toMessage,
      ⟨⟨2, 80, 1⟩, 1, .vote true sameRequest.block.hash⟩]
    control := .awaitVotes (.start (.addBlockToBlockchain 1 []) sameRequest.block 2 true) [] [] }

/-- The request for a later block is gone after the call has yielded. -/
theorem early_request_lost :
    ¬ ∀ (s : PeerState HashCash.squeeze) (origin : Origin) (b : BType) (nPeers : Nat)
        (ownVote : Bool) (below : List VoteFrame) (read : List Message) (es : List PeerEvent)
        (result : Bool),
      s.control = .awaitVotes (.start origin b nPeers ownVote) below read →
      Lts.Throughout (VoteAccount.step (hashCash HashCash.squeeze 24)) (Undecided below.length)
        (VoteAccount.start s) es →
      (Lts.run (VoteAccount.step (hashCash HashCash.squeeze 24))
        (VoteAccount.start s) es).peer.voteResult below.length = some result →
      ∀ m, isDeferred s.bc.size m = true →
        (Lts.run (VoteAccount.step (hashCash HashCash.squeeze 24))
          (VoteAccount.start s) es).peer.inbox.count m = (s.inbox ++ delivered es).count m := by
  intro kept
  have count := kept (yieldingProposer [⟨⟨2, 80, 2⟩, 5, .requestBlock⟩]) _ _ _ _ _ _
    (List.replicate 7 .turn) false rfl (by decide +kernel) (by decide +kernel)
    ⟨⟨2, 80, 2⟩, 5, .requestBlock⟩ (by decide +kernel)
  revert count
  decide +kernel

/-- The proposer finds a request for a later block and the agreeing vote of another peer. -/
def acceptedProposer : PeerState HashCash.squeeze :=
  { yieldingProposer [] with
    inbox := [⟨⟨2, 80, 2⟩, 5, .requestBlock⟩, ⟨⟨2, 80, 1⟩, 1, .vote true sameRequest.block.hash⟩] }

theorem early_request_kept :
    let after := Lts.run (VoteAccount.step (hashCash HashCash.squeeze 24))
      (VoteAccount.start acceptedProposer) [.turn, .turn, .turn, .turn]
    ⟨⟨2, 80, 2⟩, 5, .requestBlock⟩ ∈ after.peer.inbox ∧
      ∀ m, isDeferred acceptedProposer.bc.size m = true →
        after.peer.inbox.count m =
          (acceptedProposer.inbox ++ delivered [.turn, .turn, .turn, .turn]).count m :=
  ⟨by decide +kernel,
    (@deferred_kept_iff _ (hashCash HashCash.squeeze 24) acceptedProposer _ _ _ _ _ _ rfl _
      (by decide +kernel) true (by decide +kernel)).mpr (by decide +kernel)⟩

end DPS2.Application
