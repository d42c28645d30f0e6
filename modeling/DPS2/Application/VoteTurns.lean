import DPS2.Application.Proposals
import DPS2.Application.Effects

/-! What one turn can do while CheckVotesForBlock runs, in the call at hand or in one that is
nested in it. -/
namespace DPS2.Application

open P2P ProofOfWork

variable {sha256 : Bytes → Bytes}

/-- The calls of CheckVotesForBlock that have not returned to their callers yet. -/
def Control.frames : Control → List VoteFrame
  | .awaitVotes f below _ => f :: below
  | .majority f below _ => f :: below
  | .checked _ f below _ => f :: below
  | .handled _ below _ => below
  | _ => []

/-- What the call with so many waiting calls below it has just returned. -/
def PeerState.voteResult (depth : Nat) (s : PeerState sha256) : Option Bool :=
  match s.control with
  | .checked result _ below _ => if below.length = depth then some result else none
  | _ => none

/-- The messages CheckVotesForBlock puts into read_messages. -/
def isDeferred (size : Nat) (m : Message) : Bool :=
  match m.body with
  | .vote _ _ => decide (size < m.index)
  | .requestBlock => decide (size < m.index)
  | .addRequest _ _ => m.index != size
  | _ => false

/-- The vote a message holds for this block. -/
def ballot (size : Nat) (hash : Bytes) (m : Message) : Option (PeerAddress × Bool) :=
  match m.body with
  | .vote agree h => if m.index = size ∧ h = hash then some (m.peerAddress, agree) else none
  | _ => none

/-- What becomes of the frame at hand when its call reads a message that it keeps to itself. -/
inductive Reads (size : Nat) (f : VoteFrame) (msg : Message) : VoteFrame → Prop where
  | counted (pa : PeerAddress) (agree : Bool)
      (vote : ballot size f.reqBlock.hash msg = some (pa, agree)) (fresh : pa ∉ f.clientsSeen) :
      Reads size f msg { f with
        nAgrees := f.nAgrees + agree.toNat
        nDisagrees := f.nDisagrees + (!agree).toNat
        clientsSeen := f.clientsSeen ++ [pa] }
  | repeated (pa : PeerAddress) (agree : Bool)
      (vote : ballot size f.reqBlock.hash msg = some (pa, agree)) (seen : pa ∈ f.clientsSeen) :
      Reads size f msg f
  | ignored (other : ballot size f.reqBlock.hash msg = none) (now : isDeferred size msg = false) :
      Reads size f msg f
  | deferred (other : ballot size f.reqBlock.hash msg = none) (later : isDeferred size msg = true) :
      Reads size f msg (f.defer msg)

inductive VoteTurn (s t : PeerState sha256) : Prop where
  | read (f g : VoteFrame) (below : List VoteFrame) (read : List Message) (msg : Message)
      (before : s.control = .awaitVotes f below read)
      (asking : f.clientsSeen.length + 1 < f.nPeers) (waiting : s.inbox = msg :: t.inbox)
      (own : isCurrent s.bc.size msg = false) (reads : Reads s.bc.size f msg g)
      (after : t.control = .majority g below read)
  | request (f : VoteFrame) (below : List VoteFrame) (read : List Message) (msg : Message)
      (before : s.control = .awaitVotes f below read)
      (asking : f.clientsSeen.length + 1 < f.nPeers) (waiting : s.inbox = msg :: t.inbox)
      (nested : isCurrent s.bc.size msg = true)
      (after : (∃ agree b nPeers, t.control = .awaitVotes
          (.start (.handleBlockAdditionRequest agree) b nPeers agree) (f :: below) read) ∨
        ∃ agree, t.control = .handled agree (f :: below) read)
  | poll (f : VoteFrame) (below : List VoteFrame) (read : List Message)
      (before : s.control = .awaitVotes f below read)
      (asking : f.clientsSeen.length + 1 < f.nPeers) (waiting : s.inbox = [])
      (kept : t.inbox = s.inbox)
      (after : t.control = .awaitVotes { f with tries := f.tries + 1 } below read)
  | again (f : VoteFrame) (below : List VoteFrame) (read : List Message)
      (before : s.control = .majority f below read) (kept : t.inbox = s.inbox)
      (undecided : f.nAgrees ≤ f.nPeers / 2 ∧ f.nDisagrees ≤ f.nPeers / 2)
      (after : t.control = .awaitVotes f below read)
  | placedBack (result : Bool) (f g : VoteFrame) (below : List VoteFrame) (read : List Message)
      (before : s.control = .awaitVotes f below read ∧
          (s.inbox = [] ∨ ¬ f.clientsSeen.length + 1 < f.nPeers) ∨
        s.control = .majority f below read)
      (same : g = f ∨ g = { f with tries := f.tries + 1 })
      (wins : result = true → f.Wins)
      (loses : result = false → f.nDisagrees > f.nPeers / 2 ∨ f.nPeers * nTries ≤ g.tries ∨
        ¬ f.clientsSeen.length + 1 < f.nPeers ∧
          ¬ f.nAgrees > f.nDisagrees + f.nPeers - (f.clientsSeen.length + 1))
      (returned : t.inbox = s.inbox ++ f.readMessages)
      (after : t.control = .checked result g below read)
  | closed (result agree : Bool) (f : VoteFrame) (below : List VoteFrame) (read : List Message)
      (before : s.control = .checked result f below read) (kept : t.inbox = s.inbox)
      (after : t.control = .handled agree below read)
  | yielded (f : VoteFrame) (below : List VoteFrame) (read : List Message)
      (before : s.control = .handled true (f :: below) read) (kept : t.inbox = s.inbox)
      (after : t.control = .checked false f below read)
  | resumed (f : VoteFrame) (below : List VoteFrame) (read : List Message)
      (before : s.control = .handled false (f :: below) read) (kept : t.inbox = s.inbox)
      (after : t.control = .majority f below read)

section Turns

variable {powGroup : IProofOfWork Bytes Bytes} {s : PeerState sha256} {f : VoteFrame}
  {below : List VoteFrame} {read : List Message} {msg : Message}

theorem reads_vote (f : VoteFrame) {size : Nat} {agree : Bool} {hash : Bytes}
    (body : msg.body = .vote agree hash) (current : msg.index = size) :
    Reads size f msg (f.countVote msg.peerAddress agree hash) := by
  have now : isDeferred size msg = false := by simp [isDeferred, body, current]
  unfold VoteFrame.countVote
  split
  · rename_i seen
    by_cases same : hash = f.reqBlock.hash
    · exact .repeated _ agree (by simp [ballot, body, current, same]) (clientFound_iff.mp seen)
    · exact .ignored (by simp [ballot, body, same]) now
  · rename_i unseen
    rw [clientFound_iff] at unseen
    split
    · rename_i same
      exact .counted _ agree (by simp [ballot, body, current, same]) unseen
    · rename_i different
      exact .ignored (by simp [ballot, body, different]) now

theorem readVoteMessage_turn {inbox : List Message} (hc : s.control = .awaitVotes f below read)
    (asking : f.clientsSeen.length + 1 < f.nPeers) (waiting : s.inbox = msg :: inbox) :
    VoteTurn s (readVoteMessage powGroup { s with inbox } f below read msg).1 := by
  have own : ∀ g, isCurrent s.bc.size msg = false → Reads s.bc.size f msg g →
      VoteTurn s ({ s with inbox }.goto (.majority g below read)) :=
    fun g mine reads => .read f g below read msg hc asking waiting mine reads rfl
  unfold readVoteMessage
  split
  · rename_i agree hash body
    have mine : isCurrent s.bc.size msg = false := by simp [isCurrent, body]
    dsimp only
    split
    · rename_i early
      split
      · rename_i current
        exact own _ mine (reads_vote f body current)
      · rename_i older
        refine own f mine (.ignored (by simp [ballot, body, older]) ?_)
        simpa [isDeferred, body] using early
    · rename_i late
      refine own _ mine (.deferred ?_ ?_)
      · have other : msg.index ≠ s.bc.size := by omega
        simp [ballot, body, other]
      · simpa [isDeferred, body] using late
  · rename_i body
    have mine : isCurrent s.bc.size msg = false := by simp [isCurrent, body]
    dsimp only
    split
    · rename_i early
      refine own f mine (.ignored (by simp [ballot, body]) ?_)
      simpa [isDeferred, body] using early
    · rename_i late
      refine own _ mine (.deferred (by simp [ballot, body]) ?_)
      simpa [isDeferred, body] using late
  · rename_i pow b body
    dsimp only
    split
    · rename_i current
      have nested : isCurrent s.bc.size msg = true := by simp [isCurrent, body, current]
      have inTime : ¬ msg.index > s.bc.size := by omega
      unfold handleBlockAdditionRequest
      dsimp only
      split
      · exact .request f below read msg hc asking waiting nested (Or.inl ⟨_, _, _, rfl⟩)
      · exact .request f below read msg hc asking waiting nested (Or.inr ⟨_, rfl⟩)
    · rename_i other
      refine own _ (by simp [isCurrent, body, other]) (.deferred (by simp [ballot, body]) ?_)
      simpa [isDeferred, body] using other
  · rename_i noVote noRequest noAddition
    refine own f ?_ (.ignored ?_ ?_)
    · cases body : msg.body with
      | addRequest pow b => exact absurd body (noAddition pow b)
      | _ => simp [isCurrent, body]
    · cases body : msg.body with
      | vote agree hash => exact absurd body (noVote agree hash)
      | _ => simp [ballot, body]
    · cases body : msg.body with
      | vote agree hash => exact absurd body (noVote agree hash)
      | requestBlock => exact absurd body noRequest
      | addRequest pow b => exact absurd body (noAddition pow b)
      | _ => simp [isDeferred, body]

theorem awaitVotes_turn (hc : s.control = .awaitVotes f below read) :
    VoteTurn s (awaitVotes powGroup s f below read).1 := by
  unfold awaitVotes
  split
  · rename_i asking
    split
    · rename_i msg inbox waiting
      exact readVoteMessage_turn hc asking waiting
    · rename_i empty
      dsimp only
      split
      · rename_i out
        refine .placedBack false f { f with tries := f.tries + 1 } below read
          (Or.inl ⟨hc, Or.inl empty⟩) (Or.inr rfl) ?_ (fun _ => Or.inr (Or.inl out)) rfl rfl
        exact fun wins => by cases wins
      · exact .poll f below read hc asking empty rfl rfl
  · rename_i left
    refine .placedBack _ f f below read (Or.inl ⟨hc, Or.inr left⟩) (Or.inl rfl)
      (fun wins => Or.inr ⟨left, of_decide_eq_true wins⟩) (fun loses => ?_) rfl rfl
    exact Or.inr (Or.inr ⟨left, of_decide_eq_false loses⟩)

theorem majority_turn (hc : s.control = .majority f below read) :
    VoteTurn s (majority s f below read).1 := by
  unfold majority
  split
  · rename_i most
    exact .placedBack true f f below read (Or.inr hc) (Or.inl rfl) (fun _ => Or.inl most)
      (fun loses => by cases loses) rfl rfl
  · rename_i agrees
    split
    · rename_i most
      exact .placedBack false f f below read (Or.inr hc) (Or.inl rfl) (fun wins => by cases wins)
        (fun _ => Or.inl most) rfl rfl
    · rename_i disagrees
      split
      · rename_i out
        exact .placedBack false f f below read (Or.inr hc) (Or.inl rfl)
          (fun wins => by cases wins) (fun _ => Or.inr (Or.inl out)) rfl rfl
      · exact .again f below read hc rfl
          ⟨Nat.le_of_not_lt agrees, Nat.le_of_not_lt disagrees⟩ rfl

/-- Every turn that is taken while a call of CheckVotesForBlock runs, if AddBlockToBlockchain
is not the caller of the one that has just returned. -/
theorem vote_turn (running : s.control.frames ≠ [])
    (nested : ∀ result f below read, s.control = .checked result f below read →
      f.origin.own = false) :
    VoteTurn s (turn powGroup s).1 ∧ (turn powGroup s).1.books = s.books := by
  cases hc : s.control with
  | run | requestBlockchain | awaitBlock | handleRequest | addBlock | handleAll =>
    rw [hc] at running
    exact absurd rfl running
  | awaitVotes f below read =>
    simp only [turn, hc]
    exact ⟨awaitVotes_turn hc, (awaitVotes_static f below read).2⟩
  | majority f below read =>
    simp only [turn, hc]
    exact ⟨majority_turn hc, (majority_static f below read).2⟩
  | checked result f below read =>
    have inner := nested result f below read hc
    simp only [turn, hc]
    refine ⟨?_, (checked_static result f below read).2⟩
    unfold checked
    split
    · rename_i index pow origin
      rw [origin] at inner
      cases inner
    · rename_i agree origin
      exact .closed result agree f below read hc rfl rfl
  | handled agree below read =>
    simp only [turn, hc]
    refine ⟨?_, (handled_static agree below read).2⟩
    cases below with
    | nil =>
      rw [hc] at running
      exact absurd rfl running
    | cons f below =>
      cases agree with
      | true => exact .yielded f below read hc rfl rfl
      | false => exact .resumed f below read hc rfl rfl

end Turns

end DPS2.Application
