import DPS2.Application.VoteTurns
import DPS2.Quorum.FirstAnswer

/-! One call of CheckVotesForBlock counts the first matching vote of each address among the
messages that it takes from the inbox itself, and decides by strict majority. -/
namespace DPS2.Application

open P2P ProofOfWork Quorum

variable {sha256 : Bytes → Bytes}

/-- A peer during a call of CheckVotesForBlock, and what this call has taken so far. -/
structure VoteCall (sha256 : Bytes → Bytes) where
  peer : PeerState sha256
  taken : List Message

/-- What the call with so many waiting calls below it takes from the inbox in the next turn. -/
def PeerState.polled (s : PeerState sha256) (depth : Nat) : List Message :=
  match s.control with
  | .awaitVotes f below _ =>
      if below.length = depth ∧ f.clientsSeen.length + 1 < f.nPeers then s.inbox.take 1 else []
  | _ => []

def VoteCall.step (powGroup : IProofOfWork Bytes Bytes) (depth : Nat) (c : VoteCall sha256)
    (e : PeerEvent) : VoteCall sha256 where
  peer := react powGroup c.peer e
  taken := c.taken ++ match e with
    | .turn => c.peer.polled depth
    | _ => []

def VoteCall.result (depth : Nat) (c : VoteCall sha256) : Option Bool := c.peer.voteResult depth

def Unfinished (depth : Nat) (c : VoteCall sha256) (_ : PeerEvent) : Prop := c.result depth = none

instance decidableUnfinished (depth : Nat) (c : VoteCall sha256) (e : PeerEvent) :
    Decidable (Unfinished depth c e) := inferInstanceAs (Decidable (_ = _))

def ballots (size : Nat) (hash : Bytes) (taken : List Message) : List (PeerAddress × Bool) :=
  taken.filterMap (ballot size hash)

/-- The votes for the block, the own vote included, are more than half of n_peers + 1. -/
def StrictMajority (nPeers : Nat) (ownVote : Bool) (ballots : List (PeerAddress × Bool)) : Prop :=
  nPeers + 1 < 2 * (ownVote.toNat + support ballots true)

instance decidableStrictMajority (nPeers : Nat) (ownVote : Bool)
    (ballots : List (PeerAddress × Bool)) : Decidable (StrictMajority nPeers ownVote ballots) :=
  inferInstanceAs (Decidable (_ < _))

/-- The counters of a frame are those of the messages taken. -/
structure Counts (size : Nat) (b : BType) (n : Nat) (ownVote : Bool) (taken : List Message)
    (f : VoteFrame) : Prop where
  reqBlock : f.reqBlock = b
  nPeers : f.nPeers = n + 1
  agrees : f.nAgrees = ownVote.toNat + support (ballots size b.hash taken) true
  disagrees : f.nDisagrees = (!ownVote).toNat + support (ballots size b.hash taken) false
  seen : ∀ pa, pa ∈ f.clientsSeen ↔ pa ∈ voters (ballots size b.hash taken)
  total : f.nAgrees + f.nDisagrees = f.clientsSeen.length + 1
  within : f.clientsSeen.length ≤ n

section Counting

variable {size : Nat} {b : BType} {nPeers : Nat} {ownVote : Bool} {taken : List Message}
  {f g : VoteFrame} {msg : Message}

theorem counts_start (origin : Origin) :
    Counts size b nPeers ownVote [] (VoteFrame.start origin b nPeers ownVote) where
  reqBlock := rfl
  nPeers := rfl
  agrees := rfl
  disagrees := rfl
  seen _ := Iff.rfl
  total := by cases ownVote <;> rfl
  within := Nat.zero_le _

theorem Counts.silent (h : Counts size b nPeers ownVote taken f)
    (other : ballot size b.hash msg = none) : Counts size b nPeers ownVote (taken ++ [msg]) f := by
  have same : ballots size b.hash (taken ++ [msg]) = ballots size b.hash taken := by
    unfold ballots
    rw [List.filterMap_append, List.filterMap_cons_none other, List.filterMap_nil, List.append_nil]
  obtain ⟨reqBlock, peers, agrees, disagrees, seen, total, within⟩ := h
  rw [← same] at agrees disagrees seen
  exact ⟨reqBlock, peers, agrees, disagrees, seen, total, within⟩

theorem counts_read (h : Counts size b nPeers ownVote taken f)
    (asking : f.clientsSeen.length + 1 < f.nPeers) (reads : Reads size f msg g) :
    Counts size b nPeers ownVote (taken ++ [msg]) g := by
  have snoc : ∀ pa agree, ballot size b.hash msg = some (pa, agree) →
      ballots size b.hash (taken ++ [msg]) = ballots size b.hash taken ++ [(pa, agree)] := by
    intro pa agree vote
    unfold ballots
    rw [List.filterMap_append, List.filterMap_cons_some vote, List.filterMap_nil]
  have block := h.reqBlock
  cases reads with
  | counted pa agree vote fresh =>
    rw [block] at vote
    rw [h.seen pa] at fresh
    have peers := h.nPeers
    have total := h.total
    refine ⟨block, peers, ?_, ?_, fun j => ?_, ?_, ?_⟩
    · dsimp only
      rw [h.agrees, snoc pa agree vote, support_snoc_new fresh]
      cases agree <;> rfl
    · dsimp only
      rw [h.disagrees, snoc pa agree vote, support_snoc_new fresh]
      cases agree <;> rfl
    · rw [snoc pa agree vote, voters_snoc, Finset.mem_insert, ← h.seen j, List.mem_append,
        List.mem_singleton, or_comm]
    · rw [List.length_append, List.length_singleton]
      cases agree <;> simp only [Bool.toNat_true, Bool.toNat_false, Bool.not_true,
        Bool.not_false] <;> omega
    · rw [List.length_append, List.length_singleton]
      omega
  | repeated pa agree vote seen =>
    rw [block] at vote
    rw [h.seen pa] at seen
    obtain ⟨reqBlock, peers, agrees, disagrees, seen', total, within⟩ := h
    refine ⟨reqBlock, peers, ?_, ?_, fun j => ?_, total, within⟩
    · rw [agrees, snoc pa agree vote, support_snoc_again seen]
    · rw [disagrees, snoc pa agree vote, support_snoc_again seen]
    · rw [snoc pa agree vote, voters_snoc, Finset.insert_eq_of_mem seen, seen' j]
  | ignored other now =>
    rw [block] at other
    exact h.silent other
  | deferred other later =>
    rw [block] at other
    obtain ⟨reqBlock, peers, agrees, disagrees, seen, total, within⟩ := h.silent other
    exact ⟨reqBlock, peers, agrees, disagrees, seen, total, within⟩

theorem Counts.retry (h : Counts size b nPeers ownVote taken f) (tries : Nat) :
    Counts size b nPeers ownVote taken { f with tries } := by
  obtain ⟨reqBlock, peers, agrees, disagrees, seen, total, within⟩ := h
  exact ⟨reqBlock, peers, agrees, disagrees, seen, total, within⟩

theorem Counts.majority (h : Counts size b nPeers ownVote taken f) (wins : f.Wins) :
    StrictMajority nPeers ownVote (ballots size b.hash taken) := by
  have peers := h.nPeers
  have agrees := h.agrees
  have total := h.total
  have within := h.within
  unfold StrictMajority
  rcases wins with most | ⟨all, more⟩ <;> omega

end Counting

/- Any run of the call. -/

/-- The frame of the call is on the stack above the calls that wait for it, and counts what the
call has taken. -/
structure Counting (bc : Blockchain (sha256FromDataAndHash sha256)) (b : BType) (nPeers : Nat)
    (ownVote : Bool) (below : List VoteFrame) (c : VoteCall sha256) : Prop where
  chain : c.peer.bc = bc
  stack : ∃ inner f, c.peer.control.frames = inner ++ f :: below ∧
    (∀ g ∈ inner, g.origin.own = false) ∧ Counts bc.size b nPeers ownVote c.taken f
  wins : ∀ f rest read, c.peer.control = .checked true f rest read →
    rest.length = below.length → f.Wins

section Run

variable {powGroup : IProofOfWork Bytes Bytes} {bc : Blockchain (sha256FromDataAndHash sha256)}
  {b : BType} {nPeers : Nat} {ownVote : Bool} {below rest : List VoteFrame} {c : VoteCall sha256}
  {f g : VoteFrame}

/-- The frame on top is that of the call, or of a call nested in it. -/
theorem top_frame {inner : List VoteFrame} (stack : g :: rest = inner ++ f :: below) :
    (inner = [] ∧ g = f ∧ rest = below) ∨
      ∃ inner', inner = g :: inner' ∧ rest = inner' ++ f :: below ∧ rest.length ≠ below.length := by
  cases inner with
  | nil =>
    obtain ⟨rfl, rfl⟩ := List.cons.inj stack
    exact Or.inl ⟨rfl, rfl, rfl⟩
  | cons g' inner =>
    rw [List.cons_append] at stack
    obtain ⟨rfl, tail⟩ := List.cons.inj stack
    refine Or.inr ⟨inner, rfl, tail, ?_⟩
    have length := congrArg List.length tail
    rw [List.length_append, List.length_cons] at length
    omega

theorem reads_tries {size : Nat} {msg : Message} (reads : Reads size f msg g) :
    g.tries = f.tries := by
  cases reads <;> rfl

theorem reads_origin {size : Nat} {msg : Message} (reads : Reads size f msg g) :
    g.origin = f.origin := by
  cases reads <;> rfl

section Polled

variable {s : PeerState sha256} {read : List Message} {depth : Nat}

theorem polled_own {msg : Message} {inbox : List Message}
    (hc : s.control = .awaitVotes f below read) (asking : f.clientsSeen.length + 1 < f.nPeers)
    (waiting : s.inbox = msg :: inbox) : s.polled below.length = [msg] := by
  unfold PeerState.polled
  rw [hc, waiting]
  exact if_pos ⟨rfl, asking⟩

theorem polled_nested (hc : s.control = .awaitVotes f rest read) (deeper : rest.length ≠ depth) :
    s.polled depth = [] := by
  unfold PeerState.polled
  rw [hc]
  exact if_neg fun own => deeper own.1

theorem polled_empty (empty : s.inbox = []) : s.polled depth = [] := by
  unfold PeerState.polled
  rw [empty]
  split
  · split <;> rfl
  · rfl

theorem polled_heard (hc : s.control = .awaitVotes f rest read)
    (all : ¬ f.clientsSeen.length + 1 < f.nPeers) : s.polled depth = [] := by
  unfold PeerState.polled
  rw [hc]
  exact if_neg fun own => all own.2

theorem polled_elsewhere (other : ∀ f rest read, s.control ≠ .awaitVotes f rest read) :
    s.polled depth = [] := by
  unfold PeerState.polled
  split
  · rename_i f rest read hc
    exact absurd hc (other f rest read)
  · rfl

end Polled

/-- A changed frame on top of the stack. -/
theorem stack_replaced {P : VoteFrame → Prop} {f₀ : VoteFrame} {inner : List VoteFrame}
    (stack : f₀ :: rest = inner ++ f :: below) (nested : ∀ g ∈ inner, g.origin.own = false)
    (same : g.origin = f₀.origin) (own : f₀ = f → rest = below → P g)
    (other : rest.length ≠ below.length → P f) :
    ∃ inner' f', g :: rest = inner' ++ f' :: below ∧ (∀ g ∈ inner', g.origin.own = false) ∧
      P f' := by
  rcases top_frame stack with ⟨rfl, top, tail⟩ | ⟨inner', rfl, tail, deeper⟩
  · exact ⟨[], g, by rw [tail]; rfl, nested, own top tail⟩
  · refine ⟨g :: inner', f, by rw [tail]; rfl, all_cons ?_ ?_, other deeper⟩
    · rw [same]
      exact nested f₀ List.mem_cons_self
    · exact fun a inside => nested a (List.mem_cons_of_mem _ inside)

/-- A turn that takes nothing and leaves the calls on the stack as they are. -/
theorem Counting.same_frames (h : Counting bc b nPeers ownVote below c) {t : PeerState sha256}
    (chain : t.bc = bc) (silent : c.peer.polled below.length = [])
    (frames : t.control.frames = c.peer.control.frames)
    (open_ : ∀ f rest read, t.control ≠ .checked true f rest read) :
    Counting bc b nPeers ownVote below ⟨t, c.taken ++ c.peer.polled below.length⟩ := by
  rw [silent, List.append_nil]
  refine ⟨chain, ?_, fun f rest read hc => absurd hc (open_ f rest read)⟩
  rw [frames]
  exact h.stack

theorem counting_turn (h : Counting bc b nPeers ownVote below c)
    (unfinished : c.result below.length = none) :
    Counting bc b nPeers ownVote below (c.step powGroup below.length .turn) := by
  have ⟨chain, ⟨inner, f, stack, nested, counts⟩, _⟩ := h
  have returned : ∀ result g rest read, c.peer.control = .checked result g rest read →
      rest.length ≠ below.length := by
    intro result g rest read hc same
    rw [VoteCall.result, PeerState.voteResult, hc] at unfinished
    dsimp only at unfinished
    rw [if_pos same] at unfinished
    cases unfinished
  obtain ⟨turned, books⟩ := @vote_turn _ powGroup c.peer (by rw [stack]; simp)
    (fun result g rest read hc => by
      rw [hc, Control.frames] at stack
      rcases top_frame stack with ⟨_, _, rfl⟩ | ⟨inner', rfl, _⟩
      · exact absurd rfl (returned result g _ read hc)
      · exact nested g List.mem_cons_self)
  have still : (turn powGroup c.peer).1.bc = bc := (congrArg Books.bc books).trans chain
  unfold VoteCall.step
  dsimp only [react]
  generalize (turn powGroup c.peer).1 = t at turned still
  cases turned with
  | read f₀ g rest read msg before asking waiting own reads after =>
    rw [chain] at own reads
    rw [before, Control.frames] at stack
    refine ⟨still, ?_, fun f rest read hc => by rw [after] at hc; cases hc⟩
    rw [after]
    refine stack_replaced stack nested (reads_origin reads) ?_ fun deeper => ?_
    · rintro rfl rfl
      rw [polled_own before asking waiting]
      exact counts_read counts asking reads
    · rw [polled_nested before deeper, List.append_nil]
      exact counts
  | request f₀ rest read msg before asking waiting current after =>
    rw [chain] at current
    rw [before, Control.frames] at stack
    have silent : ballot bc.size b.hash msg = none := by
      unfold isCurrent at current
      split at current
      · rename_i body
        simp [ballot, body]
      · contradiction
    have kept : Counts bc.size b nPeers ownVote (c.taken ++ c.peer.polled below.length) f := by
      rcases top_frame stack with ⟨_, rfl, rfl⟩ | ⟨_, _, _, deeper⟩
      · rw [polled_own before asking waiting]
        exact counts.silent silent
      · rw [polled_nested before deeper, List.append_nil]
        exact counts
    rcases after with ⟨agree, b', n, after⟩ | ⟨agree, after⟩
    · refine ⟨still, ?_, fun f rest read hc => by rw [after] at hc; cases hc⟩
      rw [after, Control.frames, stack]
      exact ⟨_ :: inner, f, rfl, all_cons rfl nested, kept⟩
    · refine ⟨still, ?_, fun f rest read hc => by rw [after] at hc; cases hc⟩
      rw [after, Control.frames, stack]
      exact ⟨inner, f, rfl, nested, kept⟩
  | poll f₀ rest read before asking waiting kept after =>
    rw [before, Control.frames] at stack
    rw [polled_empty waiting, List.append_nil]
    refine ⟨still, ?_, fun f rest read hc => by rw [after] at hc; cases hc⟩
    rw [after]
    refine stack_replaced stack nested rfl ?_ fun _ => counts
    rintro rfl rfl
    exact counts.retry _
  | again f₀ rest read before kept undecided after =>
    exact h.same_frames still (polled_elsewhere (by simp [before]))
      (by rw [before, after]; rfl) (by simp [after])
  | placedBack result f₀ g rest read before same wins loses placed after =>
    have origin : g.origin = f₀.origin := by
      rcases same with rfl | rfl <;> rfl
    have frames : c.peer.control.frames = f₀ :: rest ∧ c.peer.polled below.length = [] := by
      rcases before with ⟨hc, empty | all⟩ | hc
      · rw [hc]
        exact ⟨rfl, polled_empty empty⟩
      · rw [polled_heard hc all, hc]
        exact ⟨rfl, rfl⟩
      · rw [polled_elsewhere (fun _ _ _ other => by rw [hc] at other; cases other), hc]
        exact ⟨rfl, rfl⟩
    rw [frames.1] at stack
    rw [frames.2, List.append_nil]
    refine ⟨still, ?_, fun f' rest' read' hc _ => ?_⟩
    · rw [after]
      refine stack_replaced stack nested origin ?_ fun _ => counts
      rintro rfl rfl
      rcases same with rfl | rfl
      · exact counts
      · exact counts.retry _
    · rw [after] at hc
      cases hc
      rcases same with rfl | rfl
      · exact wins rfl
      · exact wins rfl
  | closed result agree f₀ rest read before kept after =>
    have deeper := returned result f₀ rest read before
    rw [before, Control.frames] at stack
    rw [polled_elsewhere (fun _ _ _ hc => by rw [before] at hc; cases hc), List.append_nil]
    refine ⟨still, ?_, fun f rest read hc => by rw [after] at hc; cases hc⟩
    rcases top_frame stack with ⟨_, _, same⟩ | ⟨inner', rfl, tail, _⟩
    · exact absurd (congrArg List.length same) deeper
    · rw [after, Control.frames, tail]
      exact ⟨inner', f, rfl, fun a inside => nested a (List.mem_cons_of_mem _ inside), counts⟩
  | yielded f₀ rest read before kept after =>
    exact h.same_frames still (polled_elsewhere (by simp [before]))
      (by rw [before, after]; rfl) (by simp [after])
  | resumed f₀ rest read before kept after =>
    exact h.same_frames still (polled_elsewhere (by simp [before]))
      (by rw [before, after]; rfl) (by simp [after])

theorem counting_step (h : Counting bc b nPeers ownVote below c) (e : PeerEvent)
    (unfinished : Unfinished below.length c e) :
    Counting bc b nPeers ownVote below (c.step powGroup below.length e) := by
  have taken : c.taken ++ [] = c.taken := List.append_nil _
  cases e with
  | turn => exact counting_turn h unfinished
  | deliver msg =>
    unfold VoteCall.step
    dsimp only
    rw [taken]
    exact ⟨h.chain, h.stack, h.wins⟩
  | netinfo info =>
    have control : (receiveNetinfo c.peer info).control = c.peer.control ∧
        (receiveNetinfo c.peer info).bc = c.peer.bc := by
      unfold receiveNetinfo
      split <;> exact ⟨rfl, rfl⟩
    unfold VoteCall.step
    dsimp only [react]
    rw [taken]
    obtain ⟨chain, stack, wins⟩ := h
    refine ⟨control.2.trans chain, ?_, ?_⟩
    · dsimp only
      rw [control.1]
      exact stack
    · dsimp only
      rw [control.1]
      exact wins

theorem counting_started {s : PeerState sha256} {origin : Origin} {read : List Message}
    (called : s.control = .awaitVotes (.start origin b nPeers ownVote) below read) :
    Counting s.bc b nPeers ownVote below ⟨s, []⟩ := by
  refine ⟨rfl, ⟨[], _, by rw [called]; rfl, by simp, counts_start origin⟩, fun f rest read hc => ?_⟩
  rw [called] at hc
  cases hc

theorem Counting.majority (h : Counting bc b nPeers ownVote below c)
    (returned : c.result below.length = some true) :
    StrictMajority nPeers ownVote (ballots bc.size b.hash c.taken) := by
  obtain ⟨_, ⟨inner, f, stack, _, counts⟩, wins⟩ := h
  unfold VoteCall.result PeerState.voteResult at returned
  split at returned
  · rename_i result g rest read hc
    split at returned
    · rename_i same
      cases returned
      rw [hc, Control.frames] at stack
      rcases top_frame stack with ⟨_, rfl, _⟩ | ⟨_, _, _, deeper⟩
      · exact counts.majority (wins g rest read hc same)
      · exact absurd same deeper
    · contradiction
  · contradiction

theorem Counting.noWrap (h : Counting bc b nPeers ownVote below c) (g : VoteFrame)
    (rest : List VoteFrame) (read : List Message) (hc : c.peer.control = .awaitVotes g rest read)
    (same : rest.length = below.length) : g.clientsSeen.length + 1 ≤ g.nDisagrees + g.nPeers := by
  obtain ⟨_, ⟨inner, f, stack, _, counts⟩, _⟩ := h
  rw [hc, Control.frames] at stack
  rcases top_frame stack with ⟨_, rfl, _⟩ | ⟨_, _, _, deeper⟩
  · have within := counts.within
    rw [counts.nPeers]
    omega
  · exact absurd same deeper

end Run

/- An inbox with one vote from each peer. -/

/-- The call works through this part of the inbox without nested calls. -/
structure Straight (bc : Blockchain (sha256FromDataAndHash sha256)) (b : BType) (nPeers : Nat)
    (ownVote : Bool) (below : List VoteFrame) (read votes : List Message) (c : VoteCall sha256) :
    Prop where
  chain : c.peer.bc = bc
  front : ∃ rest later, votes = c.taken ++ rest ∧ c.peer.inbox = rest ++ later
  frame : ∃ f,
    (c.peer.control = .awaitVotes f below read ∨ c.peer.control = .majority f below read) ∧
    Counts bc.size b nPeers ownVote c.taken f ∧ f.tries = 0

/-- One vote for the block from each of n addresses, and no request that has to be handled. -/
structure OneVoteEach (size n : Nat) (hash : Bytes) (votes : List Message) : Prop where
  distinct : ((ballots size hash votes).map Prod.fst).Nodup
  all : (ballots size hash votes).length = n
  quiet : ∀ m ∈ votes, isCurrent size m = false

section Straight

variable {powGroup : IProofOfWork Bytes Bytes} {bc : Blockchain (sha256FromDataAndHash sha256)}
  {b : BType} {nPeers : Nat} {ownVote : Bool} {below : List VoteFrame}
  {read votes rest : List Message} {c : VoteCall sha256} {f : VoteFrame}

/-- The counters, the votes that are still to be read, and the strict majority of all. -/
theorem votes_left {taken : List Message} (each : OneVoteEach bc.size nPeers b.hash votes)
    (counts : Counts bc.size b nPeers ownVote taken f) (parts : votes = taken ++ rest) :
    ∃ agrees disagrees, f.clientsSeen.length + agrees + disagrees = nPeers ∧
      agrees + disagrees = (ballots bc.size b.hash rest).length ∧
      (StrictMajority nPeers ownVote (ballots bc.size b.hash votes) ↔
        nPeers + 1 < 2 * (f.nAgrees + agrees)) := by
  obtain ⟨distinct, all, _⟩ := each
  have split : ballots bc.size b.hash votes =
      ballots bc.size b.hash taken ++ ballots bc.size b.hash rest := by
    rw [parts, ballots, List.filterMap_append]
    rfl
  have read_ := counts.agrees
  have disagreed := counts.disagrees
  have total := counts.total
  have first := distinct
  rw [split, List.map_append] at first
  have once := (List.nodup_append.mp first).1
  rw [support_eq_count once] at read_ disagreed
  have lengths := List.count_true_add_count_false
    ((ballots bc.size b.hash rest).map Prod.snd)
  have before := List.count_true_add_count_false ((ballots bc.size b.hash taken).map Prod.snd)
  rw [List.length_map] at lengths before
  rw [split, List.length_append] at all
  refine ⟨_, _, ?_, lengths, ?_⟩
  · cases ownVote <;> simp only [Bool.toNat_true, Bool.toNat_false, Bool.not_true,
      Bool.not_false] at read_ disagreed <;> omega
  · unfold StrictMajority
    rw [support_eq_count distinct, split, List.map_append, List.count_append, read_]
    omega

theorem ballots_waiting (counts : Counts bc.size b nPeers ownVote taken f)
    (asking : f.clientsSeen.length + 1 < f.nPeers)
    (each : OneVoteEach bc.size nPeers b.hash votes) (parts : votes = taken ++ rest) :
    rest ≠ [] := by
  rintro rfl
  obtain ⟨agrees, disagrees, all, none_, _⟩ := votes_left each counts parts
  have peers := counts.nPeers
  change agrees + disagrees = 0 at none_
  omega

/-- The next message is one of the votes that are left. -/
theorem first_vote {later inbox : List Message} {msg : Message}
    (counts : Counts bc.size b nPeers ownVote taken f)
    (asking : f.clientsSeen.length + 1 < f.nPeers)
    (each : OneVoteEach bc.size nPeers b.hash votes) (parts : votes = taken ++ rest)
    (first : rest ++ later = msg :: inbox) :
    ∃ rest', votes = (taken ++ [msg]) ++ rest' ∧ inbox = rest' ++ later ∧
      isCurrent bc.size msg = false := by
  cases rest with
  | nil => exact absurd rfl (ballots_waiting counts asking each parts)
  | cons m rest' =>
    obtain ⟨rfl, behind⟩ := List.cons.inj first
    refine ⟨rest', ?_, behind.symm, each.quiet m ?_⟩
    · rw [parts, List.append_assoc]
      rfl
    · rw [parts]
      exact List.mem_append_right _ List.mem_cons_self

/-- Whichever of its exits the call takes, it decides as all the votes do. -/
theorem placedBack_decides {g : VoteFrame} {result : Bool}
    (each : OneVoteEach bc.size nPeers b.hash votes)
    (counts : Counts bc.size b nPeers ownVote taken f) (parts : votes = taken ++ rest)
    (untried : f.tries = 0) (same : g = f ∨ g = { f with tries := f.tries + 1 })
    (wins : result = true → f.Wins)
    (loses : result = false → f.nDisagrees > f.nPeers / 2 ∨ f.nPeers * nTries ≤ g.tries ∨
      ¬ f.clientsSeen.length + 1 < f.nPeers ∧
        ¬ f.nAgrees > f.nDisagrees + f.nPeers - (f.clientsSeen.length + 1)) :
    result = decide (StrictMajority nPeers ownVote (ballots bc.size b.hash votes)) := by
  obtain ⟨agrees, disagrees, all, _, majority⟩ := votes_left each counts parts
  have peers := counts.nPeers
  have total := counts.total
  have inTime : g.tries ≤ 1 := by
    rcases same with rfl | rfl
    · omega
    · dsimp only
      omega
  cases result with
  | true =>
    refine (decide_eq_true ?_).symm
    rw [majority]
    rcases wins rfl with most | ⟨heard, more⟩ <;> omega
  | false =>
    refine (decide_eq_false ?_).symm
    rw [majority]
    rcases loses rfl with most | late | ⟨heard, fewer⟩
    · omega
    · unfold nTries at late
      omega
    · omega

def VoteCall.pending (c : VoteCall sha256) : Nat :=
  2 * c.peer.inbox.length + match c.peer.control with
    | .majority _ _ _ => 1
    | _ => 0

theorem straight_turn (each : OneVoteEach bc.size nPeers b.hash votes)
    (h : Straight bc b nPeers ownVote below read votes c) :
    (c.step powGroup below.length .turn).result below.length =
        some (decide (StrictMajority nPeers ownVote (ballots bc.size b.hash votes))) ∨
      Straight bc b nPeers ownVote below read votes (c.step powGroup below.length .turn) ∧
        (c.step powGroup below.length .turn).pending < c.pending := by
  obtain ⟨chain, ⟨rest, later, parts, waiting⟩, f, place, counts, untried⟩ := h
  obtain ⟨turned, books⟩ := @vote_turn _ powGroup c.peer
    (by rcases place with hc | hc <;> rw [hc] <;> exact List.cons_ne_nil _ _)
    (fun result g rest read hc => by rcases place with at_ | at_ <;> rw [at_] at hc <;> cases hc)
  have still : (turn powGroup c.peer).1.bc = bc := (congrArg Books.bc books).trans chain
  unfold VoteCall.step
  dsimp only [react]
  generalize (turn powGroup c.peer).1 = t at turned still
  cases turned with
  | read f₀ g below₀ read₀ msg before asking first own reads after =>
    right
    rcases place with hc | hc
    · rw [hc] at before
      cases before
      rw [waiting] at first
      obtain ⟨rest', parts', behind, _⟩ := first_vote counts asking each parts first
      rw [polled_own hc asking (waiting.trans first)]
      rw [chain] at reads
      refine ⟨⟨still, ⟨rest', later, parts', behind⟩, g, Or.inr after,
        counts_read counts asking reads, (reads_tries reads).trans untried⟩, ?_⟩
      unfold VoteCall.pending
      rw [waiting, first, hc, after]
      dsimp only [List.length_cons]
      omega
    · rw [hc] at before
      cases before
  | request f₀ below₀ read₀ msg before asking first current after =>
    rcases place with hc | hc
    · rw [hc] at before
      cases before
      rw [waiting] at first
      obtain ⟨_, _, _, quiet⟩ := first_vote counts asking each parts first
      rw [chain, quiet] at current
      contradiction
    · rw [hc] at before
      cases before
  | poll f₀ below₀ read₀ before asking empty kept after =>
    rcases place with hc | hc
    · rw [hc] at before
      cases before
      rw [waiting] at empty
      exact absurd (List.append_eq_nil_iff.mp empty).1 (ballots_waiting counts asking each parts)
    · rw [hc] at before
      cases before
  | again f₀ below₀ read₀ before kept undecided after =>
    right
    rcases place with hc | hc
    · rw [hc] at before
      cases before
    · rw [hc] at before
      cases before
      rw [polled_elsewhere (fun _ _ _ other => by rw [hc] at other; cases other), List.append_nil]
      refine ⟨⟨still, ⟨rest, later, parts, kept.trans waiting⟩, f, Or.inl after, counts,
        untried⟩, ?_⟩
      unfold VoteCall.pending
      rw [hc, after, kept]
      dsimp only
      omega
  | placedBack result f₀ g below₀ read₀ before same wins loses placed after =>
    left
    have frame : f₀ = f ∧ below₀ = below := by
      rcases place with hc | hc <;> rw [hc] at before <;> rcases before with ⟨at_, _⟩ | at_ <;>
        cases at_ <;> exact ⟨rfl, rfl⟩
    obtain ⟨rfl, rfl⟩ := frame
    unfold VoteCall.result PeerState.voteResult
    rw [after]
    dsimp only
    rw [if_pos rfl, placedBack_decides each counts parts untried same wins loses]
  | closed result agree f₀ below₀ read₀ before kept after =>
    rcases place with hc | hc <;> rw [hc] at before <;> cases before
  | yielded f₀ below₀ read₀ before kept after =>
    rcases place with hc | hc <;> rw [hc] at before <;> cases before
  | resumed f₀ below₀ read₀ before kept after =>
    rcases place with hc | hc <;> rw [hc] at before <;> cases before

theorem straight_unfinished (h : Straight bc b nPeers ownVote below read votes c) :
    c.result below.length = none := by
  obtain ⟨_, _, f, place, _⟩ := h
  unfold VoteCall.result PeerState.voteResult
  rcases place with hc | hc <;> rw [hc]

theorem straight_step (each : OneVoteEach bc.size nPeers b.hash votes)
    (h : Straight bc b nPeers ownVote below read votes c) (e : PeerEvent) :
    (c.step powGroup below.length e).result below.length =
        some (decide (StrictMajority nPeers ownVote (ballots bc.size b.hash votes))) ∨
      Straight bc b nPeers ownVote below read votes (c.step powGroup below.length e) := by
  have taken : c.taken ++ [] = c.taken := List.append_nil _
  cases e with
  | turn => exact (straight_turn each h).imp_right And.left
  | deliver msg =>
    right
    unfold VoteCall.step
    dsimp only
    rw [taken]
    obtain ⟨chain, ⟨rest, later, parts, waiting⟩, frame⟩ := h
    refine ⟨chain, ⟨rest, later ++ [msg], parts, ?_⟩, frame⟩
    dsimp only [react, deliver, PeerState.placeBack]
    rw [waiting, List.append_assoc]
  | netinfo info =>
    right
    unfold VoteCall.step
    dsimp only [react]
    rw [taken]
    obtain ⟨chain, front, frame⟩ := h
    unfold receiveNetinfo
    split <;> exact ⟨chain, front, frame⟩

theorem straight_started {s : PeerState sha256} {origin : Origin} {later : List Message}
    (called : s.control = .awaitVotes (.start origin b nPeers ownVote) below read)
    (waiting : s.inbox = votes ++ later) :
    Straight s.bc b nPeers ownVote below read votes ⟨s, []⟩ :=
  ⟨rfl, ⟨votes, later, rfl, waiting⟩, _, Or.inl called, counts_start origin, rfl⟩

end Straight

section Call

variable (powGroup : IProofOfWork Bytes Bytes) (depth : Nat) (s : PeerState sha256)
  (es : List PeerEvent)

/-- The call that starts in this state has not returned before the end of these events. -/
def PeerState.Calls : Prop :=
  Lts.Throughout (VoteCall.step powGroup depth) (Unfinished depth) ⟨s, []⟩ es

def PeerState.call : VoteCall sha256 := Lts.run (VoteCall.step powGroup depth) ⟨s, []⟩ es

instance decidableCalls : Decidable (s.Calls powGroup depth es) :=
  inferInstanceAs (Decidable (Lts.Throughout _ _ _ _))

end Call

/-- Two peers, of which the first agrees: with the own vote this is a majority of three. -/
def twoVotes : List Message :=
  [⟨⟨2, 80, 1⟩, 1, .vote true [7]⟩, ⟨⟨2, 80, 2⟩, 1, .vote false [7]⟩]

def voteCaller : PeerState HashCash.echo :=
  { PeerState.ready ⟨2, 80, 0⟩ [⟨2, 80, 1⟩, ⟨2, 80, 2⟩] Blockchain.new [] with
    inbox := twoVotes
    control := .awaitVotes
      (.start (.handleBlockAdditionRequest true) ⟨default, [7], []⟩ 2 true) [] [] }

end DPS2.Application
