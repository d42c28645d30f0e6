import DPS2.Application.Votes

/-! One call of HandleAllBlockAdditionRequests while nothing more arrives. A request that is
handled inside a vote takes the place of that vote, so at most one vote is ever open, and
the call is a fold over the inbox. -/
namespace DPS2.Application

open P2P ProofOfWork

variable {sha256 : Bytes → Bytes}

/-- The value that HandleAllBlockAdditionRequests is about to return. -/
def PeerState.returned (s : PeerState sha256) : Option (Option Candidate) :=
  match s.control, s.inbox with
  | .handleAll _, [] => some (lowestHash s.addblockCandidates)
  | _, _ => none

/-- The call that is going on returns this value if no message arrives any more. -/
def Returns (powGroup : IProofOfWork Bytes Bytes) (s : PeerState sha256)
    (best : Option Candidate) : Prop :=
  Lts.Ends (fun s => (turn powGroup s).1) PeerState.returned s best

def Current (powGroup : IProofOfWork Bytes Bytes) (bc : Blockchain (sha256FromDataAndHash sha256))
    (m : Message) : Prop :=
  m.index = bc.size ∧
    match m.body with
    | .addRequest pow b => voteOn powGroup bc ⟨m.peerAddress, m.index, pow, b⟩ true = true
    | .vote _ _ => True
    | _ => False

structure Poll where
  current : Option VoteFrame
  candidates : List Candidate

def VoteFrame.asked (nPeers : Nat) (b : BType) : VoteFrame :=
  .start (.handleBlockAdditionRequest true) b nPeers true

namespace Poll

def conclude (candidates : List Candidate) (f : VoteFrame) (result : Bool) : Poll :=
  ⟨none, candidates ++ if result then [Candidate.mk f.reqBlock false] else []⟩

/-- At the head of the loop of CheckVotesForBlock. -/
def await (candidates : List Candidate) (f : VoteFrame) : Poll :=
  if f.clientsSeen.length + 1 < f.nPeers then ⟨some f, candidates⟩
  else conclude candidates f
    (decide (f.nAgrees > f.nDisagrees + f.nPeers - (f.clientsSeen.length + 1)))

def settle (candidates : List Candidate) (f : VoteFrame) : Poll :=
  if f.nAgrees > f.nPeers / 2 then conclude candidates f true
  else if f.nDisagrees > f.nPeers / 2 then conclude candidates f false
  else await candidates f

def read (nPeers : Nat) (p : Poll) (msg : Message) : Poll :=
  match p.current, msg.body with
  | none, .addRequest _ b => await p.candidates (.asked nPeers b)
  | some f, .vote agree hash => settle p.candidates (f.countVote msg.peerAddress agree hash)
  | some f, .addRequest _ b =>
      if compareStrings b.hash f.reqBlock.hash ≠ .gt then await p.candidates (.asked nPeers b)
      else settle p.candidates f
  | _, _ => p

end Poll

structure Plain (nPeers : Nat) (f : VoteFrame) : Prop where
  origin : f.origin = .handleBlockAdditionRequest true
  peers : f.nPeers = nPeers + 1
  tries : f.tries = 0
  kept : f.readMessages = []

structure Follows (bc : Blockchain (sha256FromDataAndHash sha256)) (nPeers : Nat)
    (s : PeerState sha256) (p : Poll) : Prop where
  chain : s.bc = bc
  peers : s.addressees.length = nPeers
  candidates : s.addblockCandidates = p.candidates
  control : match p.current with
    | none => ∃ read, s.control = .handleAll read
    | some f => Plain nPeers f ∧ f.clientsSeen.length + 1 < f.nPeers ∧
        ∃ below read, s.control = .awaitVotes f below read ∧
          ∀ g ∈ below, g.origin = .handleBlockAdditionRequest true

section Steps

variable {powGroup : IProofOfWork Bytes Bytes} {s t : PeerState sha256}
  {bc : Blockchain (sha256FromDataAndHash sha256)} {nPeers : Nat} {f : VoteFrame}
  {below : List VoteFrame} {read : List Message} {p : Poll}

def LeadsTo (powGroup : IProofOfWork Bytes Bytes) (s t : PeerState sha256) : Prop :=
  Lts.Leads (fun s => (turn powGroup s).1) PeerState.returned s t

theorem leads_turn (running : s.returned = none) (next : (turn powGroup s).1 = t) :
    LeadsTo powGroup s t := by
  rw [← next]
  exact .one running

/- A vote that ends unwinds the whole stack: every call below agreed, so the calls that wait
for them return false. -/

theorem leads_handled (hc : s.control = .handled true below read)
    (nested : ∀ g ∈ below, g.origin = .handleBlockAdditionRequest true) :
    LeadsTo powGroup s (s.goto (.handleAll read)) := by
  induction below generalizing s with
  | nil =>
    apply leads_turn
    · simp only [PeerState.returned, hc]
    · simp only [turn, hc, handled]
  | cons g below ih =>
    have first : LeadsTo powGroup s (s.goto (.checked false g below read)) := by
      apply leads_turn
      · simp only [PeerState.returned, hc]
      · simp only [turn, hc, handled, if_true]
    have second : LeadsTo powGroup (s.goto (.checked false g below read))
        (s.goto (.handled true below read)) := by
      apply leads_turn
      · simp only [PeerState.returned, PeerState.goto]
      · simp [turn, PeerState.goto, checked, nested g List.mem_cons_self]
    have rest : ∀ g' ∈ below, g'.origin = .handleBlockAdditionRequest true :=
      fun g' inside => nested g' (List.mem_cons_of_mem _ inside)
    exact first.trans (second.trans (ih rfl rest))

/-- The call comes to where the poll is, with this inbox left. -/
def Catches (powGroup : IProofOfWork Bytes Bytes) (s : PeerState sha256) (inbox : List Message)
    (p : Poll) : Prop :=
  ∃ t, LeadsTo powGroup s t ∧ Follows s.bc s.addressees.length t p ∧ t.inbox = inbox

theorem Catches.after {inbox : List Message} (h : Catches powGroup t inbox p)
    (leads : LeadsTo powGroup s t) (chain : t.bc = s.bc) (peers : t.addressees = s.addressees) :
    Catches powGroup s inbox p := by
  obtain ⟨u, later, follows, rest⟩ := h
  rw [chain, peers] at follows
  exact ⟨u, leads.trans later, follows, rest⟩

theorem leads_checked {result : Bool} (hc : s.control = .checked result f below read)
    (origin : f.origin = .handleBlockAdditionRequest true)
    (nested : ∀ g ∈ below, g.origin = .handleBlockAdditionRequest true) :
    Catches powGroup s s.inbox (.conclude s.addblockCandidates f result) := by
  let t := { s with
    addblockCandidates := s.addblockCandidates ++
      if result then [Candidate.mk f.reqBlock false] else []
    control := .handled true below read }
  have first : LeadsTo powGroup s t := by
    apply leads_turn
    · simp only [PeerState.returned, hc]
    · simp only [turn, hc, checked, origin, t]
  exact ⟨t.goto (.handleAll read), first.trans (leads_handled rfl nested),
    ⟨rfl, rfl, rfl, read, rfl⟩, rfl⟩

theorem placeBack_nil : s.placeBack [] = s := by
  unfold PeerState.placeBack
  rw [List.append_nil]

theorem leads_returned {result : Bool} (running : s.returned = none)
    (returns : (turn powGroup s).1 =
      (s.placeBack f.readMessages).goto (.checked result f below read))
    (plain : Plain s.addressees.length f)
    (nested : ∀ g ∈ below, g.origin = .handleBlockAdditionRequest true) :
    Catches powGroup s s.inbox (.conclude s.addblockCandidates f result) := by
  rw [plain.kept, placeBack_nil] at returns
  have caught : Catches powGroup (s.goto (.checked result f below read)) s.inbox
      (.conclude s.addblockCandidates f result) := leads_checked rfl plain.origin nested
  exact caught.after (leads_turn running returns) rfl rfl

theorem leads_await (hc : s.control = .awaitVotes f below read)
    (plain : Plain s.addressees.length f)
    (nested : ∀ g ∈ below, g.origin = .handleBlockAdditionRequest true) :
    Catches powGroup s s.inbox (.await s.addblockCandidates f) := by
  unfold Poll.await
  split
  · rename_i waiting
    exact ⟨s, .here s, ⟨rfl, rfl, rfl, plain, waiting, below, read, hc, nested⟩, rfl⟩
  · rename_i complete
    have running : s.returned = none := by simp only [PeerState.returned, hc]
    have returns : (turn powGroup s).1 = (s.placeBack f.readMessages).goto (.checked
        (decide (f.nAgrees > f.nDisagrees + f.nPeers - (f.clientsSeen.length + 1)))
        f below read) := by
      simp only [turn, hc, awaitVotes, complete, if_false]
    exact leads_returned running returns plain nested

theorem leads_majority (hc : s.control = .majority f below read)
    (plain : Plain s.addressees.length f)
    (nested : ∀ g ∈ below, g.origin = .handleBlockAdditionRequest true) :
    Catches powGroup s s.inbox (.settle s.addblockCandidates f) := by
  have running : s.returned = none := by simp only [PeerState.returned, hc]
  unfold Poll.settle
  split
  · rename_i agreed
    have returns : (turn powGroup s).1 =
        (s.placeBack f.readMessages).goto (.checked true f below read) := by
      simp only [turn, hc, majority, agreed, if_true]
    exact leads_returned running returns plain nested
  · rename_i undecided
    split
    · rename_i rejected
      have returns : (turn powGroup s).1 =
          (s.placeBack f.readMessages).goto (.checked false f below read) := by
        simp only [turn, hc, majority, undecided, rejected, if_false, if_true]
      exact leads_returned running returns plain nested
    · rename_i open_
      -- no try has been used up, so the vote goes on
      have patient : ¬ f.tries ≥ f.nPeers * nTries := by
        rw [plain.tries, plain.peers]
        unfold nTries
        omega
      have next : (turn powGroup s).1 = s.goto (.awaitVotes f below read) := by
        simp only [turn, hc, majority, undecided, open_, patient, if_false]
      have caught : Catches powGroup (s.goto (.awaitVotes f below read)) s.inbox
          (.await s.addblockCandidates f) := leads_await rfl plain nested
      exact caught.after (leads_turn running next) rfl rfl

/- One message. -/

theorem plain_countVote (plain : Plain nPeers f) (pa : PeerAddress) (agree : Bool)
    (hash : Bytes) : Plain nPeers (f.countVote pa agree hash) := by
  obtain ⟨origin, peers, tries, kept⟩ := plain
  unfold VoteFrame.countVote
  split
  · exact ⟨origin, peers, tries, kept⟩
  · split <;> exact ⟨origin, peers, tries, kept⟩

theorem leads_asked {inbox : List Message} {r : AdditionRequest} (running : s.returned = none)
    (current : r.index = s.bc.size) (deserved : voteOn powGroup s.bc r true = true)
    (next : (turn powGroup s).1 =
      (handleBlockAdditionRequest powGroup { s with inbox } r true below read).1)
    (nested : ∀ g ∈ below, g.origin = .handleBlockAdditionRequest true) :
    Catches powGroup s inbox
      (.await s.addblockCandidates (.asked s.addressees.length r.block)) := by
  let t := { s with inbox }.goto (.awaitVotes (.asked s.addressees.length r.block) below read)
  have inTime : ¬ r.index > s.bc.size := by omega
  have opened : (turn powGroup s).1 = t := by
    rw [next]
    unfold handleBlockAdditionRequest
    simp only [inTime, if_false, if_true, deserved]
    rfl
  have plain : Plain s.addressees.length (.asked s.addressees.length r.block) :=
    ⟨rfl, rfl, rfl, rfl⟩
  have caught : Catches powGroup t inbox
      (.await s.addblockCandidates (.asked s.addressees.length r.block)) :=
    leads_await rfl plain nested
  exact caught.after (leads_turn running opened) rfl rfl

theorem leads_handleAll {msg : Message} {inbox : List Message} {candidates : List Candidate}
    (hc : s.control = .handleAll read) (waiting : s.inbox = msg :: inbox)
    (current : Current powGroup s.bc msg) (same : s.addblockCandidates = candidates) :
    Catches powGroup s inbox (Poll.read s.addressees.length ⟨none, candidates⟩ msg) := by
  obtain ⟨pa, index, body⟩ := msg
  obtain ⟨inTime, kind⟩ := current
  dsimp only at inTime
  have running : s.returned = none := by simp only [PeerState.returned, hc, waiting]
  subst same
  cases body with
  | addRequest pow b =>
    have next : (turn powGroup s).1 = (handleBlockAdditionRequest powGroup { s with inbox }
        ⟨pa, index, pow, b⟩ true [] read).1 := by
      simp only [turn, hc, handleAllBlockAdditionRequests, waiting, inTime, if_true]
    exact leads_asked running inTime kind next (List.forall_mem_nil _)
  | vote agree hash =>
    refine ⟨_, leads_turn running rfl, ?_, ?_⟩
    · simp only [turn, hc, handleAllBlockAdditionRequests, waiting]
      exact ⟨rfl, rfl, rfl, _, rfl⟩
    · simp only [turn, hc, handleAllBlockAdditionRequests, waiting, PeerState.goto]
  | block | requestBlock | noBlock | unrecognized => exact kind.elim

/-- Inside a vote the votes for its block count, and a request with a hash that is not
higher takes its place. -/
theorem leads_awaitVotes {msg : Message} {inbox : List Message} {candidates : List Candidate}
    (hc : s.control = .awaitVotes f below read) (waiting : s.inbox = msg :: inbox)
    (current : Current powGroup s.bc msg) (same : s.addblockCandidates = candidates)
    (plain : Plain s.addressees.length f) (missing : f.clientsSeen.length + 1 < f.nPeers)
    (nested : ∀ g ∈ below, g.origin = .handleBlockAdditionRequest true) :
    Catches powGroup s inbox (Poll.read s.addressees.length ⟨some f, candidates⟩ msg) := by
  obtain ⟨pa, index, body⟩ := msg
  obtain ⟨inTime, kind⟩ := current
  dsimp only at inTime
  have running : s.returned = none := by simp only [PeerState.returned, hc]
  have settled : ∀ g, Plain s.addressees.length g → ∀ t : PeerState sha256,
      t = { s with inbox }.goto (.majority g below read) → LeadsTo powGroup s t →
      Catches powGroup s inbox (.settle s.addblockCandidates g) := by
    rintro g plain _ rfl leads
    have caught : Catches powGroup ({ s with inbox }.goto (.majority g below read)) inbox
        (.settle s.addblockCandidates g) := leads_majority rfl plain nested
    exact caught.after leads rfl rfl
  subst same
  cases body with
  | addRequest pow b =>
    by_cases lower : compareStrings b.hash f.reqBlock.hash ≠ .gt
    · have stacked : ∀ g ∈ f :: below, g.origin = .handleBlockAdditionRequest true :=
        all_cons plain.origin nested
      have opened : Catches powGroup s inbox
          (.await s.addblockCandidates (.asked s.addressees.length b)) := by
        have next : (turn powGroup s).1 = (handleBlockAdditionRequest powGroup { s with inbox }
            ⟨pa, index, pow, b⟩ true (f :: below) read).1 := by
          simp only [turn, hc, awaitVotes, missing, waiting, readVoteMessage, inTime, if_true]
          rw [if_pos lower]
        exact leads_asked running inTime kind next stacked
      unfold Poll.read
      dsimp only
      rw [if_pos lower]
      exact opened
    · -- the request is answered with a disagree vote, and the open vote goes on
      let t := { s with inbox }.goto (.handled false (f :: below) read)
      have declined : voteOn powGroup s.bc ⟨pa, index, pow, b⟩ false = false := by
        rw [← Bool.not_eq_true, voteOn_iff]
        exact fun h => Bool.false_ne_true h.2.2.2
      have first : LeadsTo powGroup s t := by
        apply leads_turn running
        have notEarly : ¬ index > s.bc.size := by omega
        simp only [turn, hc, awaitVotes, missing, waiting, readVoteMessage, inTime, lower, if_true,
          if_false, handleBlockAdditionRequest, gt_iff_lt, lt_irrefl, Bool.false_eq_true]
        rw [← inTime, declined]
        rfl
      have second : LeadsTo powGroup t ({ s with inbox }.goto (.majority f below read)) :=
        leads_turn rfl rfl
      unfold Poll.read
      dsimp only
      rw [if_neg lower]
      exact settled f plain _ rfl (first.trans second)
  | vote agree hash =>
    apply settled (f.countVote pa agree hash) (plain_countVote plain pa agree hash) _ rfl
    apply leads_turn running
    simp only [turn, hc, awaitVotes, missing, waiting, readVoteMessage, inTime, Nat.le_refl,
      if_true]
  | block | requestBlock | noBlock | unrecognized => exact kind.elim

theorem leads_read {msg : Message} {inbox : List Message} (follows : Follows bc nPeers s p)
    (waiting : s.inbox = msg :: inbox) (current : Current powGroup bc msg) :
    ∃ t, LeadsTo powGroup s t ∧ Follows bc nPeers t (p.read nPeers msg) ∧ t.inbox = inbox := by
  obtain ⟨rfl, rfl, same, control⟩ := follows
  obtain ⟨opened, candidates⟩ := p
  cases opened with
  | none =>
    obtain ⟨read, hc⟩ := control
    exact leads_handleAll hc waiting current same
  | some f =>
    obtain ⟨plain, missing, below, read, hc, nested⟩ := control
    exact leads_awaitVotes hc waiting current same plain missing nested

/- Nothing is left to read. -/

theorem leads_given_up (hc : s.control = .awaitVotes f below read) (silent : s.inbox = [])
    (origin : f.origin = .handleBlockAdditionRequest true) (kept : f.readMessages = [])
    (missing : f.clientsSeen.length + 1 < f.nPeers) (spent : f.nPeers * nTries ≤ f.tries + 1)
    (nested : ∀ g ∈ below, g.origin = .handleBlockAdditionRequest true) :
    Catches powGroup s [] ⟨none, s.addblockCandidates⟩ := by
  let g := { f with tries := f.tries + 1 }
  have next : (turn powGroup s).1 = s.goto (.checked false g below read) := by
    simp only [turn, hc, awaitVotes, missing, silent, spent, if_true, kept,
      placeBack_nil, g]
  have caught : Catches powGroup (s.goto (.checked false g below read)) s.inbox
      (.conclude s.addblockCandidates g false) := leads_checked rfl origin nested
  have rejected : Poll.conclude s.addblockCandidates g false = ⟨none, s.addblockCandidates⟩ := by
    simp [Poll.conclude]
  rw [silent, rejected] at caught
  exact caught.after (leads_turn (by simp only [PeerState.returned, hc]) next) rfl rfl

theorem leads_silent (left : Nat) (hc : s.control = .awaitVotes f below read)
    (silent : s.inbox = []) (origin : f.origin = .handleBlockAdditionRequest true)
    (kept : f.readMessages = []) (missing : f.clientsSeen.length + 1 < f.nPeers)
    (tries : f.nPeers * nTries ≤ f.tries + 1 + left)
    (nested : ∀ g ∈ below, g.origin = .handleBlockAdditionRequest true) :
    Catches powGroup s [] ⟨none, s.addblockCandidates⟩ := by
  induction left generalizing s f with
  | zero => exact leads_given_up hc silent origin kept missing tries nested
  | succ left ih =>
    by_cases spent : f.nPeers * nTries ≤ f.tries + 1
    · exact leads_given_up hc silent origin kept missing spent nested
    · have next : (turn powGroup s).1 =
          s.goto (.awaitVotes { f with tries := f.tries + 1 } below read) := by
        simp only [turn, hc, awaitVotes, missing, silent, spent, if_true, if_false]
      have caught : Catches powGroup
          (s.goto (.awaitVotes { f with tries := f.tries + 1 } below read)) []
          ⟨none, s.addblockCandidates⟩ :=
        ih rfl silent origin kept missing (by dsimp only; omega)
      exact caught.after (leads_turn (by simp only [PeerState.returned, hc]) next) rfl rfl

theorem returns_drained (follows : Follows bc nPeers s p) (silent : s.inbox = []) :
    Returns powGroup s (lowestHash p.candidates) := by
  obtain ⟨rfl, rfl, same, control⟩ := follows
  obtain ⟨opened, candidates⟩ := p
  dsimp only at same
  subst same
  have ended : ∀ t : PeerState sha256, t.inbox = [] →
      Follows s.bc s.addressees.length t ⟨none, s.addblockCandidates⟩ →
      Returns powGroup t (lowestHash s.addblockCandidates) := by
    rintro t drained ⟨_, _, same, read, hc⟩
    apply Lts.Ends.now
    simp only [PeerState.returned, hc, drained, same]
  cases opened with
  | none =>
    exact ended s silent ⟨rfl, rfl, rfl, control⟩
  | some f =>
    obtain ⟨plain, missing, below, read, hc, nested⟩ := control
    obtain ⟨t, leads, follows, drained⟩ := @leads_silent _ powGroup _ _ _ _ _ hc silent
      plain.origin plain.kept missing (Nat.le_add_left _ _) nested
    exact (ended t drained follows).before leads

end Steps

/-- The call returns what the fold over the inbox finds. -/
theorem returns_poll {powGroup : IProofOfWork Bytes Bytes} {s : PeerState sha256}
    {bc : Blockchain (sha256FromDataAndHash sha256)} {nPeers : Nat} {p : Poll}
    (follows : Follows bc nPeers s p) (current : ∀ m ∈ s.inbox, Current powGroup bc m) :
    Returns powGroup s (lowestHash (s.inbox.foldl (Poll.read nPeers) p).candidates) := by
  generalize waiting : s.inbox = inbox at current
  induction inbox generalizing s p with
  | nil => exact returns_drained follows waiting
  | cons msg inbox ih =>
    obtain ⟨t, leads, later, rest⟩ := leads_read follows waiting (current msg List.mem_cons_self)
    exact (ih later rest fun m inside => current m (List.mem_cons_of_mem _ inside)).before leads

end DPS2.Application
