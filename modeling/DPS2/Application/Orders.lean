import DPS2.Application.Poll
import Mathlib.Data.List.Perm.Basic

/-! Whether the order of the inbox decides what HandleAllBlockAdditionRequests returns. Votes
that are read before a request for their block are put aside and never count. -/
namespace DPS2.Application

open P2P ProofOfWork

variable {sha256 : Bytes → Bytes}

def isVoteFor (hash : Bytes) (m : Message) : Bool :=
  match m.body with
  | .vote _ h => h == hash
  | _ => false

def nAgreeing (hash : Bytes) (inbox : List Message) : Nat :=
  inbox.countP fun m => m.body == .vote true hash

/-- The call is about to read an inbox of valid requests for the next index, and votes for
their blocks, at most one from a peer for each block. -/
structure Pending (powGroup : IProofOfWork Bytes Bytes) (s : PeerState sha256) : Prop where
  called : s.control = .handleAll []
  fresh : s.addblockCandidates = []
  current : ∀ m ∈ s.inbox, Current powGroup s.bc m
  requested : ∀ m ∈ s.inbox, ∀ agree hash, m.body = .vote agree hash →
    ∃ r ∈ s.inbox, ∃ pow b, r.body = .addRequest pow b ∧ b.hash = hash
  once : ∀ hash, ((s.inbox.filter (isVoteFor hash)).map Message.peerAddress).Nodup

/-- Both are NULL, or blocks with one hash. -/
def SameBlock (best best' : Option Candidate) : Prop :=
  best.map (·.block.hash) = best'.map (·.block.hash)

/-- Whatever the order of the inbox, the call returns the same. -/
def OrderIndependent (powGroup : IProofOfWork Bytes Bytes) (s : PeerState sha256) : Prop :=
  ∀ inbox inbox' : List Message, inbox.Perm s.inbox → inbox'.Perm s.inbox →
    ∃ best best', Returns powGroup { s with inbox } best ∧
      Returns powGroup { s with inbox := inbox' } best' ∧ SameBlock best best'

/-- With the own vote, the agree votes for this block are no majority. -/
def Hopeless (nPeers : Nat) (inbox : List Message) (b : BType) : Prop :=
  1 + nAgreeing b.hash inbox ≤ (nPeers + 1) / 2

/- The lowest hash. -/

/-- The choice between the best candidate so far and the next one. -/
def lowerHash (best it : Candidate) : Candidate :=
  if compareStrings it.block.hash best.block.hash ≠ .gt then it else best

def AtMost (a b : Candidate) : Prop := (compareStrings a.block.hash b.block.hash).isLE = true

theorem AtMost.trans {a b c : Candidate} (h : AtMost a b) (h' : AtMost b c) : AtMost a c :=
  Std.TransCmp.isLE_trans h h'

theorem lowerHash_atMost (best it : Candidate) :
    AtMost (lowerHash best it) best ∧ AtMost (lowerHash best it) it := by
  have same : ∀ c, AtMost c c := fun c => Std.ReflCmp.isLE_rfl
  unfold lowerHash
  split
  · rename_i lower
    exact ⟨Ordering.ne_gt_iff_isLE.mp lower, same it⟩
  · rename_i higher
    rw [ne_eq, not_not] at higher
    refine ⟨same best, ?_⟩
    have lower : compareStrings best.block.hash it.block.hash = .lt :=
      Std.OrientedCmp.lt_of_gt higher
    rw [AtMost, lower]
    rfl

theorem foldl_lowerHash_atMost (rest : List Candidate) (first : Candidate) :
    ∀ c ∈ first :: rest, AtMost (rest.foldl lowerHash first) c := by
  induction rest generalizing first with
  | nil =>
    intro c inside
    rw [List.mem_singleton.mp inside]
    exact Std.ReflCmp.isLE_rfl
  | cons it rest ih =>
    obtain ⟨old, new⟩ := lowerHash_atMost first it
    have lowest := ih (lowerHash first it) _ List.mem_cons_self
    intro c inside
    rcases List.mem_cons.mp inside with rfl | inside
    · exact lowest.trans old
    · rcases List.mem_cons.mp inside with rfl | inside
      · exact lowest.trans new
      · exact ih (lowerHash first it) c (List.mem_cons_of_mem _ inside)

theorem lowestHash_atMost {candidates : List Candidate} {best : Candidate}
    (lowest : lowestHash candidates = some best) : ∀ c ∈ candidates, AtMost best c := by
  cases candidates with
  | nil => contradiction
  | cons first rest =>
    rw [← Option.some.inj lowest]
    exact foldl_lowerHash_atMost rest first

theorem lowestHash_eq_none {candidates : List Candidate} :
    lowestHash candidates = none ↔ candidates = [] := by
  cases candidates <;> simp [lowestHash]

theorem lowestHash_perm {candidates candidates' : List Candidate}
    (perm : candidates.Perm candidates') :
    SameBlock (lowestHash candidates) (lowestHash candidates') := by
  cases lowest : lowestHash candidates with
  | none =>
    rw [lowestHash_eq_none.mp lowest, List.nil_perm] at perm
    rw [perm]
    rfl
  | some best =>
    cases lowest' : lowestHash candidates' with
    | none =>
      rw [lowestHash_eq_none.mp lowest', List.perm_nil] at perm
      rw [perm] at lowest
      contradiction
    | some best' =>
      have below := lowestHash_atMost lowest best' (perm.mem_iff.mpr (lowestHash_mem lowest'))
      have above := lowestHash_atMost lowest' best (perm.mem_iff.mp (lowestHash_mem lowest))
      have same := Std.LawfulEqCmp.eq_of_compare (Std.OrientedCmp.isLE_antisymm below above)
      exact congrArg some same

/- The fold. -/

def outcome (nPeers : Nat) (inbox : List Message) : Option Candidate :=
  lowestHash (inbox.foldl (Poll.read nPeers) ⟨none, []⟩).candidates

section Alone

def requestedBy (m : Message) : Option Candidate :=
  match m.body with
  | .addRequest _ b => some ⟨b, false⟩
  | _ => none

theorem poll_alone (inbox : List Message) (candidates : List Candidate) :
    inbox.foldl (Poll.read 0) ⟨none, candidates⟩ =
      ⟨none, candidates ++ inbox.filterMap requestedBy⟩ := by
  induction inbox generalizing candidates with
  | nil => simp
  | cons m inbox ih =>
    obtain ⟨pa, index, body⟩ := m
    cases body with
    | addRequest pow b =>
      have accepted : Poll.read 0 ⟨none, candidates⟩ ⟨pa, index, .addRequest pow b⟩ =
          ⟨none, candidates ++ [⟨b, false⟩]⟩ := rfl
      have first : requestedBy ⟨pa, index, .addRequest pow b⟩ = some ⟨b, false⟩ := rfl
      rw [List.foldl_cons, accepted, ih, List.filterMap_cons_some first, List.append_assoc]
      rfl
    | vote | block | requestBlock | noBlock | unrecognized => exact ih candidates

theorem outcome_alone {inbox inbox' : List Message} (perm : inbox.Perm inbox') :
    SameBlock (outcome 0 inbox) (outcome 0 inbox') := by
  unfold outcome
  rw [poll_alone, poll_alone]
  exact lowestHash_perm (perm.filterMap requestedBy)

end Alone

section Majority

variable {nPeers : Nat} {seen : List Message} {f : VoteFrame} {candidates : List Candidate}

/-- The votes of a frame are its own one and those that were read. -/
structure Tallied (nPeers : Nat) (seen : List Message) (f : VoteFrame) : Prop where
  peers : f.nPeers = nPeers + 1
  counted : f.nAgrees + f.nDisagrees = f.clientsSeen.length + 1
  agreed : f.nAgrees ≤ 1 + nAgreeing f.reqBlock.hash seen

theorem nAgreeing_append (hash : Bytes) (seen more : List Message) :
    nAgreeing hash (seen ++ more) = nAgreeing hash seen + nAgreeing hash more :=
  List.countP_append

theorem tallied_asked (b : BType) : Tallied nPeers seen (.asked nPeers b) where
  peers := rfl
  counted := rfl
  agreed := Nat.le_add_right _ _

theorem tallied_more (tallied : Tallied nPeers seen f) (more : List Message) :
    Tallied nPeers (seen ++ more) f := by
  obtain ⟨peers, counted, agreed⟩ := tallied
  refine ⟨peers, counted, ?_⟩
  rw [nAgreeing_append]
  omega

theorem tallied_countVote (tallied : Tallied nPeers seen f) (pa : PeerAddress) (index : Nat)
    (agree : Bool) (hash : Bytes) :
    Tallied nPeers (seen ++ [⟨pa, index, .vote agree hash⟩]) (f.countVote pa agree hash) := by
  have more := tallied_more tallied [⟨pa, index, .vote agree hash⟩]
  unfold VoteFrame.countVote
  split
  · exact more
  · split
    · rename_i same
      subst same
      obtain ⟨peers, counted, agreed⟩ := tallied
      refine ⟨peers, ?_, ?_⟩
      · dsimp only
        rw [List.length_append]
        cases agree <;> simp <;> omega
      · dsimp only
        rw [nAgreeing_append]
        cases agree <;> simp [nAgreeing] at agreed ⊢ <;> omega
    · exact more

theorem await_short (tallied : Tallied nPeers seen f) (few : f.nAgrees ≤ (nPeers + 1) / 2) :
    Poll.await candidates f = ⟨some f, candidates⟩ ∨
      Poll.await candidates f = ⟨none, candidates⟩ := by
  obtain ⟨peers, counted, _⟩ := tallied
  unfold Poll.await
  split
  · exact Or.inl rfl
  · have lost : ¬ f.nAgrees > f.nDisagrees + f.nPeers - (f.clientsSeen.length + 1) := by omega
    right
    simp [Poll.conclude, lost]

theorem settle_short (tallied : Tallied nPeers seen f) (few : f.nAgrees ≤ (nPeers + 1) / 2) :
    Poll.settle candidates f = ⟨some f, candidates⟩ ∨
      Poll.settle candidates f = ⟨none, candidates⟩ := by
  have peers := tallied.peers
  unfold Poll.settle
  split
  · omega
  · split
    · right
      simp [Poll.conclude]
    · exact await_short tallied few

/-- No candidate so far, and the open vote cannot be won in the whole inbox. -/
structure Losing (nPeers : Nat) (inbox seen : List Message) (p : Poll) : Prop where
  without : p.candidates = []
  hopeless : ∀ f ∈ p.current, Tallied nPeers seen f ∧ Hopeless nPeers inbox f.reqBlock

variable {inbox later : List Message} {p : Poll}

theorem tallied_few (tallied : Tallied nPeers seen f)
    (hopeless : Hopeless nPeers (seen ++ later) f.reqBlock) : f.nAgrees ≤ (nPeers + 1) / 2 := by
  have agreed := tallied.agreed
  unfold Hopeless at hopeless
  rw [nAgreeing_append] at hopeless
  omega

theorem losing_open (tallied : Tallied nPeers seen f)
    (hopeless : Hopeless nPeers (seen ++ later) f.reqBlock)
    (stands : p = ⟨some f, []⟩ ∨ p = ⟨none, []⟩) : Losing nPeers (seen ++ later) seen p := by
  rcases stands with rfl | rfl
  · refine ⟨rfl, fun g same => ?_⟩
    rw [← Option.some.inj same]
    exact ⟨tallied, hopeless⟩
  · exact ⟨rfl, fun g same => by cases same⟩

theorem losing_asked {b : BType} (hopeless : Hopeless nPeers (seen ++ later) b) :
    Losing nPeers (seen ++ later) seen (.await [] (.asked nPeers b)) := by
  have tallied : Tallied nPeers seen (.asked nPeers b) := tallied_asked b
  exact losing_open tallied hopeless (await_short tallied (tallied_few tallied hopeless))

theorem losing_settle (tallied : Tallied nPeers seen f)
    (hopeless : Hopeless nPeers (seen ++ later) f.reqBlock) :
    Losing nPeers (seen ++ later) seen (.settle [] f) :=
  losing_open tallied hopeless (settle_short tallied (tallied_few tallied hopeless))

theorem losing_read {m : Message} (losing : Losing nPeers (seen ++ m :: later) seen p)
    (requested : ∀ pow b, m.body = .addRequest pow b →
      Hopeless nPeers (seen ++ m :: later) b) :
    Losing nPeers (seen ++ m :: later) (seen ++ [m]) (p.read nPeers m) := by
  obtain ⟨opened, candidates⟩ := p
  obtain ⟨without, hopeless⟩ := losing
  dsimp only at without
  subst without
  have split_ : seen ++ m :: later = (seen ++ [m]) ++ later := by simp
  rw [split_] at requested hopeless ⊢
  obtain ⟨pa, index, body⟩ := m
  cases opened with
  | none =>
    cases body with
    | addRequest pow b => exact losing_asked (requested pow b rfl)
    | vote | block | requestBlock | noBlock | unrecognized =>
      exact ⟨rfl, fun g same => by cases same⟩
  | some f =>
    obtain ⟨tallied, lost⟩ := hopeless f rfl
    have more := fun m => tallied_more tallied [m]
    cases body with
    | addRequest pow b =>
      unfold Poll.read
      dsimp only
      split
      · exact losing_asked (requested pow b rfl)
      · exact losing_settle (more _) lost
    | vote agree hash =>
      have counted := tallied_countVote tallied pa index agree hash
      have same := (countVote_same f pa agree hash).2.1
      rw [← same] at lost
      exact losing_settle counted lost
    | block | requestBlock | noBlock | unrecognized =>
      exact losing_open (more _) lost (Or.inl rfl)

theorem losing_fold (losing : Losing nPeers (seen ++ later) seen p)
    (requested : ∀ m ∈ later, ∀ pow b, m.body = .addRequest pow b →
      Hopeless nPeers (seen ++ later) b) :
    (later.foldl (Poll.read nPeers) p).candidates = [] := by
  induction later generalizing seen p with
  | nil => exact losing.without
  | cons m later ih =>
    have next := losing_read losing (requested m List.mem_cons_self)
    have split_ : seen ++ m :: later = (seen ++ [m]) ++ later := by simp
    rw [split_] at next requested
    exact ih next fun m inside => requested m (List.mem_cons_of_mem _ inside)

end Majority

theorem outcome_hopeless {nPeers : Nat} {inbox : List Message}
    (requested : ∀ m ∈ inbox, ∀ pow b, m.body = .addRequest pow b → Hopeless nPeers inbox b) :
    outcome nPeers inbox = none := by
  have start : Losing nPeers ([] ++ inbox) [] ⟨none, []⟩ := ⟨rfl, fun f same => by cases same⟩
  have lost := losing_fold start requested
  unfold outcome
  rw [lost]
  rfl

section Winning

variable {nPeers : Nat} {f : VoteFrame} {candidates : List Candidate}

theorem conclude_grows (result : Bool) :
    candidates <+: (Poll.conclude candidates f result).candidates :=
  List.prefix_append _ _

theorem await_grows : candidates <+: (Poll.await candidates f).candidates := by
  unfold Poll.await
  split
  · exact List.prefix_rfl
  · exact conclude_grows _

theorem settle_grows : candidates <+: (Poll.settle candidates f).candidates := by
  unfold Poll.settle
  split
  · exact conclude_grows true
  · split
    · exact conclude_grows false
    · exact await_grows

theorem read_grows (p : Poll) (m : Message) :
    p.candidates <+: (p.read nPeers m).candidates := by
  unfold Poll.read
  split
  · exact await_grows
  · exact settle_grows
  · split
    · exact await_grows
    · exact settle_grows
  · exact List.prefix_rfl

theorem fold_grows (inbox : List Message) (p : Poll) :
    p.candidates <+: (inbox.foldl (Poll.read nPeers) p).candidates := by
  induction inbox generalizing p with
  | nil => exact List.prefix_rfl
  | cons m inbox ih => exact (read_grows p m).trans (ih _)

theorem fold_kept {inbox : List Message} {p : Poll} (found : p.candidates ≠ []) :
    (inbox.foldl (Poll.read nPeers) p).candidates ≠ [] :=
  (fold_grows inbox p).ne_nil found

structure Unopposed (nPeers : Nat) (f : VoteFrame) : Prop where
  peers : f.nPeers = nPeers + 1
  agreed : f.nAgrees = f.clientsSeen.length + 1
  opposed : f.nDisagrees = 0
  missing : f.nAgrees ≤ (nPeers + 1) / 2

theorem settle_unopposed (peers : f.nPeers = nPeers + 1)
    (agreed : f.nAgrees = f.clientsSeen.length + 1) (opposed : f.nDisagrees = 0) :
    (Poll.settle candidates f).candidates ≠ [] ∨
      Unopposed nPeers f ∧ Poll.settle candidates f = ⟨some f, candidates⟩ := by
  unfold Poll.settle
  split
  · left
    simp [Poll.conclude]
  · rename_i undecided
    have missing : f.nAgrees ≤ (nPeers + 1) / 2 := by omega
    have noneAgainst : ¬ f.nDisagrees > f.nPeers / 2 := by omega
    have waiting : f.clientsSeen.length + 1 < f.nPeers := by omega
    rw [if_neg noneAgainst, Poll.await, if_pos waiting]
    exact Or.inr ⟨⟨peers, agreed, opposed, missing⟩, rfl⟩

/-- Enough agree votes of different peers, read one after the other, win the vote. -/
theorem fold_wins (votes : List Message) (open_ : Unopposed nPeers f)
    (agree : ∀ m ∈ votes, m.body = .vote true f.reqBlock.hash)
    (different : (votes.map Message.peerAddress).Nodup)
    (fresh : ∀ m ∈ votes, m.peerAddress ∉ f.clientsSeen)
    (enough : (nPeers + 1) / 2 < f.nAgrees + votes.length) :
    (votes.foldl (Poll.read nPeers) ⟨some f, candidates⟩).candidates ≠ [] := by
  induction votes generalizing f with
  | nil =>
    have missing := open_.missing
    rw [List.length_nil] at enough
    omega
  | cons m votes ih =>
    obtain ⟨peers, agreed, opposed, missing⟩ := open_
    obtain ⟨pa, index, body⟩ := m
    have vote : body = .vote true f.reqBlock.hash := agree _ List.mem_cons_self
    subst vote
    have new : clientFound pa f.clientsSeen = false := by
      have notSeen : pa ∉ f.clientsSeen := fresh _ List.mem_cons_self
      unfold clientFound
      rw [List.any_eq_false]
      intro seen inside same
      rw [cmpPeerAddress_iff.mp same] at notSeen
      exact notSeen inside
    let g := { f with nAgrees := f.nAgrees + 1, clientsSeen := f.clientsSeen ++ [pa] }
    have counted : f.countVote pa true f.reqBlock.hash = g := by
      simp [VoteFrame.countVote, new, g]
    have read : Poll.read nPeers ⟨some f, candidates⟩ ⟨pa, index, .vote true f.reqBlock.hash⟩ =
        .settle candidates g := by
      rw [← counted]
      rfl
    rw [List.foldl_cons, read]
    have more : g.nAgrees = g.clientsSeen.length + 1 := by
      simp [g, agreed]
    have settled := @settle_unopposed nPeers g candidates peers more opposed
    rcases settled with won | ⟨still, same⟩
    · exact fold_kept won
    · rw [same]
      rw [List.map_cons, List.nodup_cons] at different
      apply ih still
      · exact fun m inside => agree m (List.mem_cons_of_mem _ inside)
      · exact different.2
      · intro m inside seen
        rcases List.mem_append.mp seen with before | now
        · exact fresh m (List.mem_cons_of_mem _ inside) before
        · exact different.1 (List.mem_map.mpr ⟨m, inside, List.mem_singleton.mp now⟩)
      · rw [List.length_cons] at enough
        simp only [g]
        omega

/- Two orders of one inbox. -/

def isVote (m : Message) : Bool :=
  match m.body with
  | .vote _ _ => true
  | _ => false

theorem outcome_votes_first (inbox : List Message) (others : 1 ≤ nPeers) :
    outcome nPeers (inbox.filter isVote ++ inbox.filter (fun m => !isVote m)) = none := by
  have aside : ∀ votes : List Message, (∀ m ∈ votes, isVote m = true) →
      votes.foldl (Poll.read nPeers) ⟨none, []⟩ = ⟨none, []⟩ := by
    intro votes all
    induction votes with
    | nil => rfl
    | cons m votes ih =>
      obtain ⟨pa, index, body⟩ := m
      have vote := all _ List.mem_cons_self
      cases body with
      | vote agree hash => exact ih fun m inside => all m (List.mem_cons_of_mem _ inside)
      | block | requestBlock | noBlock | addRequest | unrecognized => cases vote
  have ignored := aside (inbox.filter isVote) fun m inside => (List.mem_filter.mp inside).2
  unfold outcome
  rw [List.foldl_append, ignored]
  apply outcome_hopeless
  intro m _ pow b _
  have silent : nAgreeing b.hash (inbox.filter fun m => !isVote m) = 0 := by
    unfold nAgreeing
    rw [List.countP_eq_zero]
    intro m inside agrees
    have request := (List.mem_filter.mp inside).2
    rw [isVote, beq_iff_eq.mp agrees] at request
    cases request
  unfold Hopeless
  rw [silent]
  omega

theorem outcome_request_first {m : Message} {pow : Bytes} {b : BType} (votes rest : List Message)
    (others : 1 ≤ nPeers) (request : m.body = .addRequest pow b)
    (agree : ∀ m ∈ votes, m.body = .vote true b.hash)
    (different : (votes.map Message.peerAddress).Nodup)
    (enough : (nPeers + 1) / 2 < 1 + votes.length) :
    outcome nPeers (m :: (votes ++ rest)) ≠ none := by
  obtain ⟨pa, index, body⟩ := m
  dsimp only at request
  subst request
  have waiting : (VoteFrame.asked nPeers b).clientsSeen.length + 1 <
      (VoteFrame.asked nPeers b).nPeers := by
    simp [VoteFrame.asked, VoteFrame.start]
    omega
  have opened : Poll.read nPeers ⟨none, []⟩ ⟨pa, index, .addRequest pow b⟩ =
      ⟨some (.asked nPeers b), []⟩ := if_pos waiting
  have open_ : Unopposed nPeers (.asked nPeers b) := by
    refine ⟨rfl, rfl, rfl, ?_⟩
    simp only [VoteFrame.asked, VoteFrame.start, Bool.toNat_true]
    omega
  have won : (votes.foldl (Poll.read nPeers) ⟨some (.asked nPeers b), []⟩).candidates ≠ [] :=
    fold_wins votes open_ agree different (fun _ _ seen => by cases seen) enough
  unfold outcome
  rw [List.foldl_cons, opened, List.foldl_append, ne_eq, lowestHash_eq_none]
  exact fold_kept won

theorem orders_differ {inbox : List Message} {m : Message} {pow : Bytes} {b : BType}
    (others : 1 ≤ nPeers) (member : m ∈ inbox) (request : m.body = .addRequest pow b)
    (once : ((inbox.filter (isVoteFor b.hash)).map Message.peerAddress).Nodup)
    (winnable : ¬ Hopeless nPeers inbox b) :
    ∃ inbox₁ inbox₂ : List Message, inbox₁.Perm inbox ∧ inbox₂.Perm inbox ∧
      outcome nPeers inbox₁ = none ∧ outcome nPeers inbox₂ ≠ none := by
  let agrees := fun m : Message => m.body == .vote true b.hash
  let rest := (inbox.filter fun m => !agrees m).erase m
  have remains : m ∈ inbox.filter fun m => !agrees m := by
    rw [List.mem_filter]
    simp [member, agrees, request]
  have perm : (m :: (inbox.filter agrees ++ rest)).Perm inbox :=
    (List.perm_middle.symm.trans ((List.perm_cons_erase remains).symm.append_left _)).trans
      (List.filter_append_perm _ _)
  have agree : ∀ m ∈ inbox.filter agrees, m.body = .vote true b.hash :=
    fun m inside => beq_iff_eq.mp (List.mem_filter.mp inside).2
  have some_ : ∀ m, agrees m = true → isVoteFor b.hash m = true := by
    intro m agreed
    rw [isVoteFor, beq_iff_eq.mp agreed]
    exact beq_self_eq_true _
  have different := ((List.monotone_filter_right inbox some_).map Message.peerAddress).nodup once
  have enough : (nPeers + 1) / 2 < 1 + (inbox.filter agrees).length := by
    rw [← List.countP_eq_length_filter]
    exact Nat.lt_of_not_le winnable
  exact ⟨_, _, List.filter_append_perm isVote inbox, perm, outcome_votes_first inbox others,
    outcome_request_first _ _ others request agree different enough⟩

end Winning

/- The call. -/

section Call

variable {powGroup : IProofOfWork Bytes Bytes} {s : PeerState sha256} {inbox inbox' : List Message}

theorem returns_outcome (pending : Pending powGroup s) (perm : inbox.Perm s.inbox) :
    Returns powGroup { s with inbox } (outcome s.addressees.length inbox) := by
  have follows : Follows s.bc s.addressees.length { s with inbox } ⟨none, []⟩ :=
    ⟨rfl, rfl, pending.fresh, [], pending.called⟩
  exact returns_poll follows fun m inside => pending.current m (perm.mem_iff.mp inside)

theorem orderIndependent_iff (pending : Pending powGroup s) :
    OrderIndependent powGroup s ↔ ∀ inbox inbox' : List Message, inbox.Perm s.inbox →
      inbox'.Perm s.inbox →
        SameBlock (outcome s.addressees.length inbox) (outcome s.addressees.length inbox') := by
  constructor
  · intro same inbox inbox' perm perm'
    obtain ⟨best, best', returns, returns', agree⟩ := same inbox inbox' perm perm'
    rw [returns.unique (returns_outcome pending perm),
      returns'.unique (returns_outcome pending perm')] at agree
    exact agree
  · intro same inbox inbox' perm perm'
    exact ⟨_, _, returns_outcome pending perm, returns_outcome pending perm',
      same inbox inbox' perm perm'⟩

theorem orders_matter (pending : Pending powGroup s) (alone : s.addressees ≠ []) {m : Message}
    {pow : Bytes} {b : BType} (member : m ∈ s.inbox) (request : m.body = .addRequest pow b)
    (winnable : ¬ Hopeless s.addressees.length s.inbox b) : ¬ OrderIndependent powGroup s := by
  rw [orderIndependent_iff pending]
  intro same
  have others : 1 ≤ s.addressees.length := List.length_pos_of_ne_nil alone
  obtain ⟨inbox, inbox', perm, perm', lost, won⟩ :=
    orders_differ others member request (pending.once b.hash) winnable
  have agree := same inbox inbox' perm perm'
  rw [lost, SameBlock, Option.map_none, eq_comm, Option.map_eq_none_iff] at agree
  exact won agree

theorem hopeless_perm {nPeers : Nat} {b : BType} (perm : inbox.Perm inbox') :
    Hopeless nPeers inbox b ↔ Hopeless nPeers inbox' b := by
  unfold Hopeless nAgreeing
  rw [perm.countP_eq]

end Call

/-- The order of the inbox does not matter exactly when there are no other peers, or when the
agree votes are a majority for no request. -/
theorem orders_agree_iff (powGroup : IProofOfWork Bytes Bytes) (s : PeerState sha256)
    (pending : Pending powGroup s) :
    OrderIndependent powGroup s ↔ s.addressees = [] ∨
      ∀ m ∈ s.inbox, ∀ pow b, m.body = .addRequest pow b →
        Hopeless s.addressees.length s.inbox b := by
  constructor
  · intro same
    by_cases alone : s.addressees = []
    · exact Or.inl alone
    · refine Or.inr fun m member pow b request => ?_
      by_contra winnable
      exact orders_matter pending alone member request winnable same
  · rw [orderIndependent_iff pending]
    rintro (alone | hopeless) inbox inbox' perm perm'
    · rw [alone]
      exact outcome_alone (perm.trans perm'.symm)
    · have lost : ∀ inbox, List.Perm inbox s.inbox →
          outcome s.addressees.length inbox = none := by
        intro inbox perm
        apply outcome_hopeless
        intro m inside pow b request
        exact (hopeless_perm perm).mpr (hopeless m (perm.mem_iff.mp inside) pow b request)
      rw [lost inbox perm, lost inbox' perm']
      rfl

/- A peer that has received the agree vote of the only other peer before its request. -/

def echoOther : PeerAddress := ⟨2, 80, 2⟩

def echoRequest : AdditionRequest :=
  @ownRequest HashCash.echo (hashCash HashCash.echo 24) echoOther Blockchain.new default

def echoVote : Message := ⟨echoOther, 1, .vote true echoRequest.block.hash⟩

def echoCall : PeerState HashCash.echo :=
  { PeerState.ready ⟨2, 80, 1⟩ [⟨2, 80, 1⟩, echoOther] Blockchain.new [] with
    inbox := [echoVote, echoRequest.toMessage]
    control := .handleAll [] }

theorem echoRequest_current :
    Current (hashCash HashCash.echo 24) echoCall.bc echoRequest.toMessage := by
  refine ⟨rfl, ?_⟩
  exact (voteOn_iff (hashCash HashCash.echo 24) _ echoRequest true).mpr
    ⟨Nat.le_refl _, sneakPeekBlock_extends _ _, echo_proposal_solved _ _, rfl⟩

theorem echoCall_pending : Pending (hashCash HashCash.echo 24) echoCall where
  called := rfl
  fresh := rfl
  current := by
    intro m inside
    rcases List.mem_cons.mp inside with rfl | inside
    · exact ⟨rfl, trivial⟩
    · rw [List.mem_singleton.mp inside]
      exact echoRequest_current
  requested := by
    intro m inside agree hash vote
    refine ⟨echoRequest.toMessage, List.mem_cons_of_mem _ List.mem_cons_self, echoRequest.pow,
      echoRequest.block, rfl, ?_⟩
    rcases List.mem_cons.mp inside with rfl | inside
    · exact (Body.vote.inj vote).2
    · rw [List.mem_singleton.mp inside] at vote
      cases vote
  once := by
    intro hash
    have request : [echoRequest.toMessage].filter (isVoteFor hash) = [] := rfl
    have parts : echoCall.inbox.filter (isVoteFor hash) = [echoVote].filter (isVoteFor hash) ++
        [echoRequest.toMessage].filter (isVoteFor hash) := List.filter_append [echoVote] _
    rw [parts, request, List.append_nil]
    exact (List.filter_sublist.map Message.peerAddress).nodup (List.nodup_singleton _)

theorem early_vote_lost :
    ¬ ∀ s : PeerState HashCash.echo, Pending (hashCash HashCash.echo 24) s →
      OrderIndependent (hashCash HashCash.echo 24) s := by
  intro same
  have winnable : ¬ Hopeless echoCall.addressees.length echoCall.inbox echoRequest.block := by
    have counted : (echoVote.body == .vote true echoRequest.block.hash) = true :=
      beq_self_eq_true _
    have agreeing : nAgreeing echoRequest.block.hash echoCall.inbox = 1 :=
      List.countP_cons_of_pos counted
    unfold Hopeless
    rw [agreeing]
    decide
  exact orders_matter echoCall_pending (by decide) (List.mem_cons_of_mem _ List.mem_cons_self) rfl
    winnable (same echoCall echoCall_pending)

theorem echo_orders_disagree :
    OrderIndependent (hashCash HashCash.echo 24) echoCall ↔ echoCall.addressees = [] ∨
      ∀ m ∈ echoCall.inbox, ∀ pow b, m.body = .addRequest pow b →
        Hopeless echoCall.addressees.length echoCall.inbox b :=
  orders_agree_iff (hashCash HashCash.echo 24) echoCall echoCall_pending

end DPS2.Application
