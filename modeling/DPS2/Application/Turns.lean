import DPS2.Application.Machine

/-! What one turn can do. A family of facts about the messages, frames and candidates of
a peer is kept by every turn as soon as the few places that create them establish it. -/
namespace DPS2.Application

open P2P ProofOfWork

variable {sha256 : Bytes → Bytes}

/-- The part of the state that only a new block changes. -/
structure Books (sha256 : Bytes → Bytes) where
  bc : Blockchain (sha256FromDataAndHash sha256)
  transactions : List Transactions

def PeerState.books (s : PeerState sha256) : Books sha256 := ⟨s.bc, s.transactions⟩

/-- What is claimed of stored messages, of a batch about to be proposed, of blocks
received while synchronising, of vote frames, of frames whose vote was won and of
candidates. All but the first may depend on the books. -/
structure Facts (sha256 : Bytes → Bytes) where
  message : Message → Prop
  batch : Books sha256 → Transactions → Prop
  entry : Books sha256 → BType → Prop
  frame : Books sha256 → VoteFrame → Prop
  won : Books sha256 → VoteFrame → Prop
  candidate : Books sha256 → Candidate → Prop

section Holds

variable (F : Facts sha256) (books : Books sha256)

def Caller.Holds : Caller → Prop
  | .refresh => True
  | .addRequest r => F.message r.toMessage
  | .transactions ts => F.batch books ts
  | .noMessages => True

def VoteFrame.Holds (f : VoteFrame) : Prop :=
  F.frame books f ∧ ∀ m ∈ f.readMessages, F.message m

def VotesHold (below : List VoteFrame) (read : List Message) : Prop :=
  (∀ f ∈ below, f.Holds F books) ∧ ∀ m ∈ read, F.message m

def Control.Holds : Control → Prop
  | .run => True
  | .requestBlockchain caller => caller.Holds F books
  | .awaitBlock f caller =>
      (∀ m ∈ f.readMessages, F.message m) ∧ (∀ e ∈ f.messages, F.entry books e.1) ∧
        caller.Holds F books
  | .handleRequest r => F.message r.toMessage
  | .addBlock ts => F.batch books ts
  | .awaitVotes f below read => f.Holds F books ∧ VotesHold F books below read
  | .majority f below read => f.Holds F books ∧ VotesHold F books below read
  | .checked result f below read =>
      (result = true → F.won books f) ∧ f.Holds F books ∧ VotesHold F books below read
  | .handled _ below read => VotesHold F books below read
  | .handleAll read => ∀ m ∈ read, F.message m

end Holds

/-- Outside the calls that handle requests and proposals there are no candidates. -/
def Control.voting : Control → Bool
  | .awaitVotes .. | .majority .. | .checked .. | .handled .. | .handleAll .. => true
  | _ => false

structure Holds (F : Facts sha256) (s : PeerState sha256) : Prop where
  inbox : ∀ m ∈ s.inbox, F.message m
  control : s.control.Holds F s.books
  candidates : ∀ c ∈ s.addblockCandidates, F.candidate s.books c
  quiet : s.control.voting = false → s.addblockCandidates = []

def Origin.own : Origin → Bool
  | .addBlockToBlockchain _ _ => true
  | .handleBlockAdditionRequest _ => false

/-- How CheckVotesForBlock comes to return true. -/
def VoteFrame.Wins (f : VoteFrame) : Prop :=
  f.nAgrees > f.nPeers / 2 ∨
    (¬ f.clientsSeen.length + 1 < f.nPeers ∧
      f.nAgrees > f.nDisagrees + f.nPeers - (f.clientsSeen.length + 1))

/-- The places that create a frame, a candidate or an entry establish its fact. -/
structure Closed (powGroup : IProofOfWork Bytes Bytes) (F : Facts sha256) (s : PeerState sha256) :
    Prop where
  request : ∀ r : AdditionRequest, F.message r.toMessage → r.index ≤ s.bc.size →
    .broadcast ⟨s.ownPa, r.index, .vote (voteOn powGroup s.bc r true) r.block.hash⟩ ∈
      (turn powGroup s).2 →
    F.frame s.books (VoteFrame.start (.handleBlockAdditionRequest (voteOn powGroup s.bc r true))
      r.block s.addressees.length (voteOn powGroup s.bc r true))
  proposal : ∀ ts, s.control = .addBlock ts → F.batch s.books ts →
    F.frame s.books (VoteFrame.start
      (.addBlockToBlockchain s.bc.size
        (powGroup.solveProblem (sha256FromBlock sha256 (s.bc.sneakPeekBlock ts))))
      (s.bc.sneakPeekBlock ts) s.addressees.length true)
  vote : ∀ (f : VoteFrame) (m : Message) (agree : Bool) (hash : Bytes), F.frame s.books f →
    F.message m → m.body = .vote agree hash → m.index = s.bc.size →
    F.frame s.books (f.countVote m.peerAddress agree hash)
  waiting : ∀ (f : VoteFrame) (tries : Nat) (readMessages : List Message), F.frame s.books f →
    F.frame s.books { f with tries, readMessages }
  won : ∀ f : VoteFrame, F.frame s.books f → f.Wins → F.won s.books f
  accepted : ∀ (f : VoteFrame) (below : List VoteFrame) (read : List Message),
    s.control = .checked true f below read → F.frame s.books f → F.won s.books f →
    F.candidate s.books ⟨f.reqBlock, f.origin.own⟩
  entry : ∀ (m : Message) (b : BType), F.message m → m.body = .block b →
    sha256FromDataAndHash sha256 b.data b.prevHash = b.hash → b.prevHash = s.bc.getTopHash →
    F.entry s.books b
  front : ∀ ts rest, s.transactions = ts :: rest → F.batch s.books ts
  grown : ∀ bc ts, F.batch s.books ts → F.batch ⟨bc, s.transactions⟩ ts

section Lists

variable {α : Type} {P : α → Prop} {x : α} {xs ys : List α}

theorem all_append (hx : ∀ a ∈ xs, P a) (hy : ∀ a ∈ ys, P a) : ∀ a ∈ xs ++ ys, P a := by
  intro a ha
  rcases List.mem_append.mp ha with h | h
  · exact hx a h
  · exact hy a h

theorem all_snoc (hx : ∀ a ∈ xs, P a) (last : P x) : ∀ a ∈ xs ++ [x], P a :=
  all_append hx (by simpa using last)

theorem all_cons (head : P x) (tail : ∀ a ∈ xs, P a) : ∀ a ∈ x :: xs, P a := by
  simpa using ⟨head, tail⟩

end Lists

/- The order of strings. -/

theorem compareStrings_eq_compareLex :
    compareStrings = List.compareLex (compareOn BitVec.toNat) := by
  funext a b
  induction a generalizing b with
  | nil => cases b <;> rfl
  | cons x a ih =>
    cases b with
    | nil => rfl
    | cons y b =>
      rw [compareStrings, List.compareLex_cons_cons, ih]
      rfl

instance compareBytes_lawful : Std.LawfulEqCmp (compareOn (BitVec.toNat : Byte → Nat)) where
  compare_self := by simp [compareOn]
  eq_of_compare same := BitVec.eq_of_toNat_eq (Nat.compare_eq_eq.mp same)

instance compareStrings_trans : Std.TransCmp compareStrings := by
  rw [compareStrings_eq_compareLex]
  infer_instance

instance compareStrings_lawful : Std.LawfulEqCmp compareStrings := by
  rw [compareStrings_eq_compareLex]
  infer_instance

theorem compareStrings_self (xs : Bytes) : compareStrings xs xs = .eq :=
  Std.ReflCmp.compare_self

section Turn

variable {powGroup : IProofOfWork Bytes Bytes} {F : Facts sha256} {s : PeerState sha256}

theorem clientFound_iff {pa : PeerAddress} {seen : List PeerAddress} :
    clientFound pa seen = true ↔ pa ∈ seen := by
  simp [clientFound, cmpPeerAddress_iff]

theorem countBlock_entries (b : BType) (messages : BlockCounts) :
    ∀ e ∈ countBlock b messages, e.1 = b ∨ ∃ e' ∈ messages, e'.1 = e.1 := by
  induction messages with
  | nil => simp [countBlock]
  | cons entry rest ih =>
    intro e he
    unfold countBlock at he
    split at he
    · rcases List.mem_cons.mp he with rfl | old
      · exact Or.inl rfl
      · exact Or.inr ⟨e, old, rfl⟩
    · rcases List.mem_cons.mp he with rfl | old
      · exact Or.inr ⟨entry, by simp, rfl⟩
      · exact Or.inr ⟨e, by simp [old], rfl⟩
    · rcases List.mem_cons.mp he with rfl | old
      · exact Or.inr ⟨entry, by simp, rfl⟩
      · rcases ih e old with new | ⟨e', member, same⟩
        · exact Or.inl new
        · exact Or.inr ⟨e', by simp [member], same⟩

theorem readBlockMessage_holds (closed : Closed powGroup F s) {f : BlockFrame} {msg : Message}
    (hm : F.message msg) (hread : ∀ m ∈ f.readMessages, F.message m)
    (hentries : ∀ e ∈ f.messages, F.entry s.books e.1) :
    (∀ m ∈ (readBlockMessage s f msg).1.readMessages, F.message m) ∧
      ∀ e ∈ (readBlockMessage s f msg).1.messages, F.entry s.books e.1 := by
  unfold readBlockMessage
  simp only
  split
  · split <;> exact ⟨hread, hentries⟩
  · rename_i b body
    split
    · exact ⟨hread, hentries⟩
    · split
      · rename_i valid
        refine ⟨hread, fun e he => ?_⟩
        rcases countBlock_entries b f.messages e he with new | ⟨e', member, same⟩
        · rw [new]
          exact closed.entry msg b hm body valid.1 valid.2
        · rw [← same]
          exact hentries e' member
      · exact ⟨hread, hentries⟩
  · split
    · split <;> exact ⟨hread, hentries⟩
    · split
      · exact ⟨hread, hentries⟩
      · exact ⟨all_snoc hread hm, hentries⟩
  · exact ⟨hread, hentries⟩

theorem caller_grown (closed : Closed powGroup F s)
    (bc : Blockchain (sha256FromDataAndHash sha256)) {caller : Caller}
    (h : caller.Holds F s.books) : caller.Holds F ⟨bc, s.transactions⟩ := by
  cases caller with
  | transactions ts => exact closed.grown bc ts h
  | refresh | addRequest | noMessages => exact h

theorem resume_holds {books : Books sha256} {caller : Caller} (h : caller.Holds F books) :
    caller.resume.Holds F books ∧ caller.resume.voting = false := by
  cases caller <;> exact ⟨h, rfl⟩

theorem requestedBlock_holds (closed : Closed powGroup F s) {caller : Caller}
    {inbox : List Message} (hinbox : ∀ m ∈ inbox, F.message m) (hcaller : caller.Holds F s.books)
    (empty : s.addblockCandidates = []) (largestBlock : Option BType) :
    Holds F (requestedBlock { s with inbox } caller largestBlock) := by
  have clear : ∀ books, ∀ c ∈ s.addblockCandidates, F.candidate books c := by simp [empty]
  cases largestBlock with
  | none =>
    obtain ⟨holds, still⟩ := resume_holds hcaller
    exact ⟨hinbox, holds, clear _, fun _ => empty⟩
  | some b => exact ⟨hinbox, caller_grown closed _ hcaller, clear _, fun _ => empty⟩

theorem awaitBlock_holds (closed : Closed powGroup F s) (h : Holds F s) {f : BlockFrame}
    {caller : Caller} (hc : s.control = .awaitBlock f caller) :
    Holds F (awaitBlock s f caller).1 := by
  obtain ⟨hinbox, hcontrol, hcandidates, hquiet⟩ := h
  rw [hc] at hcontrol hquiet
  obtain ⟨hread, hentries, hcaller⟩ := hcontrol
  have empty := hquiet rfl
  unfold awaitBlock
  split
  · split
    · rename_i msg inbox waiting
      rw [waiting] at hinbox
      have hm := hinbox msg (by simp)
      have hrest : ∀ m ∈ inbox, F.message m := fun m member => hinbox m (by simp [member])
      obtain ⟨read', entries'⟩ := readBlockMessage_holds closed hm hread hentries
      simp only
      split
      · exact requestedBlock_holds closed (all_append hrest read') hcaller empty _
      · split
        · exact ⟨all_append hrest read', hcaller, hcandidates, fun _ => empty⟩
        · exact ⟨hrest, ⟨read', entries', hcaller⟩, hcandidates, fun _ => empty⟩
    · simp only
      split
      · exact ⟨all_append hinbox hread, hcaller, hcandidates, fun _ => empty⟩
      · exact ⟨hinbox, ⟨hread, hentries, hcaller⟩, hcandidates, fun _ => empty⟩
  · exact ⟨all_append hinbox hread, hcaller, hcandidates, fun _ => empty⟩

theorem request_holds (closed : Closed powGroup F s) {inbox : List Message} {r : AdditionRequest}
    {below : List VoteFrame} {read : List Message} (hinbox : ∀ m ∈ inbox, F.message m)
    (hr : F.message r.toMessage) (hvotes : VotesHold F s.books below read)
    (hcandidates : ∀ c ∈ s.addblockCandidates, F.candidate s.books c) (allowAgree : Bool)
    (sent : (handleBlockAdditionRequest powGroup { s with inbox } r allowAgree below read).2 ⊆
      (turn powGroup s).2) :
    Holds F (handleBlockAdditionRequest powGroup { s with inbox } r allowAgree below read).1 := by
  unfold handleBlockAdditionRequest
  split
  · exact ⟨all_snoc hinbox hr, hvotes, hcandidates, by simp [PeerState.goto, Control.voting]⟩
  · rename_i inTime
    cases allowAgree with
    | true =>
      simp only [handleBlockAdditionRequest, inTime, if_false, if_true] at sent
      have voted := closed.request r hr (Nat.le_of_not_lt inTime) (sent List.mem_cons_self)
      exact ⟨hinbox, ⟨⟨voted, by simp [VoteFrame.start]⟩, hvotes⟩, hcandidates,
        by simp [PeerState.goto, Control.voting]⟩
    | false => exact ⟨hinbox, hvotes, hcandidates, by simp [PeerState.goto, Control.voting]⟩

theorem countVote_read (f : VoteFrame) (pa : PeerAddress) (agree : Bool) (hash : Bytes) :
    (f.countVote pa agree hash).readMessages = f.readMessages := by
  unfold VoteFrame.countVote
  split
  · rfl
  · split <;> rfl

theorem readVoteMessage_holds (closed : Closed powGroup F s) {inbox : List Message}
    {f : VoteFrame} {below : List VoteFrame} {read : List Message} {msg : Message}
    (hinbox : ∀ m ∈ inbox, F.message m) (hm : F.message msg) (hf : f.Holds F s.books)
    (hvotes : VotesHold F s.books below read)
    (hcandidates : ∀ c ∈ s.addblockCandidates, F.candidate s.books c)
    (sent : (readVoteMessage powGroup { s with inbox } f below read msg).2 ⊆
      (turn powGroup s).2) :
    Holds F (readVoteMessage powGroup { s with inbox } f below read msg).1 := by
  have go : ∀ g : VoteFrame, g.Holds F s.books →
      Holds F ({ s with inbox }.goto (.majority g below read)) := fun g hg =>
    ⟨hinbox, ⟨hg, hvotes⟩, hcandidates, by simp [PeerState.goto, Control.voting]⟩
  have deferred : (f.defer msg).Holds F s.books :=
    ⟨closed.waiting f f.tries _ hf.1, all_snoc hf.2 hm⟩
  unfold readVoteMessage
  split
  · rename_i agree hash body
    split
    · split
      · rename_i current
        refine go _ ⟨closed.vote f msg agree hash hf.1 hm body current, ?_⟩
        rw [countVote_read]
        exact hf.2
      · exact go f hf
    · exact go _ deferred
  · split
    · exact go f hf
    · exact go _ deferred
  · rename_i pow b body
    split
    · have hr : F.message (AdditionRequest.mk msg.peerAddress msg.index pow b).toMessage := by
        simp only [AdditionRequest.toMessage, ← body]
        exact hm
      have hbelow : VotesHold F s.books (f :: below) read := ⟨all_cons hf hvotes.1, hvotes.2⟩
      rename_i current
      simp only [readVoteMessage, body] at sent
      rw [if_pos current] at sent
      simp only
      split
      · rename_i lower
        rw [if_pos lower] at sent
        exact request_holds closed hinbox hr hbelow hcandidates true sent
      · rename_i higher
        rw [if_neg higher] at sent
        exact request_holds closed hinbox hr hbelow hcandidates false sent
    · exact go _ deferred
  · exact go f hf

theorem awaitVotes_holds (closed : Closed powGroup F s) (h : Holds F s) {f : VoteFrame}
    {below : List VoteFrame} {read : List Message} (hc : s.control = .awaitVotes f below read) :
    Holds F (awaitVotes powGroup s f below read).1 := by
  obtain ⟨hinbox, hcontrol, hcandidates, _⟩ := h
  rw [hc] at hcontrol
  obtain ⟨hf, hvotes⟩ := hcontrol
  have again : VoteFrame.Holds F s.books { f with tries := f.tries + 1 } :=
    ⟨closed.waiting f _ _ hf.1, hf.2⟩
  unfold awaitVotes
  split
  · rename_i missing
    split
    · rename_i msg inbox waiting
      rw [waiting] at hinbox
      have sent : (turn powGroup s).2 =
          (readVoteMessage powGroup { s with inbox } f below read msg).2 := by
        simp only [turn, hc, awaitVotes, missing, waiting, if_true]
      exact readVoteMessage_holds closed (fun m member => hinbox m (by simp [member]))
        (hinbox msg (by simp)) hf hvotes hcandidates (by rw [sent]; exact List.Subset.refl _)
    · simp only
      split
      · exact ⟨all_append hinbox hf.2, ⟨by simp, again, hvotes⟩, hcandidates,
          by simp [PeerState.goto, Control.voting]⟩
      · exact ⟨hinbox, ⟨again, hvotes⟩, hcandidates, by simp [PeerState.goto, Control.voting]⟩
  · rename_i left
    refine ⟨all_append hinbox hf.2, ⟨fun wins => ?_, hf, hvotes⟩, hcandidates,
      by simp [PeerState.goto, Control.voting]⟩
    exact closed.won f hf.1 (Or.inr ⟨left, of_decide_eq_true wins⟩)

theorem majority_holds (closed : Closed powGroup F s) (h : Holds F s) {f : VoteFrame}
    {below : List VoteFrame} {read : List Message} (hc : s.control = .majority f below read) :
    Holds F (majority s f below read).1 := by
  obtain ⟨hinbox, hcontrol, hcandidates, _⟩ := h
  rw [hc] at hcontrol
  obtain ⟨hf, hvotes⟩ := hcontrol
  have returned : ∀ result, (result = true → F.won s.books f) →
      Holds F ((s.placeBack f.readMessages).goto (.checked result f below read)) :=
    fun result wins => ⟨all_append hinbox hf.2, ⟨wins, hf, hvotes⟩, hcandidates,
      by simp [PeerState.goto, Control.voting]⟩
  unfold majority
  split
  · rename_i most
    exact returned true fun _ => closed.won f hf.1 (Or.inl most)
  · split
    · exact returned false (by simp)
    · split
      · exact returned false (by simp)
      · exact ⟨hinbox, ⟨hf, hvotes⟩, hcandidates, by simp [PeerState.goto, Control.voting]⟩

theorem checked_holds (closed : Closed powGroup F s) (h : Holds F s) {result : Bool}
    {f : VoteFrame} {below : List VoteFrame} {read : List Message}
    (hc : s.control = .checked result f below read) :
    Holds F (checked s result f below read).1 := by
  obtain ⟨hinbox, hcontrol, hcandidates, _⟩ := h
  rw [hc] at hcontrol
  obtain ⟨hwon, hf, hvotes⟩ := hcontrol
  have added : ∀ own, f.origin.own = own →
      ∀ c ∈ (if result then [Candidate.mk f.reqBlock own] else []), F.candidate s.books c := by
    rintro own rfl
    cases result with
    | false => simp
    | true => simpa using closed.accepted f below read hc hf.1 (hwon rfl)
  unfold checked
  split
  · rename_i index pow origin
    exact ⟨hinbox, by simp [Control.Holds],
      all_append hcandidates (added true (by rw [origin]; rfl)), by simp [Control.voting]⟩
  · rename_i agree origin
    exact ⟨hinbox, hvotes, all_append hcandidates (added false (by rw [origin]; rfl)),
      by simp [Control.voting]⟩

theorem handled_holds (h : Holds F s) {agree : Bool} {below : List VoteFrame}
    {read : List Message} (hc : s.control = .handled agree below read) :
    Holds F (handled s agree below read) := by
  obtain ⟨hinbox, hcontrol, hcandidates, _⟩ := h
  rw [hc] at hcontrol
  obtain ⟨hbelow, hread⟩ := hcontrol
  cases below with
  | nil => exact ⟨hinbox, hread, hcandidates, by simp [handled, PeerState.goto, Control.voting]⟩
  | cons f below =>
    have hf := hbelow f (by simp)
    have hrest : VotesHold F s.books below read := ⟨fun g hg => hbelow g (by simp [hg]), hread⟩
    cases agree with
    | true => exact ⟨hinbox, ⟨by simp, hf, hrest⟩, hcandidates,
        by simp [handled, PeerState.goto, Control.voting]⟩
    | false => exact ⟨hinbox, ⟨hf, hrest⟩, hcandidates,
        by simp [handled, PeerState.goto, Control.voting]⟩

theorem commit_holds (h : Holds F s) {read : List Message} (hread : ∀ m ∈ read, F.message m) :
    Holds F (commit s read) := by
  unfold commit
  simp only
  split
  · exact ⟨all_append h.inbox hread, trivial, by simp, fun _ => rfl⟩
  · exact ⟨all_append h.inbox hread, trivial, by simp, fun _ => rfl⟩

theorem handleAll_holds (closed : Closed powGroup F s) (h : Holds F s) {read : List Message}
    (hc : s.control = .handleAll read) :
    Holds F (handleAllBlockAdditionRequests powGroup s read).1 := by
  have hread : ∀ m ∈ read, F.message m := by
    have hcontrol := h.control
    rw [hc] at hcontrol
    exact hcontrol
  unfold handleAllBlockAdditionRequests
  split
  · exact commit_holds h hread
  · rename_i msg inbox waiting
    obtain ⟨hinbox, _, hcandidates, _⟩ := h
    rw [waiting] at hinbox
    have hm := hinbox msg (by simp)
    have hrest : ∀ m ∈ inbox, F.message m := fun m member => hinbox m (by simp [member])
    have deferred : Holds F ({ s with inbox }.goto (.handleAll (read ++ [msg]))) :=
      ⟨hrest, all_snoc hread hm, hcandidates, by simp [PeerState.goto, Control.voting]⟩
    simp only
    split
    · rename_i pow b body
      split
      · rename_i current
        have sent : (turn powGroup s).2 = (handleBlockAdditionRequest powGroup { s with inbox }
            ⟨msg.peerAddress, msg.index, pow, b⟩ true [] read).2 := by
          simp only [turn, hc, handleAllBlockAdditionRequests, waiting, body, current, if_true]
        refine request_holds closed hrest ?_ ⟨by simp, hread⟩ hcandidates true
          (by rw [sent]; exact List.Subset.refl _)
        simp only [AdditionRequest.toMessage, ← body]
        exact hm
      · exact deferred
    · exact deferred

theorem runLoop_holds (closed : Closed powGroup F s) (h : Holds F s) (hc : s.control = .run) :
    Holds F (runLoop s).1 := by
  obtain ⟨hinbox, hcontrol, hcandidates, hquiet⟩ := h
  have empty := hquiet (by rw [hc]; rfl)
  unfold runLoop
  split
  · split
    · exact ⟨hinbox, trivial, hcandidates, fun _ => empty⟩
    · split
      · rename_i msg inbox waiting
        rw [waiting] at hinbox
        have hm := hinbox msg (by simp)
        have hrest : ∀ m ∈ inbox, F.message m := fun m member => hinbox m (by simp [member])
        simp only
        split
        · exact ⟨hrest, hcontrol, hcandidates, fun _ => empty⟩
        · rename_i pow b body
          refine ⟨hrest, ?_, hcandidates, fun _ => empty⟩
          simp only [PeerState.goto, Control.Holds, Caller.Holds, AdditionRequest.toMessage, ← body]
          exact hm
        · exact ⟨hrest, hcontrol, hcandidates, fun _ => empty⟩
      · split
        · rename_i ts rest pending
          exact ⟨hinbox, closed.front ts rest pending, hcandidates, fun _ => empty⟩
        · exact ⟨hinbox, trivial, hcandidates, fun _ => empty⟩
  · exact ⟨hinbox, hcontrol, hcandidates, hquiet⟩

/-- The facts are kept by every turn, also by one that adds a block. -/
theorem turn_holds (closed : Closed powGroup F s) (h : Holds F s) :
    Holds F (turn powGroup s).1 := by
  unfold turn
  split
  · rename_i hc
    exact runLoop_holds closed h hc
  · rename_i caller hc
    obtain ⟨hinbox, hcontrol, hcandidates, hquiet⟩ := h
    rw [hc] at hcontrol hquiet
    have empty := hquiet rfl
    unfold requestBlockchainBlock
    simp only
    split
    · exact requestedBlock_holds closed hinbox hcontrol empty none
    · exact ⟨hinbox, ⟨by simp, by simp, hcontrol⟩, hcandidates, fun _ => empty⟩
  · rename_i f caller hc
    exact awaitBlock_holds closed h hc
  · rename_i r hc
    have hr := h.control
    rw [hc] at hr
    have sent : (turn powGroup s).2 =
        (handleBlockAdditionRequest powGroup s r true [] []).2 := by simp only [turn, hc]
    exact request_holds closed h.inbox hr ⟨by simp, by simp⟩ h.candidates true
      (by rw [sent]; exact List.Subset.refl _)
  · rename_i ts hc
    have hb := h.control
    rw [hc] at hb
    exact ⟨h.inbox, ⟨⟨closed.proposal ts hc hb, by simp [VoteFrame.start]⟩, by simp, by simp⟩,
      h.candidates, by simp [addBlockToBlockchain, PeerState.goto, Control.voting]⟩
  · rename_i f below read hc
    exact awaitVotes_holds closed h hc
  · rename_i f below read hc
    exact majority_holds closed h hc
  · rename_i result f below read hc
    exact checked_holds closed h hc
  · rename_i agree below read hc
    exact handled_holds h hc
  · rename_i read hc
    exact handleAll_holds closed h hc

/- The other threads only touch the inbox, the network information and the flags. -/

theorem deliver_holds (h : Holds F s) {msg : Message} (hm : F.message msg) :
    Holds F (deliver s msg) :=
  ⟨all_snoc h.inbox hm, h.control, h.candidates, h.quiet⟩

theorem netinfo_holds (h : Holds F s) (info : List PeerAddress) :
    Holds F (receiveNetinfo s info) := by
  unfold receiveNetinfo
  split <;> exact ⟨h.inbox, h.control, h.candidates, h.quiet⟩

theorem ready_holds (ownPa : PeerAddress) (networkInfo : List PeerAddress)
    (bc : Blockchain (sha256FromDataAndHash sha256)) (transactions : List Transactions) :
    Holds F (PeerState.ready ownPa networkInfo bc transactions) :=
  ⟨by simp [PeerState.ready], trivial, by simp [PeerState.ready], fun _ => rfl⟩

theorem application_holds (ownPa : PeerAddress) (transactions : List Transactions) (init : Bool) :
    Holds F (PeerState.application ownPa transactions init) := by
  cases init <;> exact ready_holds _ _ _ _

end Turn

theorem Holds.imp {F G : Facts sha256} {s : PeerState sha256} (h : Holds F s)
    (message : ∀ m, F.message m → G.message m)
    (batch : ∀ ts, F.batch s.books ts → G.batch s.books ts)
    (entry : ∀ b, F.entry s.books b → G.entry s.books b)
    (frame : ∀ f, F.frame s.books f → G.frame s.books f)
    (won : ∀ f, F.won s.books f → G.won s.books f)
    (candidate : ∀ c, F.candidate s.books c → G.candidate s.books c) : Holds G s where
  inbox m member := message m (h.inbox m member)
  candidates c member := candidate c (h.candidates c member)
  quiet := h.quiet
  control := by
    have frames : ∀ f : VoteFrame, f.Holds F s.books → f.Holds G s.books :=
      fun f hf => ⟨frame f hf.1, fun m member => message m (hf.2 m member)⟩
    have votes : ∀ below read, VotesHold F s.books below read → VotesHold G s.books below read :=
      fun below read hv => ⟨fun f member => frames f (hv.1 f member),
        fun m member => message m (hv.2 m member)⟩
    have callers : ∀ caller : Caller, caller.Holds F s.books → caller.Holds G s.books := by
      intro caller hcaller
      cases caller with
      | addRequest r => exact message _ hcaller
      | transactions ts => exact batch ts hcaller
      | refresh | noMessages => trivial
    have hcontrol := h.control
    generalize s.control = control at hcontrol ⊢
    cases control with
    | run => trivial
    | requestBlockchain caller => exact callers caller hcontrol
    | awaitBlock f caller => exact ⟨fun m member => message m (hcontrol.1 m member),
        fun e member => entry e.1 (hcontrol.2.1 e member), callers caller hcontrol.2.2⟩
    | handleRequest r => exact message _ hcontrol
    | addBlock ts => exact batch ts hcontrol
    | awaitVotes f below read => exact ⟨frames f hcontrol.1, votes below read hcontrol.2⟩
    | majority f below read => exact ⟨frames f hcontrol.1, votes below read hcontrol.2⟩
    | checked result f below read => exact ⟨fun wins => won f (hcontrol.1 wins),
        frames f hcontrol.2.1, votes below read hcontrol.2.2⟩
    | handled agree below read => exact votes below read hcontrol
    | handleAll read => exact fun m member => message m (hcontrol m member)

end DPS2.Application
