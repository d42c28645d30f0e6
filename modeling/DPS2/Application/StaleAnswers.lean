import DPS2.Application.Sync

/-! Whether answers to other requests influence a request. The index of a BLOCK or NOBLOCK is not
looked at: such an answer counts, and makes its sender count as heard. -/
namespace DPS2.Application

open P2P ProofOfWork

variable {sha256 : Bytes → Bytes}

/- What a call returns. -/

/-- The result of the call that was made with the chain bc: none while it runs, false as none, and
true with the block that is appended or with NULL. -/
def answered (bc : Blockchain (sha256FromDataAndHash sha256)) (t : PeerState sha256) :
    Option (Option (Option BType)) :=
  match t.control with
  | .awaitBlock _ _ => none
  | .requestBlockchain _ =>
      if t.bc.size = bc.size then some none else some (some t.bc.blocks.getLast?)
  | _ => some (some none)

/-- RequestBlockchainBlock, called in this state, returns this when nothing else arrives. -/
def PeerState.Answers (powGroup : IProofOfWork Bytes Bytes) (s : PeerState sha256)
    (result : Option (Option BType)) : Prop :=
  Lts.Ends (fun t => (turn powGroup t).1) (answered s.bc) (turn powGroup s).1 result

/-- BLOCK and NOBLOCK messages that do not answer the request for this index. -/
def isStale (index : Nat) (m : Message) : Bool :=
  match m.body with
  | .block _ => m.index != index
  | .noBlock => m.index != index
  | _ => false

/-- The sequences differ only in stale answers. -/
def SameButStale (index : Nat) (inbox inbox' : List Message) : Prop :=
  inbox.filter (fun m => !isStale index m) = inbox'.filter fun m => !isStale index m

instance decidableSameButStale (index : Nat) (inbox inbox' : List Message) :
    Decidable (SameButStale index inbox inbox') := inferInstanceAs (Decidable (_ = _))

/-- Messages by which an address counts as heard. -/
def isHeard (index : Nat) (m : Message) : Bool :=
  match m.body with
  | .block _ => true
  | .noBlock => true
  | .requestBlock => m.index == index
  | _ => false

/-- No stale answer is the first by which its address, not among these, is heard. -/
def Settled (index : Nat) (heard : List PeerAddress) : List Message → Prop
  | [] => True
  | m :: rest =>
      (isStale index m = true → m.peerAddress ∈ heard) ∧
        Settled index (if isHeard index m then m.peerAddress :: heard else heard) rest

instance decidableSettled (index : Nat) (heard : List PeerAddress) (inbox : List Message) :
    Decidable (Settled index heard inbox) :=
  match inbox with
  | [] => isTrue trivial
  | m :: rest =>
      have := decidableSettled index
        (if isHeard index m then m.peerAddress :: heard else heard) rest
      inferInstanceAs (Decidable ((isStale index m = true → m.peerAddress ∈ heard) ∧ _))

/-- The loop over an inbox to which nothing is added: none if it does not decide. -/
def readAnswers (s : PeerState sha256) (f : BlockFrame) : List Message → Option (Option BType)
  | [] => none
  | msg :: rest =>
      if f.clientsSeen.length < f.nPeers then
        let g := (readBlockMessage s f msg).1
        match checkMajority g.clientsSeen.length g.nPeers g.noBlock g.messages with
        | some largestBlock => some largestBlock
        | none => readAnswers s g rest
      else none

section Fold

variable {powGroup : IProofOfWork Bytes Bytes} {s t : PeerState sha256} {f : BlockFrame}
  {caller : Caller} {msg : Message}

theorem readBlockMessage_chain (same : s.bc = t.bc) :
    (readBlockMessage s f msg).1 = (readBlockMessage t f msg).1 := by
  unfold readBlockMessage
  cases msg.body with
  | block b =>
    dsimp only
    rw [same]
  | requestBlock =>
    dsimp only
    split
    · rfl
    · split <;> rfl
  | noBlock | vote | addRequest | unrecognized => rfl

theorem readAnswers_chain (same : s.bc = t.bc) (inbox : List Message) (f : BlockFrame) :
    readAnswers s f inbox = readAnswers t f inbox := by
  induction inbox generalizing f with
  | nil => rfl
  | cons msg rest ih =>
    simp only [readAnswers, readBlockMessage_chain same, ih]

theorem readAnswers_heard (heard : ¬ f.clientsSeen.length < f.nPeers) (inbox : List Message) :
    readAnswers s f inbox = none := by
  cases inbox with
  | nil => rfl
  | cons msg rest => simp [readAnswers, heard]

theorem answered_failed {bc : Blockchain (sha256FromDataAndHash sha256)} (chain : t.bc = bc)
    (hc : t.control = .requestBlockchain caller) : answered bc t = some none := by
  simp [answered, hc, chain]

theorem ends_next {bc : Blockchain (sha256FromDataAndHash sha256)}
    {result : Option (Option BType)} (hc : s.control = .awaitBlock f caller)
    (next : (turn powGroup s).1 = t)
    (ends : Lts.Ends (fun t => (turn powGroup t).1) (answered bc) t result) :
    Lts.Ends (fun t => (turn powGroup t).1) (answered bc) s result := by
  subst next
  exact .later (by simp [answered, hc]) ends

/-- Without messages the call runs out of tries. -/
theorem ends_tries (left : Nat) (hc : s.control = .awaitBlock f caller)
    (asking : f.clientsSeen.length < f.nPeers) (empty : s.inbox = [])
    (tries : nTries ≤ f.tries + 1 + left) :
    Lts.Ends (fun t => (turn powGroup t).1) (answered s.bc) s none := by
  induction left generalizing s f with
  | zero =>
    have next : (turn powGroup s).1 =
        (s.placeBack f.readMessages).goto (.requestBlockchain caller) := by
      simp [turn, hc, awaitBlock, asking, empty, tries]
    exact ends_next hc next (.now (answered_failed rfl rfl))
  | succ left ih =>
    by_cases late : nTries ≤ f.tries + 1
    · have next : (turn powGroup s).1 =
          (s.placeBack f.readMessages).goto (.requestBlockchain caller) := by
        simp [turn, hc, awaitBlock, asking, empty, late]
      exact ends_next hc next (.now (answered_failed rfl rfl))
    · have next : (turn powGroup s).1 =
          s.goto (.awaitBlock { f with tries := f.tries + 1 } caller) := by
        simp [turn, hc, awaitBlock, asking, empty, late]
      have ends := @ih (s.goto (.awaitBlock { f with tries := f.tries + 1 } caller))
        { f with tries := f.tries + 1 } rfl asking empty (by dsimp only; omega)
      exact ends_next hc next ends

theorem ends_heard (hc : s.control = .awaitBlock f caller)
    (heard : ¬ f.clientsSeen.length < f.nPeers) :
    Lts.Ends (fun t => (turn powGroup t).1) (answered s.bc) s none := by
  have next : (turn powGroup s).1 =
      (s.placeBack f.readMessages).goto (.requestBlockchain caller) := by
    simp [turn, hc, awaitBlock, heard]
  exact ends_next hc next (.now (answered_failed rfl rfl))

/-- The call returns what the loop over the inbox finds. -/
theorem ends_readAnswers (hc : s.control = .awaitBlock f caller) (untried : f.tries = 0) :
    Lts.Ends (fun t => (turn powGroup t).1) (answered s.bc) s
      ((readAnswers s f s.inbox).map fun largestBlock =>
        largestBlock.map fun b => s.bc.sneakPeekBlock b.data) := by
  generalize waiting : s.inbox = inbox
  induction inbox generalizing s f with
  | nil =>
    by_cases asking : f.clientsSeen.length < f.nPeers
    · exact ends_tries nTries hc asking waiting (by omega)
    · exact ends_heard hc asking
  | cons msg rest ih =>
    unfold readAnswers
    by_cases asking : f.clientsSeen.length < f.nPeers
    · rw [if_pos asking]
      dsimp only
      have tries := (hears_tries (@readBlockMessage_hears _ s f msg)).1.trans untried
      cases decision : checkMajority (readBlockMessage s f msg).1.clientsSeen.length
          (readBlockMessage s f msg).1.nPeers (readBlockMessage s f msg).1.noBlock
          (readBlockMessage s f msg).1.messages with
      | none =>
        obtain ⟨control, chain, inbox⟩ :
            (turn powGroup s).1.control = .awaitBlock (readBlockMessage s f msg).1 caller ∧
              (turn powGroup s).1.bc = s.bc ∧ (turn powGroup s).1.inbox = rest := by
          simp [turn, hc, awaitBlock, asking, waiting, decision, tries, nTries, PeerState.goto]
        have ends := ih control tries inbox
        rw [chain, readAnswers_chain chain] at ends
        exact ends_next hc rfl ends
      | some largestBlock =>
        have next : (turn powGroup s).1 = requestedBlock
            (PeerState.placeBack { s with inbox := rest } (readBlockMessage s f msg).1.readMessages)
              caller largestBlock := by
          simp [turn, hc, awaitBlock, asking, waiting, decision]
        refine ends_next hc next (.now ?_)
        cases largestBlock with
        | none => cases caller <;> rfl
        | some b =>
          simp [requestedBlock, answered, PeerState.placeBack, Blockchain.addBlock_blocks]
    · rw [if_neg asking]
      exact ends_heard hc asking

def PeerState.requestFrame (s : PeerState sha256) : BlockFrame :=
  ⟨s.bc.size, s.addressees.length, [], [], 0, 0, []⟩

theorem answers_nobody (calling : s.control = .requestBlockchain caller)
    (nobody : s.addressees = []) : s.Answers powGroup (some none) := by
  apply Lts.Ends.now
  have next : (turn powGroup s).1 = s.goto caller.resume := by
    simp [turn, calling, requestBlockchainBlock, nobody, requestedBlock]
  rw [next]
  cases caller <;> rfl

theorem answers_others (calling : s.control = .requestBlockchain caller)
    (others : s.addressees ≠ []) :
    s.Answers powGroup ((readAnswers s s.requestFrame s.inbox).map fun largestBlock =>
      largestBlock.map fun b => s.bc.sneakPeekBlock b.data) := by
  obtain ⟨control, chain, inbox⟩ :
      (turn powGroup s).1.control = .awaitBlock s.requestFrame caller ∧
        (turn powGroup s).1.bc = s.bc ∧ (turn powGroup s).1.inbox = s.inbox := by
    simp [turn, calling, requestBlockchainBlock, others, PeerState.requestFrame, PeerState.goto]
  have ends := @ends_readAnswers _ powGroup _ _ _ control rfl
  rw [readAnswers_chain chain, chain, inbox] at ends
  exact ends

end Fold

/- Inboxes in which no stale answer counts. -/

section Settled

variable {s : PeerState sha256} {f : BlockFrame} {index : Nat} {heard : List PeerAddress}
  {msg : Message}

theorem stale_heard (stale : isStale index msg = true) : isHeard index msg = true := by
  cases body : msg.body <;> simp_all [isStale, isHeard]

/-- A message by which an address is heard leaves this address among those seen. -/
theorem heard_seen (heard : isHeard f.index msg = true) :
    msg.peerAddress ∈ (readBlockMessage s f msg).1.clientsSeen := by
  have found : clientFound msg.peerAddress f.clientsSeen = true → msg.peerAddress ∈ f.clientsSeen :=
    clientFound_iff.mp
  unfold readBlockMessage
  cases body : msg.body with
  | noBlock =>
    dsimp only
    split
    · exact found ‹_›
    · simp
  | block b =>
    dsimp only
    split
    · exact found ‹_›
    · split <;> simp
  | requestBlock =>
    have same : msg.index = f.index := by simpa [isHeard, body] using heard
    dsimp only
    rw [if_pos same]
    split
    · exact found ‹_›
    · simp
  | vote | addRequest | unrecognized => simp [isHeard, body] at heard

theorem seen_grows : f.clientsSeen ⊆ (readBlockMessage s f msg).1.clientsSeen := by
  have hears := @readBlockMessage_hears _ s f msg
  generalize (readBlockMessage s f msg).1 = g at hears
  cases hears <;> simp

/-- A message from an address that is already seen changes nothing. -/
theorem stale_again (stale : isStale index msg = true) (seen : msg.peerAddress ∈ f.clientsSeen) :
    (readBlockMessage s f msg).1 = f := by
  apply answer_again _ (clientFound_iff.mpr seen)
  unfold isStale at stale
  split at stale
  · rename_i b body
    exact Or.inr ⟨b, body⟩
  · rename_i body
    exact Or.inl body
  · contradiction

theorem readAnswers_settled {inbox : List Message} (settled : Settled f.index heard inbox)
    (known : heard ⊆ f.clientsSeen)
    (undecided : f.clientsSeen ≠ [] →
      checkMajority f.clientsSeen.length f.nPeers f.noBlock f.messages = none) :
    readAnswers s f inbox = readAnswers s f (inbox.filter fun m => !isStale f.index m) := by
  induction inbox generalizing f heard with
  | nil => rfl
  | cons msg rest ih =>
    obtain ⟨first, later⟩ := settled
    cases stale : isStale f.index msg with
    | true =>
      have seen := known (first stale)
      rw [if_pos (stale_heard stale)] at later
      have rest_ := ih later (List.cons_subset.mpr ⟨seen, known⟩) undecided
      have none_ := undecided (List.ne_nil_of_mem seen)
      have same : readAnswers s f (msg :: rest) = readAnswers s f rest := by
        by_cases asking : f.clientsSeen.length < f.nPeers
        · simp [readAnswers, asking, stale_again stale seen, none_]
        · rw [readAnswers_heard asking, readAnswers_heard asking]
      rw [same, rest_, List.filter_cons_of_neg (by simp [stale])]
    | false =>
      rw [List.filter_cons_of_pos (by simp [stale])]
      unfold readAnswers
      dsimp only
      have index := (hears_tries (@readBlockMessage_hears _ s f msg)).2.1
      generalize next : (readBlockMessage s f msg).1 = g at index
      have grown : f.clientsSeen ⊆ g.clientsSeen := next ▸ seen_grows
      have own : isHeard f.index msg = true → msg.peerAddress ∈ g.clientsSeen :=
        fun heard => next ▸ heard_seen heard
      cases decision : checkMajority g.clientsSeen.length g.nPeers g.noBlock g.messages with
      | some largestBlock => rfl
      | none =>
        rw [← index] at later ⊢
        rw [ih later ?_ fun _ => decision]
        split
        · rename_i speaks
          rw [index] at speaks
          exact List.cons_subset.mpr ⟨own speaks, List.Subset.trans known grown⟩
        · exact List.Subset.trans known grown

end Settled

/- Stale answers that decide a request. -/

/-- Different numbers of 64 bits are different addresses. -/
def address (k : Nat) : PeerAddress :=
  ⟨BitVec.ofNat 16 k, BitVec.ofNat 16 (k / 2 ^ 16), BitVec.ofNat 32 (k / 2 ^ 32)⟩

theorem address_inj {j k : Nat} (hj : j < 2 ^ 64) (hk : k < 2 ^ 64) (same : address j = address k) :
    j = k := by
  simp only [address, PeerAddress.mk.injEq] at same
  obtain ⟨family, port, addr⟩ := same
  have low := congrArg BitVec.toNat family
  have middle := congrArg BitVec.toNat port
  have high := congrArg BitVec.toNat addr
  simp only [BitVec.toNat_ofNat] at low middle high
  omega

/-- The same answer from so many addresses, from the k-th on. -/
def flood (index : Nat) (body : Body) (k : Nat) : Nat → List Message
  | 0 => []
  | left + 1 => ⟨address k, index, body⟩ :: flood index body (k + 1) left

/-- The first k addresses have been heard, of k + left. -/
structure Flooded (k left : Nat) (f : BlockFrame) : Prop where
  count : f.clientsSeen.length = k
  nPeers : f.nPeers = k + left
  sized : f.nPeers < 2 ^ 64
  seen : ∀ pa ∈ f.clientsSeen, ∃ j < k, pa = address j

section Flood

variable {s : PeerState sha256} {f : BlockFrame} {index k left : Nat} {b : BType}

theorem flood_stale {i : Nat} {body : Body} (stale : ∀ pa, isStale index ⟨pa, i, body⟩ = true) :
    (flood i body k left).filter (fun m => !isStale index m) = [] := by
  induction left generalizing k with
  | zero => rfl
  | succ left ih => simp [flood, stale, ih]

theorem Flooded.next (h : Flooded k (left + 1) f) :
    clientFound (address k) f.clientsSeen = false ∧
      (∀ g : BlockFrame, g.clientsSeen = f.clientsSeen ++ [address k] → g.nPeers = f.nPeers →
        Flooded (k + 1) left g) := by
  obtain ⟨count, peers, sized, seen⟩ := h
  constructor
  · rw [Bool.eq_false_iff]
    intro found
    obtain ⟨j, below, same⟩ := seen _ (clientFound_iff.mp found)
    have equal := address_inj (by omega) (by omega) same
    omega
  · intro g grown same
    refine ⟨by simp [grown, count], by omega, same ▸ sized, fun pa inside => ?_⟩
    rw [grown, List.mem_append, List.mem_singleton] at inside
    rcases inside with old | rfl
    · obtain ⟨j, below, same⟩ := seen pa old
      exact ⟨j, by omega, same⟩
    · exact ⟨k, Nat.lt_succ_self k, rfl⟩

theorem readAnswers_noBlocks (h : Flooded k (left + 1) f) (empty : f.messages = [])
    (rest : List Message) :
    readAnswers s f (flood index .noBlock k (left + 1) ++ rest) = some none := by
  induction left generalizing k f with
  | zero =>
    obtain ⟨unseen, next⟩ := h.next
    have all := h.count
    have peers := h.nPeers
    have half : f.nPeers / 2 ≤ f.clientsSeen.length + 1 := by omega
    simp [flood, readAnswers, readBlockMessage, unseen, empty, checkMajority, half]
    omega
  | succ left ih =>
    obtain ⟨unseen, next⟩ := h.next
    have asking : f.clientsSeen.length < f.nPeers := by
      have all := h.count
      have peers := h.nPeers
      omega
    have later := ih (next { f with
      noBlock := f.noBlock + 1, clientsSeen := f.clientsSeen ++ [address k] } rfl rfl) empty
    rw [flood, List.cons_append, readAnswers, if_pos asking]
    simp only [readBlockMessage, unseen, Bool.false_eq_true, if_false, empty, checkMajority_empty]
    split
    · rename_i decided
      split at decided
      · exact decided.symm
      · contradiction
    · rw [empty] at later
      exact later

theorem checkMajority_all (count n : Nat) (some_ : 0 < n) (all : count + 1 = n) :
    checkMajority n n 0 [(b, count + 1)] = some (some b) := by
  subst all
  have half : (count + 1) / 2 ≤ count + 1 := Nat.div_le_self _ _
  simp [checkMajority, mostVotes, half]

/-- One block from all addresses so far, and the next address with the same block. -/
theorem readAnswers_block (valid : Extends s.bc b) (h : Flooded k (left + 1) f)
    (noBlock : f.noBlock = 0) (messages : countBlock b f.messages = [(b, k + 1)])
    (rest : List Message) :
    readAnswers s f (⟨address k, index, .block b⟩ :: rest) = some (some b) ∨
      checkMajority (k + 1) f.nPeers 0 [(b, k + 1)] = none ∧
        readAnswers s f (⟨address k, index, .block b⟩ :: rest) = readAnswers s { f with
          clientsSeen := f.clientsSeen ++ [address k], messages := [(b, k + 1)] } rest := by
  obtain ⟨unseen, _⟩ := h.next
  have asking : f.clientsSeen.length < f.nPeers := by
    have all := h.count
    have peers := h.nPeers
    omega
  have length : (f.clientsSeen ++ [address k]).length = k + 1 := by simp [h.count]
  have read : (readBlockMessage s f ⟨address k, index, .block b⟩).1 =
      { f with clientsSeen := f.clientsSeen ++ [address k], messages := [(b, k + 1)] } := by
    have right : sha256FromDataAndHash sha256 b.data b.prevHash = b.hash ∧
        b.prevHash = s.bc.getTopHash := ⟨valid.2.symm, valid.1⟩
    simp only [readBlockMessage, unseen, Bool.false_eq_true, if_false, if_pos right, messages]
  rw [readAnswers, if_pos asking, read]
  dsimp only
  rw [length, noBlock]
  rcases checkMajority_one (k + 1) f.nPeers k b with decided | undecided
  · rw [decided]
    exact Or.inl rfl
  · rw [undecided]
    exact Or.inr ⟨rfl, rfl⟩

theorem readAnswers_blocks (valid : Extends s.bc b) (h : Flooded k (left + 1) f)
    (noBlock : f.noBlock = 0) (messages : countBlock b f.messages = [(b, k + 1)])
    (rest : List Message) :
    readAnswers s f (flood index (.block b) k (left + 1) ++ rest) = some (some b) := by
  induction left generalizing k f with
  | zero =>
    have peers := h.nPeers
    rcases readAnswers_block valid h noBlock messages rest with decided | ⟨undecided, _⟩
    · exact decided
    · rw [peers, checkMajority_all k (k + 1) (Nat.succ_pos k) rfl] at undecided
      contradiction
  | succ left ih =>
    rw [flood, List.cons_append]
    rcases readAnswers_block valid h noBlock messages
      (flood index (.block b) (k + 1) (left + 1) ++ rest) with decided | ⟨_, next⟩
    · exact decided
    · rw [next]
      exact ih (h.next.2 _ rfl rfl) noBlock (by simp [countBlock, compareStrings_self])

end Flood

/-- With the inbox replaced by this one, the call returns the same. -/
def SameAnswer (powGroup : IProofOfWork Bytes Bytes) (s : PeerState sha256)
    (inbox : List Message) : Prop :=
  ∃ result, s.Answers powGroup result ∧ PeerState.Answers powGroup { s with inbox } result

section Influence

variable {powGroup : IProofOfWork Bytes Bytes} {s : PeerState sha256} {caller : Caller}

theorem answers_with (calling : s.control = .requestBlockchain caller) (others : s.addressees ≠ [])
    (inbox : List Message) : PeerState.Answers powGroup { s with inbox }
      ((readAnswers s s.requestFrame inbox).map fun largestBlock =>
        largestBlock.map fun b => s.bc.sneakPeekBlock b.data) := by
  have same : readAnswers { s with inbox } s.requestFrame inbox =
      readAnswers s s.requestFrame inbox :=
    @readAnswers_chain _ { s with inbox } s rfl inbox s.requestFrame
  rw [← same]
  exact @answers_others _ powGroup { s with inbox } caller calling others

theorem requestFrame_flooded (others : s.addressees ≠ []) (sized : s.networkInfo.length < 2 ^ 64) :
    ∃ left, Flooded 0 (left + 1) s.requestFrame := by
  have some_ := List.length_pos_iff.mpr others
  have fewer : s.addressees.length ≤ s.networkInfo.length := List.length_filter_le _ _
  refine ⟨s.addressees.length - 1, rfl, ?_, Nat.lt_of_le_of_lt fewer sized,
    by simp [PeerState.requestFrame]⟩
  simp only [PeerState.requestFrame]
  omega

/-- With stale answers in front of the inbox the call can be made to return NULL, and to return
a block. -/
theorem stale_answers_decide (calling : s.control = .requestBlockchain caller)
    (others : s.addressees ≠ []) (sized : s.networkInfo.length < 2 ^ 64) :
    ∃ noBlocks blocks b, SameButStale s.bc.size s.inbox noBlocks ∧
      SameButStale s.bc.size s.inbox blocks ∧
      PeerState.Answers powGroup { s with inbox := noBlocks } (some none) ∧
      PeerState.Answers powGroup { s with inbox := blocks } (some (some b)) := by
  obtain ⟨left, flooded⟩ := requestFrame_flooded others sized
  have valid := sneakPeekBlock_extends s.bc default
  generalize s.bc.sneakPeekBlock default = b at valid
  have same : ∀ body, (∀ pa, isStale s.bc.size ⟨pa, s.bc.size + 1, body⟩ = true) →
      SameButStale s.bc.size s.inbox (flood (s.bc.size + 1) body 0 (left + 1) ++ s.inbox) := by
    intro body stale
    rw [SameButStale, List.filter_append, flood_stale stale, List.nil_append]
  refine ⟨_, _, s.bc.sneakPeekBlock b.data, same .noBlock fun pa => by simp [isStale],
    same (.block b) fun pa => by simp [isStale], ?_, ?_⟩
  · have result := @answers_with _ powGroup s caller calling others
      (flood (s.bc.size + 1) .noBlock 0 (left + 1) ++ s.inbox)
    rw [readAnswers_noBlocks flooded rfl] at result
    exact result
  · have result := @answers_with _ powGroup s caller calling others
      (flood (s.bc.size + 1) (.block b) 0 (left + 1) ++ s.inbox)
    rw [readAnswers_blocks valid flooded rfl rfl] at result
    exact result

theorem settled_same (calling : s.control = .requestBlockchain caller) {inbox : List Message}
    (same : SameButStale s.bc.size s.inbox inbox) (settled : Settled s.bc.size [] s.inbox)
    (settled' : Settled s.bc.size [] inbox) : SameAnswer powGroup s inbox := by
  by_cases nobody : s.addressees = []
  · exact ⟨some none, answers_nobody calling nobody,
      @answers_nobody _ powGroup { s with inbox } caller calling nobody⟩
  · refine ⟨_, answers_others calling nobody, ?_⟩
    have cleaned : ∀ inbox, Settled s.bc.size [] inbox → readAnswers s s.requestFrame inbox =
        readAnswers s s.requestFrame (inbox.filter fun m => !isStale s.bc.size m) :=
      fun inbox settled =>
        readAnswers_settled settled (List.nil_subset _) fun seen => absurd rfl seen
    rw [cleaned _ settled, same, ← cleaned _ settled']
    exact answers_with calling nobody inbox

end Influence

/-- Stale answers in the inbox never change what the call returns exactly if there are no other
peers. Between two inboxes in which no stale answer is the first by which its sender is heard,
there is no difference. -/
theorem stale_answers_ignored_iff {powGroup : IProofOfWork Bytes Bytes} {s : PeerState sha256}
    {caller : Caller} (calling : s.control = .requestBlockchain caller)
    (sized : s.networkInfo.length < 2 ^ 64) :
    ((∀ inbox, SameButStale s.bc.size s.inbox inbox → SameAnswer powGroup s inbox) ↔
      s.addressees = []) ∧
    ∀ inbox, SameButStale s.bc.size s.inbox inbox → Settled s.bc.size [] s.inbox →
      Settled s.bc.size [] inbox → SameAnswer powGroup s inbox := by
  refine ⟨⟨fun ignored => ?_, fun nobody inbox _ => ?_⟩, fun inbox => settled_same calling⟩
  · by_contra others
    obtain ⟨noBlocks, blocks, b, same, same', null, block⟩ :=
      @stale_answers_decide _ powGroup s caller calling others sized
    obtain ⟨r, first, second⟩ := ignored noBlocks same
    obtain ⟨r', first', third⟩ := ignored blocks same'
    have equal : some none = some (some b) :=
      calc some none = r := null.unique second
        _ = r' := first.unique first'
        _ = some (some b) := third.unique block
    cases equal
  · exact ⟨some none, answers_nobody calling nobody,
      @answers_nobody _ powGroup { s with inbox } caller calling nobody⟩

/-- A requester with one other peer; the inbox is empty. -/
def loneRequester : PeerState HashCash.echo :=
  { PeerState.ready ⟨2, 80, 0⟩ [⟨2, 80, 1⟩] Blockchain.new [] with
    control := .requestBlockchain .refresh }

/-- A NOBLOCK that answers a request for block 0 ends the request for block 1 with success. -/
theorem late_noBlock_decides :
    ¬ ∀ (s : PeerState HashCash.echo) (caller : Caller) (inbox : List Message),
      s.control = .requestBlockchain caller → SameButStale s.bc.size s.inbox inbox →
      SameAnswer (hashCash HashCash.echo 24) s inbox := by
  intro ignored
  have late : SameButStale loneRequester.bc.size [] [⟨⟨2, 80, 1⟩, 0, .noBlock⟩] := by decide
  obtain ⟨r, first, second⟩ := ignored loneRequester .refresh _ rfl late
  have others : loneRequester.addressees ≠ [] := by decide
  have tried := @answers_others _ (hashCash HashCash.echo 24) loneRequester .refresh rfl others
  have decided := @answers_others _ (hashCash HashCash.echo 24)
    { loneRequester with inbox := [⟨⟨2, 80, 1⟩, 0, .noBlock⟩] } .refresh rfl others
  have equal := (tried.unique first).trans (second.unique decided)
  revert equal
  decide

/-- A requester with five other peers, two of which it is about to hear. -/
def busyRequester : PeerState HashCash.echo :=
  { loneRequester with
    networkInfo := [⟨2, 80, 1⟩, ⟨2, 80, 2⟩, ⟨2, 80, 3⟩, ⟨2, 80, 4⟩, ⟨2, 80, 5⟩]
    inbox := [⟨⟨2, 80, 1⟩, 1, .requestBlock⟩, ⟨⟨2, 80, 2⟩, 1, .noBlock⟩] }

theorem settled_answers_ignored :
    SameAnswer (hashCash HashCash.echo 24) { loneRequester with networkInfo := [] }
      [⟨⟨2, 80, 1⟩, 0, .noBlock⟩] ∧
    SameAnswer (hashCash HashCash.echo 24) busyRequester
      [⟨⟨2, 80, 1⟩, 1, .requestBlock⟩, ⟨⟨2, 80, 1⟩, 0, .noBlock⟩, ⟨⟨2, 80, 2⟩, 1, .noBlock⟩] :=
  ⟨(@stale_answers_ignored_iff _ (hashCash HashCash.echo 24)
      { loneRequester with networkInfo := [] } .refresh rfl (by decide)).1.mpr rfl _ (by decide),
    (@stale_answers_ignored_iff _ (hashCash HashCash.echo 24) busyRequester .refresh rfl
      (by decide)).2 _ (by decide) (by decide) (by decide)⟩

end DPS2.Application
