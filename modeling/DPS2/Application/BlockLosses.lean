import DPS2.Application.BlockCall

/-! Which messages a call of RequestBlockchainBlock leaves in the inbox. It postpones requests for
later blocks, but frees every vote and every addition request that it reads. -/
namespace DPS2.Application

open P2P ProofOfWork

variable {sha256 : Bytes → Bytes}

/-- Messages that are no business of the call: all but NOBLOCK, BLOCK, and REQUESTBLOCK for an
index that is not above the size of the chain. -/
def isForLater (size : Nat) (m : Message) : Bool :=
  match m.body with
  | .noBlock => false
  | .block _ => false
  | .requestBlock => decide (size < m.index)
  | _ => true

/-- Messages that are freed although they are no business of the call. -/
def isFreed (m : Message) : Bool :=
  match m.body with
  | .vote _ _ => true
  | .addRequest _ _ => true
  | .unrecognized => true
  | _ => false

/-- The step is no turn that reads a VOTE, an ADDREQUEST or a message of another type. -/
def Spares (c : BlockCall sha256) (e : PeerEvent) : Prop :=
  match e with
  | .turn => ∀ m ∈ c.peer.takes, isFreed m = false
  | _ => True

instance decidableSpares (c : BlockCall sha256) (e : PeerEvent) : Decidable (Spares c e) :=
  match e with
  | .turn => inferInstanceAs (Decidable (∀ m ∈ c.peer.takes, isFreed m = false))
  | .deliver _ | .netinfo _ => isTrue trivial

section Losses

variable {powGroup : IProofOfWork Bytes Bytes} {size : Nat} {m : Message}

theorem isForLater_cases (later : isForLater size m = true) :
    isPostponed size m = true ∨ isFreed m = true ∧ isPostponed size m = false := by
  cases body : m.body <;> simp_all [isForLater, isPostponed, isFreed]

theorem isFreed_later (size : Nat) (freed : isFreed m = true) :
    isForLater size m = true ∧ isPostponed size m = false := by
  cases body : m.body <;> simp_all [isForLater, isPostponed, isFreed]

/-- The messages for later that were taken are all placed back exactly when none was freed. -/
theorem placed_iff (taken : List Message) :
    (∀ m, isForLater size m = true → (taken.filter (isPostponed size)).count m = taken.count m) ↔
      ∀ m ∈ taken, isFreed m = false := by
  constructor
  · intro kept m inside
    by_contra freed
    rw [Bool.not_eq_false] at freed
    obtain ⟨later, dropped⟩ := isFreed_later size freed
    have same := kept m later
    have none_ : (taken.filter (isPostponed size)).count m = 0 := by
      refine List.count_eq_zero.mpr fun placed => ?_
      simp [dropped] at placed
    have some_ := List.count_pos_iff.mpr inside
    omega
  · intro spared m later
    rcases isForLater_cases later with postponed | ⟨freed, dropped⟩
    · exact List.count_filter postponed
    · have absent : m ∉ taken := fun inside => by
        rw [spared m inside] at freed
        contradiction
      rw [List.count_eq_zero.mpr absent]
      exact List.count_eq_zero.mpr fun placed => absent (List.mem_filter.mp placed).1

theorem spared_step (c : BlockCall sha256) (e : PeerEvent) :
    (∀ m ∈ (c.step powGroup e).taken, isFreed m = false) ↔
      (∀ m ∈ c.taken, isFreed m = false) ∧ Spares c e := by
  cases e with
  | turn => simp only [BlockCall.step, Spares, List.forall_mem_append]
  | deliver | netinfo => simp [BlockCall.step, Spares]

end Losses

/-- When the call has returned, every message for later that was in the inbox or has arrived is in
the inbox, each as often as before, exactly if the call has never read one that it frees. -/
theorem messages_for_later_kept_iff {powGroup : IProofOfWork Bytes Bytes} {s : PeerState sha256}
    {caller : Caller} (calling : s.control = .requestBlockchain caller) {es : List PeerEvent}
    (requests : s.Requests powGroup es)
    (returned : (s.request powGroup es).peer.control.awaiting = false) :
    (∀ m, isForLater s.bc.size m = true →
      (s.request powGroup es).peer.inbox.count m = (s.inbox ++ delivered es).count m) ↔
      Lts.Throughout (BlockCall.step powGroup) Spares (BlockCall.start powGroup s) es := by
  have all := @arrived_request _ powGroup s es
  cases stage_request calling requests with
  | waiting f caller at_ =>
    rw [at_] at returned
    cases returned
  | returned rest left order placed outcome =>
    have balance : ∀ m, (s.request powGroup es).peer.inbox.count m =
        (s.inbox ++ delivered es).count m ↔
        ((s.request powGroup es).taken.filter (isPostponed s.bc.size)).count m =
          (s.request powGroup es).taken.count m := by
      intro m
      rw [placed, ← all, ← order, List.count_append, List.count_append]
      omega
    have clean : (∀ m ∈ (s.request powGroup es).taken, isFreed m = false) ↔
        (∀ m ∈ (BlockCall.start powGroup s).taken, isFreed m = false) ∧
          Lts.Throughout (BlockCall.step powGroup) Spares (BlockCall.start powGroup s) es :=
      @Lts.clean_iff _ _ _ _ _ (fun c => ∀ m ∈ c.taken, isFreed m = false)
        (fun c e _ => spared_step c e) _ _ requests
    simp only [balance, placed_iff, clean]
    exact and_iff_right (List.forall_mem_nil _)

/-- A vote of the peer whose answer is behind it in the inbox. -/
def voteRequester : PeerState HashCash.echo :=
  { PeerState.ready ⟨2, 80, 0⟩ [⟨2, 80, 1⟩, ⟨2, 80, 2⟩] Blockchain.new [] with
    inbox := [⟨⟨2, 80, 1⟩, 1, .vote true [7]⟩, ⟨⟨2, 80, 1⟩, 1, .noBlock⟩]
    control := .requestBlockchain .refresh }

theorem vote_freed :
    ¬ ∀ (s : PeerState HashCash.echo) (caller : Caller) (es : List PeerEvent),
      s.control = .requestBlockchain caller → s.Requests (hashCash HashCash.echo 24) es →
      (s.request (hashCash HashCash.echo 24) es).peer.control.awaiting = false →
      ∀ m, isForLater s.bc.size m = true →
        (s.request (hashCash HashCash.echo 24) es).peer.inbox.count m =
          (s.inbox ++ delivered es).count m := by
  intro kept
  have count := kept voteRequester .refresh [.turn, .turn] rfl (by decide +kernel)
    (by decide +kernel) ⟨⟨2, 80, 1⟩, 1, .vote true [7]⟩ (by decide +kernel)
  revert count
  decide +kernel

/-- A request for a later block comes before the answer, and a vote after it. -/
def laterRequester : PeerState HashCash.echo :=
  { voteRequester with
    inbox := [⟨⟨2, 80, 2⟩, 5, .requestBlock⟩, ⟨⟨2, 80, 1⟩, 1, .noBlock⟩] }

theorem later_request_kept :
    let es := [.turn, .deliver ⟨⟨2, 80, 2⟩, 1, .vote true [7]⟩, .turn]
    ⟨⟨2, 80, 2⟩, 5, .requestBlock⟩ ∈
        (laterRequester.request (hashCash HashCash.echo 24) es).peer.inbox ∧
      ∀ m, isForLater laterRequester.bc.size m = true →
        (laterRequester.request (hashCash HashCash.echo 24) es).peer.inbox.count m =
          (laterRequester.inbox ++ delivered es).count m :=
  ⟨by decide +kernel,
    (@messages_for_later_kept_iff _ (hashCash HashCash.echo 24) laterRequester .refresh rfl _
      (by decide +kernel) (by decide +kernel)).mpr (by decide +kernel)⟩

end DPS2.Application
