import DPS2.P2P.Peer

/-! The inbox thread: receive in a loop, with out-parameters that live across the
iterations. A datagram whose header fails leaves them as they are, and the message of
the iteration before is pushed once more. -/
namespace DPS2.P2P

/-- The socket, the variables msg and msg_len of inbox_thread, and what it has pushed. -/
structure InboxThread where
  sock : List Bytes
  out : Received
  pushed : List (Bytes × Nat)
  deriving DecidableEq

def InboxThread.iterate (t : InboxThread) : InboxThread :=
  let (sock, out) := receive t.sock t.out
  match out.message with
  | some msg => ⟨sock, out, t.pushed ++ [(msg, out.messageLen)]⟩
  | none => ⟨sock, out, t.pushed⟩

inductive SocketEvent where
  | arrive (datagram : Bytes)
  | iterate

def InboxThread.step (t : InboxThread) : SocketEvent → InboxThread
  | .arrive datagram => { t with sock := t.sock ++ [datagram] }
  | .iterate => t.iterate

def InboxThread.run (t : InboxThread) : List SocketEvent → InboxThread
  | [] => t
  | e :: es => (t.step e).run es

def arrivals : List SocketEvent → List Bytes
  | [] => []
  | .arrive datagram :: es => datagram :: arrivals es
  | .iterate :: es => arrivals es

def delivery (datagram : Bytes) : Option (Bytes × Nat) :=
  if accepted datagram then
    some (datagram.drop headerSize, datagram.length - headerSize)
  else none

/-- The next iteration reads a failing header while msg still points to a message. -/
def InboxThread.stale (t : InboxThread) : Bool :=
  match t.sock with
  | [] => false
  | datagram :: _ =>
      t.out.message.isSome && !checkMessageCrc (datagram.take headerSize) headerSize

def InboxThread.staleIterations (t : InboxThread) : List SocketEvent → Nat
  | [] => 0
  | .arrive datagram :: es => (t.step (.arrive datagram)).staleIterations es
  | .iterate :: es => (if t.stale then 1 else 0) + (t.step .iterate).staleIterations es

def InboxThread.owed (t : InboxThread) : List (Bytes × Nat) :=
  t.pushed ++ t.sock.filterMap delivery

section Iterate

variable {t : InboxThread}

/-- An iteration takes the first datagram off the socket. -/
theorem iterate_sock (wf : ∀ d ∈ t.sock, WellFormed d) : t.iterate.sock = t.sock.tail := by
  have left : t.iterate.sock = (receive t.sock t.out).1 := by
    unfold InboxThread.iterate
    rcases receive t.sock t.out with ⟨sock, _ | msg, length⟩ <;> rfl
  rw [left]
  rcases sock : t.sock with _ | ⟨datagram, rest⟩
  · simp [receive, isDataAvailable]
  · have long := wf datagram (by simp [sock])
    cases taken : accepted datagram with
    | true => rw [receive_accepted rest t.out long taken, List.tail_cons]
    | false =>
      cases header : checkMessageCrc (datagram.take headerSize) headerSize with
      | true => rw [receive_body_rejected rest t.out long header taken, List.tail_cons]
      | false => rw [receive_header_rejected rest t.out long header, List.tail_cons]

/-- An iteration that is not stale pushes what the first datagram delivers. -/
theorem iterate_fresh (wf : ∀ d ∈ t.sock, WellFormed d) (fresh : t.stale = false) :
    t.iterate.pushed = t.pushed ++ (t.sock.take 1).filterMap delivery := by
  rcases sock : t.sock with _ | ⟨datagram, rest⟩
  · simp [InboxThread.iterate, sock, receive, isDataAvailable]
  · have long := wf datagram (by simp [sock])
    cases taken : accepted datagram with
    | true =>
      have read := receive_accepted rest t.out long taken
      simp [InboxThread.iterate, sock, read, delivery, taken]
    | false =>
      cases header : checkMessageCrc (datagram.take headerSize) headerSize with
      | true =>
        have read := receive_body_rejected rest t.out long header taken
        simp [InboxThread.iterate, sock, read, delivery, taken]
      | false =>
        have read := receive_header_rejected rest t.out long header
        have cleared : t.out.message = none := by
          simpa [InboxThread.stale, sock, header] using fresh
        simp [InboxThread.iterate, sock, read, cleared, delivery, taken]

/-- A stale iteration pushes an item although the first datagram delivers none. -/
theorem iterate_stale (wf : ∀ d ∈ t.sock, WellFormed d) (again : t.stale = true) :
    t.iterate.pushed.length = t.pushed.length + 1 ∧
      (t.sock.take 1).filterMap delivery = [] := by
  rcases sock : t.sock with _ | ⟨datagram, rest⟩
  · simp [InboxThread.stale, sock] at again
  · simp only [InboxThread.stale, sock, Bool.and_eq_true, Bool.not_eq_true'] at again
    obtain ⟨pointed, header⟩ := again
    obtain ⟨msg, message⟩ := Option.isSome_iff_exists.mp pointed
    have read := receive_header_rejected rest t.out (wf datagram (by simp [sock])) header
    have rejected : accepted datagram = false := by simp [accepted, header]
    constructor
    · simp [InboxThread.iterate, sock, read, message]
    · simp [delivery, rejected]

theorem owed_eq (t : InboxThread) : t.owed =
    t.pushed ++ (t.sock.take 1).filterMap delivery ++ t.sock.tail.filterMap delivery := by
  rw [List.append_assoc, ← List.filterMap_append, ← List.drop_one, List.take_append_drop,
    InboxThread.owed]

/-- One iteration keeps what is owed, unless it is stale: then it pushes one too many. -/
theorem iterate_owed (wf : ∀ d ∈ t.sock, WellFormed d) :
    (t.stale = false → t.iterate.owed = t.owed) ∧
    t.iterate.owed.length = t.owed.length + (if t.stale then 1 else 0) := by
  have kept : t.stale = false → t.iterate.owed = t.owed := fun fresh => by
    rw [InboxThread.owed, iterate_sock wf, iterate_fresh wf fresh, owed_eq]
  refine ⟨kept, ?_⟩
  cases again : t.stale with
  | false => rw [kept again, if_neg Bool.false_ne_true, Nat.add_zero]
  | true =>
    obtain ⟨more, none⟩ := iterate_stale wf again
    rw [InboxThread.owed, iterate_sock wf, owed_eq, none, List.append_nil, List.length_append,
      List.length_append, more, if_pos rfl, Nat.add_right_comm]

end Iterate

theorem run_owed (es : List SocketEvent) (t : InboxThread)
    (wf : ∀ d ∈ t.sock ++ arrivals es, WellFormed d) :
    (t.staleIterations es = 0 →
      (t.run es).owed = t.owed ++ (arrivals es).filterMap delivery) ∧
    (t.run es).owed.length =
      (t.owed ++ (arrivals es).filterMap delivery).length + t.staleIterations es := by
  induction es generalizing t with
  | nil => simp [InboxThread.run, arrivals, InboxThread.staleIterations]
  | cons e es ih =>
    cases e with
    | arrive datagram =>
      have appended :
          (t.step (.arrive datagram)).owed = t.owed ++ [datagram].filterMap delivery := by
        simp [InboxThread.step, InboxThread.owed]
      have next := ih (t.step (.arrive datagram)) (by
        intro d hd
        apply wf
        simpa [InboxThread.step, arrivals] using hd)
      have split : (arrivals (.arrive datagram :: es)).filterMap delivery =
          [datagram].filterMap delivery ++ (arrivals es).filterMap delivery := by
        rw [← List.filterMap_append]
        rfl
      rw [appended, List.append_assoc, ← split] at next
      exact next
    | iterate =>
      have here : ∀ d ∈ t.sock, WellFormed d := fun d hd => wf d (List.mem_append_left _ hd)
      obtain ⟨same, count⟩ := iterate_owed here
      have later : ∀ d ∈ (t.step .iterate).sock ++ arrivals es, WellFormed d := by
        intro d hd
        rcases List.mem_append.mp hd with h | h
        · rw [InboxThread.step, iterate_sock here] at h
          exact here d (List.mem_of_mem_tail h)
        · exact wf d (List.mem_append_right _ h)
      obtain ⟨equal, size⟩ := ih (t.step .iterate) later
      constructor
      · intro none
        simp only [InboxThread.staleIterations] at none
        have fresh : t.stale = false := by
          by_contra again
          rw [Bool.not_eq_false] at again
          simp [again] at none
        have kept : (t.step .iterate).owed = t.owed := same fresh
        rw [← kept]
        exact equal (by omega)
      · have grown : (t.step .iterate).owed.length = t.owed.length + (if t.stale then 1 else 0) :=
          count
        simp only [List.length_append, InboxThread.staleIterations, InboxThread.run, arrivals]
          at size ⊢
        omega

end DPS2.P2P
