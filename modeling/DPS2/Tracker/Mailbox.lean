import DPS2.P2P.Buffers
import DPS2.Tracker.Queue

/-! The thread of the tracker that receives datagrams and places them in the queue. It
runs beside the thread that takes items off, so every critical section is a step. -/
namespace DPS2.Tracker

open P2P Codec

abbrev Pointer := Nat

structure Buffer where
  data : Memory
  size : Nat

/-- Where handle_mailbox stands. -/
inductive Control where
  | receiving
  | scanning (item : Pointer)
  | pushing (item : Pointer)
  | enqueueing (item : Pointer)
  | crashed
  deriving DecidableEq

/-- The variables of handle_mailbox, of which header and found live across iterations and
are not initialised, the messages it allocated, and the queue. A queue item is known by the
pointer to its message. -/
structure Mailbox where
  sock : List Bytes
  header : Memory
  found : Bool
  control : Control
  heap : Pointer → Buffer
  next : Pointer
  queue : QueueLock Pointer

section Mailbox

variable (s : Mailbox)

/-- A call of malloc, whose memory is filled by the receive call that follows. -/
def Mailbox.malloc (message : Memory) (size : Nat) : Mailbox :=
  { s with heap := Function.update s.heap s.next ⟨message, size⟩, next := s.next + 1 }

/-- From the peek to both checks. What malloc returns holds arbitrary bytes. -/
def handleReceive (garbage : Memory) : Mailbox :=
  if isDataAvailable s.sock then
    match s.sock with
    | [] => s
    | datagram :: rest =>
        let header := recvMessage datagram s.header headerSize
        let s := { s with sock := rest, header := header }
        if checkMessageCrc (header.read headerSize) headerSize then
          let message := recvMessage datagram garbage (lenAt header)
          match checkMessageCrcAt message (lenAt header) with
          | none => { s with control := .crashed }
          | some false => s
          | some true =>
              let item := s.next
              let s := s.malloc message (lenAt header)
              if typeAt header = MessageType.heartbeat.code then
                { s with control := .scanning item }
              else { s with control := .pushing item }
        else s
  else s

/-- The header and the message of a datagram that is waiting and passes both checks. -/
def Mailbox.accepts (garbage : Memory) : Option (Memory × Memory) :=
  if isDataAvailable s.sock then
    match s.sock with
    | [] => none
    | datagram :: _ =>
        let header := recvMessage datagram s.header headerSize
        let message := recvMessage datagram garbage (lenAt header)
        if checkMessageCrc (header.read headerSize) headerSize &&
            checkMessageCrcAt message (lenAt header) == some true then some (header, message)
        else none
  else none

/-- The entry other is a HEARTBEAT from the address in item. -/
def Mailbox.sameHeartbeat (item other : Pointer) : Bool :=
  typeAt (s.heap other).data == MessageType.heartbeat.code &&
    cmpPeerAddress (peerAddressAt (s.heap other).data) (peerAddressAt (s.heap item).data)

/-- The loop under the lock, from the newest entry back. A slot it visits is never NULL. -/
def handleScan (item : Pointer) : Bool :=
  (List.range' 1 s.queue.size).any fun i =>
    (s.queue.data (s.queue.slotBack i)).any (s.sameHeartbeat item)

def handleMailbox (garbage : Memory) : Mailbox :=
  match s.control with
  | .receiving => handleReceive s garbage
  | .scanning item => { s with found := handleScan s item, control := .pushing item }
  | .pushing item =>
      -- found is also read for a message that was not scanned
      if s.found then { s with control := .receiving }
      else if queueIsFull s.queue then { s with control := .receiving }
      else { s with control := .enqueueing item }
  | .enqueueing item =>
      { s with queue := (queueEnqueue s.queue item).1, control := .receiving }
  | .crashed => s

inductive Event where
  | arrive (datagram : Bytes)
  | mailbox (garbage : Memory)
  | requests
  | others (behind : Pointer → Memory)

/-- One step of the tracker: a datagram arrives, handle_mailbox or handle_requests takes its
next step, or other allocations change the memory behind the messages. -/
def Mailbox.step : Event → Mailbox
  | .arrive datagram => { s with sock := s.sock ++ [datagram] }
  | .mailbox garbage => handleMailbox s garbage
  | .requests => { s with queue := (queueDequeue s.queue).1 }
  | .others behind =>
      { s with heap := fun p =>
          { s.heap p with data := (s.heap p).data.keep (s.heap p).size (behind p) } }

end Mailbox

/-- The tracker before the first datagram, with arbitrary data in what is not initialised. -/
structure Fresh where
  header : Memory
  found : Bool
  heap : Pointer → Buffer
  slots : Nat → Option Pointer
  maxSize : Nat
  small : maxSize < 2 ^ 63

def Fresh.start (f : Fresh) : Mailbox where
  sock := []
  header := f.header
  found := f.found
  control := .receiving
  heap := f.heap
  next := 0
  queue := queueInit f.slots f.maxSize

def Control.item : Control → Option Pointer
  | .scanning item | .pushing item | .enqueueing item => some item
  | .receiving | .crashed => none

/- What the steps keep. -/

structure Mailbox.Holds (capacity : Nat) (s : Mailbox) : Prop where
  stores : ∃ f : Fifo Pointer capacity, Stores s.queue f
  allocated : ∀ p ∈ s.queue.items, p < s.next
  current : ∀ p, s.control.item = some p → p < s.next
  scanned : ∀ p, s.control = .scanning p → typeAt s.header = MessageType.heartbeat.code
  room : ∀ p, s.control = .enqueueing p → s.queue.items.length < capacity

section Steps

variable {capacity : Nat} {s : Mailbox}

theorem scan_eq (small : capacity < 2 ^ 63) (h : s.Holds capacity) (item : Pointer) :
    handleScan s item = s.queue.items.any (s.sameHeartbeat item) := by
  obtain ⟨f, stores⟩ := h.stores
  rw [items_eq stores, Bool.eq_iff_iff, handleScan, List.any_eq_true, List.any_eq_true]
  constructor
  · rintro ⟨i, visited, found⟩
    obtain ⟨first, last⟩ := List.mem_range'_1.mp visited
    obtain ⟨other, entry, same⟩ := (Option.any_eq_true _ _).mp found
    exact ⟨other, (mem_items_iff small stores other).mpr ⟨i, first, by omega, entry⟩, same⟩
  · rintro ⟨other, queued, same⟩
    obtain ⟨i, first, last, entry⟩ := (mem_items_iff small stores other).mp queued
    exact ⟨i, List.mem_range'_1.mpr ⟨first, by omega⟩,
      (Option.any_eq_true _ _).mpr ⟨other, entry, same⟩⟩

theorem accepts_some {garbage header message : Memory}
    (accepted : s.accepts garbage = some (header, message)) :
    ∃ datagram rest, s.sock = datagram :: rest ∧
      header = recvMessage datagram s.header headerSize ∧
      message = recvMessage datagram garbage (lenAt header) ∧
      checkMessageCrc (header.read headerSize) headerSize = true ∧
      checkMessageCrcAt message (lenAt header) = some true := by
  unfold Mailbox.accepts at accepted
  split at accepted
  · split at accepted
    · cases accepted
    · rename_i datagram rest waiting
      simp only [Option.ite_none_right_eq_some, Bool.and_eq_true, beq_iff_eq] at accepted
      obtain ⟨⟨peeked, whole⟩, same⟩ := accepted
      cases same
      exact ⟨datagram, rest, waiting, rfl, rfl, peeked, whole⟩
  · cases accepted

theorem receive_cases (s : Mailbox) (garbage : Memory) :
    ((handleReceive s garbage).queue = s.queue ∧ (handleReceive s garbage).heap = s.heap ∧
      (handleReceive s garbage).next = s.next ∧ (handleReceive s garbage).found = s.found ∧
      ((handleReceive s garbage).control = s.control ∨
        (handleReceive s garbage).control = .crashed)) ∨
    ∃ header message sock, s.accepts garbage = some (header, message) ∧
      handleReceive s garbage =
        { s.malloc message (lenAt header) with
          sock := sock
          header := header
          control := if typeAt header = MessageType.heartbeat.code then .scanning s.next
            else .pushing s.next } := by
  unfold handleReceive Mailbox.accepts
  cases available : isDataAvailable s.sock with
  | false => exact Or.inl ⟨rfl, rfl, rfl, rfl, Or.inl rfl⟩
  | true =>
    cases waiting : s.sock with
    | nil => exact Or.inl ⟨rfl, rfl, rfl, rfl, Or.inl rfl⟩
    | cons datagram rest =>
      simp only [if_true]
      cases peeked : checkMessageCrc ((recvMessage datagram s.header headerSize).read headerSize)
          headerSize with
      | false => exact Or.inl ⟨rfl, rfl, rfl, rfl, Or.inl rfl⟩
      | true =>
        simp only [if_true, Bool.true_and]
        generalize recvMessage datagram s.header headerSize = header at *
        generalize recvMessage datagram garbage (lenAt header) = message at *
        cases whole : checkMessageCrcAt message (lenAt header) with
        | none => exact Or.inl ⟨rfl, rfl, rfl, rfl, Or.inr rfl⟩
        | some passed =>
          cases passed with
          | false => exact Or.inl ⟨rfl, rfl, rfl, rfl, Or.inl rfl⟩
          | true =>
            refine Or.inr ⟨header, message, rest, rfl, ?_⟩
            by_cases heartbeat : typeAt header = MessageType.heartbeat.code
            · simp only [if_pos heartbeat]
              rfl
            · simp only [if_neg heartbeat]
              rfl

theorem Mailbox.Holds.idle (h : s.Holds capacity) {t : Mailbox} (queue : t.queue = s.queue)
    (next : t.next = s.next) (idle : t.control.item = none) : t.Holds capacity := by
  constructor
  · rw [queue]
    exact h.stores
  · rw [queue, next]
    exact h.allocated
  · intro p busy
    rw [idle] at busy
    cases busy
  · intro p busy
    rw [busy] at idle
    cases idle
  · intro p busy
    rw [busy] at idle
    cases idle

theorem holds_receive (h : s.Holds capacity) (free : s.control = .receiving) (garbage : Memory) :
    (handleReceive s garbage).Holds capacity := by
  rcases receive_cases s garbage with
    ⟨queue, heap, next, _, control⟩ | ⟨header, message, sock, _, accepted⟩
  · refine h.idle queue next ?_
    rcases control with same | crashed
    · rw [same, free]
      rfl
    · rw [crashed]
      rfl
  · rw [accepted]
    have allocated : ∀ p ∈ s.queue.items, p < s.next + 1 :=
      fun p queued => Nat.lt_succ_of_lt (h.allocated p queued)
    by_cases heartbeat : typeAt header = MessageType.heartbeat.code
    · simp only [if_pos heartbeat]
      refine ⟨h.stores, allocated, ?_, fun _ _ => heartbeat, fun _ other => (by cases other)⟩
      rintro p ⟨⟩
      exact Nat.lt_succ_self _
    · simp only [if_neg heartbeat]
      refine ⟨h.stores, allocated, ?_, fun _ other => (by cases other),
        fun _ other => (by cases other)⟩
      rintro p ⟨⟩
      exact Nat.lt_succ_self _

theorem holds_step (small : capacity < 2 ^ 63) (h : s.Holds capacity) (e : Event) :
    (s.step e).Holds capacity := by
  obtain ⟨f, stores⟩ := h.stores
  cases e with
  | arrive datagram => exact ⟨h.stores, h.allocated, h.current, h.scanned, h.room⟩
  | others behind => exact ⟨h.stores, h.allocated, h.current, h.scanned, h.room⟩
  | requests =>
    have items : (s.step .requests).queue.items = s.queue.items.tail := items_dequeue small stores
    refine ⟨⟨_, (dequeue_stores small stores).2⟩, ?_, h.current, h.scanned, ?_⟩
    · intro p queued
      rw [items] at queued
      exact h.allocated p (List.mem_of_mem_tail queued)
    · intro p offered
      have room := h.room p offered
      rw [items, List.length_tail]
      omega
  | mailbox garbage =>
    change (handleMailbox s garbage).Holds capacity
    unfold handleMailbox
    cases control : s.control with
    | receiving => exact holds_receive h control garbage
    | crashed => exact h
    | scanning item =>
      have current := h.current item (by rw [control]; rfl)
      exact ⟨h.stores, h.allocated, by rintro p ⟨⟩; exact current, fun _ other => (by cases other),
        fun _ other => (by cases other)⟩
    | pushing item =>
      have current := h.current item (by rw [control]; rfl)
      simp only
      split
      · exact h.idle rfl rfl rfl
      · split
        · exact h.idle rfl rfl rfl
        · rename_i notFull
          have room : s.queue.items.length < capacity := by
            rw [items_eq stores]
            by_contra full
            exact notFull ((full_iff stores).mpr full)
          exact ⟨h.stores, h.allocated, by rintro p ⟨⟩; exact current,
            fun _ other => (by cases other), fun _ _ => room⟩
    | enqueueing item =>
      have current := h.current item (by rw [control]; rfl)
      have items := items_enqueue small stores (h.room item control) item
      refine ⟨⟨_, (enqueue_stores small stores item).2⟩, ?_, fun _ other => (by cases other),
        fun _ other => (by cases other), fun _ other => (by cases other)⟩
      intro p queued
      change p ∈ (queueEnqueue s.queue item).1.items at queued
      rw [items, List.mem_append] at queued
      rcases queued with older | new
      · exact h.allocated p older
      · cases List.mem_singleton.mp new
        exact current

theorem holds_start (f : Fresh) : f.start.Holds f.maxSize where
  stores := ⟨Fifo.empty f.maxSize, stores_init f.slots⟩
  allocated _ queued := by cases queued
  current _ busy := by cases busy
  scanned _ busy := by cases busy
  room _ busy := by cases busy

end Steps

end DPS2.Tracker
