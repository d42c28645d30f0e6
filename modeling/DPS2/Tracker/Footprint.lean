import DPS2.P2P.Buffers

/-! What the three receivers read of a datagram. Buffers are sized, checked and copied by the
len of its header, however many bytes have arrived. -/
namespace DPS2.Tracker

open P2P Codec

/-- A range that is read of a buffer into which so many bytes were received. -/
structure Access where
  received : Nat
  offset : Nat
  length : Nat
  deriving DecidableEq

def Access.Inside (a : Access) : Prop := a.length = 0 ∨ a.offset + a.length ≤ a.received

instance (a : Access) : Decidable a.Inside := inferInstanceAs (Decidable (_ ∨ _))

/-- What is read while a datagram is handled, the lengths from which the size of a header is
subtracted, and the length that is delivered beside the payload bytes that were received. -/
structure Footprint where
  reads : List Access
  subtracted : List Nat
  delivered : Option (Nat × Nat)

namespace Footprint

def Sound (f : Footprint) : Prop :=
  (∀ a ∈ f.reads, a.Inside) ∧ (∀ len ∈ f.subtracted, headerSize ≤ len) ∧
    ∀ d ∈ f.delivered, d.1 = d.2

def append (f g : Footprint) : Footprint where
  reads := f.reads ++ g.reads
  subtracted := f.subtracted ++ g.subtracted
  delivered := g.delivered

theorem sound_append {f g : Footprint} (h : f.delivered = none) :
    (f.append g).Sound ↔ f.Sound ∧ g.Sound := by
  unfold Sound append
  simp only [List.forall_mem_append, h]
  constructor
  · rintro ⟨⟨r1, r2⟩, ⟨s1, s2⟩, d⟩
    exact ⟨⟨r1, s1, nofun⟩, r2, s2, d⟩
  · rintro ⟨⟨r1, s1, _⟩, r2, s2, d⟩
    exact ⟨⟨r1, r2⟩, ⟨s1, s2⟩, d⟩

end Footprint

/-- The reads of check_message_crc: the header up to its checksum, and behind the header once
the header matches. -/
def checkMessageCrcReads (data : Memory) (received dataLen : Nat) : Footprint :=
  if checkMessageCrc (data.read headerSize) headerSize = true ∧ dataLen ≠ headerSize then
    { reads := [⟨received, 0, headerSize - 2⟩,
        ⟨received, headerSize, sizeSub dataLen headerSize⟩]
      subtracted := [dataLen]
      delivered := none }
  else { reads := [⟨received, 0, headerSize - 2⟩], subtracted := [], delivered := none }

structure Arrived where
  data : Memory
  received : Nat

/-- The peek, its check, the receive call and the check of the message; wanted is what is
asked of the type before the receive call. A message that passes is handed on with the len
and the type of the peeked header. -/
def checkedMessage (stack heap : Memory) (wanted : Nat → Bool) (datagram : Bytes) :
    Footprint × Option (Arrived × Nat × Nat) :=
  let header := recvMessage datagram stack headerSize
  let peek := checkMessageCrcReads header (min datagram.length headerSize) headerSize
  if checkMessageCrc (header.read headerSize) headerSize && wanted (typeAt header) then
    let len := lenAt header
    let data := recvMessage datagram heap len
    let received := min datagram.length len
    (peek.append (checkMessageCrcReads data received len),
      if checkMessageCrcAt data len = some true then some (⟨data, received⟩, len, typeAt header)
      else none)
  else (peek, none)

def copyReads (message : Arrived) (len : Nat) : Footprint where
  reads := [⟨message.received, headerSize, sizeSub len headerSize⟩]
  subtracted := [len]
  delivered := some (sizeSub len headerSize, message.received - headerSize)

def receiveReads (stack heap : Memory) (datagram : Bytes) : Footprint :=
  match checkedMessage stack heap (fun _ => true) datagram with
  | (f, some (message, len, type)) =>
      if type = MessageType.p2p.code then f.append (copyReads message len) else f
  | (f, none) => f

def receiveNetinfoReads (stack heap : Memory) (datagram : Bytes) : Footprint :=
  match checkedMessage stack heap (· == MessageType.netinfo.code) datagram with
  | (f, some (message, len, _)) => f.append (copyReads message len)
  | (f, none) => f

/-- The comparison of one field of two addresses, and the ones behind it while they agree. -/
def cmpPeerAddressReads (pa1 pa2 : Arrived) : List Access :=
  let field (offset n : Nat) : List Access := [⟨pa1.received, offset, n⟩, ⟨pa2.received, offset, n⟩]
  field 24 2 ++
    if (peerAddressAt pa1.data).family = (peerAddressAt pa2.data).family then
      field 26 2 ++
        if (peerAddressAt pa1.data).port = (peerAddressAt pa2.data).port then field 28 4 else []
    else []

/-- The scan of the queue, from the newest entry back. -/
def scanReads (item : Arrived) : List Arrived → List Access
  | [] => []
  | other :: older =>
      ⟨other.received, 0, 4⟩ ::
        if typeAt other.data = MessageType.heartbeat.code then
          cmpPeerAddressReads other item ++
            if cmpPeerAddress (peerAddressAt other.data) (peerAddressAt item.data) then []
            else scanReads item older
        else scanReads item older

def handleMailboxReads (stack heap : Memory) (queue : List Arrived) (datagram : Bytes) :
    Footprint :=
  match checkedMessage stack heap (fun _ => true) datagram with
  | (f, some (message, _, type)) =>
      if type = MessageType.heartbeat.code then f.append ⟨scanReads message queue, [], none⟩ else f
  | (f, none) => f

/-- All three are only called while is_data_available finds a datagram that is not empty. -/
def whenAvailable (datagram : Bytes) (f : Footprint) : Footprint :=
  if isDataAvailable [datagram] then f else ⟨[], [], none⟩

/- The datagrams for which every read stays inside. -/

/-- The header arrives up to its checksum; and once it matches and the type is wanted, len
covers a header, and is that of a bare header or does not exceed what arrives. -/
def Framed (wanted : Nat → Bool) (datagram : Bytes) : Prop :=
  22 ≤ datagram.length ∧
    (checkMessageCrc (datagram.take headerSize) headerSize = true →
      wanted (typeField datagram) = true → headerSize ≤ lenField datagram ∧
        (lenField datagram = headerSize ∨ lenField datagram ≤ datagram.length))

def HeartbeatAccepted (datagram : Bytes) : Prop :=
  checkMessageCrc (datagram.take headerSize) headerSize = true ∧
    checkMessageCrc (datagram.take (lenField datagram)) (lenField datagram) = true ∧
    typeField datagram = MessageType.heartbeat.code

/-- The type of a queued message was received, and the address of a HEARTBEAT. -/
def Arrived.Whole (message : Arrived) : Prop :=
  4 ≤ message.received ∧ (typeAt message.data = MessageType.heartbeat.code → 32 ≤ message.received)

section Reads

variable {data : Memory} {received dataLen : Nat}

theorem inside_behind_header (fits : dataLen < 2 ^ 64) (covers : headerSize ≤ dataLen) :
    (⟨received, headerSize, sizeSub dataLen headerSize⟩ : Access).Inside ↔
      dataLen = headerSize ∨ dataLen ≤ received := by
  unfold Access.Inside sizeSub headerSize at *
  dsimp only
  omega

theorem check_reads_iff (fits : dataLen < 2 ^ 64) :
    (checkMessageCrcReads data received dataLen).Sound ↔ 22 ≤ received ∧
      (checkMessageCrc (data.read headerSize) headerSize = true → headerSize ≤ dataLen ∧
        (dataLen = headerSize ∨ dataLen ≤ received)) := by
  have first : (⟨received, 0, headerSize - 2⟩ : Access).Inside ↔ 22 ≤ received := by
    unfold Access.Inside headerSize
    dsimp only
    omega
  unfold checkMessageCrcReads Footprint.Sound
  split
  · rename_i more
    simp only [List.forall_mem_cons, List.not_mem_nil, IsEmpty.forall_iff, implies_true, and_true,
      first, more.1, true_implies]
    constructor
    · rintro ⟨⟨arrived, behind⟩, covers, _⟩
      exact ⟨arrived, covers, (inside_behind_header fits covers).mp behind⟩
    · rintro ⟨arrived, covers, behind⟩
      exact ⟨⟨arrived, (inside_behind_header fits covers).mpr behind⟩, covers, nofun⟩
  · rename_i only
    simp only [List.forall_mem_cons, List.not_mem_nil, IsEmpty.forall_iff, implies_true, and_true,
      first]
    constructor
    · rintro ⟨arrived, _⟩
      refine ⟨arrived, fun matches_ => ?_⟩
      have bare : dataLen = headerSize := by
        by_contra other
        exact only ⟨matches_, other⟩
      exact ⟨Nat.le_of_eq bare.symm, Or.inl bare⟩
    · rintro ⟨arrived, _⟩
      exact ⟨arrived, trivial, fun _ none => by cases none⟩

variable (stack heap : Memory) {wanted : Nat → Bool} {datagram : Bytes}

theorem peeked_header (arrived : 22 ≤ datagram.length) :
    checkMessageCrc ((recvMessage datagram stack headerSize).read headerSize) headerSize =
        checkMessageCrc (datagram.take headerSize) headerSize ∧
      typeAt (recvMessage datagram stack headerSize) = typeField datagram ∧
      lenAt (recvMessage datagram stack headerSize) = lenField datagram :=
  ⟨header_check_recv (by decide) arrived, typeAt_recv (by decide) (by omega),
    lenAt_recv (by decide) (by omega)⟩

theorem checked_reads_iff :
    (checkedMessage stack heap wanted datagram).1.Sound ↔ Framed wanted datagram := by
  have fits : headerSize < 2 ^ 64 := by decide
  have peek : (checkMessageCrcReads (recvMessage datagram stack headerSize)
      (min datagram.length headerSize) headerSize).Sound ↔ 22 ≤ datagram.length := by
    rw [check_reads_iff fits]
    unfold headerSize
    omega
  have alone : (checkMessageCrcReads (recvMessage datagram stack headerSize)
      (min datagram.length headerSize) headerSize).delivered = none := by
    unfold checkMessageCrcReads
    split <;> rfl
  by_cases arrived : 22 ≤ datagram.length
  · obtain ⟨header, type, len⟩ := peeked_header stack arrived
    have lenFits := lenAt_lt (recvMessage datagram stack headerSize)
    unfold checkedMessage Framed
    simp only [header, type, len, arrived, true_and] at lenFits ⊢
    by_cases more : (checkMessageCrc (datagram.take headerSize) headerSize &&
        wanted (typeField datagram)) = true
    · rw [if_pos more]
      rw [Bool.and_eq_true] at more
      rw [Footprint.sound_append alone, peek, check_reads_iff lenFits]
      simp only [more.1, more.2, true_implies, arrived, true_and]
      constructor
      · rintro ⟨covers, behind⟩
        have same := @header_check_recv datagram heap _
          (Nat.le_trans covers (Nat.min_le_right _ _)) arrived
        have lengths := behind (same.trans more.1)
        omega
      · rintro ⟨covers, behind⟩
        unfold headerSize at covers behind ⊢
        omega
    · rw [if_neg more, peek]
      rw [Bool.and_eq_true, not_and] at more
      exact iff_of_true arrived fun matches_ type => absurd type (more matches_)
  · refine iff_of_false (fun sound => ?_) fun framed => arrived framed.1
    unfold checkedMessage at sound
    dsimp only at sound
    split at sound
    · dsimp only at sound
      rw [Footprint.sound_append alone, peek] at sound
      exact arrived sound.1
    · dsimp only at sound
      rw [peek] at sound
      exact arrived sound

theorem checked_alone : (checkedMessage stack heap wanted datagram).1.delivered = none := by
  have alone : ∀ data received dataLen,
      (checkMessageCrcReads data received dataLen).delivered = none := by
    intro data received dataLen
    unfold checkMessageCrcReads
    split <;> rfl
  unfold checkedMessage
  dsimp only
  split
  · dsimp only [Footprint.append]
    rw [alone]
  · dsimp only
    rw [alone]

theorem checked_some (framed : Framed wanted datagram) {message : Arrived} {len type : Nat} :
    (checkedMessage stack heap wanted datagram).2 = some (message, len, type) ↔
      (checkMessageCrc (datagram.take headerSize) headerSize = true ∧
        wanted (typeField datagram) = true ∧
        checkMessageCrc (datagram.take (lenField datagram)) (lenField datagram) = true) ∧
      message = ⟨recvMessage datagram heap (lenField datagram),
        min datagram.length (lenField datagram)⟩ ∧
      len = lenField datagram ∧ type = typeField datagram := by
  obtain ⟨arrived, within⟩ := framed
  obtain ⟨header, type, len⟩ := peeked_header stack arrived
  unfold checkedMessage
  simp only [header, type, len]
  split
  · rename_i more
    rw [Bool.and_eq_true] at more
    obtain ⟨covers, behind⟩ := within more.1 more.2
    have whole : checkMessageCrcAt (recvMessage datagram heap (lenField datagram))
        (lenField datagram) =
          some (checkMessageCrc (datagram.take (lenField datagram)) (lenField datagram)) := by
      rw [checkMessageCrcAt, if_neg (Nat.not_lt_of_le covers)]
      rcases behind with bare | reaches
      · rw [bare, header_check_recv (by decide) arrived]
      · rw [read_recv (Nat.le_refl _) reaches]
    rw [whole]
    constructor
    · intro handed
      rw [Option.ite_none_right_eq_some] at handed
      obtain ⟨passed, same⟩ := handed
      obtain ⟨same, rest⟩ := Prod.mk.inj (Option.some.inj same)
      obtain ⟨sameLen, sameType⟩ := Prod.mk.inj rest
      exact ⟨⟨more.1, more.2, Option.some.inj passed⟩, same.symm, sameLen.symm, sameType.symm⟩
    · rintro ⟨⟨_, _, passed⟩, rfl, rfl, rfl⟩
      rw [if_pos (congrArg some passed)]
  · rename_i more
    rw [Bool.and_eq_true, not_and] at more
    exact iff_of_false (fun none_ => by cases none_) fun passed => more passed.1.1 passed.1.2.1

theorem copy_sound {message : Arrived} {len : Nat} (fits : len < 2 ^ 64) (covers : headerSize ≤ len)
    (arrived : message.received = min datagram.length len)
    (behind : len = headerSize ∨ len ≤ datagram.length) : (copyReads message len).Sound := by
  refine ⟨?_, ?_, ?_⟩
  · intro a inside
    rw [List.mem_singleton.mp inside, inside_behind_header fits covers, arrived]
    omega
  · intro n inside
    rw [List.mem_singleton.mp inside]
    exact covers
  · intro d delivered
    rw [copyReads, Option.mem_def] at delivered
    rw [← Option.some.inj delivered]
    dsimp only
    rw [arrived]
    unfold sizeSub headerSize at *
    omega

theorem sound_append_iff {f g : Footprint} (checks : f.Sound ↔ Framed wanted datagram)
    (alone : f.delivered = none) (rest : Framed wanted datagram → g.Sound) :
    (f.append g).Sound ↔ Framed wanted datagram := by
  rw [Footprint.sound_append alone, checks]
  exact ⟨fun both => both.1, fun framed => ⟨framed, rest framed⟩⟩

theorem handed_copy_sound (framed : Framed wanted datagram) {message : Arrived} {len type : Nat}
    (handed : (checkedMessage stack heap wanted datagram).2 = some (message, len, type)) :
    (copyReads message len).Sound := by
  obtain ⟨⟨header, type, _⟩, rfl, rfl, rfl⟩ := (checked_some stack heap framed).mp handed
  obtain ⟨covers, behind⟩ := framed.2 header type
  exact copy_sound (lenField_lt datagram) covers rfl behind

theorem receive_reads_iff :
    (receiveReads stack heap datagram).Sound ↔ Framed (fun _ => true) datagram := by
  have checks := @checked_reads_iff stack heap (fun _ => true) datagram
  have alone := @checked_alone stack heap (fun _ => true) datagram
  have copied := @handed_copy_sound stack heap (fun _ => true) datagram
  unfold receiveReads
  generalize checkedMessage stack heap (fun _ => true) datagram = result at checks alone copied
  obtain ⟨f, next⟩ := result
  cases next with
  | none => exact checks
  | some next =>
    obtain ⟨message, len, type⟩ := next
    dsimp only
    split
    · exact sound_append_iff checks alone fun framed => copied framed rfl
    · exact checks

/-- The length that is delivered is the one that receive writes to message_len. -/
theorem receive_delivered (framed : Framed (fun _ => true) datagram) {d : Nat × Nat}
    (delivered : (receiveReads stack heap datagram).delivered = some d)
    (rest : List Bytes) (out : Received) :
    (receive (datagram :: rest) out).2.messageLen = d.1 ∧
      (receive (datagram :: rest) out).2.message.map List.length = some d.2 := by
  have alone := @checked_alone stack heap (fun _ => true) datagram
  have handed := @checked_some stack heap (fun _ => true) datagram framed
  unfold receiveReads at delivered
  generalize checkedMessage stack heap (fun _ => true) datagram = result
    at delivered alone handed
  obtain ⟨f, next⟩ := result
  dsimp only at alone
  cases next with
  | none => simp only [alone, reduceCtorEq] at delivered
  | some next =>
    obtain ⟨message, len, type⟩ := next
    dsimp only at delivered
    split at delivered
    · rename_i p2p
      have same : (sizeSub len headerSize, message.received - headerSize) = d :=
        Option.some.inj delivered
      obtain ⟨⟨header, _, passed⟩, rfl, rfl, rfl⟩ := handed.mp rfl
      have data : isDataAvailable (datagram :: rest) = true :=
        decide_eq_true (Nat.lt_of_lt_of_le (by decide) framed.1)
      rw [← same]
      simp only [receive, data, if_true, header, lenField_take, typeField_take, passed, p2p,
        beq_self_eq_true, Bool.and_true, Option.map_some, slice, List.length_take,
        List.length_drop, true_and]
      have covers := (framed.2 header rfl).1
      have fits := lenField_lt datagram
      generalize lenField datagram = len at covers fits ⊢
      rw [Option.some.injEq]
      unfold sizeSub headerSize at *
      omega
    · rw [alone] at delivered
      cases delivered

theorem receive_netinfo_reads_iff :
    (receiveNetinfoReads stack heap datagram).Sound ↔
      Framed (· == MessageType.netinfo.code) datagram := by
  have checks := @checked_reads_iff stack heap (· == MessageType.netinfo.code) datagram
  have alone := @checked_alone stack heap (· == MessageType.netinfo.code) datagram
  have copied := @handed_copy_sound stack heap (· == MessageType.netinfo.code) datagram
  unfold receiveNetinfoReads
  generalize checkedMessage stack heap (· == MessageType.netinfo.code) datagram = result
    at checks alone copied
  obtain ⟨f, next⟩ := result
  cases next with
  | none => exact checks
  | some next =>
    obtain ⟨message, len, type⟩ := next
    exact sound_append_iff checks alone fun framed => copied framed rfl

/- The scan. -/

theorem cmp_reads_inside {pa1 pa2 : Arrived} (first : 32 ≤ pa1.received)
    (second : 32 ≤ pa2.received) : ∀ a ∈ cmpPeerAddressReads pa1 pa2, a.Inside := by
  have field : ∀ offset n, offset + n ≤ 32 → ∀ a,
      a ∈ [(⟨pa1.received, offset, n⟩ : Access), ⟨pa2.received, offset, n⟩] → a.Inside := by
    intro offset n covered a inside
    rcases List.mem_cons.mp inside with rfl | inside
    · exact Or.inr (Nat.le_trans covered first)
    · rw [List.mem_singleton.mp inside]
      exact Or.inr (Nat.le_trans covered second)
  intro a inside
  unfold cmpPeerAddressReads at inside
  rcases List.mem_append.mp inside with family | later
  · exact field 24 2 (by decide) a family
  · split at later
    · rcases List.mem_append.mp later with port | last
      · exact field 26 2 (by decide) a port
      · split at last
        · exact field 28 4 (by decide) a last
        · cases last
    · cases later

theorem scan_reads_inside {item : Arrived} (whole : 32 ≤ item.received) (queue : List Arrived)
    (queued : ∀ other ∈ queue, other.Whole) : ∀ a ∈ scanReads item queue, a.Inside := by
  induction queue with
  | nil => exact fun _ none => by cases none
  | cons other older ih =>
    obtain ⟨type, address⟩ := queued other List.mem_cons_self
    have later := ih fun other inside => queued other (List.mem_cons_of_mem _ inside)
    intro a inside
    unfold scanReads at inside
    rcases List.mem_cons.mp inside with rfl | inside
    · exact Or.inr type
    · split at inside
      · rename_i heartbeat
        rcases List.mem_append.mp inside with compared | inside
        · exact cmp_reads_inside (address heartbeat) whole a compared
        · split at inside
          · cases inside
          · exact later a inside
      · exact later a inside

/-- Beside a HEARTBEAT of the same address the whole address of the item is read. -/
theorem scan_reads_address {item : Arrived}
    (heartbeat : typeAt item.data = MessageType.heartbeat.code)
    (inside : ∀ queue : List Arrived, (∀ other ∈ queue, other.Whole) →
      ∀ a ∈ scanReads item queue, a.Inside) : 32 ≤ item.received := by
  have last : (⟨item.received, 28, 4⟩ : Access) ∈ scanReads item [⟨item.data, 32⟩] := by
    simp [scanReads, cmpPeerAddressReads, heartbeat]
  have queued : ∀ other ∈ [(⟨item.data, 32⟩ : Arrived)], other.Whole := by
    intro other inside
    rw [List.mem_singleton.mp inside]
    exact ⟨(by decide : 4 ≤ 32), fun _ => Nat.le_refl 32⟩
  rcases inside _ queued _ last with none | covered
  · cases none
  · exact covered

/-- For every queue of whole items. -/
theorem handle_mailbox_reads_iff :
    (∀ queue : List Arrived, (∀ other ∈ queue, other.Whole) →
      (handleMailboxReads stack heap queue datagram).Sound) ↔
    Framed (fun _ => true) datagram ∧ (HeartbeatAccepted datagram → 32 ≤ lenField datagram) := by
  have checks := @checked_reads_iff stack heap (fun _ => true) datagram
  have alone := @checked_alone stack heap (fun _ => true) datagram
  have handed := fun framed => @checked_some stack heap (fun _ => true) datagram framed
  unfold handleMailboxReads
  generalize checkedMessage stack heap (fun _ => true) datagram = result at checks alone handed
  obtain ⟨f, next⟩ := result
  have bare : (∀ queue : List Arrived, (∀ other ∈ queue, other.Whole) → f.Sound) ↔
      Framed (fun _ => true) datagram := by
    rw [← checks]
    exact ⟨fun all => all [] fun _ none => (by cases none), fun sound _ _ => sound⟩
  cases next with
  | none =>
    dsimp only
    rw [bare]
    refine ⟨fun framed => ⟨framed, fun accepted => ?_⟩, fun both => both.1⟩
    have passed := (handed framed).mpr ⟨⟨accepted.1, rfl, accepted.2.1⟩, rfl, rfl, rfl⟩
    cases passed
  | some next =>
    obtain ⟨message, len, type⟩ := next
    dsimp only
    by_cases heartbeat : type = MessageType.heartbeat.code
    · simp only [if_pos heartbeat, Footprint.sound_append alone]
      constructor
      · intro all
        have framed := checks.mp (all [] fun _ none => (by cases none)).1
        obtain ⟨⟨header, _, _⟩, rfl, rfl, rfl⟩ := (handed framed).mp rfl
        have covers := Nat.le_trans (by decide : 4 ≤ headerSize) (framed.2 header rfl).1
        have long := Nat.le_trans (by decide : 4 ≤ 22) framed.1
        refine ⟨framed, fun _ => ?_⟩
        have type := (@typeAt_recv datagram heap _ covers long).trans heartbeat
        have scanned := fun queue queued => (all queue queued).2.1
        exact Nat.le_trans (scan_reads_address type scanned) (Nat.min_le_right _ _)
      · rintro ⟨framed, long⟩ queue queued
        obtain ⟨⟨header, _, passed⟩, rfl, rfl, rfl⟩ := (handed framed).mp rfl
        have address := long ⟨header, passed, heartbeat⟩
        have received : 32 ≤ min datagram.length (lenField datagram) := by
          rcases (framed.2 header rfl).2 with bare | reaches
          · rw [bare] at address
            exact absurd address (by decide)
          · omega
        exact ⟨checks.mpr framed, scan_reads_inside received queue queued,
          fun _ none => (by cases none), fun _ none => by cases none⟩
    · simp only [if_neg heartbeat]
      rw [bare]
      refine ⟨fun framed => ⟨framed, fun accepted => ?_⟩, fun both => both.1⟩
      obtain ⟨_, _, _, sameType⟩ := (handed framed).mp rfl
      exact absurd (sameType.trans accepted.2.2) heartbeat

end Reads

/-- Each receiver reads only what has arrived, never subtracts below zero and delivers the
length of what it received exactly for these datagrams. -/
theorem reads_inside_iff (stack heap : Memory) (datagram : Bytes) :
    ((whenAvailable datagram (receiveReads stack heap datagram)).Sound ↔
      (datagram = [] ∨ Framed (fun _ => true) datagram)) ∧
    ((whenAvailable datagram (receiveNetinfoReads stack heap datagram)).Sound ↔
      (datagram = [] ∨ Framed (· == MessageType.netinfo.code) datagram)) ∧
    ((∀ queue : List Arrived, (∀ other ∈ queue, other.Whole) →
        (whenAvailable datagram (handleMailboxReads stack heap queue datagram)).Sound) ↔
      (datagram = [] ∨ Framed (fun _ => true) datagram ∧
        (HeartbeatAccepted datagram → 32 ≤ lenField datagram))) := by
  cases datagram with
  | nil =>
    have nothing : (⟨[], [], none⟩ : Footprint).Sound :=
      ⟨fun _ none => (by cases none), fun _ none => (by cases none), fun _ none => by cases none⟩
    exact ⟨iff_of_true nothing (Or.inl rfl), iff_of_true nothing (Or.inl rfl),
      iff_of_true (fun _ _ => nothing) (Or.inl rfl)⟩
  | cons b bs =>
    have available : isDataAvailable [b :: bs] = true := rfl
    simp only [whenAvailable, available, if_true, List.cons_ne_nil, false_or]
    exact ⟨receive_reads_iff stack heap, receive_netinfo_reads_iff stack heap,
      handle_mailbox_reads_iff stack heap⟩

theorem short_datagram_overread :
    ¬ ∀ (stack heap : Memory) (datagram : Bytes),
      (whenAvailable datagram (receiveReads stack heap datagram)).Sound := by
  intro sound
  have inside := (sound (fun _ => 0) (fun _ => 0) ((frame .p2p ⟨[1, 2], by decide⟩).take 24)).1
    ⟨24, 24, 2⟩ (by decide +kernel)
  revert inside
  decide

end DPS2.Tracker
