import DPS2.Tracker.Verdicts

/-! The HEARTBEAT items in the queue of the tracker. The scan keeps them apart as long as
every HEARTBEAT carries a whole address; a bare header is compared by bytes behind it. -/
namespace DPS2.Tracker

open P2P Codec

/-- A HEARTBEAT whose address cmp_peer_address takes for this one. -/
def heartbeatFrom (pa : PeerAddress) (data : Memory) : Bool :=
  typeAt data == MessageType.heartbeat.code && cmpPeerAddress (peerAddressAt data) pa

def Mailbox.heartbeats (s : Mailbox) (pa : PeerAddress) : Nat :=
  s.queue.items.countP fun item => heartbeatFrom pa (s.heap item).data

/-- A message that passes both checks and is a HEARTBEAT was peeked as one, and its len
covers the address. -/
def WholeHeartbeats (s : Mailbox) : Event → Prop
  | .mailbox garbage => s.control = .receiving →
      ∀ accepted ∈ s.accepts garbage, typeAt accepted.2 = MessageType.heartbeat.code →
        typeAt accepted.1 = MessageType.heartbeat.code ∧ 32 ≤ lenAt accepted.1
  | _ => True

instance (s : Mailbox) (e : Event) : Decidable (WholeHeartbeats s e) := by
  unfold WholeHeartbeats
  split <;> infer_instance

/- What other allocations cannot change. -/

/-- The type lies inside of what was allocated, and so does the address of a HEARTBEAT. -/
structure Whole (b : Buffer) : Prop where
  type : 4 ≤ b.size
  address : typeAt b.data = MessageType.heartbeat.code → 32 ≤ b.size

theorem typeAt_keep {data : Memory} {size : Nat} (behind : Memory) (covered : 4 ≤ size) :
    typeAt (data.keep size behind) = typeAt data :=
  number_congr fun _ inside => keep_below behind (by omega)

theorem peerAddressAt_keep {data : Memory} {size : Nat} (behind : Memory) (covered : 32 ≤ size) :
    peerAddressAt (data.keep size behind) = peerAddressAt data := by
  have field : ∀ offset n, offset + n ≤ 32 →
      ((data.keep size behind).shift offset).number n = (data.shift offset).number n :=
    fun offset n _ => number_congr fun _ inside => keep_below behind (by omega)
  unfold peerAddressAt
  rw [field 24 2 (by omega), field 26 2 (by omega), field 28 4 (by omega)]

theorem heartbeatFrom_keep {b : Buffer} (whole : Whole b) (behind : Memory) (pa : PeerAddress) :
    heartbeatFrom pa (b.data.keep b.size behind) = heartbeatFrom pa b.data := by
  unfold heartbeatFrom
  rw [typeAt_keep behind whole.type]
  by_cases heartbeat : typeAt b.data = MessageType.heartbeat.code
  · rw [peerAddressAt_keep behind (whole.address heartbeat)]
  · rw [beq_false_of_ne heartbeat, Bool.false_and, Bool.false_and]

/- What the steps keep. -/

/-- The item may still be put into the queue. -/
def Mailbox.admits (s : Mailbox) (item : Pointer) : Prop :=
  s.control = .enqueueing item ∨ s.control = .pushing item ∧ s.found = false

structure Calm (s : Mailbox) : Prop where
  queued : ∀ item ∈ s.queue.items, Whole (s.heap item)
  current : ∀ item, s.control.item = some item → Whole (s.heap item)
  once : ∀ pa, s.heartbeats pa ≤ 1
  clear : ∀ item, s.admits item → ∀ pa, heartbeatFrom pa (s.heap item).data = true →
    s.heartbeats pa = 0

section Steps

variable {capacity : Nat} {s t : Mailbox}

theorem heartbeats_congr (queue : t.queue = s.queue)
    (same : ∀ item ∈ s.queue.items, ∀ pa,
      heartbeatFrom pa (t.heap item).data = heartbeatFrom pa (s.heap item).data)
    (pa : PeerAddress) : t.heartbeats pa = s.heartbeats pa := by
  unfold Mailbox.heartbeats
  rw [queue]
  refine List.countP_congr fun item queued => ?_
  rw [same item queued pa]

theorem Calm.idle (h : Calm s) (queue : t.queue = s.queue) (heap : t.heap = s.heap)
    (idle : t.control.item = none) : Calm t := by
  have same := heartbeats_congr queue (fun item _ pa => by rw [heap])
  refine ⟨?_, ?_, ?_, ?_⟩
  · rw [queue, heap]
    exact h.queued
  · intro item busy
    rw [idle] at busy
    cases busy
  · intro pa
    rw [same pa]
    exact h.once pa
  · rintro item (enqueueing | ⟨pushing, _⟩)
    · rw [enqueueing] at idle
      cases idle
    · rw [pushing] at idle
      cases idle

theorem calm_receive (holds : s.Holds capacity) (h : Calm s)
    (free : s.control = .receiving) (garbage : Memory)
    (whole : WholeHeartbeats s (.mailbox garbage)) : Calm (handleReceive s garbage) := by
  rcases receive_cases s garbage with
    ⟨queue, heap, next, _, control⟩ | ⟨header, message, sock, accepted, same⟩
  · refine h.idle queue heap ?_
    rcases control with same | crashed
    · rw [same, free]
      rfl
    · rw [crashed]
      rfl
  · obtain ⟨_, _, _, _, _, _, passed⟩ := accepts_some accepted
    have covered := Nat.le_trans (by decide : 4 ≤ headerSize) (checked_covers_header passed)
    have heartbeat := whole free _ accepted
    have new : Whole ⟨message, lenAt header⟩ := ⟨covered, fun type => (heartbeat type).2⟩
    have older : ∀ item ∈ s.queue.items,
        Function.update s.heap s.next ⟨message, lenAt header⟩ item = s.heap item :=
      fun item queued => Function.update_of_ne (Nat.ne_of_lt (holds.allocated item queued)) _ _
    have newest : Function.update s.heap s.next ⟨message, lenAt header⟩ s.next =
        ⟨message, lenAt header⟩ := Function.update_self _ _ _
    have queue : (handleReceive s garbage).queue = s.queue := by rw [same]; rfl
    have heap : (handleReceive s garbage).heap =
        Function.update s.heap s.next ⟨message, lenAt header⟩ := by rw [same]; rfl
    have control : (handleReceive s garbage).control =
        if typeAt header = MessageType.heartbeat.code then .scanning s.next
        else .pushing s.next := by rw [same]
    generalize handleReceive s garbage = t at queue heap control
    refine ⟨?_, ?_, ?_, ?_⟩
    · intro item queued
      rw [queue] at queued
      rw [heap, older item queued]
      exact h.queued item queued
    · intro item busy
      have item_eq : item = s.next := by
        rw [control] at busy
        split at busy <;> cases busy <;> rfl
      rw [item_eq, heap, newest]
      exact new
    · intro pa
      rw [heartbeats_congr queue (fun item queued pa => by rw [heap, older item queued]) pa]
      exact h.once pa
    · intro item admitted pa sent
      -- a message that is not scanned is no HEARTBEAT
      rw [Mailbox.admits, control] at admitted
      split at admitted
      · rcases admitted with enqueueing | ⟨pushing, _⟩
        · cases enqueueing
        · cases pushing
      · rename_i other
        rcases admitted with enqueueing | ⟨pushing, _⟩
        · cases enqueueing
        · cases pushing
          rw [heap, newest, heartbeatFrom, Bool.and_eq_true, beq_iff_eq] at sent
          exact absurd (heartbeat sent.1).1 other

theorem Whole.keep {b : Buffer} (whole : Whole b) (behind : Memory) :
    Whole { b with data := b.data.keep b.size behind } where
  type := whole.type
  address type := whole.address ((typeAt_keep behind whole.type).symm.trans type)

theorem calm_others (h : Calm s) (behind : Pointer → Memory) : Calm (s.step (.others behind)) := by
  have same := @heartbeats_congr s (s.step (.others behind)) rfl fun item queued pa =>
    heartbeatFrom_keep (h.queued item queued) (behind item) pa
  refine ⟨fun item queued => (h.queued item queued).keep _,
    fun item busy => (h.current item busy).keep _, ?_, ?_⟩
  · intro pa
    rw [same pa]
    exact h.once pa
  · intro item admitted pa sent
    have busy : s.control.item = some item := by
      rcases admitted with enqueueing | ⟨pushing, _⟩
      · exact congrArg Control.item enqueueing
      · exact congrArg Control.item pushing
    rw [same pa]
    exact h.clear item admitted pa
      ((heartbeatFrom_keep (h.current item busy) (behind item) pa).symm.trans sent)

theorem calm_requests (small : capacity < 2 ^ 63) (holds : s.Holds capacity) (h : Calm s) :
    Calm (s.step .requests) := by
  obtain ⟨f, stores⟩ := holds.stores
  have items : (s.step .requests).queue.items = s.queue.items.tail := items_dequeue small stores
  have fewer : ∀ pa, (s.step .requests).heartbeats pa ≤ s.heartbeats pa := by
    intro pa
    unfold Mailbox.heartbeats
    rw [items]
    exact (List.tail_sublist _).countP_le
  refine ⟨?_, h.current, fun pa => Nat.le_trans (fewer pa) (h.once pa), ?_⟩
  · intro item queued
    rw [items] at queued
    exact h.queued item (List.mem_of_mem_tail queued)
  · intro item admitted pa sent
    have none := h.clear item admitted pa sent
    exact Nat.le_zero.mp (none ▸ fewer pa)

/-- A HEARTBEAT that the scan lets pass has an address of its own. -/
theorem scan_clear (small : capacity < 2 ^ 63) (holds : s.Holds capacity) {item : Pointer}
    (missed : handleScan s item = false) {pa : PeerAddress}
    (sent : heartbeatFrom pa (s.heap item).data = true) : s.heartbeats pa = 0 := by
  rw [scan_eq small holds, List.any_eq_false] at missed
  rw [heartbeatFrom, Bool.and_eq_true, cmpPeerAddress_iff] at sent
  rw [Mailbox.heartbeats, List.countP_eq_zero, ← sent.2]
  exact missed

theorem calm_enqueue (small : capacity < 2 ^ 63) (holds : s.Holds capacity) (h : Calm s)
    {item : Pointer} (control : s.control = .enqueueing item) :
    Calm { s with queue := (queueEnqueue s.queue item).1, control := .receiving } := by
  obtain ⟨f, stores⟩ := holds.stores
  have items := items_enqueue small stores (holds.room item control) item
  refine ⟨?_, fun _ busy => (by cases busy), ?_, ?_⟩
  · intro p queued
    change p ∈ (queueEnqueue s.queue item).1.items at queued
    rw [items, List.mem_append, List.mem_singleton] at queued
    rcases queued with older | rfl
    · exact h.queued p older
    · exact h.current p (congrArg Control.item control)
  · intro pa
    change (queueEnqueue s.queue item).1.items.countP _ ≤ 1
    rw [items, List.countP_append, List.countP_singleton]
    have before := h.once pa
    split
    · rename_i sent
      have none : s.heartbeats pa = 0 := h.clear item (Or.inl control) pa sent
      change s.heartbeats pa + 1 ≤ 1
      omega
    · exact before
  · rintro p (enqueueing | ⟨pushing, _⟩)
    · cases enqueueing
    · cases pushing

theorem calm_step (small : capacity < 2 ^ 63) (holds : s.Holds capacity) (h : Calm s) (e : Event)
    (whole : WholeHeartbeats s e) : Calm (s.step e) := by
  cases e with
  | arrive datagram => exact ⟨h.queued, h.current, h.once, h.clear⟩
  | others behind => exact calm_others h behind
  | requests => exact calm_requests small holds h
  | mailbox garbage =>
    change Calm (handleMailbox s garbage)
    unfold handleMailbox
    cases control : s.control with
    | receiving => exact calm_receive holds h control garbage whole
    | crashed => exact h
    | scanning item =>
      refine ⟨h.queued, ?_, h.once, ?_⟩
      · rintro _ ⟨⟩
        exact h.current item (congrArg Control.item control)
      · rintro p (enqueueing | ⟨pushing, missed⟩) pa sent
        · cases enqueueing
        · cases pushing
          exact scan_clear small holds missed sent
    | pushing item =>
      simp only
      split
      · exact h.idle rfl rfl rfl
      · rename_i found
        split
        · exact h.idle rfl rfl rfl
        · refine ⟨h.queued, ?_, h.once, ?_⟩
          · rintro _ ⟨⟩
            exact h.current item (congrArg Control.item control)
          · rintro p (enqueueing | ⟨pushing, _⟩) pa sent
            · cases enqueueing
              exact h.clear item (Or.inr ⟨control, Bool.eq_false_of_not_eq_true found⟩) pa sent
            · cases pushing
    | enqueueing item => exact calm_enqueue small holds h control

theorem calm_start (f : Fresh) : Calm f.start :=
  ⟨fun _ queued => (by cases queued), fun _ busy => (by cases busy), fun _ => Nat.zero_le _,
    by rintro p (⟨⟨⟩⟩ | ⟨⟨⟩, _⟩)⟩

end Steps

/-- As long as every HEARTBEAT that is accepted carries its whole address, there is at most
one of them in the queue for each address. -/
theorem heartbeats_once (f : Fresh) (events : List Event)
    (whole : Lts.Throughout Mailbox.step WholeHeartbeats f.start events) (pa : PeerAddress) :
    (Lts.run Mailbox.step f.start events).heartbeats pa ≤ 1 := by
  have both : (Lts.run Mailbox.step f.start events).Holds f.maxSize ∧
      Calm (Lts.run Mailbox.step f.start events) := by
    refine @Lts.invariant_run _ _ _ _ (fun s => s.Holds f.maxSize ∧ Calm s) ?_ _ _
      ⟨holds_start f, calm_start f⟩ whole
    rintro s e ⟨holds, calm⟩ now
    exact ⟨holds_step f.small holds e, calm_step f.small holds calm e now⟩
  exact both.2.once pa

theorem repeated_kept_out :
    (Lts.run Mailbox.step quiet.start repeatedHeartbeat).heartbeats ⟨2, 1, 1⟩ ≤ 1 :=
  heartbeats_once quiet repeatedHeartbeat (by decide +kernel) ⟨2, 1, 1⟩

/- Two HEARTBEAT headers without an address. What lies behind them in memory differs while
the second one is scanned, and not afterwards. -/

def bareHeartbeat : Bytes := frame .heartbeat ⟨[], by decide⟩

def bareHeartbeats : List Event :=
  [.arrive bareHeartbeat, .mailbox (fun _ => 1), .mailbox zeroes, .mailbox zeroes,
    .mailbox zeroes,
    .arrive bareHeartbeat, .mailbox zeroes, .mailbox zeroes, .mailbox zeroes, .mailbox zeroes,
    .others fun _ => zeroes]

theorem bare_heartbeats_flood :
    ¬ ∀ pa, (Lts.run Mailbox.step quiet.start bareHeartbeats).heartbeats pa ≤ 1 := by
  intro once
  have flood : ¬ (Lts.run Mailbox.step quiet.start bareHeartbeats).heartbeats ⟨0, 0, 0⟩ ≤ 1 := by
    decide +kernel
  exact flood (once _)

end DPS2.Tracker
