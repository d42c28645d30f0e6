import DPS2.Tracker.Mailbox

/-! Which messages the tracker drops. The flag found is only reset for a HEARTBEAT, so a
message of another type that follows a duplicate is taken for one. -/
namespace DPS2.Tracker

open P2P Codec

/-- What an observer notes: the messages that passed both checks, those that were put into
the queue, and those that may be discarded, because at its scan a HEARTBEAT had the same
address as one in the queue, or because the queue was full when it was to be enqueued. -/
structure Log where
  accepted : List Pointer
  enqueued : List Pointer
  excused : List Pointer

structure Observed where
  tracker : Mailbox
  log : Log

/-- The observer sees the state before the step and the entries it adds to the queue. -/
def Log.note (log : Log) (s t : Mailbox) : Event → Log
  | .mailbox _ =>
      { accepted := log.accepted ++ List.range' s.next (t.next - s.next)
        enqueued := log.enqueued ++ t.queue.items.drop s.queue.items.length
        excused := log.excused ++ match s.control with
          | .scanning item =>
              if typeAt s.header = MessageType.heartbeat.code ∧
                s.queue.items.any (s.sameHeartbeat item) then [item] else []
          | .pushing item =>
              if s.queue.items.length = s.queue.maxSize then [item] else []
          | _ => [] }
  | _ => log

def observe (o : Observed) (e : Event) : Observed :=
  ⟨o.tracker.step e, o.log.note o.tracker (o.tracker.step e) e⟩

def Fresh.observed (f : Fresh) : Observed := ⟨f.start, ⟨[], [], []⟩⟩

/-- Every message that has been dealt with and has no excuse was enqueued exactly once. -/
def Fair (o : Observed) : Prop :=
  ∀ item ∈ o.log.accepted, o.tracker.control.item ≠ some item → item ∉ o.log.excused →
    o.log.enqueued.count item = 1

instance (o : Observed) : Decidable (Fair o) := by
  unfold Fair
  infer_instance

/-- A message that is no HEARTBEAT is not pushed while the flag of an earlier one is set,
unless the queue is full. -/
def Unflagged (o : Observed) : Event → Prop
  | .mailbox _ =>
      ∀ item, o.tracker.control = .pushing item →
        typeAt o.tracker.header ≠ MessageType.heartbeat.code → o.tracker.found = true →
          o.tracker.queue.items.length = o.tracker.queue.maxSize
  | _ => True

/- What one step does to the log. -/

inductive Noted (o : Observed) (e : Event) (t : Observed) : Prop where
  | elsewhere (log : t.log = o.log) (next : t.tracker.next = o.tracker.next)
      (control : t.tracker.control = o.tracker.control)
      (header : t.tracker.header = o.tracker.header) (found : t.tracker.found = o.tracker.found)
      (free : Unflagged o e)
  | rejected (log : t.log = o.log) (next : t.tracker.next = o.tracker.next)
      (before : o.tracker.control.item = none) (after : t.tracker.control.item = none)
  | accepted (log : t.log = { o.log with accepted := o.log.accepted ++ [o.tracker.next] })
      (next : t.tracker.next = o.tracker.next + 1) (before : o.tracker.control.item = none)
      (after : t.tracker.control =
        if typeAt t.tracker.header = MessageType.heartbeat.code then .scanning o.tracker.next
        else .pushing o.tracker.next)
  | scanned (item : Pointer) (before : o.tracker.control = .scanning item)
      (log : t.log = { o.log with
        excused := o.log.excused ++ if t.tracker.found then [item] else [] })
      (next : t.tracker.next = o.tracker.next) (after : t.tracker.control = .pushing item)
      (header : t.tracker.header = o.tracker.header)
  | pushed (item : Pointer) (before : o.tracker.control = .pushing item)
      (log : t.log = { o.log with excused := o.log.excused ++
        if o.tracker.queue.items.length = o.tracker.queue.maxSize then [item] else [] })
      (next : t.tracker.next = o.tracker.next)
      (after : t.tracker.control = if o.tracker.found then .receiving
        else if o.tracker.queue.items.length = o.tracker.queue.maxSize then .receiving
        else .enqueueing item)
      (free : Unflagged o e ↔ (typeAt o.tracker.header ≠ MessageType.heartbeat.code →
        o.tracker.found = true → o.tracker.queue.items.length = o.tracker.queue.maxSize))
  | enqueued (item : Pointer) (before : o.tracker.control = .enqueueing item)
      (log : t.log = { o.log with enqueued := o.log.enqueued ++ [item] })
      (next : t.tracker.next = o.tracker.next) (after : t.tracker.control = .receiving)

section Noted

variable {capacity : Nat} {o : Observed}

theorem note_unchanged (log : Log) {s t : Mailbox} (queue : t.queue = s.queue)
    (next : t.next = s.next) (idle : s.control.item = none) (garbage : Memory) :
    log.note s t (.mailbox garbage) = log := by
  unfold Log.note
  rw [queue, next]
  cases control : s.control with
  | receiving => simp
  | crashed => simp
  | scanning item => rw [control] at idle; cases idle
  | pushing item => rw [control] at idle; cases idle
  | enqueueing item => rw [control] at idle; cases idle

theorem noted_receive (free : o.tracker.control = .receiving) (garbage : Memory) :
    Noted o (.mailbox garbage) (observe o (.mailbox garbage)) := by
  have before : o.tracker.control.item = none := by rw [free]; rfl
  have step : o.tracker.step (.mailbox garbage) = handleReceive o.tracker garbage := by
    change handleMailbox o.tracker garbage = _
    unfold handleMailbox
    rw [free]
  unfold observe
  rw [step]
  rcases receive_cases o.tracker garbage with
    ⟨queue, heap, next, _, control⟩ | ⟨header, message, sock, _, accepted⟩
  · refine .rejected (note_unchanged o.log queue next before garbage) next before ?_
    rcases control with same | crashed
    · change (handleReceive o.tracker garbage).control.item = none
      rw [same, before]
    · change (handleReceive o.tracker garbage).control.item = none
      rw [crashed]
      rfl
  · rw [accepted]
    refine .accepted ?_ rfl before rfl
    simp [Log.note, Mailbox.malloc, free]

theorem noted (small : capacity < 2 ^ 63) (h : o.tracker.Holds capacity) (e : Event) :
    Noted o e (observe o e) := by
  obtain ⟨f, stores⟩ := h.stores
  cases e with
  | arrive datagram => exact .elsewhere rfl rfl rfl rfl rfl trivial
  | requests => exact .elsewhere rfl rfl rfl rfl rfl trivial
  | others behind => exact .elsewhere rfl rfl rfl rfl rfl trivial
  | mailbox garbage =>
    cases control : o.tracker.control with
    | receiving => exact noted_receive control garbage
    | crashed =>
      have step : o.tracker.step (.mailbox garbage) = o.tracker := by
        change handleMailbox o.tracker garbage = _
        unfold handleMailbox
        rw [control]
      have before : o.tracker.control.item = none := by rw [control]; rfl
      refine .rejected ?_ ?_ before ?_
      · exact (congrArg (o.log.note o.tracker · (.mailbox garbage)) step).trans
          (note_unchanged o.log rfl rfl before garbage)
      · exact congrArg Mailbox.next step
      · exact (congrArg (fun s => s.control.item) step).trans before
    | scanning item =>
      have step : o.tracker.step (.mailbox garbage) =
          { o.tracker with found := handleScan o.tracker item, control := .pushing item } := by
        change handleMailbox o.tracker garbage = _
        unfold handleMailbox
        rw [control]
      unfold observe
      rw [step]
      refine .scanned item control ?_ rfl rfl rfl
      simp [Log.note, control, h.scanned item control, scan_eq small h]
    | pushing item =>
      have full : queueIsFull o.tracker.queue =
          decide (o.tracker.queue.items.length = o.tracker.queue.maxSize) := by
        rw [queueIsFull, items_eq stores, stores.size, beq_eq_decide]
      have step : o.tracker.step (.mailbox garbage) =
          { o.tracker with control := if o.tracker.found then .receiving
              else if o.tracker.queue.items.length = o.tracker.queue.maxSize then .receiving
              else .enqueueing item } := by
        change handleMailbox o.tracker garbage = _
        unfold handleMailbox
        rw [control]
        simp only [full, decide_eq_true_eq]
        split
        · rfl
        · split <;> rfl
      unfold observe
      rw [step]
      refine .pushed item control ?_ rfl rfl ?_
      · simp [Log.note, control]
      · constructor
        · exact fun free => free item control
        · rintro free _ same
          cases control.symm.trans same
          exact free
    | enqueueing item =>
      have items := items_enqueue small stores (h.room item control) item
      have step : o.tracker.step (.mailbox garbage) = { o.tracker with
          queue := (queueEnqueue o.tracker.queue item).1, control := .receiving } := by
        change handleMailbox o.tracker garbage = _
        unfold handleMailbox
        rw [control]
      unfold observe
      rw [step]
      refine .enqueued item control ?_ rfl rfl
      simp [Log.note, control, items]

end Noted

/- The log of a run. -/

structure Observed.Holds (capacity : Nat) (o : Observed) : Prop where
  tracker : o.tracker.Holds capacity
  fresh : ∀ item, item ∈ o.log.enqueued ∨ item ∈ o.log.excused → item < o.tracker.next
  accepted : ∀ item, o.tracker.control.item = some item → item ∈ o.log.accepted
  once : ∀ item, o.tracker.control.item = some item → item ∉ o.log.enqueued
  unscanned : ∀ item, o.tracker.control = .scanning item → item ∉ o.log.excused
  scanned : ∀ item, o.tracker.control = .pushing item → (item ∈ o.log.excused ↔
    typeAt o.tracker.header = MessageType.heartbeat.code ∧ o.tracker.found = true)

section Run

variable {capacity : Nat} {o : Observed}

theorem Observed.Holds.idle (tracker : o.tracker.Holds capacity)
    (fresh : ∀ item, item ∈ o.log.enqueued ∨ item ∈ o.log.excused → item < o.tracker.next)
    (idle : o.tracker.control.item = none) : o.Holds capacity := by
  refine ⟨tracker, fresh, ?_, ?_, ?_, ?_⟩
  · intro item busy
    rw [idle] at busy
    cases busy
  · intro item busy
    rw [idle] at busy
    cases busy
  · intro item busy
    rw [busy] at idle
    cases idle
  · intro item busy
    rw [busy] at idle
    cases idle

/-- A step on the message in hand adds nothing to the log but this message. -/
theorem Observed.Holds.fresh_after {t : Observed} {item : Pointer} (h : o.Holds capacity)
    (busy : o.tracker.control.item = some item) (next : t.tracker.next = o.tracker.next)
    (enqueued : ∀ p ∈ t.log.enqueued, p ∈ o.log.enqueued ∨ p = item)
    (excused : ∀ p ∈ t.log.excused, p ∈ o.log.excused ∨ p = item) (p : Pointer)
    (seen : p ∈ t.log.enqueued ∨ p ∈ t.log.excused) : p < t.tracker.next := by
  have current : item < o.tracker.next := h.tracker.current item busy
  rw [next]
  rcases seen with queued | passed
  · rcases enqueued p queued with earlier | rfl
    · exact h.fresh p (Or.inl earlier)
    · exact current
  · rcases excused p passed with earlier | rfl
    · exact h.fresh p (Or.inr earlier)
    · exact current

theorem mem_excuse {c : Prop} [Decidable c] {old : List Pointer} {item p : Pointer}
    (seen : p ∈ old ++ if c then [item] else []) : p ∈ old ∨ p = item := by
  refine (List.mem_append.mp seen).imp_right fun added => ?_
  split at added
  · exact List.mem_singleton.mp added
  · cases added

/-- The message in hand stays in hand: what is left to show is whether it has an excuse. -/
theorem Observed.Holds.goes_on {t : Observed} {item : Pointer} (h : o.Holds capacity)
    (tracker : t.tracker.Holds capacity) (busy : o.tracker.control.item = some item)
    (busy' : t.tracker.control.item = some item) (next : t.tracker.next = o.tracker.next)
    (accepted : t.log.accepted = o.log.accepted) (enqueued : t.log.enqueued = o.log.enqueued)
    (excused : ∀ p ∈ t.log.excused, p ∈ o.log.excused ∨ p = item)
    (unscanned : ∀ p, t.tracker.control = .scanning p → p ∉ t.log.excused)
    (scanned : ∀ p, t.tracker.control = .pushing p → (p ∈ t.log.excused ↔
      typeAt t.tracker.header = MessageType.heartbeat.code ∧ t.tracker.found = true)) :
    t.Holds capacity := by
  refine ⟨tracker, ?_, ?_, ?_, unscanned, scanned⟩
  · apply h.fresh_after busy next _ excused
    rw [enqueued]
    exact fun p queued => Or.inl queued
  · rw [accepted, busy', ← busy]
    exact h.accepted
  · rw [enqueued, busy', ← busy]
    exact h.once

/-- A message that was just accepted is not in the log of the others. -/
theorem Observed.Holds.taken {t : Observed} (h : o.Holds capacity)
    (tracker : t.tracker.Holds capacity)
    (log : t.log = { o.log with accepted := o.log.accepted ++ [o.tracker.next] })
    (next : t.tracker.next = o.tracker.next + 1)
    (after : t.tracker.control =
      if typeAt t.tracker.header = MessageType.heartbeat.code then .scanning o.tracker.next
      else .pushing o.tracker.next) : t.Holds capacity := by
  have item : t.tracker.control.item = some o.tracker.next := by
    rw [after]
    split <;> rfl
  have unseen : ∀ p, t.tracker.control.item = some p →
      ¬ (p ∈ o.log.enqueued ∨ p ∈ o.log.excused) := by
    rintro p same seen
    rw [item] at same
    cases same
    exact Nat.lt_irrefl _ (h.fresh _ seen)
  refine ⟨tracker, ?_, ?_, ?_, ?_, ?_⟩
  · rw [log, next]
    exact fun p seen => Nat.lt_succ_of_lt (h.fresh p seen)
  · intro p same
    rw [item] at same
    cases same
    rw [log]
    exact List.mem_append_right _ (List.mem_singleton_self _)
  · intro p same
    rw [log]
    exact fun seen => unseen p same (Or.inl seen)
  · intro p same
    rw [log]
    exact fun seen => unseen p (by rw [same]; rfl) (Or.inr seen)
  · intro p same
    rw [log]
    constructor
    · exact fun seen => absurd (Or.inr seen) (unseen p (by rw [same]; rfl))
    · rintro ⟨heartbeat, _⟩
      rw [after, if_pos heartbeat] at same
      cases same

theorem observe_holds (small : capacity < 2 ^ 63) (h : o.Holds capacity) (e : Event) :
    (observe o e).Holds capacity := by
  have tracker : (observe o e).tracker.Holds capacity := holds_step small h.tracker e
  have step := noted small h.tracker e
  generalize observe o e = t at tracker step
  cases step with
  | elsewhere log next control header found _ =>
    refine ⟨tracker, ?_, ?_, ?_, ?_, ?_⟩
    · rw [log, next]
      exact h.fresh
    · rw [log, control]
      exact h.accepted
    · rw [log, control]
      exact h.once
    · rw [log, control]
      exact h.unscanned
    · rw [log, control, header, found]
      exact h.scanned
  | rejected log next before after =>
    refine .idle tracker ?_ after
    rw [log, next]
    exact h.fresh
  | accepted log next before after => exact h.taken tracker log next after
  | scanned item before log next after header =>
    have busy : o.tracker.control.item = some item := by rw [before]; rfl
    have busy' : t.tracker.control.item = some item := by rw [after]; rfl
    have fresh : item ∉ o.log.excused := h.unscanned item before
    apply h.goes_on tracker busy busy' next
    · rw [log]
    · rw [log]
    · rw [log]
      exact fun p excused => mem_excuse excused
    · intro p other
      rw [after] at other
      cases other
    · intro p same
      rw [after] at same
      cases same
      rw [log, header, h.tracker.scanned item before]
      cases t.tracker.found <;> simp [fresh]
  | pushed item before log next after _ =>
    have busy : o.tracker.control.item = some item := by rw [before]; rfl
    have excused : ∀ p ∈ t.log.excused, p ∈ o.log.excused ∨ p = item := by
      rw [log]
      exact fun p excused => mem_excuse excused
    have fresh : ∀ p, p ∈ t.log.enqueued ∨ p ∈ t.log.excused → p < t.tracker.next := by
      apply h.fresh_after busy next _ excused
      rw [log]
      exact fun p queued => Or.inl queued
    split at after
    · exact .idle tracker fresh (by rw [after]; rfl)
    · split at after
      · exact .idle tracker fresh (by rw [after]; rfl)
      · apply h.goes_on tracker busy (by rw [after]; rfl) next (by rw [log]) (by rw [log]) excused
        · intro p other
          rw [after] at other
          cases other
        · intro p other
          rw [after] at other
          cases other
  | enqueued item before log next after =>
    have busy : o.tracker.control.item = some item := by rw [before]; rfl
    refine .idle tracker (h.fresh_after busy next ?_ ?_) (by rw [after]; rfl)
    · rw [log]
      intro p queued
      exact (List.mem_append.mp queued).imp_right List.mem_singleton.mp
    · rw [log]
      exact fun p excused => Or.inl excused

theorem observed_start (f : Fresh) : f.observed.Holds f.maxSize :=
  .idle (holds_start f) (by rintro p (⟨⟨⟩⟩ | ⟨⟨⟩⟩)) rfl

theorem unflagged (e : Event) (elsewhere : ∀ item, o.tracker.control ≠ .pushing item) :
    Unflagged o e := by
  cases e with
  | mailbox garbage => exact fun item pushing => absurd pushing (elsewhere item)
  | arrive datagram => trivial
  | requests => trivial
  | others behind => trivial

theorem Fair.earlier (fair : Fair o) {item p : Pointer} (busy : o.tracker.control.item = some item)
    (accepted : p ∈ o.log.accepted) (other : p ≠ item) (plain : p ∉ o.log.excused) :
    o.log.enqueued.count p = 1 := by
  refine fair p accepted ?_ plain
  rw [busy]
  exact fun same => other (Option.some.inj same).symm

theorem fair_pushed {t : Observed} {item : Pointer} (h : o.Holds capacity) (fair : Fair o)
    (before : o.tracker.control = .pushing item)
    (log : t.log = { o.log with excused := o.log.excused ++
      if o.tracker.queue.items.length = o.tracker.queue.maxSize then [item] else [] })
    (after : t.tracker.control = if o.tracker.found then .receiving
      else if o.tracker.queue.items.length = o.tracker.queue.maxSize then .receiving
      else .enqueueing item) :
    Fair t ↔ (typeAt o.tracker.header ≠ MessageType.heartbeat.code → o.tracker.found = true →
      o.tracker.queue.items.length = o.tracker.queue.maxSize) := by
  have busy : o.tracker.control.item = some item := by rw [before]; rfl
  constructor
  · intro now other found
    rw [if_pos found] at after
    by_contra room
    have plain : item ∉ t.log.excused := by
      rw [log, if_neg room, List.append_nil, h.scanned item before]
      exact fun heartbeat => other heartbeat.1
    have once := now item (by rw [log]; exact h.accepted item busy)
      (by rw [after]; exact nofun) plain
    rw [log, List.count_eq_zero.mpr (h.once item busy)] at once
    cases once
  · intro excuse p accepted idle plain
    rw [log] at accepted plain ⊢
    rw [List.mem_append, not_or] at plain
    by_cases same : p = item
    · subst same
      by_cases full : o.tracker.queue.items.length = o.tracker.queue.maxSize
      · rw [if_pos full] at plain
        exact absurd (List.mem_singleton_self _) plain.2
      · cases found : o.tracker.found with
        | false =>
          rw [found, if_neg Bool.false_ne_true, if_neg full] at after
          exact absurd (by rw [after]; rfl) idle
        | true =>
          have heartbeat : typeAt o.tracker.header = MessageType.heartbeat.code := by
            by_contra other
            exact full (excuse other found)
          exact absurd ((h.scanned p before).mpr ⟨heartbeat, found⟩) plain.1
    · exact fair.earlier busy accepted same plain.1

/-- A step keeps the account right exactly when it does not push a message of another type
under the flag of a HEARTBEAT. -/
theorem fair_observe (small : capacity < 2 ^ 63) (h : o.Holds capacity) (e : Event)
    (fair : Fair o) : Fair (observe o e) ↔ Unflagged o e := by
  have step := noted small h.tracker e
  generalize observe o e = t at step
  cases step with
  | elsewhere log next control header found free =>
    refine iff_of_true ?_ free
    unfold Fair
    rw [log, control]
    exact fair
  | rejected log next before after =>
    refine iff_of_true ?_ (unflagged e fun item pushing => by rw [pushing] at before; cases before)
    intro p accepted _ plain
    rw [log] at accepted plain ⊢
    exact fair p accepted (by rw [before]; exact nofun) plain
  | accepted log next before after =>
    refine iff_of_true ?_ (unflagged e fun item pushing => by rw [pushing] at before; cases before)
    intro p accepted idle plain
    rw [log] at accepted plain ⊢
    rcases List.mem_append.mp accepted with older | new
    · exact fair p older (by rw [before]; exact nofun) plain
    · have busy : t.tracker.control.item = some p := by
        rw [after, List.mem_singleton.mp new]
        split <;> rfl
      exact absurd busy idle
  | scanned item before log next after header =>
    have busy : o.tracker.control.item = some item := by rw [before]; rfl
    refine iff_of_true ?_ (unflagged e fun p pushing => by rw [pushing] at before; cases before)
    intro p accepted idle plain
    rw [log] at accepted plain ⊢
    rw [List.mem_append, not_or] at plain
    refine fair.earlier busy accepted ?_ plain.1
    rintro rfl
    exact idle (by rw [after]; rfl)
  | pushed item before log next after free =>
    exact (fair_pushed h fair before log after).trans free.symm
  | enqueued item before log next after =>
    have busy : o.tracker.control.item = some item := by rw [before]; rfl
    refine iff_of_true ?_ (unflagged e fun p pushing => by rw [pushing] at before; cases before)
    intro p accepted _ plain
    rw [log] at accepted plain ⊢
    by_cases same : p = item
    · subst same
      rw [List.count_append, List.count_eq_zero.mpr (h.once p busy), List.count_singleton_self]
    · have earlier := fair.earlier busy accepted same plain
      rw [List.count_append, earlier, List.count_singleton, if_neg (by simpa using Ne.symm same)]

end Run

/-- In every run, the account is right in every state exactly when no message of another
type is pushed into a queue with room under the flag of an earlier HEARTBEAT. -/
theorem messages_dropped_iff (f : Fresh) (events : List Event) :
    (∀ n, Fair (Lts.run observe f.observed (events.take n))) ↔
      Lts.Throughout observe Unflagged f.observed events :=
  Lts.always_iff (fun _ e h => observe_holds f.small h e)
    (fun _ e h fair => fair_observe f.small h e fair) (observed_start f) (by rintro p ⟨⟩) events

/- A HEARTBEAT that is repeated, and then an ACKNOWLEDGENETINFO of another peer. -/

def zeroes : Memory := fun _ => 0

def quiet : Fresh := ⟨zeroes, false, fun _ => ⟨zeroes, 0⟩, fun _ => none, 20, by decide⟩

def repeatedHeartbeat : List Event :=
  [.arrive (initPeerAddressHeader ⟨2, 1, 1⟩ .heartbeat), .mailbox zeroes, .mailbox zeroes,
    .mailbox zeroes, .mailbox zeroes,
    .arrive (initPeerAddressHeader ⟨2, 1, 1⟩ .heartbeat), .mailbox zeroes, .mailbox zeroes,
    .mailbox zeroes,
    .arrive (initPeerAddressHeader ⟨2, 2, 2⟩ .acknowledgeNetinfo), .mailbox zeroes,
    .mailbox zeroes]

theorem acknowledge_dropped :
    ¬ ∀ n, Fair (Lts.run observe quiet.observed (repeatedHeartbeat.take n)) := by
  intro fair
  have dropped : ¬ Fair (Lts.run observe quiet.observed (repeatedHeartbeat.take 12)) := by
    decide +kernel
  exact dropped (fair 12)

end DPS2.Tracker
