import DPS2.Tracker.Replies

/-! How peers register: the thread tracker_communication of each peer and the handlers of the
tracker, which run side by side. Datagrams are lost, duplicated and reordered. The times at which
rows were written are history that no step reads. -/
namespace DPS2.Tracker

open P2P

def heartbeatPeriod : Nat := 5

/-- The variables of a peer that tracker_communication uses, with its counter i. -/
structure Communication where
  ownPa : PeerAddress
  networkInfo : List PeerAddress
  isOnline : Bool
  wasOffline : Bool
  i : Nat

namespace Communication

def isPresent (c : Communication) : Bool :=
  c.networkInfo.any fun pa => cmpPeerAddress pa c.ownPa

/-- What the loop does after receive_netinfo, and the requests it sends. -/
def checkPresence (c : Communication) : Communication × List Request :=
  if c.isPresent then ({ c with isOnline := true }, [])
  else ({ c with isOnline := false, wasOffline := true, i := 0 }, [.acknowledgeNetinfo c.ownPa])

/-- A second ends in which no more data is available. -/
def endSecond (c : Communication) : Communication × List Request :=
  if c.i + 1 < heartbeatPeriod then ({ c with i := c.i + 1 }, [])
  else ({ c with i := 0 }, [.heartbeat c.ownPa])

def shouldRefresh (c : Communication) : Bool × Communication :=
  (c.wasOffline, { c with wasOffline := false })

/-- After init_peer; the first heartbeat is sent as after a whole period. -/
def init (ownPa : PeerAddress) : Communication :=
  ⟨ownPa, [], false, true, heartbeatPeriod - 1⟩

end Communication

/-- What a peer reads from the array of a reply, of which some entries may hold garbage. -/
def received (contents : PeerAddresses) (garbage : Nat → PeerAddress) : List PeerAddress :=
  contents.entries.mapIdx fun i entry => entry.getD (garbage i)

/-- Network information on its way to a peer, with the time of its SELECT. -/
structure Reply (n : Nat) where
  contents : PeerAddresses
  client : Fin n
  time : Int

structure Tracking (n : Nat) where
  peers : Fin n → Communication
  db : PeerTable
  now : Int
  threads : List (Handler × Fin n)
  terminated : Bool
  sent : List (Request × Fin n)
  replies : List (Reply n)
  written : List (PeerAddress × Int)

inductive TrackingEvent (n : Nat) where
  | endSecond (p : Fin n)
  | receive (p : Fin n) (k : Nat) (garbage : Nat → PeerAddress)
  -- a datagram arrives that receive_netinfo rejects
  | reject (p : Fin n)
  | shouldRefresh (p : Fin n)
  -- a request arrives, and handle_requests starts a thread for it
  | accept (k : Nat)
  | statement (k : Nat)
  | tick (seconds : Nat)

/-- The address whose row the next statement writes. -/
def Handler.writes : Handler → Option PeerAddress
  | .acknowledgeInsert pa | .acknowledgeUpdate pa | .heartbeatUpdate pa => some pa
  | _ => none

namespace Tracking

variable {n : Nat}

def move (s : Tracking n) (p : Fin n) (moved : Communication × List Request) : Tracking n :=
  { s with
    peers := Function.update s.peers p moved.1
    sent := s.sent ++ moved.2.map (·, p) }

def execute (s : Tracking n) (k : Nat) (h : Handler) (p : Fin n) : Tracking n :=
  match h.statement s.db s.now with
  | (none, _, _) => { s with terminated := true }
  | (some db, next, reply) =>
      { s with
        db := db
        threads := s.threads.set k (next, p)
        replies := s.replies ++ reply.map fun contents => ⟨contents, p, s.now⟩
        written := s.written ++ (h.writes.map fun pa => (pa, s.now)).toList }

def step (s : Tracking n) : TrackingEvent n → Tracking n
  | .endSecond p => s.move p (s.peers p).endSecond
  | .receive p k garbage =>
      match s.replies[k]? with
      | some reply =>
          if reply.client = p then
            let info := received reply.contents garbage
            s.move p { s.peers p with networkInfo := info }.checkPresence
          else s
      | none => s
  | .reject p => s.move p (s.peers p).checkPresence
  | .shouldRefresh p => s.move p ((s.peers p).shouldRefresh.2, [])
  | .accept k =>
      match s.sent[k]? with
      | some (r, p) => { s with threads := s.threads ++ [(handleRequestThread r, p)] }
      | none => s
  | .statement k =>
      if s.terminated then s
      else match s.threads[k]? with
        | some (h, p) => s.execute k h p
        | none => s
  | .tick seconds => { s with now := s.now + seconds }

def start (ownPa : Fin n → PeerAddress) (now : Int) : Tracking n :=
  ⟨fun p => .init (ownPa p), Keyed.Table.empty, now, [], false, [], [], []⟩

end Tracking

/-- Only what was asked for is inserted, and only rows that exist are updated. -/
def Handler.Justified (asked : PeerAddress → Prop) (db : PeerTable) : Handler → Prop
  | .acknowledgeExists a | .acknowledgeInsert a => asked a
  | .acknowledgeUpdate a | .heartbeatUpdate a => (db.find a).isSome
  | .exitRemove _ => False
  | _ => True

section Statement

variable {asked : PeerAddress → Prop} {db db' : PeerTable} {now : Int} {h next : Handler}
  {reply : List PeerAddresses}

theorem updated_row {a : PeerAddress} (row : (db.find a).isSome) :
    (db.find a).map (fun row => { row with heartbeat := now }) = some ⟨a, now⟩ := by
  obtain ⟨found, hfound⟩ := Option.isSome_iff_exists.mp row
  rw [hfound, Option.map_some, ← (Keyed.Table.find_iff.mp hfound).2]

theorem justified_find (justified : h.Justified asked db)
    (done : h.statement db now = (some db', next, reply)) (a : PeerAddress) :
    db'.find a = if h.writes = some a then some ⟨a, now⟩ else db.find a := by
  cases h with
  | acknowledgeInsert pa =>
    obtain ⟨inserted, _⟩ := Prod.mk.inj done
    rw [Keyed.Table.find_insert inserted]
    by_cases same : pa = a
    · subst same
      simp [Handler.writes]
    · simp [Handler.writes, same, Ne.symm same]
  | acknowledgeUpdate pa | heartbeatUpdate pa =>
    cases done
    rw [dbUpdatePeerHeartbeat, Keyed.Table.find_update]
    by_cases same : pa = a
    · subst same
      rw [if_pos rfl, updated_row justified]
      simp [Handler.writes]
    · simp [Handler.writes, same, Ne.symm same]
  | exitRemove pa => exact justified.elim
  | heartbeatCount | heartbeatSelect | heartbeatExists | acknowledgeExists | finished =>
    cases done
    rfl

/-- Nothing is ever removed. -/
theorem justified_stays (justified : h.Justified asked db)
    (done : h.statement db now = (some db', next, reply)) {a : PeerAddress}
    (row : (db.find a).isSome) : (db'.find a).isSome := by
  rw [justified_find justified done]
  split
  · rfl
  · exact row

theorem Handler.Justified.mono {asked' : PeerAddress → Prop} (justified : h.Justified asked db)
    (more : ∀ a, asked a → asked' a) (stays : ∀ a, (db.find a).isSome → (db'.find a).isSome) :
    h.Justified asked' db' := by
  cases h with
  | acknowledgeExists a | acknowledgeInsert a => exact more a justified
  | acknowledgeUpdate a | heartbeatUpdate a => exact stays a justified
  | exitRemove a => exact justified
  | heartbeatCount | heartbeatSelect | heartbeatExists | finished => trivial

theorem next_justified (justified : h.Justified asked db)
    (done : h.statement db now = (some db', next, reply)) : next.Justified asked db' := by
  cases h with
  | acknowledgeExists pa =>
    cases done
    split
    · exact justified
    · rename_i known
      exact (exists_iff pa).mp known
  | heartbeatExists pa =>
    cases done
    split
    · rename_i known
      exact (exists_iff pa).mp known
    · trivial
  | acknowledgeInsert pa =>
    obtain ⟨_, same⟩ := Prod.mk.inj done
    cases same
    trivial
  | exitRemove pa => exact justified.elim
  | heartbeatCount | heartbeatSelect | heartbeatUpdate | acknowledgeUpdate | finished =>
    cases done
    trivial

theorem mem_selectPeers {a : PeerAddress} {timeout : Int} : a ∈ selectPeers db now timeout ↔
    ∃ row, db.find a = some row ∧ now - row.heartbeat < timeout := by
  simp only [selectPeers, Keyed.Table.select, List.mem_map, List.mem_filter, recent,
    decide_eq_true_eq, Keyed.Table.find_iff]
  constructor
  · rintro ⟨row, ⟨inside, young⟩, rfl⟩
    exact ⟨row, ⟨inside, rfl⟩, young⟩
  · rintro ⟨row, ⟨inside, rfl⟩, young⟩
    exact ⟨row, ⟨inside, young⟩, rfl⟩

end Statement

section Invariant

variable {n : Nat}

/-- A peer with this address has asked to be registered. -/
def Tracking.Asked (s : Tracking n) (ownPa : Fin n → PeerAddress) (a : PeerAddress) : Prop :=
  ∃ p, ownPa p = a ∧ (.acknowledgeNetinfo a, p) ∈ s.sent

structure Consistent (ownPa : Fin n → PeerAddress) (s : Tracking n) : Prop where
  own : ∀ p, (s.peers p).ownPa = ownPa p
  online : ∀ p, (s.peers p).isOnline = (s.peers p).isPresent
  informed : ∀ p, (s.peers p).networkInfo = [] ∨ ∃ reply ∈ s.replies, reply.client = p ∧
    ∃ garbage, (s.peers p).networkInfo = received reply.contents garbage
  sent : ∀ d ∈ s.sent, d.1 = .heartbeat (ownPa d.2) ∨ d.1 = .acknowledgeNetinfo (ownPa d.2)
  threads : ∀ t ∈ s.threads, t.1.Justified (s.Asked ownPa) s.db
  rows : ∀ a row, s.db.find a = some row → s.Asked ownPa a ∧ (a, row.heartbeat) ∈ s.written
  written : ∀ w ∈ s.written, w.2 ≤ s.now ∧
    ∃ row, s.db.find w.1 = some row ∧ w.2 ≤ row.heartbeat
  replies : ∀ reply ∈ s.replies, ∀ a ∈ reply.contents.rows, s.Asked ownPa a ∧
    ∃ t, (a, t) ∈ s.written ∧ t ≤ reply.time ∧ reply.time - t < timeoutThreshold

variable {ownPa : Fin n → PeerAddress} {s : Tracking n}

theorem checkPresence_spec (c : Communication) :
    c.checkPresence.1.ownPa = c.ownPa ∧ c.checkPresence.1.networkInfo = c.networkInfo ∧
      c.checkPresence.1.isOnline = c.isPresent ∧
      ∀ r ∈ c.checkPresence.2, r = .acknowledgeNetinfo c.ownPa := by
  unfold Communication.checkPresence
  split
  · rename_i present
    exact ⟨rfl, rfl, present.symm, by simp⟩
  · rename_i absent
    exact ⟨rfl, rfl, (Bool.eq_false_of_not_eq_true absent).symm, by simp⟩

theorem endSecond_spec (c : Communication) :
    c.endSecond.1.ownPa = c.ownPa ∧ c.endSecond.1.networkInfo = c.networkInfo ∧
      c.endSecond.1.isOnline = c.isOnline ∧ ∀ r ∈ c.endSecond.2, r = .heartbeat c.ownPa := by
  unfold Communication.endSecond
  split <;> exact ⟨rfl, rfl, rfl, by simp⟩

theorem asked_mono {s' : Tracking n} (more : s.sent ⊆ s'.sent) {a : PeerAddress}
    (asked : s.Asked ownPa a) : s'.Asked ownPa a := by
  obtain ⟨p, own, sent⟩ := asked
  exact ⟨p, own, more sent⟩

/-- A step of one peer, which may send requests for its own address. -/
theorem consistent_move (c : Consistent ownPa s) {p : Fin n}
    {moved : Communication × List Request} (own : moved.1.ownPa = ownPa p)
    (online : moved.1.isOnline = moved.1.isPresent)
    (informed : moved.1.networkInfo = [] ∨ ∃ reply ∈ s.replies, reply.client = p ∧
      ∃ garbage, moved.1.networkInfo = received reply.contents garbage)
    (requests : ∀ r ∈ moved.2, r = .heartbeat (ownPa p) ∨ r = .acknowledgeNetinfo (ownPa p)) :
    Consistent ownPa (s.move p moved) := by
  have more : s.sent ⊆ (s.move p moved).sent := List.subset_append_left _ _
  have all : ∀ P : Fin n → Communication → Prop, P p moved.1 → (∀ q, P q (s.peers q)) →
      ∀ q, P q ((s.move p moved).peers q) := by
    intro P here others q
    by_cases same : q = p
    · subst same
      simpa [Tracking.move] using here
    · simpa [Tracking.move, Function.update_of_ne same] using others q
  constructor
  · exact all (fun q c => c.ownPa = ownPa q) own c.own
  · exact all (fun q c => c.isOnline = c.isPresent) online c.online
  · exact all (fun q c => c.networkInfo = [] ∨ ∃ reply ∈ s.replies, reply.client = q ∧
      ∃ garbage, c.networkInfo = received reply.contents garbage)
      informed c.informed
  · intro d member
    rcases List.mem_append.mp member with before | new
    · exact c.sent d before
    · obtain ⟨r, request, rfl⟩ := List.mem_map.mp new
      exact requests r request
  · exact fun t member => (c.threads t member).mono (fun _ => asked_mono more) fun _ row => row
  · exact fun a row found => ⟨asked_mono more (c.rows a row found).1, (c.rows a row found).2⟩
  · exact c.written
  · exact fun reply member a listed => ⟨asked_mono more (c.replies reply member a listed).1,
      (c.replies reply member a listed).2⟩

theorem written_asked {asked : PeerAddress → Prop} {db : PeerTable} {h : Handler} {a : PeerAddress}
    (justified : h.Justified asked db) (rows : ∀ a, (db.find a).isSome → asked a)
    (writes : h.writes = some a) : asked a := by
  cases h with
  | acknowledgeInsert pa => cases writes; exact justified
  | acknowledgeUpdate pa | heartbeatUpdate pa => cases writes; exact rows _ justified
  | heartbeatCount | heartbeatSelect | heartbeatExists | acknowledgeExists | exitRemove
  | finished => cases writes

theorem consistent_execute (c : Consistent ownPa s) {k : Nat} {h : Handler} {p : Fin n}
    (thread : s.threads[k]? = some (h, p)) : Consistent ownPa (s.execute k h p) := by
  have justified : h.Justified (s.Asked ownPa) s.db := c.threads _ (List.mem_of_getElem? thread)
  unfold Tracking.execute
  split
  · exact ⟨c.own, c.online, c.informed, c.sent, c.threads, c.rows, c.written, c.replies⟩
  · rename_i db next reply done
    have found := justified_find justified done
    have asks : ∀ a, (s.db.find a).isSome → s.Asked ownPa a := fun a row => by
      obtain ⟨row, hrow⟩ := Option.isSome_iff_exists.mp row
      exact (c.rows a row hrow).1
    refine ⟨c.own, c.online, fun q => ?_, c.sent, fun t member => ?_, fun a row hrow => ?_,
      fun w member => ?_, fun r member a listed => ?_⟩
    · rcases c.informed q with none | ⟨r, member, rest⟩
      · exact Or.inl none
      · exact Or.inr ⟨r, List.mem_append_left _ member, rest⟩
    · rcases List.mem_or_eq_of_mem_set member with old | rfl
      · exact (c.threads t old).mono (fun _ asked => asked) fun _ => justified_stays justified done
      · exact next_justified justified done
    · rw [found] at hrow
      split at hrow
      · rename_i writes
        cases hrow
        refine ⟨written_asked justified asks writes, List.mem_append_right _ ?_⟩
        simp [writes]
      · exact ⟨(c.rows a row hrow).1, List.mem_append_left _ (c.rows a row hrow).2⟩
    · dsimp only
      rw [found]
      rcases List.mem_append.mp member with old | new
      · obtain ⟨past, row, hrow, newer⟩ := c.written w old
        refine ⟨past, ?_⟩
        split
        · exact ⟨_, rfl, past⟩
        · exact ⟨row, hrow, newer⟩
      · obtain ⟨pa, writes, rfl⟩ := Option.map_eq_some_iff.mp (Option.mem_toList.mp new)
        rw [if_pos writes]
        exact ⟨Int.le_refl _, _, rfl, Int.le_refl _⟩
    · rcases List.mem_append.mp member with old | new
      · obtain ⟨asked, t, time, rest⟩ := c.replies r old a listed
        exact ⟨asked, t, List.mem_append_left _ time, rest⟩
      · obtain ⟨contents, sent, rfl⟩ := List.mem_map.mp new
        rcases statement_replies done with ⟨pa, nItems, -, rfl⟩ | ⟨-, rfl⟩
        · rw [List.mem_singleton.mp sent] at listed
          obtain ⟨row, hrow, young⟩ := mem_selectPeers.mp listed
          obtain ⟨asked, time⟩ := c.rows a row hrow
          exact ⟨asked, row.heartbeat, List.mem_append_left _ time, (c.written _ time).1, young⟩
        · cases sent

theorem consistent_step (c : Consistent ownPa s) (e : TrackingEvent n) :
    Consistent ownPa (s.step e) := by
  -- the check after receive_netinfo, for whatever it left in network_info
  have checks : ∀ p info, (info = [] ∨ ∃ reply ∈ s.replies, reply.client = p ∧ ∃ garbage,
      info = received reply.contents garbage) →
      Consistent ownPa (s.move p { s.peers p with networkInfo := info }.checkPresence) := by
    intro p info informed
    obtain ⟨own, kept, online, requests⟩ :=
      checkPresence_spec { s.peers p with networkInfo := info }
    refine consistent_move c (own.trans (c.own p)) ?_ (by rw [kept]; exact informed) ?_
    · rw [online, Communication.isPresent, Communication.isPresent, kept, own]
    · intro r sent
      rw [requests r sent]
      exact Or.inr (congrArg _ (c.own p))
  cases e with
  | endSecond p =>
    obtain ⟨own, kept, online, requests⟩ := endSecond_spec (s.peers p)
    refine consistent_move c (own.trans (c.own p)) ?_ (by rw [kept]; exact c.informed p) ?_
    · rw [online, c.online p, Communication.isPresent, Communication.isPresent, kept, own]
    · intro r sent
      rw [requests r sent]
      exact Or.inl (congrArg _ (c.own p))
  | receive p k garbage =>
    simp only [Tracking.step]
    split
    · rename_i reply arrived
      split
      · rename_i mine
        exact checks p _ (Or.inr ⟨reply, List.mem_of_getElem? arrived, mine, garbage, rfl⟩)
      · exact c
    · exact c
  | reject p => exact checks p (s.peers p).networkInfo (c.informed p)
  | shouldRefresh p =>
    exact consistent_move c (c.own p) (c.online p) (c.informed p) (by simp)
  | accept k =>
    simp only [Tracking.step]
    split
    · rename_i r p sent
      refine ⟨c.own, c.online, c.informed, c.sent, fun t member => ?_, c.rows, c.written,
        c.replies⟩
      rcases List.mem_append.mp member with old | new
      · exact c.threads t old
      · rw [List.mem_singleton.mp new]
        have request := List.mem_of_getElem? sent
        rcases c.sent _ request with heartbeat | acknowledge
        · simp only at heartbeat
          rw [heartbeat]
          trivial
        · simp only at acknowledge
          rw [acknowledge] at request ⊢
          exact ⟨p, rfl, request⟩
    · exact c
  | statement k =>
    simp only [Tracking.step]
    split
    · exact c
    · split
      · rename_i h p thread
        exact consistent_execute c thread
      · exact c
  | tick seconds =>
    refine ⟨c.own, c.online, c.informed, c.sent, c.threads, c.rows, fun w member => ?_,
      c.replies⟩
    obtain ⟨past, rest⟩ := c.written w member
    exact ⟨by simp only [Tracking.step]; omega, rest⟩

theorem start_consistent (ownPa : Fin n → PeerAddress) (now : Int) :
    Consistent ownPa (Tracking.start ownPa now) :=
  ⟨fun _ => rfl, fun _ => rfl, fun _ => Or.inl rfl, by simp [Tracking.start],
    by simp [Tracking.start], by simp [Tracking.start, Keyed.Table.empty, Keyed.Table.find],
    by simp [Tracking.start], by simp [Tracking.start]⟩

theorem consistent_run (ownPa : Fin n → PeerAddress) (now : Int) (es : List (TrackingEvent n)) :
    Consistent ownPa (Lts.run Tracking.step (Tracking.start ownPa now) es) := by
  have preserved : ∀ s e, Consistent ownPa s → Consistent ownPa (Tracking.step s e) :=
    fun _ e h => consistent_step h e
  exact Lts.invariant_always preserved (start_consistent ownPa now) es

/-- Replies and the history of the table are only added to. -/
theorem step_history (s : Tracking n) (e : TrackingEvent n) :
    s.replies <+: (s.step e).replies ∧ s.written <+: (s.step e).written := by
  have same : s.replies <+: s.replies ∧ s.written <+: s.written :=
    ⟨List.prefix_refl _, List.prefix_refl _⟩
  cases e with
  | endSecond p => exact same
  | receive p k garbage =>
    simp only [Tracking.step]
    split
    · split <;> exact same
    · exact same
  | reject p => exact same
  | shouldRefresh p => exact same
  | accept k =>
    simp only [Tracking.step]
    split <;> exact same
  | statement k =>
    simp only [Tracking.step]
    split
    · exact same
    · split
      · unfold Tracking.execute
        split
        · exact same
        · exact ⟨List.prefix_append _ _, List.prefix_append _ _⟩
      · exact same
  | tick seconds => exact same

theorem run_history (s : Tracking n) (es : List (TrackingEvent n)) :
    s.replies <+: (Lts.run Tracking.step s es).replies ∧
      s.written <+: (Lts.run Tracking.step s es).written := by
  induction es generalizing s with
  | nil => exact ⟨List.prefix_refl _, List.prefix_refl _⟩
  | cons e es ih =>
    obtain ⟨replies, written⟩ := step_history s e
    obtain ⟨more, later⟩ := ih (s.step e)
    exact ⟨replies.trans more, written.trans later⟩

theorem isPresent_iff (c : Communication) : c.isPresent = true ↔ c.ownPa ∈ c.networkInfo := by
  simp [Communication.isPresent, cmpPeerAddress_iff]

theorem exact_rows {reply : PeerAddresses} (exactly : reply.Exact)
    (garbage : Nat → PeerAddress) : received reply garbage = reply.rows := by
  rw [received, exactly.2]
  apply List.ext_getElem?
  intro i
  rw [List.getElem?_mapIdx, List.getElem?_map]
  cases reply.rows[i]? <;> rfl

/-- A row that was written less than the threshold ago is selected, for nobody sends EXIT. -/
theorem written_selected (c : Consistent ownPa s) {a : PeerAddress} {t : Int}
    (written : (a, t) ∈ s.written) (young : s.now - t < timeoutThreshold) :
    a ∈ selectPeers s.db s.now timeoutThreshold := by
  obtain ⟨_, row, found, newer⟩ := c.written (a, t) written
  exact mem_selectPeers.mpr ⟨row, found, by simp only at newer; omega⟩

end Invariant

section Run

variable {n : Nat}

/-- A peer whose row has been written comes online with every reply whose SELECT, for the peer and
with the right count, is executed less than the threshold later, and is received at any time. -/
theorem registered_joins (ownPa : Fin n → PeerAddress) (now : Int)
    (es fs gs : List (TrackingEvent n)) (p : Fin n) (t : Int) (k nItems : Nat)
    (pa : PeerAddress) (garbage : Nat → PeerAddress) (s s' : Tracking n)
    (first : s = Lts.run Tracking.step (Tracking.start ownPa now) es)
    (written : (ownPa p, t) ∈ s.written) (second : s' = Lts.run Tracking.step s fs)
    (running : s'.terminated = false) (young : s'.now - t < timeoutThreshold)
    (selects : s'.threads[k]? = some (.heartbeatSelect pa nItems, p))
    (counted : getNumberOfPeers s'.db s'.now timeoutThreshold = nItems) :
    let later := Lts.run Tracking.step (s'.step (.statement k)) gs
    let after := later.step (.receive p s'.replies.length garbage)
    (after.peers p).isOnline = true ∧
      (after.peers p).networkInfo = selectPeers s'.db s'.now timeoutThreshold := by
  intro later after
  have path : s' = Lts.run Tracking.step (Tracking.start ownPa now) (es ++ fs) := by
    rw [Lts.run_append, ← first, ← second]
  have c : Consistent ownPa s' := by
    rw [path]
    exact consistent_run ownPa now (es ++ fs)
  have known : (ownPa p, t) ∈ s'.written := by
    rw [second]
    exact (run_history s fs).2.subset written
  have listed := written_selected c known young
  let contents : PeerAddresses := ⟨nItems, selectPeers s'.db s'.now timeoutThreshold⟩
  have exactly : contents.Exact :=
    (PeerAddresses.exact_iff _).mpr ((List.length_map _).trans counted)
  have sent : (s'.step (.statement k)).replies = s'.replies ++ [⟨contents, p, s'.now⟩] := by
    simp only [Tracking.step, running, selects, Bool.false_eq_true, if_false]
    rfl
  have arrives : later.replies[s'.replies.length]? = some ⟨contents, p, s'.now⟩ := by
    obtain ⟨rest, more⟩ := (run_history (s'.step (.statement k)) gs).1
    rw [show later.replies = _ from more.symm, sent, List.append_assoc,
      List.getElem?_append_right (Nat.le_refl _), Nat.sub_self]
    rfl
  have own : (later.peers p).ownPa = ownPa p := by
    have run : later = Lts.run Tracking.step (Tracking.start ownPa now)
        (es ++ fs ++ (.statement k :: gs)) := by
      rw [Lts.run_append, ← path]
      rfl
    rw [run]
    exact (consistent_run ownPa now _).own p
  have moved : after.peers p = ({ later.peers p with
      networkInfo := contents.rows } : Communication).checkPresence.1 := by
    simp only [after, Tracking.step, arrives, if_true, exact_rows exactly, Tracking.move,
      Function.update_self]
  obtain ⟨-, kept, online, -⟩ :=
    checkPresence_spec { later.peers p with networkInfo := contents.rows }
  rw [moved, online, kept, isPresent_iff, own]
  exact ⟨listed, rfl⟩

/-- The first heartbeat brings an empty reply, the peer asks to be registered, and the reply to the
next heartbeat brings it online. -/
theorem registered_alone :
    let s := Lts.run Tracking.step (Tracking.start (fun _ : Fin 1 => ⟨2, 1, 1⟩) 0)
      [.endSecond 0, .accept 0, .statement 0, .statement 0, .statement 0,
        .receive 0 0 fun _ => ⟨0, 0, 0⟩, .accept 1, .statement 1, .statement 1]
    let s' := Lts.run Tracking.step s
      [.tick 5, .endSecond 0, .endSecond 0, .endSecond 0, .endSecond 0, .endSecond 0, .accept 2,
        .statement 2]
    let after := (s'.step (.statement 2)).step (.receive 0 s'.replies.length fun _ => ⟨0, 0, 0⟩)
    (after.peers 0).isOnline = true ∧
      (after.peers 0).networkInfo = selectPeers s'.db s'.now timeoutThreshold :=
  registered_joins (fun _ => ⟨2, 1, 1⟩) 0 _ _ [] 0 0 2 1 ⟨2, 1, 1⟩ (fun _ => ⟨0, 0, 0⟩) _ _
    rfl (by decide) rfl (by decide) (by decide) (by decide) (by decide)

end Run

end DPS2.Tracker
