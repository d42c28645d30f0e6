import DPS2.Lts.Run
import DPS2.Tracker.Membership

/-! The threads that handle requests side by side. Every statement is atomic, but between two
statements of one thread the others may run and time may pass. -/
namespace DPS2.Tracker

open P2P

/-- The statement that a thread executes next. -/
inductive Handler where
  | heartbeatCount (pa : PeerAddress)
  | heartbeatSelect (pa : PeerAddress) (nItems : Nat)
  | heartbeatExists (pa : PeerAddress)
  | heartbeatUpdate (pa : PeerAddress)
  | acknowledgeExists (pa : PeerAddress)
  | acknowledgeInsert (pa : PeerAddress)
  | acknowledgeUpdate (pa : PeerAddress)
  | exitRemove (pa : PeerAddress)
  | finished
  deriving DecidableEq

def handleRequestThread : Request → Handler
  | .heartbeat pa => .heartbeatCount pa
  | .acknowledgeNetinfo pa => .acknowledgeExists pa
  | .exit pa => .exitRemove pa

/-- One statement: the table, or none where it fails, what the thread does next, and a reply
that it sends. -/
def Handler.statement (db : PeerTable) (now : Int) :
    Handler → Option PeerTable × Handler × List PeerAddresses
  | .heartbeatCount pa =>
      (some db, .heartbeatSelect pa (getNumberOfPeers db now timeoutThreshold), [])
  | .heartbeatSelect pa nItems =>
      (some db, .heartbeatExists pa, [⟨nItems, selectPeers db now timeoutThreshold⟩])
  | .heartbeatExists pa =>
      (some db, if dbPeerExists db pa ≠ 0 then .heartbeatUpdate pa else .finished, [])
  | .heartbeatUpdate pa => (some (dbUpdatePeerHeartbeat db now pa), .finished, [])
  | .acknowledgeExists pa =>
      (some db, if dbPeerExists db pa = 0 then .acknowledgeInsert pa else .acknowledgeUpdate pa, [])
  | .acknowledgeInsert pa => (dbInsertPeer db now pa, .finished, [])
  | .acknowledgeUpdate pa => (some (dbUpdatePeerHeartbeat db now pa), .finished, [])
  | .exitRemove pa => (some (dbRemovePeer db pa), .finished, [])
  | .finished => (some db, .finished, [])

structure Server (n : Nat) where
  db : PeerTable
  now : Int
  threads : Fin n → Handler
  replies : List PeerAddresses
  terminated : Bool

inductive Happening (n : Nat) where
  | statement (i : Fin n)
  | tick (seconds : Nat)

section Server

variable {n : Nat}

def Server.step (s : Server n) : Happening n → Server n
  | .tick seconds => { s with now := s.now + seconds }
  | .statement i =>
      if s.terminated then s
      else match (s.threads i).statement s.db s.now with
        | (none, _, _) => { s with terminated := true }
        | (some db, next, reply) =>
            { s with
              db := db
              threads := Function.update s.threads i next
              replies := s.replies ++ reply }

def Server.start (db : PeerTable) (now : Int) (requests : Fin n → Request) : Server n :=
  ⟨db, now, handleRequestThread ∘ requests, [], false⟩

/- What one statement does. -/

section Statement

variable {db db' : PeerTable} {now : Int} {h next : Handler} {reply : List PeerAddresses}

theorem statement_fails (failed : (h.statement db now).1 = none) :
    ∃ pa, h = .acknowledgeInsert pa ∧ db.find pa ≠ none := by
  cases h with
  | acknowledgeInsert pa =>
    refine ⟨pa, rfl, fun new => ?_⟩
    have inserted : (db.insert (⟨pa, now⟩ : PeerInfo)).isSome := Keyed.Table.insert_iff.mpr new
    rw [show db.insert (⟨pa, now⟩ : PeerInfo) = none from failed] at inserted
    cases inserted
  | heartbeatCount pa => cases failed
  | heartbeatSelect pa nItems => cases failed
  | heartbeatExists pa => cases failed
  | heartbeatUpdate pa => cases failed
  | acknowledgeExists pa => cases failed
  | acknowledgeUpdate pa => cases failed
  | exitRemove pa => cases failed
  | finished => cases failed

theorem find_update_isSome (a pa : PeerAddress) :
    ((dbUpdatePeerHeartbeat db now pa).find a).isSome = (db.find a).isSome := by
  rw [dbUpdatePeerHeartbeat, Keyed.Table.find_update]
  split
  · rename_i same
    rw [same, Option.isSome_map]
  · rfl

theorem statement_find (a : PeerAddress) (done : h.statement db now = (some db', next, reply))
    (insert : h ≠ .acknowledgeInsert a) (remove : h ≠ .exitRemove a) :
    (db'.find a).isSome = (db.find a).isSome := by
  cases h with
  | acknowledgeInsert pa =>
    obtain ⟨inserted, _⟩ := Prod.mk.inj done
    rw [Keyed.Table.find_insert inserted, if_neg]
    rintro rfl
    exact insert rfl
  | exitRemove pa =>
    cases done
    rw [dbRemovePeer, Keyed.Table.find_remove, if_neg]
    rintro rfl
    exact remove rfl
  | heartbeatUpdate pa => cases done; exact find_update_isSome a pa
  | acknowledgeUpdate pa => cases done; exact find_update_isSome a pa
  | heartbeatCount pa => cases done; rfl
  | heartbeatSelect pa nItems => cases done; rfl
  | heartbeatExists pa => cases done; rfl
  | acknowledgeExists pa => cases done; rfl
  | finished => cases done; rfl

theorem statement_next (a : PeerAddress) (done : h.statement db now = (some db', next, reply)) :
    next ≠ .exitRemove a ∧ next ≠ .acknowledgeExists a ∧
      (next = .acknowledgeInsert a → h = .acknowledgeExists a ∧ db'.find a = none) := by
  cases h with
  | acknowledgeExists pa =>
    obtain ⟨same, planned, _⟩ := done
    by_cases known : dbPeerExists db pa = 0
    · rw [if_pos known]
      refine ⟨by rintro ⟨⟩, by rintro ⟨⟩, ?_⟩
      rintro ⟨⟩
      exact ⟨rfl, Option.not_isSome_iff_eq_none.mp fun row => (exists_iff a).mpr row known⟩
    · rw [if_neg known]
      refine ⟨?_, ?_, ?_⟩ <;> rintro ⟨⟩
  | heartbeatExists pa =>
    obtain ⟨same, planned, _⟩ := done
    split <;> refine ⟨?_, ?_, ?_⟩ <;> rintro ⟨⟩
  | acknowledgeInsert pa =>
    obtain ⟨_, same⟩ := Prod.mk.inj done
    cases same
    refine ⟨?_, ?_, ?_⟩ <;> rintro ⟨⟩
  | heartbeatCount | heartbeatSelect | heartbeatUpdate | acknowledgeUpdate | exitRemove
  | finished =>
    cases done
    refine ⟨?_, ?_, ?_⟩ <;> rintro ⟨⟩

end Statement

theorem step_cases (s : Server n) (i : Fin n) (running : s.terminated = false) :
    (((s.threads i).statement s.db s.now).1 = none ∧
      s.step (.statement i) = { s with terminated := true }) ∨
    ∃ db next reply, (s.threads i).statement s.db s.now = (some db, next, reply) ∧
      s.step (.statement i) = { s with
        db := db
        threads := Function.update s.threads i next
        replies := s.replies ++ reply } := by
  rw [Server.step, running]
  simp only [Bool.false_eq_true, if_false]
  generalize (s.threads i).statement s.db s.now = result
  obtain ⟨db, next, reply⟩ := result
  cases db with
  | none => exact Or.inl ⟨rfl, rfl⟩
  | some db => exact Or.inr ⟨db, next, reply, rfl, rfl⟩

theorem step_done {s : Server n} (running : s.terminated = false) {i : Fin n} {db : PeerTable}
    {next : Handler} {reply : List PeerAddresses}
    (done : (s.threads i).statement s.db s.now = (some db, next, reply)) :
    s.step (.statement i) = { s with
      db := db, threads := Function.update s.threads i next, replies := s.replies ++ reply } := by
  rcases step_cases s i running with ⟨failed, _⟩ | ⟨db', next', reply', done', step⟩
  · rw [done] at failed
    cases failed
  · rw [done] at done'
    cases done'
    exact step

/- A thread that runs alone. -/

/-- The server while one thread is at h and nothing else has moved. -/
def Server.at (s : Server n) (i : Fin n) (db : PeerTable) (h : Handler)
    (replies : List PeerAddresses) : Server n :=
  { s with db := db, threads := Function.update s.threads i h, replies := replies }

theorem at_step {s : Server n} (running : s.terminated = false) {i : Fin n} {db db' : PeerTable}
    {h next : Handler} {reply : List PeerAddresses} (replies : List PeerAddresses)
    (done : h.statement db s.now = (some db', next, reply)) :
    (s.at i db h replies).step (.statement i) = s.at i db' next (replies ++ reply) := by
  have here : ((s.at i db h replies).threads i).statement (s.at i db h replies).db
      (s.at i db h replies).now = (some db', next, reply) := by
    change Handler.statement db s.now (Function.update s.threads i h i) = _
    rw [Function.update_self, done]
  rw [step_done (s := s.at i db h replies) running here]
  unfold Server.at
  rw [Function.update_idem]

def Request.replies (db : PeerTable) (now : Int) : Request → List PeerAddresses
  | .heartbeat pa => [(handleHeartbeat db now pa).2]
  | .acknowledgeNetinfo _ | .exit _ => []

/-- Its statements together are the handler as one step. -/
theorem handled_alone {s : Server n} (running : s.terminated = false) {i : Fin n} {r : Request}
    (here : s.threads i = handleRequestThread r) :
    ∃ k db, handleRequest s.db s.now r = some db ∧
      Lts.run Server.step s (List.replicate k (.statement i)) =
        s.at i db .finished (s.replies ++ r.replies s.db s.now) := by
  have start : s.at i s.db (handleRequestThread r) s.replies = s := by
    unfold Server.at
    rw [← here, Function.update_eq_self]
  cases r with
  | exit pa =>
    have removed := @at_step n s running i s.db (dbRemovePeer s.db pa) (.exitRemove pa)
      .finished [] s.replies rfl
    rw [handleRequestThread] at start
    rw [start] at removed
    exact ⟨1, _, rfl, removed⟩
  | acknowledgeNetinfo pa =>
    have checked := @at_step n s running i s.db s.db (.acknowledgeExists pa) _ [] s.replies rfl
    rw [handleRequestThread] at start
    rw [start, List.append_nil] at checked
    obtain ⟨db, handled, _⟩ := @handleRequest_seen s.db (.acknowledgeNetinfo pa, s.now)
    rw [handleRequest, handleAcknowledgeNetinfo] at handled
    refine ⟨2, db, handled, ?_⟩
    simp only [List.replicate, Lts.run, checked]
    split at handled
    · rename_i missing
      have inserted := @at_step n s running i s.db db (.acknowledgeInsert pa) .finished []
        s.replies (congrArg (·, Handler.finished, []) handled)
      rw [if_pos missing, inserted]
      rfl
    · rename_i known
      cases handled
      have updated := @at_step n s running i s.db _ (.acknowledgeUpdate pa) .finished []
        s.replies rfl
      rw [if_neg known, updated]
      rfl
  | heartbeat pa =>
    let reply := dbGetAllPeerAddresses s.db s.now timeoutThreshold
    have counted := @at_step n s running i s.db s.db (.heartbeatCount pa)
      (.heartbeatSelect pa reply.nItems) [] s.replies rfl
    rw [handleRequestThread] at start
    rw [start, List.append_nil] at counted
    have selected := @at_step n s running i s.db s.db (.heartbeatSelect pa reply.nItems)
      (.heartbeatExists pa) [reply] s.replies rfl
    have checked := @at_step n s running i s.db s.db (.heartbeatExists pa) _ []
      (s.replies ++ [reply]) rfl
    rw [List.append_nil] at checked
    by_cases known : dbPeerExists s.db pa ≠ 0
    · have updated := @at_step n s running i s.db _ (.heartbeatUpdate pa) .finished []
        (s.replies ++ [reply]) rfl
      refine ⟨4, _, rfl, ?_⟩
      rw [if_pos known] at checked
      simp only [handleHeartbeat, if_pos known]
      simp only [List.replicate, Lts.run]
      rw [counted, selected, checked, updated, List.append_nil]
      rfl
    · refine ⟨3, _, rfl, ?_⟩
      rw [if_neg known] at checked
      simp only [handleHeartbeat, if_neg known]
      simp only [List.replicate, Lts.run]
      rw [counted, selected, checked]
      rfl

/- When no insertion can fail. -/

/-- The thread has not yet made its insertion of this address. -/
def Handler.registers (a : PeerAddress) (h : Handler) : Prop :=
  h = .acknowledgeExists a ∨ h = .acknowledgeInsert a

/-- One thread may insert the address, and the row is missing when it is about to; or the row
exists and nobody removes it. -/
def Server.Sound (s : Server n) (a : PeerAddress) : Prop :=
  ((∀ i j, (s.threads i).registers a → (s.threads j).registers a → i = j) ∧
    ∀ i, s.threads i = .acknowledgeInsert a → s.db.find a = none) ∨
  ((s.db.find a).isSome ∧ ∀ i, s.threads i ≠ .exitRemove a ∧ s.threads i ≠ .acknowledgeInsert a)

section Sound

variable {s : Server n} {a : PeerAddress}

theorem Server.Sound.missing (h : s.Sound a) {i : Fin n}
    (insert : s.threads i = .acknowledgeInsert a) :
    s.db.find a = none := by
  rcases h with ⟨_, missing⟩ | ⟨_, nobody⟩
  · exact missing i insert
  · exact absurd insert (nobody i).2

theorem sound_statement (h : s.Sound a) {i : Fin n} {db : PeerTable} {next : Handler}
    {reply : List PeerAddresses}
    (done : (s.threads i).statement s.db s.now = (some db, next, reply)) :
    Server.Sound { s with
      db := db, threads := Function.update s.threads i next, replies := s.replies ++ reply } a := by
  obtain ⟨noRemove, noExists, planned⟩ := statement_next a done
  rcases h with ⟨one, missing⟩ | ⟨row, nobody⟩
  · left
    -- the threads that may insert the address were able to before
    have before : ∀ k, (Function.update s.threads i next k).registers a →
        (s.threads k).registers a := by
      intro k registers
      by_cases same : k = i
      · subst same
        rw [Function.update_self] at registers
        rcases registers with exists_ | insert
        · exact absurd exists_ noExists
        · exact Or.inl (planned insert).1
      · rw [Function.update_of_ne same] at registers
        exact registers
    refine ⟨fun j k hj hk => one j k (before j hj) (before k hk), fun k insert => ?_⟩
    change Function.update s.threads i next k = .acknowledgeInsert a at insert
    by_cases same : k = i
    · subst same
      rw [Function.update_self] at insert
      exact (planned insert).2
    · rw [Function.update_of_ne same] at insert
      have gone := missing k insert
      have other : s.threads i ≠ .acknowledgeInsert a :=
        fun also => same (one k i (Or.inr insert) (Or.inr also))
      by_cases removes : s.threads i = .exitRemove a
      · rw [removes] at done
        cases done
        rw [dbRemovePeer, Keyed.Table.find_remove, if_pos rfl]
      · rw [← Option.not_isSome_iff_eq_none, statement_find a done other removes, gone]
        exact Bool.false_ne_true
  · right
    refine ⟨?_, fun k => ?_⟩
    · rw [statement_find a done (nobody i).2 (nobody i).1]
      exact row
    · change Function.update s.threads i next k ≠ _ ∧ Function.update s.threads i next k ≠ _
      by_cases same : k = i
      · subst same
        rw [Function.update_self]
        refine ⟨noRemove, fun insert => ?_⟩
        have still := statement_find a done (nobody k).2 (nobody k).1
        rw [(planned insert).2, row] at still
        cases still
      · rw [Function.update_of_ne same]
        exact nobody k

theorem sound_step (h : ∀ a, s.Sound a) (running : s.terminated = false) (e : Happening n) :
    (∀ a, (s.step e).Sound a) ∧ (s.step e).terminated = false := by
  cases e with
  | tick seconds => exact ⟨h, running⟩
  | statement i =>
    rcases step_cases s i running with ⟨failed, _⟩ | ⟨db, next, reply, done, step⟩
    · obtain ⟨pa, insert, present⟩ := statement_fails failed
      exact absurd ((h pa).missing insert) present
    · rw [step]
      exact ⟨fun a => sound_statement (h a) done, running⟩

theorem sound_start (db : PeerTable) (now : Int) (requests : Fin n → Request)
    (h : (∀ i j, requests i = .acknowledgeNetinfo a → requests j = .acknowledgeNetinfo a → i = j) ∨
      (db.find a).isSome ∧ ∀ i, requests i ≠ .exit a) :
    (Server.start db now requests).Sound a := by
  have insert : ∀ i, handleRequestThread (requests i) ≠ .acknowledgeInsert a := by
    intro i
    cases requests i <;> rintro ⟨⟩
  rcases h with one | ⟨row, nobody⟩
  · have asks : ∀ i, (handleRequestThread (requests i)).registers a →
        requests i = .acknowledgeNetinfo a := by
      intro i registers
      rcases registers with exists_ | inserting
      · cases request : requests i with
        | acknowledgeNetinfo pa =>
          rw [request] at exists_
          cases exists_
          rfl
        | heartbeat pa => rw [request] at exists_; cases exists_
        | exit pa => rw [request] at exists_; cases exists_
      · exact absurd inserting (insert i)
    exact Or.inl ⟨fun i j hi hj => one i j (asks i hi) (asks j hj),
      fun i inserting => absurd inserting (insert i)⟩
  · refine Or.inr ⟨row, fun i => ⟨fun removes => ?_, insert i⟩⟩
    change handleRequestThread (requests i) = _ at removes
    cases request : requests i with
    | exit pa =>
      rw [request] at removes
      cases removes
      exact nobody i request
    | heartbeat pa => rw [request] at removes; cases removes
    | acknowledgeNetinfo pa => rw [request] at removes; cases removes

/- When an insertion can fail. -/

theorem step_checks (running : s.terminated = false) (missing : s.db.find a = none) {i : Fin n}
    (here : s.threads i = .acknowledgeExists a) :
    s.step (.statement i) =
      { s with threads := Function.update s.threads i (.acknowledgeInsert a) } := by
  have zero : dbPeerExists s.db a = 0 := by
    by_contra some
    have row := (exists_iff a).mp some
    rw [missing] at row
    cases row
  have done : (s.threads i).statement s.db s.now = (some s.db, .acknowledgeInsert a, []) := by
    rw [here, Handler.statement, if_pos zero]
  rw [step_done running done, List.append_nil]

theorem step_inserts (running : s.terminated = false) (missing : s.db.find a = none) {i : Fin n}
    (here : s.threads i = .acknowledgeInsert a) :
    ∃ db, (db.find a).isSome ∧ s.step (.statement i) =
      { s with db := db, threads := Function.update s.threads i .finished } := by
  have room : (s.db.insert (⟨a, s.now⟩ : PeerInfo)).isSome := Keyed.Table.insert_iff.mpr missing
  obtain ⟨db, inserted⟩ := Option.isSome_iff_exists.mp room
  have done : (s.threads i).statement s.db s.now = (some db, .finished, []) := by
    rw [here, Handler.statement, dbInsertPeer, inserted]
  refine ⟨db, ?_, ?_⟩
  · rw [Keyed.Table.find_insert inserted, if_pos rfl]
    rfl
  · rw [step_done running done, List.append_nil]

theorem step_fails (running : s.terminated = false) (present : (s.db.find a).isSome) {i : Fin n}
    (here : s.threads i = .acknowledgeInsert a) : (s.step (.statement i)).terminated = true := by
  rcases step_cases s i running with ⟨_, step⟩ | ⟨db, next, reply, done, _⟩
  · rw [step]
  · rw [here] at done
    have inserted : s.db.insert (⟨a, s.now⟩ : PeerInfo) = some db := (Prod.mk.inj done).1
    have missing : s.db.find a = none := Keyed.Table.insert_iff.mp (by rw [inserted]; rfl)
    rw [missing] at present
    cases present

theorem step_removes (running : s.terminated = false) {i : Fin n}
    (here : s.threads i = .exitRemove a) :
    s.step (.statement i) = { s with
      db := dbRemovePeer s.db a, threads := Function.update s.threads i .finished } := by
  have done : (s.threads i).statement s.db s.now = (some (dbRemovePeer s.db a), .finished, []) := by
    rw [here, Handler.statement]
  rw [step_done running done, List.append_nil]

theorem race (running : s.terminated = false) (missing : s.db.find a = none) {i j : Fin n}
    (different : i ≠ j) (first : s.threads i = .acknowledgeExists a)
    (second : s.threads j = .acknowledgeExists a) :
    (Lts.run Server.step s [.statement i, .statement j, .statement i, .statement j]).terminated =
      true := by
  -- both threads are about to insert
  let checked : Server n := { s with threads := Function.update s.threads i (.acknowledgeInsert a) }
  have second' : checked.threads j = .acknowledgeExists a := by
    change Function.update s.threads i (.acknowledgeInsert a) j = _
    rw [Function.update_of_ne different.symm, second]
  let ready : Server n := { s with
    threads := Function.update checked.threads j (.acknowledgeInsert a) }
  have first' : ready.threads i = .acknowledgeInsert a := by
    change Function.update checked.threads j (.acknowledgeInsert a) i = _
    rw [Function.update_of_ne different]
    exact Function.update_self _ _ _
  have reached : (s.step (.statement i)).step (.statement j) = ready := by
    rw [step_checks running missing first]
    exact step_checks (s := checked) running missing second'
  obtain ⟨db, present, step⟩ := step_inserts (s := ready) running missing first'
  simp only [Lts.run]
  rw [reached, step]
  refine step_fails (s := { ready with db := db, threads := _ }) running present ?_
  change Function.update ready.threads i _ j = _
  rw [Function.update_of_ne different.symm]
  exact Function.update_self _ _ _

end Sound

/-- No interleaving ends the tracker exactly when for each address at most one thread handles
an ACKNOWLEDGENETINFO from it, or its row exists and no thread handles an EXIT from it. -/
theorem handlers_safe_iff (db : PeerTable) (now : Int) (requests : Fin n → Request) :
    (∀ events, (Lts.run Server.step (Server.start db now requests) events).terminated = false) ↔
      ∀ a, (∀ i j, requests i = .acknowledgeNetinfo a → requests j = .acknowledgeNetinfo a →
        i = j) ∨ (db.find a).isSome ∧ ∀ i, requests i ≠ .exit a := by
  constructor
  · intro safe a
    by_contra unsafe_
    rw [not_or] at unsafe_
    obtain ⟨two, exposed⟩ := unsafe_
    simp only [not_forall] at two
    obtain ⟨i, j, first, second, different⟩ := two
    have asks : ∀ k, requests k = .acknowledgeNetinfo a →
        (Server.start db now requests).threads k = .acknowledgeExists a :=
      fun k request => congrArg handleRequestThread request
    cases found : db.find a with
    | none =>
      have ended := @race _ (Server.start db now requests) a rfl found i j different (asks i first)
        (asks j second)
      rw [safe] at ended
      cases ended
    | some row =>
      have leaves : ∃ k, requests k = .exit a := by
        by_contra nobody
        exact exposed ⟨by rw [found]; rfl, fun k request => nobody ⟨k, request⟩⟩
      obtain ⟨k, request⟩ := leaves
      have removed := @step_removes _ (Server.start db now requests) a rfl k
        (congrArg handleRequestThread request)
      have others : ∀ l, requests l = .acknowledgeNetinfo a →
          Function.update (Server.start db now requests).threads k .finished l =
            .acknowledgeExists a := by
        intro l asking
        rw [Function.update_of_ne, asks l asking]
        rintro rfl
        rw [request] at asking
        cases asking
      have gone : (dbRemovePeer db a).find a = none := by
        rw [dbRemovePeer, Keyed.Table.find_remove, if_pos rfl]
      have ended := @race _ ((Server.start db now requests).step (.statement k)) a
        (by rw [removed]; rfl) (by rw [removed]; exact gone) i j different
        (by rw [removed]; exact others i first) (by rw [removed]; exact others j second)
      have still := safe (.statement k ::
        [.statement i, .statement j, .statement i, .statement j])
      rw [Lts.run, ended] at still
      cases still
  · intro conditions events
    have kept := @Lts.invariant_always _ _ Server.step
      (fun s : Server n => (∀ a, s.Sound a) ∧ s.terminated = false)
      (fun s e h => sound_step h.1 h.2 e) (Server.start db now requests)
      ⟨fun a => sound_start db now requests (conditions a), rfl⟩ events
    exact kept.2

theorem repeated_acknowledge_terminates :
    ¬ ∀ (db : PeerTable) (now : Int) (requests : Fin 2 → Request) (events : List (Happening 2)),
      (Lts.run Server.step (Server.start db now requests) events).terminated = false := by
  intro safe
  have ended : (Lts.run Server.step
      (@Server.start 2 Keyed.Table.empty 0 fun _ => .acknowledgeNetinfo ⟨2, 1, 1⟩)
      [.statement 0, .statement 1, .statement 0, .statement 1]).terminated = true := by decide
  rw [safe] at ended
  cases ended

end Server

end DPS2.Tracker
