import DPS2.Tracker.Handlers

/-! The arrays that answer a HEARTBEAT. They are sized by one statement and filled by a later
one, which evaluates the current time again. -/
namespace DPS2.Tracker

section Replies

variable {n : Nat}

/-- Every reply sent so far holds the rows that were selected and nothing else. -/
def Server.Filled (s : Server n) : Prop := ∀ reply ∈ s.replies, reply.Exact

instance (s : Server n) : Decidable s.Filled := by
  unfold Server.Filled
  infer_instance

/-- A SELECT is executed while as many rows are recent as when its array was sized. -/
def SameNumber (s : Server n) : Happening n → Prop
  | .statement i => s.terminated = false → ∀ pa nItems, s.threads i = .heartbeatSelect pa nItems →
      getNumberOfPeers s.db s.now timeoutThreshold = nItems
  | .tick _ => True

theorem statement_replies {db : PeerTable} {now : Int} {h next : Handler} {db' : Option PeerTable}
    {reply : List PeerAddresses} (done : h.statement db now = (db', next, reply)) :
    (∃ pa nItems, h = .heartbeatSelect pa nItems ∧
      reply = [⟨nItems, selectPeers db now timeoutThreshold⟩]) ∨
    (∀ pa nItems, h ≠ .heartbeatSelect pa nItems) ∧ reply = [] := by
  cases h with
  | heartbeatSelect pa nItems => cases done; exact Or.inl ⟨pa, nItems, rfl, rfl⟩
  | heartbeatCount pa => cases done; exact Or.inr ⟨nofun, rfl⟩
  | heartbeatExists pa => cases done; exact Or.inr ⟨nofun, rfl⟩
  | heartbeatUpdate pa => cases done; exact Or.inr ⟨nofun, rfl⟩
  | acknowledgeExists pa => cases done; exact Or.inr ⟨nofun, rfl⟩
  | acknowledgeInsert pa => cases done; exact Or.inr ⟨nofun, rfl⟩
  | acknowledgeUpdate pa => cases done; exact Or.inr ⟨nofun, rfl⟩
  | exitRemove pa => cases done; exact Or.inr ⟨nofun, rfl⟩
  | finished => cases done; exact Or.inr ⟨nofun, rfl⟩

theorem filled_step (s : Server n) (e : Happening n) (filled : s.Filled) :
    (s.step e).Filled ↔ SameNumber s e := by
  cases e with
  | tick seconds => exact iff_of_true filled trivial
  | statement i =>
    by_cases ended : s.terminated = true
    · refine iff_of_true ?_ fun running => ?_
      · rw [Server.step, if_pos ended]
        exact filled
      · rw [running] at ended
        cases ended
    · have running := Bool.eq_false_of_not_eq_true ended
      rcases step_cases s i running with ⟨failed, step⟩ | ⟨db, next, reply, done, step⟩
      · rw [step]
        refine iff_of_true filled fun _ pa nItems select => ?_
        rw [select] at failed
        cases failed
      · have after : (s.step (.statement i)).replies = s.replies ++ reply := by rw [step]
        unfold Server.Filled
        rw [after]
        rcases statement_replies done with ⟨pa, nItems, select, rfl⟩ | ⟨other, rfl⟩
        · have exact_ := PeerAddresses.exact_iff
            ⟨nItems, selectPeers s.db s.now timeoutThreshold⟩
          have number : (selectPeers s.db s.now timeoutThreshold).length =
            getNumberOfPeers s.db s.now timeoutThreshold := List.length_map _
          rw [number] at exact_
          constructor
          · rintro all _ pa' nItems' select'
            rw [select] at select'
            cases select'
            exact exact_.mp (all _ (List.mem_append_right _ (List.mem_singleton_self _)))
          · intro same sent inside
            rcases List.mem_append.mp inside with older | newest
            · exact filled sent older
            · rw [List.mem_singleton.mp newest]
              exact exact_.mpr (same running pa nItems select)
        · rw [List.append_nil]
          exact iff_of_true filled fun _ pa nItems select => absurd select (other pa nItems)

/-- In every run, all replies are filled exactly when every SELECT finds as many recent rows
as the COUNT before it. -/
theorem replies_filled_iff (db : PeerTable) (now : Int) (requests : Fin n → Request)
    (events : List (Happening n)) :
    (∀ k, (Lts.run Server.step (Server.start db now requests) (events.take k)).Filled) ↔
      Lts.Throughout Server.step SameNumber (Server.start db now requests) events :=
  @Lts.always_iff _ _ _ _ (fun _ => True) _ (fun _ _ h => h)
    (fun s e _ filled => filled_step s e filled) _ trivial
    (fun _ sent => by cases sent) events

theorem registration_overruns :
    ¬ ∀ (events : List (Happening 2)), (Lts.run Server.step
      (Server.start Keyed.Table.empty 0 ![.heartbeat ⟨2, 1, 1⟩, .acknowledgeNetinfo ⟨2, 2, 2⟩])
      events).Filled := by
  intro filled
  have overrun : ¬ (Lts.run Server.step
      (Server.start Keyed.Table.empty 0 ![.heartbeat ⟨2, 1, 1⟩, .acknowledgeNetinfo ⟨2, 2, 2⟩])
      [.statement 0, .statement 1, .statement 1, .statement 0]).Filled := by decide
  exact overrun (filled _)

end Replies

end DPS2.Tracker
