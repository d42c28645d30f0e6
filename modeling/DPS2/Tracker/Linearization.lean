import DPS2.Tracker.Handlers

/-! The handlers are linearizable: however their statements interleave, the table is the one that
the finished requests leave when they are handled one after the other in an order that respects
which of them was through before another began. -/
namespace DPS2.Tracker

open P2P

/-- The thread at this statement handles this request. -/
def Handler.handles (r : Request) : Handler → Prop
  | .heartbeatCount pa | .heartbeatSelect pa _ | .heartbeatExists pa | .heartbeatUpdate pa =>
      r = .heartbeat pa
  | .acknowledgeExists pa | .acknowledgeInsert pa | .acknowledgeUpdate pa =>
      r = .acknowledgeNetinfo pa
  | .exitRemove pa => r = .exit pa
  | .finished => True

section Seen

variable (a pa : PeerAddress) (last : Option Int) (t : Int)

theorem seen_heartbeat :
    seen a last (.heartbeat pa, t) = if a = pa then last.map fun _ => t else last := rfl

theorem seen_acknowledgeNetinfo :
    seen a last (.acknowledgeNetinfo pa, t) = if a = pa then some t else last := rfl

theorem seen_exit : seen a last (.exit pa, t) = if a = pa then none else last := rfl

end Seen

section Statement

variable {db db' : PeerTable} {now : Int} {h next : Handler} {reply : List PeerAddresses}
  {r : Request}

theorem lastSeen_update_missing {pa : PeerAddress} (missing : db.find pa = none)
    (a : PeerAddress) : lastSeen (dbUpdatePeerHeartbeat db now pa) a = lastSeen db a := by
  rw [lastSeen_update]
  split
  · rename_i same
    rw [same, lastSeen, missing]
    rfl
  · rfl

/-- All but the last statement of a thread only read the table. -/
theorem statement_continues (request : h.handles r)
    (done : h.statement db now = (some db', next, reply)) (more : next ≠ .finished) :
    db = db' ∧ next.handles r ∧
      ∀ pa, next = .acknowledgeUpdate pa → (db.find pa).isSome := by
  cases h with
  | heartbeatCount pa => cases done; exact ⟨rfl, request, by rintro _ ⟨⟩⟩
  | heartbeatSelect pa nItems => cases done; exact ⟨rfl, request, by rintro _ ⟨⟩⟩
  | heartbeatExists pa =>
    cases done
    by_cases known : dbPeerExists db pa ≠ 0
    · rw [if_pos known]
      exact ⟨rfl, request, by rintro _ ⟨⟩⟩
    · exact absurd (if_neg known) more
  | acknowledgeExists pa =>
    cases done
    by_cases known : dbPeerExists db pa = 0
    · rw [if_pos known]
      exact ⟨rfl, request, by rintro _ ⟨⟩⟩
    · rw [if_neg known]
      refine ⟨rfl, request, ?_⟩
      rintro _ ⟨⟩
      exact (exists_iff pa).mp known
  | acknowledgeInsert pa => exact absurd (Prod.mk.inj (Prod.mk.inj done).2).1.symm more
  | heartbeatUpdate | acknowledgeUpdate | exitRemove | finished => cases done; exact absurd rfl more

/-- The last statement does to the table what handling the request at once would do, but for an
update that misses its row. -/
theorem statement_ends (request : h.handles r)
    (done : h.statement db now = (some db', .finished, reply)) (busy : h ≠ .finished)
    (row : ∀ pa, h = .acknowledgeUpdate pa → (db.find pa).isSome) (a : PeerAddress) :
    lastSeen db' a = seen a (lastSeen db a) (r, now) := by
  cases h with
  | heartbeatCount | heartbeatSelect => cases done
  | finished => exact absurd rfl busy
  | heartbeatExists pa =>
    obtain ⟨same, rest⟩ := Prod.mk.inj done
    cases same
    cases request
    by_cases known : dbPeerExists db pa ≠ 0
    · rw [if_pos known] at rest
      cases rest
    · rw [exists_iff, Option.not_isSome_iff_eq_none] at known
      rw [seen_heartbeat]
      split
      · rename_i same
        rw [same, lastSeen, known]
        rfl
      · rfl
  | heartbeatUpdate pa =>
    cases done
    cases request
    rw [lastSeen_update, seen_heartbeat]
    split
    · rename_i same
      rw [same]
    · rfl
  | acknowledgeExists pa =>
    obtain ⟨_, rest⟩ := Prod.mk.inj done
    by_cases known : dbPeerExists db pa = 0
    · rw [if_pos known] at rest
      cases rest
    · rw [if_neg known] at rest
      cases rest
  | acknowledgeInsert pa =>
    obtain ⟨inserted, _⟩ := Prod.mk.inj done
    cases request
    rw [lastSeen, Keyed.Table.find_insert inserted, seen_acknowledgeNetinfo]
    split
    · rfl
    · rfl
  | acknowledgeUpdate pa =>
    cases done
    cases request
    obtain ⟨known, found⟩ := Option.isSome_iff_exists.mp (row pa rfl)
    rw [lastSeen_update, seen_acknowledgeNetinfo, lastSeen, found]
    split
    · rfl
    · rfl
  | exitRemove pa =>
    cases done
    cases request
    rw [lastSeen, dbRemovePeer, Keyed.Table.find_remove, seen_exit]
    split
    · rfl
    · rfl

theorem statement_rows (request : h.handles r)
    (done : h.statement db now = (some db', next, reply)) (a : PeerAddress)
    (row : (db.find a).isSome) : (db'.find a).isSome ∨ r = .exit a := by
  by_cases remove : h = .exitRemove a
  · subst remove
    exact Or.inr request
  by_cases insert : h = .acknowledgeInsert a
  · subst insert
    obtain ⟨inserted, _⟩ := Prod.mk.inj done
    rw [Keyed.Table.find_insert inserted]
    exact Or.inl (by rw [if_pos rfl]; rfl)
  · rw [statement_find a done insert remove]
    exact Or.inl row

end Statement

section Serial

variable {n : Nat}

/-- Requests in the order in which they take effect, with the times. -/
def served (requests : Fin n → Request) (order : List (Fin n × Int)) : List (Request × Int) :=
  order.map fun d => (requests d.1, d.2)

/-- At some moment the one thread had finished and the other had not begun. -/
def Precedes (requests : Fin n → Request) (past : List (Server n)) (j i : Fin n) : Prop :=
  ∃ m ∈ past, m.threads j = .finished ∧ m.threads i = handleRequestThread (requests i)

def Outlasted (past : List (Server n)) (j i : Fin n) : Prop :=
  ∃ m ∈ past, m.threads j = .finished ∧ m.threads i ≠ .finished

/-- The threads in this order leave the table as it is, and the order is the one in which they
ran where they did not overlap. An update that has found a row and then misses it was overtaken by
an EXIT. -/
structure Serial (first : PeerTable) (since : Int) (requests : Fin n → Request)
    (past : List (Server n)) (s : Server n) (order : List (Fin n × Int)) : Prop where
  once : (order.map Prod.fst).Nodup
  finished : ∀ i, i ∈ order.map Prod.fst ↔ s.threads i = .finished
  sorted : order.Pairwise fun d e => d.2 ≤ e.2
  begun : since ≤ s.now
  times : ∀ d ∈ order, since ≤ d.2 ∧ d.2 ≤ s.now
  rows : ∀ a, lastSeen s.db a = (served requests order).foldl (seen a) (lastSeen first a)
  handles : ∀ i, (s.threads i).handles (requests i)
  remain : ∀ m ∈ past, ∀ i, m.threads i = .finished → s.threads i = .finished
  precede : ∀ i j, Precedes requests past j i → i ∈ order.map Prod.fst →
    List.Sublist [j, i] (order.map Prod.fst)
  exits : ∀ i j pa, requests i = .exit pa → Outlasted past j i → i ∈ order.map Prod.fst →
    List.Sublist [j, i] (order.map Prod.fst)
  known : ∀ i pa, s.threads i = .acknowledgeUpdate pa → (s.db.find pa).isSome ∨
    ∃ d ∈ order, requests d.1 = .exit pa ∧ ¬ Precedes requests past d.1 i

variable {first : PeerTable} {since : Int} {requests : Fin n → Request} {past : List (Server n)}
  {s s' : Server n} {order order' : List (Fin n × Int)} {i j : Fin n} {next : Handler}
  {db : PeerTable} {replies : List PeerAddresses}

theorem begins_unfinished (r : Request) : handleRequestThread r ≠ .finished := by
  cases r <;> rintro ⟨⟩

theorem precedes_cons (begun : s'.threads i ≠ handleRequestThread (requests i)) :
    Precedes requests (s' :: past) j i ↔ Precedes requests past j i := by
  simp only [Precedes, List.mem_cons, exists_eq_or_imp, begun, and_false, false_or]

theorem outlasted_cons (ended : s'.threads i = .finished) :
    Outlasted (s' :: past) j i ↔ Outlasted past j i := by
  simp only [Outlasted, List.mem_cons, exists_eq_or_imp, ended, ne_eq, not_true_eq_false,
    and_false, false_or]

/-- A step after which the same threads are finished. -/
theorem Serial.stay (h : Serial first since requests past s order) (same : s'.db = s.db)
    (later : s.now ≤ s'.now)
    (finished : ∀ i, s'.threads i = .finished ↔ s.threads i = .finished)
    (handles : ∀ i, (s'.threads i).handles (requests i))
    (known : ∀ i pa, s'.threads i = .acknowledgeUpdate pa →
      s.threads i = .acknowledgeUpdate pa ∨ (s.db.find pa).isSome) :
    Serial first since requests (s' :: past) s' order := by
  have ended : ∀ i, i ∈ order.map Prod.fst → s'.threads i = .finished :=
    fun i inside => (finished i).mpr ((h.finished i).mp inside)
  refine ⟨h.once, fun i => (h.finished i).trans (finished i).symm, h.sorted,
    h.begun.trans later, fun d inside => ?_, fun a => by rw [same, h.rows], handles,
    fun m inside i done => ?_, fun i j earlier inside => ?_,
    fun i j pa request earlier inside => ?_, fun i pa at_ => ?_⟩
  · exact ⟨(h.times d inside).1, (h.times d inside).2.trans later⟩
  · rcases List.mem_cons.mp inside with rfl | inside
    · exact done
    · exact (finished i).mpr (h.remain m inside i done)
  · rw [precedes_cons (fun begins => begins_unfinished _ (begins.symm.trans
      (ended i inside)))] at earlier
    exact h.precede i j earlier inside
  · rw [outlasted_cons (ended i inside)] at earlier
    exact h.exits i j pa request earlier inside
  · rw [same]
    rcases known i pa at_ with before | row
    · rcases h.known i pa before with row | ⟨d, inside, left, notBefore⟩
      · exact Or.inl row
      · refine Or.inr ⟨d, inside, left, ?_⟩
        rw [precedes_cons]
        · exact notBefore
        · rw [at_]
          cases requests i <;> rintro ⟨⟩
    · exact Or.inl row

/-- A statement that neither changes the table nor is the last one of its thread. -/
theorem Serial.advance (h : Serial first since requests past s order)
    (step : s' = { s with threads := Function.update s.threads i next, replies := replies })
    (busy : s.threads i ≠ .finished) (more : next ≠ .finished)
    (handles : next.handles (requests i))
    (known : ∀ pa, next = .acknowledgeUpdate pa → (s.db.find pa).isSome) :
    Serial first since requests (s' :: past) s' order := by
  subst step
  refine h.stay rfl (Int.le_refl _) (fun j => ?_) (fun j => ?_) fun j pa => ?_
  · by_cases same : j = i
    · subst same
      simp only [Function.update_self, more, busy]
    · simp only [Function.update_of_ne same]
  · by_cases same : j = i
    · subst same
      simpa only [Function.update_self] using handles
    · simpa only [Function.update_of_ne same] using h.handles j
  · by_cases same : j = i
    · subst same
      simp only [Function.update_self]
      exact fun at_ => Or.inr (known pa at_)
    · simp only [Function.update_of_ne same]
      exact Or.inl

/-- The last statement of a thread, which takes a place in the order. -/
theorem Serial.finish (h : Serial first since requests past s order)
    (busy : s.threads i ≠ .finished)
    (placed : (order'.map Prod.fst).Perm (i :: order.map Prod.fst)) (more : order.Sublist order')
    (sorted : order'.Pairwise fun d e => d.2 ≤ e.2)
    (times : ∀ d ∈ order', since ≤ d.2 ∧ d.2 ≤ s.now)
    (rows : ∀ a, lastSeen db a = (served requests order').foldl (seen a) (lastSeen first a))
    (precede : ∀ j, Precedes requests past j i → List.Sublist [j, i] (order'.map Prod.fst))
    (exits : ∀ pa, requests i = .exit pa → ∀ j ∈ order.map Prod.fst,
      List.Sublist [j, i] (order'.map Prod.fst))
    (known : ∀ pa, (s.db.find pa).isSome → (db.find pa).isSome ∨ requests i = .exit pa)
    (step : s' =
      { s with db := db, threads := Function.update s.threads i .finished, replies := replies }) :
    Serial first since requests (s' :: past) s' order' := by
  subst step
  have absent : i ∉ order.map Prod.fst := fun inside => busy ((h.finished i).mp inside)
  have member : ∀ j, j ∈ order'.map Prod.fst ↔
      Function.update s.threads i .finished j = .finished := by
    intro j
    rw [placed.mem_iff, List.mem_cons]
    by_cases same : j = i
    · subst same
      simp
    · simp only [Function.update_of_ne same, same, false_or]
      exact h.finished j
  have before : ∀ j, j ∈ order'.map Prod.fst → j ≠ i → j ∈ order.map Prod.fst :=
    fun j inside other => (List.mem_cons.mp (placed.mem_iff.mp inside)).resolve_left other
  have inner := more.map Prod.fst
  refine ⟨?_, member, sorted, h.begun, times, rows, fun j => ?_, fun m inside j done => ?_,
    fun j k earlier inside => ?_, fun j k pa request earlier inside => ?_, fun j pa => ?_⟩
  · exact placed.nodup_iff.mpr (List.nodup_cons.mpr ⟨absent, h.once⟩)
  · by_cases same : j = i
    · subst same
      simp [Handler.handles]
    · simpa only [Function.update_of_ne same] using h.handles j
  · rcases List.mem_cons.mp inside with rfl | inside
    · exact done
    · exact (member j).mp (inner.subset ((h.finished j).mpr (h.remain m inside j done)))
  · rw [precedes_cons (fun begins => begins_unfinished _ (begins.symm.trans
      ((member j).mp inside)))] at earlier
    by_cases same : j = i
    · subst same
      exact precede k earlier
    · exact (h.precede j k earlier (before j inside same)).trans inner
  · rw [outlasted_cons ((member j).mp inside)] at earlier
    by_cases same : j = i
    · subst same
      obtain ⟨m, moment, done, _⟩ := earlier
      exact exits pa request k ((h.finished k).mpr (h.remain m moment k done))
    · exact (h.exits j k pa request earlier (before j inside same)).trans inner
  · by_cases same : j = i
    · subst same
      simp
    · simp only [Function.update_of_ne same]
      intro at_
      have begun : Function.update s.threads i .finished j ≠ handleRequestThread (requests j) := by
        rw [Function.update_of_ne same, at_]
        cases requests j <;> rintro ⟨⟩
      rcases h.known j pa at_ with row | ⟨d, inside, left, notBefore⟩
      · rcases known pa row with row' | left
        · exact Or.inl row'
        · obtain ⟨d, inside, rfl⟩ := List.mem_map.mp (placed.mem_iff.mpr List.mem_cons_self)
          refine Or.inr ⟨d, inside, left, ?_⟩
          rw [precedes_cons begun]
          rintro ⟨m, moment, done, _⟩
          exact busy (h.remain m moment _ done)
      · refine Or.inr ⟨d, more.subset inside, left, ?_⟩
        rw [precedes_cons begun]
        exact notBefore

/-- A thread that ends with what handling its request now would do. -/
theorem Serial.append (h : Serial first since requests past s order)
    (busy : s.threads i ≠ .finished)
    (rows : ∀ a, lastSeen db a = seen a (lastSeen s.db a) (requests i, s.now))
    (known : ∀ pa, (s.db.find pa).isSome → (db.find pa).isSome ∨ requests i = .exit pa)
    (step : s' =
      { s with db := db, threads := Function.update s.threads i .finished, replies := replies }) :
    Serial first since requests (s' :: past) s' (order ++ [(i, s.now)]) := by
  have last : ∀ j ∈ order.map Prod.fst,
      List.Sublist [j, i] ((order ++ [(i, s.now)]).map Prod.fst) := by
    intro j inside
    rw [List.map_append]
    exact (List.singleton_sublist.mpr inside).append (List.Sublist.refl _)
  refine h.finish busy ?_ (List.sublist_append_left _ _) ?_ ?_ (fun a => ?_) (fun j earlier => ?_)
    (fun _ _ => last) known step
  · rw [List.map_append]
    exact List.perm_append_singleton _ _
  · rw [List.pairwise_append]
    exact ⟨h.sorted, List.pairwise_singleton _ _, fun d inside e final => by
      rw [List.mem_singleton.mp final]
      exact (h.times d inside).2⟩
  · rw [List.forall_mem_append, List.forall_mem_singleton]
    exact ⟨h.times, h.begun, Int.le_refl _⟩
  · rw [rows, h.rows, served, served, List.map_append, List.foldl_append]
    rfl
  · obtain ⟨m, moment, done, _⟩ := earlier
    exact last j ((h.finished j).mpr (h.remain m moment j done))

/-- What is registered just before an EXIT is gone. -/
theorem seen_before_exit (a pa : PeerAddress) (last : Option Int) (t : Int) :
    seen a (seen a last (.acknowledgeNetinfo pa, t)) (.exit pa, t) =
      seen a last (.exit pa, t) := by
  unfold seen
  dsimp only
  split <;> rfl

theorem mem_of_sublist_pair {k j : Fin n} {pre post : List (Fin n)}
    (once : (pre ++ j :: post).Nodup) (pair : List.Sublist [k, j] (pre ++ j :: post)) :
    k ∈ pre := by
  obtain ⟨_, rest, apart⟩ := List.nodup_append.mp once
  obtain ⟨fresh, _⟩ := List.nodup_cons.mp rest
  obtain ⟨left, right, split, inPre, inPost⟩ := List.sublist_append_iff.mp pair
  cases left with
  | cons k' left =>
    obtain ⟨rfl, _⟩ := List.cons.inj split
    exact inPre.subset List.mem_cons_self
  | nil =>
    cases split
    cases inPost with
    | cons _ inner => exact absurd (inner.subset (by simp)) fresh
    | cons_cons _ inner => exact absurd (inner.subset (by simp)) fresh

/-- An update that misses its row takes effect just before an EXIT that removed it. -/
theorem Serial.insert (h : Serial first since requests past s order)
    (busy : s.threads i ≠ .finished)
    {pa : PeerAddress} (request : requests i = .acknowledgeNetinfo pa)
    (left : ∃ d ∈ order, requests d.1 = .exit pa ∧ ¬ Precedes requests past d.1 i)
    (same : ∀ a, lastSeen db a = lastSeen s.db a)
    (step : s' =
      { s with db := db, threads := Function.update s.threads i .finished, replies := replies }) :
    ∃ order', Serial first since requests (s' :: past) s' order' := by
  obtain ⟨⟨j, t⟩, inside, exit, notBefore⟩ := left
  obtain ⟨pre, post, rfl⟩ := List.append_of_mem inside
  have sorted := h.sorted
  rw [List.pairwise_append, List.pairwise_cons] at sorted
  obtain ⟨before, ⟨later, after⟩, across⟩ := sorted
  refine ⟨pre ++ (i, t) :: (j, t) :: post, h.finish busy ?_ ?_ ?_ ?_ (fun a => ?_)
    (fun k earlier => ?_) (fun b left => ?_) (fun b row => ?_) step⟩
  · simp only [List.map_append, List.map_cons]
    exact List.perm_middle
  · exact (List.Sublist.refl pre).append (List.sublist_cons_self _ _)
  · rw [List.pairwise_append, List.pairwise_cons, List.pairwise_cons]
    refine ⟨before, ⟨?_, later, after⟩, fun d early e late => ?_⟩
    · intro e late
      rcases List.mem_cons.mp late with rfl | late
      · exact Int.le_refl _
      · exact later e late
    · rcases List.mem_cons.mp late with rfl | late
      · exact across d early (j, t) List.mem_cons_self
      · exact across d early e late
  · intro d member
    rcases List.mem_append.mp member with early | late
    · exact h.times d (List.mem_append_left _ early)
    · rcases List.mem_cons.mp late with rfl | late
      · exact h.times (j, t) inside
      · exact h.times d (List.mem_append_right _ late)
  · rw [same, h.rows]
    simp only [served, List.map_append, List.map_cons, List.foldl_append, List.foldl_cons, request,
      exit, seen_before_exit]
  · -- a thread that was through before this one began was through before the EXIT
    obtain ⟨m, moment, done, waiting⟩ := earlier
    have outlasted : Outlasted past k j :=
      ⟨m, moment, done, fun ended => notBefore ⟨m, moment, ended, waiting⟩⟩
    have pair := h.exits j k pa exit outlasted (List.mem_map_of_mem inside)
    have once := h.once
    rw [List.map_append, List.map_cons] at pair once
    rw [List.map_append, List.map_cons]
    exact (List.singleton_sublist.mpr (mem_of_sublist_pair once pair)).append
      (List.singleton_sublist.mpr List.mem_cons_self)
  · rw [request] at left
    cases left
  · left
    have rows := same b
    rw [lastSeen, lastSeen] at rows
    rw [← Option.isSome_map, rows, Option.isSome_map]
    exact row

theorem serial_statement (h : Serial first since requests past s order) (i : Fin n)
    (running : s.terminated = false) (taken : s.step (.statement i) = s') :
    ∃ order', Serial first since requests (s' :: past) s' order' := by
  rcases step_cases s i running with ⟨_, step⟩ | ⟨db, next, reply, done, step⟩
  · rw [taken] at step
    subst step
    exact ⟨order, h.stay rfl (Int.le_refl _) (fun _ => Iff.rfl) h.handles fun _ _ => Or.inl⟩
  rw [taken] at step
  have request := h.handles i
  by_cases ended : s.threads i = .finished
  · rw [ended] at done
    cases done
    rw [← ended, Function.update_eq_self] at step
    subst step
    exact ⟨order, h.stay rfl (Int.le_refl _) (fun _ => Iff.rfl) h.handles fun _ _ => Or.inl⟩
  by_cases last : next = .finished
  · subst last
    by_cases row : ∀ pa, s.threads i = .acknowledgeUpdate pa → (s.db.find pa).isSome
    · exact ⟨_, h.append ended (statement_ends request done ended row)
        (statement_rows request done) step⟩
    · simp only [not_forall] at row
      obtain ⟨pa, at_, missing⟩ := row
      rw [at_] at done request
      cases done
      exact h.insert ended request ((h.known i pa at_).resolve_left missing)
        (lastSeen_update_missing (Option.not_isSome_iff_eq_none.mp missing)) step
  · obtain ⟨rfl, handles, known⟩ := statement_continues request done last
    exact ⟨order, h.advance step ended last handles known⟩

theorem serial_step (past : List (Server n)) (s : Server n) (e : Happening n)
    (h : ∃ order, Serial first since requests past s order) :
    ∃ order, Serial first since requests (s.step e :: past) (s.step e) order := by
  obtain ⟨order, h⟩ := h
  cases e with
  | tick seconds =>
    have later : s.now ≤ s.now + seconds := by omega
    exact ⟨order, h.stay rfl later (fun _ => Iff.rfl) h.handles fun _ _ => Or.inl⟩
  | statement i =>
    cases running : s.terminated with
    | false => exact serial_statement h i running rfl
    | true =>
      rw [Server.step, if_pos running]
      exact ⟨order, h.stay rfl (Int.le_refl _) (fun _ => Iff.rfl) h.handles fun _ _ => Or.inl⟩

theorem serial_start (db : PeerTable) (now : Int) (requests : Fin n → Request) :
    Serial db now requests [Server.start db now requests] (Server.start db now requests) [] := by
  have begun : ∀ i, (Server.start db now requests).threads i ≠ .finished :=
    fun i => begins_unfinished (requests i)
  have nobody : ∀ i, i ∉ ([] : List (Fin n × Int)).map Prod.fst := fun _ => List.not_mem_nil
  refine ⟨List.nodup_nil, fun i => iff_of_false (nobody i) (begun i), List.Pairwise.nil,
    Int.le_refl _, List.forall_mem_nil _, fun _ => rfl, fun i => ?_, fun m inside i ended => ?_,
    fun i _ _ inside => absurd inside (nobody i), fun i _ _ _ _ inside => absurd inside (nobody i),
    fun i pa at_ => ?_⟩
  · change (handleRequestThread (requests i)).handles (requests i)
    cases requests i <;> rfl
  · rw [List.mem_singleton.mp inside] at ended
    exact ended
  · change handleRequestThread (requests i) = .acknowledgeUpdate pa at at_
    cases request : requests i <;> rw [request] at at_ <;> cases at_

theorem find_eq_of_lastSeen {db db' : PeerTable} {a : PeerAddress}
    (same : lastSeen db a = lastSeen db' a) : db.find a = db'.find a := by
  unfold lastSeen at same
  cases found : db.find a with
  | none =>
    rw [found, Option.map_none] at same
    exact (Option.map_eq_none_iff.mp same.symm).symm
  | some row =>
    rw [found, Option.map_some] at same
    obtain ⟨row', found', heartbeat⟩ := Option.map_eq_some_iff.mp same.symm
    have address : row.pa = row'.pa :=
      (Keyed.Table.find_iff.mp found).2.trans (Keyed.Table.find_iff.mp found').2.symm
    obtain ⟨pa, last⟩ := row
    obtain ⟨pa', last'⟩ := row'
    cases address
    cases heartbeat
    exact found'.symm

/-- At every moment the table is the one that the requests of the threads that have finished
leave when they are handled one after the other, in some order and at times that do not
decrease and lie between the start and now. A thread that had finished before another began
comes first. -/
theorem handlers_linearizable (db : PeerTable) (now : Int) (requests : Fin n → Request)
    (events : List (Happening n)) :
    let s := Lts.run Server.step (Server.start db now requests)
    ∃ order : List (Fin n × Int),
      (order.map Prod.fst).Nodup ∧
      (∀ i, i ∈ order.map Prod.fst ↔ (s events).threads i = .finished) ∧
      (order.Pairwise fun d e => d.2 ≤ e.2) ∧
      (∀ d ∈ order, now ≤ d.2 ∧ d.2 ≤ (s events).now) ∧
      (∀ pre post i j, events = pre ++ post → (s pre).threads j = .finished →
        (s pre).threads i = handleRequestThread (requests i) → (s events).threads i = .finished →
        List.Sublist [j, i] (order.map Prod.fst)) ∧
      ∃ db', serve db (served requests order) = some db' ∧
        ∀ a, (s events).db.find a = db'.find a := by
  obtain ⟨past, ⟨order, h⟩, _, passed⟩ := Lts.invariant_past serial_step
    ⟨[], serial_start db now requests⟩ (List.mem_singleton_self _) events
  obtain ⟨db', done, rows⟩ := serve_seen (served requests order) db
  refine ⟨order, h.once, h.finished, h.sorted, h.times, ?_, db', done, fun a => ?_⟩
  · intro pre post i j split earlier begins ended
    exact h.precede i j ⟨_, passed pre post split, earlier, begins⟩ ((h.finished i).mpr ended)
  · exact find_eq_of_lastSeen ((h.rows a).trans (rows a).symm)

end Serial

end DPS2.Tracker
