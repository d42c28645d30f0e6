import DPS2.Tracker.Table

/-! Who is in the list that answers a HEARTBEAT when requests are handled one at a time. The
table forgets all but the last request of a peer since its row was created. -/
namespace DPS2.Tracker

open P2P

inductive Request where
  | heartbeat (pa : PeerAddress)
  | acknowledgeNetinfo (pa : PeerAddress)
  | exit (pa : PeerAddress)
  deriving DecidableEq

section Handlers

variable (db : PeerTable) (now : Int) (pa : PeerAddress)

def handleExit : PeerTable := dbRemovePeer db pa

def handleHeartbeat : PeerTable × PeerAddresses :=
  let reply := dbGetAllPeerAddresses db now timeoutThreshold
  (if dbPeerExists db pa ≠ 0 then dbUpdatePeerHeartbeat db now pa else db, reply)

def handleAcknowledgeNetinfo : Option PeerTable :=
  if dbPeerExists db pa = 0 then dbInsertPeer db now pa
  else some (dbUpdatePeerHeartbeat db now pa)

def handleRequest : Request → Option PeerTable
  | .heartbeat pa => some (handleHeartbeat db now pa).1
  | .acknowledgeNetinfo pa => handleAcknowledgeNetinfo db now pa
  | .exit pa => some (handleExit db pa)

end Handlers

/-- Requests with the times at which they are handled, one after the other. -/
def serve (db : PeerTable) : List (Request × Int) → Option PeerTable
  | [] => some db
  | r :: rs => (handleRequest db r.2 r.1).bind (serve · rs)

/- What the history says about one address. -/

def visits (a : PeerAddress) (hist : List (Request × Int)) : List Int :=
  (hist.filter fun r => r.1 = .acknowledgeNetinfo a ∨ r.1 = .heartbeat a).map Prod.snd

/-- Every ACKNOWLEDGENETINFO from the address is followed by an EXIT from it. -/
def Gone (a : PeerAddress) (hist : List (Request × Int)) : Prop :=
  ∀ pre t post, hist = pre ++ (.acknowledgeNetinfo a, t) :: post → ∃ r ∈ post, r.1 = .exit a

/-- An ACKNOWLEDGENETINFO from the address, which was gone before, created its row; no EXIT
followed, and last is the time of the latest request that refreshed it since. -/
def Registered (a : PeerAddress) (hist : List (Request × Int)) (last : Int) : Prop :=
  ∃ pre t post, hist = pre ++ (.acknowledgeNetinfo a, t) :: post ∧ Gone a pre ∧
    (∀ r ∈ post, r.1 ≠ .exit a) ∧
    (visits a ((.acknowledgeNetinfo a, t) :: post)).getLast? = some last

/- What the table remembers of it. -/

def seen (a : PeerAddress) (last : Option Int) (r : Request × Int) : Option Int :=
  match r.1 with
  | .acknowledgeNetinfo pa => if a = pa then some r.2 else last
  | .heartbeat pa => if a = pa then last.map fun _ => r.2 else last
  | .exit pa => if a = pa then none else last

/-- The heartbeat in the row of an address. -/
def lastSeen (db : PeerTable) (a : PeerAddress) : Option Int := (db.find a).map PeerInfo.heartbeat

section Table

variable {db : PeerTable}

theorem exists_iff (pa : PeerAddress) : dbPeerExists db pa ≠ 0 ↔ (db.find pa).isSome := by
  rw [dbPeerExists, Keyed.Table.count_eq]
  split <;> simp_all

theorem lastSeen_update (now : Int) (pa a : PeerAddress) :
    lastSeen (dbUpdatePeerHeartbeat db now pa) a =
      if a = pa then (lastSeen db pa).map fun _ => now else lastSeen db a := by
  rw [lastSeen, dbUpdatePeerHeartbeat, Keyed.Table.find_update]
  split
  · rw [lastSeen, Option.map_map, Option.map_map]
    rfl
  · rfl

theorem handleRequest_seen (r : Request × Int) :
    ∃ db', handleRequest db r.2 r.1 = some db' ∧
      ∀ a, lastSeen db' a = seen a (lastSeen db a) r := by
  obtain ⟨request, now⟩ := r
  cases request with
  | exit pa =>
    refine ⟨_, rfl, fun a => ?_⟩
    rw [lastSeen, handleExit, dbRemovePeer, Keyed.Table.find_remove]
    simp only [seen]
    split
    · rfl
    · rfl
  | heartbeat pa =>
    refine ⟨_, rfl, fun a => ?_⟩
    simp only [handleHeartbeat, seen]
    by_cases known : dbPeerExists db pa ≠ 0
    · rw [if_pos known, lastSeen_update]
      split
      · rename_i same
        rw [same]
      · rfl
    · rw [if_neg known]
      rw [exists_iff, Option.not_isSome_iff_eq_none] at known
      split
      · rename_i same
        rw [same, lastSeen, known]
        rfl
      · rfl
  | acknowledgeNetinfo pa =>
    simp only [handleRequest, handleAcknowledgeNetinfo, seen]
    by_cases known : dbPeerExists db pa ≠ 0
    · rw [if_neg known]
      refine ⟨_, rfl, fun a => ?_⟩
      rw [lastSeen_update]
      split
      · obtain ⟨row, found⟩ := Option.isSome_iff_exists.mp ((exists_iff pa).mp known)
        rw [lastSeen, found]
        rfl
      · rfl
    · rw [not_not] at known
      rw [if_pos known]
      have new : db.find pa = none := by
        rw [← Option.not_isSome_iff_eq_none, ← exists_iff, known]
        exact fun h => h rfl
      have room : (db.insert (⟨pa, now⟩ : PeerInfo)).isSome := Keyed.Table.insert_iff.mpr new
      obtain ⟨db', inserted⟩ := Option.isSome_iff_exists.mp room
      refine ⟨db', inserted, fun a => ?_⟩
      rw [lastSeen, Keyed.Table.find_insert inserted]
      split
      · rfl
      · rfl

theorem serve_seen (hist : List (Request × Int)) (db : PeerTable) :
    ∃ db', serve db hist = some db' ∧
      ∀ a, lastSeen db' a = hist.foldl (seen a) (lastSeen db a) := by
  induction hist generalizing db with
  | nil => exact ⟨db, rfl, fun _ => rfl⟩
  | cons r rs ih =>
    obtain ⟨next, handled, first⟩ := @handleRequest_seen db r
    obtain ⟨db', served, others⟩ := ih next
    refine ⟨db', ?_, fun a => ?_⟩
    · rw [serve, handled, Option.bind_some, served]
    · rw [others a, first a, List.foldl_cons]

end Table

section History

variable {a : PeerAddress}

theorem seen_stays (t : Int) (post : List (Request × Int)) (stays : ∀ r ∈ post, r.1 ≠ .exit a) :
    post.foldl (seen a) (some t) = some ((visits a post).getLastD t) := by
  induction post generalizing t with
  | nil => rfl
  | cons r post ih =>
    obtain ⟨request, now⟩ := r
    have later : ∀ r ∈ post, r.1 ≠ .exit a :=
      fun r inside => stays r (List.mem_cons_of_mem _ inside)
    rw [List.foldl_cons, visits, List.filter_cons]
    cases request with
    | exit pa =>
      have other : a ≠ pa := fun same => stays _ List.mem_cons_self (by rw [same])
      rw [if_neg (by simp)]
      simp only [seen, if_neg other]
      exact ih t later
    | heartbeat pa =>
      by_cases same : a = pa
      · rw [if_pos (by simp [same]), List.map_cons, List.getLastD_cons]
        simp only [seen, if_pos same, Option.map_some]
        exact ih now later
      · rw [if_neg (by simpa using Ne.symm same)]
        simp only [seen, if_neg same]
        exact ih t later
    | acknowledgeNetinfo pa =>
      by_cases same : a = pa
      · rw [if_pos (by simp [same]), List.map_cons, List.getLastD_cons]
        simp only [seen, if_pos same]
        exact ih now later
      · rw [if_neg (by simpa using Ne.symm same)]
        simp only [seen, if_neg same]
        exact ih t later

theorem seen_some (hist : List (Request × Int)) {last : Int}
    (known : hist.foldl (seen a) none = some last) :
    ∃ pre t post, hist = pre ++ (.acknowledgeNetinfo a, t) :: post ∧
      pre.foldl (seen a) none = none ∧ ∀ r ∈ post, r.1 ≠ .exit a := by
  induction hist using List.reverseRecOn generalizing last with
  | nil => cases known
  | append_singleton hist r ih =>
    obtain ⟨request, now⟩ := r
    rw [List.foldl_concat] at known
    cases before : hist.foldl (seen a) none with
    | none =>
      rw [before] at known
      cases request with
      | exit pa => simp [seen] at known
      | heartbeat pa => simp [seen] at known
      | acknowledgeNetinfo pa =>
        have same : a = pa := by
          by_contra other
          simp [seen, other] at known
        exact ⟨hist, now, [], by rw [same], before, fun _ none => (by cases none)⟩
    | some earlier =>
      obtain ⟨pre, t, post, split, gone, stays⟩ := ih before
      refine ⟨pre, t, post ++ [(request, now)], by rw [split, List.append_assoc]; rfl, gone, ?_⟩
      intro r inside
      rcases List.mem_append.mp inside with older | newest
      · exact stays r older
      · rw [List.mem_singleton.mp newest]
        rintro rfl
        simp [seen] at known

theorem seen_append {pre post : List (Request × Int)} (t : Int)
    (stays : ∀ r ∈ post, r.1 ≠ .exit a) :
    (pre ++ (.acknowledgeNetinfo a, t) :: post).foldl (seen a) none =
      (visits a ((.acknowledgeNetinfo a, t) :: post)).getLast? := by
  have first : visits a ((.acknowledgeNetinfo a, t) :: post) = t :: visits a post := by
    rw [visits, List.filter_cons, if_pos (by simp)]
    rfl
  have registered : seen a (pre.foldl (seen a) none) (.acknowledgeNetinfo a, t) = some t :=
    if_pos rfl
  rw [List.foldl_append, List.foldl_cons, registered, seen_stays t post stays, first,
    List.getLast?_cons, List.getLastD_eq_getLast?]

theorem seen_none (hist : List (Request × Int)) :
    hist.foldl (seen a) none = none ↔ Gone a hist := by
  constructor
  · rintro nothing pre t post rfl
    by_contra stays
    rw [seen_append t (fun r inside left => stays ⟨r, inside, left⟩), List.getLast?_eq_none_iff,
      visits, List.filter_cons, if_pos (by simp)] at nothing
    cases nothing
  · intro gone
    cases known : hist.foldl (seen a) none with
    | none => rfl
    | some last =>
      obtain ⟨pre, t, post, split, _, stays⟩ := seen_some hist known
      obtain ⟨r, inside, left⟩ := gone pre t post split
      exact absurd left (stays r inside)

theorem seen_iff (hist : List (Request × Int)) (last : Int) :
    hist.foldl (seen a) none = some last ↔ Registered a hist last := by
  constructor
  · intro known
    obtain ⟨pre, t, post, rfl, gone, stays⟩ := seen_some hist known
    rw [seen_append t stays] at known
    exact ⟨pre, t, post, rfl, (seen_none pre).mp gone, stays, known⟩
  · rintro ⟨pre, t, post, rfl, _, stays, latest⟩
    rw [seen_append t stays, latest]

theorem Registered.mem_visits {hist : List (Request × Int)} {last : Int}
    (h : Registered a hist last) : last ∈ visits a hist := by
  obtain ⟨pre, t, post, rfl, _, _, latest⟩ := h
  have inside := List.mem_of_getLast? latest
  rw [visits] at inside ⊢
  rw [List.filter_append, List.map_append]
  exact List.mem_append_right _ inside

end History

theorem count_reply (db : PeerTable) (t : Int) (b a : PeerAddress) :
    (handleHeartbeat db t b).2.entries.count (some a) =
      if (db.find a).any (recent t timeoutThreshold) then 1 else 0 := by
  have filled : (handleHeartbeat db t b).2.entries =
      (selectPeers db t timeoutThreshold).map some := (dbGetAll_exact db t timeoutThreshold).2
  rw [filled, List.count_map_of_injective _ some (Option.some_injective _)]
  exact Keyed.Table.count_select _ a

/-- After any requests, the answer to a HEARTBEAT from b contains an address exactly once when
it is registered and its latest visit was less than the threshold ago, and otherwise not at
all. In particular a peer that was silent for so long does not find itself. -/
theorem reply_lists_members (hist : List (Request × Int)) (t : Int) (b a : PeerAddress) :
    ∃ db, serve Keyed.Table.empty hist = some db ∧
      (handleHeartbeat db t b).2.Exact ∧
      ((∃ last, Registered a hist last ∧ t - last < timeoutThreshold) →
        (handleHeartbeat db t b).2.entries.count (some a) = 1) ∧
      ((¬ ∃ last, Registered a hist last ∧ t - last < timeoutThreshold) →
        (handleHeartbeat db t b).2.entries.count (some a) = 0) ∧
      ((∀ visit ∈ visits b hist, timeoutThreshold ≤ t - visit) →
        (handleHeartbeat db t b).2.entries.count (some b) = 0) := by
  obtain ⟨db, served, known⟩ := serve_seen hist Keyed.Table.empty
  have member_iff : ∀ a, (db.find a).any (recent t timeoutThreshold) = true ↔
      ∃ last, Registered a hist last ∧ t - last < timeoutThreshold := by
    intro a
    have remembered : lastSeen db a = hist.foldl (seen a) none := known a
    rw [Option.any_eq_true]
    constructor
    · rintro ⟨row, found, recently⟩
      refine ⟨row.heartbeat, (seen_iff hist _).mp ?_, of_decide_eq_true recently⟩
      rw [← remembered, lastSeen, found]
      rfl
    · rintro ⟨last, registered, recently⟩
      rw [← seen_iff, ← remembered, lastSeen, Option.map_eq_some_iff] at registered
      obtain ⟨row, found, rfl⟩ := registered
      exact ⟨row, found, decide_eq_true recently⟩
  refine ⟨db, served, dbGetAll_exact db t _, fun member => ?_, fun stranger => ?_,
    fun silent => ?_⟩
  · rw [count_reply, if_pos ((member_iff a).mpr member)]
  · rw [count_reply, if_neg fun row => stranger ((member_iff a).mp row)]
  · rw [count_reply, if_neg]
    intro row
    obtain ⟨last, registered, recently⟩ := (member_iff b).mp row
    have long := silent last registered.mem_visits
    omega

end DPS2.Tracker
