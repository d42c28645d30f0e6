import DPS2.Keyed.Table
import DPS2.P2P.Frames

/-! The table PeerInfo of the tracker. Each statement of db.c is one atomic step on it; the
blobs of family, port and address together are the primary key. -/
namespace DPS2.Tracker

open P2P

structure PeerInfo where
  pa : PeerAddress
  heartbeat : Int

abbrev PeerTable := Keyed.Table PeerInfo.pa

def timeoutThreshold : Int := 60

section Statements

variable (db : PeerTable) (now : Int) (pa : PeerAddress)

def dbPeerExists : Nat := db.count pa

/-- None is the failure that is reported and ends the tracker. -/
def dbInsertPeer : Option PeerTable := db.insert ⟨pa, now⟩

def dbUpdatePeerHeartbeat : PeerTable :=
  db.update pa (fun row => { row with heartbeat := now }) fun _ => rfl

def dbRemovePeer : PeerTable := db.remove pa

/-- The condition strftime('%s', 'now') - peer_heartbeat < timeout_threshold. -/
def recent (timeout : Int) (row : PeerInfo) : Bool := now - row.heartbeat < timeout

def getNumberOfPeers (timeout : Int) : Nat := (db.select (recent now timeout)).length

def selectPeers (timeout : Int) : List PeerAddress :=
  (db.select (recent now timeout)).map PeerInfo.pa

end Statements

/-- An array of struct peer_address; nothing is known of an entry that was not written. -/
abbrev PeerArray := Nat → Option PeerAddress

/-- The callback, called with the number of the row from 1 on and with its address. -/
def fillPeeraddressTable (data : PeerArray) (row : PeerAddress × Nat) : PeerArray :=
  Function.update data (row.2 - 1) (some row.1)

/-- What db_get_all_peer_addresses leaves in n_items and data. -/
structure PeerAddresses where
  nItems : Nat
  rows : List PeerAddress
  deriving DecidableEq

namespace PeerAddresses

def data (r : PeerAddresses) : PeerArray :=
  (r.rows.zipIdx 1).foldl fillPeeraddressTable fun _ => none

def entries (r : PeerAddresses) : List (Option PeerAddress) := (List.range r.nItems).map r.data

/-- Every row is written into the array, and the array holds the rows and nothing else. -/
def Exact (r : PeerAddresses) : Prop :=
  (∀ row ∈ r.rows.zipIdx 1, row.2 - 1 < r.nItems) ∧ r.entries = r.rows.map some

instance (r : PeerAddresses) : Decidable r.Exact := by
  unfold Exact
  infer_instance

end PeerAddresses

def dbGetAllPeerAddresses (db : PeerTable) (now timeout : Int) : PeerAddresses :=
  ⟨getNumberOfPeers db now timeout, selectPeers db now timeout⟩

/- Row numbers and array indices. -/

theorem fill_get (rows : List PeerAddress) (first : Nat) (data : PeerArray) (i : Nat) :
    (rows.zipIdx (first + 1)).foldl fillPeeraddressTable data i =
      if first ≤ i ∧ i < first + rows.length then rows[i - first]? else data i := by
  induction rows generalizing first data with
  | nil =>
    rw [if_neg]
    · rfl
    · simp
  | cons pa rows ih =>
    rw [List.zipIdx_cons, List.foldl_cons, ih (first + 1)]
    simp only [fillPeeraddressTable, Nat.add_sub_cancel, List.length_cons]
    by_cases here : i = first
    · subst here
      rw [if_neg (by omega), Function.update_self, if_pos (by omega), Nat.sub_self]
      rfl
    · rw [Function.update_of_ne here]
      by_cases later : first + 1 ≤ i
      · have next : i - first = (i - (first + 1)) + 1 := by omega
        rw [next, List.getElem?_cons_succ]
        by_cases inside : i < first + 1 + rows.length
        · rw [if_pos ⟨later, inside⟩, if_pos (by omega)]
        · rw [if_neg (by omega), if_neg (by omega)]
      · rw [if_neg (by omega), if_neg (by omega)]

namespace PeerAddresses

theorem data_get (r : PeerAddresses) (i : Nat) : r.data i = r.rows[i]? := by
  have filled := fill_get r.rows 0 (fun _ => none) i
  rw [Nat.zero_add, Nat.zero_add, Nat.sub_zero] at filled
  rw [data, filled]
  by_cases inside : i < r.rows.length
  · rw [if_pos ⟨Nat.zero_le i, inside⟩]
  · rw [if_neg (fun h => inside h.2), List.getElem?_eq_none (Nat.le_of_not_lt inside)]

theorem exact_iff (r : PeerAddresses) : r.Exact ↔ r.rows.length = r.nItems := by
  constructor
  · rintro ⟨_, filled⟩
    have lengths := congrArg List.length filled
    rw [entries, List.length_map, List.length_map, List.length_range] at lengths
    exact lengths.symm
  · intro same
    constructor
    · rintro ⟨pa, numRow⟩ row
      obtain ⟨first, last, _⟩ := List.mem_zipIdx row
      dsimp only
      omega
    · apply List.ext_getElem?
      intro i
      rw [entries, ← same, List.getElem?_map, List.getElem?_map]
      by_cases inside : i < r.rows.length
      · rw [List.getElem?_range inside, Option.map_some, data_get,
          List.getElem?_eq_getElem inside]
        rfl
      · rw [List.getElem?_eq_none (by rw [List.length_range]; omega),
          List.getElem?_eq_none (by omega)]
        rfl

end PeerAddresses

theorem dbGetAll_exact (db : PeerTable) (now timeout : Int) :
    (dbGetAllPeerAddresses db now timeout).Exact :=
  (PeerAddresses.exact_iff _).mpr (List.length_map _)

end DPS2.Tracker
