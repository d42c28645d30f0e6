import DPS2.Application.BlockTurns
import DPS2.Application.Majority
import DPS2.Quorum.FirstAnswer

/-! What one call of RequestBlockchainBlock has counted: the first answer of each address among
the messages that it has taken from the inbox. -/
namespace DPS2.Application

open P2P ProofOfWork Quorum

variable {sha256 : Bytes → Bytes}

/- The map from hashes to counts. -/

/-- The map is in the order of its keys. -/
def Sorted (messages : BlockCounts) : Prop :=
  messages.Pairwise fun e e' => compareStrings e.1.hash e'.1.hash = .lt

section Counts

variable {noBlock : Nat} {b : BType} {e : BType × Nat} {messages : BlockCounts} {hash : Bytes}

theorem tally_cons : tally noBlock (e :: messages) (some hash) =
    if e.1.hash = hash then e.2 else tally noBlock messages (some hash) := by
  by_cases same : e.1.hash = hash
  · simp [tally, same]
  · simp [tally, same]

theorem tally_absent (absent : ∀ e ∈ messages, e.1.hash ≠ hash) :
    tally noBlock messages (some hash) = 0 := by
  have nothing : messages.find? (fun e => e.1.hash == hash) = none :=
    List.find?_eq_none.mpr fun e inside same => absent e inside (beq_iff_eq.mp same)
  simp [tally, nothing]

theorem not_before_itself {a b : Bytes} (before : compareStrings a b = .lt) : a ≠ b := by
  rintro rfl
  rw [compareStrings_self] at before
  contradiction

theorem sorted_keys (sorted : Sorted messages) : (messages.map fun e => e.1.hash).Nodup := by
  rw [List.nodup_iff_pairwise_ne, List.pairwise_map]
  exact sorted.imp fun before => not_before_itself before

theorem sorted_countBlock (b : BType) (sorted : Sorted messages) :
    Sorted (countBlock b messages) := by
  induction messages with
  | nil => exact List.pairwise_singleton _ _
  | cons entry rest ih =>
    obtain ⟨first, count⟩ := entry
    obtain ⟨least, tail⟩ := List.pairwise_cons.mp sorted
    unfold countBlock
    split
    · rename_i before
      refine List.pairwise_cons.mpr ⟨all_cons before fun e inside => ?_, sorted⟩
      exact Std.TransCmp.lt_trans before (least e inside)
    · exact List.pairwise_cons.mpr ⟨least, tail⟩
    · rename_i behind
      refine List.pairwise_cons.mpr ⟨fun e inside => ?_, ih tail⟩
      rcases countBlock_entries b rest e inside with new | ⟨e', old, same⟩
      · dsimp only
        rw [new]
        exact Std.OrientedCmp.lt_of_gt behind
      · rw [← same]
        exact least e' old

/-- Counting a block is one more vote for its hash, and for no other. -/
theorem tally_countBlock (sorted : Sorted messages) :
    tally noBlock (countBlock b messages) (some hash) =
      tally noBlock messages (some hash) + if b.hash = hash then 1 else 0 := by
  induction messages with
  | nil =>
    rw [countBlock, tally_cons, Nat.add_comm]
    rfl
  | cons entry rest ih =>
    obtain ⟨first, count⟩ := entry
    obtain ⟨least, tail⟩ := List.pairwise_cons.mp sorted
    unfold countBlock
    split
    · rename_i before
      rw [tally_cons]
      by_cases same : b.hash = hash
      · rw [if_pos same, if_pos same, tally_absent]
        subst same
        refine all_cons (not_before_itself before).symm fun e inside => ?_
        exact (not_before_itself (Std.TransCmp.lt_trans before (least e inside))).symm
      · rw [if_neg same, if_neg same, Nat.add_zero]
    · rename_i equal
      have key := Std.LawfulEqCmp.eq_of_compare equal
      rw [tally_cons, tally_cons, key]
      dsimp only
      split
      · rfl
      · rw [Nat.add_zero]
    · rename_i behind
      rw [tally_cons, tally_cons, ih tail]
      dsimp only
      split
      · rename_i own
        have other : b.hash ≠ hash := by
          rintro rfl
          rw [own, compareStrings_self] at behind
          contradiction
        rw [if_neg other, Nat.add_zero]
      · rfl

end Counts

/- The counters of a frame. -/

def hearings (bc : Blockchain (sha256FromDataAndHash sha256)) (taken : List Message) :
    List (PeerAddress × Answer) :=
  taken.filterMap (hearing bc bc.size)

/-- The counters of a frame are those of the messages taken. -/
structure BlockTally (bc : Blockchain (sha256FromDataAndHash sha256)) (n : Nat)
    (taken : List Message) (f : BlockFrame) : Prop where
  index : f.index = bc.size
  nPeers : f.nPeers = n
  sorted : Sorted f.messages
  noBlock : f.noBlock = support (hearings bc taken) .noBlock
  votes : ∀ hash, tally f.noBlock f.messages (some hash) = support (hearings bc taken) (.block hash)
  received : ∀ e ∈ f.messages, Extends bc e.1 ∧ ∃ m ∈ taken, m.body = .block e.1
  seen : ∀ pa, pa ∈ f.clientsSeen ↔ pa ∈ voters (hearings bc taken)
  once : f.clientsSeen.Nodup
  within : f.clientsSeen.length ≤ n
  postponed : f.readMessages = taken.filter (isPostponed bc.size)

section BlockTally

variable {bc : Blockchain (sha256FromDataAndHash sha256)} {nPeers : Nat} {taken : List Message}
  {f g : BlockFrame} {msg : Message}

theorem tallied_start : BlockTally bc nPeers [] ⟨bc.size, nPeers, [], [], 0, 0, []⟩ where
  index := rfl
  nPeers := rfl
  sorted := List.Pairwise.nil
  noBlock := rfl
  votes _ := rfl
  received _ inside := absurd inside List.not_mem_nil
  seen _ := Iff.rfl
  once := List.nodup_nil
  within := Nat.zero_le _
  postponed := rfl

theorem BlockTally.heard (h : BlockTally bc nPeers taken f) :
    f.clientsSeen.length = (voters (hearings bc taken)).card := by
  rw [← List.toFinset_card_of_nodup h.once]
  refine congrArg Finset.card (Finset.ext fun pa => ?_)
  rw [List.mem_toFinset, h.seen]

theorem hearings_unheard (unheard : hearing bc bc.size msg = none) :
    hearings bc (taken ++ [msg]) = hearings bc taken := by
  unfold hearings
  rw [List.filterMap_append, List.filterMap_cons_none unheard, List.filterMap_nil, List.append_nil]

theorem hearings_snoc {pa : PeerAddress} {answer : Answer}
    (heard : hearing bc bc.size msg = some (pa, answer)) :
    hearings bc (taken ++ [msg]) = hearings bc taken ++ [(pa, answer)] := by
  unfold hearings
  rw [List.filterMap_append, List.filterMap_cons_some heard, List.filterMap_nil]

theorem postponed_snoc (now : isPostponed bc.size msg = false) :
    (taken ++ [msg]).filter (isPostponed bc.size) = taken.filter (isPostponed bc.size) := by
  rw [List.filter_append, List.filter_cons_of_neg (by rw [now]; decide), List.filter_nil,
    List.append_nil]

theorem heard_now {pa : PeerAddress} {answer : Answer}
    (heard : hearing bc bc.size msg = some (pa, answer)) : isPostponed bc.size msg = false := by
  unfold isPostponed
  split
  · rename_i body
    unfold hearing at heard
    rw [body] at heard
    dsimp only at heard
    split at heard
    · rename_i same
      rw [same]
      exact decide_eq_false (Nat.lt_irrefl _)
    · contradiction
  · rfl

/-- A frame that has heard an address for the first time. -/
theorem BlockTally.fresh {pa : PeerAddress} {answer : Answer} {noBlock : Nat}
    {messages : BlockCounts}
    (h : BlockTally bc nPeers taken f) (asking : f.clientsSeen.length < f.nPeers)
    (heard : hearing bc bc.size msg = some (pa, answer)) (fresh : pa ∉ f.clientsSeen)
    (sorted : Sorted messages)
    (noBlocks : noBlock = f.noBlock + if answer = .noBlock then 1 else 0)
    (counts : ∀ hash, tally noBlock messages (some hash) =
      tally f.noBlock f.messages (some hash) + if answer = .block hash then 1 else 0)
    (received : ∀ e ∈ messages, Extends bc e.1 ∧ ∃ m ∈ taken ++ [msg], m.body = .block e.1) :
    BlockTally bc nPeers (taken ++ [msg])
      { f with noBlock, messages, clientsSeen := f.clientsSeen ++ [pa] } := by
  have unheard := fresh
  rw [h.seen] at unheard
  have log : hearings bc (taken ++ [msg]) = hearings bc taken ++ [(pa, answer)] :=
    hearings_snoc heard
  refine ⟨h.index, h.nPeers, sorted, ?_, fun hash => ?_, received, fun j => ?_, ?_, ?_, ?_⟩
  · rw [log, support_snoc_new unheard, noBlocks, h.noBlock]
  · rw [log, support_snoc_new unheard, counts, h.votes]
  · rw [log, voters_snoc, Finset.mem_insert, ← h.seen j, List.mem_append, List.mem_singleton,
      or_comm]
  · exact List.nodup_append.mpr ⟨h.once, List.nodup_singleton pa, fun j inside k last => by
      rw [List.mem_singleton.mp last]
      exact fun same => fresh (same ▸ inside)⟩
  · rw [List.length_append, List.length_singleton, ← h.nPeers]
    exact asking
  · rw [postponed_snoc (heard_now heard)]
    exact h.postponed

theorem received_snoc (h : BlockTally bc nPeers taken f) (e : BType × Nat)
    (inside : e ∈ f.messages) :
    Extends bc e.1 ∧ ∃ m ∈ taken ++ [msg], m.body = .block e.1 := by
  obtain ⟨valid, m, old, body⟩ := h.received e inside
  exact ⟨valid, m, List.mem_append_left _ old, body⟩

theorem tallied_hears (h : BlockTally bc nPeers taken f) (asking : f.clientsSeen.length < f.nPeers)
    (hears : Hears bc f msg g) : BlockTally bc nPeers (taken ++ [msg]) g := by
  have index := h.index
  cases hears with
  | noBlock pa heard fresh =>
    rw [index] at heard
    exact h.fresh asking heard fresh h.sorted rfl (fun hash => rfl) (received_snoc h)
  | block pa b body valid heard fresh =>
    rw [index] at heard
    refine h.fresh asking heard fresh (sorted_countBlock b h.sorted) rfl (fun hash => ?_)
      fun e inside => ?_
    · rw [tally_countBlock h.sorted]
      simp only [Answer.block.injEq]
    · rcases countBlock_entries b f.messages e inside with new | ⟨e', old, same⟩
      · rw [new]
        exact ⟨valid, msg, List.mem_append_right _ (List.mem_singleton_self _), body⟩
      · rw [← same]
        exact received_snoc h e' old
  | neither pa heard fresh =>
    rw [index] at heard
    exact h.fresh asking heard fresh h.sorted rfl (fun hash => rfl) (received_snoc h)
  | again pa answer heard seen =>
    rw [index] at heard
    have before := seen
    rw [h.seen] at before
    refine ⟨index, h.nPeers, h.sorted, ?_, fun hash => ?_, received_snoc h, fun j => ?_, h.once,
      h.within, ?_⟩
    · rw [hearings_snoc heard, support_snoc_again before, h.noBlock]
    · rw [hearings_snoc heard, support_snoc_again before, h.votes]
    · rw [hearings_snoc heard, voters_snoc, Finset.insert_eq_of_mem before, h.seen]
    · rw [postponed_snoc (heard_now heard), h.postponed]
  | silent unheard now =>
    rw [index] at unheard now
    refine ⟨index, h.nPeers, h.sorted, ?_, fun hash => ?_, received_snoc h, fun j => ?_, h.once,
      h.within, ?_⟩
    · rw [hearings_unheard unheard, h.noBlock]
    · rw [hearings_unheard unheard, h.votes]
    · rw [hearings_unheard unheard, h.seen]
    · rw [postponed_snoc now, h.postponed]
  | postponed unheard later =>
    rw [index] at unheard later
    refine ⟨index, h.nPeers, h.sorted, ?_, fun hash => ?_,
      fun e inside => received_snoc h e inside, fun j => ?_, h.once, h.within, ?_⟩
    · rw [hearings_unheard unheard, h.noBlock]
    · rw [hearings_unheard unheard]
      exact h.votes hash
    · rw [hearings_unheard unheard, h.seen]
    · rw [List.filter_append, List.filter_cons_of_pos later, List.filter_nil, h.postponed]

end BlockTally

end DPS2.Application
