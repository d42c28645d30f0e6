import DPS2.Application.Machine
import DPS2.Quorum.Lead

/-! When checkMajority decides. With a block in the map its lead cannot be taken away any
more; with an empty map it does not count the peers that have not been heard. -/
namespace DPS2.Application

open P2P

/-- The votes for a hash, or for NOBLOCK. -/
def tally (noBlock : Nat) (messages : BlockCounts) : Option Bytes → Nat
  | none => noBlock
  | some hash => ((messages.find? fun e => e.1.hash == hash).map Prod.snd).getD 0

/-- The arguments checkMajority is called with: the keys of the map are distinct, and no peer
has been counted twice. -/
structure Counted (i nPeers noBlock : Nat) (messages : BlockCounts) : Prop where
  keys : (messages.map fun e => e.1.hash).Nodup
  heard : noBlock + (messages.map Prod.snd).sum ≤ i
  known : i ≤ nPeers

/- The scan for the two values with the most votes. -/

def scanEntry (acc : Option BType × Nat × Nat) (entry : BType × Nat) : Option BType × Nat × Nat :=
  let (largestBlock, largest, secondLargest) := acc
  if entry.2 > largest then (some entry.1, entry.2, largest)
  else if entry.2 > secondLargest then (largestBlock, largest, entry.2)
  else acc

/-- The scan of these entries has found the value with the most votes, and a bound for the
votes of all others. -/
structure Top (noBlock : Nat) (seen : BlockCounts) (acc : Option BType × Nat × Nat) : Prop where
  null : acc.1 = none → acc.2.1 = noBlock
  block : ∀ b, acc.1 = some b → (b, acc.2.1) ∈ seen ∧ noBlock ≤ acc.2.2
  others : ∀ e ∈ seen, acc.1.map Block.hash ≠ some e.1.hash → e.2 ≤ acc.2.2
  largest : ∀ e ∈ seen, e.2 ≤ acc.2.1
  ordered : noBlock ≤ acc.2.1 ∧ acc.2.2 ≤ acc.2.1

section Scan

variable {noBlock : Nat} {seen messages : BlockCounts} {acc : Option BType × Nat × Nat}

theorem top_first (entry : BType × Nat) : Top noBlock [entry]
    (if entry.2 = noBlock then (none, noBlock, entry.2)
      else if entry.2 > noBlock then (some entry.1, entry.2, noBlock)
      else (none, noBlock, entry.2)) := by
  have tied : ∀ count, entry.2 = count → count ≤ noBlock →
      Top noBlock [entry] (none, noBlock, count) := by
    rintro _ rfl below
    refine ⟨fun _ => rfl, fun b none_ => (by cases none_), ?_, ?_, Nat.le_refl _, below⟩
    · exact List.forall_mem_singleton.mpr fun _ => Nat.le_refl _
    · exact List.forall_mem_singleton.mpr below
  split
  · rename_i same
    exact tied _ rfl (Nat.le_of_eq same)
  · split
    · rename_i more
      refine ⟨fun none_ => (by cases none_), ?_, ?_, ?_, Nat.le_of_lt more, Nat.le_of_lt more⟩
      · intro b same
        cases same
        exact ⟨List.mem_singleton_self _, Nat.le_refl _⟩
      · exact List.forall_mem_singleton.mpr fun other => absurd rfl other
      · exact List.forall_mem_singleton.mpr (Nat.le_refl _)
    · rename_i different fewer
      exact tied _ rfl (Nat.le_of_not_lt fewer)

theorem top_next (h : Top noBlock seen acc) (entry : BType × Nat) :
    Top noBlock (seen ++ [entry]) (scanEntry acc entry) := by
  obtain ⟨largestBlock, most, second⟩ := acc
  obtain ⟨none_, block, others, largest, least, ordered⟩ := h
  dsimp only at none_ block others largest least ordered
  unfold scanEntry
  dsimp only
  split
  · rename_i more
    refine ⟨fun none_ => (by cases none_), ?_, ?_, ?_, Nat.le_of_lt (Nat.lt_of_le_of_lt least more),
      Nat.le_of_lt more⟩
    · intro b same
      cases same
      exact ⟨List.mem_append_right _ (List.mem_singleton_self _), least⟩
    · simp only [List.forall_mem_append, List.forall_mem_singleton]
      exact ⟨fun e inside _ => largest e inside, fun other => absurd rfl other⟩
    · simp only [List.forall_mem_append, List.forall_mem_singleton]
      exact ⟨fun e inside => Nat.le_of_lt (Nat.lt_of_le_of_lt (largest e inside) more),
        Nat.le_refl _⟩
  · rename_i notMore
    have below : entry.2 ≤ most := Nat.le_of_not_lt notMore
    have grown : ∀ b, largestBlock = some b → (b, most) ∈ seen ++ [entry] ∧ noBlock ≤ second :=
      fun b same => ⟨List.mem_append_left _ (block b same).1, (block b same).2⟩
    split
    · rename_i raised
      refine ⟨none_, fun b same => ⟨(grown b same).1, ?_⟩, ?_, ?_, least, below⟩
      · exact Nat.le_of_lt (Nat.lt_of_le_of_lt (grown b same).2 raised)
      · simp only [List.forall_mem_append, List.forall_mem_singleton]
        exact ⟨fun e inside other =>
          Nat.le_of_lt (Nat.lt_of_le_of_lt (others e inside other) raised), fun _ => Nat.le_refl _⟩
      · simp only [List.forall_mem_append, List.forall_mem_singleton]
        exact ⟨largest, below⟩
    · rename_i notRaised
      refine ⟨none_, grown, ?_, ?_, least, ordered⟩
      · simp only [List.forall_mem_append, List.forall_mem_singleton]
        exact ⟨others, fun _ => Nat.le_of_not_lt notRaised⟩
      · simp only [List.forall_mem_append, List.forall_mem_singleton]
        exact ⟨largest, below⟩

theorem top_scan (h : Top noBlock seen acc) (messages : BlockCounts) :
    Top noBlock (seen ++ messages) (messages.foldl scanEntry acc) := by
  induction messages generalizing seen acc with
  | nil =>
    rw [List.append_nil]
    exact h
  | cons entry messages ih =>
    have all := ih (top_next h entry)
    rw [List.append_assoc] at all
    exact all

theorem mostVotes_top (some_ : messages ≠ []) :
    Top noBlock messages (mostVotes noBlock messages) := by
  cases messages with
  | nil => exact absurd rfl some_
  | cons entry rest => exact top_scan (top_first entry) rest

end Scan

section Decision

variable {i nPeers noBlock : Nat} {messages : BlockCounts}

theorem tally_entry (keys : (messages.map fun e => e.1.hash).Nodup) {e : BType × Nat}
    (inside : e ∈ messages) : tally noBlock messages (some e.1.hash) = e.2 := by
  have found : (messages.find? fun e' => e'.1.hash == e.1.hash).isSome := by
    rw [List.find?_isSome]
    exact ⟨e, inside, beq_self_eq_true _⟩
  obtain ⟨e', hit⟩ := Option.isSome_iff_exists.mp found
  have key := List.find?_some (p := fun e' : BType × Nat => e'.1.hash == e.1.hash) hit
  have same : e' = e := List.inj_on_of_nodup_map keys (List.mem_of_find?_eq_some hit) inside
    (beq_iff_eq.mp key)
  rw [tally, hit, same]
  rfl

/-- A value has the votes of NOBLOCK, of an entry, or none. -/
theorem tally_cases (o : Option Bytes) :
    o = none ∨ (∃ e ∈ messages, o = some e.1.hash) ∨ tally noBlock messages o = 0 := by
  cases o with
  | none => exact Or.inl rfl
  | some hash =>
    right
    cases found : messages.find? fun e => e.1.hash == hash with
    | none =>
      right
      rw [tally, found]
      rfl
    | some e =>
      left
      have key := List.find?_some (p := fun e : BType × Nat => e.1.hash == hash) found
      exact ⟨e, List.mem_of_find?_eq_some found, congrArg some (beq_iff_eq.mp key).symm⟩

/-- With a block in the map, the value decided for is ahead of every other by more than the
number of peers that have not been heard. -/
theorem checkMajority_ahead (keys : (messages.map fun e => e.1.hash).Nodup)
    (some_ : messages ≠ []) {largestBlock : Option BType}
    (decided : checkMajority i nPeers noBlock messages = some largestBlock) (w : Option Bytes)
    (other : w ≠ largestBlock.map Block.hash) :
    tally noBlock messages w + (nPeers - i) <
      tally noBlock messages (largestBlock.map Block.hash) := by
  have top := @mostVotes_top noBlock messages some_
  unfold checkMajority at decided
  split at decided
  · generalize mostVotes noBlock messages = acc at top decided
    obtain ⟨lead, largest, second⟩ := acc
    dsimp only at decided
    split at decided
    · rename_i ahead
      cases Option.some.inj decided
      have votes : tally noBlock messages (largestBlock.map Block.hash) = largest := by
        cases largestBlock with
        | none => exact (top.null rfl).symm
        | some b => exact tally_entry keys (top.block b rfl).1
      have fewer : tally noBlock messages w ≤ second := by
        rcases @tally_cases noBlock messages w with rfl | ⟨e, inside, rfl⟩ | nobody
        · cases largestBlock with
          | none => exact absurd rfl other
          | some b => exact (top.block b rfl).2
        · rw [tally_entry keys inside]
          exact top.others e inside (Ne.symm other)
        · rw [nobody]
          exact Nat.zero_le _
      rw [votes]
      omega
    · contradiction
  · contradiction

end Decision

/-- A decision is safe against all ways in which the peers not yet heard can answer, unless
the map is empty and NOBLOCK has not more votes than there are such peers. -/
theorem majority_final_iff {i nPeers noBlock : Nat} {messages : BlockCounts}
    (counted : Counted i nPeers noBlock messages) :
    (∀ largestBlock, checkMajority i nPeers noBlock messages = some largestBlock →
      ∀ answers : List (Option Bytes), answers.length = nPeers - i →
        Quorum.Leading (Quorum.final (tally noBlock messages) answers)
          (largestBlock.map Block.hash)) ↔
      (messages = [] → nPeers / 2 ≤ i → nPeers - i < noBlock) := by
  simp only [Quorum.leading_final_iff]
  constructor
  · rintro safe rfl half
    have decided : checkMajority i nPeers noBlock [] = some none := by
      rw [checkMajority, if_pos half, if_pos rfl]
    have ahead := safe none decided (some []) (by simp)
    change 0 + (nPeers - i) < noBlock at ahead
    rwa [Nat.zero_add] at ahead
  · intro enough largestBlock decided w other
    by_cases empty : messages = []
    · subst empty
      unfold checkMajority at decided
      split at decided
      · rename_i half
        cases decided
        cases w with
        | none => exact absurd rfl other
        | some hash =>
          change 0 + (nPeers - i) < noBlock
          rw [Nat.zero_add]
          exact enough rfl half
      · contradiction
    · exact checkMajority_ahead counted.keys empty decided w other

/-- One of three peers has sent NOBLOCK; the other two can still answer with one block. -/
theorem early_noBlock_overtaken :
    ¬ ∀ (i nPeers noBlock : Nat) (messages : BlockCounts), Counted i nPeers noBlock messages →
      ∀ largestBlock, checkMajority i nPeers noBlock messages = some largestBlock →
        ∀ answers : List (Option Bytes), answers.length = nPeers - i →
          Quorum.Leading (Quorum.final (tally noBlock messages) answers)
            (largestBlock.map Block.hash) := by
  intro safe
  have ahead := safe 1 3 1 [] ⟨List.nodup_nil, Nat.le_refl 1, by decide⟩ none (by decide)
    [some [], some []] rfl (some []) (by decide)
  revert ahead
  decide

theorem two_of_three_final :
    let messages : BlockCounts := [(⟨default, [1], []⟩, 2)]
    (∀ largestBlock, checkMajority 2 3 0 messages = some largestBlock →
      ∀ answers : List (Option Bytes), answers.length = 3 - 2 →
        Quorum.Leading (Quorum.final (tally 0 messages) answers)
          (largestBlock.map Block.hash)) ↔
      (messages = [] → 3 / 2 ≤ 2 → 3 - 2 < 0) :=
  majority_final_iff ⟨by decide, by decide, by decide⟩

end DPS2.Application
