import Mathlib.Data.Finset.Card
import Mathlib.Data.List.Nodup

/-! The first answers of voters, in a log that may hold several answers of one voter. -/
namespace Quorum

variable {K V : Type} [DecidableEq K]

def voters (log : List (K × V)) : Finset K := (log.map Prod.fst).toFinset

def firstAnswer (log : List (K × V)) (k : K) : Option V :=
  (log.find? fun answer => answer.1 == k).map Prod.snd

/-- The number of distinct voters whose first answer is this value. -/
def support [DecidableEq V] (log : List (K × V)) (v : V) : Nat :=
  ((voters log).filter fun k => firstAnswer log k = some v).card

section Logs

variable {log : List (K × V)} {k : K} {v : V}

theorem mem_voters : k ∈ voters log ↔ ∃ v, (k, v) ∈ log := by
  unfold voters
  rw [List.mem_toFinset, List.mem_map]
  constructor
  · rintro ⟨⟨_, v⟩, inside, rfl⟩
    exact ⟨v, inside⟩
  · rintro ⟨v, inside⟩
    exact ⟨(k, v), inside, rfl⟩

theorem voters_snoc : voters (log ++ [(k, v)]) = insert k (voters log) := by
  ext j
  simp [voters]

theorem firstAnswer_isSome (answered : k ∈ voters log) : (firstAnswer log k).isSome := by
  obtain ⟨v, inside⟩ := mem_voters.mp answered
  unfold firstAnswer
  rw [Option.isSome_map, List.find?_isSome]
  exact ⟨(k, v), inside, beq_self_eq_true k⟩

theorem firstAnswer_snoc (j : K) : firstAnswer (log ++ [(k, v)]) j =
    if j ∈ voters log then firstAnswer log j else if k = j then some v else none := by
  by_cases answered : j ∈ voters log
  · rw [if_pos answered]
    have some_ := firstAnswer_isSome answered
    unfold firstAnswer at some_ ⊢
    rw [Option.isSome_map] at some_
    rw [List.find?_append, Option.or_of_isSome some_]
  · rw [if_neg answered]
    have nothing : log.find? (fun answer => answer.1 == j) = none := by
      rw [List.find?_eq_none]
      intro answer inside same
      exact answered (mem_voters.mpr ⟨answer.2, by rw [← beq_iff_eq.mp same]; exact inside⟩)
    unfold firstAnswer
    rw [List.find?_append, nothing, Option.none_or, List.find?_singleton]
    by_cases same : k = j
    · simp [same]
    · simp [same]

variable [DecidableEq V]

/-- A further answer only counts from a voter who had not answered. -/
theorem support_snoc_again (answered : k ∈ voters log) (w : V) :
    support (log ++ [(k, v)]) w = support log w := by
  unfold support
  rw [voters_snoc, Finset.insert_eq_of_mem answered]
  refine congrArg Finset.card (Finset.filter_congr fun j inside => ?_)
  rw [firstAnswer_snoc, if_pos inside]

theorem support_snoc_new (fresh : k ∉ voters log) (w : V) :
    support (log ++ [(k, v)]) w = support log w + if v = w then 1 else 0 := by
  have others : (voters log).filter (fun j => firstAnswer (log ++ [(k, v)]) j = some w) =
      (voters log).filter fun j => firstAnswer log j = some w := by
    refine Finset.filter_congr fun j inside => ?_
    rw [firstAnswer_snoc, if_pos inside]
  unfold support
  rw [voters_snoc, Finset.filter_insert, firstAnswer_snoc, if_neg fresh, if_pos rfl, others]
  by_cases same : v = w
  · rw [if_pos (congrArg some same), if_pos same, Finset.card_insert_of_notMem]
    exact fun inside => fresh (Finset.mem_filter.mp inside).1
  · rw [if_neg (fun equal => same (Option.some.inj equal)), if_neg same, Nat.add_zero]

/-- If nobody has answered twice, each answer counts. -/
theorem support_eq_count (once : (log.map Prod.fst).Nodup) (w : V) :
    support log w = (log.map Prod.snd).count w := by
  induction log using List.reverseRecOn with
  | nil => rfl
  | append_singleton log answer ih =>
    obtain ⟨k, v⟩ := answer
    rw [List.map_append, List.nodup_append] at once
    have fresh : k ∉ voters log := by
      intro answered
      obtain ⟨v', inside⟩ := mem_voters.mp answered
      exact once.2.2 k (List.mem_map.mpr ⟨_, inside, rfl⟩) k (List.mem_singleton_self k) rfl
    rw [support_snoc_new fresh, ih once.1, List.map_append, List.count_append, List.map_singleton,
      List.count_singleton]
    by_cases same : v = w
    · simp [same]
    · simp [same]

end Logs

end Quorum
