import Mathlib.Data.List.Nodup
import Mathlib.Data.List.Basic

/-! Tables with a primary key. No two rows have the same key; a row is found by its key, and
each statement on the table says what is found afterwards. -/
namespace Keyed

variable {ρ κ : Type} [DecidableEq κ] {key : ρ → κ}

structure Table (key : ρ → κ) where
  rows : List ρ
  unique : (rows.map key).Nodup

namespace Table

def empty : Table key := ⟨[], List.nodup_nil⟩

def find (t : Table key) (k : κ) : Option ρ := t.rows.find? fun r => key r = k

def count (t : Table key) (k : κ) : Nat := t.rows.countP fun r => key r = k

/-- An insertion fails when the key is already present. -/
def insert (t : Table key) (r : ρ) : Option (Table key) :=
  if new : key r ∉ t.rows.map key then
    some ⟨t.rows ++ [r], by simpa [List.nodup_append, t.unique] using new⟩
  else none

def update (t : Table key) (k : κ) (f : ρ → ρ) (keeps : ∀ r, key (f r) = key r) : Table key where
  rows := t.rows.map fun r => if key r = k then f r else r
  unique := by
    have same : (key ∘ fun r => if key r = k then f r else r) = key := by
      funext r
      by_cases hit : key r = k <;> simp [hit, keeps]
    rw [List.map_map, same]
    exact t.unique

def remove (t : Table key) (k : κ) : Table key where
  rows := t.rows.filter fun r => key r ≠ k
  unique := t.unique.sublist (List.filter_sublist.map key)

def select (t : Table key) (p : ρ → Bool) : List ρ := t.rows.filter p

section Lookup

variable {t : Table key} {k : κ} {r : ρ}

theorem find_iff : t.find k = some r ↔ r ∈ t.rows ∧ key r = k := by
  unfold find
  constructor
  · intro found
    exact ⟨List.mem_of_find?_eq_some found, by simpa using List.find?_some found⟩
  · rintro ⟨row, rfl⟩
    cases found : t.rows.find? fun r' => key r' = key r with
    | none => exact absurd (List.find?_eq_none.mp found r row) (by simp)
    | some first =>
      have first_key : key first = key r := by simpa using List.find?_some found
      rw [List.inj_on_of_nodup_map t.unique (List.mem_of_find?_eq_some found) row first_key]

theorem find_none : t.find k = none ↔ k ∉ t.rows.map key := by
  simp [find]

/-- The row found under the key is the only one that has it. -/
theorem mem_keys_iff : k ∈ t.rows.map key ↔ (t.find k).isSome := by
  rw [← not_iff_not, ← find_none, Option.not_isSome_iff_eq_none]

theorem insert_iff : (t.insert r).isSome ↔ t.find (key r) = none := by
  unfold insert
  rw [find_none]
  split
  · rename_i new
    exact iff_of_true rfl new
  · rename_i old
    exact iff_of_false nofun old

theorem find_insert {t' : Table key} (inserted : t.insert r = some t') (k : κ) :
    t'.find k = if k = key r then some r else t.find k := by
  have new := insert_iff.mp (by rw [inserted]; rfl)
  unfold insert at inserted
  split at inserted
  · cases inserted
    apply Option.ext
    intro x
    rw [find_iff, List.mem_append, List.mem_singleton]
    by_cases same : k = key r
    · subst same
      rw [if_pos rfl, Option.some.injEq]
      constructor
      · rintro ⟨older | rfl, found⟩
        · rw [find_iff.mpr ⟨older, found⟩] at new
          cases new
        · rfl
      · rintro rfl
        exact ⟨Or.inr rfl, rfl⟩
    · rw [if_neg same, find_iff]
      constructor
      · rintro ⟨older | rfl, found⟩
        · exact ⟨older, found⟩
        · exact absurd found.symm same
      · rintro ⟨older, found⟩
        exact ⟨Or.inl older, found⟩
  · cases inserted

theorem find_update {f : ρ → ρ} {keeps : ∀ r, key (f r) = key r} (k' : κ) :
    (t.update k f keeps).find k' = if k' = k then (t.find k).map f else t.find k' := by
  apply Option.ext
  intro x
  rw [find_iff]
  change x ∈ t.rows.map (fun r => if key r = k then f r else r) ∧ _ ↔ _
  rw [List.mem_map]
  by_cases same : k' = k
  · subst same
    rw [if_pos rfl, Option.map_eq_some_iff]
    constructor
    · rintro ⟨⟨r, row, rfl⟩, found⟩
      by_cases hit : key r = k'
      · rw [if_pos hit]
        exact ⟨r, find_iff.mpr ⟨row, hit⟩, rfl⟩
      · rw [if_neg hit] at found
        exact absurd found hit
    · rintro ⟨r, found, rfl⟩
      obtain ⟨row, hit⟩ := find_iff.mp found
      exact ⟨⟨r, row, if_pos hit⟩, (keeps r).trans hit⟩
  · rw [if_neg same, find_iff]
    constructor
    · rintro ⟨⟨r, row, rfl⟩, found⟩
      by_cases hit : key r = k
      · rw [if_pos hit, keeps] at found
        exact absurd (found.symm.trans hit) same
      · rw [if_neg hit] at found ⊢
        exact ⟨row, found⟩
    · rintro ⟨row, found⟩
      exact ⟨⟨x, row, if_neg fun hit => same (found.symm.trans hit)⟩, found⟩

theorem find_remove (k' : κ) : (t.remove k).find k' = if k' = k then none else t.find k' := by
  apply Option.ext
  intro x
  rw [find_iff]
  change x ∈ t.rows.filter (fun r => key r ≠ k) ∧ _ ↔ _
  rw [List.mem_filter, decide_eq_true_eq]
  by_cases same : k' = k
  · subst same
    rw [if_pos rfl]
    exact iff_of_false (fun found => found.1.2 found.2) nofun
  · rw [if_neg same, find_iff]
    constructor
    · exact fun found => ⟨found.1.1, found.2⟩
    · rintro ⟨row, found⟩
      exact ⟨⟨row, fun hit => same (found.symm.trans hit)⟩, found⟩

theorem count_eq : t.count k = if (t.find k).isSome then 1 else 0 := by
  have counted : t.count k = (t.rows.map key).count k := by
    rw [count, List.count_eq_countP, List.countP_map]
    exact List.countP_congr fun r _ => by simp
  rw [counted]
  by_cases present : k ∈ t.rows.map key
  · rw [List.count_eq_one_of_mem t.unique present, if_pos (mem_keys_iff.mp present)]
  · rw [List.count_eq_zero.mpr present, if_neg fun found => present (mem_keys_iff.mpr found)]

/-- A selection lists a key once when its row is selected, and not at all otherwise. -/
theorem count_select (p : ρ → Bool) (k : κ) :
    ((t.select p).map key).count k = if (t.find k).any p then 1 else 0 := by
  have unique : ((t.select p).map key).Nodup := t.unique.sublist (List.filter_sublist.map key)
  have selected : k ∈ (t.select p).map key ↔ (t.find k).any p = true := by
    rw [List.mem_map, Option.any_eq_true]
    constructor
    · rintro ⟨r, row, rfl⟩
      obtain ⟨row, chosen⟩ := List.mem_filter.mp row
      exact ⟨r, find_iff.mpr ⟨row, rfl⟩, chosen⟩
    · rintro ⟨r, found, chosen⟩
      obtain ⟨row, hit⟩ := find_iff.mp found
      exact ⟨r, List.mem_filter.mpr ⟨row, chosen⟩, hit⟩
  by_cases present : k ∈ (t.select p).map key
  · rw [List.count_eq_one_of_mem unique present, if_pos (selected.mp present)]
  · rw [List.count_eq_zero.mpr present, if_neg fun chosen => present (selected.mpr chosen)]

end Lookup

end Table

end Keyed
