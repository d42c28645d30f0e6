import Mathlib.Logic.Function.Basic
import Mathlib.Data.List.Basic

/-! The window of a circular array that ends before the slot top. Entry 0 is the oldest
one; pushing writes the slot top, and popping only shortens the window. -/
namespace Ring

variable {α : Type}

/-- The slot of entry i of a window with this size. -/
def slot (m top size i : Nat) : Nat := (top + m - size + i) % m

def window (data : Nat → α) (m top size : Nat) : List α :=
  (List.range size).map fun i => data (slot m top size i)

section Slots

variable {m top size i : Nat}

theorem slot_end (inside : top < m) (fits : size ≤ m) : slot m top size size = top := by
  have back : top + m - size + size = top + m := by omega
  rw [slot, back, Nat.add_mod_right, Nat.mod_eq_of_lt inside]

theorem slot_push (inside : top < m) (fits : size < m) :
    slot m ((top + 1) % m) (size + 1) i = slot m top size i := by
  unfold slot
  by_cases wraps : top + 1 = m
  · have before : top + m - size + i = 0 + m - (size + 1) + i + m := by omega
    rw [wraps, Nat.mod_self, before, Nat.add_mod_right]
  · have next : top + 1 + m - (size + 1) = top + m - size := by omega
    have inner : top + 1 < m := by omega
    rw [Nat.mod_eq_of_lt inner, next]

theorem slot_ne_end (inside : top < m) (fits : size < m) (entry : i < size) :
    slot m top size i ≠ top := by
  unfold slot
  by_cases below : top + m - size + i < m
  · rw [Nat.mod_eq_of_lt below]
    omega
  · have around : top + m - size + i = top + i - size + m := by omega
    rw [around, Nat.add_mod_right, Nat.mod_eq_of_lt (by omega)]
    omega

theorem slot_pop (fits : size < m) : slot m top (size + 1) (i + 1) = slot m top size i := by
  have same : top + m - (size + 1) + (i + 1) = top + m - size + i := by omega
  rw [slot, slot, same]

end Slots

section Window

variable {data : Nat → α} {m top size : Nat}

theorem mem_window {x : α} :
    x ∈ window data m top size ↔ ∃ i < size, data (slot m top size i) = x := by
  simp [window]

theorem window_push (inside : top < m) (fits : size < m) (x : α) :
    window (Function.update data top x) m ((top + 1) % m) (size + 1) =
      window data m top size ++ [x] := by
  simp only [window, List.range_succ, List.map_append, List.map_cons, List.map_nil]
  congr 1
  · apply List.map_congr_left
    intro i entry
    rw [slot_push inside fits, Function.update_of_ne]
    exact slot_ne_end inside fits (List.mem_range.mp entry)
  · rw [slot_push inside fits, slot_end inside (Nat.le_of_lt fits), Function.update_self]

theorem window_pop (fits : size < m) :
    window data m top (size + 1) = data (slot m top (size + 1) 0) :: window data m top size := by
  simp only [window, List.range_succ_eq_map, List.map_cons, List.map_map]
  congr 1
  apply List.map_congr_left
  intro i _
  exact congrArg data (slot_pop fits)

end Window

end Ring
