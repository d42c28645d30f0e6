import DPS2.Lts.Run
import DPS2.P2P.Frames
import DPS2.Ring.Window

/-! The queue of the tracker: a circular array of which only the slot behind the newest
entry and the number of entries are stored. It behaves as a list of bounded length. -/
namespace DPS2.Tracker

open P2P

variable {α : Type}

def sizeAdd (a b : Nat) : Nat := (a + b) % 2 ^ 64

/-- What the mutex of a queue_lock protects. The entries are pointers, NULL being none. -/
structure QueueLock (α : Type) where
  top : Nat
  size : Nat
  maxSize : Nat
  data : Nat → Option α

/-- malloc leaves arbitrary data in the max_size slots. The size in bytes that it is given, which
wraps from 2 ^ 61 slots on, is not modelled. -/
def queueInit (data : Nat → Option α) (maxSize : Nat) : QueueLock α := ⟨0, 0, maxSize, data⟩

def queueIsFull (ql : QueueLock α) : Bool := ql.size == ql.maxSize

def queueIsEmpty (ql : QueueLock α) : Bool := ql.size == 0

/-- The slot (top - i + max_size) % max_size, in unsigned arithmetic. -/
def QueueLock.slotBack (ql : QueueLock α) (i : Nat) : Nat :=
  sizeAdd (sizeSub ql.top i) ql.maxSize % ql.maxSize

def queueEnqueue (ql : QueueLock α) (newEntry : α) : QueueLock α × Nat :=
  if queueIsFull ql then (ql, 0)
  else
    ({ ql with
        data := Function.update ql.data ql.top (some newEntry)
        top := sizeAdd ql.top 1 % ql.maxSize
        size := sizeAdd ql.size 1 }, 1)

def queueDequeue (ql : QueueLock α) : QueueLock α × Option α :=
  if queueIsEmpty ql then (ql, none)
  else ({ ql with size := sizeSub ql.size 1 }, ql.data (ql.slotBack ql.size))

def QueueLock.items (ql : QueueLock α) : List α :=
  (Ring.window ql.data ql.maxSize ql.top ql.size).reduceOption

inductive QueueCall (α : Type) where
  | enqueue (newEntry : α)
  | dequeue

def QueueLock.call (ql : QueueLock α) : QueueCall α → QueueLock α
  | .enqueue newEntry => (queueEnqueue ql newEntry).1
  | .dequeue => (queueDequeue ql).1

/- What the queue is for. -/

/-- A list of at most capacity entries, the oldest one first. -/
structure Fifo (α : Type) (capacity : Nat) where
  items : List α
  bounded : items.length ≤ capacity

namespace Fifo

variable {capacity : Nat}

def empty (capacity : Nat) : Fifo α capacity := ⟨[], Nat.zero_le _⟩

def enqueue (f : Fifo α capacity) (x : α) : Fifo α capacity × Nat :=
  if room : f.items.length < capacity then
    (⟨f.items ++ [x], by rw [List.length_append]; exact room⟩, 1)
  else (f, 0)

def dequeue (f : Fifo α capacity) : Fifo α capacity × Option α :=
  (⟨f.items.tail, Nat.le_trans (by simp) f.bounded⟩, f.items.head?)

def call (f : Fifo α capacity) : QueueCall α → Fifo α capacity
  | .enqueue x => (f.enqueue x).1
  | .dequeue => f.dequeue.1

end Fifo

/- The circular array is that list. -/

/-- The window before top holds the entries of the list. -/
structure Stores {capacity : Nat} (ql : QueueLock α) (f : Fifo α capacity) : Prop where
  maxSize : ql.maxSize = capacity
  top : 0 < capacity → ql.top < capacity
  size : ql.size = f.items.length
  contents : Ring.window ql.data capacity ql.top ql.size = f.items.map some

section Stores

variable {capacity : Nat} {ql : QueueLock α} {f : Fifo α capacity}

theorem stores_init (data : Nat → Option α) :
    Stores (queueInit data capacity) (Fifo.empty capacity) where
  maxSize := rfl
  top room := room
  size := rfl
  contents := rfl

theorem slotBack_eq (small : capacity < 2 ^ 63) (h : Stores ql f) {i : Nat} (some : 0 < i)
    (inside : i ≤ ql.size) : ql.slotBack i = Ring.slot capacity ql.top ql.size (ql.size - i) := by
  have bounded := f.bounded
  have size := h.size
  have top := h.top (by omega)
  have exact_ :
      sizeAdd (sizeSub ql.top i) capacity = ql.top + capacity - ql.size + (ql.size - i) := by
    unfold sizeAdd sizeSub
    omega
  rw [QueueLock.slotBack, h.maxSize, exact_]
  rfl

theorem items_eq (h : Stores ql f) : ql.items = f.items := by
  rw [QueueLock.items, h.maxSize, h.contents]
  simp [List.reduceOption]

theorem mem_items_iff (small : capacity < 2 ^ 63) (h : Stores ql f) (x : α) :
    x ∈ f.items ↔ ∃ i, 1 ≤ i ∧ i ≤ ql.size ∧ ql.data (ql.slotBack i) = some x := by
  have contents : x ∈ f.items ↔ some x ∈ Ring.window ql.data capacity ql.top ql.size := by
    rw [h.contents]
    simp
  rw [contents, Ring.mem_window]
  constructor
  · rintro ⟨i, inside, entry⟩
    refine ⟨ql.size - i, by omega, by omega, ?_⟩
    rw [slotBack_eq small h (by omega) (by omega), Nat.sub_sub_self (Nat.le_of_lt inside), entry]
  · rintro ⟨i, first, last, entry⟩
    refine ⟨ql.size - i, by omega, ?_⟩
    rw [← slotBack_eq small h first last, entry]

theorem full_iff (h : Stores ql f) : queueIsFull ql = true ↔ ¬ f.items.length < capacity := by
  have bounded := f.bounded
  rw [queueIsFull, beq_iff_eq, h.maxSize, h.size]
  omega

theorem empty_iff (h : Stores ql f) : queueIsEmpty ql = true ↔ f.items = [] := by
  rw [queueIsEmpty, beq_iff_eq, h.size, List.length_eq_zero_iff]

theorem enqueue_stores (small : capacity < 2 ^ 63) (h : Stores ql f) (x : α) :
    (queueEnqueue ql x).2 = (f.enqueue x).2 ∧
      Stores (queueEnqueue ql x).1 (f.enqueue x).1 := by
  unfold queueEnqueue Fifo.enqueue
  split
  · rename_i full
    rw [dif_neg ((full_iff h).mp full)]
    exact ⟨rfl, h⟩
  · rename_i notFull
    have room : f.items.length < capacity := by
      by_contra full
      exact notFull ((full_iff h).mpr full)
    have inside := h.top (by omega)
    have size := h.size
    have top : sizeAdd ql.top 1 = ql.top + 1 := by
      unfold sizeAdd
      omega
    have next : sizeAdd ql.size 1 = ql.size + 1 := by
      unfold sizeAdd
      omega
    rw [dif_pos room]
    refine ⟨rfl, h.maxSize, fun some => ?_, ?_, ?_⟩
    · rw [← h.maxSize] at some ⊢
      exact Nat.mod_lt _ some
    · rw [next, size, List.length_append]
      rfl
    · rw [next, top, h.maxSize, Ring.window_push inside (by omega), h.contents, List.map_append]
      rfl

theorem dequeue_stores (small : capacity < 2 ^ 63) (h : Stores ql f) :
    (queueDequeue ql).2 = f.dequeue.2 ∧ Stores (queueDequeue ql).1 f.dequeue.1 := by
  unfold queueDequeue Fifo.dequeue
  obtain ⟨items, bounded⟩ := f
  cases items with
  | nil =>
    rw [if_pos ((empty_iff h).mpr rfl)]
    exact ⟨rfl, h⟩
  | cons oldest rest =>
    have size : ql.size = rest.length + 1 := h.size
    have some : queueIsEmpty ql ≠ true := fun empty => by cases (empty_iff h).mp empty
    have fits : rest.length < capacity := bounded
    have contents := h.contents
    rw [size, Ring.window_pop fits] at contents
    obtain ⟨first, tail⟩ := List.cons.inj contents
    have shorter : sizeSub (rest.length + 1) 1 = rest.length := by
      unfold sizeSub
      omega
    rw [if_neg some, slotBack_eq small h (by omega) (Nat.le_refl _), size, Nat.sub_self, first,
      shorter]
    exact ⟨rfl, h.maxSize, h.top, rfl, tail⟩

theorem items_enqueue (small : capacity < 2 ^ 63) (h : Stores ql f)
    (room : ql.items.length < capacity) (x : α) :
    (queueEnqueue ql x).1.items = ql.items ++ [x] := by
  rw [items_eq h] at room ⊢
  rw [items_eq (enqueue_stores small h x).2, Fifo.enqueue, dif_pos room]

theorem items_dequeue (small : capacity < 2 ^ 63) (h : Stores ql f) :
    (queueDequeue ql).1.items = ql.items.tail := by
  rw [items_eq h, items_eq (dequeue_stores small h).2, Fifo.dequeue]

theorem call_stores (small : capacity < 2 ^ 63) (h : Stores ql f) (c : QueueCall α) :
    Stores (ql.call c) (f.call c) := by
  cases c with
  | enqueue x => exact (enqueue_stores small h x).2
  | dequeue => exact (dequeue_stores small h).2

theorem calls_stores (small : capacity < 2 ^ 63) (h : Stores ql f) (calls : List (QueueCall α)) :
    Stores (Lts.run QueueLock.call ql calls) (Lts.run Fifo.call f calls) := by
  induction calls generalizing ql f with
  | nil => exact h
  | cons c calls ih => exact ih (call_stores small h c)

end Stores

end DPS2.Tracker
