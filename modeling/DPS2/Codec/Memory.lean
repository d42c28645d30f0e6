import DPS2.Codec.LittleEndian

/-! Reading through a pointer. The memory behind a pointer goes on beyond the bytes that
are known, so a reader is total and its result may depend on bytes nobody wrote. -/
namespace Codec

/-- What a pointer points to, byte by byte. -/
abbrev Memory := Nat → BitVec 8

def Memory.shift (m : Memory) (offset : Nat) : Memory := fun i => m (offset + i)

def Memory.read (m : Memory) (n : Nat) : List (BitVec 8) := (List.range n).map m

/-- An unsigned number of n bytes. -/
def Memory.number (m : Memory) (n : Nat) : Nat := decode (m.read n)

/-- The pointer points to these bytes. -/
def Memory.Holds (m : Memory) (bs : List (BitVec 8)) : Prop := m.read bs.length = bs

def Memory.of (bs : List (BitVec 8)) : Memory := fun i => bs.getD i 0

/-- Bytes written to the start, the memory behind them as before. -/
def Memory.write (m : Memory) (bs : List (BitVec 8)) : Memory := fun i => bs.getD i (m i)

/-- The first bytes of this memory, the other memory behind them. -/
def Memory.keep (m : Memory) (n : Nat) (behind : Memory) : Memory :=
  fun i => if i < n then m i else behind i

section Agree

variable {m m' : Memory}

theorem read_congr {n : Nat} (same : ∀ i < n, m i = m' i) : m.read n = m'.read n :=
  List.map_congr_left fun i inside => same i (List.mem_range.mp inside)

theorem number_congr {n : Nat} (same : ∀ i < n, m i = m' i) : m.number n = m'.number n :=
  congrArg decode (read_congr same)

theorem keep_below {n i : Nat} (behind : Memory) (inside : i < n) : m.keep n behind i = m i :=
  if_pos inside

theorem write_below {bs : List (BitVec 8)} {i : Nat} (inside : i < bs.length) :
    m.write bs i = bs[i] := (List.getElem_eq_getD _).symm

end Agree

section Holds

variable {m : Memory} {xs ys : List (BitVec 8)}

@[simp] theorem read_length (n : Nat) : (m.read n).length = n := by simp [Memory.read]

theorem read_add (a b : Nat) : m.read (a + b) = m.read a ++ (m.shift a).read b := by
  simp only [Memory.read, List.range_add, List.map_append, List.map_map]
  rfl

theorem shift_shift (a b : Nat) : (m.shift a).shift b = m.shift (a + b) := by
  funext i
  simp only [Memory.shift, Nat.add_assoc]

theorem holds_append :
    m.Holds (xs ++ ys) ↔ m.Holds xs ∧ (m.shift xs.length).Holds ys := by
  unfold Memory.Holds
  rw [List.length_append, read_add]
  constructor
  · exact fun same => List.append_inj same (read_length _)
  · rintro ⟨first, second⟩
    rw [first, second]

theorem Memory.Holds.read {n : Nat} (h : m.Holds xs) (length : xs.length = n) : m.read n = xs := by
  rw [← length]
  exact h

theorem Memory.Holds.number {n x : Nat} (h : m.Holds (encode n x)) (fits : x < 256 ^ n) :
    m.number n = x := by
  rw [Memory.number, h.read (encode_length n x), decode_encode_of_lt fits]

theorem holds_of (bs : List (BitVec 8)) : (Memory.of bs).Holds bs := by
  apply List.ext_getElem
  · simp
  · intro i _ h
    simp only [Memory.read, List.getElem_map, List.getElem_range, Memory.of]
    exact (List.getElem_eq_getD 0).symm

end Holds

end Codec
