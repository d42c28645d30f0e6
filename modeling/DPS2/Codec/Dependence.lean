import DPS2.Codec.Memory
import Mathlib.Data.Set.Card

/-! Which bytes of a memory the result of a reader depends on. -/
namespace Codec

section Numbers

theorem encode_decode (bs : List (BitVec 8)) : encode bs.length (decode bs) = bs := by
  induction bs with
  | nil => rfl
  | cons b bs ih =>
    have byte := b.isLt
    have low : BitVec.ofNat 8 (b.toNat + 256 * decode bs) = b := by
      apply BitVec.eq_of_toNat_eq
      rw [BitVec.toNat_ofNat]
      omega
    have high : (b.toNat + 256 * decode bs) / 256 = decode bs := by omega
    rw [decode, List.length_cons, encode, low, high, ih]

theorem holds_number (m : Memory) (n : Nat) : m.Holds (encode n (m.number n)) := by
  have bytes := encode_decode (m.read n)
  rw [read_length] at bytes
  rw [Memory.Holds, Memory.number, bytes, read_length]

theorem holds_read (m : Memory) (n : Nat) : m.Holds (m.read n) := by
  rw [Memory.Holds, read_length]

end Numbers

section Dependence

variable {α : Type} {f : Memory → α} {m m' : Memory}

/-- Another byte in this place would change the result. -/
def DependsAt (f : Memory → α) (m : Memory) (k : Nat) : Prop := ∃ v, f (Function.update m k v) ≠ f m

/-- The memories with the same result are those with the same bytes in these places. -/
def ReadsExactly (f : Memory → α) (m : Memory) (places : Finset Nat) : Prop :=
  ∀ m', f m' = f m ↔ ∀ k ∈ places, m' k = m k

theorem ReadsExactly.dependsAt_iff {places : Finset Nat} (h : ReadsExactly f m places) (k : Nat) :
    DependsAt f m k ↔ k ∈ places := by
  constructor
  · rintro ⟨v, different⟩
    by_contra outside
    apply different
    rw [h]
    intro i inside
    exact Function.update_of_ne (fun same : i = k => outside (same ▸ inside)) v m
  · intro inside
    refine ⟨m k + 1, fun same => ?_⟩
    have here := (h _).mp same k inside
    rw [Function.update_self] at here
    exact absurd here (by simp)

theorem ReadsExactly.count {places : Finset Nat} (h : ReadsExactly f m places) :
    Set.ncard {k | DependsAt f m k} = places.card := by
  have same : {k | DependsAt f m k} = (places : Set Nat) := Set.ext fun k => h.dependsAt_iff k
  rw [same, Set.ncard_coe_finset]

theorem Memory.Holds.iff_same {bs : List (BitVec 8)} (h : m.Holds bs) :
    m'.Holds bs ↔ ∀ i < bs.length, m' i = m i := by
  constructor
  · intro h' i inside
    have bytes : m'.read bs.length = m.read bs.length := Eq.trans h' h.symm
    exact List.map_inj_left.mp bytes i (List.mem_range.mpr inside)
  · intro same
    exact (read_congr same).trans h

end Dependence

end Codec
