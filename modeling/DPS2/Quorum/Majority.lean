import Mathlib.Data.Fintype.Card
import Mathlib.Data.Finset.Card

/-! Values supported by a majority of voters, and chains whose every entry was. If no
voter supports two values for one slot, two such chains of one length are the same. -/
namespace Quorum

variable {P V : Type} [Fintype P]

def Majority (A : Finset P) : Prop := Fintype.card P < 2 * A.card

def Supported (votes : P → V → Prop) (v : V) : Prop :=
  ∃ A : Finset P, Majority A ∧ ∀ p ∈ A, votes p v

section Support

variable {votes votes' : P → V → Prop} {v w : V}

theorem majorities_meet {A B : Finset P} (hA : Majority A) (hB : Majority B) :
    ∃ p, p ∈ A ∧ p ∈ B := by
  classical
  by_contra apart
  have disjoint : Disjoint A B :=
    Finset.disjoint_left.mpr fun p ha hb => apart ⟨p, ha, hb⟩
  have total : (A ∪ B).card ≤ Fintype.card P := Finset.card_le_univ _
  rw [Finset.card_union_of_disjoint disjoint] at total
  unfold Majority at hA hB
  omega

theorem common_voter (hv : Supported votes v) (hw : Supported votes w) :
    ∃ p, votes p v ∧ votes p w := by
  obtain ⟨A, majorA, votedA⟩ := hv
  obtain ⟨B, majorB, votedB⟩ := hw
  obtain ⟨p, inA, inB⟩ := majorities_meet majorA majorB
  exact ⟨p, votedA p inA, votedB p inB⟩

theorem Supported.mono (more : ∀ p v, votes p v → votes' p v) (h : Supported votes v) :
    Supported votes' v := by
  obtain ⟨A, majorA, voted⟩ := h
  exact ⟨A, majorA, fun p member => more p v (voted p member)⟩

end Support

def Single {K : Type} (slot : V → K) (votes : P → V → Prop) : Prop :=
  ∀ p v w, votes p v → votes p w → slot v = slot w → v = w

/-- The states reached from the start by entries whose names were supported. -/
inductive Certified {S E : Type} (grow : S → E → S) (name : S → E → V) (votes : P → V → Prop)
    (start : S) : S → Prop where
  | start : Certified grow name votes start start
  | grow {s : S} (e : E) (before : Certified grow name votes start s)
      (supported : Supported votes (name s e)) : Certified grow name votes start (grow s e)

section Chains

variable {S E : Type} {grow : S → E → S} {name : S → E → V} {votes votes' : P → V → Prop}
  {start s t : S}

theorem Certified.mono (more : ∀ p v, votes p v → votes' p v)
    (h : Certified grow name votes start s) : Certified grow name votes' start s := by
  induction h with
  | start => exact .start
  | grow e _ supported ih => exact .grow e ih (supported.mono more)

theorem Certified.start_le (rank : S → Nat) (longer : ∀ s e, rank (grow s e) = rank s + 1)
    (h : Certified grow name votes start s) : rank start ≤ rank s := by
  induction h with
  | start => exact Nat.le_refl _
  | grow e _ _ ih =>
    rw [longer]
    exact Nat.le_succ_of_le ih

/-- Agreement: the slot of a name is the length of the state before it, and a name
determines that state and its entry. -/
theorem Certified.unique (rank : S → Nat) (slot : V → Nat)
    (longer : ∀ s e, rank (grow s e) = rank s + 1)
    (placed : ∀ s e, slot (name s e) = rank s)
    (named : ∀ s e t f, name s e = name t f → s = t ∧ e = f) (single : Single slot votes)
    (hs : Certified grow name votes start s) (ht : Certified grow name votes start t)
    (same : rank s = rank t) : s = t := by
  cases hs with
  | start =>
    cases ht with
    | start => rfl
    | grow f before _ =>
      have shorter := before.start_le rank longer
      rw [longer] at same
      omega
  | @grow s e before supported =>
    cases ht with
    | start =>
      have shorter := before.start_le rank longer
      rw [longer] at same
      omega
    | @grow t f before' supported' =>
      obtain ⟨p, forE, forF⟩ := common_voter supported supported'
      rw [longer, longer] at same
      have slots : slot (name s e) = slot (name t f) := by
        rw [placed, placed]
        omega
      obtain ⟨rfl, rfl⟩ := named _ _ _ _ (single p _ _ forE forF slots)
      rfl

end Chains

end Quorum
