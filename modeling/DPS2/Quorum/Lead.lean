import Mathlib.Data.List.Basic

/-! Leads that the voters who have not been heard can no longer take away. -/
namespace Quorum

variable {V : Type} [DecidableEq V]

/-- The votes once the remaining voters have given these answers. -/
def final (tally : V → Nat) (answers : List V) (v : V) : Nat := tally v + answers.count v

def Leading (tally : V → Nat) (v : V) : Prop := ∀ w, w ≠ v → tally w < tally v

/-- A value leads whatever the remaining voters answer exactly when it is ahead of each other
value by more than their number. -/
theorem leading_final_iff (tally : V → Nat) (remaining : Nat) (v : V) :
    (∀ answers : List V, answers.length = remaining → Leading (final tally answers) v) ↔
      ∀ w, w ≠ v → tally w + remaining < tally v := by
  constructor
  · intro always w other
    have all := always (List.replicate remaining w) List.length_replicate w other
    unfold final at all
    rw [List.count_replicate_self, List.count_replicate, if_neg (by simpa using other)] at all
    exact all
  · intro ahead answers heard w other
    have margin := ahead w other
    have few : answers.count w ≤ remaining := heard ▸ List.count_le_length
    unfold final
    omega

end Quorum
