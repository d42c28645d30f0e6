import DPS2.Lts.Level

/-! How long a system can go on working while other events delay it. -/
namespace Lts

variable {S E : Type} {step : S → E → S} {C : S → E → Prop}

/-- The measure also counts events that are still to arrive. If every working event from inside
ends or lowers it, and no other event raises it, then a run with more working events than the
measure comes to an end. -/
theorem ends_within {Inside Done : S → Prop} (working arriving : E → Nat) (measure : Nat → S → Nat)
    (progress : ∀ s e, Inside s → C s e → Done (step s e) ∨
      Inside (step s e) ∧ ∀ a, measure a (step s e) + working e ≤ measure (a + arriving e) s)
    {s : S} {es : List E} (start : Inside s) (path : Throughout step C s es)
    (enough : measure (total arriving es) s < total working es) :
    ∃ k ≤ es.length, Done (run step s (es.take k)) := by
  induction es generalizing s with
  | nil => cases enough
  | cons e es ih =>
    rcases progress s e start path.1 with ended | ⟨inside, lower⟩
    · exact ⟨1, Nat.succ_le_succ (Nat.zero_le _), ended⟩
    · have fewer := lower (total arriving es)
      rw [total_cons, total_cons, Nat.add_comm (arriving e)] at enough
      obtain ⟨k, inTime, ended⟩ := ih inside path.2 (by omega)
      exact ⟨k + 1, Nat.succ_le_succ inTime, ended⟩

theorem throughout_of_all {P : E → Prop} {es : List E} (all : ∀ e ∈ es, P e) (s : S) :
    Throughout step (fun _ e => P e) s es := by
  induction es generalizing s with
  | nil => trivial
  | cons e es ih =>
    exact ⟨all e List.mem_cons_self, ih (fun f member => all f (List.mem_cons_of_mem e member)) _⟩

end Lts
