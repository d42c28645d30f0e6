import DPS2.Lts.Run

/-! A level that some events raise and others lower. A condition that asks for no more than
that the level stays positive can be read off the events alone. -/
namespace Lts

variable {S E : Type}

/-- What the events together add to the level. -/
def total (amount : E → Nat) : List E → Nat
  | [] => 0
  | e :: es => amount e + total amount es

@[simp] theorem total_nil (amount : E → Nat) : total amount [] = 0 := rfl

@[simp] theorem total_cons (amount : E → Nat) (e : E) (es : List E) :
    total amount (e :: es) = amount e + total amount es := rfl

/-- The level starts positive and stays so after any number of events. -/
def StaysPositive (up down : E → Nat) (level : Nat) (es : List E) : Prop :=
  ∀ n, total down (es.take n) < level + total up (es.take n)

variable {step : S → E → S} {C : S → E → Prop} {up down : E → Nat}

theorem staysPositive_cons {level level' : Nat} {e : E} {es : List E} (positive : 0 < level)
    (moved : level' + down e = level + up e) :
    StaysPositive up down level (e :: es) ↔ StaysPositive up down level' es := by
  constructor
  · intro h n
    have here := h (n + 1)
    rw [List.take_succ_cons, total_cons, total_cons] at here
    omega
  · intro h n
    cases n with
    | zero => simpa using positive
    | succ n =>
      have later := h n
      rw [List.take_succ_cons, total_cons, total_cons]
      omega

/-- A run is taken under the condition throughout exactly when the level stays positive. -/
theorem throughout_iff_staysPositive {Inv : S → Prop} {level : S → Nat}
    (positive : ∀ s, Inv s → 0 < level s)
    (exact_ : ∀ s e, Inv s → (C s e ↔ down e < level s + up e))
    (kept : ∀ s e, Inv s → C s e →
      Inv (step s e) ∧ level (step s e) + down e = level s + up e)
    {s : S} (start : Inv s) (es : List E) :
    Throughout step C s es ↔ StaysPositive up down (level s) es := by
  induction es generalizing s with
  | nil =>
    constructor
    · intro _ n
      simpa using positive s start
    · intro _
      trivial
  | cons e es ih =>
    constructor
    · rintro ⟨now, later⟩
      obtain ⟨inside, moved⟩ := kept s e start now
      rw [staysPositive_cons (positive s start) moved]
      exact (ih inside).mp later
    · intro h
      have first : down e < level s + up e := by simpa using h 1
      have now := (exact_ s e start).mpr first
      obtain ⟨inside, moved⟩ := kept s e start now
      rw [staysPositive_cons (positive s start) moved] at h
      exact ⟨now, (ih inside).mpr h⟩

end Lts
