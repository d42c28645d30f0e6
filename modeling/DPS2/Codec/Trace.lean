import Mathlib.Data.List.Basic

/-! Which bytes of an object are read through a pointer to it, until all is read or an exception
stops it. -/
namespace Codec

/-- A range of bytes, by its distance from the start of the object. -/
structure Span where
  offset : Nat
  length : Nat
  deriving DecidableEq

def Span.Inside (size : Nat) (s : Span) : Prop := s.length = 0 ∨ s.offset + s.length ≤ size

instance decidableSpanInside (size : Nat) (s : Span) : Decidable (s.Inside size) :=
  inferInstanceAs (Decidable (_ ∨ _))

structure Trace where
  reads : List Span
  stopped : Bool
  deriving DecidableEq

namespace Trace

def nothing : Trace := ⟨[], false⟩

def read (offset length : Nat) : Trace := ⟨[⟨offset, length⟩], false⟩

/-- What follows is only reached if this passes. -/
def check (passed : Bool) : Trace := ⟨[], !passed⟩

def andThen (t u : Trace) : Trace :=
  if t.stopped then t else ⟨t.reads ++ u.reads, u.stopped⟩

def Inside (size : Nat) (t : Trace) : Prop := ∀ s ∈ t.reads, s.Inside size

instance decidableInside (size : Nat) (t : Trace) : Decidable (t.Inside size) :=
  inferInstanceAs (Decidable (∀ s ∈ t.reads, s.Inside size))

section Lemmas

variable {size offset length : Nat} {passed : Bool} {t u : Trace}

@[simp] theorem inside_nothing : nothing.Inside size := List.forall_mem_nil _

@[simp] theorem inside_read : (read offset length).Inside size ↔
    length = 0 ∨ offset + length ≤ size := List.forall_mem_singleton

@[simp] theorem inside_check : (check passed).Inside size := List.forall_mem_nil _

@[simp] theorem inside_andThen :
    (t.andThen u).Inside size ↔ t.Inside size ∧ (t.stopped = false → u.Inside size) := by
  unfold andThen
  cases stopped : t.stopped <;> simp [Inside, or_imp, forall_and]

@[simp] theorem stopped_nothing : nothing.stopped = false := rfl

@[simp] theorem stopped_read : (read offset length).stopped = false := rfl

@[simp] theorem stopped_check : (check passed).stopped = !passed := rfl

@[simp] theorem stopped_andThen : (t.andThen u).stopped = (t.stopped || u.stopped) := by
  unfold andThen
  cases stopped : t.stopped <;> simp [stopped]

end Lemmas

end Trace

end Codec
