import Mathlib.Data.List.Basic
import Mathlib.Data.List.TakeWhile

/-! Formatted extraction from an input stream of bytes: white space is skipped, then a character
or the field of a decimal floating-point number is taken. How a field is rounded to a double is
left to a parameter, which also says whether it rejects the field. -/

/-- The bytes that have not been taken, and the eofbit and the failbit. -/
structure Istream where
  rest : List (BitVec 8)
  eof : Bool
  fail : Bool
  deriving DecidableEq, Inhabited

namespace Istream

/-- The bits of an IEEE double. -/
abbrev Double := BitVec 64

/-- Both zeros compare equal to zero. -/
def isZero (x : Double) : Bool := x.extractLsb' 0 63 == 0

def isSpace (b : BitVec 8) : Bool :=
  b == 32 || b == 9 || b == 10 || b == 11 || b == 12 || b == 13

def skip (bytes : List (BitVec 8)) : List (BitVec 8) := bytes.dropWhile isSpace

def good (s : Istream) : Bool := !s.eof && !s.fail

/-- A file that cannot be opened leaves a stream that failed and has not met its end. -/
def opened : Option (List (BitVec 8)) → Istream
  | some content => ⟨content, false, false⟩
  | none => ⟨[], false, true⟩

/-- What comes before an extraction; the extraction goes on if the stream is good after it. -/
def sentry (s : Istream) : Istream :=
  if s.good then
    if skip s.rest = [] then ⟨[], true, true⟩ else ⟨skip s.rest, false, false⟩
  else { s with fail := true }

/-- A variable that cannot be read keeps its value. -/
def getChar (s : Istream) (c : BitVec 8) : Istream × BitVec 8 :=
  let s := s.sentry
  if s.good then
    match s.rest with
    | [] => (⟨[], true, true⟩, c)
    | b :: rest => ({ s with rest := rest }, b)
  else (s, c)

section Field

/-- How far the field of a number has come. -/
structure FieldState where
  /-- At the start, and after the e of an exponent. -/
  sign : Bool
  leading : Bool
  mantissa : Bool
  point : Bool
  exponent : Bool

def FieldState.start : FieldState := ⟨true, true, false, false, false⟩

def isDigit (b : BitVec 8) : Bool := 48 ≤ b && b ≤ 57

/-- The bytes that the next character adds to the field, unless the field ends before it. Of
several leading zeros one is kept. -/
def FieldState.step (s : FieldState) (b : BitVec 8) : Option (FieldState × List (BitVec 8)) :=
  if s.sign && (b == 43 || b == 45) then some ({ s with sign := false }, [b])
  else if b == 46 then
    if s.point || s.exponent then none
    else some ({ s with sign := false, leading := false, point := true }, [b])
  else if s.leading && b == 48 then
    some ({ s with sign := false, mantissa := true }, if s.mantissa then [] else [b])
  else if isDigit b then
    some ({ s with sign := false, leading := false, mantissa := true }, [b])
  else if (b == 101 || b == 69) && s.mantissa && !s.exponent then
    some ({ s with sign := true, leading := false, exponent := true }, [101])
  else none

/-- The field and what is left after it. -/
def scan (s : FieldState) : List (BitVec 8) → List (BitVec 8) × List (BitVec 8)
  | [] => ([], [])
  | b :: bytes =>
      match s.step b with
      | none => ([], b :: bytes)
      | some (t, added) => (added ++ (scan t bytes).1, (scan t bytes).2)

def field (bytes : List (BitVec 8)) : List (BitVec 8) × List (BitVec 8) := scan .start bytes

end Field

/-- A field that is rejected still stores a value. -/
def getDouble (convert : List (BitVec 8) → Double × Bool) (s : Istream) (x : Double) :
    Istream × Double :=
  let s := s.sentry
  if s.good then
    let found := field s.rest
    (⟨found.2, found.2.isEmpty, !(convert found.1).2⟩, (convert found.1).1)
  else (s, x)

section Lemmas

variable {s : Istream} {convert : List (BitVec 8) → Double × Bool}
  {blank bytes more : List (BitVec 8)}

theorem skip_append (spaces : ∀ b ∈ blank, isSpace b = true) :
    skip (blank ++ bytes) = skip bytes := List.dropWhile_append_of_pos spaces

theorem skip_of_head {b : BitVec 8} (head : isSpace b = false) : skip (b :: bytes) = b :: bytes :=
  List.dropWhile_cons_of_neg (by simp [head])

theorem skip_all (spaces : ∀ b ∈ blank, isSpace b = true) : skip blank = [] :=
  List.dropWhile_eq_nil_iff.mpr spaces

theorem skip_length_le (bytes : List (BitVec 8)) : (skip bytes).length ≤ bytes.length :=
  List.length_dropWhile_le _ _

@[simp] theorem good_mk {rest : List (BitVec 8)} {eof fail : Bool} :
    good ⟨rest, eof, fail⟩ = (!eof && !fail) := rfl

theorem sentry_of_good (open_ : s.good = true) :
    s.sentry = if skip s.rest = [] then ⟨[], true, true⟩ else ⟨skip s.rest, false, false⟩ :=
  if_pos open_

theorem sentry_of_not_good (closed : s.good = false) : s.sentry = { s with fail := true } := by
  simp [sentry, closed]

theorem getChar_of_good (open_ : s.good = true) (c : BitVec 8) :
    s.getChar c = match skip s.rest with
      | [] => (⟨[], true, true⟩, c)
      | b :: rest => (⟨rest, false, false⟩, b) := by
  cases text : skip s.rest <;> simp [getChar, sentry_of_good open_, text]

theorem getDouble_of_good (open_ : s.good = true) (x : Double) :
    s.getDouble convert x =
      if skip s.rest = [] then (⟨[], true, true⟩, x)
      else (⟨(field (skip s.rest)).2, (field (skip s.rest)).2.isEmpty,
          !(convert (field (skip s.rest)).1).2⟩, (convert (field (skip s.rest)).1).1) := by
  by_cases text : skip s.rest = [] <;> simp [getDouble, sentry_of_good open_, text]

theorem getChar_of_not_good (closed : s.good = false) (c : BitVec 8) :
    s.getChar c = ({ s with fail := true }, c) := by
  simp [getChar, sentry_of_not_good closed]

theorem getDouble_of_not_good (closed : s.good = false) (x : Double) :
    s.getDouble convert x = ({ s with fail := true }, x) := by
  simp [getDouble, sentry_of_not_good closed]

theorem step_space {t : FieldState} {b : BitVec 8} (space : isSpace b = true) :
    t.step b = none := by
  have cases_ : b = 32 ∨ b = 9 ∨ b = 10 ∨ b = 11 ∨ b = 12 ∨ b = 13 := by
    simpa [isSpace, or_assoc] using space
  rcases cases_ with rfl | rfl | rfl | rfl | rfl | rfl <;> simp [FieldState.step, isDigit]

theorem scan_length_le (t : FieldState) (bytes : List (BitVec 8)) :
    (scan t bytes).2.length ≤ bytes.length := by
  induction bytes generalizing t with
  | nil => exact Nat.le_refl 0
  | cons b bytes ih =>
    cases next : t.step b with
    | none => simp [scan, next]
    | some u =>
      simp only [scan, next, List.length_cons]
      exact Nat.le_succ_of_le (ih u.1)

/-- White space ends a field and is left in the stream. -/
theorem scan_before_space {t : FieldState} {b : BitVec 8} (space : isSpace b = true)
    (whole : (scan t bytes).2 = []) :
    scan t (bytes ++ b :: more) = ((scan t bytes).1, b :: more) := by
  induction bytes generalizing t with
  | nil => simp [scan, step_space space]
  | cons c bytes ih =>
    cases next : t.step c with
    | none => simp [scan, next] at whole
    | some u =>
      simp only [scan, next] at whole
      simp [scan, next, ih whole]

end Lemmas

end Istream
