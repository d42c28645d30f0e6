import DPS2.P2P.Crc
import DPS2.Istream.Extract
import DPS2.Lts.Run

/-! TransactionReader::ReadFile: two nested loops that take records from a file until its end is
met, and store them in batches. It ends exactly on the files that can be opened and in which no
amount is rejected before the end of the file is met. -/
namespace DPS2.Application.TransactionReader

open P2P Istream

structure Transaction (ID : Type) where
  sender : ID
  receiver : ID
  amount : Double
  deriving DecidableEq, Inhabited

/-- What memset leaves. -/
def Transaction.zero : Transaction Byte := ⟨0, 0, 0⟩

/-- Transactions<ID, N>: the entries of one batch. -/
abbrev Transactions (N : BitVec 32) := Vector (Transaction Byte) N.toNat

/-- The tests of the two loops. -/
inductive Point where
  | outer | inner
  deriving DecidableEq, Inhabited

structure State (N : BitVec 32) where
  file : Istream
  sender : Byte
  receiver : Byte
  amount : Double
  transactions : Transactions N
  i : BitVec 32
  vec : List (Transactions N)
  point : Point
  deriving Inhabited

section Code

variable {N : BitVec 32} (convert : Bytes → Double × Bool)

/-- The stream is opened and the vector is empty; the other variables are not initialised. -/
def start (uninitialised : State N) (content : Option Bytes) : State N :=
  { uninitialised with file := opened content, vec := [], point := .outer }

/-- transaction_file >> sender >> receiver >> amount -/
def extract (s : State N) : State N :=
  let sender := s.file.getChar s.sender
  let receiver := sender.1.getChar s.receiver
  let amount := receiver.1.getDouble convert s.amount
  { s with
    file := amount.1, sender := sender.2, receiver := receiver.2, amount := amount.2 }

/-- The check if the data is valid. -/
def State.blank (s : State N) : Bool := s.sender == 0 && s.receiver == 0 && isZero s.amount

/-- What the loop does with valid data: the variables are assigned from the batch. -/
def assign (s : State N) (i : Fin N.toNat) : State N :=
  let transaction := s.transactions.get i
  { s with
    sender := transaction.sender, receiver := transaction.receiver, amount := transaction.amount }

def body (s : State N) (inside : s.i < N) : State N :=
  let s' := extract convert s
  if s'.blank then { s' with i := s'.i - 1 } else assign s' ⟨s.i.toNat, inside⟩

def next (s : State N) : State N :=
  match s.point with
  | .outer =>
      { s with transactions := Vector.replicate N.toNat .zero, i := 0, point := .inner }
  | .inner =>
      if inside : s.i < N ∧ s.file.eof = false then
        { body convert s inside.1 with i := (body convert s inside.1).i + 1 }
      else
        { s with vec := if s.i ≠ 0 then s.vec ++ [s.transactions] else s.vec, point := .outer }

def result (s : State N) : Option (List (Transactions N)) :=
  match s.point with
  | .outer => if s.file.eof then some s.vec else none
  | .inner => none

/-- ReadFile returns these batches. -/
def ReadFile (uninitialised : State N) (content : Option Bytes)
    (batches : List (Transactions N)) : Prop :=
  Lts.Ends (next convert) result (start uninitialised content) batches

end Code

section Condition

/-- The field of the first amount and what is left after it, or nothing if the bytes end before
an amount. -/
def amountOf (bytes : Bytes) : Option (Bytes × Bytes) :=
  let text := skip (skip (skip bytes).tail).tail
  if text = [] then none else some (field text)

/-- Every amount up to the end of these bytes is accepted, except one that runs to their end. -/
inductive Drains (convert : Bytes → Double × Bool) : Bytes → Prop where
  | cut {bytes : Bytes} (absent : amountOf bytes = none) : Drains convert bytes
  | last {bytes text : Bytes} (amount : amountOf bytes = some (text, [])) : Drains convert bytes
  | record {bytes text rest : Bytes} (amount : amountOf bytes = some (text, rest))
      (accepted : (convert text).2 = true) (later : Drains convert rest) : Drains convert bytes

theorem drains_iff {convert : Bytes → Double × Bool} {bytes text rest : Bytes}
    (amount : amountOf bytes = some (text, rest)) :
    Drains convert bytes ↔ rest = [] ∨ (convert text).2 = true ∧ Drains convert rest := by
  constructor
  · intro drains
    cases drains with
    | cut absent => simp [amount] at absent
    | last whole => simp_all
    | record another accepted later => simp_all
  · rintro (rfl | ⟨accepted, later⟩)
    · exact .last amount
    · exact .record amount accepted later

theorem amount_shorter {bytes text rest : Bytes} (amount : amountOf bytes = some (text, rest)) :
    rest.length < bytes.length := by
  have sender := skip_length_le bytes
  have receiver := skip_length_le (skip bytes).tail
  have blank := skip_length_le (skip (skip bytes).tail).tail
  have left := scan_length_le .start (skip (skip (skip bytes).tail).tail)
  by_cases absent : skip (skip (skip bytes).tail).tail = []
  · simp [amountOf, absent] at amount
  · have taken := List.length_pos_of_ne_nil absent
    simp only [amountOf, if_neg absent, field, Option.some.injEq] at amount
    simp only [amount, List.length_tail] at *
    omega

end Condition

section Steps

variable {N : BitVec 32} (convert : Bytes → Double × Bool) {s : State N}

/-- What a record does to a good stream. -/
theorem extract_file (open_ : s.file.good = true) :
    (extract convert s).file = match amountOf s.file.rest with
      | none => ⟨[], true, true⟩
      | some (text, rest) => ⟨rest, rest.isEmpty, !(convert text).2⟩ := by
  have nothing : skip [] = [] := rfl
  cases sender : skip s.file.rest with
  | nil => simp [extract, amountOf, getChar_of_good open_, getChar_of_not_good,
      getDouble_of_not_good, sender, nothing]
  | cons b afterSender =>
    cases receiver : skip afterSender with
    | nil => simp [extract, amountOf, getChar_of_good, open_, getDouble_of_not_good, sender,
        receiver, nothing]
    | cons c afterReceiver =>
      by_cases text : skip afterReceiver = [] <;>
        simp [extract, amountOf, getChar_of_good, getDouble_of_good, open_, sender, receiver, text]

/-- A stream that is not good stays as it is, and so do the variables. -/
theorem extract_closed (closed : s.file.good = false) :
    extract convert s = { s with file := { s.file with fail := true } } := by
  simp [extract, getChar_of_not_good, getDouble_of_not_good, closed]

theorem next_outer (outer : s.point = .outer) : next convert s =
    { s with transactions := Vector.replicate N.toNat .zero, i := 0, point := .inner } := by
  simp only [next, outer]

theorem next_record (inner : s.point = .inner) (inside : s.i < N) (more : s.file.eof = false) :
    next convert s =
      { body convert s inside with i := (body convert s inside).i + 1 } := by
  simp only [next, inner, inside, more, and_self, dite_true]

theorem next_batch (inner : s.point = .inner) (ended : ¬(s.i < N ∧ s.file.eof = false)) :
    next convert s =
      { s with vec := if s.i ≠ 0 then s.vec ++ [s.transactions] else s.vec, point := .outer } := by
  simp only [next, inner, ended, dite_false]

@[simp] theorem body_file {inside : s.i < N} :
    (body convert s inside).file = (extract convert s).file := by
  simp only [body]
  split <;> rfl

@[simp] theorem body_point {inside : s.i < N} : (body convert s inside).point = s.point := by
  simp only [body]
  split <;> rfl

end Steps

section Termination

variable {N : BitVec 32} {convert : Bytes → Double × Bool} {s : State N}

/-- The end of the file has not been met and never will be. -/
def Stuck (convert : Bytes → Double × Bool) (file : Istream) : Prop :=
  file.eof = false ∧ (file.fail = false → ¬ Drains convert file.rest)

/-- The end of the file has been met or will be. -/
def Live (convert : Bytes → Double × Bool) (file : Istream) : Prop :=
  file.eof = true ∨ file.good = true ∧ Drains convert file.rest

theorem stuck_extract (stuck : Stuck convert s.file) : Stuck convert (extract convert s).file := by
  obtain ⟨more, never⟩ := stuck
  cases failed : s.file.fail with
  | true =>
    have closed : s.file.good = false := by simp [good, failed]
    simp [extract_closed _ closed, Stuck, more]
  | false =>
    rw [extract_file _ (by simp [good, more, failed])]
    cases amount : amountOf s.file.rest with
    | none => exact absurd (.cut amount) (never failed)
    | some found =>
      have rejected := never failed
      simpa [Stuck, drains_iff amount] using rejected

/-- A record that does not meet the end of the file makes the rest shorter. -/
theorem live_extract (open_ : s.file.good = true) (drains : Drains convert s.file.rest) :
    (extract convert s).file.eof = true ∨ (extract convert s).file.good = true ∧
      Drains convert (extract convert s).file.rest ∧
      (extract convert s).file.rest.length < s.file.rest.length := by
  rw [extract_file _ open_]
  cases amount : amountOf s.file.rest with
  | none => exact .inl rfl
  | some found =>
    rcases (drains_iff amount).mp drains with ended | ⟨accepted, later⟩
    · simp [ended]
    · by_cases ended : found.2 = []
      · simp [ended]
      · exact .inr (by simpa [ended, accepted, later] using amount_shorter amount)

theorem stuck_next (stuck : Stuck convert s.file) : Stuck convert (next convert s).file := by
  cases at_ : s.point with
  | outer => simpa only [next_outer _ at_] using stuck
  | inner =>
    by_cases inside : s.i < N
    · simpa only [next_record _ at_ inside stuck.1, body_file] using stuck_extract stuck
    · simpa only [next_batch _ at_ fun h => inside h.1] using stuck

theorem stuck_never_returns (stuck : Stuck convert s.file) (batches : List (Transactions N)) :
    ¬ Lts.Ends (next convert) result s batches := by
  intro ends
  obtain ⟨t, still, ended⟩ :=
    @Lts.Ends.holds _ _ _ _ (fun t : State N => Stuck convert t.file)
      (fun _ stuck _ => stuck_next stuck) _ _ ends stuck
  cases at_ : t.point <;> simp [result, at_, still.1] at ended

/-- How many steps the loops can still take. -/
def remaining (s : State N) : Nat :=
  if s.file.eof then (match s.point with | .outer => 0 | .inner => 1)
  else match s.point with
    | .outer => 3 * s.file.rest.length + 3
    | .inner => 3 * s.file.rest.length + if s.i < N then 2 else 4

theorem remaining_next (positive : 0 < N) (live : Live convert s.file)
    (running : result s = none) :
    Live convert (next convert s).file ∧ remaining (next convert s) < remaining s := by
  cases at_ : s.point with
  | outer =>
    have more : s.file.eof = false := by simpa [result, at_] using running
    have room : 0#32 < N := positive
    simp [next_outer _ at_, live, remaining, at_, more, room]
  | inner =>
    by_cases inside : s.i < N ∧ s.file.eof = false
    · obtain ⟨open_, drains⟩ : s.file.good = true ∧ Drains convert s.file.rest := by
        simpa [Live, inside.2] using live
      rcases live_extract open_ drains with ended | ⟨good_, later, shorter⟩
      · simp [next_record _ at_ inside.1 inside.2, Live, ended, remaining, at_, inside]
      · have more : (extract convert s).file.eof = false := by
          simp only [good, Bool.and_eq_true, Bool.not_eq_true'] at good_
          exact good_.1
        constructor
        · simp [next_record _ at_ inside.1 inside.2, Live, good_, later]
        · simp only [next_record _ at_ inside.1 inside.2, remaining, body_file, body_point, more,
            at_, inside, Bool.false_eq_true, if_false, if_true]
          split <;> omega
    · rw [next_batch _ at_ inside]
      cases ended : s.file.eof with
      | true => simp [live, remaining, ended, at_]
      | false =>
        have full : ¬ s.i < N := fun h => inside ⟨h, ended⟩
        simp [live, remaining, ended, at_, full]

/-- ReadFile returns exactly if the file can be opened and its bytes run out before an amount is
rejected. -/
theorem readFile_returns_iff (positive : 0 < N) (convert : Bytes → Double × Bool)
    (uninitialised : State N) (content : Option Bytes) :
    (∃ batches, ReadFile convert uninitialised content batches) ↔
      ∃ bytes, content = some bytes ∧ Drains convert bytes := by
  constructor
  · rintro ⟨batches, returns⟩
    by_contra never
    refine stuck_never_returns ?_ batches returns
    cases content with
    | none => simp [start, opened, Stuck]
    | some bytes => exact ⟨rfl, fun _ drains => never ⟨bytes, rfl, drains⟩⟩
  · rintro ⟨bytes, rfl, drains⟩
    exact @Lts.ends_of_measure _ _ _ _ (fun t : State N => Live convert t.file) remaining
      (fun _ live running => remaining_next positive live running) _ (.inr ⟨rfl, drains⟩)

/-- A conversion that knows the number 1 and nothing else. -/
def readsOne (text : Bytes) : Double × Bool :=
  if text = [49] then (0x3FF0000000000000, true) else (0, false)

/-- The bytes of the line a b 1. -/
theorem one_record_returns : ∃ batches, ReadFile (N := 1) readsOne default
    (some [97, 32, 98, 32, 49, 10]) batches :=
  (readFile_returns_iff (by decide) readsOne default _).mpr
    ⟨_, rfl, .record rfl rfl (.cut rfl)⟩

/-- A file that cannot be opened, and the bytes of the line a b x. -/
theorem malformed_never_returns :
    (¬ ∃ batches, ReadFile (N := 1) readsOne default none batches) ∧
    ¬ ∃ batches, ReadFile (N := 1) readsOne default (some [97, 32, 98, 32, 120, 10]) batches := by
  constructor
  · rintro ⟨batches, returns⟩
    exact stuck_never_returns ⟨rfl, fun failed => absurd failed (by decide)⟩ batches returns
  · rintro ⟨batches, returns⟩
    have rejected : amountOf [97, 32, 98, 32, 120, 10] = some ([], [120, 10]) := by decide
    refine stuck_never_returns ⟨rfl, fun _ drains => ?_⟩ batches returns
    rcases (drains_iff rejected).mp drains with ended | ⟨accepted, _⟩
    · contradiction
    · exact absurd accepted (by decide)

end Termination

end DPS2.Application.TransactionReader
